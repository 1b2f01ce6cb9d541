import Conductor.Proofs.Account.Launched
import Conductor.Proofs.Hook.Growing

/-!
# Emissions among emissions

A hook may itself register hooks, emit hooks, handle what comes of that, do something else, and return or
raise (`Telling`). The hooks that it emits do the same, and so on; how deep this goes is bounded, and what
hooks do at the bound is left open (`nested`): they may fail because no more calls fit on the stack.

`Emission` says how an emission goes. The hooks that are registered when it begins run one after another
(`InTurn`), each from the moment at which the one before it has returned, up to the first that fails, and
its failure is that of the emission. What each of them does is followed action by action
(`Telling.Follows`): what it emits is an emission in the same sense, and what it registers stands behind
all that was registered before, for as long as the run goes on (`Registered`).

**Theorem (`emission_nested`).** Every emission goes like that, at whatever moment and in whatever branch
it begins.
-/

namespace Conductor

open Outline (plain emit)

variable {body : Procedure → Routine Value} {R : Run body} {run : Handlers}
  {plan : Procedure → Outline Value} {N b n k : Nat} {α : Type} {ds : List Deed}

/-! ## One after another -/

/-- How user code goes that is called for some references one after another: each call begins at the
moment at which the one before it has returned, up to the first that fails. -/
inductive InTurn (P : Ref .callable → Nat → Ending Value → Prop) :
    Nat → List (Ref .callable) → Ending Unit → Prop where
  | complete (n : Nat) : InTurn P n [] (some (n, .ok ()))
  | next {c : Ref .callable} {cs : List (Ref .callable)} {n m : Nat} {v : Value} {e : Ending Unit}
    (h : P c n (some (m, .ok v))) (hs : InTurn P m cs e) : InTurn P n (c :: cs) e
  | fails {c : Ref .callable} (cs : List (Ref .callable)) {n m : Nat} {f : Failure}
    (h : P c n (some (m, .error f))) : InTurn P n (c :: cs) (some (m, .error f))
  | going {c : Ref .callable} (cs : List (Ref .callable)) {n : Nat} (h : P c n none) :
    InTurn P n (c :: cs) none

/-- How an emission goes that begins at a moment, given how a hook goes. It finds the hooks that are
registered then, and they run in turn, unless the horizon comes before the first. -/
def Emission (R : Run body) (N : Nat) (P : Ref .callable → Nat → Ending Value → Prop) (name : HookName)
    (n : Nat) (e : Ending Unit) : Prop :=
  (e = none ∧ N < n + 3) ∨
    ∃ m, n < m ∧ m ≤ n + 3 ∧ InTurn P m ((R.store n).hooks.under name) e

namespace Outline

/-- Runs the hooks at a point, given how one of them is run. -/
def emitBy (name : HookName) (x : Ref .callable → Outline Value) : Outline Unit := do
  let hooks ← plain (.read fun s => s.hooks.under name)
  if hooks.isEmpty then pure ()
  else
    plain (.log .debug HookName.logger "emitting_hook"
      [("hook", .text name.text), ("hook_count", .int hooks.length)])
    each (fun c => x c >>= fun _ => pure ()) hooks

theorem plain_each (f : α → Routine Unit) :
    ∀ xs : List α, plain (Routine.each f xs) = each (fun a => plain (f a)) xs
  | [] => rfl
  | x :: xs => by
    refine (plain_bind (f x) fun _ => Routine.each f xs).trans ?_
    rw [funext fun _ => plain_each f xs]
    rfl

/-- An emission in the middle of other code runs hooks like any other. -/
theorem plain_emit (name : HookName) (call : Handlers) (args : List Value) :
    plain (name.emit call args) = emitBy name fun c => plain (call c args) := by
  refine (plain_bind (.read fun s => s.hooks.under name) _).trans (congrArg _ (funext fun hooks => ?_))
  split
  · rfl
  refine (plain_bind _ _).trans (congrArg _ (funext fun _ => ?_))
  refine (plain_each _ hooks).trans (congrArg (each · hooks) (funext fun c => ?_))
  exact plain_bind (call c args) fun _ => .done ()

end Outline

namespace Account

/-- Behind straight code the rest goes on in the store that it has made, unless the horizon comes before
its end. -/
theorem straight_before {β : Type} {r : Routine α} {g : α → Outline β} {e : Ending β}
    (h : Account R run plan N b n (.now (plain r >>= g)) ds e) {i : Nat} {a : α} {s : Store}
    (hr : r.eval (R.store n) = some (i, .ok a, s)) :
    (e = none ∧ N < n + i) ∨ R.store (n + i) = s ∧ Account R run plan N b (n + i) (.now (g a)) ds e := by
  rcases h.bind with ⟨ds₁, t, a', ds₂, h₁, h₂, rfl⟩ | ⟨t, f, h₁, rfl⟩ | ⟨h₁, rfl⟩
  · obtain ⟨rfl, he | ⟨he, hs⟩⟩ := h₁.straight hr <;> cases he
    exact Or.inr ⟨hs, h₂⟩
  · obtain ⟨-, he | ⟨he, -⟩⟩ := h₁.straight hr <;> cases he
  · refine Or.inl ⟨rfl, lt_of_not_ge fun hN => ?_⟩
    cases h₁.straight_over hr hN

variable {P : Ref .callable → Nat → Ending Value → Prop} {x : Ref .callable → Outline Value}

theorem inTurn (hx : ∀ {c n ds e}, Account R run plan N b n (.now (x c)) ds e → P c n e) :
    ∀ {cs : List (Ref .callable)} {n : Nat} {ds : List Deed} {e : Ending Unit},
      Account R run plan N b n (.now (Outline.each (fun c => x c >>= fun _ => pure ()) cs)) ds e →
      InTurn P n cs e
  | [], n, ds, e, h => by
    obtain ⟨-, rfl⟩ := h.done_iff
    exact .complete n
  | c :: cs, n, ds, e, h => by
    have h : Account R run plan N b n (.now (x c >>= fun _ =>
        Outline.each (fun c => x c >>= fun _ => pure ()) cs)) ds e := by
      have heq : Outline.each (fun c => x c >>= fun _ => pure ()) (c :: cs) =
          (x c >>= fun _ => (pure () : Outline Unit)) >>= fun _ =>
            Outline.each (fun c => x c >>= fun _ => pure ()) cs := rfl
      rw [heq] at h
      simpa only [bind_assoc, pure_bind] using h
    rcases h.bind with ⟨ds₁, t, v, ds₂, h₁, h₂, rfl⟩ | ⟨t, f, h₁, rfl⟩ | ⟨h₁, rfl⟩
    · exact .next (hx h₁) (inTurn hx h₂)
    · exact .fails cs (hx h₁)
    · exact .going cs (hx h₁)

/-- **The hooks of an emission run in turn.** They are those that are registered when it begins. -/
theorem emission_inTurn (hx : ∀ {c n ds e}, Account R run plan N b n (.now (x c)) ds e → P c n e)
    {name : HookName} {e : Ending Unit}
    (h : Account R run plan N b n (.now (Outline.emitBy name x)) ds e) : Emission R N P name n e := by
  rcases h.straight_before (Routine.eval_read _ _) with ⟨rfl, hN⟩ | ⟨-, h⟩
  · exact Or.inl ⟨rfl, by omega⟩
  cases hhooks : (R.store n).hooks.under name with
  | nil =>
    rw [hhooks] at h
    obtain ⟨-, rfl⟩ := h.done_iff
    exact Or.inr ⟨n + 1, by omega, by omega, hhooks ▸ .complete _⟩
  | cons c cs =>
    rw [hhooks] at h
    rcases h.straight_before (Routine.eval_alter _ _) with ⟨rfl, hN⟩ | ⟨-, h⟩
    · exact Or.inl ⟨rfl, by omega⟩
    · exact Or.inr ⟨n + 1 + 2, by omega, by omega, hhooks ▸ h.inTurn hx⟩

end Account

/-! ## What hooks do about hooks -/

/-- What a hook does about hooks. -/
inductive Telling where
  /-- It returns or raises. -/
  | ends (o : Except Failure Value)
  /-- It registers a hook and goes on with what comes of that. -/
  | adds (point : String) (c : Script.Callable) (rest : Except Failure Unit → Telling)
  /-- It emits hooks and goes on with what comes of that. -/
  | emits (name : HookName) (args : List Value) (rest : Except Failure Unit → Telling)
  /-- It does something else and goes on with what comes of that. -/
  | works (r : Routine Value) (rest : Except Failure Value → Telling)

namespace Telling

/-- What runs, given how the hooks are run that it emits. -/
def routine (call : Handlers) : Telling → Routine Value
  | .ends o => .ofOutcome o
  | .adds point c rest => (Script.registerHook point c).thenOn fun o => (rest o).routine call
  | .emits name args rest => (name.emit call args).thenOn fun o => (rest o).routine call
  | .works r rest => r.thenOn fun o => (rest o).routine call

/-- Whatever else it does, it takes no hook away. -/
def Spares : Telling → Prop
  | .ends _ => True
  | .adds _ _ rest => ∀ o, (rest o).Spares
  | .emits _ _ rest => ∀ o, (rest o).Spares
  | .works r rest => (∀ s, r.Obeys .growing s) ∧ ∀ o, (rest o).Spares

end Telling

/-- How user code runs that emits hooks that emit hooks, and so on, as deep as is given; deeper down
something else is run. -/
def nested (code : Ref .callable → List Value → Telling) (deep : Handlers) : Nat → Handlers
  | 0 => deep
  | k + 1 => fun c args => (code c args).routine (nested code deep k)

/-- What registering a hook makes of a store. At a known point the hook then stands behind all others; at
an unknown point a failure comes of it, which is numbered, and nothing else happens. -/
def Registers (point : String) (c : Script.Callable) (s : Store) (y : Except Failure Unit) (t : Store) :
    Prop :=
  match HookName.ofText? point with
  | some name => y = .ok () ∧ t.hooks = s.hooks.add name ⟨s.callables.size⟩ ∧
      t.get (⟨s.callables.size⟩ : Ref .callable) = c
  | none => ∃ f, y = .error f ∧ f.cause = .unknownChoice "HookName" (Text.quoted point) ∧
      f.kind = .badValue ∧ t = { s with nextFailure := s.nextFailure + 1 }

/-- How registering a hook goes from one moment to another. At every moment from then on the hook stands
behind all that were registered at its point before. -/
structure Registered (R : Run body) (n m : Nat) (point : String) (c : Script.Callable)
    (y : Except Failure Unit) : Prop where
  now : Registers point c (R.store n) y (R.store m)
  later : ∀ name, HookName.ofText? point = some name → ∀ j, m ≤ j →
    (R.store n).hooks.under name ++ [⟨(R.store n).callables.size⟩] <+: (R.store j).hooks.under name

/-- How a hook goes from a moment on, given how the emissions go that it makes. -/
inductive Telling.Follows (R : Run body) (run : Handlers) (plan : Procedure → Outline Value) (N b : Nat)
    (told : HookName → List Value → Nat → Ending Unit → Prop) : Nat → Telling → Ending Value → Prop where
  | ends (n : Nat) (o : Except Failure Value) : Follows R run plan N b told n (.ends o) (some (n, o))
  | adds {n : Nat} {point : String} {c : Script.Callable} {rest : Except Failure Unit → Telling}
    {y : Except Failure Unit} {e : Ending Value} (hy : Registered R n (n + 2) point c y)
    (h : Follows R run plan N b told (n + 2) (rest y) e) :
    Follows R run plan N b told n (.adds point c rest) e
  | adding {n : Nat} (point : String) (c : Script.Callable) (rest : Except Failure Unit → Telling)
    (hN : N < n + 2) : Follows R run plan N b told n (.adds point c rest) none
  | emits {n m : Nat} {name : HookName} {args : List Value} {rest : Except Failure Unit → Telling}
    {y : Except Failure Unit} {e : Ending Value} (hy : told name args n (some (m, y)))
    (h : Follows R run plan N b told m (rest y) e) :
    Follows R run plan N b told n (.emits name args rest) e
  | emitting {n : Nat} {name : HookName} {args : List Value} (rest : Except Failure Unit → Telling)
    (hy : told name args n none) : Follows R run plan N b told n (.emits name args rest) none
  | works {n m : Nat} {r : Routine Value} {rest : Except Failure Value → Telling} {ds : List Deed}
    {y : Except Failure Value} {e : Ending Value}
    (hy : Account R run plan N b n (.now (plain r)) ds (some (m, y)))
    (h : Follows R run plan N b told m (rest y) e) : Follows R run plan N b told n (.works r rest) e
  | working {n : Nat} {r : Routine Value} (rest : Except Failure Value → Telling) {ds : List Deed}
    (hy : Account R run plan N b n (.now (plain r)) ds none) :
    Follows R run plan N b told n (.works r rest) none

/-- How a hook goes that may emit hooks that emit hooks, as deep as is given. -/
def Hooked (R : Run body) (run : Handlers) (plan : Procedure → Outline Value) (N b : Nat)
    (code : Ref .callable → List Value → Telling) (deep : Handlers) :
    Nat → List Value → Ref .callable → Nat → Ending Value → Prop
  | 0, args, c, n, e => ∃ ds, Account R run plan N b n (.now (plain (deep c args))) ds e
  | k + 1, args, c, n, e => Telling.Follows R run plan N b
      (fun name args n e => Emission R N (Hooked R run plan N b code deep k args) name n e) n (code c args) e

section Hooked

variable {code : Ref .callable → List Value → Telling} {deep : Handlers}

open Conduct in
/-- Hooks that emit hooks take none away. -/
theorem Telling.routine_obeys {call : Handlers} (hcall : call.Obey growing) {T : Telling} (hT : T.Spares)
    (s : Store) : (T.routine call).Obeys growing s := by
  induction T generalizing s with
  | ends o => exact Routine.obeys_ofOutcome o
  | adds point c rest ih =>
    exact Routine.Obeys.thenOn (registerHook_obeys point c) fun o t _ => ih o (hT o) t
  | emits name args rest ih =>
    exact Routine.Obeys.thenOn (HookName.emit_obeys permits_growing hcall name args)
      fun o t _ => ih o (hT o) t
  | works r rest ih => exact Routine.Obeys.thenOn (hT.1 s) fun o t _ => ih o (hT.2 o) t

theorem nested_obey (hcode : ∀ c args, (code c args).Spares) (hdeep : deep.Obey .growing) :
    ∀ k, (nested code deep k).Obey .growing := by
  intro k
  induction k with
  | zero => exact hdeep
  | succ k ih => exact fun c args s => Telling.routine_obeys ih (hcode c args) s

/-- Registering a hook takes two moments. -/
theorem eval_registerHook (point : String) (c : Script.Callable) (s : Store) :
    ∃ y t, (Script.registerHook point c).eval s = some (2, y, t) ∧ Registers point c s y t := by
  unfold Script.registerHook Registers
  cases HookName.ofText? point with
  | some name =>
    refine ⟨_, _, Routine.eval_alter _ _, rfl, rfl, ?_⟩
    show (s.callables.push c).getD s.callables.size default = c
    simp [Array.getD]
  | none => exact ⟨_, _, Routine.eval_raise _ _, _, rfl, rfl, rfl, rfl⟩

/-- Hooks that are registered at some moment are registered at all later ones. -/
def Run.KeepsHooks (R : Run body) : Prop :=
  ∀ i j, i ≤ j → ∀ name, (R.store i).hooks.under name <+: (R.store j).hooks.under name

theorem Registers.registered (hR : R.KeepsHooks) {m : Nat} {point : String} {c : Script.Callable}
    {y : Except Failure Unit} (h : Registers point c (R.store n) y (R.store m)) :
    Registered R n m point c y := by
  refine ⟨h, fun name hname j hj => ?_⟩
  rw [Registers, hname] at h
  have hnew := hR m j hj name
  rwa [h.2.1, HookTable.under_add, if_pos rfl] at hnew

/-- **A hook goes as it tells**, if what it emits goes as it should. -/
theorem Telling.follows (hR : R.KeepsHooks) {call : Handlers}
    {told : HookName → List Value → Nat → Ending Unit → Prop}
    (htold : ∀ {name args n ds e}, Account R run plan N b n (.now (plain (name.emit call args))) ds e →
      told name args n e) {T : Telling} {e : Ending Value}
    (h : Account R run plan N b n (.now (plain (T.routine call))) ds e) :
    T.Follows R run plan N b told n e := by
  induction T generalizing n ds with
  | ends o =>
    cases o with
    | ok v => exact h.done_iff.2 ▸ .ends n _
    | error f => exact h.fail_iff.2 ▸ .ends n _
  | adds point c rest ih =>
    obtain ⟨y, t, hy, hreg⟩ := eval_registerHook point c (R.store n)
    rw [routine, Outline.plain_thenOn] at h
    rcases h.thenOn with ⟨ds₁, m, o, ds₂, h₁, h₂, -⟩ | ⟨h₁, rfl⟩
    · obtain ⟨-, he | ⟨he, hs⟩⟩ := h₁.straight hy <;> cases he
      subst hs
      exact .adds (hreg.registered hR) (ih _ h₂)
    · refine .adding point c rest (lt_of_not_ge fun hN => ?_)
      cases h₁.straight_over hy hN
  | emits name args rest ih =>
    rw [routine, Outline.plain_thenOn] at h
    rcases h.thenOn with ⟨ds₁, m, o, ds₂, h₁, h₂, -⟩ | ⟨h₁, rfl⟩
    · exact .emits (htold h₁) (ih _ h₂)
    · exact .emitting rest (htold h₁)
  | works r rest ih =>
    rw [routine, Outline.plain_thenOn] at h
    rcases h.thenOn with ⟨ds₁, m, o, ds₂, h₁, h₂, -⟩ | ⟨h₁, rfl⟩
    · exact .works h₁ (ih _ h₂)
    · exact .working rest h₁

/-- A hook goes as it tells, and so do the hooks that it emits, however deep. -/
theorem hooked (hR : R.KeepsHooks) : ∀ {k n : Nat} {args : List Value} {c : Ref .callable} {ds : List Deed}
    {e : Ending Value}, Account R run plan N b n (.now (plain (nested code deep k c args))) ds e →
    Hooked R run plan N b code deep k args c n e
  | 0, n, args, c, ds, e, h => ⟨ds, h⟩
  | k + 1, n, args, c, ds, e, h => Telling.follows hR (fun h => by
      rw [Outline.plain_emit] at h
      exact h.emission_inTurn (hooked hR)) h

end Hooked

/-! ## Every emission -/

section Emission

variable {σ : Setup} {R : Run σ.body} {code : Ref .callable → List Value → Telling} {deep : Handlers}
  {name : HookName} {args : List Value} {e : Ending Unit} {x : Outline Unit}

/-- **Emissions among emissions.** User code emits hooks, which emit hooks, and so on, and whatever else
it does, it takes no hook away. Then every emission, whether the program makes it or user code, runs the
hooks that are registered when it begins, one after another, up to the first that fails; and so does every
emission that these hooks make, while what they register is registered from that moment on. -/
theorem emission_nested (hσ : σ.desk.call = nested code deep k) (hcode : ∀ c args, (code c args).Spares)
    (hdeep : deep.Obey .growing) (hR : R.Minds .growing)
    (hx : x = emit name args ∨ x = plain (name.emit σ.desk.call args))
    (h : σ.Does R N b n x ds e) :
    R.KeepsHooks ∧
      Emission R N (Hooked R σ.desk.call σ.plan N b code deep k args) name n e := by
  have hobey : σ.desk.call.Obey .growing := hσ ▸ nested_obey hcode hdeep k
  have hkeeps : R.KeepsHooks := fun i j hij name => Run.keeps_hooks hobey hR hij name
  have hrun : ∀ c, σ.desk.call c args = nested code deep k c args := fun c => by rw [hσ]
  refine ⟨hkeeps, ?_⟩
  rcases hx with rfl | rfl
  · obtain ⟨ds', h', -⟩ := h.say
    refine Account.emission_inTurn (x := fun c => .call (.hook name) c args) (fun h => ?_) h'
    obtain ⟨inner, -, hin⟩ := h.called
    rw [hrun] at hin
    exact hooked hkeeps hin
  · rw [Outline.plain_emit] at h
    refine h.emission_inTurn fun h => ?_
    rw [hrun] at h
    exact hooked hkeeps h

end Emission

/-! ## A hook that emits its own point -/

/-- The first hook registers a hook, fails to register another, and emits its own point; told from there,
it returns. What it has registered raises, which the first hook handles. All others return. -/
def echoCode (c : Ref .callable) (args : List Value) : Telling :=
  match c.index, args with
  | 0, [.int 0] =>
    .adds "onTaskStart" ⟨"late", .gathered, [], true, 0⟩ fun _ =>
      .adds "onNothing" ⟨"lost", .gathered, [], true, 0⟩ fun _ =>
        .emits .taskStart [.int 1] fun _ => .ends (.ok .null)
  | 2, _ => .ends (.error ⟨7, .raised .runtime "late"⟩)
  | _, _ => .ends (.ok .null)

/-- Deeper down no more calls fit. -/
def echoSetup : Setup :=
  ⟨default, ⟨nested echoCode (fun _ _ => .raise (.raised .runtime "maximum recursion depth exceeded")) 2,
    default, none, [], [], none⟩⟩

def echoStore : Store :=
  { Store.empty with
    callables := #[default, default]
    hooks := (Store.empty.hooks.add .taskStart ⟨0⟩).add .taskStart ⟨1⟩ }

def echoOutline : Outline Value := emit .taskStart [.int 0] >>= fun _ => pure .null

def echoRun : Run echoSetup.body := .launched _ echoStore (echoOutline.erase echoSetup.desk.call)

theorem echoRun_account : ∃ ds,
    echoSetup.Does echoRun 20 0 1 (emit .taskStart [.int 0]) ds (some (11, .ok ())) := by
  obtain ⟨ds, t, o, h⟩ := Run.launched_account echoSetup.desk.call (Setup.erase_plan echoSetup)
    (x := echoOutline) (N := 20) (s := echoStore) rfl (by decide) (by decide +kernel)
  have hlead : (echoOutline.leads echoSetup.desk.call echoSetup.plan 5 1 (echoRun.store 1)).map
      (fun y => (y.1, y.2.1.toOption)) = some (11, some .null) := by
    decide +kernel
  obtain ⟨⟨t', o', u⟩, hy, hend⟩ := Option.map_eq_some_iff.1 hlead
  obtain ⟨-, rfl, rfl, -⟩ := Account.leads h hy
  rcases h.bind with ⟨ds₁, m, v, ds₂, h₁, h₂, -⟩ | ⟨m, f, h₁, he⟩ | ⟨-, he⟩
  · cases h₂.done_iff.2
    cases hend
    exact ⟨ds₁, h₁⟩
  · cases he
    cases hend
  · cases he

theorem echoCode_spares (c : Ref .callable) (args : List Value) : (echoCode c args).Spares := by
  unfold echoCode
  split <;> simp [Telling.Spares]

theorem deep_obey : Handlers.Obey (fun _ _ => .raise (.raised .runtime "maximum recursion depth exceeded"))
    .growing :=
  fun _ _ _ => Routine.obeys_raise Conduct.permits_growing _

theorem echoRun_minds : echoRun.Minds .growing := by
  refine Run.minds_launched fun t => ?_
  rw [echoOutline, Outline.erase_bind, Outline.erase_emit]
  exact Routine.Obeys.bind (HookName.emit_obeys Conduct.permits_growing
    (nested_obey echoCode_spares deep_obey 2) _ _) fun _ _ _ => trivial

/-- In the end the hook is registered that the emission among the emission has run, and the emission
itself has not. -/
theorem emission_nested_echo : ∃ ds,
    echoSetup.Does echoRun 20 0 1 (emit .taskStart [.int 0]) ds (some (11, .ok ())) ∧
    (echoRun.store 1).hooks.under .taskStart = [⟨0⟩, ⟨1⟩] ∧
    (echoRun.store 11).hooks.under .taskStart = [⟨0⟩, ⟨1⟩, ⟨2⟩] ∧
    (∀ c args, (echoCode c args).Spares) ∧ echoRun.Minds .growing ∧ echoRun.KeepsHooks ∧
    Emission echoRun 20 (Hooked echoRun echoSetup.desk.call echoSetup.plan 20 0 echoCode
      (fun _ _ => .raise (.raised .runtime "maximum recursion depth exceeded")) 2 [.int 0])
      .taskStart 1 (some (11, .ok ())) := by
  obtain ⟨ds, h⟩ := echoRun_account
  exact ⟨ds, h, by decide +kernel, by decide +kernel, echoCode_spares, echoRun_minds,
    emission_nested rfl echoCode_spares deep_obey echoRun_minds (Or.inl rfl) h⟩

end Conductor
