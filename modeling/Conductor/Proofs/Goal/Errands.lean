import Conductor.Proofs.Account.Launched
import Conductor.Proofs.Goal.Hiring
import Conductor.Proofs.Store.Merging

/-!
# Errands

Subtasks are handed out one after another, each on an errand. Between errands the execution holds the
agents and the results that it has noted, and the input is what it is (`Order`), if user code leaves
that alone (`Respects`). `Errands` tells how a list of subtasks is handed out.

**Theorem (`errands`).** Subtasks are handed out strictly one after another, each at most once, up to the
first that finds no agent or whose agent fails. Each agent is called with the aliases for it applied to
the input and the results before, whatever other agents have done to their own input and tools.
-/

namespace Conductor

open Outline (say plain call emit)

namespace Deed

/-! ## What stays as it is -/

variable {body : Procedure → Routine Value} {R : Run body} {ds ds' : List Deed} {v : Value}

/-- User code leaves a mapping alone, unless it is an agent that is called with it. -/
structure Discreet (R : Run body) (v : Value) (ds : List Deed) : Prop where
  asked : ∀ {m u c args inner t o es}, .ask m u c args inner (some (t, o)) ∈ ds →
    (u = .agent → v ∉ args) → (R.store m).Shows v es → (R.store t).Shows v es

/-- The hooks that are told that agents are about to be called leave alone what agents are called
with. -/
structure Faithful (R : Run body) (ds : List Deed) : Prop where
  told : ∀ {k c args d m h as inner t o es}, (k, c, args) ∈ agentCalls ds → .dict d ∈ args →
    .ask m (.hook .agentExecute) h as inner (some (t, o)) ∈ ds →
    (R.store m).Shows (.dict d) es → (R.store t).Shows (.dict d) es

theorem Discreet.mono (h : Discreet R v ds) (hs : ∀ d ∈ ds', d ∈ ds) : Discreet R v ds' :=
  ⟨fun hd => h.asked (hs _ hd)⟩

theorem Faithful.mono (h : Faithful R ds) (hs : ∀ d ∈ ds', d ∈ ds) : Faithful R ds' where
  told hcall hargs hd := by
    obtain ⟨d, hmem, heq⟩ := List.mem_filterMap.1 hcall
    exact h.told (List.mem_filterMap.2 ⟨d, hs d hmem, heq⟩) hargs (hs _ hd)

end Deed

namespace Pursuit

section Stays

variable {s u : Store} {e : Ref .execution} {x : Execution} {v : Value} {I A B : Entries Value}
  {name : Ref .goal → String} {gs : List (Ref .goal)}

/-- What holds between two errands: the execution is known, with the agents and the results that it has
noted; the input is what it is; and the subtasks have their names. -/
structure Order (e : Ref .execution) (x : Execution) (v : Value) (I : Entries Value)
    (name : Ref .goal → String) (gs : List (Ref .goal)) (A B : Entries Value) (s : Store) : Prop where
  holds : s.Holds e x []
  input : s.Shows v I
  named : ∀ g ∈ gs, s.Named g (name g)
  agents : s.Shows (.dict x.agents) A
  results : s.Shows (.dict x.results) B

/-- User code leaves the execution, the input and the names of subtasks alone, and hooks leave alone what
agents are called with. -/
structure Respects {body : Procedure → Routine Value} (R : Run body) (e : Ref .execution) (x : Execution)
    (v : Value) (gs : List (Ref .goal)) (ds : List Deed) : Prop where
  holds : Deed.Leave R (fun s => s.Holds e x []) ds
  named : ∀ g ∈ gs, ∀ name, Deed.Leave R (fun s => s.Named g name) ds
  input : Deed.Discreet R v ds
  agents : Deed.Discreet R (.dict x.agents) ds
  results : Deed.Discreet R (.dict x.results) ds
  hooks : Deed.Faithful R ds

theorem Respects.mono {body : Procedure → Routine Value} {R : Run body} {ds ds' : List Deed}
    (h : Respects R e x v gs ds) (hs : ∀ d ∈ ds', d ∈ ds) : Respects R e x v gs ds' where
  holds := h.holds.mono hs
  named g hg name := (h.named g hg name).mono hs
  input := h.input.mono hs
  agents := h.agents.mono hs
  results := h.results.mono hs
  hooks := h.hooks.mono hs

/-- The lists of the execution are two, and the input is none of them. -/
structure Apart (x : Execution) (v : Value) : Prop where
  lists : x.agents ≠ x.results
  agents : v ≠ .dict x.agents
  results : v ≠ .dict x.results

namespace Order

theorem refs (h : Order e x v I name gs A B s) :
    (s.get e).agents = x.agents ∧ (s.get e).results = x.results := by
  rw [← h.holds.stem]
  exact ⟨rfl, rfl⟩

theorem spared (e : Ref .execution) (x : Execution) (v : Value) (I : Entries Value)
    (name : Ref .goal → String) (gs : List (Ref .goal)) (A B : Entries Value) :
    Spared {e} {d | v = .dict d ∨ d = x.agents ∨ d = x.results} (Order e x v I name gs A B) := by
  have hnamed : Spared ∅ ∅ fun s => ∀ g : {g // g ∈ gs}, s.Named g.1 (name g.1) :=
    Spared.forall fun g => spared_named g.1 _
  have hall := (spared_holds e x []).and ((spared_shows v I).and (hnamed.and
    ((spared_shows (.dict x.agents) A).and (spared_shows (.dict x.results) B))))
  have heq : Order e x v I name gs A B = fun s => s.Holds e x [] ∧ s.Shows v I ∧
      (∀ g : {g // g ∈ gs}, s.Named g.1 (name g.1)) ∧ s.Shows (.dict x.agents) A ∧
      s.Shows (.dict x.results) B := by
    funext s
    exact propext ⟨fun h => ⟨h.holds, h.input, fun g => h.named g.1 g.2, h.agents, h.results⟩,
      fun ⟨h₁, h₂, h₃, h₄, h₅⟩ => ⟨h₁, h₂, fun g hg => h₃ ⟨g, hg⟩, h₄, h₅⟩⟩
  rw [heq]
  refine hall.mono (by simp) ?_
  rintro d (hd | hd | hd | hd | hd)
  · exact hd.elim
  · exact Or.inl hd
  · exact hd.elim
  · exact Or.inr (Or.inl (by cases hd; rfl))
  · exact Or.inr (Or.inr (by cases hd; rfl))

end Order

/-- A mapping that is there is none of the dictionaries that are made afterwards. -/
theorem shows_ne {es : Entries Value} (h : s.Shows v es) (more : Entries Value) :
    v ≠ .dict (s.newDict more).1 := by
  rintro rfl
  exact Nat.lt_irrefl _ h.1

/-- What is spared stays when something else is noted. -/
theorem Spared.noted {X : Set (Ref .execution)} {D : Set (Ref .dict)} {P : Store → Prop}
    (hP : Spared X D P) {d : Ref .dict} (hd : d ∉ D) (hs : P s) (key : String) (w : Value)
    (y : Happening) : P ((s.insert d key w).write y) :=
  hP.written _ _ (hP.inserted s d key w hd hs)

theorem shows_noted {d : Ref .dict} {es : Entries Value} (h : s.Shows (.dict d) es) (key : String)
    (w : Value) (y : Happening) :
    ((s.insert d key w).write y).Shows (.dict d) (Entries.insert es key w) := by
  refine (spared_shows _ _).written _ _ ⟨h.1.trans_eq Array.size_setIfInBounds.symm, ?_⟩
  refine (Store.getD_setIfInBounds_self h.1).trans ?_
  exact congrArg (Entries.insert · key w) h.2

theorem Order.note (h : Order e x v I name gs A B s) (hx : Apart x v) (key : String) (w : Value)
    (y : Happening) :
    Order e x v I name gs (Entries.insert A key w) B
      ((s.insert (s.get e).agents key w).write y) := by
  rw [h.refs.1]
  exact ⟨(spared_holds e x []).noted (Set.notMem_empty _) h.holds _ _ _,
    (spared_shows v I).noted hx.agents h.input _ _ _,
    fun g hg => (spared_named g _).noted (Set.notMem_empty _) (h.named g hg) _ _ _,
    shows_noted h.agents _ _ _,
    (spared_shows _ B).noted (fun heq => hx.lists (Value.dict.inj heq).symm) h.results _ _ _⟩

theorem Order.file (h : Order e x v I name gs A B s) (hx : Apart x v) (key : String) (w : Value)
    (y : Happening) :
    Order e x v I name gs A (Entries.insert B key w)
      ((s.insert (s.get e).results key w).write y) := by
  rw [h.refs.2]
  exact ⟨(spared_holds e x []).noted (Set.notMem_empty _) h.holds _ _ _,
    (spared_shows v I).noted hx.results h.input _ _ _,
    fun g hg => (spared_named g _).noted (Set.notMem_empty _) (h.named g hg) _ _ _,
    (spared_shows _ A).noted (fun heq => hx.lists (Value.dict.inj heq)) h.agents _ _ _,
    shows_noted h.results _ _ _⟩

end Stays

section Errand

variable {σ : Setup} {R : Run σ.body} {N b n t : Nat} {ds : List Deed} {e : Ref .execution}
  {x : Execution} {v : Value} {I A B : Entries Value} {name : Ref .goal → String}
  {gs : List (Ref .goal)} {τ : Errand}

/-- The agent is called with what is known, with the aliases for it applied, and with the tools. -/
structure Errand.Works (R : Run σ.body) (τ : Errand) : Prop where
  ordered : τ.made ≤ τ.called ∧ τ.called ≤ τ.ended
  body : (R.store τ.called).Shows (.dict τ.body) (τ.request R)
  tools : (R.store τ.called).Shows (.dict τ.tools) σ.desk.tools

namespace Errand.Goes

/-- What is spared is true when the agent is called. -/
theorem works (h : τ.Goes R N b e n) (hr : Deed.Faithful R τ.deeds) :
    (∃ f, τ.answer = .error f) ∧ Deed.agentCalls τ.deeds = [] ∨
      Deed.agentCalls τ.deeds = [τ.call R] ∧ τ.Works R := by
  refine h.hires.imp_right fun hires => ⟨hires.calls, ⟨?_, hires.before⟩, ?_, ?_⟩
  · exact (Nat.le_add_right _ 2).trans hires.after
  · refine hires.keeps (spared_shows (.dict τ.body) (τ.request R)) ?_ fun hd hm =>
      hr.told (by rw [hires.calls]; exact List.mem_cons_self) (by simp) hd hm
    rw [h.tooled]
    refine shows_then_newDict ?_ _
    rw [h.bodied, h.body]
    exact shows_newDict _ _
  · refine hires.keeps (spared_shows (.dict τ.tools) σ.desk.tools) ?_ fun hd hm =>
      hr.told (by rw [hires.calls]; exact List.mem_cons_self) (by simp) hd hm
    rw [h.tooled, h.tools]
    exact shows_newDict _ _

/-- A mapping that is there when an errand begins is not given to the agent. -/
theorem not_given (h : τ.Goes R N b e n) (hv : (R.store τ.made).Shows v I) {m : Nat}
    {c : Ref .callable} {args : List Value} (hcall : (m, c, args) ∈ Deed.agentCalls τ.deeds) :
    v ∉ args := by
  have hbody : v ≠ .dict τ.body := by
    rw [h.body]
    exact shows_ne hv _
  have htools : v ≠ .dict τ.tools := by
    rw [h.tools]
    refine shows_ne (?_ : (R.store (τ.made + 2)).Shows v I) _
    rw [h.bodied]
    exact shows_then_newDict hv _
  rcases h.hires with ⟨-, hnone⟩ | hires
  · rw [hnone] at hcall
    cases hcall
  · rw [hires.calls] at hcall
    cases List.mem_singleton.1 hcall
    have hgoal : v ≠ .goal τ.goal := by
      rintro rfl
      exact hv
    have hreply : v ≠ .reply τ.reply := by
      rintro rfl
      exact hv
    simp [hbody, htools, hgoal, hreply]

/-- **An errand leaves everything in order.** -/
theorem order (h : τ.Goes R N b e n) (hn : Order e x v I name gs A B (R.store n))
    (hx : Apart x v) (hr : Respects R e x v gs τ.deeds) :
    Order e x v I name gs (Entries.insert A (τ.name R) (.text (τ.worker R).name)) B
      (R.store τ.ended) := by
  obtain ⟨y, hnotes⟩ := h.notes
  have hmade := hn.note hx (τ.name R) (.text (τ.worker R).name) y
  rw [← hnotes] at hmade
  have hspared := Order.spared e x v I name gs
    (Entries.insert A (τ.name R) (.text (τ.worker R).name)) B
  have hbodied : Order e x v I name gs (Entries.insert A (τ.name R) (.text (τ.worker R).name)) B
      (R.store (τ.made + 2)) := by
    rw [h.bodied]
    exact hspared.dict _ _ hmade
  refine (h.runs.keeps (agent_keeps hspared _ _ _ _) hbodied ⟨fun {m u c args inner k o} hd hm => ?_⟩).2
    _ _ rfl
  have hleft : ∀ {w : Value} {E : Entries Value}, Deed.Discreet R w τ.deeds → (R.store τ.made).Shows w E →
      (R.store m).Shows w E → (R.store k).Shows w E := fun hw hE => hw.asked hd fun hu =>
    h.not_given hE (Deed.mem_agentCalls (hu ▸ hd))
  exact ⟨hr.holds.asked hd hm.holds, hleft hr.input hmade.input hm.input,
    fun g hg => (hr.named g hg _).asked hd (hm.named g hg), hleft hr.agents hmade.agents hm.agents,
    hleft hr.results hmade.results hm.results⟩

end Errand.Goes

end Errand

/-! ## Errands one after another -/

section Errands

variable {σ : Setup} {R : Run σ.body} {N b n m t : Nat} {ds : List Deed} {e : Ref .execution}
  {x : Execution} {v : Value} {I A B known : Entries Value} {name : Ref .goal → String}
  {g : Ref .goal} {gs : List (Ref .goal)} {τ : Errand} {τs : List Errand}
  {o : Except Failure (List Value)}

/-- A subtask is handed to the first agent that covers it. The agent is called once, with what it is to
get; if it is not called, it has no answer. -/
structure Errand.Due (R : Run σ.body) (n : Nat) (known : Entries Value) (g : Ref .goal) (τ : Errand) :
    Prop where
  goal : τ.goal = g
  known : τ.known = known
  chosen : n ≤ τ.chosen
  chooses : Desk.agentFor (R.store τ.chosen) g = .ok τ.agent
  made : τ.chosen ≤ τ.made
  calls : (∃ f, τ.answer = .error f) ∧ Deed.agentCalls τ.deeds = [] ∨
    Deed.agentCalls τ.deeds = [τ.call R] ∧ τ.Works R

/-- How subtasks are handed out from a moment on, up to another one: until there are no more, or one finds
no agent, or an agent fails. -/
inductive Errands (R : Run σ.body) (t : Nat) : Nat → Entries Value → List (Ref .goal) → List Errand →
    Except Failure (List Value) → Prop where
  | done {n : Nat} {known : Entries Value} (hn : n ≤ t) : Errands R t n known [] [] (.ok [])
  | uncovered {n : Nat} {known : Entries Value} {g : Ref .goal} {gs : List (Ref .goal)} {f : Failure}
    (h : Desk.agentFor (R.store n) g = .error f.cause) (hn : n ≤ t) :
    Errands R t n known (g :: gs) [] (.error f)
  | failed {n : Nat} {known : Entries Value} {g : Ref .goal} {gs : List (Ref .goal)} {f : Failure}
    {τ : Errand} (h : τ.Due R n known g) (ha : τ.answer = .error f) (ht : τ.ended ≤ t) :
    Errands R t n known (g :: gs) [τ] (.error f)
  | answered {n m : Nat} {known : Entries Value} {g : Ref .goal} {gs : List (Ref .goal)} {w : Value}
    {τ : Errand} {τs : List Errand} {o : Except Failure (List Value)} (h : τ.Due R n known g)
    (ha : τ.answer = .ok w) (hm : τ.ended ≤ m) (ht : m ≤ t)
    (hrest : Errands R t m (Desk.learn (R.store τ.ended) known w) gs τs o) :
    Errands R t n known (g :: gs) (τ :: τs) (o.map (w :: ·))

/-- The agents that errands have been given to, under the names of their subtasks. -/
def workers (R : Run σ.body) (name : Ref .goal → String) (τs : List Errand) : Entries Value :=
  τs.map fun τ => (name τ.goal, .text (τ.worker R).name)

/-- The answers of errands under the names of their subtasks. -/
def answers (name : Ref .goal → String) (τs : List Errand) : Entries Value :=
  τs.filterMap fun τ => τ.answer.toOption.map fun w => (name τ.goal, w)

/-- **Subtasks are handed out in errands**, and everything is left in order. -/
theorem handed_out_all (hx : Apart x v) : ∀ {todo : List (Ref .goal)} {n : Nat} {known A B : Entries Value}
    {ds : List Deed} {o : Except Failure (List Value)}, (∀ g ∈ todo, g ∈ gs) →
    σ.Does R N b n (Outlined.handOutAll σ.desk e known todo) ds (some (t, o)) →
    Order e x v I name gs A B (R.store n) → Respects R e x v gs ds →
    ∃ τs, Errands R t n known todo τs o ∧ ds = τs.flatMap Errand.deeds ∧
      Order e x v I name gs (Entries.insertAll A (workers R name τs))
        (Entries.insertAll B (answers name τs)) (R.store t)
  | [], n, known, A, B, ds, o, _, h, hn, _ => by
    obtain ⟨rfl, he⟩ := h.done_iff
    cases he
    exact ⟨[], .done le_rfl, rfl, hn⟩
  | g :: todo, n, known, A, B, ds, o, htodo, h, hn, hr => by
    have hg : g ∈ gs := htodo g List.mem_cons_self
    have hspared := Order.spared e x v I name gs A B
    have hdue : ∀ {τ : Errand}, τ.goal = g → τ.known = known → τ.Goes R N b e n →
        (∀ d ∈ τ.deeds, d ∈ ds) → τ.Due R n known g ∧
          Order e x v I name gs (Entries.insert A (name τ.goal) (.text (τ.worker R).name)) B
            (R.store τ.ended) := by
      rintro τ rfl hknown hgoes hin
      have hrτ := hr.mono hin
      have hname : τ.name R = name τ.goal := by
        rw [Errand.name, hgoes.begins]
        exact (hn.named _ hg).2
      refine ⟨⟨rfl, hknown, hgoes.begins.ge, hgoes.chooses, hgoes.made, hgoes.works hrτ.hooks⟩, ?_⟩
      rw [← hname]
      exact hgoes.order hn hx hrτ
    rcases h.bind with ⟨ds₁, m, r, ds₂, h₁, h₂, rfl⟩ | ⟨m, f, h₁, he⟩ | ⟨-, he⟩
    · rcases handed_out h₁ with ⟨f, he, -⟩ | ⟨τ, hτ, hknown, rfl, hgoes, ⟨f, -, he, -⟩ | hok⟩
      · cases he
      · cases he
      obtain ⟨w, hanswer, heq, hm, y, hs⟩ := hok
      cases heq
      obtain ⟨hd, hended⟩ := hdue hτ hknown hgoes fun d hd => List.mem_append_left _ hd
      have hname : ((R.store τ.ended).get g).name = name τ.goal := by
        rw [hτ]
        exact (hended.named g hg).2
      have hfiled := hended.file hx (name τ.goal) w y
      rw [← hname, ← hs] at hfiled
      obtain ⟨ds₃, o', h₃, rfl, ho⟩ : ∃ ds₃ o', σ.Does R N b m (Outlined.handOutAll σ.desk e
          (Desk.learn (R.store τ.ended) known w) todo) ds₃ (some (t, o')) ∧ ds₂ = ds₃ ∧
          o = o'.map (w :: ·) := by
        rcases h₂.bind with ⟨ds₃, m', ws, ds₄, h₃, h₄, rfl⟩ | ⟨m', f, h₃, he⟩ | ⟨-, he⟩
        · obtain ⟨rfl, he⟩ := h₄.done_iff
          cases he
          exact ⟨ds₃, _, h₃, List.append_nil _, rfl⟩
        · cases he
          exact ⟨ds₂, _, h₃, rfl, rfl⟩
        · cases he
      obtain ⟨τs, hτs, rfl, hend⟩ := handed_out_all hx (fun g hg => htodo g (List.mem_cons_of_mem _ hg))
        h₃ hfiled (hr.mono fun d hd => List.mem_append_right _ hd)
      refine ⟨τ :: τs, ?_, rfl, ?_⟩
      · rw [ho]
        exact .answered hd hanswer hm (h₃.ending_ge rfl) hτs
      · have hanswers : answers name (τ :: τs) = (name τ.goal, w) :: answers name τs := by
          simp [answers, hanswer, Except.toOption]
        rw [hanswers]
        rw [hname] at hend
        exact hend
    · cases he
      rcases handed_out h₁ with ⟨f', he, hagent, rfl, hs⟩ | ⟨τ, hτ, hknown, rfl, hgoes, ⟨f', ha, he, rfl⟩ | ⟨w, -, he, -⟩⟩
      · cases he
        refine ⟨[], .uncovered hagent (h₁.ending_ge rfl), rfl, ?_⟩
        rw [hs]
        exact hspared.failed _ hn
      · cases he
        obtain ⟨hd, hended⟩ := hdue hτ hknown hgoes fun d hd => hd
        refine ⟨[τ], .failed hd ha le_rfl, (List.append_nil _).symm, ?_⟩
        have hanswers : answers name [τ] = [] := by simp [answers, ha, Except.toOption]
        rw [hanswers]
        exact hended
      · cases he
    · cases he

/-- What is known once errands have been run: each answer that is a mapping adds its entries. -/
def learned (R : Run σ.body) (known : Entries Value) (τs : List Errand) : Entries Value :=
  τs.foldl (fun known τ => match τ.answer with
    | .ok w => Desk.learn (R.store τ.ended) known w
    | .error _ => known) known

theorem Errand.Due.mono (h : τ.Due R m known g) (hn : n ≤ m) : τ.Due R n known g :=
  { h with chosen := hn.trans h.chosen }

/-- An errand with an answer is over after its agent has been chosen. -/
theorem Errand.Due.answered (h : τ.Due R n known g) {w : Value} (ha : τ.answer = .ok w) :
    n ≤ τ.ended := by
  rcases h.calls with ⟨⟨f, hf⟩, -⟩ | ⟨-, hworks⟩
  · cases ha.symm.trans hf
  · exact h.chosen.trans (h.made.trans (hworks.ordered.1.trans hworks.ordered.2))

namespace Errands

theorem due (h : Errands R t n known gs τs o) : ∀ {i : Nat} {τ : Errand}, τs[i]? = some τ →
    ∃ g, gs[i]? = some g ∧ τ.Due R n (learned R known (τs.take i)) g := by
  induction h with
  | done | uncovered => nofun
  | failed h =>
    intro i τ hi
    cases i with
    | zero =>
      cases hi
      exact ⟨_, rfl, h⟩
    | succ i => cases hi
  | @answered n m known g gs w τ₁ τs o h ha hm _ _ ih =>
    intro i τ hi
    cases i with
    | zero =>
      cases hi
      exact ⟨_, rfl, h⟩
    | succ i =>
      obtain ⟨g', hg', hdue⟩ := ih hi
      refine ⟨g', hg', ?_⟩
      have hlearned : learned R known ((τ₁ :: τs).take (i + 1)) =
          learned R (Desk.learn (R.store τ₁.ended) known w) (τs.take i) := by
        rw [List.take_succ_cons, learned, List.foldl_cons, ha]
        rfl
      rw [hlearned]
      exact hdue.mono ((h.answered ha).trans hm)

/-- An agent that has answered has been called once. -/
theorem called (h : Errands R t n known gs τs o) {τ : Errand} (hτ : τ ∈ τs) {w : Value}
    (ha : τ.answer = .ok w) : Deed.agentCalls τ.deeds = [τ.call R] := by
  obtain ⟨i, hi⟩ := List.mem_iff_getElem?.1 hτ
  obtain ⟨g, -, hdue⟩ := h.due hi
  rcases hdue.calls with ⟨⟨f, hf⟩, -⟩ | ⟨hcalls, -⟩
  · cases ha.symm.trans hf
  · exact hcalls

/-- If all is well, all subtasks have been handed out, and the answers are what is returned. -/
theorem completed (h : Errands R t n known gs τs o) : ∀ {ws : List Value}, o = .ok ws →
    τs.length = gs.length ∧ τs.map Errand.answer = ws.map .ok := by
  induction h with
  | done =>
    intro ws ho
    cases ho
    exact ⟨rfl, rfl⟩
  | uncovered | failed => nofun
  | @answered n m known g gs w τ τs o h ha hm _ _ ih =>
    intro ws ho
    cases o with
    | error f => cases ho
    | ok vs =>
      cases ho
      obtain ⟨hlength, hanswers⟩ := ih rfl
      exact ⟨congrArg Nat.succ hlength, congrArg₂ List.cons ha hanswers⟩

/-- A failure is that of the last agent, or no agent has been found for the next subtask. -/
theorem stopped (h : Errands R t n known gs τs o) : ∀ {f : Failure}, o = .error f →
    (∃ τ, τs.getLast? = some τ ∧ τ.answer = .error f) ∨
      ∃ g m, gs[τs.length]? = some g ∧ n ≤ m ∧ Desk.agentFor (R.store m) g = .error f.cause ∧
        ∀ τ ∈ τs, τ.ended ≤ m ∧ ∃ w, τ.answer = .ok w := by
  induction h with
  | done => nofun
  | uncovered h =>
    intro f ho
    cases ho
    exact Or.inr ⟨_, _, rfl, le_rfl, h, nofun⟩
  | failed h ha =>
    intro f ho
    cases ho
    exact Or.inl ⟨_, rfl, ha⟩
  | @answered n m known g gs w τ₁ τs o h ha hm _ _ ih =>
    intro f ho
    cases o with
    | ok vs => cases ho
    | error f' =>
      cases ho
      obtain ⟨τ, hlast, hτ⟩ | ⟨g', k, hg', hk, hagent, hall⟩ := ih rfl
      · refine Or.inl ⟨τ, ?_, hτ⟩
        rw [List.getLast?_cons, hlast]
        rfl
      · exact Or.inr ⟨g', k, hg', ((h.answered ha).trans hm).trans hk, hagent,
          List.forall_mem_cons.2 ⟨⟨hm.trans hk, _, ha⟩, hall⟩⟩

theorem ended (h : Errands R t n known gs τs o) : ∀ τ ∈ τs, τ.ended ≤ t := by
  induction h with
  | done | uncovered => nofun
  | failed _ _ ht => exact List.forall_mem_cons.2 ⟨ht, nofun⟩
  | answered _ _ hm ht _ ih => exact List.forall_mem_cons.2 ⟨hm.trans ht, ih⟩

/-- Errands are run for the first of the subtasks, in order. -/
theorem goals (h : Errands R t n known gs τs o) : τs.map Errand.goal <+: gs := by
  induction h with
  | done | uncovered => exact List.nil_prefix
  | failed h => exact ⟨_, congrArg (· :: _) h.goal⟩
  | answered h _ _ _ _ ih =>
    rw [List.map_cons, h.goal]
    exact (List.prefix_cons_inj _).2 ih

end Errands

/-- If all is well, there is an answer under every name. -/
theorem answers_eq_zip {ws : List Value} (h : τs.map Errand.answer = ws.map .ok) :
    answers name τs = ((τs.map Errand.goal).map name).zip ws := by
  induction τs generalizing ws with
  | nil => rfl
  | cons τ τs ih =>
    cases ws with
    | nil => cases h
    | cons w ws =>
      obtain ⟨ha, hrest⟩ := List.cons.inj h
      unfold answers
      rw [List.filterMap_cons, ha]
      exact congrArg (_ :: ·) (ih hrest)

/-- User code of agents that answer at once, and do nothing else. -/
def answering (f : Ref .callable → Ref .reply → Value) : Handlers := fun c args =>
  (Routine.alter fun s => match args with
    | [_, _, _, .reply r] => s.update r fun x => x.answered false (f c r)
    | _ => s).bind fun _ => .done .null

theorem answering_keeps {P : Store → Prop} (hP : ∀ s (r : Ref .reply) f, P s → P (s.update r f))
    (f : Ref .callable → Ref .reply → Value) (c : Ref .callable) (args : List Value) :
    (answering f c args).Keeps P := by
  refine Routine.Keeps.bind (Routine.keeps_alter fun s hs => ?_) fun _ => show True from trivial
  split
  · exact hP s _ _ hs
  · exact hs

theorem answering_respects {f : Ref .callable → Ref .reply → Value} (hcall : σ.desk.call = answering f)
    {α : Type} {y : Outline α} {z : Ending α} (h : σ.Does R N b n y ds z) (e : Ref .execution)
    (x : Execution) (v : Value) (gs : List (Ref .goal)) : Respects R e x v gs ds := by
  have hleave : ∀ P : Store → Prop, (∀ s (r : Ref .reply) f, P s → P (s.update r f)) →
      Deed.Leave R P ds := fun P hP =>
    (h.leave (by rw [hcall]; exact answering_keeps hP f)).mono fun _ => Deed.mem_line
  have hshows : ∀ (w : Value) es, Deed.Leave R (fun s => s.Shows w es) ds :=
    fun w es => hleave _ fun _ _ _ hs => by cases w <;> exact hs
  exact {
    holds := hleave (fun s => s.Holds e x []) fun _ _ _ hs => ⟨hs.there, hs.stem, hs.logs, hs.entries⟩
    named := fun g _ name => hleave (fun s => s.Named g name) fun _ _ _ hs => hs
    input := ⟨fun hd _ => (hshows _ _).asked hd⟩
    agents := ⟨fun hd _ => (hshows _ _).asked hd⟩
    results := ⟨fun hd _ => (hshows _ _).asked hd⟩
    hooks := ⟨fun _ _ hd => (hshows _ _).asked hd⟩ }

end Errands

end Pursuit

end Conductor
