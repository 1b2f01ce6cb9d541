import Conductor.Proofs.Account.Delay
import Conductor.Proofs.Account.Launched
import Conductor.Script.Run

/-!
# Replies of agents

The handler of an agent answers through its reply as often as it likes, handles what comes of it or not,
and in the end returns or raises (`Talk`). Only the first answer counts: it settles the reply, and every
later one fails and changes nothing (`Talk.Follows.settles`).

What running the agent comes to follows from the first answer, unless the handler has raised (`Comes`).
`agent_replies` puts this together with the hooks that are told before and after.
-/

namespace Conductor

open Outline (say plain call emit)

namespace Agent

/-! ## Talks -/

/-- What the handler of an agent does about its reply. -/
inductive Talk where
  /-- It returns or raises. -/
  | ends (o : Except Failure Value)
  /-- It answers and goes on with what comes of that. -/
  | answers (isError : Bool) (v : Value) (rest : Except Failure Unit → Talk)
  /-- It does something else and goes on with what comes of that. -/
  | works (r : Routine Value) (rest : Except Failure Value → Talk)

/-- A handler that talks through a reply. -/
def Talk.routine (q : Ref .reply) : Talk → Routine Value
  | .ends o => .ofOutcome o
  | .answers isError v rest => (Script.answer q isError v).thenOn fun o => (rest o).routine q
  | .works r rest => r.thenOn fun o => (rest o).routine q

/-- One answer, and what came of it. -/
structure Exchange where
  isError : Bool
  value : Value
  start : Nat
  stop : Nat
  outcome : Except Failure Unit

variable {body : Procedure → Routine Value} (R : Run body) (run : Handlers)
  (plan : Procedure → Outline Value) (N b : Nat) (q : Ref .reply)

/-- How a talk goes from one moment to another, and how it ends. -/
inductive Talk.Follows : Nat → Talk → List Exchange → Nat → Except Failure Value → Prop where
  | ends (n : Nat) (o : Except Failure Value) : Follows n (.ends o) [] n o
  | answers {n i t : Nat} {isError : Bool} {v : Value} {rest : Except Failure Unit → Talk}
    {y : Except Failure Unit} {xs : List Exchange} {o : Except Failure Value}
    (hy : (Script.answer q isError v).eval (R.store n) = some (i, y, R.store (n + i)))
    (h : Follows (n + i) (rest y) xs t o) :
    Follows n (.answers isError v rest) (⟨isError, v, n, n + i, y⟩ :: xs) t o
  | works {n m t : Nat} {r : Routine Value} {rest : Except Failure Value → Talk} {ds : List Deed}
    {y : Except Failure Value} {xs : List Exchange} {o : Except Failure Value}
    (hy : Account R run plan N b n (.now (plain r)) ds (some (m, y)))
    (h : Follows m (rest y) xs t o) : Follows n (.works r rest) xs t o

/-- From a moment on, what is done between answers leaves the reply as it is. -/
def Talk.Leaves (k : Nat) : Talk → Prop
  | .ends _ => True
  | .answers _ _ rest => ∀ o, (rest o).Leaves k
  | .works r rest => (∀ n t ds o, k ≤ n → Account R run plan N b n (.now (plain r)) ds (some (t, o)) →
      (R.store t).replies[q.index]? = (R.store n).replies[q.index]?) ∧ ∀ o, (rest o).Leaves k

variable {R run plan N b q}

/-! ## Answers -/

section Answer

variable {s : Store} {x : Reply} (isError : Bool) (v : Value)

theorem get_of_getElem? (h : s.replies[q.index]? = some x) : s.get q = x := by
  obtain ⟨hlt, rfl⟩ := Array.getElem?_eq_some_iff.1 h
  show s.replies.getD q.index default = _
  rw [Array.getD, dif_pos hlt]
  rfl

/-- A reply takes its first answer. -/
theorem answer_first (h : s.replies[q.index]? = some x) (hx : x.settled = false) :
    ∃ s', (Script.answer q isError v).eval s = some (3, .ok (), s') ∧
      s'.replies[q.index]? = some (x.answered isError v) := by
  obtain ⟨hlt, -⟩ := Array.getElem?_eq_some_iff.1 h
  refine ⟨s.put q (x.answered isError v), ?_, Array.getElem?_setIfInBounds_self_of_lt hlt⟩
  refine (Routine.eval_bind (Routine.eval_read _ s)).trans ?_
  rw [get_of_getElem? h, hx]
  rfl

/-- A settled reply takes no answer. -/
theorem answer_settled (h : s.replies[q.index]? = some x) (hx : x.settled = true) :
    ∃ s' f, (Script.answer q isError v).eval s = some (3, .error f, s') ∧
      f.cause = .repliedTwice x.agent ∧ s'.replies = s.replies := by
  refine ⟨{ s with nextFailure := s.nextFailure + 1 }, ⟨s.nextFailure, _⟩, ?_, rfl, rfl⟩
  refine (Routine.eval_bind (Routine.eval_read _ s)).trans ?_
  rw [get_of_getElem? h, hx]
  rfl

theorem settled_answered (x : Reply) (isError : Bool) (v : Value) :
    (x.answered isError v).settled = true := by
  cases isError <;> rfl

end Answer

/-! ## What comes of a talk -/

section Follows

variable {n k t : Nat} {T : Talk} {ds : List Deed} {xs : List Exchange} {o : Except Failure Value}
  {x : Reply}

/-- A handler that talks follows its talk. -/
theorem Talk.follows (h : Account R run plan N b n (.now (plain (T.routine q))) ds (some (t, o))) :
    ∃ xs, Talk.Follows R run plan N b q n T xs t o := by
  induction T generalizing n ds with
  | ends y =>
    refine ⟨[], ?_⟩
    cases y with
    | ok v =>
      cases h.done_iff.2
      exact .ends _ _
    | error f =>
      cases h.fail_iff.2
      exact .ends _ _
  | answers isError v rest ih =>
    rw [Talk.routine, Outline.plain_thenOn] at h
    rcases h.thenOn with ⟨ds₁, m, y, ds₂, h₁, h₂, -⟩ | ⟨-, he⟩
    · have heval : ∃ y s', (Script.answer q isError v).eval (R.store n) = some (3, y, s') := by
        by_cases hx : ((R.store n).get q).settled = true
        · exact ⟨_, _, (Routine.eval_bind (Routine.eval_read _ _)).trans (by rw [if_pos hx]; rfl)⟩
        · exact ⟨_, _, (Routine.eval_bind (Routine.eval_read _ _)).trans (by rw [if_neg hx]; rfl)⟩
      obtain ⟨y', s', heval⟩ := heval
      obtain ⟨-, he | ⟨he, hs⟩⟩ := h₁.straight heval <;> cases he
      obtain ⟨xs, hxs⟩ := ih y h₂
      exact ⟨_, .answers (hs ▸ heval) hxs⟩
    · cases he
  | works r rest ih =>
    rw [Talk.routine, Outline.plain_thenOn] at h
    rcases h.thenOn with ⟨ds₁, m, y, ds₂, h₁, h₂, -⟩ | ⟨-, he⟩
    · obtain ⟨xs, hxs⟩ := ih y h₂
      exact ⟨xs, .works h₁ hxs⟩
    · cases he

/-- An answer fails, and leaves the reply as it is. -/
structure Exchange.Refused (R : Run body) (q : Ref .reply) (x : Reply) (c : Exchange) : Prop where
  fails : ∃ f, c.outcome = .error f ∧ f.cause = .repliedTwice x.agent ∧ f.kind = .execution
  before : (R.store c.start).replies[q.index]? = some x
  after : (R.store c.stop).replies[q.index]? = some x

/-- A reply after some answers: it is what the first one has made of it. -/
def replyAfter (x : Reply) : List Exchange → Reply
  | [] => x
  | c :: _ => x.answered c.isError c.value

/-- The first answer is taken, and all others are refused. -/
def Settles (R : Run body) (q : Ref .reply) (x : Reply) : List Exchange → Prop
  | [] => True
  | c :: cs => c.outcome = .ok () ∧ (R.store c.start).replies[q.index]? = some x ∧
    (R.store c.stop).replies[q.index]? = some (x.answered c.isError c.value) ∧
    ∀ c' ∈ cs, c'.Refused R q (x.answered c.isError c.value)

/-- A settled reply stays as it is. -/
theorem Talk.Follows.refused (h : Talk.Follows R run plan N b q n T xs t o)
    (hl : T.Leaves R run plan N b q k) (hk : k ≤ n) (hx : (R.store n).replies[q.index]? = some x)
    (hs : x.settled = true) :
    (∀ c ∈ xs, c.Refused R q x) ∧ (R.store t).replies[q.index]? = some x := by
  induction h with
  | ends n o => exact ⟨fun c hc => absurd hc List.not_mem_nil, hx⟩
  | @answers n i t isError v rest y xs o hy h ih =>
    obtain ⟨s', f, heval, hf, hsame⟩ := answer_settled isError v hx hs
    obtain ⟨rfl, rfl, rfl⟩ : i = 3 ∧ y = .error f ∧ R.store (n + i) = s' := by
      simpa using hy.symm.trans heval
    have hafter := hsame ▸ hx
    obtain ⟨hall, hend⟩ := ih (hl _) (by omega) hafter
    exact ⟨List.forall_mem_cons.2 ⟨⟨⟨f, rfl, hf, congrArg Cause.kind hf⟩, hx, hafter⟩, hall⟩, hend⟩
  | works hy h ih =>
    have hge := hy.ending_ge rfl
    exact ih (hl.2 _) (by omega) ((hl.1 _ _ _ _ hk hy).trans hx)

theorem Talk.Leaves.mono {m : Nat} (h : T.Leaves R run plan N b q k) (hk : k ≤ m) :
    T.Leaves R run plan N b q m := by
  induction T with
  | ends => trivial
  | answers isError v rest ih => exact fun o => ih o (h o)
  | works r rest ih =>
    exact ⟨fun n t ds o hn => h.1 n t ds o (hk.trans hn), fun o => ih o (h.2 o)⟩

/-- **The first answer counts.** -/
theorem Talk.Follows.settles (h : Talk.Follows R run plan N b q n T xs t o)
    (hl : T.Leaves R run plan N b q k) (hk : k ≤ n) (hx : (R.store n).replies[q.index]? = some x)
    (hs : x.settled = false) :
    Settles R q x xs ∧ (R.store t).replies[q.index]? = some (replyAfter x xs) := by
  induction h with
  | ends n o => exact ⟨trivial, hx⟩
  | @answers n i t isError v rest y xs o hy h _ =>
    obtain ⟨s', heval, hafter⟩ := answer_first isError v hx hs
    obtain ⟨rfl, rfl, rfl⟩ : i = 3 ∧ y = .ok () ∧ R.store (n + i) = s' := by
      simpa using hy.symm.trans heval
    obtain ⟨hall, hend⟩ := h.refused (hl _) (by omega) hafter (settled_answered _ _ _)
    exact ⟨⟨rfl, hx, hafter, hall⟩, hend⟩
  | works hy h ih =>
    have hge := hy.ending_ge rfl
    exact ih (hl.2 _) (by omega) ((hl.1 _ _ _ _ hk hy).trans hx)

end Follows

/-! ## What running an agent comes to -/

/-- What the first answer comes to for a handler that has ended in some way. The text of a reported value
is that of the store in which the handler has ended. -/
def Comes (s : Store) (name : String) (xs : List Exchange) (y o : Except Failure Value) : Prop :=
  match y, xs with
  | .error f, _ => o = .error f
  | .ok _, [] => ∃ f, o = .error f ∧ f.cause = .neverReplied name ∧ f.kind = .execution
  | .ok _, c :: _ =>
    if c.isError then
      match c.value with
      | .failure f => o = .error f
      | v => ∃ f, o = .error f ∧ f.cause = .reportedError name (s.showText v) ∧ f.kind = .execution
    else o = .ok c.value

end Agent

/-- The emissions among deeds, not counting what is emitted inside of them. -/
def Deed.emitted (ds : List Deed) : List (HookName × List Value) :=
  ds.filterMap fun d => match d with | .remark _ (.emits name args) => some (name, args) | _ => none

theorem Deed.emitted_append (ds ds' : List Deed) : emitted (ds ++ ds') = emitted ds ++ emitted ds' :=
  List.filterMap_append

theorem Deed.Calls.emitted {u : Use} {args : List Value} {cs : List (Ref .callable)} {ds : List Deed}
    (h : Deed.Calls u args cs ds) : Deed.emitted ds = [] := by
  refine List.filterMap_eq_nil_iff.2 fun d hd => ?_
  obtain ⟨n, c, inner, e, rfl⟩ := h.mem hd
  rfl

/-- A hook has failed, and its failure comes out. -/
def HookFails {α : Type} (ds : List Deed) (o : Except Failure α) : Prop :=
  ∃ m name c args inner t f, Deed.ask m (.hook name) c args inner (some (t, .error f)) ∈ ds ∧ o = .error f

namespace Agent

section Execute

variable {body : Procedure → Routine Value} {R : Run body} {run : Handlers}
  {plan : Procedure → Outline Value} {N b n t : Nat} {ds : List Deed} {a : Ref .agent}
  {task input : Value} {o : Except Failure Value}

theorem emission_emitted {name : HookName} {args : List Value} {o : Except Failure Unit}
    (h : Account R run plan N b n (.now (emit name args)) ds (some (t, o))) :
    Deed.emitted ds = [(name, args)] := by
  obtain ⟨asks, rfl, hr⟩ := h.emission
  cases hr with
  | complete _ hc | failed _ _ hc _ => exact congrArg (List.cons _) hc.emitted

/-- Only a hook can make an emission fail. -/
theorem emission_fails {α : Type} {name : HookName} {args : List Value} {f : Failure}
    (h : Account R run plan N b n (.now (emit name args)) ds (some (t, .error f))) :
    HookFails ds (.error f : Except Failure α) := by
  obtain ⟨asks, rfl, hr⟩ := h.emission
  cases hr with
  | failed _ _ _ hf => exact ⟨_, name, _, args, _, _, f, List.mem_cons_of_mem _ hf, rfl⟩

/-- What is said of a reply is what the first answer comes to. -/
theorem comes_outcome {s : Store} {x : Reply} (xs : List Exchange) (v : Value) (hs : x.settled = false)
    (hf : x.failed = false) :
    match Reply.outcome s (replyAfter x xs) with
    | .ok w => Comes s x.agent xs (.ok v) (.ok w)
    | .error (.inl f) => Comes s x.agent xs (.ok v) (.error f)
    | .error (.inr c) => ∀ f : Failure, f.cause = c → Comes s x.agent xs (.ok v) (.error f) := by
  cases xs with
  | nil =>
    simp only [replyAfter, Reply.outcome, hs]
    exact fun f hc => ⟨f, rfl, hc, congrArg Cause.kind hc⟩
  | cons c xs =>
    obtain ⟨isError, w, m, t, y⟩ := c
    cases isError with
    | false =>
      simp only [replyAfter, Reply.answered, Reply.outcome, hf]
      rfl
    | true =>
      cases w with
      | failure f => exact rfl
      | _ => exact fun f hc => ⟨f, rfl, hc, congrArg Cause.kind hc⟩

/-- An agent that has talked gives what the first answer comes to. -/
theorem conclude_comes {q : Ref .reply} {x : Reply} {xs : List Exchange} {v : Value}
    (h : Account R run plan N b n (.now (Outlined.conclude q)) ds (some (t, o)))
    (hx : (R.store n).replies[q.index]? = some (replyAfter x xs)) (hs : x.settled = false)
    (hf : x.failed = false) :
    Comes (R.store n) x.agent xs (.ok v) o ∧ Deed.emitted ds = [] := by
  have hcomes := comes_outcome (s := R.store n) xs v hs hf
  rw [← get_of_getElem? hx] at hcomes
  cases h with
  | get _ _ _ h =>
    dsimp only at h
    split at h
    · next w hw =>
      rw [hw] at hcomes
      obtain ⟨rfl, he⟩ := h.done_iff
      cases he
      exact ⟨hcomes, rfl⟩
    · next f hw =>
      rw [hw] at hcomes
      obtain ⟨ds', h', rfl⟩ := h.said
      obtain ⟨rfl, he⟩ := h'.fail_iff
      cases he
      exact ⟨hcomes, rfl⟩
    · next c hw =>
      rw [hw] at hcomes
      obtain ⟨rfl, he | ⟨he, -⟩⟩ := h.straight (Routine.eval_raise c _) <;> cases he
      exact ⟨hcomes _ rfl, rfl⟩

theorem conclude_brisk {q : Ref .reply} {e : Ending Value}
    (h : Account R run plan N b n (.now (Outlined.conclude q)) ds e) : Deed.Brisk N n ds 3 e := by
  cases h with
  | stop => exact Or.inr ⟨N, Or.inl rfl, by omega⟩
  | get hn _ hs h =>
    refine Deed.Brisk.mono (k := 1 + 2) ?_ (fun _ => id) le_rfl
    have hstart : Deed.Brisk N n [] 1 (some (n + 1, (.ok () : Except Failure Unit))) :=
      ⟨n, Or.inl rfl, le_rfl⟩
    refine hstart.append ?_
    dsimp only at h
    split at h
    · exact h.brisk_done.mono (fun _ => id) (by omega)
    · obtain ⟨ds', h', rfl⟩ := h.said
      exact h'.brisk_fail.mono (fun _ => List.mem_cons_of_mem _) (by omega)
    · exact h.brisk_straight (Routine.eval_raise _ _)

/-- How the handler of an agent is called with a fresh reply, talks, and what the answers come to. -/
structure Talked (R : Run body) (run : Handlers) (plan : Procedure → Outline Value) (N b : Nat)
    (a : Ref .agent) (args : Ref .reply → List Value) (talk : Ref .reply → Talk) (ds : List Deed)
    (x : Except Failure Value) (k : Nat) (q : Ref .reply) (xs : List Exchange) (u : Nat)
    (y : Except Failure Value) : Prop where
  asked : ∃ inner rest, ds =
    .ask k .agent ((R.store k).get a).handler (args q) inner (some (u, y)) :: rest
  silent : Deed.emitted ds = []
  fresh : (R.store k).replies[q.index]? = some (Reply.fresh ((R.store k).get a).name)
  follows : Talk.Follows R run plan N b q k (talk q) xs u y
  settles : Settles R q (Reply.fresh ((R.store k).get a).name) xs
  final : (R.store u).replies[q.index]? = some (replyAfter (Reply.fresh ((R.store k).get a).name) xs)
  comes : Comes (R.store u) ((R.store k).get a).name xs y x

theorem answer_talked {d : Ref .dict} {talk : Ref .reply → Talk}
    (h : Account R run plan N b n (.now (Outlined.answerOf a task input d)) ds (some (t, o)))
    (hrun : ∀ m q, run ((R.store m).get a).handler [task, input, .dict d, .reply q] = (talk q).routine q)
    (hl : ∀ q, (talk q).Leaves R run plan N b q n) :
    ∃ k q xs u y, Talked R run plan N b a (fun q => [task, input, .dict d, .reply q]) talk ds o k q xs u y := by
  rcases h.straight_bind (Routine.eval_read _ _) with ⟨-, he⟩ | ⟨hs₁, h₁⟩
  · cases he
  rcases h₁.straight_bind (Routine.eval_modifyGet _ _) with ⟨-, he⟩ | ⟨hs₂, h₂⟩
  · cases he
  rw [hs₁] at hs₂ h₂
  let q : Ref .reply := ⟨(R.store n).replies.size⟩
  have hagent : (R.store n).get a = (R.store (n + 1 + 2)).get a := by
    rw [hs₂]
    rfl
  have hfresh : (R.store (n + 1 + 2)).replies[q.index]? =
      some (Reply.fresh ((R.store (n + 1 + 2)).get a).name) := by
    rw [← hagent, hs₂]
    exact Array.getElem?_push_size
  rw [hagent] at h₂
  have hfollows : ∀ {inner u y}, Account R run plan N b (n + 1 + 2) (.now (plain
      (run ((R.store (n + 1 + 2)).get a).handler [task, input, .dict d, .reply q]))) inner
      (some (u, y)) → ∃ xs, Talk.Follows R run plan N b q (n + 1 + 2) (talk q) xs u y ∧
        Settles R q (Reply.fresh ((R.store (n + 1 + 2)).get a).name) xs ∧
        (R.store u).replies[q.index]? =
          some (replyAfter (Reply.fresh ((R.store (n + 1 + 2)).get a).name) xs) := by
    intro inner u y h
    rw [hrun] at h
    obtain ⟨xs, hxs⟩ := Talk.follows h
    exact ⟨xs, hxs, hxs.settles (hl q) (by omega) hfresh rfl⟩
  rcases h₂.bind with ⟨ds₁, u, v, ds₂, h₃, h₄, rfl⟩ | ⟨u, f, h₃, he⟩ | ⟨-, he⟩
  · obtain ⟨inner, rfl, hinner⟩ := h₃.called
    obtain ⟨xs, hxs, hsettles, hfinal⟩ := hfollows hinner
    obtain ⟨hcomes, hsilent⟩ := conclude_comes (v := v) h₄ hfinal rfl rfl
    exact ⟨_, q, xs, u, .ok v, ⟨inner, ds₂, rfl⟩, hsilent, hfresh, hxs, hsettles, hfinal, hcomes⟩
  · cases he
    obtain ⟨inner, rfl, hinner⟩ := h₃.called
    obtain ⟨xs, hxs, hsettles, hfinal⟩ := hfollows hinner
    exact ⟨_, q, xs, _, .error f, ⟨inner, [], rfl⟩, rfl, hfresh, hxs, hsettles, hfinal, rfl⟩
  · cases he

theorem answer_brisk {d : Ref .dict} {e : Ending Value}
    (h : Account R run plan N b n (.now (Outlined.answerOf a task input d)) ds e) :
    Deed.Brisk N n ds 6 e :=
  h.brisk_straight_bind (k := 1) (l := 5) (Routine.eval_read _ _) fun h =>
    h.brisk_straight_bind (k := 2) (l := 3) (Routine.eval_modifyGet _ _) fun h =>
      h.brisk_bind (k := 0) (l := 3) (fun h => h.brisk_called) conclude_brisk

theorem outline_brisk {tools : Entries Value} {e : Ending Value}
    (h : Account R run plan N b n (.now (outline a task input tools)) ds e) :
    Deed.Brisk N n ds 14 e := by
  refine h.brisk_straight_bind (k := 2) (l := 12) (Routine.eval_modifyGet _ _) fun h =>
    h.brisk_bind (k := 3) (l := 9) (fun h => h.brisk_emission) fun h =>
      h.brisk_attempt (k := 6) (l := 3) answer_brisk fun {t o ds e} h => ?_
  cases o with
  | ok v => exact h.brisk_bind (k := 3) (l := 0) (fun h => h.brisk_emission) fun h => h.brisk_done
  | error f => exact h.brisk_bind (k := 3) (l := 0) (fun h => h.brisk_emission) fun h => h.brisk_fail

/-- What the hooks are told behind an agent. -/
def told (a : Ref .agent) (task input : Value) : Except Failure Value → HookName × List Value
  | .ok v => (.agentComplete, [.agent a, task, input, v])
  | .error f => (.agentError, [.agent a, task, input, .failure f])

/-- Telling the hooks something and then going on with nothing but an outcome. -/
theorem told_ends {name : HookName} {args : List Value} {x : Except Failure Value}
    (h : Account R run plan N b n (.now (emit name args >>= fun _ => .ofOutcome x)) ds (some (t, o))) :
    HookFails ds o ∨ o = x ∧ Deed.emitted ds = [(name, args)] := by
  rcases h.bind with ⟨ds₁, m, v, ds₂, h₁, h₂, rfl⟩ | ⟨m, f, h₁, he⟩ | ⟨-, he⟩
  · obtain ⟨rfl, he⟩ : ds₂ = [] ∧ some (t, o) = some (m, x) := by
      cases x with
      | ok v => exact h₂.done_iff
      | error f => exact h₂.fail_iff
    cases he
    rw [List.append_nil]
    exact Or.inr ⟨rfl, emission_emitted h₁⟩
  · cases he
    exact Or.inl (emission_fails h₁)
  · cases he

/-- **An agent replies once.** Unless user code is at work, running an agent comes to its end within a few
moments. When it has, a hook has failed that was told before, or the handler has been called, once, with a
fresh reply. Its first answer settles the reply, and every later one fails and changes nothing.

Running the agent then comes to what the handler has raised, or else to what its first answer says, unless
a hook fails that is told behind it. The hooks are told that the agent runs, before the handler is called,
and behind it one thing, if it can be handled: that the agent has completed, with what is returned, or that
it has failed, with what is raised. -/
theorem agent_replies {tools : Entries Value} {talk : Ref .dict → Ref .reply → Talk} {e : Ending Value}
    (h : Account R run plan N b n (.now (outline a task input tools)) ds e)
    (hrun : ∀ m d q, run ((R.store m).get a).handler [task, input, .dict d, .reply q] =
      (talk d q).routine q)
    (hl : ∀ d q, (talk d q).Leaves R run plan N b q n) :
    Deed.Brisk N n ds 14 e ∧ ∀ t o, e = some (t, o) → ∃ before after, ds = before ++ after ∧
      Deed.emitted before = [(.agentExecute, [.agent a, task, input])] ∧
      (HookFails before o ∧ after = [] ∨
        ∃ d mid last x k q xs u y, after = mid ++ last ∧
          Talked R run plan N b a (fun q => [task, input, .dict d, .reply q]) (talk d) mid x k q xs u y ∧
          (HookFails last o ∨ o = x ∧ (Tame o → Deed.emitted last = [told a task input o]))) := by
  refine ⟨outline_brisk h, ?_⟩
  rintro t o rfl
  rcases h.straight_bind (Routine.eval_modifyGet _ _) with ⟨-, he⟩ | ⟨-, h₁⟩
  · cases he
  rcases h₁.bind with ⟨before, m, v, after, h₂, h₃, rfl⟩ | ⟨m, f, h₂, he⟩ | ⟨-, he⟩
  · refine ⟨before, after, rfl, emission_emitted h₂, Or.inr ?_⟩
    have hge := h₂.ending_ge rfl
    have hl' := fun q => (hl ((R.store n).newDict tools).1 q).mono (by omega : n ≤ m)
    rcases h₃.attempt with ⟨mid, m', x, last, h₄, htame, h₅, rfl⟩ | ⟨m', f, h₄, hf, he⟩ | ⟨-, he⟩
    · obtain ⟨k, q, xs, u, y, htalked⟩ := answer_talked h₄ (fun m q => hrun m _ q) hl'
      refine ⟨_, mid, last, x, k, q, xs, u, y, rfl, htalked, ?_⟩
      cases x with
      | ok v => exact (told_ends (x := .ok v) h₅).imp id fun ⟨ho, hlast⟩ => ⟨ho, fun _ => ho ▸ hlast⟩
      | error f => exact (told_ends (x := .error f) h₅).imp id fun ⟨ho, hlast⟩ => ⟨ho, fun _ => ho ▸ hlast⟩
    · cases he
      obtain ⟨k, q, xs, u, y, htalked⟩ := answer_talked h₄ (fun m q => hrun m _ q) hl'
      refine ⟨_, after, [], _, k, q, xs, u, y, (List.append_nil _).symm, htalked, Or.inr ⟨rfl, ?_⟩⟩
      intro htame
      rw [(tame_error f).1 htame] at hf
      cases hf
    · cases he
  · cases he
    exact ⟨ds, [], (List.append_nil _).symm, emission_emitted h₂, Or.inl ⟨emission_fails h₂, rfl⟩⟩
  · cases he

end Execute

/-! ## An agent that replies twice -/

/-- A handler that sends something, does something else, reports an error, handles the failure that comes
of that, and returns. -/
def doubleTalk : Talk :=
  .answers false (.text "first") fun _ =>
    .works ((Routine.alter fun s => { s with nextFailure := s.nextFailure + 1 }).bind fun _ => .done .null)
      fun _ => .answers true .null fun _ => .ends (.ok (.int 7))

/-- Agents talk like that, and other user code returns at once. -/
def doubleSetup : Setup :=
  ⟨default, ⟨fun _ args => match args with
    | [_, _, _, .reply q] => doubleTalk.routine q
    | _ => .done .null, default, none, [], [], none⟩⟩

/-- An agent, and a hook that is told when it has completed. -/
def doubleStore : Store :=
  { Store.empty with
    agents := #[⟨"writer", ⟨0⟩, [], .null⟩]
    hooks := Store.empty.hooks.add .agentComplete ⟨1⟩ }

def doubleRun : Run doubleSetup.body :=
  .launched _ doubleStore ((outline ⟨0⟩ .null .null []).erase doubleSetup.desk.call)

theorem doubleRun_account : ∃ ds, doubleSetup.Does doubleRun 20 0 1 (outline ⟨0⟩ .null .null []) ds
    (some (19, .ok (.text "first"))) := by
  obtain ⟨ds, t, o, h⟩ := Run.launched_account doubleSetup.desk.call (Setup.erase_plan doubleSetup)
    (x := outline ⟨0⟩ .null .null []) (N := 20) (s := doubleStore) rfl (by decide) (by decide +kernel)
  have hlead : (((outline ⟨0⟩ .null .null []).leads doubleSetup.desk.call doubleSetup.plan 4 1
      (doubleRun.store 1)).map fun y => (y.1, y.2.1.toOption)) = some (19, some (.text "first")) := by
    decide +kernel
  obtain ⟨⟨t', o', u⟩, hy, hend⟩ := Option.map_eq_some_iff.1 hlead
  obtain ⟨-, rfl, rfl, -⟩ := Account.leads h hy
  cases o with
  | ok v =>
    cases hend
    exact ⟨ds, h⟩
  | error f => cases hend

theorem doubleTalk_leaves (q : Ref .reply) :
    doubleTalk.Leaves doubleRun doubleSetup.desk.call doubleSetup.plan 20 0 q 1 := by
  refine fun _ => ⟨fun n t ds o _ h => ?_, fun _ _ => trivial⟩
  obtain ⟨-, he | ⟨he, hs⟩⟩ := h.straight (Routine.eval_bind (Routine.eval_alter _ _))
  · cases he
  · cases he
    exact (congrArg (fun s : Store => s.replies[q.index]?) hs).trans rfl

theorem agent_replies_double : ∃ ds before d mid last k q xs u y,
    doubleSetup.Does doubleRun 20 0 1 (outline ⟨0⟩ .null .null []) ds
      (some (19, .ok (.text "first"))) ∧
    (∀ m d q, doubleSetup.desk.call ((doubleRun.store m).get (⟨0⟩ : Ref .agent)).handler
      [.null, .null, .dict d, .reply q] = doubleTalk.routine q) ∧
    (∀ q, doubleTalk.Leaves doubleRun doubleSetup.desk.call doubleSetup.plan 20 0 q 1) ∧
    ds = before ++ (mid ++ last) ∧
    Deed.emitted before = [(.agentExecute, [.agent ⟨0⟩, .null, .null])] ∧
    Talked doubleRun doubleSetup.desk.call doubleSetup.plan 20 0 ⟨0⟩
      (fun q => [.null, .null, .dict d, .reply q]) (fun _ => doubleTalk) mid (.ok (.text "first")) k q xs u y ∧
    Deed.emitted last = [(.agentComplete, [.agent ⟨0⟩, .null, .null, .text "first"])] := by
  obtain ⟨ds, h⟩ := doubleRun_account
  obtain ⟨before, after, rfl, hbefore, hrest⟩ :=
    (agent_replies h (fun _ _ _ => rfl) fun _ => doubleTalk_leaves).2 _ _ rfl
  rcases hrest with ⟨⟨_, _, _, _, _, _, f, -, he⟩, -⟩ |
    ⟨d, mid, last, x, k, q, xs, u, y, rfl, htalked, ⟨_, _, _, _, _, _, f, -, he⟩ | ⟨rfl, hlast⟩⟩
  · cases he
  · cases he
  · exact ⟨_, before, d, mid, last, k, q, xs, u, y, h, fun _ _ _ => rfl, doubleTalk_leaves, rfl, hbefore,
      htalked, hlast (tame_ok _)⟩

end Agent

end Conductor
