import Conductor.Proofs.Goal.Stages

/-!
# Agents at work

A subtask is handed to the first agent that covers it. The agent is noted, gets input of its own made of
what is known by then, is called once, with tools of its own, and its answer is filed and adds to what is
known. This is an errand (`Errand`).

Main result: a subtask that is handed out finds no agent, or is an errand (`handed_out`).
-/

namespace Conductor

open Outline (say plain call emit)

namespace Deed

/-! ## Calls of agents -/

/-- When an agent is called, and with what. -/
def agentCall? : Deed → Option (Nat × Ref .callable × List Value)
  | .ask m u c args _ _ => if u = .agent then some (m, c, args) else none
  | .remark .. | .part .. | .fork .. => none

/-- The calls of agents in a list of deeds, not counting what goes on inside of them. -/
def agentCalls (ds : List Deed) : List (Nat × Ref .callable × List Value) := ds.filterMap agentCall?

variable {ds ds' : List Deed} {n : Nat} {u : Use} {c : Ref .callable} {args : List Value}
  {inner : List Deed} {e : Ending Value}

@[simp] theorem agentCalls_nil : agentCalls [] = [] := rfl

@[simp] theorem agentCalls_append : agentCalls (ds ++ ds') = agentCalls ds ++ agentCalls ds' :=
  List.filterMap_append

@[simp] theorem agentCalls_remark (l : Remark) : agentCalls (.remark n l :: ds) = agentCalls ds := rfl

theorem agentCalls_agent :
    agentCalls (.ask n .agent c args inner e :: ds) = (n, c, args) :: agentCalls ds := rfl

theorem mem_agentCalls (h : .ask n .agent c args inner e ∈ ds) : (n, c, args) ∈ agentCalls ds :=
  List.mem_filterMap.2 ⟨_, h, rfl⟩

/-- Calls of hooks in a row are no calls of agents. -/
theorem Calls.no_agent {cs : List (Ref .callable)} (h : Calls u args cs ds) (hu : u ≠ .agent) :
    agentCalls ds = [] := by
  refine List.filterMap_eq_nil_iff.2 fun d hd => ?_
  obtain ⟨m, c, inner, e, rfl⟩ := h.mem hd
  exact if_neg hu

end Deed

/-- The hooks that an emission runs. -/
theorem Account.emission_calls {body : Procedure → Routine Value} {R : Run body} {run : Handlers}
    {plan : Procedure → Outline Value} {N b n : Nat} {ds : List Deed} {name : HookName}
    {args : List Value} {e : Ending Unit}
    (h : Account R run plan N b n (.now (emit name args)) ds e) :
    Deed.agentCalls ds = [] ∧ ∀ m u c as inner e, .ask m u c as inner e ∈ ds → u = .hook name := by
  obtain ⟨asks, rfl, hr⟩ := h.emission
  have hcalls : ∃ cs, Deed.Calls (.hook name) args cs asks := by
    cases hr with
    | complete _ hc | failed _ _ hc _ | going _ hc => exact ⟨_, hc⟩
  obtain ⟨cs, hc⟩ := hcalls
  exact ⟨hc.no_agent (by simp), fun _ _ _ _ _ _ hd => (h.emission_asks hd).1⟩

theorem Account.plain_calls {body : Procedure → Routine Value} {R : Run body} {run : Handlers}
    {plan : Procedure → Outline Value} {N b n : Nat} {ds : List Deed} {α : Type} {r : Routine α}
    {e : Ending α} (h : Account R run plan N b n (.now (plain r)) ds e) : Deed.agentCalls ds = [] := by
  refine List.filterMap_eq_nil_iff.2 fun d hd => ?_
  obtain ⟨_, _, _, _, _, rfl⟩ | ⟨_, _, _, _, rfl⟩ := h.silent_plain d hd <;> rfl

namespace Pursuit

variable {σ : Setup} {R : Run σ.body} {N b n t : Nat} {ds : List Deed} {a : Ref .agent}
  {task body : Value} {tools : Entries Value} {o : Except Failure Value}

/-- How an agent is called: after the hooks have been told, with tools of its own. -/
structure Hires (R : Run σ.body) (a : Ref .agent) (task body : Value) (n t : Nat) (ds : List Deed)
    (d : Ref .dict) (k : Nat) (q : Ref .reply) : Prop where
  calls : Deed.agentCalls ds =
    [(k, ((R.store k).get a).handler, [task, body, .dict d, .reply q])]
  after : n ≤ k
  before : k ≤ t
  /-- What is spared is true when the agent is called, if the hooks that are told leave it true. -/
  keeps : ∀ {X D P}, Spared X D P → P (R.store (n + 2)) →
    (∀ {m c args inner t o}, .ask m (.hook .agentExecute) c args inner (some (t, o)) ∈ ds →
      P (R.store m) → P (R.store t)) → P (R.store k)

/-- What an agent has answered is said without another call. -/
theorem conclude_calls {r : Ref .reply} {e : Ending Value}
    (h : σ.Does R N b n (Agent.Outlined.conclude r) ds e) : Deed.agentCalls ds = [] := by
  cases h with
  | stop => rfl
  | get _ _ _ h =>
    dsimp only at h
    split at h
    · rw [h.done_iff.1]
      rfl
    · obtain ⟨ds', h', rfl⟩ := h.said
      rw [h'.fail_iff.1]
      rfl
    · exact h.plain_calls

/-- An agent that is to answer is called once, with a fresh reply. -/
theorem answer_hired {d : Ref .dict}
    (h : σ.Does R N b n (Agent.Outlined.answerOf a task body d) ds (some (t, o))) :
    (∃ q, Deed.agentCalls ds =
      [(n + 3, ((R.store (n + 3)).get a).handler, [task, body, .dict d, .reply q])]) ∧
      n + 3 ≤ t ∧ ∀ {X D P}, Spared X D P → P (R.store n) → P (R.store (n + 3)) := by
  rcases h.straight_bind (Routine.eval_read _ _) with ⟨-, he⟩ | ⟨hs₁, h₁⟩
  · cases he
  rcases h₁.straight_bind (Routine.eval_modifyGet _ _) with ⟨-, he⟩ | ⟨hs₂, h₂⟩
  · cases he
  have hstore : R.store (n + 3) =
      ((R.store n).alloc (t := .reply) (Reply.fresh ((R.store n).get a).name)).2 := by
    rw [hs₂, hs₁]
  have hagent : (R.store (n + 3)).get a = (R.store n).get a := by
    rw [hstore]
    rfl
  refine ⟨⟨((R.store (n + 1)).alloc (t := .reply) (Reply.fresh ((R.store n).get a).name)).1, ?_⟩,
    h₂.ending_ge rfl, fun hP hn => ?_⟩
  · rw [hagent]
    rcases h₂.bind with ⟨ds₁, m, v, ds₂, h₃, h₄, rfl⟩ | ⟨m, f, h₃, he⟩ | ⟨-, he⟩
    · obtain ⟨inner, rfl, -⟩ := h₃.called
      rw [Deed.agentCalls_append, conclude_calls h₄, List.append_nil]
      rfl
    · obtain ⟨inner, rfl, -⟩ := h₃.called
      rfl
    · cases he
  · rw [hstore]
    exact hP.reply _ _ hn

/-- **An agent is called once**, unless a hook has failed before. -/
theorem agent_hired
    (h : σ.Does R N b n (Agent.outline a task body tools) ds (some (t, o))) :
    R.store (n + 2) = ((R.store n).newDict tools).2 ∧
      ((∃ f, o = .error f) ∧ Deed.agentCalls ds = [] ∨
        ∃ k q, Hires R a task body n t ds ((R.store n).newDict tools).1 k q) := by
  rcases h.straight_bind (Routine.eval_modifyGet _ _) with ⟨-, he⟩ | ⟨hs, h₁⟩
  · cases he
  refine ⟨hs, ?_⟩
  rcases h₁.bind with ⟨ds₁, m, u, ds₂, hemit, h₂, rfl⟩ | ⟨m, f, hemit, he⟩ | ⟨-, he⟩
  · obtain ⟨hnone, hhooks⟩ := hemit.emission_calls
    -- The agent is called in the piece behind the hooks, and hooks are called behind that.
    have hires : ∀ {ds₃ ds₄ t' o'},
        σ.Does R N b m (Agent.Outlined.answerOf a task body ((R.store n).newDict tools).1) ds₃
          (some (t', o')) → t' ≤ t → ds₂ = ds₃ ++ ds₄ → Deed.agentCalls ds₄ = [] →
        ∃ k q, Hires R a task body n t (ds₁ ++ ds₂) ((R.store n).newDict tools).1 k q := by
      rintro ds₃ ds₄ t' o' h₃ ht rfl hrest
      obtain ⟨⟨q, hcall⟩, hmt, hkeeps⟩ := answer_hired h₃
      refine ⟨m + 3, q, ?_, ?_, hmt.trans ht, fun hP hn hleave => hkeeps hP ?_⟩
      · rw [Deed.agentCalls_append, Deed.agentCalls_append, hnone, hcall, hrest]
        rfl
      · have := hemit.ending_ge rfl
        omega
      · refine (hemit.keeps (emit_keeps hP _ _) hn ⟨fun hd => ?_⟩).2 _ _ rfl
        obtain rfl := hhooks _ _ _ _ _ _ hd
        exact hleave (List.mem_append_left _ hd)
    refine Or.inr ?_
    rcases h₂.attempt with ⟨ds₃, m', x, ds₄, h₃, -, h₄, rfl⟩ | ⟨m', f, h₃, -, he⟩ | ⟨-, he⟩
    · refine hires h₃ (h₄.ending_ge rfl) rfl ?_
      cases x with
      | ok v =>
        rcases h₄.bind with ⟨ds₅, m'', u, ds₆, h₅, h₆, rfl⟩ | ⟨m'', f, h₅, -⟩ | ⟨-, he⟩
        · rw [h₆.done_iff.1, List.append_nil]
          exact h₅.emission_calls.1
        · exact h₅.emission_calls.1
        · cases he
      | error f =>
        rcases h₄.bind with ⟨ds₅, m'', u, ds₆, h₅, h₆, rfl⟩ | ⟨m'', f, h₅, -⟩ | ⟨-, he⟩
        · rw [h₆.fail_iff.1, List.append_nil]
          exact h₅.emission_calls.1
        · exact h₅.emission_calls.1
        · cases he
    · cases he
      exact hires h₃ le_rfl (List.append_nil _).symm rfl
    · cases he
  · cases he
    exact Or.inl ⟨⟨f, rfl⟩, hemit.emission_calls.1⟩
  · cases he

/-! ## One errand -/

/-- A subtask on its way. -/
structure Errand where
  goal : Ref .goal
  agent : Ref .agent
  /-- What is known when it is handed out. -/
  known : Entries Value
  /-- When the agent is chosen. -/
  chosen : Nat
  /-- When the input of the agent is made. -/
  made : Nat
  body : Ref .dict
  tools : Ref .dict
  /-- When the agent is called, unless a hook fails before. -/
  called : Nat
  reply : Ref .reply
  /-- When the agent has answered, and what. -/
  ended : Nat
  answer : Except Failure Value
  /-- What is done from the call of the hooks before the agent to the call of those behind it. -/
  deeds : List Deed

namespace Errand

/-- The name of the subtask. -/
def name (R : Run σ.body) (τ : Errand) : String := ((R.store τ.chosen).get τ.goal).name

/-- The agent as it is when it is chosen. -/
def worker (R : Run σ.body) (τ : Errand) : Agent := (R.store τ.chosen).get τ.agent

/-- What the agent is to get: what is known, with the aliases for its capabilities applied. -/
def request (R : Run σ.body) (τ : Errand) : Entries Value :=
  (R.store τ.made).normalize σ.desk.aliases (τ.worker R).capabilities τ.known

/-- The call of the agent. -/
def call (R : Run σ.body) (τ : Errand) : Nat × Ref .callable × List Value :=
  (τ.called, ((R.store τ.called).get τ.agent).handler,
    [.goal τ.goal, .dict τ.body, .dict τ.tools, .reply τ.reply])

/-- The first agent that covers a subtask gets input of its own, and does what it does. -/
structure Goes (R : Run σ.body) (N b : Nat) (e : Ref .execution) (n : Nat) (τ : Errand) : Prop where
  begins : τ.chosen = n
  chooses : Desk.agentFor (R.store τ.chosen) τ.goal = .ok τ.agent
  made : τ.chosen ≤ τ.made
  notes : ∃ h, R.store τ.made = ((R.store n).insert ((R.store n).get e).agents (τ.name R)
    (.text (τ.worker R).name)).write h
  body : τ.body = ((R.store τ.made).newDict (τ.request R)).1
  bodied : R.store (τ.made + 2) = ((R.store τ.made).newDict (τ.request R)).2
  tools : τ.tools = ((R.store (τ.made + 2)).newDict σ.desk.tools).1
  tooled : R.store (τ.made + 4) = ((R.store (τ.made + 2)).newDict σ.desk.tools).2
  hires : (∃ f, τ.answer = .error f) ∧ Deed.agentCalls τ.deeds = [] ∨
    Hires R τ.agent (.goal τ.goal) (.dict τ.body) (τ.made + 2) τ.ended τ.deeds τ.tools τ.called τ.reply
  runs : σ.Does R N b (τ.made + 2)
    (Agent.outline τ.agent (.goal τ.goal) (.dict τ.body) σ.desk.tools) τ.deeds
    (some (τ.ended, τ.answer))

end Errand

section HandOut

open Routine

variable {s : Store} {e : Ref .execution} {g : Ref .goal} {known : Entries Value}

theorem eval_choose (δ : Desk) (h : Desk.agentFor s g = .ok a) :
    ∃ x, (δ.choose e g).eval s = some (8, .ok (a, s.get a),
      (s.insert (s.get e).agents (s.get g).name (.text (s.get a).name)).write x) :=
  ⟨_, (eval_bind (eval_query_ok h)).trans rfl⟩

theorem eval_choose_error (δ : Desk) {c : Cause} (h : Desk.agentFor s g = .error c) :
    (δ.choose e g).eval s =
      some (3, .error ⟨s.nextFailure, c⟩, { s with nextFailure := s.nextFailure + 1 }) :=
  eval_bind_error (eval_query_error h)

theorem eval_file (δ : Desk) (v : Value) :
    ∃ x, (δ.file e g known v).eval s = some (6, .ok (Desk.learn s known v),
      (s.insert (s.get e).results (s.get g).name v).write x) := ⟨_, rfl⟩

/-- **A subtask finds no agent, or an errand is run.** If the agent answers, the answer is filed and adds
to what is known. -/
theorem handed_out {o : Except Failure (Value × Entries Value)}
    (h : σ.Does R N b n (Outlined.handOut σ.desk e g known) ds (some (t, o))) :
    (∃ f, o = .error f ∧ Desk.agentFor (R.store n) g = .error f.cause ∧ ds = [] ∧
      R.store t = { R.store n with nextFailure := (R.store n).nextFailure + 1 }) ∨
    ∃ τ : Errand, τ.goal = g ∧ τ.known = known ∧ τ.deeds = ds ∧ τ.Goes R N b e n ∧
      ((∃ f, τ.answer = .error f ∧ o = .error f ∧ t = τ.ended) ∨
        ∃ v, τ.answer = .ok v ∧ o = .ok (v, Desk.learn (R.store τ.ended) known v) ∧ τ.ended ≤ t ∧
          ∃ x, R.store t = ((R.store τ.ended).insert ((R.store τ.ended).get e).results
            ((R.store τ.ended).get g).name v).write x) := by
  rw [Outlined.handOut] at h
  cases hagent : Desk.agentFor (R.store n) g with
  | error c =>
    obtain ⟨rfl, he | ⟨he, hs⟩⟩ := h.straight_bind_error (eval_choose_error σ.desk hagent)
    · cases he
    · cases he
      exact Or.inl ⟨_, rfl, rfl, rfl, hs⟩
  | ok a =>
    obtain ⟨x, hchoose⟩ := eval_choose (e := e) σ.desk hagent
    rcases h.straight_bind hchoose with ⟨-, he⟩ | ⟨hs, h₁⟩
    · cases he
    rcases h₁.straight_bind (eval_modifyGet _ _) with ⟨-, he⟩ | ⟨hs₁, h₂⟩
    · cases he
    -- Whatever the agent does, it does it on an errand.
    have herrand : ∀ {ds m y}, σ.Does R N b (n + 8 + 2) (Agent.outline a (.goal g)
        (.dict ((R.store (n + 8)).newDict ((R.store (n + 8)).normalize σ.desk.aliases
          ((R.store n).get a).capabilities known)).1) σ.desk.tools) ds (some (m, y)) →
        ∃ τ : Errand, τ.goal = g ∧ τ.known = known ∧ τ.deeds = ds ∧ τ.ended = m ∧ τ.answer = y ∧
          τ.Goes R N b e n := by
      intro ds m y h
      obtain ⟨htools, hnone | ⟨k, q, hires⟩⟩ := agent_hired h
      · exact ⟨⟨g, a, known, n, n + 8, _, ((R.store (n + 8 + 2)).newDict σ.desk.tools).1, 0, default, m,
          y, ds⟩, rfl, rfl, rfl, rfl, rfl,
          ⟨rfl, hagent, Nat.le_add_right _ _, ⟨x, hs⟩, rfl, hs₁, rfl, htools, Or.inl hnone, h⟩⟩
      · exact ⟨⟨g, a, known, n, n + 8, _, ((R.store (n + 8 + 2)).newDict σ.desk.tools).1, k, q, m, y,
          ds⟩, rfl, rfl, rfl, rfl, rfl,
          ⟨rfl, hagent, Nat.le_add_right _ _, ⟨x, hs⟩, rfl, hs₁, rfl, htools, Or.inr hires, h⟩⟩
    rcases h₂.bind with ⟨ds₁, m, v, ds₂, h₃, h₄, rfl⟩ | ⟨m, f, h₃, he⟩ | ⟨-, he⟩
    · obtain ⟨τ, hg, hk, rfl, rfl, hanswer, hgoes⟩ := herrand h₃
      obtain ⟨y, hfile⟩ : ∃ y, (σ.desk.file e g known v).eval (R.store τ.ended) = some (6, _, _) :=
        eval_file σ.desk v
      rcases h₄.straight_bind hfile with ⟨-, he⟩ | ⟨hs₂, h₅⟩
      · cases he
      obtain ⟨rfl, he⟩ := h₅.done_iff
      cases he
      rw [List.append_nil]
      exact Or.inr ⟨τ, hg, hk, rfl, hgoes, Or.inr ⟨v, hanswer, rfl, Nat.le_add_right _ _, y, hs₂⟩⟩
    · cases he
      obtain ⟨τ, hg, hk, rfl, rfl, hanswer, hgoes⟩ := herrand h₃
      exact Or.inr ⟨τ, hg, hk, rfl, hgoes, Or.inl ⟨f, hanswer, rfl, rfl⟩⟩
    · cases he

end HandOut

end Pursuit

end Conductor
