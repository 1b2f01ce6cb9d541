import Conductor.Agent.Registry
import Conductor.Proofs.Account.Reading
import Conductor.Proofs.Store.Merging
import Conductor.Proofs.Store.Writing

/-!
# Agents that are chosen

Agents are registered one after another under names of their own, and whoever asks for capabilities gets
the one that was registered first among those that cover all of them (`FirstCovering`). An agent covers
what is in its capability set, which is just the general one if it declares none.

**Theorem (`chosen_first`).** After any history of registrations, in which a name that is taken makes the
call fail and nothing else, the registry chooses that way for every requirement. The choice is a matter
of what is required and not of how it is listed; it stays as it is when further agents come in, a smaller
requirement is met no later, and for a single capability other than the general one it is the first of
the agents that declare it.

The registry is compared with the list of the agents whose names were new when they came in (`admitted`);
`Enrolled` says that it holds just these, and one registration keeps that (`Enrolled.register`).
-/

namespace Conductor

namespace Agent

/-! ## Histories of registrations -/

/-- The agents whose names were new when they came in. -/
def admitted (as : List Agent) : List Agent :=
  as.foldl (fun xs a => if a.name ∈ xs.map name then xs else xs ++ [a]) []

theorem admitted_concat (as : List Agent) (a : Agent) :
    admitted (as ++ [a]) =
      if a.name ∈ (admitted as).map name then admitted as else admitted as ++ [a] := by
  rw [admitted, List.foldl_append]
  rfl

/-- A history in which agents are registered. In between, anything may happen that leaves the registered
agents as they are. -/
inductive Registers : Store → List Agent → Store → Prop
  | refl (s : Store) : Registers s [] s
  | call {s t u : Store} {as : List Agent} {a : Agent} {i : Nat} {o : Except Failure (Ref .agent)}
    (h : Registers s as t) (ho : (register a).eval t = some (i, o, u)) : Registers s (as ++ [a]) u
  | other {s t u : Store} {as : List Agent} (h : Registers s as t)
    (hr : u.agentRegistry = t.agentRegistry) (ha : u.agents = t.agents) : Registers s as u

theorem Registers.append {s t u : Store} {as bs : List Agent} (h : Registers s as t)
    (h' : Registers t bs u) : Registers s (as ++ bs) u := by
  induction h' with
  | refl => rwa [List.append_nil]
  | call _ ho ih => exact List.append_assoc .. ▸ ih.call ho
  | other _ hr ha ih => exact ih.other hr ha

/-! ## What is registered -/

/-- A store has just these agents registered, in this order. -/
structure Enrolled (s : Store) (xs : List Agent) : Prop where
  names : Entries.keys s.agentRegistry = xs.map name
  agents : s.roster.map s.get = xs
  there : ∀ r ∈ s.roster, r.index < s.agents.size

theorem enrolled_nil {s : Store} (h : s.agentRegistry = []) : Enrolled s [] := by
  have hroster : s.roster = [] := congrArg Entries.values h
  refine ⟨congrArg Entries.keys h, by rw [hroster]; rfl, fun r hr => ?_⟩
  rw [hroster] at hr
  cases hr

/-- What a registration comes to: a failure that leaves everything else as it is, or a new agent behind
all others. -/
structure Admits (s : Store) (xs : List Agent) (a : Agent) (o : Except Failure (Ref .agent)) (t : Store) :
    Prop where
  taken : a.name ∈ xs.map name →
    o = .error ⟨s.nextFailure, .repeatedAgent a.name⟩ ∧ t = { s with nextFailure := s.nextFailure + 1 }
  fresh : a.name ∉ xs.map name → ∃ r, o = .ok r ∧ r ∉ s.roster ∧
    t.agentRegistry = s.agentRegistry ++ [(a.name, r)] ∧ t.agents = s.agents.push a ∧ r.index = s.agents.size

section Enrolled

variable {s t : Store} {xs : List Agent}

theorem Enrolled.taken_iff (h : Enrolled s xs) (key : String) :
    Entries.has s.agentRegistry key = true ↔ key ∈ xs.map name := by
  rw [Entries.has_iff, h.names]

theorem eval_register_taken {a : Agent} (h : Entries.has s.agentRegistry a.name = true) :
    (register a).eval s = some (3, .error ⟨s.nextFailure, .repeatedAgent a.name⟩,
      { s with nextFailure := s.nextFailure + 1 }) := by
  refine (Routine.eval_bind (Routine.eval_read _ s)).trans ?_
  rw [h]
  rfl

/-- The store with an agent registered, before that is logged. -/
def placed (s : Store) (a : Agent) : Store :=
  { (s.alloc (t := .agent) a).2 with
    agentRegistry := Entries.insert s.agentRegistry a.name (s.alloc (t := .agent) a).1 }

theorem eval_register_fresh {a : Agent} (h : Entries.has s.agentRegistry a.name = false) :
    (register a).eval s = some (5, .ok ⟨s.agents.size⟩, (placed s a).write (.log .debug registryLogger
      "agent_registered" [("agent", .text a.name), ("capabilities", .list (a.capabilities.map .text))])) := by
  refine (Routine.eval_bind (Routine.eval_read _ s)).trans ?_
  rw [h]
  rfl

/-- A registration has an outcome, which the registered names decide. -/
theorem Enrolled.admits (h : Enrolled s xs) (a : Agent) :
    ∃ i o t, (register a).eval s = some (i, o, t) ∧ Admits s xs a o t := by
  by_cases ha : Entries.has s.agentRegistry a.name = true
  · exact ⟨_, _, _, eval_register_taken ha, fun _ => ⟨rfl, rfl⟩, fun hnew => absurd ((h.taken_iff _).1 ha) hnew⟩
  · have hnew := mt (h.taken_iff a.name).2 ha
    have hkey : a.name ∉ Entries.keys s.agentRegistry := by rwa [h.names]
    have hinsert := Entries.insert_eq_append hkey (⟨s.agents.size⟩ : Ref .agent)
    refine ⟨_, _, _, eval_register_fresh (by simpa using ha), fun htaken => absurd htaken hnew, fun _ =>
      ⟨_, rfl, fun hmem => Nat.lt_irrefl _ (h.there _ hmem), hinsert, rfl, rfl⟩⟩

theorem roster_append {key : String} {r : Ref .agent}
    (h : t.agentRegistry = s.agentRegistry ++ [(key, r)]) : t.roster = s.roster ++ [r] := by
  rw [Store.roster, h]
  exact List.map_append

/-- **One registration** keeps the registry what the names that were new make it. -/
theorem Enrolled.register (h : Enrolled s xs) {a : Agent} {i : Nat} {o : Except Failure (Ref .agent)}
    (ho : (register a).eval s = some (i, o, t)) :
    Enrolled t (if a.name ∈ xs.map name then xs else xs ++ [a]) := by
  obtain ⟨i', o', t', ho', htaken, hfresh⟩ := h.admits a
  obtain ⟨-, rfl, rfl⟩ : i = i' ∧ o = o' ∧ t = t' := by simpa using ho.symm.trans ho'
  split
  · next hname =>
    obtain ⟨-, rfl⟩ := htaken hname
    exact ⟨h.names, h.agents, h.there⟩
  · next hname =>
    obtain ⟨r, -, -, hregistry, hagents, hr⟩ := hfresh hname
    have hroster := roster_append hregistry
    have hold : ∀ q ∈ s.roster, t.get q = s.get q := fun q hq => by
      show t.agents.getD _ _ = s.agents.getD _ _
      rw [hagents]
      exact Store.getD_push_of_lt (h.there q hq)
    have hnew : t.get r = a := by
      show t.agents.getD _ _ = _
      rw [hagents, hr]
      exact Store.getD_push_size
    refine ⟨?_, ?_, fun q hq => ?_⟩
    · rw [hregistry, Entries.keys, List.map_append, List.map_append]
      exact congrArg (· ++ _) h.names
    · rw [hroster, List.map_append, List.map_singleton, hnew, List.map_congr_left hold, h.agents]
    · rw [hroster] at hq
      rw [hagents, Array.size_push]
      rcases List.mem_append.1 hq with hq | hq
      · exact Nat.lt_succ_of_lt (h.there q hq)
      · rw [List.mem_singleton.1 hq, hr]
        exact Nat.lt_succ_self _

theorem Enrolled.same (h : Enrolled s xs) (hr : t.agentRegistry = s.agentRegistry)
    (ha : t.agents = s.agents) : Enrolled t xs := by
  have hget : ∀ q : Ref .agent, t.get q = s.get q := fun q => congrArg (·.getD q.index default) ha
  refine ⟨by rw [hr, h.names], ?_, by rw [Store.roster, hr, ha]; exact h.there⟩
  rw [Store.roster, hr]
  exact (List.map_congr_left fun q _ => hget q).trans h.agents

/-- **A history of registrations** has registered the agents whose names were new. -/
theorem Registers.enrolled {as : List Agent} (h : Registers s as t) (h₀ : s.agentRegistry = []) :
    Enrolled t (admitted as) := by
  induction h with
  | refl => exact enrolled_nil h₀
  | call _ ho ih =>
    rw [admitted_concat]
    exact ih.register ho
  | other _ hr ha ih => exact ih.same hr ha

/-- Whatever is registered later, the agents that are registered keep their places. -/
theorem Registers.extends {as : List Agent} (h : Registers s as t) (hs : Enrolled s xs) :
    ∃ ys, Enrolled t (xs ++ ys) ∧ s.roster <+: t.roster := by
  induction h with
  | refl => exact ⟨[], (List.append_nil xs).symm ▸ hs, List.prefix_rfl⟩
  | @call t u _ a _ _ _ ho ih =>
    obtain ⟨ys, hys, hroster⟩ := ih
    obtain ⟨i, o, u', ho', htaken, hfresh⟩ := hys.admits a
    obtain ⟨-, -, rfl⟩ : _ ∧ _ ∧ u = u' := by simpa using ho.symm.trans ho'
    have hu := hys.register ho
    split at hu
    · next hname => exact ⟨ys, hu, (htaken hname).2 ▸ hroster⟩
    · next hname =>
      obtain ⟨r, -, -, hregistry, -⟩ := hfresh hname
      refine ⟨ys ++ [a], List.append_assoc .. ▸ hu, hroster.trans ⟨[r], ?_⟩⟩
      exact (roster_append hregistry).symm
  | other _ hr ha ih =>
    obtain ⟨ys, hys, hroster⟩ := ih
    exact ⟨ys, hys.same hr ha, by rwa [Store.roster, Store.roster, hr]⟩

end Enrolled

/-! ## Choices -/

/-- An agent has all required capabilities in its set, which is the general one if it declares none. -/
def Covers (a : Agent) (required : List String) : Prop :=
  ∀ c ∈ required, c ∈ a.capabilities ∨ a.capabilities = [] ∧ c = general

theorem canHandle_iff {a : Agent} {required : List String} :
    a.canHandle required = true ↔ a.Covers required := by
  rw [canHandle, List.all_eq_true]
  refine forall₂_congr fun c _ => ?_
  rw [List.contains_iff_mem, effective]
  cases hc : a.capabilities with
  | nil => simp
  | cons x xs => simp

/-- The agent at a place is the first one that covers all required capabilities. -/
def FirstCovering (xs : List Agent) (required : List String) (i : Nat) : Prop :=
  (∃ a, xs[i]? = some a ∧ a.Covers required) ∧ ∀ j < i, ∀ b, xs[j]? = some b → ¬b.Covers required

/-- How a store with registered agents answers a requirement. -/
structure Chooses (s : Store) (xs : List Agent) (required : List String) : Prop where
  /-- The answer is the first agent that covers the requirement. -/
  first : ∀ r, s.agentCovering required = .ok r ↔ ∃ i, s.roster[i]? = some r ∧ FirstCovering xs required i
  /-- It fails if there is none. -/
  lacks : ∀ c, s.agentCovering required = .error c ↔
    (c = .uncovered required ∧ c.kind = .notFound) ∧ ∀ a ∈ xs, ¬a.Covers required
  /-- It depends only on what is required. -/
  same : ∀ required', (∀ c, c ∈ required' ↔ c ∈ required) →
    (s.agentCovering required').toOption = (s.agentCovering required).toOption
  /-- It is not changed by further registrations. -/
  stays : ∀ r, s.agentCovering required = .ok r → ∀ bs t, Registers s bs t →
    t.agentCovering required = .ok r ∧ t.get r = s.get r
  /-- What requires less is met, and no later. -/
  less : ∀ r (i : Nat), s.agentCovering required = .ok r → s.roster[i]? = some r →
    ∀ fewer, (∀ c ∈ fewer, c ∈ required) →
      ∃ r' j, s.agentCovering fewer = .ok r' ∧ s.roster[j]? = some r' ∧ j ≤ i

section Choices

variable {s t : Store} {xs : List Agent} {required : List String} {r : Ref .agent}

theorem Enrolled.length (h : Enrolled s xs) : s.roster.length = xs.length := by
  rw [← h.agents, List.length_map]

theorem toOption_agentCovering (s : Store) (required : List String) :
    (s.agentCovering required).toOption = s.roster.find? fun a => (s.get a).canHandle required := by
  unfold Store.agentCovering
  cases s.roster.find? fun a => (s.get a).canHandle required <;> rfl

theorem agentCovering_ok_iff :
    s.agentCovering required = .ok r ↔
      s.roster.find? (fun a => (s.get a).canHandle required) = some r := by
  rw [← toOption_agentCovering]
  cases s.agentCovering required <;> simp [Except.toOption]

theorem agentCovering_error_iff {c : Cause} :
    s.agentCovering required = .error c ↔ c = .uncovered required ∧
      ∀ a ∈ s.roster, ¬(s.get a).Covers required := by
  have hnone : s.roster.find? (fun a => (s.get a).canHandle required) = none ↔
      ∀ a ∈ s.roster, ¬(s.get a).Covers required := by
    rw [List.find?_eq_none]
    exact forall₂_congr fun a _ => not_congr canHandle_iff
  rw [← hnone]
  unfold Store.agentCovering
  cases s.roster.find? fun a => (s.get a).canHandle required with
  | none => simp [eq_comm]
  | some a => simp

/-- **The answer is the first agent that covers the requirement.** -/
theorem Enrolled.first (h : Enrolled s xs) :
    s.agentCovering required = .ok r ↔ ∃ i, s.roster[i]? = some r ∧ FirstCovering xs required i := by
  have hplace : ∀ i, xs[i]? = s.roster[i]?.map s.get := fun i => by rw [← h.agents, List.getElem?_map]
  rw [agentCovering_ok_iff, List.find?_eq_some_iff_getElem]
  constructor
  · rintro ⟨hr, i, hi, rfl, hbefore⟩
    have hsome : s.roster[i]? = some s.roster[i] := List.getElem?_eq_getElem hi
    refine ⟨i, hsome, ⟨_, by rw [hplace, hsome]; rfl, canHandle_iff.1 hr⟩, fun j hj b hb hcovers => ?_⟩
    have hnot := hbefore j hj
    rw [hplace, List.getElem?_eq_getElem (hj.trans hi)] at hb
    cases hb
    rw [canHandle_iff.2 hcovers] at hnot
    cases hnot
  · rintro ⟨i, hi, ⟨a, ha, hcovers⟩, hbefore⟩
    obtain ⟨hlt, rfl⟩ := List.getElem?_eq_some_iff.1 hi
    rw [hplace, hi] at ha
    cases ha
    refine ⟨canHandle_iff.2 hcovers, i, hlt, rfl, fun j hj => ?_⟩
    have hb := (hplace j).trans (by rw [List.getElem?_eq_getElem (hj.trans hlt)])
    simpa using mt canHandle_iff.1 (hbefore j hj _ hb)

theorem Enrolled.lacks (h : Enrolled s xs) {c : Cause} :
    s.agentCovering required = .error c ↔
      (c = .uncovered required ∧ c.kind = .notFound) ∧ ∀ a ∈ xs, ¬a.Covers required := by
  rw [agentCovering_error_iff, ← h.agents]
  constructor
  · rintro ⟨rfl, hnone⟩
    exact ⟨⟨rfl, rfl⟩, List.forall_mem_map.2 hnone⟩
  · rintro ⟨⟨rfl, -⟩, hnone⟩
    exact ⟨rfl, fun a ha => hnone _ (List.mem_map_of_mem ha)⟩

/-- An agent that is chosen stays the choice. -/
theorem Enrolled.stays (h : Enrolled s xs) (hr : s.agentCovering required = .ok r) {bs : List Agent}
    (ht : Registers s bs t) : t.agentCovering required = .ok r ∧ t.get r = s.get r := by
  obtain ⟨ys, hys, hroster⟩ := ht.extends h
  obtain ⟨i, hi, ⟨a, ha, hcovers⟩, hbefore⟩ := h.first.1 hr
  have hlt : i < xs.length := (List.getElem?_eq_some_iff.1 ha).1
  have hleft : ∀ j < xs.length, (xs ++ ys)[j]? = xs[j]? := fun j => List.getElem?_append_left
  have hti : t.roster[i]? = some r := by
    obtain ⟨rest, hrest⟩ := hroster
    rw [← hrest, List.getElem?_append_left (List.getElem?_eq_some_iff.1 hi).1, hi]
  refine ⟨hys.first.2 ⟨i, hti, ⟨a, (hleft i hlt).trans ha, hcovers⟩, fun j hj b hb => ?_⟩, ?_⟩
  · exact hbefore j hj b ((hleft j (hj.trans hlt)).symm.trans hb)
  · have hs : xs[i]? = some (s.get r) := by rw [← h.agents, List.getElem?_map, hi]; rfl
    have hu : (xs ++ ys)[i]? = some (t.get r) := by rw [← hys.agents, List.getElem?_map, hti]; rfl
    exact Option.some.inj (hu.symm.trans ((hleft i hlt).trans hs))

/-- What requires less is met, and no later. -/
theorem Enrolled.less (h : Enrolled s xs) {i : Nat} (hr : s.agentCovering required = .ok r)
    (hi : s.roster[i]? = some r) {fewer : List String} (hsub : ∀ c ∈ fewer, c ∈ required) :
    ∃ r' j, s.agentCovering fewer = .ok r' ∧ s.roster[j]? = some r' ∧ j ≤ i := by
  have hmem : r ∈ s.roster := List.mem_of_getElem? hi
  have hhandles : (s.get r).canHandle required = true :=
    List.find?_some (p := fun a : Ref .agent => (s.get a).canHandle required) (agentCovering_ok_iff.1 hr)
  have hcovers : (s.get r).Covers fewer := fun c hc => canHandle_iff.1 hhandles c (hsub c hc)
  cases hx : s.agentCovering fewer with
  | error c => exact absurd hcovers ((agentCovering_error_iff.1 hx).2 r hmem)
  | ok r' =>
    obtain ⟨j, hj, -, hbefore⟩ := h.first.1 hx
    refine ⟨r', j, rfl, hj, Nat.le_of_not_lt fun hlt => hbefore i hlt _ ?_ hcovers⟩
    rw [← h.agents, List.getElem?_map, hi]
    rfl

theorem Enrolled.chooses (h : Enrolled s xs) (required : List String) : Chooses s xs required where
  first _ := h.first
  lacks _ := h.lacks
  same required' hsame := by
    rw [toOption_agentCovering, toOption_agentCovering]
    congr 1
    funext a
    rw [Bool.eq_iff_iff, canHandle_iff, canHandle_iff]
    exact forall_congr' fun c => imp_congr_left (hsame c)
  stays _ hr _ _ ht := h.stays hr ht
  less _ _ hr hi _ hsub := h.less hr hi hsub

/-- A capability that is not the general one is covered by the agents that declare it. -/
theorem agentCovering_single (s : Store) {c : String} (hc : c ≠ general) :
    (s.agentCovering [c]).toOption = (s.agentsDeclaring c).head? := by
  rw [toOption_agentCovering, Store.agentsDeclaring, List.head?_filter]
  congr 1
  funext a
  rw [Bool.eq_iff_iff, canHandle_iff, List.contains_iff_mem]
  simp [Covers, hc]

/-- **The first agent that covers a requirement is chosen.** Begin with nothing registered. After any
history of registrations the registry holds the agents whose names were new, in their order, and a further
registration adds one at the end, or fails and changes nothing if the name is taken.

For every requirement it gives the first of its agents that has all of it in its capability set, and fails
if there is none. The answer depends only on what is required, and further registrations do not change it.
What requires less is met by an agent that was registered no later. A single capability other than the
general one is met by the first of the agents that declare it, and by none exactly if there is no such
agent. -/
theorem chosen_first {as : List Agent} (h : Registers s as t) (h₀ : s.agentRegistry = []) :
    Enrolled t (admitted as) ∧
    (∀ a, ∃ i o u, (register a).eval t = some (i, o, u) ∧ Admits t (admitted as) a o u) ∧
    (∀ required, Chooses t (admitted as) required) ∧
    ∀ c, c ≠ general → (t.agentCovering [c]).toOption = (t.agentsDeclaring c).head? :=
  have ht := h.enrolled h₀
  ⟨ht, ht.admits, ht.chooses, fun _ hc => agentCovering_single t hc⟩

end Choices

/-! ## A crew of three -/

/-- An agent that declares nothing, one that reads, one of a name that is taken, and one that reads and
writes. -/
def crew : List Agent :=
  [⟨"helper", ⟨0⟩, [], .null⟩, ⟨"reader", ⟨0⟩, ["read"], .null⟩, ⟨"helper", ⟨0⟩, ["read"], .null⟩,
    ⟨"clerk", ⟨0⟩, ["read", "write"], .null⟩]

theorem chosen_first_crew : ∃ t, Registers Store.empty crew t ∧ Store.empty.agentRegistry = [] ∧
    (admitted crew).map name = ["helper", "reader", "clerk"] ∧
    (∀ required, Chooses t (admitted crew) required) ∧
    t.agentCovering ["read"] = .ok ⟨1⟩ ∧ t.agentCovering ["write", "read"] = .ok ⟨2⟩ ∧
    t.agentCovering ["general"] = .ok ⟨0⟩ ∧
    t.agentCovering ["read", "general"] = .error (.uncovered ["read", "general"]) := by
  have h₁ := (Registers.refl Store.empty).call (a := crew[0]) (eval_register_fresh rfl)
  have h₂ := h₁.call (a := crew[1]) (eval_register_fresh rfl)
  have h₃ := h₂.call (a := crew[2]) (eval_register_taken rfl)
  have h₄ := h₃.call (a := crew[3]) (eval_register_fresh rfl)
  exact ⟨_, h₄, rfl, rfl, (chosen_first h₄ rfl).2.2.1, rfl, rfl, rfl, rfl⟩

end Agent

end Conductor
