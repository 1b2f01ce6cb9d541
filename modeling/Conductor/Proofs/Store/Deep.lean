import Conductor.Store.Basic
import Mathlib

/-!
# Deep values

Lists, tuples, dictionaries and step results are containers: cells of the store that hold other
values. What a value looks like is the tree that one gets by reading all containers in it; other
objects count as themselves. A value that holds itself has no finite tree, so trees are cut at a
depth, and two stores show the same value if they do so at every depth.

A value reaches the containers that are read for its tree. If a store differs from another one in
the content of a single container, then exactly those values look different that reach it, and these
only if the container itself looks different.

**Theorem (`unfold_eq_iff`).** Where a single container changes, a value looks the same if and only
if it does not reach that container or the container looks the same.
-/

namespace Conductor

/-! ## Containers -/

/-- A cell that holds other values. -/
inductive Container where
  | sequence (r : Ref .sequence)
  | dict (r : Ref .dict)
  | results (r : Ref .results)
  deriving DecidableEq

/-- The sorts of values that are read from containers. -/
inductive Shape where
  | list
  | tuple
  | dict
  | results
  deriving DecidableEq, Repr

/-- What a value looks like. The items of a row have no keys. -/
inductive Tree where
  | leaf (v : Value)
  | node (shape : Shape) (entries : List (String × Tree))

instance : Inhabited Tree := ⟨.leaf .null⟩

/-- The container that a value stands for, and how it is read. -/
def Value.container? : Value → Option (Shape × Container)
  | .list r => some (.list, .sequence r)
  | .tuple r => some (.tuple, .sequence r)
  | .dict r => some (.dict, .dict r)
  | .results r => some (.results, .results r)
  | _ => none

namespace Store

/-- Whether a container is there. -/
def Has (s : Store) : Container → Prop
  | .sequence r => r.index < s.sequences.size
  | .dict r => r.index < s.dicts.size
  | .results r => r.index < s.results.size

instance (s : Store) (c : Container) : Decidable (s.Has c) := by
  cases c <;> exact Nat.decLt _ _

/-- What a container holds. -/
def content (s : Store) : Container → Entries Value
  | .sequence r => (s.get r).map fun v => ("", v)
  | .dict r => s.get r
  | .results r => s.get r

/-- What a value looks like down to a depth. A container that is not there counts as itself. -/
def unfold (s : Store) : Nat → Value → Tree
  | 0, _ => .leaf .null
  | n + 1, v =>
    match v.container? with
    | none => .leaf v
    | some (shape, c) =>
      if s.Has c then .node shape ((s.content c).map fun e => (e.1, s.unfold n e.2)) else .leaf v

/-- What a container looks like down to a depth. -/
def look (s : Store) (n : Nat) (c : Container) : List (String × Tree) :=
  (s.content c).map fun e => (e.1, s.unfold n e.2)

theorem unfold_leaf {s : Store} {v : Value} (h : v.container? = none) (n : Nat) :
    s.unfold (n + 1) v = .leaf v := by
  rw [unfold, h]

theorem unfold_node {s : Store} {v : Value} {shape : Shape} {c : Container}
    (h : v.container? = some (shape, c)) (hc : s.Has c) (n : Nat) :
    s.unfold (n + 1) v = .node shape (s.look n c) := by
  rw [unfold, h]
  exact if_pos hc

theorem unfold_lost {s : Store} {v : Value} {shape : Shape} {c : Container}
    (h : v.container? = some (shape, c)) (hc : ¬ s.Has c) (n : Nat) :
    s.unfold (n + 1) v = .leaf v := by
  rw [unfold, h]
  exact if_neg hc

/-! ## Reaching containers -/

/-- The containers that are read for the tree of a value. -/
inductive Reaches (s : Store) : Value → Container → Prop where
  | here {v : Value} {shape : Shape} {c : Container} (h : v.container? = some (shape, c)) :
    Reaches s v c
  | through {v : Value} {shape : Shape} {d c : Container} {e : String × Value}
    (h : v.container? = some (shape, d)) (he : e ∈ s.content d) (hr : Reaches s e.2 c) :
    Reaches s v c

/-- All containers that a value reaches are there. -/
def Grounds (s : Store) (v : Value) : Prop := ∀ c, s.Reaches v c → s.Has c

theorem Grounds.item {s : Store} {v : Value} (h : s.Grounds v) {shape : Shape} {c : Container}
    (hv : v.container? = some (shape, c)) {e : String × Value} (he : e ∈ s.content c) :
    s.Grounds e.2 := fun d hd => h d (.through hv he hd)

/-- Whether all containers that a value reaches are there, for a value of bounded depth. -/
def isGround (s : Store) : Nat → Value → Bool
  | 0, _ => false
  | n + 1, v =>
    match v.container? with
    | none => true
    | some (_, c) => decide (s.Has c) && (s.content c).all fun e => s.isGround n e.2

theorem grounds_of_isGround {s : Store} : ∀ {n : Nat} {v : Value}, s.isGround n v = true →
    s.Grounds v
  | n + 1, v, h, c, hr => by
    unfold isGround at h
    cases hr with
    | here hc =>
      rw [hc] at h
      exact of_decide_eq_true (Bool.and_eq_true_iff.1 h).1
    | through hd he hr =>
      rw [hd] at h
      exact grounds_of_isGround (List.all_eq_true.1 (Bool.and_eq_true_iff.1 h).2 _ he) c hr

variable {s t : Store} {c : Container} {v : Value}

/-- A value that looks like one whose containers are all there has all of its own there. -/
theorem Reaches.has (hr : t.Reaches v c) : ∀ {w : Value}, s.Grounds w →
    (∀ n, t.unfold n v = s.unfold n w) → t.Has c := by
  -- Where the value has a container that is there, so has the other, with the same items.
  have hnode : ∀ {v w : Value} {shape : Shape} {d : Container}, v.container? = some (shape, d) →
      s.Grounds w → (∀ n, t.unfold n v = s.unfold n w) → t.Has d ∧ ∃ shape' d',
        w.container? = some (shape', d') ∧ ∀ n, t.look n d = s.look n d' := by
    intro v w shape d hd hw h
    cases hw' : w.container? with
    | none =>
      have h₁ := h 1
      rw [unfold_leaf hw'] at h₁
      by_cases ht : t.Has d
      · rw [unfold_node hd ht] at h₁
        cases h₁
      · rw [unfold_lost hd ht] at h₁
        cases h₁
        rw [hd] at hw'
        cases hw'
    | some p =>
      obtain ⟨shape', d'⟩ := p
      have hs : s.Has d' := hw d' (.here hw')
      by_cases ht : t.Has d
      · refine ⟨ht, shape', d', rfl, fun n => ?_⟩
        have hn := h (n + 1)
        rw [unfold_node hd ht, unfold_node hw' hs] at hn
        injection hn
      · have h₁ := h 1
        rw [unfold_lost hd ht, unfold_node hw' hs] at h₁
        cases h₁
  induction hr with
  | here hc => exact fun hw h => (hnode hc hw h).1
  | @through v shape d c e hd he hr ih =>
    intro w hw h
    obtain ⟨-, shape', d', hd', hlook⟩ := hnode hd hw h
    obtain ⟨i, hi, rfl⟩ := List.mem_iff_getElem.1 he
    have hlen : (t.content d).length = (s.content d').length := by
      have := congrArg List.length (hlook 0)
      simpa [look] using this
    have hi' : i < (s.content d').length := hlen ▸ hi
    refine ih (hw.item hd' (List.getElem_mem hi')) fun n => ?_
    have hn := congrArg (fun xs => xs[i]?) (hlook n)
    simp only [look, List.getElem?_map, List.getElem?_eq_getElem hi, List.getElem?_eq_getElem hi',
      Option.map_some, Option.some.injEq, Prod.mk.injEq] at hn
    exact hn.2

/-- A value keeps all its containers as long as it looks the same. -/
theorem Grounds.of_unfold (hv : s.Grounds v) (h : ∀ n, t.unfold n v = s.unfold n v) : t.Grounds v :=
  fun _ hr => hr.has hv h

/-- A value looks the same if every container that it reaches is still there, and holds the same or
at least looks the same. -/
theorem unfold_eq_of_look (hv : ∀ d, s.Reaches v d → s.Has d ∧ t.Has d ∧
    (t.content d = s.content d ∨ ∀ n, t.look n d = s.look n d)) (n : Nat) :
    t.unfold n v = s.unfold n v := by
  induction n generalizing v with
  | zero => rfl
  | succ n ih =>
    cases h : v.container? with
    | none => rw [unfold_leaf h, unfold_leaf h]
    | some p =>
      obtain ⟨shape, d⟩ := p
      obtain ⟨hs, ht, hd⟩ := hv d (.here h)
      rw [unfold_node h hs, unfold_node h ht]
      congr 1
      rcases hd with hd | hd
      · rw [look, look, hd]
        refine List.map_congr_left fun e he => ?_
        rw [ih fun d' hr => hv d' (.through h he hr)]
      · exact hd n

/-- A container that a value reaches looks the same if the value does and no other container has
changed. -/
theorem look_eq_of_unfold (hhas : ∀ d, s.Has d → t.Has d)
    (hs : ∀ d, s.Has d → d ≠ c → t.content d = s.content d) (hv : s.Grounds v)
    (hr : s.Reaches v c) (h : ∀ n, t.unfold n v = s.unfold n v) (n : Nat) :
    t.look n c = s.look n c := by
  have hnode : ∀ {v : Value} {shape : Shape} {d : Container}, v.container? = some (shape, d) →
      s.Has d → (∀ n, t.unfold n v = s.unfold n v) → ∀ n, t.look n d = s.look n d := by
    intro v shape d hv hd h n
    have := h (n + 1)
    rw [unfold_node hv hd, unfold_node hv (hhas d hd)] at this
    injection this
  induction hr with
  | here hc => exact hnode hc (hv _ (.here hc)) h n
  | @through v shape d c e hd he hr ih =>
    have hlook := hnode hd (hv d (.here hd)) h
    by_cases hdc : d = c
    · subst hdc
      exact hlook n
    · refine ih hs (hv.item hd he) fun k => ?_
      have hk := hlook k
      rw [look, look, hs d (hv d (.here hd)) hdc] at hk
      have := List.map_inj_left.1 hk e he
      exact congrArg Prod.snd this

/-- **Where a single container changes**, a value looks the same if and only if it does not reach
that container or the container looks the same. -/
theorem unfold_eq_iff (hhas : ∀ d, s.Has d → t.Has d)
    (hs : ∀ d, s.Has d → d ≠ c → t.content d = s.content d) (hv : s.Grounds v) :
    (∀ n, t.unfold n v = s.unfold n v) ↔ (s.Reaches v c → ∀ n, t.look n c = s.look n c) := by
  refine ⟨fun h hr => look_eq_of_unfold hhas hs hv hr h, fun h => unfold_eq_of_look fun d hr => ?_⟩
  refine ⟨hv d hr, hhas d (hv d hr), ?_⟩
  by_cases hd : d = c
  · exact Or.inr (hd ▸ h (hd ▸ hr))
  · exact Or.inl (hs d (hv d hr) hd)

end Store

end Conductor
