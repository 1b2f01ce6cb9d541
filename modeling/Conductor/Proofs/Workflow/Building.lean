import Conductor.Proofs.Store.Writing
import Conductor.Proofs.Workflow.Recalling

/-!
# Histories of builders

A builder is called again and again, some calls fail, and between the calls the lists and dictionaries
that were handed to it are written into. What it answers depends only on the changes that the calls before
have made (`Builder.changes`).

**Theorem (`Builder.histories`).** Calls that fail may as well not have been made; what has been built stays
as it is; and every answer is the one that the changes before it give.
-/

namespace Conductor

/-- The items that a step maps over, if they are given directly. -/
def Step.literal? (s : Step) : Option Value :=
  match s.kind with
  | .map items _ _ =>
    match items with
    | .literal v => some v
    | .source _ => none
  | _ => none

namespace Draft

/-! ## Items given directly -/

/-- The items that steps map over, as far as they are given directly. -/
def literals (steps : List Step) : List Value := steps.filterMap Step.literal?

theorem literals_linked (steps : List Step) (ls : List (String × Successor)) :
    literals (Entries.values (linked steps ls)) = literals steps := by
  unfold literals Entries.values linked
  rw [List.map_map, List.filterMap_map]
  rfl

theorem literals_concat (cs : List Change) (c : Change) :
    literals (declared (cs ++ [c])) = literals (declared cs) ++ literals c.declared?.toList := by
  unfold literals declared
  rw [filterMap_concat, List.filterMap_append]

end Draft

namespace Builder

open Draft (Coherent literals declared recalled assembled ids)

/-! ## Histories -/

/-- A builder before any call. -/
def start (s : Store) (id : String) (name : Option String) : Builder := ⟨s, .start id name, []⟩

/-- What happens to a builder and its arguments: a call, or a write into a list or a dictionary that may have
been handed over. -/
inductive Move where
  | call (c : Call)
  | rewrite (r : Ref .sequence) (xs : List Value)
  | amend (r : Ref .dict) (es : Entries Value)

/-- The ids that a call gives to steps are not empty, and neither are entrypoints. -/
def Call.Named : Call → Prop
  | .task id .. | .parallel id .. | .condition id .. | .map id .. | .retry id .. | .entry id => id ≠ ""
  | _ => True

/-- A move within what the history starts with: its ids are not empty, and the list that it writes into is
one that was there. -/
def Move.Within (s : Store) : Move → Prop
  | .call c => c.Named
  | .rewrite r _ => r.index < s.sequences.size
  | .amend .. => True

/-- The answer to a move, and the builder afterwards. -/
def move (b : Builder) : Move → Except Cause (Option Workflow) × Builder
  | .call c => b.respond c
  | .rewrite r xs => (.ok none, { b with store := b.store.put r xs })
  | .amend r es => (.ok none, { b with store := b.store.put r es })

/-- The answers to moves one after another. -/
def answers (b : Builder) : List Move → List (Except Cause (Option Workflow))
  | [] => []
  | m :: ms => (b.move m).1 :: (b.move m).2.answers ms

/-- The builder after moves one after another. -/
def after (b : Builder) : List Move → Builder
  | [] => b
  | m :: ms => (b.move m).2.after ms

/-- The moves that do not fail. -/
def kept (b : Builder) : List Move → List Move
  | [] => []
  | m :: ms => if (b.move m).1.isOk then m :: (b.move m).2.kept ms else (b.move m).2.kept ms

/-- The change that a move makes to the draft, unless it fails. -/
def change? (b : Builder) : Move → Option Draft.Change
  | .call c => if (b.respond c).1.isOk then (c.resolve b.store).toOption.map Prod.fst else none
  | .rewrite .. | .amend .. => none

/-- The changes that moves make one after another. -/
def changes (b : Builder) : List Move → List Draft.Change
  | [] => []
  | m :: ms => (b.change? m).toList ++ (b.move m).2.changes ms

/-- The answer to a call after some changes, given what is in its arguments. -/
def Call.answer (c : Call) (id name : String) (cs : List Draft.Change) (s : Store) :
    Except Cause (Option Workflow) :=
  match c.barred id (ids cs) with
  | some cause => .error cause
  | none =>
    match c.resolve s with
    | .error cause => .error cause
    | .ok (change, _) =>
      match change.refused id (ids cs) with
      | some cause => .error cause
      | none => .ok (change.given id name cs)

/-- The items that were given directly, in the steps of the draft and of what has been built. -/
def frozen (b : Builder) : List Value :=
  literals (Entries.values b.draft.steps) ++ b.built.flatMap fun w => literals (Entries.values w.steps)

/-- What has been built by one time is there at another one, and items that were given directly are the
same. -/
structure Lasts (b b' : Builder) : Prop where
  built : b.built <+: b'.built
  frozen : b.frozen ⊆ b'.frozen
  items : ∀ v ∈ b.frozen, b'.store.elements v = b.store.elements v

/-- What is true of a history of a builder. -/
structure Faithful (b : Builder) (ms : List Move) : Prop where
  /-- Moves that fail may as well not have been made. -/
  answers : b.answers (b.kept ms) = (b.answers ms).filter Except.isOk
  after : b.after (b.kept ms) = b.after ms
  built : (b.after ms).built = (b.answers ms).filterMap fun a => a.toOption.join
  /-- What has been built stays as it is, whatever is called or written later. -/
  lasts : ∀ ms₁ ms₂, ms = ms₁ ++ ms₂ → (b.after ms₁).Lasts (b.after ms)
  /-- A call writes into nothing that was there. -/
  spares : ∀ ms₁ c ms₂, ms = ms₁ ++ .call c :: ms₂ →
    (b.after ms₁).store.Keeps ∅ ((b.after ms₁).respond c).2.store
  /-- Every answer is the one that the changes before it give. -/
  answer : ∀ ms₁ c ms₂, ms = ms₁ ++ .call c :: ms₂ →
    ((b.after ms₁).respond c).1 = c.answer b.draft.id b.draft.name (b.changes ms₁) (b.after ms₁).store

variable {b b' b'' : Builder} {s s' : Store} {c : Call} {m : Move} {ms : List Move} {id name : String}
  {cs : List Draft.Change} {change : Draft.Change} {cause : Cause}

/-- A call is made as a whole or not at all. -/
theorem respond_eq (b : Builder) (c : Call) : b.respond c =
    match c.barred b.draft.id (Entries.keys b.draft.steps) with
    | some cause => (.error cause, b)
    | none =>
      match c.resolve b.store with
      | .error cause => (.error cause, b)
      | .ok (change, s) =>
        match b.draft.changed change with
        | .error cause => (.error cause, b)
        | .ok (w, d) => (.ok w, ⟨s, d, b.built ++ w.toList⟩) := by
  unfold respond
  cases c.barred b.draft.id (Entries.keys b.draft.steps) with
  | some cause => rfl
  | none =>
    cases c.resolve b.store with
    | error cause => rfl
    | ok x =>
      obtain ⟨change, s⟩ := x
      dsimp only
      rw [Draft.Work.perform_eq]
      cases b.draft.changed change <;> rfl

/-- **The cases of a call**: it fails and the builder stays as it is, or it makes a change. -/
theorem respond_cases (hd : b.draft = recalled id name cs) (h : Coherent cs) (c : Call) :
    (∃ cause, c.answer id name cs b.store = .error cause ∧ b.respond c = (.error cause, b)) ∨
    ∃ change s, c.resolve b.store = .ok (change, s) ∧ change.refused id (ids cs) = none ∧
      c.answer id name cs b.store = .ok (change.given id name cs) ∧
      b.respond c = (.ok (change.given id name cs),
        ⟨s, recalled id name (cs ++ [change]), b.built ++ (change.given id name cs).toList⟩) := by
  have hkeys : Entries.keys b.draft.steps = ids cs := hd ▸ Draft.keys_linked ..
  have hid : b.draft.id = id := hd ▸ rfl
  rw [respond_eq, hkeys, hid, Call.answer]
  cases c.barred id (ids cs) with
  | some cause => exact .inl ⟨cause, rfl, rfl⟩
  | none =>
    cases c.resolve b.store with
    | error cause => exact .inl ⟨cause, rfl, rfl⟩
    | ok x =>
      obtain ⟨change, s⟩ := x
      dsimp only
      rw [hd, Draft.changed_recalled h]
      cases hr : change.refused id (ids cs) with
      | some cause => exact .inl ⟨cause, rfl, rfl⟩
      | none => exact .inr ⟨change, s, rfl, hr, rfl, rfl⟩

/-- A call that fails changes nothing. -/
theorem respond_error (h : (b.respond c).1.isOk = false) : (b.respond c).2 = b := by
  revert h
  rw [respond_eq]
  cases c.barred b.draft.id (Entries.keys b.draft.steps) with
  | some cause => exact fun _ => rfl
  | none =>
    cases c.resolve b.store with
    | error cause => exact fun _ => rfl
    | ok x =>
      dsimp only
      cases b.draft.changed x.1 with
      | error cause => exact fun _ => rfl
      | ok y => nofun

theorem move_error (h : (b.move m).1.isOk = false) : (b.move m).2 = b := by
  cases m with
  | call c => exact respond_error h
  | rewrite r xs => cases h
  | amend r es => cases h

/-- Nothing is different without the moves that fail. -/
theorem answers_kept : ∀ (ms : List Move) (b : Builder),
    b.answers (b.kept ms) = (b.answers ms).filter Except.isOk
  | [], _ => rfl
  | m :: ms, b => by
    rw [kept, answers, List.filter_cons]
    cases hok : (b.move m).1.isOk with
    | true =>
      rw [if_pos rfl, if_pos rfl, answers, answers_kept ms]
    | false =>
      rw [if_neg Bool.false_ne_true, if_neg Bool.false_ne_true, move_error hok]
      exact answers_kept ms b

theorem after_kept : ∀ (ms : List Move) (b : Builder), b.after (b.kept ms) = b.after ms
  | [], _ => rfl
  | m :: ms, b => by
    rw [kept, after]
    cases hok : (b.move m).1.isOk with
    | true =>
      rw [if_pos rfl, after, after_kept ms]
    | false =>
      rw [if_neg Bool.false_ne_true, move_error hok]
      exact after_kept ms b

theorem built_move (b : Builder) (m : Move) :
    (b.move m).2.built = b.built ++ (b.move m).1.toOption.join.toList := by
  cases m with
  | call c =>
    rw [move, respond_eq]
    cases c.barred b.draft.id (Entries.keys b.draft.steps) with
    | some cause => exact (List.append_nil _).symm
    | none =>
      cases c.resolve b.store with
      | error cause => exact (List.append_nil _).symm
      | ok x =>
        dsimp only
        cases b.draft.changed x.1 with
        | error cause => exact (List.append_nil _).symm
        | ok y => rfl
  | rewrite r xs => exact (List.append_nil _).symm
  | amend r es => exact (List.append_nil _).symm

/-- What has been built is what the answers are. -/
theorem built_after : ∀ (ms : List Move) (b : Builder),
    (b.after ms).built = b.built ++ (b.answers ms).filterMap fun a => a.toOption.join
  | [], b => (List.append_nil _).symm
  | m :: ms, b => by
    rw [after, answers, built_after ms, built_move, List.append_assoc, List.filterMap_cons]
    cases (b.move m).1.toOption.join <;> rfl

theorem after_append : ∀ (ms ms' : List Move) (b : Builder), b.after (ms ++ ms') = (b.after ms).after ms'
  | [], _, _ => rfl
  | _ :: ms, ms', _ => after_append ms ms' _

/-! ## What a call reads -/

theorem exists_of_bind {α β : Type} {x : Except Cause α} {f : α → Except Cause β} {y : β}
    (h : x >>= f = .ok y) : ∃ a, x = .ok a ∧ f a = .ok y := by
  cases x with
  | error cause => cases h
  | ok a => exact ⟨a, rfl, h⟩

theorem named_declare {step : Step} (h : step.id ≠ "") : (Draft.Change.declare step).Named :=
  ⟨fun _ hs => Option.some.inj hs ▸ h, nofun⟩

theorem named_entry (h : id ≠ "") : (Draft.Change.entry id).Named :=
  ⟨nofun, fun _ hid => Option.some.inj hid ▸ h⟩

theorem named_of (hs : change.declared? = none) (hid : change.entered? = none) : change.Named :=
  ⟨fun s h => absurd (hs ▸ h) (Option.not_mem_none s),
    fun id h => absurd (hid ▸ h) (Option.not_mem_none id)⟩

/-- A call gives to its step the id that it was called with. It adds one row to the store at most, which is
the one that holds the items of its step. -/
theorem resolve_inv (h : c.resolve s = .ok (change, s')) :
    (c.Named → change.Named) ∧ ((s' = s ∧ literals change.declared?.toList = []) ∨
      ∃ vs, s' = (s.newTuple vs).2 ∧ literals change.declared?.toList = [(s.newTuple vs).1]) := by
  cases c with
  | task id name inputs outputs guard retries delay next =>
    obtain ⟨_, -, h⟩ := exists_of_bind h
    obtain ⟨_, -, h⟩ := exists_of_bind h
    obtain ⟨_, -, h⟩ := exists_of_bind h
    cases h
    exact ⟨fun hid => named_declare hid, .inl ⟨rfl, rfl⟩⟩
  | parallel id branches waitForAll next =>
    obtain ⟨_, -, h⟩ := exists_of_bind h
    obtain ⟨_, -, h⟩ := exists_of_bind h
    cases h
    exact ⟨fun hid => named_declare hid, .inl ⟨rfl, rfl⟩⟩
  | condition id predicate trueNext falseNext =>
    cases h
    exact ⟨fun hid => named_declare hid, .inl ⟨rfl, rfl⟩⟩
  | map id items iterator concurrency next =>
    obtain ⟨⟨items', t⟩, hitems, h⟩ := exists_of_bind h
    obtain ⟨_, -, h⟩ := exists_of_bind h
    cases h
    refine ⟨fun hid => named_declare hid, ?_⟩
    unfold Store.items at hitems
    split at hitems
    · cases hitems
      exact .inl ⟨rfl, rfl⟩
    · cases hvs : s.elements items with
      | error cause =>
        rw [hvs] at hitems
        cases hitems
      | ok vs =>
        rw [hvs] at hitems
        cases hitems
        exact .inr ⟨vs, rfl, rfl⟩
  | retry id r next =>
    obtain ⟨_, -, h⟩ := exists_of_bind h
    cases h
    exact ⟨fun hid => named_declare hid, .inl ⟨rfl, rfl⟩⟩
  | follow id next =>
    obtain ⟨_, -, h⟩ := exists_of_bind h
    cases h
    exact ⟨fun _ => named_of rfl rfl, .inl ⟨rfl, rfl⟩⟩
  | sequence ids =>
    obtain ⟨_, -, h⟩ := exists_of_bind h
    cases h
    exact ⟨fun _ => named_of rfl rfl, .inl ⟨rfl, rfl⟩⟩
  | entry id =>
    cases h
    exact ⟨fun hid => named_entry hid, .inl ⟨rfl, rfl⟩⟩
  | _ =>
    cases h
    exact ⟨fun _ => named_of rfl rfl, .inl ⟨rfl, rfl⟩⟩

theorem keeps_respond (b : Builder) (c : Call) : b.store.Keeps ∅ (b.respond c).2.store := by
  rw [respond_eq]
  cases c.barred b.draft.id (Entries.keys b.draft.steps) with
  | some cause => exact .refl ∅ _
  | none =>
    cases hs : c.resolve b.store with
    | error cause => exact .refl ∅ _
    | ok x =>
      dsimp only
      cases b.draft.changed x.1 with
      | error cause => exact .refl ∅ _
      | ok y =>
        obtain ⟨-, ⟨heq, -⟩ | ⟨vs, heq, -⟩⟩ := resolve_inv hs
        · exact heq ▸ .refl ∅ _
        · exact heq ▸ Store.keeps_newList b.store vs

/-! ## What a history keeps -/

/-- A builder after some changes. Items that were given directly are in rows of their own, which were not
there when the history started. -/
structure Holds (s₀ : Store) (id name : String) (cs : List Draft.Change) (b : Builder) : Prop where
  draft : b.draft = recalled id name cs
  coherent : Coherent cs
  size : s₀.sequences.size ≤ b.store.sequences.size
  rows : ∀ v ∈ b.frozen, ∃ r, v = .tuple r ∧ s₀.sequences.size ≤ r.index ∧
    r.index < b.store.sequences.size

theorem Lasts.refl (b : Builder) : b.Lasts b :=
  ⟨List.prefix_rfl, List.Subset.refl _, fun _ _ => rfl⟩

theorem Lasts.trans (h : b.Lasts b') (h' : b'.Lasts b'') : b.Lasts b'' where
  built := h.built.trans h'.built
  frozen _ hv := h'.frozen (h.frozen hv)
  items v hv := (h'.items v (h.frozen hv)).trans (h.items v hv)

variable {s₀ : Store}

theorem holds_start (s : Store) (id : String) (name : Option String) :
    Holds s id (Draft.start id name).name [] (start s id name) where
  draft := rfl
  coherent := Draft.coherent_nil
  size := le_rfl
  rows _ hv := absurd hv List.not_mem_nil

/-- What has been built lasts as long as the rows that the history has added stay the same. -/
theorem Holds.lasts (h : Holds s₀ id name cs b) (hb : b.built <+: b'.built) (hf : b.frozen ⊆ b'.frozen)
    (hrows : ∀ r : Ref .sequence, s₀.sequences.size ≤ r.index → r.index < b.store.sequences.size →
      b'.store.get r = b.store.get r) : b.Lasts b' where
  built := hb
  frozen := hf
  items v hv := by
    obtain ⟨r, rfl, hlo, hhi⟩ := h.rows v hv
    show Except.ok (b'.store.get r) = Except.ok (b.store.get r)
    rw [hrows r hlo hhi]

/-- The builder after one more change. -/
def make (b : Builder) (id name : String) (cs : List Draft.Change) (change : Draft.Change) (s : Store) :
    Builder :=
  ⟨s, recalled id name (cs ++ [change]), b.built ++ (change.given id name cs).toList⟩

/-- A change freezes the items of the step that it declares. A workflow that it gives has no others than the
draft. -/
theorem mem_frozen_make {v : Value} (hd : b.draft = recalled id name cs) :
    v ∈ (b.make id name cs change s).frozen ↔
      v ∈ b.frozen ∨ v ∈ literals change.declared?.toList := by
  have hgiven : ∀ w ∈ (change.given id name cs).toList,
      literals (Entries.values w.steps) = literals (declared cs) := by
    intro w hw
    cases change with
    | build =>
      rw [List.mem_singleton.1 hw]
      exact Draft.literals_linked ..
    | _ => exact absurd hw List.not_mem_nil
  have hdraft : ∀ cs, literals (Entries.values (recalled id name cs).steps) = literals (declared cs) :=
    fun _ => Draft.literals_linked ..
  unfold frozen make
  rw [hd, hdraft, hdraft, Draft.literals_concat, List.flatMap_append]
  simp only [List.mem_append, List.mem_flatMap]
  constructor
  · rintro ((hv | hv) | (hv | ⟨w, hw, hv⟩))
    · exact .inl (.inl hv)
    · exact .inr hv
    · exact .inl (.inr hv)
    · exact .inl (.inl (hgiven w hw ▸ hv))
  · rintro ((hv | hv) | hv)
    · exact .inl (.inl hv)
    · exact .inr (.inl hv)
    · exact .inl (.inr hv)

theorem Holds.make (h : Holds s₀ id name cs b) (hc : change.Named)
    (hr : change.refused id (ids cs) = none) (hsize : b.store.sequences.size ≤ s.sequences.size)
    (hrows : ∀ v ∈ literals change.declared?.toList, ∃ r, v = .tuple r ∧
      s₀.sequences.size ≤ r.index ∧ r.index < s.sequences.size) :
    Holds s₀ id name (cs ++ [change]) (b.make id name cs change s) where
  draft := rfl
  coherent := h.coherent.append hc hr
  size := h.size.trans hsize
  rows v hv := by
    rcases (mem_frozen_make h.draft).1 hv with hv | hv
    · obtain ⟨r, hv, hlo, hhi⟩ := h.rows v hv
      exact ⟨r, hv, hlo, hhi.trans_le hsize⟩
    · exact hrows v hv

theorem Holds.lasts_make (h : Holds s₀ id name cs b)
    (hrows : ∀ r : Ref .sequence, r.index < b.store.sequences.size → s.get r = b.store.get r) :
    b.Lasts (b.make id name cs change s) :=
  h.lasts (List.prefix_append ..) (fun _ hv => (mem_frozen_make h.draft).2 (.inl hv)) fun r _ => hrows r

theorem Holds.write (h : Holds s₀ id name cs b)
    (hsize : s.sequences.size = b.store.sequences.size) :
    Holds s₀ id name cs { b with store := s } where
  draft := h.draft
  coherent := h.coherent
  size := h.size.trans hsize.ge
  rows v hv := by
    obtain ⟨r, hv, hlo, hhi⟩ := h.rows v hv
    exact ⟨r, hv, hlo, hhi.trans_le hsize.ge⟩

/-- **One move** makes its change, and leaves alone what has been built. -/
theorem Holds.move (h : Holds s₀ id name cs b) (hm : m.Within s₀) :
    Holds s₀ id name (cs ++ (b.change? m).toList) (b.move m).2 ∧ b.Lasts (b.move m).2 := by
  cases m with
  | call c =>
    rcases respond_cases h.draft h.coherent c with ⟨cause, -, hb⟩ | ⟨change, s, hs, hr, -, hb⟩
    · have hchange : b.change? (.call c) = none := by
        rw [change?, hb]
        rfl
      rw [hchange, Builder.move, hb]
      exact ⟨(List.append_nil cs).symm ▸ h, .refl b⟩
    · have hchange : b.change? (.call c) = some change := by
        rw [change?, hb, hs]
        rfl
      rw [hchange, Builder.move, hb]
      obtain ⟨hnamed, ⟨rfl, hnone⟩ | ⟨vs, rfl, hrow⟩⟩ := resolve_inv hs
      · exact ⟨h.make (hnamed hm) hr le_rfl (hnone.symm ▸ fun v hv => absurd hv List.not_mem_nil),
          h.lasts_make fun _ _ => rfl⟩
      · have hsize : (b.store.newTuple vs).2.sequences.size = b.store.sequences.size + 1 :=
          Array.size_push _
        refine ⟨h.make (hnamed hm) hr (hsize ▸ Nat.le_succ _) fun v hv => ?_,
          h.lasts_make fun r hhi => Store.getD_push_of_lt hhi⟩
        rw [hrow] at hv
        exact ⟨_, List.mem_singleton.1 hv, h.size, hsize ▸ Nat.lt_succ_self _⟩
  | rewrite r xs =>
    rw [change?, Option.toList_none, List.append_nil]
    refine ⟨h.write Array.size_setIfInBounds,
      h.lasts List.prefix_rfl (List.Subset.refl _) fun r' hlo _ => ?_⟩
    exact Store.getD_setIfInBounds_of_ne (hm.trans_le hlo).ne'
  | amend r es =>
    rw [change?, Option.toList_none, List.append_nil]
    exact ⟨h.write rfl, h.lasts List.prefix_rfl (List.Subset.refl _) fun _ _ _ => rfl⟩

/-- **A history** makes the changes of its moves, and leaves alone what has been built. -/
theorem Holds.after (h : Holds s₀ id name cs b) (hms : ∀ m ∈ ms, m.Within s₀) :
    Holds s₀ id name (cs ++ b.changes ms) (b.after ms) ∧ b.Lasts (b.after ms) := by
  induction ms generalizing b cs with
  | nil => exact ⟨(List.append_nil cs).symm ▸ h, .refl b⟩
  | cons m ms ih =>
    obtain ⟨hm, hms⟩ := List.forall_mem_cons.1 hms
    obtain ⟨hmove, hlasts⟩ := h.move hm
    obtain ⟨hafter, hlasts'⟩ := ih hmove hms
    exact ⟨List.append_assoc .. ▸ hafter, hlasts.trans hlasts'⟩

/-- **Histories of builders.** -/
theorem histories (s : Store) (id : String) (name : Option String) (ms : List Move)
    (hms : ∀ m ∈ ms, m.Within s) : (start s id name).Faithful ms where
  answers := answers_kept ms _
  after := after_kept ms _
  built := built_after ms _
  spares ms₁ c ms₂ _ := keeps_respond _ c
  lasts ms₁ ms₂ hsplit := by
    subst hsplit
    obtain ⟨hms₁, hms₂⟩ := List.forall_mem_append.1 hms
    rw [after_append]
    exact (((holds_start s id name).after hms₁).1.after hms₂).2
  answer ms₁ c ms₂ hsplit := by
    subst hsplit
    obtain ⟨hms₁, -⟩ := List.forall_mem_append.1 hms
    have h := ((holds_start s id name).after hms₁).1
    rw [List.nil_append] at h
    rcases respond_cases h.draft h.coherent c with ⟨cause, hanswer, hb⟩ | ⟨_, _, -, -, hanswer, hb⟩
    · rw [hb]
      exact hanswer.symm
    · rw [hb]
      exact hanswer.symm

/-- Two lists that are handed over: items, and ids in a row. -/
def handed : Store where
  __ := Store.empty
  sequences := #[[.text "x"], [.text "m", .text "a"]]

/-- A history with calls that fail, and with items that are taken away after they were handed over. -/
def interleaved : List Move :=
  [.call (.task "a" "work" .null .null none 0 (.int 0) .null),
    .call (.map "m" (.list ⟨0⟩) "a" none .null),
    .call (.task "a" "work" .null .null none 0 (.int 0) .null),
    .call (.sequence (.list ⟨1⟩)), .call .build, .rewrite ⟨0⟩ [], .call (.follow "b" .null),
    .call (.retry "r" ⟨"a", -1, none, none, none⟩ .null), .call .build]

/-- In `interleaved` the same workflow is built twice, between calls that fail. -/
theorem histories_interleaved : (∀ m ∈ interleaved, m.Within handed) ∧
    (start handed "w" none).Faithful interleaved ∧
    ((start handed "w" none).answers interleaved).map Except.isOk =
      [true, true, false, true, true, true, false, false, true] ∧
    ((start handed "w" none).after interleaved).built.map Workflow.entrypoint = ["m", "m"] := by
  have hwithin : ∀ m ∈ interleaved, m.Within handed := by
    simp [interleaved, Move.Within, Call.Named, handed]
  exact ⟨hwithin, histories handed "w" none interleaved hwithin, by decide +kernel, by decide +kernel⟩

end Builder

end Conductor
