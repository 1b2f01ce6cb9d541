import Conductor.Proofs.Workflow.Drafting

/-!
# Drafts from changes

A draft is what the changes that were made to it leave (`Draft.recalled`): its steps are the ones that
were declared, in this order, each with the successor that was set for it last, and its entrypoint is the
last one that was given, else the first step of the first row that was linked.

One more change is refused for one of a few reasons, or the draft is recalled with it
(`Draft.changed_recalled`). So the workflow that is built is a function of the changes
(`Draft.assembled`).
-/

namespace Conductor

namespace Draft

/-! ## What changes say -/

namespace Change

/-- The step that a change declares. -/
@[simp] def declared? : Change → Option Step
  | .declare s => some s
  | _ => none

/-- The entrypoint that a change sets. -/
@[simp] def entered? : Change → Option String
  | .entry id => some id
  | _ => none

/-- The first of the steps that a change links in a row. -/
@[simp] def first? : Change → Option String
  | .sequence ids => ids.head?
  | _ => none

/-- Each step of a row with the next one as its successor. -/
def row (ids : List String) : List (String × Successor) :=
  (ids.zip ids.tail).map fun (a, b) => (a, .one b)

/-- The successors that a change sets, one after another. -/
@[simp] def links : Change → List (String × Successor)
  | .follow id next => [(id, next)]
  | .sequence ids => row ids
  | _ => []

/-- The description that a change sets. -/
@[simp] def described? : Change → Option Value
  | .describe v => some v
  | _ => none

/-- The input schema that a change sets. -/
@[simp] def input? : Change → Option Value
  | .input v => some v
  | _ => none

/-- The output schema that a change sets. -/
@[simp] def output? : Change → Option Value
  | .output v => some v
  | _ => none

/-- The tags that a change adds. -/
@[simp] def tags : Change → List String
  | .tag tags => tags
  | _ => []

/-- The hook for completed runs that a change adds. -/
@[simp] def completed? : Change → Option (Ref .callable)
  | .onCompleted c => some c
  | _ => none

/-- The hook for failed runs that a change adds. -/
@[simp] def failed? : Change → Option (Ref .callable)
  | .onError c => some c
  | _ => none

/-- Why a change is refused, given the workflow's id and the ids of the steps that are declared. -/
def refused (workflow : String) (declared : List String) : Change → Option Cause
  | .declare s => if s.id ∈ declared then some (.repeatedStep s.id workflow) else none
  | .follow id _ => if id ∈ declared then none else some (.unknownStep id workflow)
  | .sequence ids => (ids.find? (· ∉ declared)).map (.unknownStep · workflow)
  | .build => if declared = [] then some (.noSteps workflow) else none
  | _ => none

/-- The ids in a change that stand for steps are not empty. -/
structure Named (c : Change) : Prop where
  declared : ∀ s ∈ c.declared?, s.id ≠ ""
  entered : ∀ id ∈ c.entered?, id ≠ ""

end Change

/-! ## Drafts from changes -/

/-- The steps that changes declare, in order. -/
def declared (cs : List Change) : List Step := cs.filterMap Change.declared?

/-- The ids of the steps that changes declare. -/
def ids (cs : List Change) : List String := (declared cs).map Step.id

/-- Steps, each with the successor that was set for it last. -/
def linked (steps : List Step) (links : List (String × Successor)) : Entries Step :=
  steps.map fun s => (s.id, s.withNext ((links.reverse.lookup s.id).getD s.next))

/-- The entrypoint that changes set: the last one that was given, else the first step of the first row. -/
def opening? (cs : List Change) : Option String :=
  (cs.filterMap Change.entered?).getLast?.or (cs.filterMap Change.first?).head?

/-- The draft that changes leave. -/
def recalled (id name : String) (cs : List Change) : Draft where
  id := id
  name := name
  steps := linked (declared cs) (cs.flatMap Change.links)
  entrypoint := opening? cs
  description := (cs.filterMap Change.described?).getLast?.getD .null
  inputSchema := (cs.filterMap Change.input?).getLast?.getD .null
  outputSchema := (cs.filterMap Change.output?).getLast?.getD .null
  tags := cs.flatMap Change.tags
  onCompleted := cs.filterMap Change.completed?
  onError := cs.filterMap Change.failed?

/-- The workflow that is built after changes. It starts at the entrypoint that they set, else at the first
step that they declare. -/
def assembled (id name : String) (cs : List Change) : Workflow where
  id := id
  name := name
  steps := linked (declared cs) (cs.flatMap Change.links)
  entrypoint := ((opening? cs).or (ids cs).head?).getD ""
  description := (recalled id name cs).description
  inputSchema := (recalled id name cs).inputSchema
  outputSchema := (recalled id name cs).outputSchema
  tags := (recalled id name cs).tags
  onCompleted := (recalled id name cs).onCompleted
  onError := (recalled id name cs).onError

/-- The workflow that a change gives after others. -/
def Change.given (id name : String) (cs : List Change) : Change → Option Workflow
  | .build => some (assembled id name cs)
  | _ => none

/-- Changes that can be made one after another: no step is declared twice, and only declared steps are
linked. -/
structure Coherent (cs : List Change) : Prop where
  once : (ids cs).Nodup
  links : ∀ l ∈ cs.flatMap Change.links, l.1 ∈ ids cs
  firsts : ∀ id ∈ cs.filterMap Change.first?, id ∈ ids cs
  named : ∀ id ∈ ids cs, id ≠ ""
  entered : ∀ id ∈ cs.filterMap Change.entered?, id ≠ ""

theorem coherent_nil : Coherent [] :=
  ⟨List.nodup_nil, fun _ h => absurd h List.not_mem_nil, fun _ h => absurd h List.not_mem_nil,
    fun _ h => absurd h List.not_mem_nil, fun _ h => absurd h List.not_mem_nil⟩

section Append

variable {α : Type}

theorem filterMap_concat (f : Change → Option α) (cs : List Change) (c : Change) :
    (cs ++ [c]).filterMap f = cs.filterMap f ++ (f c).toList := by
  rw [List.filterMap_append]
  cases h : f c <;> simp [h]

theorem getLast?_concat (xs : List α) (o : Option α) :
    (xs ++ o.toList).getLast? = o.or xs.getLast? := by
  cases o <;> simp

theorem head?_concat (xs : List α) (o : Option α) : (xs ++ o.toList).head? = xs.head?.or o := by
  cases o <;> cases xs <;> rfl

theorem getLastD_concat (xs : List α) (o : Option α) (a : α) :
    (xs ++ o.toList).getLast?.getD a = o.getD (xs.getLast?.getD a) := by
  cases o <;> simp

end Append

variable {cs : List Change} {c : Change} {d : Draft} {steps : List Step} {s : Step}
  {ls : List (String × Successor)} {workflow name id : String} {next : Successor}

theorem ids_append (cs : List Change) (c : Change) :
    ids (cs ++ [c]) = ids cs ++ (c.declared?.map Step.id).toList := by
  unfold ids declared
  rw [filterMap_concat, List.map_append]
  cases c.declared? <;> rfl

section Refused

variable {known : List String}

theorem not_mem_of_declared (hr : c.refused workflow known = none) (hs : s ∈ c.declared?) :
    s.id ∉ known := by
  cases c with
  | declare s' =>
    obtain rfl := Option.some.inj hs
    intro hid
    rw [Change.refused, if_pos hid] at hr
    cases hr
  | _ => exact absurd hs (Option.not_mem_none s)

theorem mem_of_sequence {row : List String} (hr : (Change.sequence row).refused workflow known = none) :
    ∀ id ∈ row, id ∈ known := fun id hid => by
  simpa using List.find?_eq_none.1 (Option.map_eq_none_iff.1 hr) id hid

theorem mem_of_links (hr : c.refused workflow known = none) : ∀ l ∈ c.links, l.1 ∈ known := by
  intro l hl
  cases c with
  | follow id next =>
    rw [List.mem_singleton.1 hl]
    by_contra hid
    rw [Change.refused, if_neg hid] at hr
    cases hr
  | sequence row =>
    obtain ⟨⟨a, b⟩, hab, rfl⟩ := List.mem_map.1 hl
    exact mem_of_sequence hr a (List.of_mem_zip hab).1
  | _ => exact absurd hl List.not_mem_nil

theorem mem_of_first (hr : c.refused workflow known = none) (hid : id ∈ c.first?) : id ∈ known := by
  cases c with
  | sequence row => exact mem_of_sequence hr id (List.mem_of_mem_head? hid)
  | _ => exact absurd hid (Option.not_mem_none id)

end Refused

/-- **Changes stay coherent** as long as none is refused. -/
theorem Coherent.append (h : Coherent cs) (hc : c.Named) (hr : c.refused workflow (ids cs) = none) :
    Coherent (cs ++ [c]) where
  once := by
    rw [ids_append]
    cases hs : c.declared? with
    | none => exact (List.append_nil (ids cs)).symm ▸ h.once
    | some s =>
      refine List.nodup_append.2 ⟨h.once, List.nodup_singleton _, fun id hid id' hid' heq => ?_⟩
      rw [heq, List.mem_singleton.1 hid'] at hid
      exact not_mem_of_declared hr hs hid
  links l hl := by
    rw [List.flatMap_append, List.flatMap_singleton] at hl
    rw [ids_append]
    exact List.mem_append_left _ ((List.mem_append.1 hl).elim (h.links l) (mem_of_links hr l))
  firsts id hid := by
    rw [filterMap_concat] at hid
    rw [ids_append]
    exact List.mem_append_left _ ((List.mem_append.1 hid).elim (h.firsts id) fun hid =>
      mem_of_first hr (Option.mem_toList.1 hid))
  named id hid := by
    rw [ids_append] at hid
    rcases List.mem_append.1 hid with hid | hid
    · exact h.named id hid
    · obtain ⟨s, hs, rfl⟩ := Option.map_eq_some_iff.1 (Option.mem_toList.1 hid)
      exact hc.declared s hs
  entered id hid := by
    rw [filterMap_concat] at hid
    exact (List.mem_append.1 hid).elim (h.entered id) fun hid => hc.entered id (Option.mem_toList.1 hid)

theorem Coherent.entry_ne (h : Coherent cs) (he : opening? cs = some id) : id ≠ "" := by
  rcases Option.or_eq_some_iff.1 he with he | ⟨-, he⟩
  · exact h.entered id (List.mem_of_getLast? he)
  · exact h.named id (h.firsts id (List.mem_of_mem_head? he))

/-! ## Linked steps -/

theorem keys_linked (steps : List Step) (ls : List (String × Successor)) :
    Entries.keys (linked steps ls) = steps.map Step.id := by
  unfold Entries.keys linked
  rw [List.map_map]
  rfl

theorem lookup_reverse_append (ls : List (String × Successor)) (id id' : String) (next : Successor) :
    (ls ++ [(id, next)]).reverse.lookup id' =
      if id' = id then some next else ls.reverse.lookup id' := by
  rw [List.reverse_append, List.reverse_singleton, List.singleton_append, List.lookup_cons]
  by_cases h : id' = id
  · rw [if_pos h, h, beq_self_eq_true]
  · rw [if_neg h, beq_eq_false_iff_ne.2 h]

/-- A link to a step that is not there changes nothing. -/
theorem linked_append_of_not_mem (h : id ∉ steps.map Step.id) :
    linked steps (ls ++ [(id, next)]) = linked steps ls := by
  refine List.map_congr_left fun s hs => ?_
  have hne : s.id ≠ id := fun heq => h (heq ▸ List.mem_map_of_mem hs)
  rw [lookup_reverse_append, if_neg hne]

/-- A new step keeps the successor that it was declared with. -/
theorem insert_linked (h : s.id ∉ steps.map Step.id) (hl : ∀ l ∈ ls, l.1 ∈ steps.map Step.id) :
    Entries.insert (linked steps ls) s.id s = linked (steps ++ [s]) ls := by
  have hlookup : ls.reverse.lookup s.id = none := List.lookup_eq_none_iff.2 fun l hmem => by
    have hne : s.id ≠ l.1 := fun heq => h (heq ▸ hl l (List.mem_reverse.1 hmem))
    simpa using hne
  rw [Entries.insert_eq_append (by rwa [keys_linked])]
  unfold linked
  rw [List.map_append, List.map_singleton, hlookup]
  rfl

/-- A step that is there gets another successor. -/
theorem relink (hn : (steps.map Step.id).Nodup)
    (h : Entries.get? (linked steps ls) id = some s) :
    Entries.insert (linked steps ls) id (s.withNext next) = linked steps (ls ++ [(id, next)]) := by
  induction steps with
  | nil => cases h
  | cons s' steps ih =>
    obtain ⟨hnew, hn⟩ := List.nodup_cons.1 hn
    have hcons : ∀ ls, linked (s' :: steps) ls =
        (s'.id, s'.withNext ((ls.reverse.lookup s'.id).getD s'.next)) :: linked steps ls := fun _ => rfl
    rw [hcons] at h ⊢
    rw [hcons, Entries.insert, lookup_reverse_append]
    by_cases hid : s'.id = id
    · rw [Entries.get?, if_pos hid] at h
      cases h
      rw [if_pos hid, if_pos hid, linked_append_of_not_mem (hid ▸ hnew)]
      rfl
    · rw [Entries.get?, if_neg hid] at h
      rw [if_neg hid, if_neg hid, ih hn h]

theorem exists_get?_linked (ls : List (String × Successor)) (h : id ∈ steps.map Step.id) :
    ∃ s, Entries.get? (linked steps ls) id = some s :=
  Option.isSome_iff_exists.1 (Entries.has_iff.2 (by rwa [keys_linked]))

theorem follow_linked (hd : d.steps = linked steps ls) (hn : (steps.map Step.id).Nodup)
    (h : id ∈ steps.map Step.id) :
    d.follow id next = .ok { d with steps := linked steps (ls ++ [(id, next)]) } := by
  obtain ⟨s, hs⟩ := exists_get?_linked ls h
  unfold follow step
  rw [hd, hs]
  show Except.ok { d with steps := Entries.insert (linked steps ls) id (s.withNext next) } = _
  rw [relink hn hs]

theorem link_linked (hn : (steps.map Step.id).Nodup) :
    ∀ {ids : List String} {d : Draft} {ls : List (String × Successor)}, d.steps = linked steps ls →
      (∀ id ∈ ids, id ∈ steps.map Step.id) →
      d.link ids = .ok { d with steps := linked steps (ls ++ Change.row ids) }
  | [], d, ls, hd, _ => by
    show Except.ok d = _
    rw [show Change.row [] = [] from rfl, List.append_nil, ← hd]
  | [a], d, ls, hd, _ => by
    show Except.ok d = _
    rw [show Change.row [a] = [] from rfl, List.append_nil, ← hd]
  | a :: b :: rest, d, ls, hd, h => by
    rw [link, follow_linked hd hn (h a List.mem_cons_self)]
    refine (link_linked hn rfl fun id hid => h id (List.mem_cons_of_mem a hid)).trans ?_
    rw [List.append_assoc]
    rfl

theorem step_error (h : id ∉ Entries.keys d.steps) : d.step id = .error (.unknownStep id d.id) := by
  unfold step
  cases hs : Entries.get? d.steps id with
  | none => rfl
  | some s => exact absurd (Entries.has_iff.1 (by rw [Entries.has, hs]; rfl)) h

theorem exists_step (h : id ∈ Entries.keys d.steps) : ∃ s, d.step id = .ok s := by
  obtain ⟨s, hs⟩ := Option.isSome_iff_exists.1 (Entries.has_iff.2 h)
  exact ⟨s, by rw [step, hs]⟩

/-- Steps are asked for in order, and the first one that is missing is complained about. -/
theorem forM_step (d : Draft) (ids : List String) :
    (ids.forM fun id => (d.step id).map fun _ => ()) =
      match ids.find? (· ∉ Entries.keys d.steps) with
      | some id => .error (.unknownStep id d.id)
      | none => .ok () := by
  induction ids with
  | nil => rfl
  | cons id ids ih =>
    have hcons : (id :: ids).forM (fun id => (d.step id).map fun _ => ()) =
        ((d.step id).map fun _ => ()) >>= fun _ => ids.forM fun id => (d.step id).map fun _ => () := rfl
    rw [hcons, List.find?_cons]
    by_cases hid : id ∈ Entries.keys d.steps
    · obtain ⟨s, hs⟩ := exists_step hid
      rw [show decide (id ∉ Entries.keys d.steps) = false from decide_eq_false (not_not.2 hid), hs]
      exact ih
    · rw [show decide (id ∉ Entries.keys d.steps) = true from decide_eq_true hid, step_error hid]
      rfl

/-! ## One more change -/

theorem opening?_concat (cs : List Change) (c : Change) :
    opening? (cs ++ [c]) = c.entered?.or ((opening? cs).or c.first?) := by
  unfold opening?
  rw [filterMap_concat, filterMap_concat, getLast?_concat, head?_concat, Option.or_assoc, Option.or_assoc]

/-- What one more change adds to a draft. -/
theorem recalled_concat (id name : String) (cs : List Change) (c : Change) :
    recalled id name (cs ++ [c]) =
      { id, name
        steps := linked (declared cs ++ c.declared?.toList) (cs.flatMap Change.links ++ c.links)
        entrypoint := c.entered?.or ((opening? cs).or c.first?)
        description := c.described?.getD (recalled id name cs).description
        inputSchema := c.input?.getD (recalled id name cs).inputSchema
        outputSchema := c.output?.getD (recalled id name cs).outputSchema
        tags := (recalled id name cs).tags ++ c.tags
        onCompleted := (recalled id name cs).onCompleted ++ c.completed?.toList
        onError := (recalled id name cs).onError ++ c.failed?.toList } := by
  unfold recalled declared
  rw [filterMap_concat, opening?_concat]
  simp only [filterMap_concat, getLastD_concat, List.flatMap_append, List.flatMap_singleton]

/-- A draft with steps is built, and starts where its changes say. -/
theorem build_recalled (h : Coherent cs) :
    (recalled workflow name cs).build =
      if ids cs = [] then .error (.noSteps workflow) else .ok (assembled workflow name cs) := by
  have hkeys : Entries.keys (recalled workflow name cs).steps = ids cs := keys_linked ..
  unfold build
  split
  · next hsteps =>
    rw [if_pos (by rw [← hkeys, hsteps]; rfl)]
    rfl
  · next first s rest hsteps =>
    have hids : ids cs = first :: Entries.keys rest := by
      rw [← hkeys, hsteps]
      rfl
    have hentry : (recalled workflow name cs).chosenEntry first =
        ((opening? cs).or (ids cs).head?).getD "" := by
      unfold chosenEntry
      show (match opening? cs with | some id => _ | none => first) = _
      rw [hids]
      cases he : opening? cs with
      | none => rfl
      | some e => exact if_neg fun hempty => h.entry_ne he (String.isEmpty_iff.1 hempty)
    rw [if_neg (by rw [hids]; exact List.cons_ne_nil _ _), hentry]
    rfl

/-- **One more change** is refused, or the draft is recalled with it. -/
theorem changed_recalled (h : Coherent cs) (c : Change) :
    (recalled workflow name cs).changed c =
      match c.refused workflow (ids cs) with
      | some cause => .error cause
      | none => .ok (c.given workflow name cs, recalled workflow name (cs ++ [c])) := by
  have hsteps : (recalled workflow name cs).steps =
      linked (declared cs) (cs.flatMap Change.links) := rfl
  have hkeys : Entries.keys (recalled workflow name cs).steps = ids cs := keys_linked ..
  rw [recalled_concat]
  cases c with
  | declare s =>
    rw [Change.refused, changed, add]
    by_cases hid : s.id ∈ ids cs
    · rw [if_pos (Entries.has_iff.2 (hkeys.symm ▸ hid)), if_pos hid]
      rfl
    · rw [if_neg (fun hhas => hid (hkeys ▸ Entries.has_iff.1 hhas)), if_neg hid]
      have hinsert := insert_linked hid h.links
      simp [recalled, hinsert, Except.map, Change.given]
  | follow id next =>
    rw [Change.refused, changed]
    by_cases hid : id ∈ ids cs
    · rw [if_pos hid, follow_linked hsteps h.once hid]
      simp [recalled, Except.map, Change.given]
    · have hstep : (recalled workflow name cs).step id = .error (.unknownStep id workflow) :=
        step_error (hkeys ▸ hid)
      rw [if_neg hid, follow, hstep]
      rfl
  | sequence ids' =>
    cases ids' with
    | nil => simp [changed, recalled, sequence, Change.refused, Change.given, Except.map, Change.row]
    | cons first rest =>
      rw [Change.refused, changed, sequence, forM_step, hkeys]
      cases hfind : (first :: rest).find? (· ∉ ids cs) with
      | some id => rfl
      | none =>
        have hall : ∀ id ∈ first :: rest, id ∈ ids cs := fun id hid => by
          simpa using List.find?_eq_none.1 hfind id hid
        show Except.map _ ((recalled workflow name cs).link (first :: rest) >>= _) = _
        rw [link_linked h.once hsteps hall]
        simp [recalled, Except.map, Change.given, bind, Except.bind]
  | build =>
    rw [Change.refused, changed, build_recalled h]
    by_cases hids : ids cs = []
    · rw [if_pos hids, if_pos hids]
      rfl
    · rw [if_neg hids, if_neg hids]
      simp [recalled, Except.map, Change.given]
  | _ => simp [changed, recalled, entry, Change.refused, Change.given]

end Draft

end Conductor
