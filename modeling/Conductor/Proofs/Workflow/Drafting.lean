import Conductor.Proofs.Store.Merging
import Conductor.Workflow.Builder

/-!
# Work on drafts in place

A builder changes its draft in place, so a failure might leave it half changed. It does not: a change
either does to the draft what the function of the same name says, or fails and leaves it as it was
(`perform_eq`). Linking steps in a row writes several times, but only after all of them have been found.
-/

namespace Conductor

namespace Draft

/-- What a change makes of a draft, and the workflow that it gives. -/
def changed (d : Draft) : Change → Except Cause (Option Workflow × Draft)
  | .declare s => (d.add s).map fun d => (none, d)
  | .follow id next => (d.follow id next).map fun d => (none, d)
  | .sequence ids => (d.sequence ids).map fun d => (none, d)
  | .entry id => .ok (none, d.entry id)
  | .describe v => .ok (none, { d with description := v })
  | .input v => .ok (none, { d with inputSchema := v })
  | .output v => .ok (none, { d with outputSchema := v })
  | .tag tags => .ok (none, { d with tags := d.tags ++ tags })
  | .onCompleted c => .ok (none, { d with onCompleted := d.onCompleted ++ [c] })
  | .onError c => .ok (none, { d with onError := d.onError ++ [c] })
  | .build => d.build.map fun w => (some w, d)

/-- A result, with the draft that it leaves; a failure leaves the draft as it was. -/
def left {α : Type} (d : Draft) : Except Cause (α × Draft) → EStateM.Result Cause Draft α
  | .ok (a, d') => .ok a d'
  | .error c => .error c d

namespace Work

theorem bind_run {α β : Type} (x : Work α) (f : α → Work β) (d : Draft) :
    (x >>= f).run d = match x.run d with
      | .ok a d => (f a).run d
      | .error c d => .error c d := by
  show EStateM.bind x f d = _
  unfold EStateM.bind EStateM.run
  cases x d <;> rfl

/-- What is read of a draft is read of the draft as it is. -/
theorem get_bind_run {β : Type} (f : Draft → Work β) (d : Draft) : (get >>= f).run d = (f d).run d := rfl

theorem add_run (s : Step) (d : Draft) :
    (add s).run d = d.left ((d.add s).map fun d => ((), d)) := by
  unfold add Draft.add
  rw [get_bind_run]
  split <;> rfl

theorem require_run (id : String) (d : Draft) :
    (require id).run d = d.left ((d.step id).map fun s => (s, d)) := by
  unfold require Draft.step
  rw [get_bind_run]
  cases Entries.get? d.steps id <;> rfl

theorem follow_run (id : String) (next : Successor) (d : Draft) :
    (follow id next).run d = d.left ((d.follow id next).map fun d => ((), d)) := by
  unfold follow Draft.follow
  rw [bind_run, require_run]
  cases d.step id <;> rfl

/-- Asking for all steps of a list. -/
theorem requireAll_run (ids : List String) (d : Draft) :
    (requireAll ids).run d =
      d.left ((ids.forM fun id => (d.step id).map fun _ => ()).map fun _ => ((), d)) := by
  induction ids with
  | nil => rfl
  | cons id ids ih =>
    have hcons : (id :: ids).forM (fun id => (d.step id).map fun _ => ()) =
        ((d.step id).map fun _ => ()) >>= fun _ => ids.forM fun id => (d.step id).map fun _ => () := rfl
    rw [requireAll, bind_run, require_run, hcons]
    cases d.step id with
    | error c => rfl
    | ok s => exact ih

/-- A row of declared steps can be linked. -/
theorem link_run {ids : List String} {d : Draft} (h : ∀ id ∈ ids, Entries.has d.steps id = true) :
    ∃ d', d.link ids = .ok d' ∧ (link ids).run d = .ok () d' := by
  induction ids generalizing d with
  | nil => exact ⟨d, rfl, rfl⟩
  | cons a rest ih =>
    cases rest with
    | nil => exact ⟨d, rfl, rfl⟩
    | cons b rest =>
      obtain ⟨s, hs⟩ := Option.isSome_iff_exists.1 (h a List.mem_cons_self)
      have hstep : d.step a = .ok s := by
        unfold Draft.step
        rw [hs]
      have hfollow : d.follow a (.one b) =
          .ok { d with steps := Entries.insert d.steps a (s.withNext (.one b)) } := by
        unfold Draft.follow
        rw [hstep]
        rfl
      obtain ⟨d', hlink, hrun⟩ := ih
        (d := { d with steps := Entries.insert d.steps a (s.withNext (.one b)) })
        fun id hid => Entries.has_insert (h id (List.mem_cons_of_mem a hid))
      refine ⟨d', ?_, ?_⟩
      · rw [Draft.link, hfollow]
        exact hlink
      · rw [link, bind_run, follow_run, hfollow]
        exact hrun

theorem has_of_requireAll {ids : List String} {d : Draft}
    (h : (ids.forM fun id => (d.step id).map fun _ => ()) = .ok ()) :
    ∀ id ∈ ids, Entries.has d.steps id = true := by
  induction ids with
  | nil => exact fun id hid => absurd hid List.not_mem_nil
  | cons a rest ih =>
    have hcons : (a :: rest).forM (fun id => (d.step id).map fun _ => ()) =
        ((d.step a).map fun _ => ()) >>= fun _ => rest.forM fun id => (d.step id).map fun _ => () := rfl
    rw [hcons] at h
    cases hs : d.step a with
    | error c =>
      rw [hs] at h
      cases h
    | ok s =>
      rw [hs] at h
      refine List.forall_mem_cons.2 ⟨?_, ih h⟩
      unfold Draft.step at hs
      unfold Entries.has
      cases hget : Entries.get? d.steps a with
      | none =>
        rw [hget] at hs
        cases hs
      | some s => rfl

theorem sequence_run (ids : List String) (d : Draft) :
    (sequence ids).run d = d.left ((d.sequence ids).map fun d => ((), d)) := by
  cases ids with
  | nil => rfl
  | cons first rest =>
    rw [sequence, bind_run, requireAll_run, Draft.sequence]
    cases hall : (first :: rest).forM fun id => (d.step id).map fun _ => () with
    | error c => rfl
    | ok u =>
      obtain ⟨d', hlink, hrun⟩ := link_run (has_of_requireAll hall)
      show EStateM.run (link (first :: rest) >>= _) d = d.left (Except.map _ (d.link (first :: rest) >>= _))
      rw [bind_run, hlink, hrun]
      rfl

theorem build_run (d : Draft) : build.run d = d.left (d.build.map fun w => (w, d)) := by
  unfold build Draft.build
  rw [get_bind_run]
  cases d.steps <;> rfl

/-- **A change in place** is made as a whole or not at all. -/
theorem perform_eq (d : Draft) (c : Change) : (perform c).run d = d.left (d.changed c) := by
  cases c with
  | declare s =>
    rw [perform, bind_run, add_run, changed]
    cases d.add s <;> rfl
  | follow id next =>
    rw [perform, bind_run, follow_run, changed]
    cases d.follow id next <;> rfl
  | sequence ids =>
    rw [perform, bind_run, sequence_run, changed]
    cases d.sequence ids <;> rfl
  | build =>
    rw [perform, bind_run, build_run, changed]
    cases d.build <;> rfl
  | _ => rfl

end Work

end Draft

end Conductor
