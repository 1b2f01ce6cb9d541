import Conductor.Proofs.Schedule.Progress

/-!
# Schedules settle

If every branch can only make finitely many moves by its own discipline, and never waits for branches
that were left behind, then a schedule can only make finitely many steps, however many branches there
are and whoever has the turn. A move takes a branch to a later stage and puts finitely many new
branches beside it, each of them at a stage below the one that the branch has left; between two moves
only finitely many jobs are done.

A schedule that has come to its end has no open branch: the last of them would wait in a join for
branches that began after it.

**Theorem (`Config.settles`).** Every branch ends, and at its end it has established what it was to
establish. Every discipline can be restricted to branches that can only make finitely many moves, and
then `Config.settles_bounded` says so.
-/

namespace Conductor

namespace Schedule

namespace Discipline

open Relation

variable {Γ : Type} {D : Discipline Γ} {γ : Nat → Γ} {st st' : Nat → Stage Γ} {m m' : Schedule}
  {b : Nat} {γ' : Nat → Γ}

/-! ## The open branches -/

/-- The branches that have not ended. -/
def openers (m : Schedule) : Finset Nat :=
  (Finset.range m.branches.size).filter fun b => m.isOpen b = true

theorem mem_openers : b ∈ openers m ↔ b < m.branches.size ∧ m.isOpen b = true := by
  simp [openers]

/-- The stages of the branches that have not ended, apart from some bystanders. -/
def lines (st : Nat → Stage Γ) (m : Schedule) (X : Finset Nat) : Multiset (Stage Γ) :=
  (openers m \ X).val.map st

/-- A branch that moves is replaced by later stages. -/
theorem Moved.cutExpand {R : Stage Γ → Stage Γ → Prop} (h : D.Moved γ' st st' m m' b)
    {X : Finset Nat} (hX : b ∉ X) (hR : ∀ x, D.Next x (st b) → R x (st b)) :
    CutExpand R (lines st' m' X) (lines st m X) := by
  have hb : b ∈ openers m \ X := Finset.mem_sdiff.2 ⟨mem_openers.2 ⟨h.begun, h.isOpen⟩, hX⟩
  set rest := (openers m \ X).erase b with hrest
  have hmem : ∀ {d}, d ∈ rest → d ≠ b ∧ d < m.branches.size ∧ m.isOpen d = true ∧ d ∉ X := by
    intro d hd
    obtain ⟨hne, hd⟩ := Finset.mem_erase.1 hd
    obtain ⟨hd, hdX⟩ := Finset.mem_sdiff.1 hd
    obtain ⟨hlt, ho⟩ := mem_openers.1 hd
    exact ⟨hne, hlt, ho, hdX⟩
  have hsub : rest ⊆ openers m' \ X := by
    intro d hd
    obtain ⟨hne, hlt, ho, hdX⟩ := hmem hd
    obtain ⟨hlt', ho', -⟩ := h.others d hlt ho hne
    exact Finset.mem_sdiff.2 ⟨mem_openers.2 ⟨hlt', ho'⟩, hdX⟩
  have hold : rest.val.map st' = rest.val.map st := by
    refine Multiset.map_congr rfl fun d hd => ?_
    rw [Finset.mem_val] at hd
    obtain ⟨hne, hlt, ho, -⟩ := hmem hd
    exact (h.others d hlt ho hne).2.2
  have hfrom : lines st m X = st b ::ₘ rest.val.map st := by
    have : (openers m \ X).val = b ::ₘ rest.val := by
      rw [hrest, Finset.erase_val, Multiset.cons_erase hb]
    rw [lines, this, Multiset.map_cons]
  have hto : lines st' m' X = ((openers m' \ X) \ rest).val.map st' + rest.val.map st := by
    rw [lines, ← hold, ← Multiset.map_add, Finset.sdiff_val (openers m' \ X),
      tsub_add_cancel_of_le (Finset.val_le_iff.2 hsub)]
  refine ⟨((openers m' \ X) \ rest).val.map st', st b, fun x hx => ?_, ?_⟩
  · obtain ⟨d, hd, rfl⟩ := Multiset.mem_map.1 hx
    rw [Finset.mem_val] at hd
    obtain ⟨hd, hnot⟩ := Finset.mem_sdiff.1 hd
    obtain ⟨hd, hdX⟩ := Finset.mem_sdiff.1 hd
    obtain ⟨hlt, ho⟩ := mem_openers.1 hd
    by_cases hne : d = b
    · subst hne
      exact hR _ (.go (h.own ho))
    · rcases h.lower hlt ho with ⟨hlt', ho'⟩ | hnext
      · refine absurd (Finset.mem_erase.2 ⟨hne, Finset.mem_sdiff.2 ⟨?_, hdX⟩⟩) hnot
        exact mem_openers.2 ⟨hlt', ho'⟩
      · exact hR _ hnext
  · rw [hfrom, hto, add_assoc, ← Multiset.singleton_add, add_comm (Multiset.map st rest.val),
      add_comm]

/-- Where branches neither move nor end, their stages stay as they are. -/
theorem lines_congr {X : Finset Nat} (hn : m'.branches.size = m.branches.size)
    (ho : ∀ d < m.branches.size, d ∉ X → m'.isOpen d = m.isOpen d)
    (hst : ∀ d < m.branches.size, d ∉ X → m.isOpen d = true → st' d = st d) :
    lines st' m' X = lines st m X := by
  have hopen : openers m' \ X = openers m \ X := by
    ext d
    simp only [Finset.mem_sdiff, mem_openers, hn]
    refine and_congr_left fun hd => and_congr_right fun hlt => ?_
    rw [ho d hlt hd]
  rw [lines, lines, hopen]
  refine Multiset.map_congr rfl fun d hd => ?_
  rw [Finset.mem_val] at hd
  obtain ⟨hd, hdX⟩ := Finset.mem_sdiff.1 hd
  exact hst d (mem_openers.1 hd).1 hdX (mem_openers.1 hd).2

/-! ## No deadlock -/

theorem timers_of_jump (h : m.jump = none) : m.timers = [] := by
  unfold Schedule.jump at h
  split at h
  · next he =>
    cases ht : m.timers with
    | nil => rfl
    | cons t ts =>
      rw [ht] at he
      unfold earliest at he
      split at he <;> cases he
  · cases h

/-- An open branch of a schedule that has nothing to do waits in a join for one that is open, too. -/
theorem exists_open_of_stuck (hB : Balanced none m) (ha : m.active = none) (hr : m.ready = [])
    (ht : m.timers = []) (hb : b < m.branches.size) (ho : m.isOpen b = true) :
    ∃ j < m.joins.size, (m.join j).settled = false ∧ (m.join j).owner = b ∧
      ∃ e ∈ (m.join j).branches, e < m.branches.size ∧ m.isOpen e = true := by
  have hp := hB.prospects b
  rw [if_neg nofun, if_pos ⟨hb, ho⟩, Schedule.prospects, Schedule.turn, ha, hr, ht] at hp
  simp only [List.countP_nil] at hp
  obtain ⟨j, hj⟩ := Finset.card_pos.1 (show 0 < (m.waitsIn b).card by omega)
  obtain ⟨hjs, hs, howner⟩ := mem_waitsIn.1 hj
  refine ⟨j, hjs, hs, howner, ?_⟩
  have howed : 0 < m.owed (isCountFor j) := by
    have hc := hB.counted j hjs
    have hw := hB.waiting j hjs hs
    unfold Waiting at hw
    split at hw
    · have := List.length_pos_iff.2 hw.2
      omega
    · omega
    · omega
  rcases exists_of_owed_pos howed with ⟨job, hmem, -⟩ | ⟨e, he, n, hn, hcount⟩
  · rw [hr] at hmem
    cases hmem
  · cases n with
    | forget => cases hcount
    | count i =>
      obtain rfl : i = j := by simpa [isCountFor] using hcount
      refine ⟨e, (hB.asking e he i hn).2, he, ?_⟩
      by_contra hc
      rw [hB.silent e (by simpa using hc)] at hn
      cases hn

/-- Somebody who does not wait for the end of branches that were left behind waits for branches that
began later. -/
theorem Config.lt_of_joined (h : D.Config none γ st m) {j e : Nat} (hj : j < m.joins.size)
    (hs : (m.join j).settled = false)
    (hst : ∀ δs k s, st (m.join j).owner ≠ .joined .ended δs k s) (he : e ∈ (m.join j).branches) :
    (m.join j).owner < e := by
  obtain ⟨s, -, hjoined⟩ := h.joined j hj (Or.inl hs)
  refine h.below j hj (fun hk => ?_) e he
  rw [hk] at hjoined
  exact hst _ _ s hjoined

/-- A schedule makes a step unless nobody has the turn, and there are neither jobs nor timers. -/
theorem exists_step_of {body : Procedure → Routine Value}
    (h : ¬(m.active = none ∧ m.ready = [] ∧ m.timers = [])) : ∃ m', m.step body = some m' := by
  unfold Schedule.step
  split
  · exact ⟨_, rfl⟩
  · next ha =>
    split
    · exact ⟨_, rfl⟩
    · next hr =>
      cases hm : m.jump with
      | some m' => exact ⟨m', rfl⟩
      | none => exact absurd ⟨ha, hr, timers_of_jump hm⟩ h

/-- A schedule with an open branch has a next step: the last open branch would wait for one that
began after it. -/
theorem Config.exists_step (h : D.Config none γ st m) (hB : Balanced none m)
    (hjoin : ∀ γ kind δs k s, D.may γ (.joined kind δs k s) → kind ≠ .ended)
    (hb : b < m.branches.size) (ho : m.isOpen b = true) : ∃ m', m.step D.body = some m' := by
  refine exists_step_of fun ⟨ha, hr, ht⟩ => ?_
  obtain ⟨d, hd, hmax⟩ := (openers m).exists_max_image id ⟨b, mem_openers.2 ⟨hb, ho⟩⟩
  obtain ⟨hlt, hopen⟩ := mem_openers.1 hd
  obtain ⟨j, hj, hs, rfl, e, he, helt, heo⟩ := exists_open_of_stuck hB ha hr ht hlt hopen
  refine Nat.not_lt.2 (hmax e (mem_openers.2 ⟨helt, heo⟩)) (h.lt_of_joined hj hs ?_ he)
  intro δs k s hst
  have hmay := h.may _ hlt hopen nofun
  rw [hst] at hmay
  exact hjoin _ _ _ _ _ hmay rfl

/-! ## Every branch ends -/

theorem runUntil_of_closed {body : Procedure → Routine Value} {k : Nat} (h : m.isOpen b = false) :
    runUntil body b k m = m := by
  cases k with
  | zero => rfl
  | succ k => rw [runUntil, if_neg (by simp [h])]

/-- Stages below those that allow only finitely many moves. -/
def Below (D : Discipline Γ) (x y : Stage Γ) : Prop := D.Next x y ∧ Acc D.Next y

theorem wellFounded_below (D : Discipline Γ) : WellFounded D.Below := by
  refine ⟨fun x => ?_⟩
  by_cases hx : Acc D.Next x
  · exact Subrelation.accessible (fun h => h.1) hx
  · exact ⟨x, fun y hy => absurd hy.2 hx⟩

/-- **Every branch ends**, whatever else is going on, and has then established what branches of its
sort establish. -/
theorem Config.settles (hD : D.Lawful) (hacc : ∀ γ x, D.may γ x → Acc D.Next x)
    (hjoin : ∀ γ kind δs k s, D.may γ (.joined kind δs k s) → kind ≠ .ended)
    (h : D.Config none γ st m) (hB : Balanced none m) (hb : b < m.branches.size) :
    ∃ n, ∀ k ≥ n, ∃ o, (runUntil D.body b k m).outcome? b = some o ∧
      D.post (γ b) o (runUntil D.body b k m).store := by
  have hwf : WellFounded (Prod.Lex (CutExpand D.Below) (· < · : Nat → Nat → Prop)) :=
    (wellFounded_below D).cutExpand.prod_lex wellFounded_lt
  generalize hx : (lines st m ∅, weight m) = x
  induction x using hwf.induction generalizing γ st m with
  | _ x ih =>
    cases ho : m.outcome? b with
    | some o =>
      refine ⟨0, fun k _ => ⟨o, ?_⟩⟩
      have hclosed : m.isOpen b = false := by rw [Schedule.isOpen, ho]; rfl
      rw [runUntil_of_closed hclosed]
      exact ⟨ho, h.ended b o ho⟩
    | none =>
      have hopen : m.isOpen b = true := by rw [Schedule.isOpen, ho]; rfl
      obtain ⟨m', hm⟩ := h.exists_step hB hjoin hb hopen
      obtain ⟨γ', st', hc, hγ, -, hprogress⟩ := h.step hD hB hm
      have hlex : Prod.Lex (CutExpand D.Below) (· < ·) (lines st' m' ∅, weight m') x := by
        subst hx
        rcases hprogress with ⟨d, hmoved⟩ | ⟨-, -, rfl, hn, hopens, hw⟩
        · refine Prod.Lex.left _ _ (hmoved.cutExpand (Finset.notMem_empty d) fun y hy => ⟨hy, ?_⟩)
          exact hacc (γ d) _ (h.may d hmoved.begun hmoved.isOpen (by simp))
        · rw [lines_congr hn (fun d _ _ => hopens d) fun _ _ _ _ => rfl]
          exact Prod.Lex.right _ hw
      obtain ⟨n, hn⟩ := ih _ hlex hc (hB.step hm) (hb.trans_le (size_le_step hB hm)) rfl
      refine ⟨n + 1, fun k hk => ?_⟩
      obtain ⟨k, rfl⟩ : ∃ l, k = l + 1 := ⟨k - 1, by omega⟩
      rw [runUntil, if_pos hopen, hm, ← hγ b hb]
      exact hn k (by omega)

/-! ## Bounded branches -/

/-- From a stage only finitely many moves can be made, and it is not one of those in which a branch
waits for the end of branches that were left behind. -/
def Bounded (D : Discipline Γ) (x : Stage Γ) : Prop :=
  Acc D.Next x ∧ ∀ δs k s, x ≠ .joined .ended δs k s

theorem not_rel_of_acc {α : Type} {r : α → α → Prop} {a : α} (h : Acc r a) : ¬r a a := by
  induction h with
  | intro a _ ih => exact fun ha => ih a ha ha

/-- Who waits for branches that were left behind may have to do so again and again. -/
theorem not_acc_detached (hD : D.Lawful) (k : Outcome → Routine Value) (s : Store) :
    ¬Acc D.Next (.turn (.await .detached k) s) := by
  intro h
  have hnone : D.Explains .ended [] (.ok []) s := rfl
  have hback : D.Next (.turn (.await .detached k) s)
      (.joined .ended [] (fun _ => .await .detached k) s) :=
    .go (.goOn (fun _ => .await .detached k) (hD.refl s) hnone)
  exact not_rel_of_acc h.transGen (.tail (.single hback) (.go (.drain [] k s)))

theorem sides_ne_ended {w : Wait} {ps : List Procedure} : sides w ≠ some (.ended, ps) := by
  cases w <;> nofun

theorem Bounded.next (hD : D.Lawful) {x y : Stage Γ} (h : D.Bounded y) (hx : D.Next x y) :
    D.Bounded x := by
  refine ⟨h.1.inv hx, ?_⟩
  rintro δs k s rfl
  cases hx with
  | go hgo =>
    cases hgo with
    | join k s hw => exact sides_ne_ended hw
    | drain δs k s => exact not_acc_detached hD _ _ h.1

/-- The same discipline for bounded branches. -/
def bounded (D : Discipline Γ) : Discipline Γ where
  body := D.body
  child := D.child
  may γ x := D.may γ x ∧ D.Bounded x
  post := D.post
  rely := D.rely
  guarantee := D.guarantee

theorem goes_bounded {x y : Stage Γ} (h : D.bounded.Goes x y) : D.Goes x y := by
  cases h with
  | get k s => exact .get k s
  | put r s t => exact .put r s t
  | call p k s => exact .call p k s
  | sleep x k s => exact .sleep x k s
  | resume r h => exact .resume r h
  | join k s h => exact .join k s h
  | skip k s h => exact .skip k s h
  | drain δs k s => exact .drain δs k s
  | drained k s => exact .drained k s
  | goOn k h ho => exact .goOn k h ho

theorem next_bounded {x y : Stage Γ} (h : D.bounded.Next x y) : D.Next x y := by
  cases h with
  | go h => exact .go (goes_bounded h)
  | start k s h hp => exact .start k s h hp

theorem Lawful.bounded (hD : D.Lawful) : D.bounded.Lawful where
  refl := hD.refl
  trans := hD.trans
  relied := hD.relied
  clock := hD.clock
  late := hD.late
  lasting := hD.lasting
  done h := hD.done h.1
  fail h := hD.fail h.1
  get h := ⟨hD.get h.1, h.2.next hD (.go (.get _ _))⟩
  put h := ⟨(hD.put h.1).1, (hD.put h.1).2, h.2.next hD (.go (.put _ _ _))⟩
  call h := ⟨hD.call h.1, h.2.next hD (.go (.call _ _ _))⟩
  sleep h := ⟨hD.sleep h.1, h.2.next hD (.go (.sleep _ _ _))⟩
  resume h ht := ⟨hD.resume h.1 ht, h.2.next hD (.go (.resume _ ht))⟩
  sides {γ w k s kind ps} h hw := by
    obtain ⟨hstart, hjoin, hskip⟩ := hD.sides h.1 hw
    refine ⟨fun p hp => ⟨hstart p hp, h.2.next hD (.start k s hw hp)⟩,
      ⟨hjoin, h.2.next hD (.go (.join k s hw))⟩, fun hnil => ?_⟩
    subst hnil
    exact ⟨hskip rfl, h.2.next hD (.go (.skip k s hw))⟩
  detached h := absurd h.2.1 (not_acc_detached hD _ _)
  goOn h ht ho := ⟨hD.goOn h.1 ht ho, h.2.next hD (.go (.goOn _ ht ho))⟩

/-- **Bounded branches end.** -/
theorem Config.settles_bounded (hD : D.Lawful) (h : D.bounded.Config none γ st m)
    (hB : Balanced none m) (hb : b < m.branches.size) :
    ∃ n, ∀ k ≥ n, ∃ o, (runUntil D.body b k m).outcome? b = some o ∧
      D.post (γ b) o (runUntil D.body b k m).store := by
  refine Config.settles (D := D.bounded) hD.bounded (fun γ x hx => ?_) (fun γ kind δs k s hx => ?_)
    h hB hb
  · exact Subrelation.accessible next_bounded hx.2.1
  · rintro rfl
    exact hx.2.2 _ _ _ rfl

end Discipline

end Schedule

end Conductor
