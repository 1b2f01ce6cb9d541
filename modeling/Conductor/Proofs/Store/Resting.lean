import Conductor.Proofs.Store.Leading
import Conductor.Proofs.Store.Walking

/-!
# Values at rest

A value is clear of others if no path leads from it to one of those. When only those others change,
every path finds in the value what it found there before, and the value looks as it did.
-/

namespace Conductor

namespace Store

/-- No path leads from a value to one of a given kind, nor to anything that is not there. -/
def Clear (M : Value → Prop) (s : Store) (v : Value) : Prop :=
  ∀ w, Relation.ReflTransGen s.Leads v w → s.Stands w ∧ ¬ M w

variable {M M' : Value → Prop} {s t u : Store} {v w : Value} {c : Container} {shape : Shape}

theorem Clear.stands (h : Clear M s v) : s.Stands v := (h v .refl).1

theorem Clear.not (h : Clear M s v) : ¬ M v := (h v .refl).2

theorem Clear.leads (h : Clear M s v) (hw : s.Leads v w) : Clear M s w := fun x hx => h x (.head hw hx)

/-- A value leads to nothing of a kind if it is not of that kind, and what it leads to at once does not. -/
theorem clear_of_leads (hv : s.Stands v) (hn : ¬ M v) (h : ∀ w, s.Leads v w → Clear M s w) :
    Clear M s v := by
  intro x hx
  rcases hx.cases_head with rfl | ⟨w, hw, hx⟩
  · exact ⟨hv, hn⟩
  · exact h w hw x hx

theorem clear_plain (hM : ∀ v, M v → v.isPlain = false) (h : v.isPlain = true) : Clear M s v :=
  fun w hw =>
    have hw := plain_of_leads h hw
    ⟨hw.1, fun hm => absurd ((hM w hm).symm.trans hw.2) nofun⟩

theorem Clear.lookup {key : String} (hM : ∀ v, M v → v.isPlain = false) (hv : Clear M s v)
    (h : s.lookup v key = .ok w) : Clear M s w := by
  rcases leads_of_lookup h with rfl | hw
  · exact clear_plain hM rfl
  · exact hv.leads hw

/-- What a value leads to is found where nothing else has changed. -/
theorem Clear.back (h : Clear M s v) (hs : Still M s t) (hw : Relation.ReflTransGen t.Leads v w) :
    Relation.ReflTransGen s.Leads v w := by
  induction hw with
  | refl => exact .refl
  | tail _ hw ih => exact ih.tail (leads_of_sight (hs.sight _ (h _ ih).1 (h _ ih).2) hw)

theorem Clear.lasting (h : Clear M s v) (hs : Still M s t) (hM : ∀ w, s.Stands w → M' w → M w) :
    Clear M' t v := fun w hw =>
  have hw := h w (h.back hs hw)
  ⟨hs.stands w hw.1, fun hm => hw.2 (hM w hw.1 hm)⟩

theorem lookup_of_sight (h : t.sight v = s.sight v) (key : String) :
    t.lookup v key = s.lookup v key := by
  obtain ⟨hm, hr, ha⟩ : t.mapping? v = s.mapping? v ∧ t.row? v = s.row? v ∧
      t.attributeOf v = s.attributeOf v := by
    simpa only [sight, Prod.mk.injEq] using h
  rw [Store.lookup, Store.lookup, hm, hr, ha]

/-- **Every path finds what it found before.** -/
theorem Clear.follow (hM : ∀ v, M v → v.isPlain = false) (hs : Still M s t) :
    ∀ {keys : List String} {v : Value}, Clear M s v → t.follow v keys = s.follow v keys
  | [], _, _ => rfl
  | key :: keys, v, h => by
    have hl := lookup_of_sight (hs.sight v h.stands h.not) key
    show (if v.isNull then _ else (t.lookup v key).bind fun w => t.follow w keys) =
      if v.isNull then _ else (s.lookup v key).bind fun w => s.follow w keys
    rw [hl]
    cases hw : s.lookup v key with
    | error e => rfl
    | ok w => exact congrArg (ite _ _) (Clear.follow hM hs (h.lookup hM hw))

theorem stands_iff_has (h : v.container? = some (shape, c)) : s.Stands v ↔ s.Has c := by
  cases v <;> cases h <;> exact Iff.rfl

theorem leads_of_mem (h : v.container? = some (shape, c)) {e : String × Value}
    (he : e ∈ s.content c) : s.Leads v e.2 := by
  cases v with
  | list | tuple =>
    cases h
    obtain ⟨x, hx, rfl⟩ := List.mem_map.1 he
    exact .item rfl hx
  | dict | results =>
    cases h
    exact .entry rfl he
  | _ => cases h

theorem content_of_sight (h : v.container? = some (shape, c)) (hs : t.sight v = s.sight v) :
    t.content c = s.content c := by
  obtain ⟨hm, hr, -⟩ : t.mapping? v = s.mapping? v ∧ t.row? v = s.row? v ∧
      t.attributeOf v = s.attributeOf v := by
    simpa only [sight, Prod.mk.injEq] using hs
  cases v with
  | list | tuple =>
    cases h
    exact congrArg (List.map fun v => ("", v)) (Option.some.inj hr)
  | dict | results =>
    cases h
    exact Option.some.inj hm
  | _ => cases h

/-- **A value looks as it did.** -/
theorem Clear.unfold (hs : Still M s t) : ∀ {n : Nat} {v : Value}, Clear M s v →
    t.unfold n v = s.unfold n v
  | 0, _, _ => rfl
  | n + 1, v, h => by
    cases hc : v.container? with
    | none => rw [unfold_leaf hc, unfold_leaf hc]
    | some x =>
      obtain ⟨shape, c⟩ := x
      have hhas := (stands_iff_has hc).1 h.stands
      rw [unfold_node hc hhas, unfold_node hc ((stands_iff_has hc).1 (hs.stands v h.stands)), look,
        look, content_of_sight hc (hs.sight v h.stands h.not)]
      refine congrArg _ (List.map_congr_left fun e he => ?_)
      rw [Clear.unfold hs (h.leads (leads_of_mem hc he))]

/-! ## Writes at targets -/

section Writes

variable {ts : List (List String)} {o : Ref .dict} {p : List String} {x : Value}

/-- The dictionaries before the targets. -/
def Before (ts : List (List String)) (o : Ref .dict) (s : Store) (v : Value) : Prop :=
  ∃ q r, Free ts q ∧ s.walk (.dict o) q = some (.dict r) ∧ v = .dict r

theorem Before.not_plain (v : Value) (h : Before ts o s v) : v.isPlain = false := by
  obtain ⟨q, r, -, -, rfl⟩ := h
  rfl

/-- Of what was there, a write at a target puts nothing before the targets. -/
theorem Written.before (h : Written ts o p x s t) (hv : s.Stands v) (hb : Before ts o t v) :
    Before ts o s v := by
  obtain ⟨q, r, hq, hr, rfl⟩ := hb
  rcases h.fresh q r hq hr with hr | hr
  · exact ⟨q, r, hq, hr, rfl⟩
  · exact absurd hv (Nat.not_lt.2 hr)

/-- **A write at a target** changes dictionaries before the targets only. -/
theorem Nested.still (h : Nested ts o s) (hts : Split ts) {path : String}
    (hp : Path.segments path ∈ ts) (ht : s.setPath o path x = .ok t) :
    Still (Before ts o s) s t := by
  have hw := h.setPath hts hp ht
  obtain ⟨ds, hsize, rfl⟩ := exists_dicts_writeAlong ht
  refine ⟨fun v hv => ?_, fun v hv hn => ?_⟩
  · cases v <;> first | exact hv.trans_le hsize | exact hv
  · cases v with
    | dict r => exact congrArg mappingSight (hw.others r hv fun q hq hr => hn ⟨q, r, hq, hr, rfl⟩)
    | _ => rfl

end Writes

end Store

end Conductor
