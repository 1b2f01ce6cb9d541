import Conductor.Proofs.Store.Writing
import Conductor.Proofs.Text.Numeral

/-!
# Reading along paths

A path is read segment by segment, and reading the first part of it and then the rest from what was
found is reading the whole (`follow_append`). What leads nowhere gives nothing.

There is one thing that a reader may be refused: at a row of values, a segment that asks for a position
without denoting one, such as two dashes and a digit.

**Theorem (`paths_read`).** A path is refused if and only if it comes to a row of values with a segment
of that kind. Everything else is answered: a position in the row, from the front or from the end, with
the item that is there, and whatever leads nowhere with nothing.
-/

namespace Conductor

namespace Store

variable {s : Store} {v w : Value} {key : String} {keys : List String} {xs : List Value}

theorem follow_null (keys : List String) : s.follow .null keys = .ok .null := by
  cases keys <;> rfl

/-- **Reading a path is reading its first part and then the rest** from what was found. -/
theorem follow_append (v : Value) (p q : List String) :
    s.follow v (p ++ q) = (s.follow v p).bind fun w => s.follow w q := by
  induction p generalizing v with
  | nil => rfl
  | cons key p ih =>
    show (if v.isNull then .ok .null else s.lookup v key >>= fun w => s.follow w (p ++ q)) =
      Except.bind (if v.isNull then .ok .null else s.lookup v key >>= fun w => s.follow w p) _
    by_cases hv : v.isNull = true
    · simp only [hv, if_true]
      exact (follow_null q).symm
    · simp only [hv, Bool.false_eq_true, if_false]
      cases s.lookup v key with
      | error c => rfl
      | ok w => exact ih w

theorem follow_cons (hv : v.isNull = false) (hw : s.lookup v key = .ok w) (keys : List String) :
    s.follow v (key :: keys) = s.follow w keys := by
  show (if v.isNull then _ else s.lookup v key >>= fun w => s.follow w keys) = _
  rw [hv, hw]
  rfl

/-! ## One segment -/

theorem mapping?_of_row (h : s.row? v = some xs) : s.mapping? v = none := by
  cases v with
  | dict r | results r | steps r => cases h
  | _ => rfl

theorem isNull_of_row (h : s.row? v = some xs) : v.isNull = false := by
  cases v with
  | null => cases h
  | _ => rfl

theorem lookup_row (h : s.row? v = some xs) (key : String) : s.lookup v key =
    if Path.isPosition key then (Path.position key).map (Path.element xs) else .ok .null := by
  rw [lookup, mapping?_of_row h, h]

theorem lookup_key {es : Entries Value} (h : s.mapping? v = some es) (key : String) :
    s.lookup v key = .ok ((Entries.get? es key).getD .null) := by
  rw [lookup, h]

/-- A segment is refused at a row of values only, if it asks for a position that cannot be read. -/
theorem lookup_ok_iff : (∃ w, s.lookup v key = .ok w) ↔
    ∀ xs, s.row? v = some xs → Path.isPosition key = true → ∃ i, Path.Denotes key i := by
  constructor
  · rintro ⟨w, hw⟩ xs hxs hkey
    rw [lookup_row hxs, if_pos hkey] at hw
    cases hpos : Path.position key with
    | ok i => exact ⟨i, (Path.position_ok_iff hkey).1 hpos⟩
    | error c =>
      rw [hpos] at hw
      cases hw
  · intro h
    cases hm : s.mapping? v with
    | some es => exact ⟨_, lookup_key hm key⟩
    | none =>
      cases hxs : s.row? v with
      | none => exact ⟨s.attributeOf v key, by rw [lookup, hm, hxs]⟩
      | some xs =>
        rw [lookup_row hxs]
        by_cases hkey : Path.isPosition key = true
        · obtain ⟨i, hi⟩ := h xs hxs hkey
          exact ⟨Path.element xs i, by rw [if_pos hkey, (Path.position_ok_iff hkey).2 hi]; rfl⟩
        · exact ⟨.null, if_neg hkey⟩

theorem lookup_position {i : Int} (h : s.row? v = some xs) (hi : Path.Denotes key i) :
    s.lookup v key = .ok (Path.element xs i) := by
  have hkey : Path.isPosition key = true := by
    obtain ⟨minus, ds, hnum, -⟩ := hi
    exact Path.isPosition_of_numeral hnum
  rw [lookup_row h, if_pos hkey, (Path.position_ok_iff hkey).2 hi]
  rfl

/-- An item is at its place counted from the front, and at its place counted from the end. -/
theorem element_of_mem {i : Int} {j : Nat} {x : Value} (hx : xs[j]? = some x)
    (hi : i = j ∨ i = (j : Int) - xs.length) : Path.element xs i = x := by
  have hj : j < xs.length := (List.getElem?_eq_some_iff.1 hx).1
  unfold Path.element
  by_cases hpos : 0 ≤ i
  · have hi' : i.toNat = j := by omega
    simp [hpos, hi', hx]
  · have hlow : -(xs.length : Int) ≤ i := by omega
    have hi' : (i + xs.length).toNat = j := by omega
    simp [hpos, hlow, hi', hx]

theorem element_outside {i : Int} (hi : i < -(xs.length : Int) ∨ xs.length ≤ i) :
    Path.element xs i = .null := by
  unfold Path.element
  by_cases hpos : 0 ≤ i
  · have hge : xs.length ≤ i.toNat := by omega
    simp [hpos, List.getElem?_eq_none hge]
  · have hlow : ¬ -(xs.length : Int) ≤ i := by omega
    simp [hpos, hlow]

/-! ## Whole paths -/

/-- A path is refused only where one of its segments is. -/
theorem follow_ok_iff : (∃ w, s.follow v keys = .ok w) ↔ ∀ walked key rest w xs,
    keys = walked ++ key :: rest → s.follow v walked = .ok w → s.row? w = some xs →
      Path.isPosition key = true → ∃ i, Path.Denotes key i := by
  constructor
  · rintro ⟨x, hx⟩ walked key rest w xs rfl hw hxs
    rw [follow_append, hw] at hx
    refine lookup_ok_iff.1 ?_ xs hxs
    cases hl : s.lookup w key with
    | ok y => exact ⟨y, rfl⟩
    | error c =>
      change (if w.isNull then _ else s.lookup w key >>= fun y => s.follow y rest) = .ok x at hx
      rw [isNull_of_row hxs, hl] at hx
      cases hx
  · intro h
    induction keys generalizing v with
    | nil => exact ⟨v, rfl⟩
    | cons key keys ih =>
      by_cases hv : v.isNull = true
      · exact ⟨.null, if_pos hv⟩
      · have hv : v.isNull = false := eq_false_of_ne_true hv
        obtain ⟨w, hw⟩ := lookup_ok_iff.2 fun xs hxs => h [] key keys v xs rfl rfl hxs
        rw [follow_cons hv hw]
        refine ih fun walked key' rest x xs heq hx => ?_
        exact h (key :: walked) key' rest x xs (congrArg _ heq) ((follow_cons hv hw walked).trans hx)

/-- A segment that leads nowhere gives nothing, and so does everything behind it. -/
theorem follow_missing {walked rest : List String} (hv : s.follow v walked = .ok w)
    (hkey : s.lookup w key = .ok .null) : s.follow v (walked ++ key :: rest) = .ok .null := by
  rw [follow_append, hv]
  show (if w.isNull then .ok .null else s.lookup w key >>= fun x => s.follow x rest) = _
  rw [hkey]
  by_cases hw : w.isNull = true
  · rw [if_pos hw]
  · rw [if_neg hw]
    exact follow_null rest

/-- **What reading along a path gives.** A segment is refused if and only if it is met at a row of values
and asks for a position without denoting an integer; a path is refused if and only if one of its
segments is. A segment that denotes an integer gives the item at that position of a row, counted from
the end if it is negative, and nothing outside the row; a segment that names nothing gives nothing,
whatever stands behind it in the path. -/
theorem paths_read (s : Store) :
    (∀ v key, (∃ w, s.lookup v key = .ok w) ↔
      ∀ xs, s.row? v = some xs → Path.isPosition key = true → ∃ i, Path.Denotes key i) ∧
    (∀ root path, (∃ w, s.getPath root path = .ok w) ↔ ∀ walked key rest v xs,
      Path.segments path = walked ++ key :: rest → s.follow root walked = .ok v →
        s.row? v = some xs → Path.isPosition key = true → ∃ i, Path.Denotes key i) ∧
    (∀ v xs key i, s.row? v = some xs → Path.Denotes key i →
      (∀ (j : Nat) x, xs[j]? = some x → i = j ∨ i = (j : Int) - xs.length →
        s.lookup v key = .ok x) ∧
      (i < -(xs.length : Int) ∨ xs.length ≤ i → s.lookup v key = .ok .null)) ∧
    (∀ v es key, s.mapping? v = some es → (∀ w, (key, w) ∉ es) → s.lookup v key = .ok .null) ∧
    (∀ v xs key, s.row? v = some xs → Path.isPosition key = false → s.lookup v key = .ok .null) ∧
    (∀ v key, s.mapping? v = none → s.row? v = none →
      s.lookup v key = .ok (s.attributeOf v key)) ∧
    (∀ root path walked key rest v, Path.segments path = walked ++ key :: rest →
      s.follow root walked = .ok v → s.lookup v key = .ok .null →
        s.getPath root path = .ok .null) := by
  refine ⟨fun _ _ => lookup_ok_iff, fun _ _ => follow_ok_iff, ?_, ?_, ?_, ?_, ?_⟩
  · intro v xs key i hxs hi
    rw [lookup_position hxs hi]
    exact ⟨fun j x hx hj => congrArg _ (element_of_mem hx hj), fun h => congrArg _ (element_outside h)⟩
  · intro v es key hes hkey
    rw [lookup_key hes]
    cases hw : Entries.get? es key with
    | none => rfl
    | some w => exact absurd (Entries.mem_of_get? hw) (hkey w)
  · intro v xs key hxs hkey
    rw [lookup_row hxs, hkey]
    rfl
  · intro v key hm hxs
    rw [lookup, hm, hxs]
  · intro root path walked key rest v hpath hv hkey
    rw [getPath, hpath]
    exact follow_missing hv hkey

/-- Two dashes and a digit ask for a position of a row and are refused, on the row and behind a key. -/
theorem doubled_dash_refused :
    let row := (empty.newList [.int 1]).2
    let root := (row.newDict [("a", (empty.newList [.int 1]).1)]).2
    root.lookup (.list ⟨0⟩) "--1" = .error (.badInteger "'--1'") ∧
      root.getPath (.dict ⟨0⟩) "a.--1" = .error (.badInteger "'--1'") := by
  decide +kernel

end Store

end Conductor
