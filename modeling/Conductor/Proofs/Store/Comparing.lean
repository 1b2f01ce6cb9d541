import Conductor.Proofs.Store.Reading
import Conductor.Proofs.Store.Resting

/-!
# Comparing nested mappings

Two nested mappings are alike if they look the same apart from the order of keys. If they have the
same things beside the targets, and things that look the same at the targets, they are alike
(`alike_of_targets`).

A path that leads beside the targets finds the same as long as the same is beside them
(`follow_beside`), whatever dictionaries have been made on the way to the targets.
-/

namespace Conductor

namespace Store

/-- Down to a depth, values look the same, apart from the order of keys in nested dictionaries. -/
def Alike (s t : Store) : Nat → Value → Value → Prop
  | 0, _, _ => True
  | n + 1, v, w => s.unfold (n + 1) v = t.unfold (n + 1) w ∨ ∃ a b, v = .dict a ∧ w = .dict b ∧
      ∀ key, Option.Rel (Alike s t n) (Entries.get? (s.get a) key) (Entries.get? (t.get b) key)

variable {s t : Store} {v x : Value} {o : Ref .dict} {q : List String} {ts : List (List String)}

theorem follow_of_walk : ∀ {p : List String} {v : Value}, s.walk v p = some x → s.follow v p = .ok x
  | [], _, h => by
    cases h
    rfl
  | key :: p, v, h => by
    obtain ⟨w, hw, hx⟩ := Option.bind_eq_some_iff.1 h
    obtain ⟨r, rfl, hg⟩ := entry?_eq_some.1 hw
    show s.follow ((Entries.get? (s.get r) key).getD .null) p = _
    rw [hg]
    exact follow_of_walk hx

theorem follow_walk {p : List String} (h : s.walk v p = some x) (q : List String) :
    s.follow v (p ++ q) = s.follow x q := by
  rw [follow_append, follow_of_walk h]
  rfl

/-- A way that leads nowhere comes to a value that is no dictionary with its next key. -/
theorem exists_stuck : ∀ {q : List String} {v : Value}, s.walk v q = none → ∃ p key rest x,
    q = p ++ key :: rest ∧ s.walk v p = some x ∧ s.entry? x key = none
  | [], _, h => by cases h
  | key :: q, v, h => by
    cases hw : s.entry? v key with
    | none => exact ⟨[], key, q, v, rfl, rfl, hw⟩
    | some w =>
      have hq : s.walk w q = none := by
        change (s.entry? v key).bind _ = none at h
        rwa [hw] at h
      obtain ⟨p, key', rest, x, rfl, hp, hx⟩ := exists_stuck hq
      refine ⟨key :: p, key', rest, x, rfl, ?_, hx⟩
      show (s.entry? v key).bind _ = _
      rw [hw]
      exact hp

/-- Nothing is found behind what is not there. -/
theorem follow_stuck {key : String} (hx : x = .null ∨ ∃ r, x = .dict r) (h : s.entry? x key = none)
    (rest : List String) : s.follow x (key :: rest) = .ok .null := by
  rcases hx with rfl | ⟨r, rfl⟩
  · rfl
  · show s.follow ((Entries.get? (s.get r) key).getD .null) rest = _
    rw [show Entries.get? (s.get r) key = none from h]
    exact follow_null rest

/-- Whatever on the way to a place beside the targets is neither missing nor a dictionary is itself
beside the targets. -/
theorem Nested.beside_of_leaf (h : Nested ts o s) {p : List String} (hp : p <+: q) (hq : Beside ts q)
    (hx : s.walk (.dict o) p = some x) (hleaf : ¬(x = .null ∨ ∃ r, x = .dict r)) : Beside ts p :=
  ⟨hq.1.before hp, fun p' hp' hpp => hleaf (h.passable p' hp' p hpp
    (fun heq => hq.1 p' hp' (heq ▸ hp)) x hx)⟩

/-- **A path beside the targets finds what it found.** -/
theorem follow_beside (hs : Nested ts o s) (ht : Nested ts o t)
    (hsame : ∀ q, Beside ts q → t.walk (.dict o) q = s.walk (.dict o) q)
    (hleaf : ∀ q x, Beside ts q → s.walk (.dict o) q = some x → (∀ r, x ≠ .dict r) →
      ∀ keys, t.follow x keys = s.follow x keys) (hq : Beside ts q) :
    t.follow (.dict o) q = s.follow (.dict o) q := by
  cases hw : s.walk (.dict o) q with
  | some w =>
    have hfollow := fun (u : Store) (h : u.walk (.dict o) q = some w) =>
      (congrArg (u.follow (.dict o)) (List.append_nil q).symm).trans (follow_walk h [])
    exact (hfollow t ((hsame q hq).trans hw)).trans (hfollow s hw).symm
  | none =>
    obtain ⟨p, key, rest, x, heq, hp, hx⟩ := exists_stuck hw
    obtain ⟨p', key', rest', x', heq', hp', hx'⟩ := exists_stuck ((hsame q hq).trans hw)
    have hbefore : p <+: q := ⟨_, heq.symm⟩
    have hbefore' : p' <+: q := ⟨_, heq'.symm⟩
    by_cases hnull : x = .null ∨ ∃ r, x = .dict r
    · by_cases hnull' : x' = .null ∨ ∃ r, x' = .dict r
      · have h₁ := heq ▸ follow_walk hp (key :: rest)
        have h₂ := heq' ▸ follow_walk hp' (key' :: rest')
        rw [h₁, h₂, follow_stuck hnull hx, follow_stuck hnull' hx']
      · have hb := ht.beside_of_leaf hbefore' hq hp' hnull'
        have hs' : s.walk (.dict o) p' = some x' := (hsame p' hb).symm.trans hp'
        rw [heq', follow_walk hp', follow_walk hs']
        exact hleaf p' x' hb hs' (fun r hr => hnull' (Or.inr ⟨r, hr⟩)) _
    · have hb := hs.beside_of_leaf hbefore hq hp hnull
      rw [heq, follow_walk hp, follow_walk ((hsame p hb).trans hp)]
      exact hleaf p x hb hp (fun r hr => hnull (Or.inr ⟨r, hr⟩)) _

/-- A place before which there is no target is a target, or on the way to one, or beside them. -/
theorem place_cases (hq : ∀ p, p <+: q → p ≠ q → Free ts p) :
    q ∈ ts ∨ (∃ p ∈ ts, q <+: p ∧ q ≠ p) ∨ Beside ts q := by
  by_cases hfree : Free ts q
  · by_cases hto : ∃ p ∈ ts, q <+: p
    · obtain ⟨p, hp, hqp⟩ := hto
      exact Or.inr (Or.inl ⟨p, hp, hqp, fun heq => hfree p hp (heq ▸ List.prefix_rfl)⟩)
    · exact Or.inr (Or.inr ⟨hfree, fun p hp hqp => hto ⟨p, hp, hqp⟩⟩)
  · simp only [Free, not_forall, not_not] at hfree
    obtain ⟨p, hp, hpq⟩ := hfree
    by_cases heq : p = q
    · exact Or.inl (heq ▸ hp)
    · exact absurd List.prefix_rfl (hq p hpq heq p hp)

theorem exists_of_way {p : List String} {z : Value} (hq : q <+: p) (hz : s.walk v p = some z) :
    ∃ x, s.walk v q = some x := by
  obtain ⟨rest, rfl⟩ := hq
  rw [walk_append] at hz
  obtain ⟨x, hx, -⟩ := Option.bind_eq_some_iff.1 hz
  exact ⟨x, hx⟩

/-- Whatever something lies behind is a dictionary. -/
theorem dict_of_way {p : List String} {z : Value} (hq : q <+: p) (hne : q ≠ p)
    (hx : s.walk v q = some x) (hz : s.walk v p = some z) : ∃ r, x = .dict r := by
  obtain ⟨rest, rfl⟩ := hq
  cases rest with
  | nil => exact absurd (List.append_nil q).symm hne
  | cons key rest =>
    rw [walk_append, hx] at hz
    change (s.entry? x key).bind _ = some z at hz
    obtain ⟨w, hw, -⟩ := Option.bind_eq_some_iff.1 hz
    obtain ⟨r, hr, -⟩ := entry?_eq_some.1 hw
    exact ⟨r, hr⟩

/-- **Nested mappings are alike** if they are the same beside the targets and look the same there. -/
theorem alike_of_targets (hts : Split ts)
    (hfound : ∀ p ∈ ts, ∃ v w, s.walk (.dict o) p = some v ∧ t.walk (.dict o) p = some w ∧
      ∀ n, s.unfold n v = t.unfold n w)
    (hsame : ∀ q, Beside ts q → t.walk (.dict o) q = s.walk (.dict o) q)
    (hleaf : ∀ q x, Beside ts q → s.walk (.dict o) q = some x → (∀ r, x ≠ .dict r) →
      ∀ n, s.unfold n x = t.unfold n x) (n : Nat) :
    Alike s t n (.dict o) (.dict o) := by
  suffices hall : ∀ n q, (∀ p, p <+: q → p ≠ q → Free ts p) → ∀ v w,
      s.walk (.dict o) q = some v → t.walk (.dict o) q = some w → Alike s t n v w from
    hall n [] (fun p hp hne => absurd (List.prefix_nil.1 hp) hne) _ _ rfl rfl
  -- The same places are there in both.
  have hboth : ∀ {q}, (∀ p, p <+: q → p ≠ q → Free ts p) →
      ((∃ v, s.walk (.dict o) q = some v) ↔ ∃ w, t.walk (.dict o) q = some w) := by
    intro q hq
    rcases place_cases hq with hmem | ⟨p, hp, hqp, -⟩ | hb
    · obtain ⟨v, w, hv, hw, -⟩ := hfound q hmem
      exact ⟨fun _ => ⟨w, hw⟩, fun _ => ⟨v, hv⟩⟩
    · obtain ⟨v, w, hv, hw, -⟩ := hfound p hp
      exact ⟨fun _ => exists_of_way hqp hw, fun _ => exists_of_way hqp hv⟩
    · rw [hsame q hb]
  intro n
  induction n with
  | zero => exact fun _ _ _ _ _ _ => trivial
  | succ n ih =>
    intro q hq v w hv hw
    have hdicts : Free ts q → (∃ a, v = .dict a) → (∃ b, w = .dict b) → Alike s t (n + 1) v w := by
      rintro hfree ⟨a, rfl⟩ ⟨b, rfl⟩
      refine Or.inr ⟨a, b, rfl, rfl, fun key => ?_⟩
      have hnext : ∀ p, p <+: q ++ [key] → p ≠ q ++ [key] → Free ts p := fun p hp hne =>
        hfree.before (prefix_of_concat hp hne)
      have ha : s.walk (.dict o) (q ++ [key]) = Entries.get? (s.get a) key := by
        rw [walk_concat, hv]
        rfl
      have hb : t.walk (.dict o) (q ++ [key]) = Entries.get? (t.get b) key := by
        rw [walk_concat, hw]
        rfl
      have hiff := hboth hnext
      rw [ha, hb] at hiff
      cases hx : Entries.get? (s.get a) key with
      | none =>
        cases hy : Entries.get? (t.get b) key with
        | none => exact .none
        | some y =>
          obtain ⟨z, hz⟩ := hiff.2 ⟨y, hy⟩
          cases hx.symm.trans hz
      | some x =>
        obtain ⟨y, hy⟩ := hiff.1 ⟨x, hx⟩
        rw [hy]
        exact .some (ih _ hnext x y (ha.trans hx) (hb.trans hy))
    rcases place_cases hq with hmem | ⟨p, hp, hqp, hne⟩ | hb
    · obtain ⟨v', w', hv', hw', hlook⟩ := hfound q hmem
      cases hv.symm.trans hv'
      cases hw.symm.trans hw'
      exact Or.inl (hlook _)
    · obtain ⟨v', w', hv', hw', -⟩ := hfound p hp
      exact hdicts (hts.free hp hqp hne) (dict_of_way hqp hne hv hv') (dict_of_way hqp hne hw hw')
    · cases hv.symm.trans ((hsame q hb).symm.trans hw)
      by_cases hd : ∃ r, v = .dict r
      · exact hdicts hb.1 hd hd
      · exact Or.inl (hleaf q v hb hv (fun r hr => hd ⟨r, hr⟩) _)

end Store

end Conductor
