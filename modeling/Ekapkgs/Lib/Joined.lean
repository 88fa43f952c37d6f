import Mathlib

/-!
# Lists joined by a separator

A join forgets where its pieces end, unless one knows how many separators each
piece holds.
-/

namespace Joined
variable {α : Type} [DecidableEq α] {c : α}

theorem append_sep_inj : ∀ {a b r s : List α}, a.count c = b.count c → a ++ c :: r = b ++ c :: s → a = b ∧ r = s
  | [], [], _, _, _, h => ⟨rfl, (List.cons.inj h).2⟩
  | [], y :: b, _, _, hcount, h => by
    obtain ⟨rfl, -⟩ := List.cons.inj h
    simp at hcount
  | x :: a, [], _, _, hcount, h => by
    obtain ⟨rfl, -⟩ := List.cons.inj h
    simp at hcount
  | x :: a, y :: b, _, _, hcount, h => by
    obtain ⟨rfl, htail⟩ := List.cons.inj h
    have hcount' : a.count c = b.count c := by
      rw [List.count_cons, List.count_cons] at hcount
      omega
    obtain ⟨hab, hrs⟩ := append_sep_inj hcount' htail
    exact ⟨congrArg _ hab, hrs⟩

theorem intercalate_inj : ∀ {xs ys : List (List α)}, xs.map (List.count c) = ys.map (List.count c) →
    [c].intercalate xs = [c].intercalate ys → xs = ys
  | [], [], _, _ => rfl
  | [], _ :: _, hcount, _ => by cases hcount
  | _ :: _, [], hcount, _ => by cases hcount
  | [x], [y], _, h => by
    rw [List.intercalate_singleton, List.intercalate_singleton] at h
    rw [h]
  | [_], _ :: _ :: _, hcount, _ => by cases (List.cons.inj hcount).2
  | _ :: _ :: _, [_], hcount, _ => by cases (List.cons.inj hcount).2
  | x :: x' :: xs, y :: y' :: ys, hcount, h => by
    obtain ⟨hxy, hcounts⟩ := List.cons.inj hcount
    rw [List.intercalate_cons_cons, List.intercalate_cons_cons, List.append_assoc, List.append_assoc] at h
    obtain ⟨hpiece, hrest⟩ := append_sep_inj hxy h
    rw [hpiece, intercalate_inj hcounts hrest]

theorem count_intercalate : ∀ {xs : List (List α)}, xs ≠ [] →
    ([c].intercalate xs).count c + 1 = (xs.map (List.count c)).sum + xs.length
  | [], h => absurd rfl h
  | [x], _ => by rw [List.intercalate_singleton]; rfl
  | x :: y :: xs, _ => by
    have ih := count_intercalate (List.cons_ne_nil y xs)
    rw [List.intercalate_cons_cons, List.count_append, List.count_append, List.count_singleton_self, List.map_cons, List.sum_cons,
      List.length_cons]
    omega

/-! ## Pieces that differ in how they start -/

variable {start : List α}

/-- A piece is a start and an end; the joins agree only if all starts do. -/
theorem starts_eq (hstart : c ∉ start) {ps : List (List α × List α)}
    (h : [c].intercalate (ps.map fun p => p.1 ++ p.2) = [c].intercalate (ps.map fun p => start ++ p.2)) : ∀ p ∈ ps, p.1 = start := by
  by_cases hnil : ps = []
  · subst hnil; nofun
  · have hleft := count_intercalate (c := c) (show (ps.map fun p => p.1 ++ p.2) ≠ [] by simpa using hnil)
    have hright := count_intercalate (c := c) (show (ps.map fun p => start ++ p.2) ≠ [] by simpa using hnil)
    rw [h] at hleft
    have hsum : ((ps.map fun p => p.1 ++ p.2).map (List.count c)).sum = (ps.map fun p => p.1.count c).sum +
        (ps.map fun p => p.2.count c).sum := by
      rw [← List.sum_map_add, List.map_map]
      congr 1
      exact List.map_congr_left fun p _ => List.count_append ..
    have hsum' : ((ps.map fun p => start ++ p.2).map (List.count c)).sum = (ps.map fun p => p.2.count c).sum := by
      rw [List.map_map]
      congr 1
      refine List.map_congr_left fun p _ => ?_
      rw [Function.comp_apply, List.count_append, List.count_eq_zero.mpr hstart, Nat.zero_add]
    rw [hsum, List.length_map] at hleft
    rw [hsum', List.length_map] at hright
    have hzero : (ps.map fun p => p.1.count c).sum = 0 := by omega
    have hcount : ∀ p ∈ ps, p.1.count c = 0 := fun p hp =>
      List.sum_eq_zero_iff.mp hzero _ (List.mem_map.mpr ⟨p, hp, rfl⟩)
    have hpieces := intercalate_inj (c := c) (by
      rw [List.map_map, List.map_map]
      refine List.map_congr_left fun p hp => ?_
      rw [Function.comp_apply, Function.comp_apply, List.count_append, List.count_append, hcount p hp, List.count_eq_zero.mpr hstart]) h
    exact fun p hp => List.append_cancel_right (List.map_inj_left.mp hpieces p hp)

end Joined
