import Mathlib.Data.Finset.Max
import Mathlib.Data.Finset.Card
import Mathlib.Data.List.Dedup

/-!
# The newest keys

Of a finite set of keys the `n` greatest. What does not belong to them can be
dropped early: it is not among the newest of any larger set.
-/

namespace Newest
variable {κ : Type*} [LinearOrder κ]

def newer (s : Finset κ) (k : κ) : Nat := (s.filter (k < ·)).card

def newest (n : Nat) (s : Finset κ) : Finset κ := s.filter fun k => newer s k < n

variable {n : Nat} {s s' u : Finset κ} {k : κ}

theorem mem_newest : k ∈ newest n s ↔ k ∈ s ∧ newer s k < n := Finset.mem_filter

theorem newest_subset : newest n s ⊆ s := Finset.filter_subset _ _

theorem newer_mono (h : s ⊆ s') : newer s k ≤ newer s' k := Finset.card_le_card (Finset.filter_subset_filter _ h)

/-- The greatest key that is dropped has as many newer ones before and after. -/
theorem exists_newer_of_dropped {x : κ} (hx : x ∈ s) (hdropped : x ∉ newest n s) : ∃ m, x ≤ m ∧ n ≤ newer (newest n s) m := by
  have hne : (s \ newest n s).Nonempty := ⟨x, Finset.mem_sdiff.mpr ⟨hx, hdropped⟩⟩
  obtain ⟨hm, hmdropped⟩ := Finset.mem_sdiff.mp (Finset.max'_mem _ hne)
  refine ⟨(s \ newest n s).max' hne, Finset.le_max' _ _ (Finset.mem_sdiff.mpr ⟨hx, hdropped⟩), ?_⟩
  have hmany : n ≤ newer s ((s \ newest n s).max' hne) := Nat.le_of_not_lt fun h => hmdropped (mem_newest.mpr ⟨hm, h⟩)
  refine hmany.trans (Finset.card_le_card fun y hy => ?_)
  obtain ⟨hys, hlt⟩ := Finset.mem_filter.mp hy
  refine Finset.mem_filter.mpr ⟨?_, hlt⟩
  by_contra hy
  exact absurd (Finset.le_max' _ y (Finset.mem_sdiff.mpr ⟨hys, hy⟩)) (not_le.mpr hlt)

/-- Dropping first changes nothing. -/
theorem newest_union_newest (n : Nat) (s u : Finset κ) : newest n (newest n s ∪ u) = newest n (s ∪ u) := by
  have hsub : newest n s ∪ u ⊆ s ∪ u := Finset.union_subset_union_left newest_subset
  ext k
  rw [mem_newest, mem_newest]
  constructor
  · rintro ⟨hk, hlt⟩
    refine ⟨hsub hk, lt_of_le_of_lt (Finset.card_le_card fun x hx => ?_) hlt⟩
    obtain ⟨hx, hkx⟩ := Finset.mem_filter.mp hx
    refine Finset.mem_filter.mpr ⟨?_, hkx⟩
    rcases Finset.mem_union.mp hx with hx | hx
    · by_contra hdropped
      obtain ⟨m, hxm, hmany⟩ := exists_newer_of_dropped hx fun h => hdropped (Finset.mem_union_left _ h)
      have hle : newer (newest n s) m ≤ newer (newest n s ∪ u) k := by
        refine Finset.card_le_card fun y hy => ?_
        obtain ⟨hy, hmy⟩ := Finset.mem_filter.mp hy
        exact Finset.mem_filter.mpr ⟨Finset.mem_union_left _ hy, hkx.trans (lt_of_le_of_lt hxm hmy)⟩
      exact absurd hlt (not_lt.mpr (hmany.trans hle))
    · exact Finset.mem_union_right _ hx
  · rintro ⟨hk, hlt⟩
    refine ⟨?_, lt_of_le_of_lt (newer_mono hsub) hlt⟩
    rcases Finset.mem_union.mp hk with hk | hk
    · exact Finset.mem_union_left _ (mem_newest.mpr ⟨hk, lt_of_le_of_lt (newer_mono Finset.subset_union_left) hlt⟩)
    · exact Finset.mem_union_right _ hk

theorem newest_insert_newest (n : Nat) (s : Finset κ) (k : κ) : newest n (insert k (newest n s)) = newest n (insert k s) := by
  rw [Finset.insert_eq, Finset.insert_eq, Finset.union_comm, newest_union_newest, Finset.union_comm]

theorem newest_newest (n : Nat) (s : Finset κ) : newest n (newest n s) = newest n s := by
  have h := newest_union_newest n s ∅
  rwa [Finset.union_empty, Finset.union_empty] at h

/-! ## The head of the sorted list -/

theorem newer_insert {a : κ} (ha : a ∉ s) : newer (insert a s) k = newer s k + if k < a then 1 else 0 := by
  unfold newer
  rw [Finset.filter_insert]
  split_ifs with hlt
  · exact Finset.card_insert_of_notMem fun h => ha (Finset.mem_of_mem_filter _ h)
  · rfl

theorem mem_take_iff {l : List κ} (h : l.Pairwise (· > ·)) (n : Nat) : k ∈ l.take n ↔ k ∈ l ∧ newer l.toFinset k < n := by
  induction l generalizing n with
  | nil => simp
  | cons a l ih =>
    obtain ⟨hgreater, hrest⟩ := List.pairwise_cons.mp h
    have hnot : a ∉ l.toFinset := fun hin => lt_irrefl a (hgreater a (List.mem_toFinset.mp hin))
    cases n with
    | zero => simp
    | succ n =>
      rw [List.take_succ_cons, List.mem_cons, List.mem_cons, ih hrest, List.toFinset_cons, newer_insert hnot]
      by_cases heq : k = a
      · have hzero : newer l.toFinset k = 0 := by
          refine Finset.card_eq_zero.mpr (Finset.filter_eq_empty_iff.mpr fun x hx => ?_)
          rw [heq]
          exact not_lt.mpr (hgreater x (List.mem_toFinset.mp hx)).le
        rw [hzero, if_neg (by rw [heq]; exact lt_irrefl a)]
        exact ⟨fun _ => ⟨.inl heq, Nat.succ_pos n⟩, fun _ => .inl heq⟩
      · constructor
        · rintro (hk | ⟨hin, hlt⟩)
          · exact absurd hk heq
          · rw [if_pos (hgreater k hin)]
            exact ⟨.inr hin, Nat.succ_lt_succ hlt⟩
        · rintro ⟨hk | hin, hlt⟩
          · exact absurd hk heq
          · rw [if_pos (hgreater k hin)] at hlt
            exact .inr ⟨hin, Nat.lt_of_succ_lt_succ hlt⟩

/-- The first keys in descending order are the newest ones. -/
theorem mem_take_mergeSort {l : List κ} (hnodup : l.Nodup) (n : Nat) :
    k ∈ (l.mergeSort fun a b => decide (b ≤ a)).take n ↔ k ∈ newest n l.toFinset := by
  have hperm : (l.mergeSort fun a b => decide (b ≤ a)).Perm l := List.mergeSort_perm l _
  have hsorted : (l.mergeSort fun a b => decide (b ≤ a)).Pairwise fun a b => decide (b ≤ a) = true := by
    refine List.pairwise_mergeSort (fun a b c hab hbc => ?_) (fun a b => ?_) l
    · exact decide_eq_true ((of_decide_eq_true hbc).trans (of_decide_eq_true hab))
    · rcases le_total a b with h | h <;> simp [h]
  have hgreater : (l.mergeSort fun a b => decide (b ≤ a)).Pairwise (· > ·) :=
    (hsorted.and (hperm.nodup_iff.mpr hnodup)).imp fun h => lt_of_le_of_ne (of_decide_eq_true h.1) h.2.symm
  rw [mem_take_iff hgreater, hperm.mem_iff, List.toFinset_eq_of_perm _ _ hperm, mem_newest, List.mem_toFinset]

end Newest
