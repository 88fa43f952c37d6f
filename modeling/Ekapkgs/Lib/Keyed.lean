import Mathlib

/-!
# Tables with a primary key

A table is a list of rows in row-id order whose keys are distinct; the proof of
distinctness is a field, so no statement can build a table with a duplicate key.
A replaced row is deleted and appended, as a statement that allocates a new row
id does, so the order of `rows` is the order of a full scan.
-/

namespace Keyed

structure Table (κ ρ : Type) where
  rows : List (κ × ρ)
  nodup : (rows.map Prod.fst).Nodup

namespace Table
variable {κ ρ : Type}

def empty : Table κ ρ := ⟨[], List.nodup_nil⟩

/-- Delete every row that satisfies `p`. -/
def deleteWhere (t : Table κ ρ) (p : κ → ρ → Bool) : Table κ ρ :=
  ⟨t.rows.filter fun r => !p r.1 r.2, t.nodup.sublist (List.filter_sublist.map _)⟩

/-- The sum of `f` over all rows. -/
def total (t : Table κ ρ) (f : ρ → Nat) : Nat := (t.rows.map fun r => f r.2).sum

theorem nodup_append_row {rows : List (κ × ρ)} {k : κ} (v : ρ) (h : (rows.map Prod.fst).Nodup)
    (hk : k ∉ rows.map Prod.fst) : ((rows ++ [(k, v)]).map Prod.fst).Nodup := by
  rw [List.map_append, List.nodup_append]
  refine ⟨h, by simp, fun a ha b hb => ?_⟩
  simp only [List.map_cons, List.map_nil, List.mem_singleton] at hb
  subst hb; intro he; exact hk (he ▸ ha)

theorem ext_rows {t t' : Table κ ρ} (h : t.rows = t'.rows) : t = t' := by
  cases t; cases t'; cases h; rfl

theorem deleteWhere_deleteWhere (t : Table κ ρ) (p q : κ → ρ → Bool) :
    (t.deleteWhere p).deleteWhere q = t.deleteWhere fun k v => p k v || q k v :=
  ext_rows (by simp only [deleteWhere, List.filter_filter, Bool.not_or, Bool.and_comm])

theorem deleteWhere_false (t : Table κ ρ) {p : κ → ρ → Bool} (h : ∀ k v, p k v = false) : t.deleteWhere p = t :=
  ext_rows (List.filter_eq_self.mpr fun r _ => by rw [h]; rfl)

variable [DecidableEq κ]

def get? (t : Table κ ρ) (k : κ) : Option ρ := (t.rows.find? fun r => decide (r.1 = k)).map Prod.snd

def contains (t : Table κ ρ) (k : κ) : Bool := t.rows.any fun r => decide (r.1 = k)

theorem contains_iff_mem {t : Table κ ρ} {k : κ} : t.contains k = true ↔ k ∈ t.rows.map Prod.fst := by
  simp [contains]

theorem not_mem_of_contains {t : Table κ ρ} {k : κ} (h : t.contains k = false) : k ∉ t.rows.map Prod.fst :=
  fun hm => by rw [contains_iff_mem.mpr hm] at h; cases h

/-- Insert a row unless its key is taken. -/
def insertOrIgnore (t : Table κ ρ) (k : κ) (v : ρ) : Table κ ρ :=
  if h : t.contains k = true then t
  else ⟨t.rows ++ [(k, v)], nodup_append_row v t.nodup (not_mem_of_contains (by simpa using h))⟩

/-- Insert a row, deleting the one with its key first. -/
def insertOrReplace (t : Table κ ρ) (k : κ) (v : ρ) : Table κ ρ :=
  ⟨(t.rows.filter fun r => !decide (r.1 = k)) ++ [(k, v)],
    nodup_append_row v (t.nodup.sublist (List.filter_sublist.map _)) (by simp)⟩

def delete (t : Table κ ρ) (k : κ) : Table κ ρ := t.deleteWhere fun k' _ => decide (k' = k)

/-- Change the row of a key in place. -/
def update (t : Table κ ρ) (k : κ) (f : ρ → ρ) : Table κ ρ where
  rows := t.rows.map fun r => (r.1, if r.1 = k then f r.2 else r.2)
  nodup := by rw [List.map_map]; exact t.nodup

/-! ## Looking a key up -/

theorem find?_key {rows : List (κ × ρ)} (h : (rows.map Prod.fst).Nodup) {k : κ} {v : ρ} (hm : (k, v) ∈ rows) :
    rows.find? (fun r => decide (r.1 = k)) = some (k, v) := by
  induction rows with
  | nil => cases hm
  | cons r rows ih =>
    rw [List.map_cons, List.nodup_cons] at h
    rcases List.mem_cons.mp hm with rfl | hm
    · simp
    · have hne : r.1 ≠ k := fun e => h.1 (e ▸ List.mem_map.mpr ⟨_, hm, rfl⟩)
      rw [List.find?_cons_of_neg (by simpa using hne), ih h.2 hm]

theorem get?_eq_some {t : Table κ ρ} {k : κ} {v : ρ} : t.get? k = some v ↔ (k, v) ∈ t.rows := by
  constructor
  · intro h
    obtain ⟨r, hr, rfl⟩ := Option.map_eq_some_iff.mp h
    have hk : r.1 = k := by simpa using List.find?_some hr
    exact hk ▸ List.mem_of_find?_eq_some hr
  · intro h; unfold get?; rw [find?_key t.nodup h]; rfl

theorem get?_eq_none {t : Table κ ρ} {k : κ} : t.get? k = none ↔ k ∉ t.rows.map Prod.fst := by
  constructor
  · intro h hm
    obtain ⟨r, hr, rfl⟩ := List.mem_map.mp hm
    have hg : t.get? r.1 = some r.2 := get?_eq_some.mpr hr
    rw [hg] at h; cases h
  · intro h
    cases hg : t.get? k with
    | none => rfl
    | some v => exact absurd (List.mem_map.mpr ⟨_, get?_eq_some.mp hg, rfl⟩) h

theorem contains_eq_isSome (t : Table κ ρ) (k : κ) : t.contains k = (t.get? k).isSome := by
  rw [Bool.eq_iff_iff, contains_iff_mem, Option.isSome_iff_ne_none, ne_eq, get?_eq_none, not_not]

@[simp] theorem get?_empty (k : κ) : (empty : Table κ ρ).get? k = none := rfl

theorem get?_of_rows {t : Table κ ρ} {k : κ} {o : Option ρ} (h : ∀ v, (k, v) ∈ t.rows ↔ o = some v) : t.get? k = o := by
  apply Option.ext; intro v; rw [get?_eq_some, h]

@[simp] theorem get?_insertOrIgnore (t : Table κ ρ) (k : κ) (v : ρ) (k' : κ) :
    (t.insertOrIgnore k v).get? k' = if k' = k then some ((t.get? k).getD v) else t.get? k' := by
  unfold insertOrIgnore
  by_cases h : t.contains k = true
  · rw [dif_pos h]
    obtain ⟨w, hw⟩ := Option.isSome_iff_exists.mp (contains_eq_isSome t k ▸ h)
    by_cases e : k' = k
    · subst e; simp [hw]
    · simp [e]
  · rw [dif_neg h]
    have hn : t.get? k = none := by
      rw [contains_eq_isSome, Option.not_isSome_iff_eq_none] at h; exact h
    apply get?_of_rows; intro w
    simp only [List.mem_append, List.mem_singleton, Prod.mk.injEq, ← get?_eq_some]
    by_cases e : k' = k
    · subst e; simp [hn, eq_comm]
    · simp [e]

/-- A row after an insertion was there before or is the new one. -/
theorem of_get?_insertOrIgnore {t : Table κ ρ} {k k' : κ} {v w : ρ} (h : (t.insertOrIgnore k v).get? k' = some w) :
    t.get? k' = some w ∨ k' = k ∧ w = v := by
  rw [get?_insertOrIgnore] at h
  split at h
  next hk =>
    subst hk
    cases hold : t.get? k' with
    | none =>
      rw [hold] at h
      exact .inr ⟨rfl, (Option.some.inj h).symm⟩
    | some old =>
      rw [hold] at h
      exact .inl h
  next => exact .inl h

@[simp] theorem get?_insertOrReplace (t : Table κ ρ) (k : κ) (v : ρ) (k' : κ) :
    (t.insertOrReplace k v).get? k' = if k' = k then some v else t.get? k' := by
  apply get?_of_rows; intro w
  simp only [insertOrReplace, List.mem_append, List.mem_filter, List.mem_singleton, Prod.mk.injEq, ← get?_eq_some]
  by_cases e : k' = k
  · subst e; simp [eq_comm]
  · simp [e]

theorem get?_deleteWhere (t : Table κ ρ) (p : κ → ρ → Bool) (k : κ) :
    (t.deleteWhere p).get? k = (t.get? k).filter fun v => !p k v := by
  apply get?_of_rows; intro v
  simp only [deleteWhere, List.mem_filter, ← get?_eq_some, Option.filter_eq_some_iff]

@[simp] theorem get?_delete (t : Table κ ρ) (k k' : κ) :
    (t.delete k).get? k' = if k' = k then none else t.get? k' := by
  rw [delete, get?_deleteWhere]
  by_cases e : k' = k
  · simp [e]
  · cases t.get? k' <;> simp [e]

@[simp] theorem get?_update (t : Table κ ρ) (k : κ) (f : ρ → ρ) (k' : κ) :
    (t.update k f).get? k' = if k' = k then (t.get? k).map f else t.get? k' := by
  apply get?_of_rows; intro w
  simp only [update, List.mem_map, Prod.exists, Prod.mk.injEq]
  by_cases e : k' = k
  · subst e
    rw [if_pos rfl, Option.map_eq_some_iff]
    constructor
    · rintro ⟨_, v, hv, rfl, rfl⟩
      exact ⟨v, get?_eq_some.mpr hv, (if_pos rfl).symm⟩
    · rintro ⟨v, hv, rfl⟩
      exact ⟨k', v, get?_eq_some.mp hv, rfl, if_pos rfl⟩
  · rw [if_neg e, get?_eq_some]
    constructor
    · rintro ⟨_, v, hv, rfl, rfl⟩
      rwa [if_neg e]
    · intro hv
      exact ⟨k', w, hv, rfl, if_neg e⟩

theorem get?_deleteWhere_of_neg {t : Table κ ρ} {p : κ → ρ → Bool} {k : κ} (h : ∀ v, p k v = false) :
    (t.deleteWhere p).get? k = t.get? k := by
  rw [get?_deleteWhere]
  cases t.get? k <;> simp [h]

theorem get?_deleteWhere_of_pos {t : Table κ ρ} {p : κ → ρ → Bool} {k : κ} (h : ∀ v, p k v = true) :
    (t.deleteWhere p).get? k = none := by
  rw [get?_deleteWhere]
  cases t.get? k <;> simp [h]

theorem mem_keys_iff {t : Table κ ρ} {k : κ} : k ∈ t.rows.map Prod.fst ↔ ∃ v, t.get? k = some v := by
  rw [← contains_iff_mem, contains_eq_isSome, Option.isSome_iff_exists]

/-! ## Which keys there are -/

theorem contains_insertOrIgnore {t : Table κ ρ} {k k' : κ} {v : ρ} :
    (t.insertOrIgnore k v).contains k' = true ↔ t.contains k' = true ∨ k' = k := by
  simp only [contains_eq_isSome, get?_insertOrIgnore]
  by_cases e : k' = k <;> simp [e]

theorem contains_insertOrReplace {t : Table κ ρ} {k k' : κ} {v : ρ} :
    (t.insertOrReplace k v).contains k' = true ↔ t.contains k' = true ∨ k' = k := by
  simp only [contains_eq_isSome, get?_insertOrReplace]
  by_cases e : k' = k <;> simp [e]

theorem contains_of_deleteWhere {t : Table κ ρ} {p : κ → ρ → Bool} {k : κ} (h : (t.deleteWhere p).contains k = true) :
    t.contains k = true := by
  rw [contains_iff_mem] at h ⊢
  exact (List.filter_sublist.map _).subset h

/-! ## Rows in index order -/

section
variable {κ' : Type} [DecidableEq κ']

/-- The values of the rows under `k`, by their index. -/
def ordered (t : Table (κ' × Nat) ρ) (k : κ') : List ρ :=
  (((t.rows.filter fun r => r.1.1 = k).map fun r => (r.2, r.1.2)).mergeSort fun a b => a.2 ≤ b.2).map Prod.fst

theorem mem_indexed {t : Table (κ' × Nat) ρ} {k : κ'} {r : ρ × Nat} :
    r ∈ ((t.rows.filter fun r => r.1.1 = k).map fun r => (r.2, r.1.2)) ↔ t.get? (k, r.2) = some r.1 := by
  rw [get?_eq_some, List.mem_map]
  constructor
  · rintro ⟨row, hrow, rfl⟩
    obtain ⟨hmem, hk⟩ := List.mem_filter.mp hrow
    rw [← show row.1.1 = k from by simpa using hk]
    exact hmem
  · exact fun h => ⟨((k, r.2), r.1), List.mem_filter.mpr ⟨h, by simp⟩, rfl⟩

/-- A group whose rows are the items of a list, by position, is that list. -/
theorem ordered_eq {t : Table (κ' × Nat) ρ} {k : κ'} {l : List ρ} (h : ∀ i, t.get? (k, i) = l[i]?) : t.ordered k = l := by
  have hmem : ∀ r : ρ × Nat, r ∈ ((t.rows.filter fun r => r.1.1 = k).map fun r => (r.2, r.1.2)) ↔ r ∈ l.zipIdx :=
    fun r => by rw [mem_indexed, h, List.mem_zipIdx_iff_getElem?]
  have hnodup : ((t.rows.filter fun r => r.1.1 = k).map fun r => (r.2, r.1.2)).Nodup := by
    refine List.Nodup.map_on ?_ ((List.Nodup.of_map _ t.nodup).filter _)
    intro a ha b hb hab
    have hka : a.1.1 = k := by simpa using (List.mem_filter.mp ha).2
    have hkb : b.1.1 = k := by simpa using (List.mem_filter.mp hb).2
    obtain ⟨hv, hi⟩ := Prod.mk.inj hab
    exact Prod.ext (Prod.ext (hka.trans hkb.symm) hi) hv
  have hlt : l.zipIdx.Pairwise fun a b => a.2 < b.2 := by
    apply List.pairwise_map.mp
    rw [List.zipIdx_map_snd]; exact List.pairwise_lt_range'
  have hzip : l.zipIdx.Nodup := hlt.imp fun h e => by rw [e] at h; exact Nat.lt_irrefl _ h
  have hperm := (List.perm_ext_iff_of_nodup hnodup hzip).mpr hmem
  have hsort : ((t.rows.filter fun r => r.1.1 = k).map fun r => (r.2, r.1.2)).mergeSort (fun a b => a.2 ≤ b.2) =
      l.zipIdx := by
    have hle : l.zipIdx.Pairwise fun a b => decide (a.2 ≤ b.2) = true := hlt.imp fun h => by simpa using Nat.le_of_lt h
    refine List.Perm.eq_of_pairwise ?_ (List.pairwise_mergeSort ?_ ?_ _) hle ((List.mergeSort_perm _ _).trans hperm)
    · intro a b ha hb hab hba
      have ha := List.mem_zipIdx_iff_getElem?.mp ((hmem a).mp (List.mem_mergeSort.mp ha))
      have hb := List.mem_zipIdx_iff_getElem?.mp hb
      have hi : a.2 = b.2 := Nat.le_antisymm (of_decide_eq_true hab) (of_decide_eq_true hba)
      rw [hi, hb] at ha
      exact Prod.ext (Option.some.inj ha).symm hi
    · intro a b c hab hbc; simp only [decide_eq_true_eq] at hab hbc ⊢; omega
    · intro a b; simp only [Bool.or_eq_true, decide_eq_true_eq]; omega
  rw [ordered, hsort, List.zipIdx_map_fst]

end

/-! ## Totals -/

theorem delete_of_get?_none {t : Table κ ρ} {k : κ} (h : t.get? k = none) : (t.delete k).rows = t.rows := by
  refine List.filter_eq_self.mpr fun r hr => ?_
  have : r.1 ≠ k := fun e => get?_eq_none.mp h (e ▸ List.mem_map.mpr ⟨r, hr, rfl⟩)
  simpa using this

theorem sum_filter_key {rows : List (κ × ρ)} (h : (rows.map Prod.fst).Nodup) (f : ρ → Nat) {k : κ} {v : ρ}
    (hm : (k, v) ∈ rows) :
    ((rows.filter fun r => !decide (r.1 = k)).map fun r => f r.2).sum + f v = (rows.map fun r => f r.2).sum := by
  induction rows with
  | nil => cases hm
  | cons r rows ih =>
    rw [List.map_cons, List.nodup_cons] at h
    rcases List.mem_cons.mp hm with rfl | hm
    · have : rows.filter (fun r => !decide (r.1 = k)) = rows := by
        refine List.filter_eq_self.mpr fun r hr => ?_
        have : r.1 ≠ k := fun e => h.1 (e ▸ List.mem_map.mpr ⟨r, hr, rfl⟩)
        simpa using this
      simp [this, Nat.add_comm]
    · have hne : r.1 ≠ k := fun e => h.1 (e ▸ List.mem_map.mpr ⟨_, hm, rfl⟩)
      rw [List.filter_cons_of_pos (by simpa using hne)]
      simp only [List.map_cons, List.sum_cons]
      have := ih h.2 hm
      omega

/-- Deleting a row takes exactly its share off the total. -/
theorem total_delete (t : Table κ ρ) (f : ρ → Nat) (k : κ) :
    (t.delete k).total f + ((t.get? k).map f).getD 0 = t.total f := by
  cases h : t.get? k with
  | none => simp [total, delete_of_get?_none h]
  | some v => simpa [total, delete, deleteWhere] using sum_filter_key t.nodup f (get?_eq_some.mp h)

theorem total_insertOrReplace (t : Table κ ρ) (f : ρ → Nat) (k : κ) (v : ρ) :
    (t.insertOrReplace k v).total f = (t.delete k).total f + f v := by
  simp [total, insertOrReplace, delete, deleteWhere]

/-! ## Deleting several rows -/

theorem get?_foldl_delete (keys : List κ) (t : Table κ ρ) (k : κ) :
    (keys.foldl delete t).get? k = if k ∈ keys then none else t.get? k := by
  induction keys generalizing t with
  | nil => simp
  | cons k' keys ih =>
    rw [List.foldl_cons, ih, get?_delete]
    by_cases hk : k = k' <;> simp [hk]

/-- The share of a key in the total. -/
def share (t : Table κ ρ) (f : ρ → Nat) (k : κ) : Nat := ((t.get? k).map f).getD 0

theorem share_delete (t : Table κ ρ) (f : ρ → Nat) (k k' : κ) : (t.delete k).share f k' = if k' = k then 0 else t.share f k' := by
  unfold share
  rw [get?_delete]
  split <;> rfl

/-- At most the shares of the deleted keys, each as often as it is named. -/
theorem total_le_foldl_delete (f : ρ → Nat) (keys : List κ) (t : Table κ ρ) :
    t.total f ≤ (keys.foldl delete t).total f + (keys.map (t.share f)).sum := by
  induction keys generalizing t with
  | nil => simp
  | cons k keys ih =>
    have hfirst : (t.delete k).total f + t.share f k = t.total f := total_delete t f k
    have hrest : (keys.map ((t.delete k).share f)).sum ≤ (keys.map (t.share f)).sum := by
      refine List.sum_le_sum fun k' _ => ?_
      rw [share_delete]
      split
      · exact Nat.zero_le _
      · exact Nat.le_refl _
    have := ih (t.delete k)
    rw [List.foldl_cons, List.map_cons, List.sum_cons]
    omega

/-- Just these, if only keys without a share are named twice. -/
theorem total_foldl_delete (f : ρ → Nat) : ∀ (keys : List κ) (t : Table κ ρ),
    keys.Pairwise (fun k k' => k = k' → t.share f k = 0) →
      (keys.foldl delete t).total f + (keys.map (t.share f)).sum = t.total f
  | [], t, _ => by simp
  | k :: keys, t, h => by
    obtain ⟨hk, hkeys⟩ := List.pairwise_cons.mp h
    have hfirst : (t.delete k).total f + t.share f k = t.total f := total_delete t f k
    have hrest : keys.map ((t.delete k).share f) = keys.map (t.share f) := by
      refine List.map_congr_left fun k' hk' => ?_
      rw [share_delete]
      split
      next heq => rw [heq, hk k' hk' heq.symm]
      next => rfl
    have := total_foldl_delete f keys (t.delete k) (hkeys.imp fun hzero heq => by
      rw [share_delete]
      split
      · rfl
      · exact hzero heq)
    rw [List.foldl_cons, List.map_cons, List.sum_cons]
    rw [hrest] at this
    omega

/-! ## Scans by position -/

theorem mem_insertOrReplace {t : Table κ ρ} {k : κ} {v : ρ} {r : κ × ρ} (h : r ∈ (t.insertOrReplace k v).rows) :
    r ∈ t.rows ∨ r = (k, v) := by
  simp only [insertOrReplace, List.mem_append, List.mem_filter, List.mem_singleton] at h
  exact h.imp And.left id

theorem length_insertOrReplace (t : Table κ ρ) (k : κ) (v : ρ) : t.rows.length ≤ (t.insertOrReplace k v).rows.length := by
  simp only [insertOrReplace, List.length_append, List.length_singleton]
  cases h : t.get? k with
  | none =>
    rw [show t.rows.filter (fun r => !decide (r.1 = k)) = t.rows from delete_of_get?_none h]
    exact Nat.le_succ _
  | some v =>
    have := sum_filter_key t.nodup (fun _ => 1) (get?_eq_some.mp h)
    simp only [List.map_const', List.sum_replicate_nat, Nat.mul_one] at this
    omega

/-- Replacing a row lets at most the next one move into the first `n`. -/
theorem mem_take_replaced {k : κ} {new r : κ × ρ} : ∀ (rows : List (κ × ρ)) (n : Nat), (rows.map Prod.fst).Nodup → n ≤ rows.length →
    r ∈ ((rows.filter fun r => !decide (r.1 = k)) ++ [new]).take n →
    r ∈ rows.take n ∨ (k ∈ (rows.take n).map Prod.fst ∧ rows[n]? = some r) ∨ (r = new ∧ n = rows.length)
  | _, 0, _, _, h => by rw [List.take_zero] at h; cases h
  | [], n + 1, _, hn, _ => by simp at hn
  | row :: rows, n + 1, hnodup, hn, h => by
    rw [List.map_cons, List.nodup_cons] at hnodup
    have hn : n ≤ rows.length := by simpa using hn
    by_cases hk : row.1 = k
    · -- the rows behind it move up by one
      have hrest : rows.filter (fun r => !decide (r.1 = k)) = rows := by
        refine List.filter_eq_self.mpr fun r hr => ?_
        have : r.1 ≠ k := fun e => hnodup.1 (hk ▸ e ▸ List.mem_map_of_mem hr)
        simpa using this
      rw [List.filter_cons_of_neg (by simpa using hk), hrest, List.take_add_one] at h
      rcases List.mem_append.mp h with h | h
      · refine .inl ?_
        rw [List.take_succ_cons]
        rw [List.take_append_of_le_length hn] at h
        exact List.mem_cons_of_mem _ h
      · rw [Option.mem_toList] at h
        rcases Nat.lt_or_eq_of_le hn with hlt | rfl
        · rw [List.getElem?_append_left hlt] at h
          exact .inr (.inl ⟨by rw [List.take_succ_cons, List.map_cons, hk]; exact List.mem_cons_self, h⟩)
        · rw [List.getElem?_append_right (Nat.le_refl _), Nat.sub_self] at h
          exact .inr (.inr ⟨(Option.some.inj h).symm, rfl⟩)
    · rw [List.filter_cons_of_pos (by simpa using hk), List.cons_append, List.take_succ_cons] at h
      rcases List.mem_cons.mp h with rfl | h
      · exact .inl (by simp)
      rcases mem_take_replaced rows n hnodup.2 hn h with hmem | ⟨hkeys, hget⟩ | ⟨rfl, rfl⟩
      · exact .inl (by rw [List.take_succ_cons]; exact List.mem_cons_of_mem _ hmem)
      · exact .inr (.inl ⟨by rw [List.take_succ_cons]; exact List.mem_cons_of_mem _ hkeys, hget⟩)
      · exact .inr (.inr ⟨rfl, rfl⟩)

theorem mem_take_insertOrReplace {t : Table κ ρ} {k : κ} {v : ρ} {n : Nat} {r : κ × ρ} (hn : n ≤ t.rows.length)
    (h : r ∈ (t.insertOrReplace k v).rows.take n) :
    r ∈ t.rows.take n ∨ (k ∈ (t.rows.take n).map Prod.fst ∧ t.rows[n]? = some r) ∨ (r = (k, v) ∧ n = t.rows.length) :=
  mem_take_replaced t.rows n t.nodup hn h

end Table
end Keyed
