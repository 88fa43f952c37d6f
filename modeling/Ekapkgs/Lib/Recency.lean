import Ekapkgs.Lib.Keyed

/-!
# Rows in the order of a time

`oldestFirst` lists the keys of a table by a time of their rows, the rows of one
time in the order of the table. A write that moves times forward moves the keys
it touches back in that list and no others.
-/

namespace Recency
open Keyed

/-! ## Pairs in a list -/

section
variable {α : Type} {l : List α} {a b : α}

theorem pair_sublist_cons {c : α} : [a, b].Sublist (c :: l) ↔ (a = c ∧ b ∈ l) ∨ [a, b].Sublist l := by
  rw [List.cons_sublist_cons']
  constructor
  · rintro (h | ⟨rfl, h⟩)
    · exact .inr h
    · exact .inl ⟨rfl, List.singleton_sublist.mp h⟩
  · rintro (⟨rfl, h⟩ | h)
    · exact .inr ⟨rfl, List.singleton_sublist.mpr h⟩
    · exact .inl h

theorem pair_sublist_or (ha : a ∈ l) (hb : b ∈ l) (hne : a ≠ b) : [a, b].Sublist l ∨ [b, a].Sublist l := by
  induction l with
  | nil => cases ha
  | cons c l ih =>
    simp only [pair_sublist_cons]
    rcases List.mem_cons.mp ha with rfl | hal
    · exact .inl (.inl ⟨rfl, (List.mem_cons.mp hb).resolve_left (Ne.symm hne)⟩)
    rcases List.mem_cons.mp hb with rfl | hbl
    · exact .inr (.inl ⟨rfl, hal⟩)
    rcases ih hal hbl with h | h
    · exact .inl (.inr h)
    · exact .inr (.inr h)

theorem not_pair_sublist_swap (hl : l.Nodup) (h : [a, b].Sublist l) : ¬ [b, a].Sublist l := by
  induction l with
  | nil => cases h
  | cons c l ih =>
    obtain ⟨hc, hl⟩ := List.nodup_cons.mp hl
    have hmem : ∀ {x y : α}, [x, y].Sublist l → y ∈ l := fun h => h.subset (by simp)
    rw [pair_sublist_cons] at h ⊢
    rintro (⟨rfl, hb⟩ | hswap)
    · rcases h with ⟨rfl, hb'⟩ | h
      · exact hc hb
      · exact hc (hmem h)
    · rcases h with ⟨rfl, hb'⟩ | h
      · exact hc (hmem hswap)
      · exact ih hl h hswap

end

variable {κ ρ : Type} (time : ρ → Nat)

/-! ## The order -/

def oldestFirst (t : Table κ ρ) : List κ := (t.rows.insertionSort fun a b => time a.2 ≤ time b.2).map Prod.fst

def Before (t : Table κ ρ) (k k' : κ) : Prop := [k, k'].Sublist (oldestFirst time t)

theorem oldestFirst_perm (t : Table κ ρ) : (oldestFirst time t).Perm (t.rows.map Prod.fst) := (List.perm_insertionSort _ _).map _

theorem sorted_rows (t : Table κ ρ) : (t.rows.insertionSort fun a b => time a.2 ≤ time b.2).Pairwise fun a b => time a.2 ≤ time b.2 :=
  haveI : Std.Total fun a b : κ × ρ => time a.2 ≤ time b.2 := ⟨fun _ _ => Nat.le_total _ _⟩
  haveI : IsTrans (κ × ρ) fun a b => time a.2 ≤ time b.2 := ⟨fun _ _ _ => Nat.le_trans⟩
  List.pairwise_insertionSort _ _

section
variable {rows : List (κ × ρ)} {k k' : κ} {v v' w : ρ}

theorem row_unique (hnodup : (rows.map Prod.fst).Nodup) (hv : (k, v) ∈ rows) (hw : (k, w) ∈ rows) : v = w := by
  induction rows with
  | nil => cases hv
  | cons r rows ih =>
    obtain ⟨hr, hnodup⟩ := List.nodup_cons.mp hnodup
    rcases List.mem_cons.mp hv with rfl | hv'
    · rcases List.mem_cons.mp hw with heq | hw'
      · exact (Prod.mk.inj heq).2.symm
      · exact absurd (List.mem_map_of_mem hw') hr
    · rcases List.mem_cons.mp hw with rfl | hw'
      · exact absurd (List.mem_map_of_mem hv') hr
      · exact ih hnodup hv' hw'

/-- With distinct keys the order of two keys is the order of their rows. -/
theorem pair_keys_iff (hnodup : (rows.map Prod.fst).Nodup) (hv : (k, v) ∈ rows) (hv' : (k', v') ∈ rows) :
    [k, k'].Sublist (rows.map Prod.fst) ↔ [(k, v), (k', v')].Sublist rows := by
  constructor
  · intro h
    obtain ⟨l, hl, heq⟩ := List.sublist_map_iff.mp h
    obtain ⟨r, l', rfl, rfl, hl'⟩ := List.map_eq_cons_iff.mp heq.symm
    obtain ⟨r', l'', rfl, rfl, hl''⟩ := List.map_eq_cons_iff.mp hl'
    obtain rfl := List.map_eq_nil_iff.mp hl''
    rw [row_unique hnodup hv (hl.subset (List.mem_cons_self ..)), row_unique hnodup hv' (hl.subset (List.mem_cons_of_mem _ (List.mem_cons_self ..)))]
    exact hl
  · exact fun h => h.map Prod.fst

end

/-- An earlier time comes first, and at one time the earlier row. -/
theorem before_iff {t : Table κ ρ} {k k' : κ} {v v' : ρ} (hv : (k, v) ∈ t.rows) (hv' : (k', v') ∈ t.rows) (hne : k ≠ k') :
    Before time t k k' ↔ time v < time v' ∨ time v = time v' ∧ [k, k'].Sublist (t.rows.map Prod.fst) := by
  let sorted := t.rows.insertionSort fun a b => time a.2 ≤ time b.2
  have hnodup : (sorted.map Prod.fst).Nodup := (oldestFirst_perm time t).nodup_iff.mpr t.nodup
  have hs : (k, v) ∈ sorted := (List.mem_insertionSort _).mpr hv
  have hs' : (k', v') ∈ sorted := (List.mem_insertionSort _).mpr hv'
  have hle : ∀ {a b : κ} {x y : ρ}, (a, x) ∈ sorted → (b, y) ∈ sorted → [a, b].Sublist (sorted.map Prod.fst) → time x ≤ time y := by
    intro a b x y ha hb h
    have hpair := (sorted_rows time t).sublist ((pair_keys_iff hnodup ha hb).mp h)
    rwa [List.pairwise_pair] at hpair
  have hstable : ∀ {a b : κ} {x y : ρ}, (a, x) ∈ t.rows → (b, y) ∈ t.rows → time x ≤ time y → [a, b].Sublist (t.rows.map Prod.fst) →
      [a, b].Sublist (sorted.map Prod.fst) := by
    intro a b x y ha hb hxy h
    have : Std.Total fun a b : κ × ρ => time a.2 ≤ time b.2 := ⟨fun _ _ => Nat.le_total _ _⟩
    have : IsTrans (κ × ρ) fun a b => time a.2 ≤ time b.2 := ⟨fun _ _ _ => Nat.le_trans⟩
    have hpair : [(a, x), (b, y)].Pairwise fun a b : κ × ρ => time a.2 ≤ time b.2 := List.pairwise_pair.mpr hxy
    exact (List.sublist_insertionSort hpair ((pair_keys_iff t.nodup ha hb).mp h)).map Prod.fst
  show [k, k'].Sublist (sorted.map Prod.fst) ↔ _
  constructor
  · intro h
    rcases Nat.lt_or_eq_of_le (hle hs hs' h) with hlt | heq
    · exact .inl hlt
    · refine .inr ⟨heq, ?_⟩
      rcases pair_sublist_or (List.mem_map_of_mem (f := Prod.fst) hv) (List.mem_map_of_mem hv') hne with horder | horder
      · exact horder
      · exact absurd (hstable hv' hv (Nat.le_of_eq heq.symm) horder) (not_pair_sublist_swap hnodup h)
  · intro h
    rcases pair_sublist_or (List.mem_map_of_mem (f := Prod.fst) hs) (List.mem_map_of_mem hs') hne with horder | horder
    · exact horder
    · have hback := hle hs' hs horder
      rcases h with hlt | ⟨heq, hrows⟩
      · exact absurd hback (Nat.not_le.mpr hlt)
      · exact hstable hv hv' (Nat.le_of_eq heq) hrows

theorem Before.rows {t : Table κ ρ} {k k' : κ} (h : Before time t k k') : ∃ v v', (k, v) ∈ t.rows ∧ (k', v') ∈ t.rows ∧ k ≠ k' := by
  have hmem : ∀ a ∈ [k, k'], a ∈ t.rows.map Prod.fst := fun a ha => (oldestFirst_perm time t).mem_iff.mp (h.subset ha)
  obtain ⟨r, hr, hk⟩ := List.mem_map.mp (hmem k (by simp))
  obtain ⟨r', hr', hk'⟩ := List.mem_map.mp (hmem k' (by simp))
  subst hk hk'
  refine ⟨r.2, r'.2, hr, hr', fun heq => ?_⟩
  have hpair : [r.1, r'.1].Nodup := ((oldestFirst_perm time t).nodup_iff.mpr t.nodup).sublist h
  rw [heq] at hpair
  simp at hpair

variable [DecidableEq κ] {time} {t t' t'' : Table κ ρ}

/-! ## Rows that move forward -/

/-- Every row stays, and its time does not go back. -/
def Later (time : ρ → Nat) (t t' : Table κ ρ) : Prop := ∀ k v, t.get? k = some v → ∃ v', t'.get? k = some v' ∧ time v ≤ time v'

theorem Later.refl (t : Table κ ρ) : Later time t t := fun _ v h => ⟨v, h, Nat.le_refl _⟩

theorem Later.trans (h : Later time t t') (h' : Later time t' t'') : Later time t t'' := by
  intro k v hv
  obtain ⟨v', hv', hle⟩ := h k v hv
  obtain ⟨v'', hv'', hle'⟩ := h' k v' hv'
  exact ⟨v'', hv'', Nat.le_trans hle hle'⟩

theorem Later.insertOrReplace {k : κ} {w : ρ} (h : ∀ v, t.get? k = some v → time v ≤ time w) : Later time t (t.insertOrReplace k w) := by
  intro k' v hv
  rw [Table.get?_insertOrReplace]
  split
  next hk =>
    subst hk
    exact ⟨w, rfl, h v hv⟩
  next => exact ⟨v, hv, Nat.le_refl _⟩

theorem Later.insertOrIgnore (t : Table κ ρ) (k : κ) (w : ρ) : Later time t (t.insertOrIgnore k w) := by
  intro k' v hv
  refine ⟨v, ?_, Nat.le_refl _⟩
  rw [Table.get?_insertOrIgnore]
  split
  next hk =>
    subst hk
    rw [hv]
    rfl
  next => exact hv

/-- Change the rows of these keys in place. -/
def updateAll (t : Table κ ρ) (keys : List κ) (f : ρ → ρ) : Table κ ρ where
  rows := t.rows.map fun r => (r.1, if r.1 ∈ keys then f r.2 else r.2)
  nodup := by rw [List.map_map]; exact t.nodup

theorem updateAll_nil (t : Table κ ρ) (f : ρ → ρ) : updateAll t [] f = t :=
  Table.ext_rows (by simp [updateAll])

theorem update_updateAll {f : ρ → ρ} (hf : ∀ v, f (f v) = f v) (t : Table κ ρ) (k : κ) (keys : List κ) :
    (updateAll t keys f).update k f = updateAll t (k :: keys) f := by
  refine Table.ext_rows ?_
  simp only [updateAll, Table.update, List.map_map]
  refine List.map_congr_left fun r _ => ?_
  show (r.1, if r.1 = k then f (if r.1 ∈ keys then f r.2 else r.2) else if r.1 ∈ keys then f r.2 else r.2) = _
  by_cases hk : r.1 = k
  · rw [if_pos hk, if_pos (List.mem_cons.mpr (.inl hk))]
    split
    · rw [hf]
    · rfl
  · rw [if_neg hk]
    simp only [List.mem_cons, hk, false_or]

theorem get?_updateAll (t : Table κ ρ) (keys : List κ) (f : ρ → ρ) (k : κ) :
    (updateAll t keys f).get? k = (t.get? k).map fun v => if k ∈ keys then f v else v := by
  apply Table.get?_of_rows
  intro w
  simp only [updateAll, List.mem_map, Option.map_eq_some_iff, Table.get?_eq_some]
  constructor
  · rintro ⟨r, hr, heq⟩
    cases heq
    exact ⟨r.2, hr, rfl⟩
  · rintro ⟨v, hv, rfl⟩
    exact ⟨(k, v), hv, rfl⟩

section
variable {keys : List κ} {f : ρ → ρ} (h : ∀ k ∈ keys, ∀ v, t.get? k = some v → time v ≤ time (f v))

include h in
theorem time_le_updateAll {k : κ} {v : ρ} (hv : t.get? k = some v) : time v ≤ time (if k ∈ keys then f v else v) := by
  split
  next hk => exact h k hk v hv
  next => exact Nat.le_refl _

include h in
theorem Later.updateAll : Later time t (updateAll t keys f) := by
  intro k v hv
  refine ⟨_, ?_, time_le_updateAll h hv⟩
  rw [get?_updateAll, hv]
  rfl

include h in
/-- A key whose row does not change stays before any it was before. -/
theorem Before.updateAll {k k' : κ} (hbefore : Before time t k k') (hk : k ∉ keys) : Before time (updateAll t keys f) k k' := by
  obtain ⟨v, v', hv, hv', hne⟩ := hbefore.rows
  have hkeys : (Recency.updateAll t keys f).rows.map Prod.fst = t.rows.map Prod.fst := by
    unfold Recency.updateAll
    rw [List.map_map]
    rfl
  have hrow : ∀ {a : κ} {x : ρ}, (a, x) ∈ t.rows → (a, if a ∈ keys then f x else x) ∈ (Recency.updateAll t keys f).rows :=
    fun ha => List.mem_map.mpr ⟨_, ha, rfl⟩
  have hmoved := time_le_updateAll h (Table.get?_eq_some.mpr hv')
  rw [before_iff time hv hv' hne] at hbefore
  rw [before_iff time (hrow hv) (hrow hv') hne, if_neg hk, hkeys]
  rcases hbefore with hlt | ⟨heq, hrows⟩
  · exact .inl (Nat.lt_of_lt_of_le hlt hmoved)
  · rcases Nat.lt_or_eq_of_le hmoved with hlt | hsame
    · exact .inl (heq ▸ hlt)
    · exact .inr ⟨heq.trans hsame, hrows⟩

end

end Recency
