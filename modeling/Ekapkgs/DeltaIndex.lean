import Ekapkgs.DeltaCache

/-!
# The index of the delta cache

`DeltaCache` of `main.rs` under any calls. The sizes and the eviction order always
fit the map. An eviction drops the index entry of its target even when that names
the delta of another base, which then stays in the map and is not found.
-/

namespace Ekapkgs
open Keyed

inductive DeltaCall where
  | insert (baseHash targetHash : String) (delta : Bytes)
  | get (baseHash targetHash : String)
  | getForTarget (targetHash : String)

namespace DeltaCache

def get (c : DeltaCache) (baseHash targetHash : String) : Option Bytes := c.map.get? (baseHash, targetHash)

/-- Reading moves nothing: the order is that of the insertions. -/
def call (c : DeltaCache) : DeltaCall → DeltaCache
  | .insert baseHash targetHash delta => c.insert baseHash targetHash delta
  | .get _ _ => c
  | .getForTarget _ => c

/-! ## The invariants -/

/-- The size of an entry, if there is one. -/
def size (c : DeltaCache) (key : String × String) : Nat := c.map.share List.length key

structure Consistent (c : DeltaCache) : Prop where
  totalBytes : c.totalBytes = c.map.total List.length
  cap : c.totalBytes ≤ DELTA_CACHE_MAX_BYTES
  nodup : c.order.Nodup
  order : ∀ key, key ∈ c.order ↔ (c.map.get? key).isSome = true
  byTarget : ∀ target key, c.byTarget.get? target = some key → key.2 = target ∧ (c.map.get? key).isSome = true

/-- A target with a cached delta is found. -/
def Indexed (c : DeltaCache) : Prop :=
  ∀ target, (∃ base, (c.map.get? (base, target)).isSome = true) → (c.byTarget.get? target).isSome = true

theorem consistent_new : new.Consistent := ⟨rfl, Nat.zero_le _, List.nodup_nil, fun _ => by simp [new], nofun⟩

theorem indexed_new : new.Indexed := by
  rintro target ⟨base, h⟩
  simp [new] at h

/-- What the index finds is cached under the target. -/
theorem Consistent.getForTarget {c : DeltaCache} (h : c.Consistent) (target : String) :
    (c.byTarget.get? target).isSome = true ↔ ∃ base delta, c.map.get? (base, target) = some delta ∧ c.getForTarget target = some delta := by
  constructor
  · intro hindex
    obtain ⟨⟨base, target'⟩, hkey⟩ := Option.isSome_iff_exists.mp hindex
    obtain ⟨htarget, hmap⟩ := h.byTarget _ _ hkey
    obtain ⟨delta, hdelta⟩ := Option.isSome_iff_exists.mp hmap
    have htarget : target' = target := htarget
    subst htarget
    exact ⟨base, delta, hdelta, by simp [DeltaCache.getForTarget, entryForTarget, hkey, hdelta]⟩
  · rintro ⟨base, delta, _, hget⟩
    cases hindex : c.byTarget.get? target with
    | none => simp [DeltaCache.getForTarget, entryForTarget, hindex] at hget
    | some key => rfl

/-! ## An eviction -/

/-- The total is the sum of the sizes in eviction order. -/
theorem total_eq_sum {map : Table (String × String) Bytes} {order : List (String × String)} (hnodup : order.Nodup)
    (horder : ∀ key, key ∈ order ↔ (map.get? key).isSome = true) : map.total List.length = (order.map (map.share List.length)).sum := by
  have hmem : ∀ key, key ∈ order ↔ key ∈ map.rows.map Prod.fst := fun key => by
    rw [horder, Table.mem_keys_iff, Option.isSome_iff_exists]
  have hperm : order.Perm (map.rows.map Prod.fst) := (List.perm_ext_iff_of_nodup hnodup map.nodup).mpr hmem
  rw [(hperm.map _).sum_eq, List.map_map]
  refine congrArg List.sum (List.map_congr_left fun r hr => ?_)
  simp only [Function.comp_apply, Table.share, Table.get?_eq_some.mpr hr, Option.map_some, Option.getD_some]

theorem remove_of_get? {c : DeltaCache} {key : String × String} {old : Bytes} (h : c.map.get? key = some old) : c.remove key =
    { c with map := c.map.delete key, byTarget := c.byTarget.delete key.2, totalBytes := c.totalBytes - old.length } := by
  unfold remove
  rw [h]

/-- The loop takes entries from the front for as long as what is left does not fit. -/
theorem evict_spec (deltaLen : Nat) : ∀ (order : List (String × String)) (c : DeltaCache), order.Nodup →
    (∀ key, key ∈ order ↔ (c.map.get? key).isSome = true) → c.totalBytes = c.map.total List.length →
    ∃ gone rest, order = gone ++ rest ∧ (evict deltaLen order c).order = rest ∧
      (∀ key, (evict deltaLen order c).map.get? key = if key ∈ gone then none else c.map.get? key) ∧
      (∀ target, (evict deltaLen order c).byTarget.get? target = if target ∈ gone.map Prod.snd then none else c.byTarget.get? target) ∧
      (evict deltaLen order c).totalBytes = (evict deltaLen order c).map.total List.length ∧
      (evict deltaLen order c).totalBytes = (rest.map c.size).sum ∧
      (rest = [] ∨ (rest.map c.size).sum + deltaLen ≤ DELTA_CACHE_MAX_BYTES) ∧
      ∀ older key later, gone = older ++ key :: later →
        DELTA_CACHE_MAX_BYTES < ((key :: later ++ rest).map c.size).sum + deltaLen
  | [], c, hnodup, horder, htotal =>
    ⟨[], [], rfl, rfl, by simp [evict], by simp [evict], htotal, htotal.trans (total_eq_sum hnodup horder), .inl rfl, by simp⟩
  | key :: order, c, hnodup, horder, htotal => by
    have hsum : c.totalBytes = ((key :: order).map c.size).sum := htotal.trans (total_eq_sum hnodup horder)
    unfold evict
    by_cases hfull : DELTA_CACHE_MAX_BYTES < c.totalBytes + deltaLen
    · rw [if_pos hfull]
      obtain ⟨hnew, hnodup⟩ := List.nodup_cons.mp hnodup
      obtain ⟨old, hold⟩ := Option.isSome_iff_exists.mp ((horder key).mp List.mem_cons_self)
      have hremove := remove_of_get? hold
      have hshare : (c.map.delete key).total List.length + old.length = c.map.total List.length := by
        have := Table.total_delete c.map List.length key
        rwa [hold] at this
      have hkeys : ∀ key', key' ∈ order ↔ ((c.remove key).map.get? key').isSome = true := fun key' => by
        rw [hremove, Table.get?_delete]
        by_cases hkey : key' = key
        · simp [hkey, hnew]
        · rw [if_neg hkey, ← horder key', List.mem_cons, or_iff_right hkey]
      have hbytes : (c.remove key).totalBytes = (c.remove key).map.total List.length := by
        rw [hremove]
        show c.totalBytes - old.length = (c.map.delete key).total List.length
        omega
      have hsize : ∀ key' ∈ order, (c.remove key).size key' = c.size key' := fun key' hkey' => by
        have hne : key' ≠ key := fun e => hnew (e ▸ hkey')
        rw [hremove, size, Table.share_delete, if_neg hne]
        rfl
      obtain ⟨gone, rest, rfl, hrest, hmap, hindex, htot, hleft, hfit, hgone⟩ := evict_spec deltaLen order (c.remove key) hnodup hkeys hbytes
      have hsizes : ∀ keys ⊆ gone ++ rest, (keys.map (c.remove key).size).sum = (keys.map c.size).sum := fun keys hsub =>
        congrArg List.sum (List.map_congr_left fun key' hkey' => hsize key' (hsub hkey'))
      refine ⟨key :: gone, rest, rfl, hrest, fun key' => ?_, fun target => ?_, htot, ?_, hfit.imp_right fun hfit => ?_,
        fun older key' later heq => ?_⟩
      · rw [hmap, hremove, Table.get?_delete]
        by_cases hkey : key' = key <;> simp [hkey]
      · rw [hindex, hremove, Table.get?_delete]
        by_cases htarget : target = key.2
        · simp [htarget]
        · simp only [htarget, if_false, List.map_cons, List.mem_cons, false_or]
      · rw [hleft, hsizes rest (List.subset_append_right ..)]
      · rwa [hsizes rest (List.subset_append_right ..)] at hfit
      · cases older with
        | nil =>
          cases heq
          rwa [hsum] at hfull
        | cons _ older =>
          obtain ⟨rfl, rfl⟩ := List.cons.inj heq
          have := hgone older key' later rfl
          rwa [hsizes _ (by simp)] at this
    · rw [if_neg hfull]
      exact ⟨[], key :: order, rfl, rfl, by simp, by simp, htotal, hsum, .inr (by rw [← hsum]; omega), by simp⟩

/-! ## An insertion -/

/-- The entries other than the one that is inserted, the oldest first. -/
def others (c : DeltaCache) (key : String × String) : List (String × String) := c.order.filter (· ≠ key)

/-- An entry has to go when it and the later ones do not fit beside the delta. -/
def Displaced (c : DeltaCache) (key : String × String) (delta : Bytes) (old : String × String) : Prop :=
  old ∈ c.others key ∧
    DELTA_CACHE_MAX_BYTES < (((c.others key).dropWhile (· ≠ old)).map c.size).sum + delta.length

theorem dropWhile_ne {α : Type} [DecidableEq α] {older later : List α} {a : α} (h : a ∉ older) :
    (older ++ a :: later).dropWhile (· ≠ a) = a :: later := by
  rw [List.dropWhile_append_of_pos fun b hb => by simpa using fun e : b = a => h (e ▸ hb)]
  simp

/-- An insertion first takes out the entry that it replaces. -/
def clear (c : DeltaCache) (key : String × String) : DeltaCache :=
  if (c.map.get? key).isSome then { c.remove key with order := c.order.filter (· ≠ key) } else c

theorem insert_eq {c : DeltaCache} {baseHash targetHash : String} {delta : Bytes} (hlen : delta.length ≤ DELTA_ENTRY_MAX_BYTES) :
    c.insert baseHash targetHash delta =
      { map := (evict delta.length (c.clear (baseHash, targetHash)).order (c.clear (baseHash, targetHash))).map.insertOrReplace
          (baseHash, targetHash) delta
        byTarget := (evict delta.length (c.clear (baseHash, targetHash)).order (c.clear (baseHash, targetHash))).byTarget.insertOrReplace
          targetHash (baseHash, targetHash)
        order := (evict delta.length (c.clear (baseHash, targetHash)).order (c.clear (baseHash, targetHash))).order ++ [(baseHash, targetHash)]
        totalBytes := (evict delta.length (c.clear (baseHash, targetHash)).order (c.clear (baseHash, targetHash))).totalBytes + delta.length } := by
  unfold insert
  rw [if_neg (Nat.not_lt.mpr hlen)]
  rfl

structure Cleared (c c' : DeltaCache) (key : String × String) : Prop where
  order : c'.order = c.others key
  map : ∀ key', c'.map.get? key' = if key' = key then none else c.map.get? key'
  byTarget : ∀ target ≠ key.2, c'.byTarget.get? target = c.byTarget.get? target
  totalBytes : c'.totalBytes = c'.map.total List.length

theorem Consistent.cleared {c : DeltaCache} (h : c.Consistent) (key : String × String) :
    c.Cleared (c.clear key) key := by
  unfold clear
  cases hold : c.map.get? key with
  | some old =>
    have hshare : (c.map.delete key).total List.length + old.length = c.map.total List.length := by
      have := Table.total_delete c.map List.length key
      rwa [hold] at this
    have htotal := h.totalBytes
    rw [Option.isSome_some, if_pos rfl, remove_of_get? hold]
    refine ⟨rfl, fun key' => Table.get?_delete .., fun target htarget => ?_, ?_⟩
    · rw [Table.get?_delete, if_neg htarget]
    · show c.totalBytes - old.length = (c.map.delete key).total List.length
      omega
  | none =>
    have hkey : key ∉ c.order := fun hmem => by
      have := (h.order key).mp hmem
      rw [hold] at this
      cases this
    rw [if_neg (by simp)]
    refine ⟨?_, fun key' => ?_, fun _ _ => rfl, h.totalBytes⟩
    · exact (List.filter_eq_self.mpr fun old hmem => by simpa using fun e : old = key => hkey (e ▸ hmem)).symm
    · split
      next heq => rw [heq, hold]
      next => rfl

/-- What an insertion leaves of every part. -/
structure Inserted (c c' : DeltaCache) (key : String × String) (delta : Bytes) (gone rest : List (String × String)) : Prop where
  split : c.others key = gone ++ rest
  displaced : ∀ old, old ∈ gone ↔ c.Displaced key delta old
  order : c'.order = rest ++ [key]
  map : ∀ key', c'.map.get? key' = if key' = key then some delta else if key' ∈ gone then none else c.map.get? key'
  byTarget : ∀ target, c'.byTarget.get? target =
    if target = key.2 then some key else if target ∈ gone.map Prod.snd then none else c.byTarget.get? target
  totalBytes : c'.totalBytes = c'.map.total List.length
  cap : c'.totalBytes ≤ DELTA_CACHE_MAX_BYTES

theorem Consistent.displaced_iff {c : DeltaCache} (h : c.Consistent) {key : String × String} (delta : Bytes)
    {gone rest : List (String × String)} (hsplit : c.others key = gone ++ rest)
    (hfit : rest = [] ∨ (rest.map c.size).sum + delta.length ≤ DELTA_CACHE_MAX_BYTES)
    (hgone : ∀ older old later, gone = older ++ old :: later →
      DELTA_CACHE_MAX_BYTES < ((old :: later ++ rest).map c.size).sum + delta.length) (old : String × String) :
    old ∈ gone ↔ c.Displaced key delta old := by
  have hnodup : (gone ++ rest).Nodup := hsplit ▸ h.nodup.filter _
  unfold Displaced
  rw [hsplit]
  constructor
  · intro hmem
    obtain ⟨older, later, rfl⟩ := List.append_of_mem hmem
    have hold : old ∉ older := fun hold =>
      (List.nodup_append.mp (List.nodup_append.mp hnodup).1).2.2 old hold old List.mem_cons_self rfl
    refine ⟨List.mem_append_left _ hmem, ?_⟩
    rw [List.append_assoc, List.cons_append, dropWhile_ne hold]
    exact hgone older old later rfl
  · rintro ⟨hmem, hfull⟩
    refine (List.mem_append.mp hmem).resolve_right fun hrest => ?_
    obtain ⟨older, later, rfl⟩ := List.append_of_mem hrest
    have hold : old ∉ gone ++ older := fun hold => by
      rw [← List.append_assoc] at hnodup
      exact (List.nodup_append.mp hnodup).2.2 old hold old List.mem_cons_self rfl
    rw [← List.append_assoc, dropWhile_ne hold] at hfull
    rcases hfit with hfit | hfit
    · simp at hfit
    · rw [List.map_append, List.sum_append] at hfit
      omega

theorem Consistent.inserted {c : DeltaCache} (h : c.Consistent) (baseHash targetHash : String) {delta : Bytes}
    (hlen : delta.length ≤ DELTA_ENTRY_MAX_BYTES) :
    ∃ gone rest, c.Inserted (c.insert baseHash targetHash delta) (baseHash, targetHash) delta gone rest := by
  have hcleared := h.cleared (baseHash, targetHash)
  rw [insert_eq hlen]
  generalize c.clear (baseHash, targetHash) = c₁ at hcleared ⊢
  have hnodup : c₁.order.Nodup := by
    rw [hcleared.order]
    exact h.nodup.filter _
  have hkeys : ∀ key', key' ∈ c₁.order ↔ (c₁.map.get? key').isSome = true := fun key' => by
    rw [hcleared.order, hcleared.map, others, List.mem_filter, h.order]
    by_cases hkey : key' = (baseHash, targetHash) <;> simp [hkey]
  obtain ⟨gone, rest, hsplit, hrest, hmap, hindex, htotal, hleft, hfit, hgone⟩ := evict_spec delta.length c₁.order c₁ hnodup hkeys hcleared.totalBytes
  have hnew : (baseHash, targetHash) ∉ gone ++ rest := fun hmem => by
    rw [← hsplit, hcleared.order] at hmem
    simpa using (List.mem_filter.mp hmem).2
  -- the sizes of the other entries are those they had
  have hsizes : ∀ keys ⊆ gone ++ rest, (keys.map c₁.size).sum = (keys.map c.size).sum := fun keys hsub =>
    congrArg List.sum (List.map_congr_left fun key' hkey' => by
      have hne : key' ≠ (baseHash, targetHash) := fun e => hnew (e ▸ hsub hkey')
      rw [size, size, Table.share, Table.share, hcleared.map, if_neg hne])
  rw [hsizes rest (List.subset_append_right ..)] at hfit hleft
  have hdisplaced := h.displaced_iff delta (hcleared.order.symm.trans hsplit) hfit fun older old later heq => by
    have hsub : old :: later ++ rest ⊆ gone ++ rest := by
      rw [heq]
      simp
    rw [← hsizes _ hsub]
    exact hgone older old later heq
  have hmap' : ∀ key', (evict delta.length c₁.order c₁).map.get? key' =
      if key' = (baseHash, targetHash) then none else if key' ∈ gone then none else c.map.get? key' := fun key' => by
    rw [hmap, hcleared.map]
    by_cases hkey : key' = (baseHash, targetHash) <;> simp [hkey]
  have hdelete := Table.total_delete (evict delta.length c₁.order c₁).map List.length (baseHash, targetHash)
  rw [hmap', if_pos rfl] at hdelete
  have hdelete : ((evict delta.length c₁.order c₁).map.delete (baseHash, targetHash)).total List.length =
    (evict delta.length c₁.order c₁).map.total List.length := hdelete
  refine ⟨gone, rest, hcleared.order.symm.trans hsplit, hdisplaced, ?_, fun key' => ?_, fun target => ?_, ?_, ?_⟩
  · rw [hrest]
  · rw [Table.get?_insertOrReplace, hmap']
    by_cases hkey : key' = (baseHash, targetHash) <;> simp [hkey]
  · rw [Table.get?_insertOrReplace, hindex]
    by_cases htarget : target = targetHash
    · simp [htarget]
    · simp only [htarget, if_false]
      rw [hcleared.byTarget target htarget]
  · show _ + delta.length = _
    rw [Table.total_insertOrReplace, hdelete, htotal]
  · show _ + delta.length ≤ _
    rw [hleft]
    rcases hfit with rfl | hfit
    · simp only [List.map_nil, List.sum_nil, Nat.zero_add]
      exact hlen.trans (by decide)
    · exact hfit

theorem Consistent.insert {c : DeltaCache} (h : c.Consistent) (baseHash targetHash : String) (delta : Bytes) :
    (c.insert baseHash targetHash delta).Consistent := by
  by_cases hlen : DELTA_ENTRY_MAX_BYTES < delta.length
  · rwa [DeltaCache.insert, if_pos hlen]
  obtain ⟨gone, rest, hins⟩ := h.inserted baseHash targetHash (Nat.not_lt.mp hlen)
  have hothers : ∀ key, key ∈ gone ++ rest ↔ (c.map.get? key).isSome = true ∧ key ≠ (baseHash, targetHash) := fun key => by
    rw [← hins.split, others, List.mem_filter, h.order, decide_eq_true_eq]
  have hnodup : (gone ++ rest).Nodup := hins.split ▸ h.nodup.filter _
  refine ⟨hins.totalBytes, hins.cap, ?_, fun key => ?_, fun target key hkey => ?_⟩
  · rw [hins.order, List.nodup_append]
    refine ⟨(List.nodup_append.mp hnodup).2.1, List.nodup_singleton _, fun old hold key hkey e => ?_⟩
    rw [List.mem_singleton] at hkey
    exact ((hothers old).mp (List.mem_append_right _ hold)).2 (e.trans hkey)
  · rw [hins.order, List.mem_append, List.mem_singleton, hins.map]
    by_cases hkey : key = (baseHash, targetHash)
    · simp [hkey]
    · have hmem := hothers key
      rw [List.mem_append] at hmem
      rw [if_neg hkey, or_iff_left hkey]
      by_cases hgone : key ∈ gone
      · have hrest : key ∉ rest := fun hrest => (List.nodup_append.mp hnodup).2.2 key hgone key hrest rfl
        simp [hgone, hrest]
      · rw [if_neg hgone, ← or_iff_right (b := key ∈ rest) hgone, hmem, and_iff_left hkey]
  · rw [hins.byTarget] at hkey
    split at hkey
    next htarget =>
      obtain rfl := Option.some.inj hkey
      exact ⟨htarget.symm, by rw [hins.map, if_pos rfl]; rfl⟩
    next htarget =>
      obtain ⟨hgone, hold⟩ := Option.ite_none_left_eq_some.mp hkey
      obtain ⟨rfl, hmap⟩ := h.byTarget _ _ hold
      refine ⟨rfl, ?_⟩
      have hne : key ≠ (baseHash, targetHash) := fun e => htarget (congrArg Prod.snd e)
      rw [hins.map, if_neg hne, if_neg fun hmem => hgone (List.mem_map_of_mem hmem)]
      exact hmap

theorem Consistent.call {c : DeltaCache} (h : c.Consistent) (a : DeltaCall) : (c.call a).Consistent := by
  cases a with
  | insert baseHash targetHash delta => exact h.insert baseHash targetHash delta
  | get baseHash targetHash => exact h
  | getForTarget targetHash => exact h

/-! ## What is found by its target -/

/-- When an entry goes, all entries of its target go, or the target is that of
the new delta. -/
def WholeTargets (c : DeltaCache) : DeltaCall → Prop
  | .insert baseHash targetHash delta => delta.length ≤ DELTA_ENTRY_MAX_BYTES →
      ∀ old, c.Displaced (baseHash, targetHash) delta old → old.2 ≠ targetHash →
        ∀ key ∈ c.order, key.2 = old.2 → c.Displaced (baseHash, targetHash) delta key
  | .get _ _ => True
  | .getForTarget _ => True

theorem Consistent.indexed_insert_iff {c : DeltaCache} (h : c.Consistent) (hindexed : c.Indexed) {baseHash targetHash : String}
    {delta : Bytes} (hlen : delta.length ≤ DELTA_ENTRY_MAX_BYTES) : (c.insert baseHash targetHash delta).Indexed ↔
      ∀ old, c.Displaced (baseHash, targetHash) delta old → old.2 ≠ targetHash →
        ∀ key ∈ c.order, key.2 = old.2 → c.Displaced (baseHash, targetHash) delta key := by
  obtain ⟨gone, rest, hins⟩ := h.inserted baseHash targetHash hlen
  constructor
  · intro hnew old hold htarget key hkey heq
    by_contra hstays
    have hne : key ≠ (baseHash, targetHash) := fun e => htarget (heq ▸ congrArg Prod.snd e)
    have hmap : ((c.insert baseHash targetHash delta).map.get? (key.1, old.2)).isSome = true := by
      rw [← heq, hins.map, if_neg hne, if_neg fun hmem => hstays ((hins.displaced key).mp hmem)]
      exact (h.order key).mp hkey
    have hfound := hnew old.2 ⟨key.1, hmap⟩
    rw [hins.byTarget, if_neg htarget, if_pos (List.mem_map_of_mem ((hins.displaced old).mpr hold))] at hfound
    cases hfound
  · rintro hwhole target ⟨base, hmap⟩
    rw [hins.byTarget]
    by_cases htarget : target = targetHash
    · rw [if_pos htarget]
      rfl
    have hne : (base, target) ≠ (baseHash, targetHash) := fun e => htarget (congrArg Prod.snd e)
    rw [hins.map, if_neg hne] at hmap
    split at hmap
    next => cases hmap
    next hstays =>
      have hgone : target ∉ gone.map Prod.snd := fun hgone => by
        obtain ⟨old, hold, rfl⟩ := List.mem_map.mp hgone
        have hdisplaced := hwhole old ((hins.displaced old).mp hold) htarget (base, old.2) ((h.order _).mpr hmap) rfl
        exact hstays ((hins.displaced _).mpr hdisplaced)
      rw [if_neg htarget, if_neg hgone]
      exact hindexed target ⟨base, hmap⟩

theorem Consistent.indexed_call_iff {c : DeltaCache} (h : c.Consistent) (hindexed : c.Indexed) (a : DeltaCall) :
    (c.call a).Indexed ↔ c.WholeTargets a := by
  cases a with
  | insert baseHash targetHash delta =>
    show (c.insert baseHash targetHash delta).Indexed ↔ (_ → _)
    by_cases hlen : delta.length ≤ DELTA_ENTRY_MAX_BYTES
    · rw [h.indexed_insert_iff hindexed hlen, forall_prop_of_true hlen]
    · rw [DeltaCache.insert, if_pos (Nat.not_le.mp hlen)]
      exact iff_of_true hindexed fun hle => absurd hle hlen
  | get baseHash targetHash => exact iff_of_true hindexed trivial
  | getForTarget targetHash => exact iff_of_true hindexed trivial

/-! ## Any calls -/

/-- The cache after some calls. -/
def after (calls : List DeltaCall) : DeltaCache := calls.foldl call new

theorem after_concat (calls : List DeltaCall) (a : DeltaCall) : after (calls ++ [a]) = (after calls).call a := by
  simp [after]

theorem consistent_after (calls : List DeltaCall) : (after calls).Consistent := by
  induction calls using List.reverseRecOn with
  | nil => exact consistent_new
  | append_singleton calls a ih =>
    rw [after_concat]
    exact ih.call a

/-- The three structures agree. -/
structure Faithful (c : DeltaCache) : Prop where
  totalBytes : c.totalBytes = c.map.total List.length
  cap : c.totalBytes ≤ DELTA_CACHE_MAX_BYTES
  nodup : c.order.Nodup
  order : ∀ key, key ∈ c.order ↔ (c.map.get? key).isSome = true
  target : ∀ target, (∃ base, (c.map.get? (base, target)).isSome = true) →
    ∃ base delta, c.map.get? (base, target) = some delta ∧ c.getForTarget target = some delta

theorem Consistent.faithful_iff {c : DeltaCache} (h : c.Consistent) : c.Faithful ↔ c.Indexed := by
  constructor
  · exact fun hf target hcached => (h.getForTarget target).mpr (hf.target target hcached)
  · exact fun hi => ⟨h.totalBytes, h.cap, h.nodup, h.order, fun target hcached => (h.getForTarget target).mp (hi target hcached)⟩

/-- The cache is faithful all along exactly when no call evicts a part of a target. -/
theorem after_faithful_iff (calls : List DeltaCall) : (∀ before, before <+: calls → (after before).Faithful) ↔
    ∀ before a, before ++ [a] <+: calls → (after before).WholeTargets a := by
  constructor
  · intro h before a hprefix
    have hbefore := (consistent_after before).faithful_iff.mp (h before ((List.prefix_append ..).trans hprefix))
    have hafter := (consistent_after _).faithful_iff.mp (h _ hprefix)
    rw [after_concat] at hafter
    exact ((consistent_after before).indexed_call_iff hbefore a).mp hafter
  · intro h before hprefix
    refine (consistent_after before).faithful_iff.mpr ?_
    induction before using List.reverseRecOn with
    | nil => exact indexed_new
    | append_singleton before a ih =>
      rw [after_concat]
      exact ((consistent_after before).indexed_call_iff (ih ((List.prefix_append ..).trans hprefix)) a).mpr (h before a hprefix)

/-- Two deltas to one target and three to others. -/
def fiveDeltas (delta : Bytes) : List DeltaCall :=
  [.insert "a" "t" delta, .insert "b" "t" delta, .insert "a" "u" delta, .insert "a" "v" delta, .insert "a" "w" delta]

/-- There is room for four: the first one goes and takes the index entry of the second. -/
theorem fiveDeltas_lost {delta : Bytes} {n : Nat} (hn : 0 < n) (hdelta : delta.length = n) (hentry : DELTA_ENTRY_MAX_BYTES = n)
    (hcap : DELTA_CACHE_MAX_BYTES = 4 * n) : ¬ (after (fiveDeltas delta)).Faithful := by
  intro h
  have hone : ¬ 4 * n < n := by omega
  have htwo : ¬ 4 * n < n + n := by omega
  have hthree : ¬ 4 * n < n + n + n := by omega
  have hfour : ¬ 4 * n < n + n + n + n := by omega
  have hfive : 4 * n < n + n + n + n + n := by omega
  have hevicted : ¬ 4 * n < n + n + n + n - n + n := by omega
  have hcached : ((after (fiveDeltas delta)).map.get? ("b", "t")).isSome = true := by
    simp [fiveDeltas, after, call, new, DeltaCache.insert, evict, remove, hdelta, hentry, hcap, hone, htwo, hthree, hfour,
      hfive, hevicted, -not_lt]
  have hlost : (after (fiveDeltas delta)).byTarget.get? "t" = none := by
    simp [fiveDeltas, after, call, new, DeltaCache.insert, evict, remove, hdelta, hentry, hcap, hone, htwo, hthree, hfour,
      hfive, hevicted, -not_lt]
  have hindexed := (consistent_after _).faithful_iff.mp h "t" ⟨"b", hcached⟩
  rw [hlost] at hindexed
  cases hindexed

theorem shared_target_lost : ¬ ∀ calls, (after calls).Faithful :=
  fun h => fiveDeltas_lost (by decide) List.length_replicate rfl rfl (h (fiveDeltas (List.replicate DELTA_ENTRY_MAX_BYTES 0)))

end DeltaCache
end Ekapkgs
