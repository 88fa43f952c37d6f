import Ekapkgs.Lib.Keyed

/-!
# Least recently used

A cache that keeps the time of each entry's last use, and makes room by giving
up the entry whose last use is longest ago. A queue of the keys in the order of
their last uses stands for the times.
-/

namespace Lru
open Keyed

variable {κ ρ : Type}

structure Cache (κ ρ : Type) where
  /-- Each value with the time of its last use. -/
  entries : Table κ (ρ × Nat)
  now : Nat

inductive Access (κ ρ : Type) where
  | get (k : κ)
  | insert (k : κ) (v : ρ)

namespace Cache

def empty : Cache κ ρ := ⟨.empty, 0⟩

def leastRecent (c : Cache κ ρ) : Option κ :=
  (c.entries.rows.find? fun r => c.entries.rows.all fun r' => r.2.2 ≤ r'.2.2).map Prod.fst

variable [DecidableEq κ] (c : Cache κ ρ)

def use (k : κ) (v : ρ) : Cache κ ρ := ⟨c.entries.insertOrReplace k (v, c.now), c.now + 1⟩

def evict : Cache κ ρ :=
  match c.leastRecent with
  | some k => { c with entries := c.entries.delete k }
  | none => c

def get (k : κ) : Option ρ × Cache κ ρ :=
  match c.entries.get? k with
  | some r => (some r.1, c.use k r.1)
  | none => (none, c)

def insert (capacity : Nat) (k : κ) (v : ρ) : Cache κ ρ :=
  (if c.entries.contains k = false ∧ capacity ≤ c.entries.rows.length then c.evict else c).use k v

/-- What the lookups among the accesses return, and the cache after them. -/
def run (capacity : Nat) : Cache κ ρ → List (Access κ ρ) → List (Option ρ) × Cache κ ρ
  | c, [] => ([], c)
  | c, .get k :: accesses =>
    let rest := run capacity (c.get k).2 accesses
    ((c.get k).1 :: rest.1, rest.2)
  | c, .insert k v :: accesses => run capacity (c.insert capacity k v) accesses

def lastUse (k : κ) : Nat := ((c.entries.get? k).map Prod.snd).getD 0

end Cache

variable [DecidableEq κ]

/-! ## The queue -/

/-- The queue has the keys of the cache, the least recently used one first. -/
structure Ordered (queue : List κ) (c : Cache κ ρ) : Prop where
  keys : queue.Perm (c.entries.rows.map Prod.fst)
  sorted : queue.Pairwise fun a b => c.lastUse a < c.lastUse b
  past : ∀ k ∈ queue, c.lastUse k < c.now

variable {queue : List κ} {c : Cache κ ρ} {k k' : κ} {v : ρ}

theorem ordered_empty : Ordered [] (.empty : Cache κ ρ) := ⟨.nil, .nil, nofun⟩

theorem Ordered.nodup (h : Ordered queue c) : queue.Nodup := h.keys.nodup_iff.mpr c.entries.nodup

theorem Ordered.length (h : Ordered queue c) : queue.length = c.entries.rows.length := by
  rw [h.keys.length_eq, List.length_map]

theorem lastUse_of_mem {r : κ × (ρ × Nat)} (h : r ∈ c.entries.rows) : c.lastUse r.1 = r.2.2 := by
  rw [Cache.lastUse, Table.get?_eq_some.mpr h]
  rfl

theorem lastUse_use : (c.use k v).lastUse k' = if k' = k then c.now else c.lastUse k' := by
  unfold Cache.lastUse Cache.use
  rw [Table.get?_insertOrReplace]
  split <;> rfl

theorem keys_insertOrReplace (t : Table κ ρ) (k : κ) (v : ρ) :
    (t.insertOrReplace k v).rows.map Prod.fst = (t.rows.map Prod.fst).filter (· ≠ k) ++ [k] := by
  unfold Table.insertOrReplace
  rw [List.map_append, List.map_singleton, List.filter_map]
  congr 3
  funext r
  simp

theorem keys_delete (t : Table κ ρ) (k : κ) : (t.delete k).rows.map Prod.fst = (t.rows.map Prod.fst).filter (· ≠ k) := by
  rw [List.filter_map]
  exact congrArg (List.map Prod.fst) (List.filter_congr fun r _ => by simp)

theorem perm_moved (hnodup : queue.Nodup) (hk : k ∈ queue) : (queue.filter (· ≠ k) ++ [k]).Perm queue := by
  have hfilter : queue.filter (· ≠ k) = queue.erase k := by
    rw [hnodup.erase_eq_filter]
    exact List.filter_congr fun a _ => by by_cases h : a = k <;> simp [h]
  rw [hfilter]
  exact List.perm_append_comm.trans (List.perm_cons_erase hk).symm

theorem filter_cons_self (hnodup : (k :: queue).Nodup) : (k :: queue).filter (· ≠ k) = queue := by
  have hk := (List.nodup_cons.mp hnodup).1
  rw [List.filter_cons_of_neg (by simp)]
  exact List.filter_eq_self.mpr fun a ha => decide_eq_true fun heq => hk (heq ▸ ha)

/-- A used key goes to the end of the queue. -/
theorem Ordered.use (h : Ordered queue c) (k : κ) (v : ρ) : Ordered (queue.filter (· ≠ k) ++ [k]) (c.use k v) where
  keys := by
    unfold Cache.use
    rw [keys_insertOrReplace]
    exact (h.keys.filter _).append_right [k]
  sorted := by
    have hne : ∀ a ∈ queue.filter (· ≠ k), a ∈ queue ∧ a ≠ k := fun a ha => by simpa using ha
    refine List.pairwise_append.mpr ⟨?_, List.pairwise_singleton .., fun a ha b hb => ?_⟩
    · refine (h.sorted.filter _).imp_of_mem fun {a b} ha hb hlt => ?_
      rwa [lastUse_use, lastUse_use, if_neg (hne a ha).2, if_neg (hne b hb).2]
    · rw [List.mem_singleton.mp hb, lastUse_use, lastUse_use, if_neg (hne a ha).2, if_pos rfl]
      exact h.past a (hne a ha).1
  past := by
    intro a ha
    show _ < c.now + 1
    rw [lastUse_use]
    split
    · exact Nat.lt_succ_self _
    next hne =>
      rcases List.mem_append.mp ha with ha | ha
      · exact Nat.lt_succ_of_lt (h.past a (List.mem_of_mem_filter ha))
      · exact absurd (List.mem_singleton.mp ha) hne

/-- The head of the queue was used before every other key. -/
theorem Ordered.leastRecent (h : Ordered (k :: queue) c) : c.leastRecent = some k := by
  have hmem : ∀ {a : κ}, a ∈ k :: queue ↔ ∃ r ∈ c.entries.rows, r.1 = a := fun {a} => by rw [h.keys.mem_iff, List.mem_map]
  have hle : ∀ r ∈ c.entries.rows, c.lastUse k ≤ c.lastUse r.1 ∧ (c.lastUse r.1 ≤ c.lastUse k → r.1 = k) := by
    intro r hr
    rcases List.mem_cons.mp (hmem.mpr ⟨r, hr, rfl⟩) with heq | htail
    · rw [heq]
      exact ⟨Nat.le_refl _, fun _ => rfl⟩
    · have hlt := List.rel_of_pairwise_cons h.sorted htail
      exact ⟨Nat.le_of_lt hlt, fun hle => absurd hlt (Nat.not_lt.mpr hle)⟩
  obtain ⟨row, hrow, hkey⟩ := hmem.mp (List.mem_cons_self ..)
  unfold Cache.leastRecent
  cases hfind : c.entries.rows.find? fun r => c.entries.rows.all fun r' => r.2.2 ≤ r'.2.2 with
  | none =>
    refine absurd (List.all_eq_true.mpr fun r' hr' => decide_eq_true ?_) (List.find?_eq_none.mp hfind row hrow)
    rw [← lastUse_of_mem hrow, ← lastUse_of_mem hr', hkey]
    exact (hle r' hr').1
  | some r =>
    have hr := List.mem_of_find?_eq_some hfind
    have hall : (c.entries.rows.all fun r' => r.2.2 ≤ r'.2.2) = true :=
      List.find?_some (p := fun r : κ × (ρ × Nat) => c.entries.rows.all fun r' => r.2.2 ≤ r'.2.2) hfind
    have hmin := of_decide_eq_true (List.all_eq_true.mp hall row hrow)
    rw [← lastUse_of_mem hr, ← lastUse_of_mem hrow, hkey] at hmin
    rw [Option.map_some, (hle r hr).2 hmin]

/-- The evicted key is the head of the queue. -/
theorem Ordered.evict (h : Ordered (k :: queue) c) : Ordered queue c.evict ∧ c.evict.entries = c.entries.delete k := by
  have hk := (List.nodup_cons.mp h.nodup).1
  have hevict : c.evict = { c with entries := c.entries.delete k } := by
    unfold Cache.evict
    rw [h.leastRecent]
  have hlast : ∀ a ∈ queue, c.evict.lastUse a = c.lastUse a := by
    intro a ha
    have hne : a ≠ k := fun heq => hk (heq ▸ ha)
    rw [hevict, Cache.lastUse, Table.get?_delete, if_neg hne]
    rfl
  refine ⟨⟨?_, ?_, ?_⟩, by rw [hevict]⟩
  · have hperm := h.keys.filter (· ≠ k)
    rw [filter_cons_self h.nodup] at hperm
    rwa [hevict, keys_delete]
  · refine (List.pairwise_cons.mp h.sorted).2.imp_of_mem fun {a b} ha hb hlt => ?_
    rwa [hlast a ha, hlast b hb]
  · intro a ha
    rw [hlast a ha, hevict]
    exact h.past a (List.mem_cons_of_mem _ ha)

end Lru
