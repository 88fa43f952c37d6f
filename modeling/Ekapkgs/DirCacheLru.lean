import Ekapkgs.Castore
import Ekapkgs.Lib.Lru

/-!
# The directory cache

`DirCache` in `castore.rs`: a map, and a queue of its keys in the order of their
last uses. What it answers is what a cache with times answers.
-/

namespace Ekapkgs
open Keyed Lru

variable {δ : Type} [DecidableEq δ]

/-- What the lookups return, and the cache after them. -/
def DirCache.run : DirCache δ → List (Access δ CaDirectory) → List (Option CaDirectory) × DirCache δ
  | c, [] => ([], c)
  | c, .get digest :: accesses =>
    let rest := run (c.get digest).2 accesses
    ((c.get digest).1 :: rest.1, rest.2)
  | c, .insert digest dir :: accesses => run (c.insert digest dir) accesses

/-- The queue orders the reference cache, which has the values of the map. -/
structure DirCache.Refines (c : DirCache δ) (ref : Cache δ CaDirectory) : Prop where
  ordered : Ordered c.order ref
  keys : c.order.Perm (c.map.rows.map Prod.fst)
  values : ∀ digest, c.map.get? digest = (ref.entries.get? digest).map Prod.fst
  bounded : c.map.rows.length ≤ c.capacity

variable {c : DirCache δ} {ref : Cache δ CaDirectory} {digest : δ} {dir : CaDirectory}

theorem DirCache.refines_new (capacity : Nat) : (DirCache.new capacity : DirCache δ).Refines .empty :=
  ⟨ordered_empty, .nil, fun _ => rfl, Nat.zero_le _⟩

theorem DirCache.Refines.length (h : c.Refines ref) : ref.entries.rows.length = c.map.rows.length := by
  rw [← h.ordered.length, h.keys.length_eq, List.length_map]

theorem DirCache.Refines.contains (h : c.Refines ref) (digest : δ) : ref.entries.contains digest = c.map.contains digest := by
  rw [Table.contains_eq_isSome, Table.contains_eq_isSome, h.values, Option.isSome_map]

theorem DirCache.Refines.get (h : c.Refines ref) (digest : δ) :
    (c.get digest).1 = (ref.get digest).1 ∧ (c.get digest).2.Refines (ref.get digest).2 ∧ (c.get digest).2.capacity = c.capacity := by
  have hvalue := h.values digest
  unfold DirCache.get Cache.get
  cases hget : ref.entries.get? digest with
  | none =>
    rw [hget, Option.map_none] at hvalue
    rw [hvalue]
    exact ⟨rfl, h, rfl⟩
  | some r =>
    rw [hget, Option.map_some] at hvalue
    rw [hvalue]
    have hmem : digest ∈ c.order := h.keys.mem_iff.mpr (Table.mem_keys_iff.mpr ⟨_, hvalue⟩)
    refine ⟨rfl, ⟨h.ordered.use digest r.1, (perm_moved h.ordered.nodup hmem).trans h.keys, fun digest' => ?_, h.bounded⟩, rfl⟩
    show c.map.get? digest' = _
    unfold Cache.use
    rw [Table.get?_insertOrReplace, h.values]
    split
    next heq => rw [heq, hget]; rfl
    next => rfl

/-- An entry is put in where there is room for it. -/
theorem DirCache.Refines.put (h : c.Refines ref) (digest : δ) (dir : CaDirectory)
    (hroom : c.map.contains digest = true ∨ c.map.rows.length < c.capacity) :
    DirCache.Refines { c with map := c.map.insertOrReplace digest dir, order := c.order.filter (· ≠ digest) ++ [digest] }
      (ref.use digest dir) := by
  have hkeys : (c.order.filter (· ≠ digest) ++ [digest]).Perm ((c.map.insertOrReplace digest dir).rows.map Prod.fst) := by
    rw [keys_insertOrReplace]
    exact (h.keys.filter _).append_right [digest]
  refine ⟨h.ordered.use digest dir, hkeys, fun digest' => ?_, ?_⟩
  · show (c.map.insertOrReplace digest dir).get? digest' = _
    unfold Cache.use
    rw [Table.get?_insertOrReplace, Table.get?_insertOrReplace, h.values]
    split <;> rfl
  · show (c.map.insertOrReplace digest dir).rows.length ≤ c.capacity
    rw [← List.length_map (f := Prod.fst), ← hkeys.length_eq]
    by_cases hmem : digest ∈ c.order
    · rw [(perm_moved h.ordered.nodup hmem).length_eq, h.keys.length_eq, List.length_map]
      exact h.bounded
    · have hlt := hroom.resolve_left fun hcontains => hmem (h.keys.mem_iff.mpr (Table.contains_iff_mem.mp hcontains))
      have hle := (List.length_filter_le (· ≠ digest) c.order)
      rw [h.keys.length_eq, List.length_map] at hle
      rw [List.length_append, List.length_singleton]
      omega

theorem DirCache.Refines.insert (h : c.Refines ref) (hcap : 0 < c.capacity) (digest : δ) (dir : CaDirectory) :
    (c.insert digest dir).Refines (ref.insert c.capacity digest dir) ∧ (c.insert digest dir).capacity = c.capacity := by
  unfold DirCache.insert Cache.insert
  rw [h.contains, h.length]
  by_cases hmem : c.map.contains digest = true
  · rw [if_pos hmem, if_neg (fun hfull => by rw [hmem] at hfull; cases hfull.1)]
    exact ⟨h.put digest dir (.inl hmem), rfl⟩
  have hnew : digest ∉ c.order := fun hkey => hmem (Table.contains_iff_mem.mpr (h.keys.mem_iff.mp hkey))
  have hfilter : ∀ {order : List δ}, digest ∉ order → order.filter (· ≠ digest) = order := fun hnot =>
    List.filter_eq_self.mpr fun a ha => decide_eq_true fun heq => hnot (heq ▸ ha)
  rw [if_neg hmem]
  by_cases hfull : c.capacity ≤ c.map.rows.length
  · rw [if_pos hfull, if_pos ⟨by simpa using hmem, hfull⟩]
    cases horder : c.order with
    | nil =>
      have hlen := h.keys.length_eq
      rw [horder, List.length_map, List.length_nil] at hlen
      omega
    | cons evicted order =>
      have hordered := h.ordered
      have hkeys := h.keys
      rw [horder] at hordered hkeys hnew
      obtain ⟨hordered', hentries⟩ := hordered.evict
      have hperm : order.Perm ((c.map.delete evicted).rows.map Prod.fst) := by
        have hperm := hkeys.filter (· ≠ evicted)
        rwa [filter_cons_self hordered.nodup, ← keys_delete] at hperm
      have hdelete : (c.map.delete evicted).rows.length < c.capacity := by
        have hlen := hkeys.length_eq
        have hlen' := hperm.length_eq
        have hbound := h.bounded
        rw [List.length_map] at hlen hlen'
        rw [List.length_cons] at hlen
        omega
      have h' : DirCache.Refines { c with map := c.map.delete evicted, order } ref.evict := by
        refine ⟨hordered', hperm, fun digest' => ?_, Nat.le_of_lt hdelete⟩
        show (c.map.delete evicted).get? digest' = _
        rw [hentries, Table.get?_delete, Table.get?_delete, h.values]
        split <;> rfl
      have hput := h'.put digest dir (.inr hdelete)
      rw [hfilter fun hmem' => hnew (List.mem_cons_of_mem _ hmem')] at hput
      exact ⟨hput, rfl⟩
  · rw [if_neg hfull, if_neg (fun hfull' => hfull hfull'.2)]
    have hput := h.put digest dir (.inr (Nat.lt_of_not_le hfull))
    rw [hfilter hnew] at hput
    exact ⟨hput, rfl⟩

theorem DirCache.Refines.run : ∀ {c : DirCache δ} {ref : Cache δ CaDirectory}, c.Refines ref →
    0 < c.capacity → ∀ accesses : List (Access δ CaDirectory), (c.run accesses).1 = (ref.run c.capacity accesses).1 ∧
      (c.run accesses).2.Refines (ref.run c.capacity accesses).2 ∧ (c.run accesses).2.capacity = c.capacity
  | _, _, h, _, [] => ⟨rfl, h, rfl⟩
  | c, ref, h, hcap, .get digest :: accesses => by
    obtain ⟨hvalue, hget, hcapacity⟩ := h.get digest
    obtain ⟨hvalues, hrun, hrest⟩ := hget.run (by rwa [hcapacity]) accesses
    rw [hcapacity] at hvalues hrun hrest
    exact ⟨congrArg₂ List.cons hvalue hvalues, hrun, hrest⟩
  | c, ref, h, hcap, .insert digest dir :: accesses => by
    obtain ⟨hinsert, hcapacity⟩ := h.insert hcap digest dir
    obtain ⟨hvalues, hrun, hrest⟩ := hinsert.run (by rwa [hcapacity]) accesses
    rw [hcapacity] at hvalues hrun hrest
    exact ⟨hvalues, hrun, hrest⟩

/-- After any lookups and insertions the queue has each key of the map once, the
map is within its capacity, and all lookups have found what the reference finds. -/
theorem dirCache_lru {capacity : Nat} (hcap : 0 < capacity) (accesses : List (Access δ CaDirectory)) :
    ((DirCache.new capacity).run accesses).2.order.Nodup ∧
      ((DirCache.new capacity).run accesses).2.order.Perm (((DirCache.new capacity).run accesses).2.map.rows.map Prod.fst) ∧
      ((DirCache.new capacity).run accesses).2.map.rows.length ≤ capacity ∧
      ((DirCache.new capacity).run accesses).1 = (Cache.empty.run capacity accesses).1 := by
  have hnew : (DirCache.new capacity : DirCache δ).Refines .empty := DirCache.refines_new capacity
  obtain ⟨hvalues, hrun, hcapacity⟩ := hnew.run hcap accesses
  have hbounded := hrun.bounded
  rw [hcapacity] at hbounded
  exact ⟨hrun.ordered.nodup, hrun.keys, hbounded, hvalues⟩

theorem dirCache_lru_evicts : 0 < 1 ∧
    ((DirCache.new 1 : DirCache Nat).run [.insert 0 ⟨[]⟩, .insert 1 ⟨[]⟩, .get 0, .get 1]).1 = [none, some ⟨[]⟩] :=
  ⟨by decide, (dirCache_lru (by decide) _).2.2.2.trans rfl⟩

end Ekapkgs
