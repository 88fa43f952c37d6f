import Mathlib
import Ekapkgs.Lib.Keyed

/-!
# Grouping by a key

Items are merged into the first one with the same key; a table says at which
position a key has its group. Every group is its items merged in order, and
nothing that merging adds up is lost.
-/

namespace Grouped
open Keyed
variable {α κ : Type} [DecidableEq κ]

structure Groups (α κ : Type) where
  result : List α
  keyToIdx : Table κ Nat

def Groups.empty : Groups α κ := ⟨[], .empty⟩

variable (key : α → κ) (merge : α → α → α)

def Groups.add (groups : Groups α κ) (a : α) : Groups α κ :=
  match groups.keyToIdx.get? (key a) with
  | some idx => { groups with result := groups.result.modify idx fun existing => merge existing a }
  | none => ⟨groups.result ++ [a], groups.keyToIdx.insertOrReplace (key a) groups.result.length⟩

def group (items : List α) : List α := (items.foldl (Groups.add key merge) .empty).result

/-- The table finds every group under its key, and each group is the items with
its key, merged. -/
structure Groups.Of (groups : Groups α κ) (items : List α) : Prop where
  indexed : ∀ k idx, groups.keyToIdx.get? k = some idx ↔ ∃ a, groups.result[idx]? = some a ∧ key a = k
  merged : ∀ a ∈ groups.result, ∃ first rest, items.filter (fun b => key b = key a) = first :: rest ∧ a = rest.foldl merge first
  covers : ∀ b ∈ items, ∃ a ∈ groups.result, key a = key b

variable {key merge} {groups : Groups α κ} {items : List α}

theorem Groups.Of.nodup (h : groups.Of key merge items) : (groups.result.map key).Nodup := by
  rw [List.nodup_iff_injective_get]
  intro i j hij
  have hat : ∀ i : Fin (groups.result.map key).length, groups.keyToIdx.get? ((groups.result.map key).get i) = some i.1 := by
    intro i
    have hlt : i.1 < groups.result.length := by simpa using i.2
    exact (h.indexed _ _).mpr ⟨groups.result[i.1], List.getElem?_eq_getElem hlt, by simp⟩
  have hi := hat i
  rw [hij, hat j] at hi
  exact Fin.ext (Option.some.inj hi).symm

theorem Groups.Of.empty : (Groups.empty : Groups α κ).Of key merge [] where
  indexed := by simp [Groups.empty]
  merged := nofun
  covers := nofun

theorem filter_snoc {k : κ} {a : α} (items : List α) : (items ++ [a]).filter (fun b => key b = k) =
    items.filter (fun b => key b = k) ++ if key a = k then [a] else [] := by
  rw [List.filter_append]
  by_cases ha : key a = k <;> simp [ha]

theorem mem_modify {f : α → α} {b : α} : ∀ {l : List α} {idx : Nat}, b ∈ l.modify idx f →
    ∃ i a, l[i]? = some a ∧ (i = idx ∧ b = f a ∨ i ≠ idx ∧ b = a) := by
  intro l idx h
  obtain ⟨i, hi⟩ := List.mem_iff_getElem?.mp h
  rw [List.getElem?_modify] at hi
  obtain ⟨a, ha, hb⟩ := Option.map_eq_some_iff.mp hi
  refine ⟨i, a, ha, ?_⟩
  split at hb
  · rename_i heq
    exact .inl ⟨heq.symm, hb.symm⟩
  · rename_i hne
    exact .inr ⟨fun heq => hne heq.symm, hb.symm⟩

/-- Merging an item keeps the key of its group. -/
theorem Groups.Of.add (hmerge : ∀ a b, key (merge a b) = key a) (h : groups.Of key merge items) (a : α) :
    (groups.add key merge a).Of key merge (items ++ [a]) := by
  unfold Groups.add
  cases hget : groups.keyToIdx.get? (key a) with
  | some idx =>
    obtain ⟨existing, hexisting, hkey⟩ := (h.indexed _ _).mp hget
    refine ⟨fun k i => ?_, fun b hb => ?_, fun b hb => ?_⟩
    · rw [h.indexed]
      show _ ↔ ∃ a', (groups.result.modify idx fun existing => merge existing a)[i]? = some a' ∧ key a' = k
      rw [List.getElem?_modify]
      constructor
      · rintro ⟨b, hb, rfl⟩
        rw [hb]
        by_cases hi : idx = i
        · exact ⟨merge b a, by simp [hi], hmerge b a⟩
        · exact ⟨b, by simp [hi], rfl⟩
      · rintro ⟨b, hb, rfl⟩
        obtain ⟨c, hc, hb⟩ := Option.map_eq_some_iff.mp hb
        refine ⟨c, hc, ?_⟩
        rw [← hb]
        split
        · exact (hmerge c a).symm
        · rfl
    · obtain ⟨i, c, hc, ⟨rfl, rfl⟩ | ⟨hne, rfl⟩⟩ := mem_modify hb
      · rw [hexisting] at hc
        cases hc
        obtain ⟨first, rest, hfilter, hmerged⟩ := h.merged existing (List.mem_of_getElem? hexisting)
        refine ⟨first, rest ++ [a], ?_, ?_⟩
        · rw [hmerge, filter_snoc, hfilter, if_pos hkey.symm]; rfl
        · rw [List.foldl_append, ← hmerged]; rfl
      · obtain ⟨first, rest, hfilter, hmerged⟩ := h.merged b (List.mem_of_getElem? hc)
        have hother : key a ≠ key b := by
          intro heq
          have hi := (h.indexed (key a) i).mpr ⟨b, hc, heq.symm⟩
          rw [hget] at hi
          exact hne (Option.some.inj hi).symm
        refine ⟨first, rest, ?_, hmerged⟩
        rw [filter_snoc, hfilter, if_neg hother, List.append_nil]
    · have hkeys : ∃ c ∈ groups.result, key c = key b := by
        rcases List.mem_append.mp hb with hb | hb
        · exact h.covers b hb
        · rw [List.mem_singleton.mp hb]
          exact ⟨existing, List.mem_of_getElem? hexisting, hkey⟩
      obtain ⟨c, hc, hcb⟩ := hkeys
      obtain ⟨i, hi⟩ := List.mem_iff_getElem?.mp hc
      by_cases heq : idx = i
      · refine ⟨merge c a, List.mem_iff_getElem?.mpr ⟨i, ?_⟩, (hmerge c a).trans hcb⟩
        rw [List.getElem?_modify, hi]; simp [heq]
      · refine ⟨c, List.mem_iff_getElem?.mpr ⟨i, ?_⟩, hcb⟩
        rw [List.getElem?_modify, hi]; simp [heq]
  | none =>
    have hnew : ∀ b ∈ groups.result, key b ≠ key a := by
      intro b hb heq
      obtain ⟨i, hi⟩ := List.mem_iff_getElem?.mp hb
      have hfound := (h.indexed _ _).mpr ⟨b, hi, heq⟩
      rw [hget] at hfound
      cases hfound
    have hnone : items.filter (fun b => key b = key a) = [] := by
      refine List.filter_eq_nil_iff.mpr fun b hb heq => ?_
      obtain ⟨c, hc, hcb⟩ := h.covers b hb
      exact hnew c hc (hcb.trans (of_decide_eq_true heq))
    refine ⟨fun k i => ?_, fun b hb => ?_, fun b hb => ?_⟩
    · dsimp only
      rw [Table.get?_insertOrReplace, List.getElem?_append]
      by_cases hk : k = key a
      · rw [if_pos hk, hk]
        constructor
        · intro hi
          cases hi
          exact ⟨a, by simp, rfl⟩
        · rintro ⟨b, hb, hkey⟩
          split at hb
          · exact absurd hkey (hnew b (List.mem_of_getElem? hb))
          · rename_i hi
            have hi' : i - groups.result.length = 0 := by
              by_contra hne
              rw [List.getElem?_eq_none (by simp; omega)] at hb
              cases hb
            exact congrArg some (by omega)
      · rw [if_neg hk, h.indexed]
        constructor
        · rintro ⟨b, hb, hkey⟩
          have hlt := (List.getElem?_eq_some_iff.mp hb).1
          exact ⟨b, by rw [if_pos hlt]; exact hb, hkey⟩
        · rintro ⟨b, hb, hkey⟩
          split at hb
          · exact ⟨b, hb, hkey⟩
          · have := List.mem_of_getElem? hb
            rw [List.mem_singleton.mp this] at hkey
            exact absurd hkey.symm hk
    · rcases List.mem_append.mp hb with hb | hb
      · obtain ⟨first, rest, hfilter, hmerged⟩ := h.merged b hb
        refine ⟨first, rest, ?_, hmerged⟩
        rw [filter_snoc, hfilter, if_neg (hnew b hb).symm, List.append_nil]
      · rw [List.mem_singleton.mp hb]
        exact ⟨a, [], by rw [filter_snoc, hnone, if_pos rfl]; rfl, rfl⟩
    · rcases List.mem_append.mp hb with hb | hb
      · obtain ⟨c, hc, hcb⟩ := h.covers b hb
        exact ⟨c, List.mem_append_left _ hc, hcb⟩
      · rw [List.mem_singleton.mp hb]
        exact ⟨a, List.mem_append_right _ (List.mem_singleton_self a), rfl⟩

theorem Groups.Of.foldl (hmerge : ∀ a b, key (merge a b) = key a) : ∀ (more : List α) {groups : Groups α κ} {items : List α},
    groups.Of key merge items → (more.foldl (Groups.add key merge) groups).Of key merge (items ++ more)
  | [], _, items, h => by rwa [List.append_nil]
  | a :: more, _, items, h => by
    have hrest := Groups.Of.foldl hmerge more (h.add hmerge a)
    rwa [List.append_assoc] at hrest

theorem group_of (hmerge : ∀ a b, key (merge a b) = key a) (items : List α) :
    (items.foldl (Groups.add key merge) .empty).Of key merge items := Groups.Of.empty.foldl hmerge items

/-! ## Nothing is lost -/

variable {M : Type} [AddCommMonoid M] {f : α → M}

theorem sum_modify (hf : ∀ a b, f (merge a b) = f a + f b) (a : α) : ∀ {l : List α} {idx : Nat} {b : α}, l[idx]? = some b →
    ((l.modify idx fun existing => merge existing a).map f).sum = (l.map f).sum + f a
  | [], _, _, h => by cases h
  | c :: l, 0, _, _ => by
    rw [List.modify_zero_cons, List.map_cons, List.sum_cons, hf, List.map_cons, List.sum_cons, add_right_comm]
  | c :: l, idx + 1, b, h => by
    have htail : l[idx]? = some b := h
    rw [List.modify_succ_cons, List.map_cons, List.sum_cons, sum_modify hf a htail, List.map_cons, List.sum_cons, add_assoc]

theorem Groups.Of.sum_add (h : groups.Of key merge items) (hf : ∀ a b, f (merge a b) = f a + f b) (a : α) :
    ((groups.add key merge a).result.map f).sum = (groups.result.map f).sum + f a := by
  unfold Groups.add
  cases hget : groups.keyToIdx.get? (key a) with
  | some idx =>
    obtain ⟨existing, hexisting, -⟩ := (h.indexed _ _).mp hget
    exact sum_modify hf a hexisting
  | none => simp

theorem Groups.Of.sum_foldl (hmerge : ∀ a b, key (merge a b) = key a) (hf : ∀ a b, f (merge a b) = f a + f b) :
    ∀ (more : List α) {groups : Groups α κ} {items : List α}, groups.Of key merge items →
      ((more.foldl (Groups.add key merge) groups).result.map f).sum = (groups.result.map f).sum + (more.map f).sum
  | [], _, _, _ => (add_zero _).symm
  | a :: more, _, _, h => by
    rw [List.foldl_cons, Groups.Of.sum_foldl hmerge hf more (h.add hmerge a), h.sum_add hf a, List.map_cons, List.sum_cons, add_assoc]

/-- What merging adds up is the same over the groups and over the items. -/
theorem sum_group (hmerge : ∀ a b, key (merge a b) = key a) (hf : ∀ a b, f (merge a b) = f a + f b) (items : List α) :
    ((group key merge items).map f).sum = (items.map f).sum := by
  unfold group
  rw [Groups.Of.empty.sum_foldl hmerge hf]
  exact zero_add _

section
variable {size : α → Nat}

theorem sum_modify_le (hsize : ∀ a b, size (merge a b) ≤ size a + size b) (a : α) : ∀ (l : List α) (idx : Nat),
    ((l.modify idx fun existing => merge existing a).map size).sum ≤ (l.map size).sum + size a
  | [], _ => by simp
  | c :: l, 0 => by
    have := hsize c a
    rw [List.modify_zero_cons, List.map_cons, List.sum_cons, List.map_cons, List.sum_cons]
    omega
  | c :: l, idx + 1 => by
    have := sum_modify_le hsize a l idx
    rw [List.modify_succ_cons, List.map_cons, List.sum_cons, List.map_cons, List.sum_cons]
    omega

/-- Where merging may lose by overflow, it at least adds nothing. -/
theorem sum_foldl_le (hsize : ∀ a b, size (merge a b) ≤ size a + size b) : ∀ (more : List α) (groups : Groups α κ),
    ((more.foldl (Groups.add key merge) groups).result.map size).sum ≤ (groups.result.map size).sum + (more.map size).sum
  | [], _ => Nat.le_refl _
  | a :: more, groups => by
    have hrest := sum_foldl_le hsize more (groups.add key merge a)
    have hstep : ((groups.add key merge a).result.map size).sum ≤ (groups.result.map size).sum + size a := by
      unfold Groups.add
      split
      · exact sum_modify_le hsize a _ _
      · simp
    rw [List.foldl_cons, List.map_cons, List.sum_cons]
    omega

theorem sum_group_le (hsize : ∀ a b, size (merge a b) ≤ size a + size b) (items : List α) :
    ((group key merge items).map size).sum ≤ (items.map size).sum := by
  have h : ((items.foldl (Groups.add key merge) .empty).result.map size).sum ≤ _ := sum_foldl_le hsize items .empty
  exact h.trans (Nat.le_of_eq (Nat.zero_add _))

end

/-- What merging appends is, in a group, that of its items in order. -/
theorem foldl_merge_append {β : Type} {g : α → List β} (hg : ∀ a b, g (merge a b) = g a ++ g b) : ∀ (rest : List α) (first : α),
    g (rest.foldl merge first) = (first :: rest).flatMap g
  | [], first => by simp
  | a :: rest, first => by
    rw [List.foldl_cons, foldl_merge_append hg rest, List.flatMap_cons, hg, List.append_assoc]; rfl

theorem foldl_merge_keeps {β : Type} {g : α → β} (hg : ∀ a b, g (merge a b) = g a) : ∀ (rest : List α) (first : α),
    g (rest.foldl merge first) = g first
  | [], _ => rfl
  | a :: rest, first => (foldl_merge_keeps hg rest (merge first a)).trans (hg first a)

end Grouped
