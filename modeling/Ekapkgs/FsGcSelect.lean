import Ekapkgs.FsGc
import Ekapkgs.Lib.Graphs

/-!
# What a collection of the cache directory chooses

`Chosen` is what every step of the two loops keeps: the chosen paths are closed
under referrers. Each sweep but the last chooses another path, and in an acyclic
graph a sweep that chooses none has nothing left.
-/

namespace Ekapkgs
open Keyed Graphs

/-! ## The bytes of a set of paths -/

def freedBy (entries : List PathEntry) (evictSet : List String) : Nat :=
  ((entries.filter fun e => evictSet.contains e.hash).map PathEntry.size).sum

variable {entries : List PathEntry} {refs : List (String × String)} {toFree : Nat}

theorem freedBy_nil (entries : List PathEntry) : freedBy entries [] = 0 := by
  simp [freedBy]

theorem freedBy_of_not_mem : ∀ {entries : List PathEntry} {h : String} (evictSet : List String),
    h ∉ entries.map PathEntry.hash → freedBy entries (h :: evictSet) = freedBy entries evictSet := by
  intro entries h evictSet hh
  unfold freedBy
  congr 2
  refine List.filter_congr fun e he => ?_
  have hne : e.hash ≠ h := fun heq => hh (heq ▸ List.mem_map_of_mem he)
  simp [hne]

/-- Another path adds its size. -/
theorem freedBy_cons {entry : PathEntry} {evictSet : List String} : ∀ {entries : List PathEntry},
    (entries.map PathEntry.hash).Nodup → entry ∈ entries → entry.hash ∉ evictSet →
      freedBy entries (entry.hash :: evictSet) = freedBy entries evictSet + entry.size
  | [], _, hmem, _ => nomatch hmem
  | e :: entries, hnodup, hmem, hnew => by
    rw [List.map_cons, List.nodup_cons] at hnodup
    have hsplit : ∀ s, freedBy (e :: entries) s = (if s.contains e.hash then e.size else 0) + freedBy entries s := by
      intro s
      unfold freedBy
      by_cases hs : e.hash ∈ s <;> simp [hs]
    rw [hsplit, hsplit]
    rcases List.mem_cons.mp hmem with rfl | hmem
    · rw [freedBy_of_not_mem _ hnodup.1]
      simp [hnew, Nat.add_comm]
    · have hne : e.hash ≠ entry.hash := fun heq => hnodup.1 (heq ▸ List.mem_map_of_mem hmem)
      rw [freedBy_cons hnodup.2 hmem hnew]
      simp [hne, Nat.add_assoc]

theorem freedBy_le (entries : List PathEntry) (evictSet : List String) :
    freedBy entries evictSet ≤ (entries.map PathEntry.size).sum :=
  (List.filter_sublist.map _).sum_le_sum fun _ _ => Nat.zero_le _

/-! ## The invariant -/

theorem mem_referencedBy {r h : String} : r ∈ referencedBy entries refs h ↔ r ∈ entries.map PathEntry.hash ∧ (r, h) ∈ refs := by
  unfold referencedBy
  simp only [List.mem_map, List.mem_filter, Bool.and_eq_true, List.contains_iff_mem, decide_eq_true_eq]
  constructor
  · rintro ⟨⟨r', h'⟩, ⟨hrefs, hknown, rfl⟩, rfl⟩
    exact ⟨hknown, hrefs⟩
  · rintro ⟨hknown, hrefs⟩
    exact ⟨(r, h), ⟨hrefs, hknown, rfl⟩, rfl⟩

theorem pinned_iff {evictSet : List String} {h : String} : pinned entries refs evictSet h = true ↔
    ∃ r ∈ entries.map PathEntry.hash, (r, h) ∈ refs ∧ r ≠ h ∧ r ∉ evictSet := by
  unfold pinned
  simp only [List.any_eq_true, mem_referencedBy, Bool.and_eq_true, decide_eq_true_eq, Bool.not_eq_true', List.contains_eq_mem, decide_eq_false_iff_not]
  constructor
  · rintro ⟨r, ⟨hknown, hrefs⟩, ⟨hne, -⟩, hkept⟩
    exact ⟨r, hknown, hrefs, hne, hkept⟩
  · rintro ⟨r, hknown, hrefs, hne, hkept⟩
    exact ⟨r, ⟨hknown, hrefs⟩, ⟨hne, hknown⟩, hkept⟩

structure Chosen (entries : List PathEntry) (refs : List (String × String)) (toFree : Nat) (sel : Selection) : Prop where
  known : ∀ h ∈ sel.evictSet, h ∈ entries.map PathEntry.hash
  once : sel.evictSet.Nodup
  closed : ∀ h ∈ sel.evictSet, ∀ r ∈ entries.map PathEntry.hash, (r, h) ∈ refs → r ≠ h → r ∈ sel.evictSet
  freed : sel.freed = freedBy entries sel.evictSet % 2 ^ 64
  last : ∀ h rest, sel.evictSet = h :: rest → freedBy entries rest % 2 ^ 64 < toFree

theorem chosen_none : Chosen entries refs toFree .none :=
  ⟨nofun, List.nodup_nil, nofun, (congrArg (· % 2 ^ 64) (freedBy_nil entries)).symm, nofun⟩

theorem Chosen.evict {sel : Selection} (hnodup : (entries.map PathEntry.hash).Nodup) (h : Chosen entries refs toFree sel)
    {entry : PathEntry} (hmem : entry ∈ entries) (hnew : entry.hash ∉ sel.evictSet)
    (hfree : pinned entries refs sel.evictSet entry.hash = false) (hshort : sel.freed < toFree) :
    Chosen entries refs toFree (sel.evict entry) where
  known := List.forall_mem_cons.mpr ⟨List.mem_map_of_mem hmem, h.known⟩
  once := List.nodup_cons.mpr ⟨hnew, h.once⟩
  closed := by
    intro g hg r hr href hne
    rcases List.mem_cons.mp hg with rfl | hg
    · by_cases hkept : r ∈ sel.evictSet
      · exact List.mem_cons_of_mem _ hkept
      · rw [pinned_iff.mpr ⟨r, hr, href, hne, hkept⟩] at hfree; cases hfree
    · exact List.mem_cons_of_mem _ (h.closed g hg r hr href hne)
  freed := by
    simp only [Selection.evict]
    rw [freedBy_cons hnodup hmem hnew, h.freed, Nat.mod_add_mod]
  last := by
    rintro g rest heq
    cases heq
    rw [← h.freed]; exact hshort

/-! ## A sweep -/

theorem sweep_chosen (hnodup : (entries.map PathEntry.hash).Nodup) (rest : List PathEntry) (sel : Selection) (any : Bool)
    (hrest : ∀ e ∈ rest, e ∈ entries) (h : Chosen entries refs toFree sel) (hshort : sel.freed < toFree) :
    Chosen entries refs toFree (sweep entries refs toFree rest sel any).1 := by
  fun_induction sweep entries refs toFree rest sel any with
  | case1 => exact h
  | case2 sel any entry rest hin ih => exact ih (fun e he => hrest e (List.mem_cons_of_mem _ he)) h hshort
  | case3 sel any entry rest hin hpin ih => exact ih (fun e he => hrest e (List.mem_cons_of_mem _ he)) h hshort
  | case4 sel any entry rest hin hpin hreached =>
    exact h.evict hnodup (hrest _ List.mem_cons_self) (by simpa using hin) (by simpa using hpin) hshort
  | case5 sel any entry rest hin hpin hmore ih =>
    refine ih (fun e he => hrest e (List.mem_cons_of_mem _ he)) ?_ (Nat.lt_of_not_le hmore)
    exact h.evict hnodup (hrest _ List.mem_cons_self) (by simpa using hin) (by simpa using hpin) hshort

theorem sweep_length (rest : List PathEntry) (sel : Selection) (any : Bool) :
    sel.evictSet.length ≤ (sweep entries refs toFree rest sel any).1.evictSet.length := by
  fun_induction sweep entries refs toFree rest sel any with
  | case1 => exact Nat.le_refl _
  | case2 sel any entry rest hin ih => exact ih
  | case3 sel any entry rest hin hpin ih => exact ih
  | case4 sel any entry rest hin hpin hreached => exact Nat.le_succ _
  | case5 sel any entry rest hin hpin hmore ih => exact (Nat.le_succ _).trans ih

/-- A sweep that says so has chosen another path. -/
theorem sweep_grows (rest : List PathEntry) (sel : Selection)
    (hany : (sweep entries refs toFree rest sel false).2 = true) :
    sel.evictSet.length < (sweep entries refs toFree rest sel false).1.evictSet.length := by
  induction rest with
  | nil => cases hany
  | cons entry rest ih =>
    unfold sweep at hany ⊢
    split_ifs at hany ⊢ with hin hpin hreached
    · exact ih hany
    · exact ih hany
    · exact Nat.lt_succ_self _
    · exact sweep_length rest (sel.evict entry) true

/-- One that has not has found every other path pinned. -/
theorem sweep_pinned (rest : List PathEntry) (sel : Selection) (any : Bool)
    (hany : (sweep entries refs toFree rest sel any).2 = false) : any = false ∧
      (sweep entries refs toFree rest sel any).1 = sel ∧
      ∀ e ∈ rest, e.hash ∉ sel.evictSet → pinned entries refs sel.evictSet e.hash = true := by
  fun_induction sweep entries refs toFree rest sel any with
  | case1 sel any => exact ⟨hany, rfl, nofun⟩
  | case2 sel any entry rest hin ih =>
    obtain ⟨h₁, h₂, h₃⟩ := ih hany
    exact ⟨h₁, h₂, List.forall_mem_cons.mpr ⟨fun hout => absurd (by simpa using hin) hout, h₃⟩⟩
  | case3 sel any entry rest hin hpin ih =>
    obtain ⟨h₁, h₂, h₃⟩ := ih hany
    exact ⟨h₁, h₂, List.forall_mem_cons.mpr ⟨fun _ => hpin, h₃⟩⟩
  | case4 => cases hany
  | case5 sel any entry rest hin hpin hmore ih => cases (ih hany).1

/-! ## The loop -/

/-- How the outer loop ends. -/
def Ended (entries : List PathEntry) (refs : List (String × String)) (toFree : Nat) (sel : Selection) : Prop :=
  toFree ≤ sel.freed ∨ ∀ e ∈ entries, e.hash ∉ sel.evictSet → pinned entries refs sel.evictSet e.hash = true

theorem Chosen.length_le {sel : Selection} (h : Chosen entries refs toFree sel) : sel.evictSet.length ≤ entries.length := by
  have hsub : sel.evictSet ⊆ entries.map PathEntry.hash := h.known
  have := (h.once.subperm hsub).length_le
  rwa [List.length_map] at this

theorem selectLoop_ends (hnodup : (entries.map PathEntry.hash).Nodup) : ∀ (fuel : Nat) (sel : Selection),
    Chosen entries refs toFree sel → entries.length < fuel + sel.evictSet.length →
      ∃ sel', selectLoop entries refs toFree fuel sel = some sel' ∧ Chosen entries refs toFree sel' ∧
        Ended entries refs toFree sel'
  | 0, sel, h, hfuel => by have := h.length_le; omega
  | fuel + 1, sel, h, hfuel => by
    unfold selectLoop
    by_cases hreached : toFree ≤ sel.freed
    · rw [if_pos hreached]; exact ⟨sel, rfl, h, .inl hreached⟩
    rw [if_neg hreached]
    dsimp only
    have hchosen : Chosen entries refs toFree (sweep entries refs toFree entries sel false).1 :=
      sweep_chosen hnodup entries sel false (fun _ he => he) h (Nat.lt_of_not_le hreached)
    cases hany : (sweep entries refs toFree entries sel false).2 with
    | true =>
      have hgrows := sweep_grows entries sel hany
      rw [if_pos rfl]
      exact selectLoop_ends hnodup fuel _ hchosen (by omega)
    | false =>
      obtain ⟨-, hsame, hpinned⟩ := sweep_pinned entries sel false hany
      rw [if_neg Bool.false_ne_true]
      refine ⟨_, rfl, hchosen, .inr ?_⟩
      rw [hsame]; exact hpinned

/-! ## The tables -/

namespace GcDb
variable (db : GcDb)

theorem pathEntries_perm : db.pathEntries.Perm
    (db.storePaths.rows.map fun r => ⟨r.1, r.2.narUrl, r.2.fileSize + r.2.narinfoSize⟩) :=
  (List.perm_insertionSort _ _).map _

theorem pathEntries_hashes : (db.pathEntries.map PathEntry.hash).Perm (db.storePaths.rows.map Prod.fst) := by
  have := db.pathEntries_perm.map PathEntry.hash
  rwa [List.map_map] at this

theorem pathEntries_nodup : (db.pathEntries.map PathEntry.hash).Nodup :=
  db.pathEntries_hashes.nodup_iff.mpr db.storePaths.nodup

theorem mem_pathEntries {h : String} : h ∈ db.pathEntries.map PathEntry.hash ↔ ∃ row, db.storePaths.get? h = some row := by
  rw [db.pathEntries_hashes.mem_iff, Table.mem_keys_iff]

theorem mem_refs {r h : String} : (r, h) ∈ db.refs.rows.map Prod.fst ↔ db.refs.get? (r, h) = some () := by
  rw [Table.mem_keys_iff]
  exact ⟨fun ⟨_, h⟩ => h, fun h => ⟨(), h⟩⟩

/-- The size of all paths of a set. -/
def sizeOf (hashes : List String) : Nat := freedBy db.pathEntries hashes

def size (row : StorePathRow) : Nat := row.fileSize + row.narinfoSize

theorem pathEntries_size : (db.pathEntries.map PathEntry.size).sum = db.storePaths.total size := by
  rw [(db.pathEntries_perm.map PathEntry.size).sum_eq, List.map_map]
  rfl

/-- The selection always ends. -/
theorem select_ends (toFree : Nat) : ∃ sel, db.select toFree = some sel ∧
    Chosen db.pathEntries (db.refs.rows.map Prod.fst) toFree sel ∧
      Ended db.pathEntries (db.refs.rows.map Prod.fst) toFree sel :=
  selectLoop_ends db.pathEntries_nodup _ _ chosen_none (by simp [Selection.none])

end GcDb

/-! ## Two paths -/

/-- The older path is referred to by the newer one and, like it, by itself. -/
def twoPaths : GcDb where
  storePaths := (Table.empty.insertOrIgnore "lib" ⟨"/nix/store/lib-x", "nar/lib.nar", 40, 2, 0, 0⟩).insertOrIgnore "app"
    ⟨"/nix/store/app-x", "nar/app.nar", 10, 2, 3600, 0⟩
  refs := ((Table.empty.insertOrIgnore ("lib", "lib") ()).insertOrIgnore ("app", "lib") ()).insertOrIgnore ("app", "app") ()

theorem twoPaths_refs {r h : String} (href : twoPaths.refs.get? (r, h) = some ()) (hne : r ≠ h) : r = "app" ∧ h = "lib" := by
  have hmem := Table.get?_eq_some.mp href
  have hrows : twoPaths.refs.rows = [(("lib", "lib"), ()), (("app", "lib"), ()), (("app", "app"), ())] := by decide
  rw [hrows] at hmem
  simp only [List.mem_cons, Prod.mk.injEq, List.not_mem_nil, or_false, and_true] at hmem
  rcases hmem with ⟨rfl, rfl⟩ | h | ⟨rfl, rfl⟩
  · exact absurd rfl hne
  · exact h
  · exact absurd rfl hne

example : twoPaths.select 20 = some ⟨["lib", "app"], 54⟩ := by decide

end Ekapkgs
