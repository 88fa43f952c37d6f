import Ekapkgs.Lib.Keyed

/-!
# The soname index

`soname_index.rs`: the preferred entry for each soname, and the sonames in order.
`cmd_mount` in `fuse.rs` numbers them: inode 1 is the root.
-/

namespace Ekapkgs
open Keyed

structure SonameEntry where
  soname : String
  package : String
  storePath : String
  filePath : String
  priority : Option Int32
  deriving DecidableEq

def SonameEntry.pri (entry : SonameEntry) : Int := (entry.priority.getD Int32.maxValue).toInt

structure SonameIndex where
  entries : Table String SonameEntry
  allSonames : List String

def addSoname (entries : Table String SonameEntry) (entry : SonameEntry) : Table String SonameEntry :=
  match entries.get? entry.soname with
  | some existing => if entry.pri < existing.pri then entries.insertOrReplace entry.soname entry else entries
  | none => entries.insertOrReplace entry.soname entry

def SonameIndex.fromEntries (raw : List SonameEntry) : SonameIndex :=
  let entries := raw.foldl addSoname .empty
  { entries, allSonames := (entries.rows.map Prod.fst).insertionSort (· ≤ ·) }

def SonameIndex.lookup (index : SonameIndex) (soname : String) : Option SonameEntry := index.entries.get? soname

/-! ## Inodes -/

def ROOT_INO : Nat := 1

def inodeTable {κ ρ : Type} [DecidableEq κ] (rows : List (κ × ρ)) : Table κ ρ := rows.foldl (fun t r => t.insertOrReplace r.1 r.2) .empty

def SonameIndex.sonameToIno (index : SonameIndex) : Table String Nat := inodeTable (index.allSonames.mapIdx fun i soname => (soname, i + 2))

def SonameIndex.inoToSoname (index : SonameIndex) : Table Nat String := inodeTable (index.allSonames.mapIdx fun i soname => (i + 2, soname))

/-! ## The preferred entry -/

/-- The first entry for the soname of those with the least priority. -/
def Preferred (raw : List SonameEntry) (soname : String) (entry : SonameEntry) : Prop :=
  ∃ before after, raw = before ++ entry :: after ∧ entry.soname = soname ∧
    (∀ e ∈ before, e.soname = soname → entry.pri < e.pri) ∧ ∀ e ∈ after, e.soname = soname → entry.pri ≤ e.pri

variable {raw : List SonameEntry} {soname : String} {entry : SonameEntry}

theorem Preferred.append (h : Preferred raw soname entry) {e : SonameEntry} (he : e.soname = soname → entry.pri ≤ e.pri) :
    Preferred (raw ++ [e]) soname entry := by
  obtain ⟨before, after, rfl, hsoname, hbefore, hafter⟩ := h
  refine ⟨before, after ++ [e], by simp, hsoname, hbefore, fun e' hmem hsoname' => ?_⟩
  rcases List.mem_append.mp hmem with hmem | hmem
  · exact hafter e' hmem hsoname'
  · rw [List.mem_singleton.mp hmem] at hsoname' ⊢
    exact he hsoname'

theorem Preferred.le (h : Preferred raw soname entry) {e : SonameEntry} (hmem : e ∈ raw) (he : e.soname = soname) : entry.pri ≤ e.pri := by
  obtain ⟨before, after, rfl, -, hbefore, hafter⟩ := h
  rcases List.mem_append.mp hmem with hmem | hmem
  · exact Int.le_of_lt (hbefore e hmem he)
  rcases List.mem_cons.mp hmem with rfl | hmem
  · exact Int.le_refl _
  · exact hafter e hmem he

theorem preferred_new {e : SonameEntry} (h : ∀ e' ∈ raw, e'.soname = e.soname → e.pri < e'.pri) : Preferred (raw ++ [e]) e.soname e :=
  ⟨raw, [], rfl, rfl, h, nofun⟩

/-- The table has the preferred entry of each soname so far. -/
structure Best (raw : List SonameEntry) (entries : Table String SonameEntry) : Prop where
  preferred : ∀ soname entry, entries.get? soname = some entry → Preferred raw soname entry
  missing : ∀ soname, entries.get? soname = none → ∀ e ∈ raw, e.soname ≠ soname

theorem Best.addSoname {entries : Table String SonameEntry} (h : Best raw entries) (e : SonameEntry) :
    Best (raw ++ [e]) (addSoname entries e) := by
  have hother : ∀ {soname entry}, soname ≠ e.soname → entries.get? soname = some entry → Preferred (raw ++ [e]) soname entry :=
    fun hne hget => (h.preferred _ _ hget).append fun heq => absurd heq.symm hne
  have hnone : ∀ {soname}, soname ≠ e.soname → entries.get? soname = none → ∀ e' ∈ raw ++ [e], e'.soname ≠ soname := by
    intro soname hne hget e' hmem
    rcases List.mem_append.mp hmem with hmem | hmem
    · exact h.missing soname hget e' hmem
    · rw [List.mem_singleton.mp hmem]
      exact hne.symm
  -- the entry is put in when it comes before the existing one
  have hinsert : (∀ e' ∈ raw, e'.soname = e.soname → e.pri < e'.pri) → Best (raw ++ [e]) (entries.insertOrReplace e.soname e) := by
    intro hfirst
    refine ⟨fun soname entry hget => ?_, fun soname hget => ?_⟩
    all_goals
      rw [Table.get?_insertOrReplace] at hget
      split at hget
    · next heq =>
      cases hget
      rw [heq]
      exact preferred_new hfirst
    · next hne => exact hother hne hget
    · cases hget
    · next hne => exact hnone hne hget
  unfold Ekapkgs.addSoname
  cases hget : entries.get? e.soname with
  | none => exact hinsert fun e' hmem heq => absurd heq (h.missing _ hget e' hmem)
  | some existing =>
    dsimp only
    split
    next hlt => exact hinsert fun e' hmem heq => Int.lt_of_lt_of_le hlt ((h.preferred _ _ hget).le hmem heq)
    next hle =>
      refine ⟨fun soname entry hget' => ?_, fun soname hget' => ?_⟩
      · by_cases heq : soname = e.soname
        · rw [heq, hget] at hget'
          cases hget'
          rw [heq]
          exact (h.preferred _ _ hget).append fun _ => Int.not_lt.mp hle
        · exact hother heq hget'
      · by_cases heq : soname = e.soname
        · rw [heq, hget] at hget'
          cases hget'
        · exact hnone heq hget'

theorem best_foldl : ∀ {more raw : List SonameEntry} {entries : Table String SonameEntry}, Best raw entries →
    Best (raw ++ more) (more.foldl addSoname entries)
  | [], raw, _, h => by rwa [List.append_nil]
  | e :: more, raw, _, h => by
    have hrest : Best (raw ++ [e] ++ more) ((e :: more).foldl addSoname _) := best_foldl (h.addSoname e)
    rwa [List.append_assoc] at hrest

theorem best_fromEntries (raw : List SonameEntry) : Best raw (SonameIndex.fromEntries raw).entries := by
  have hempty : Best [] .empty := by
    refine ⟨fun _ _ h => ?_, fun _ _ _ h => ?_⟩
    · cases h
    · cases h
  exact best_foldl hempty

theorem Preferred.unique {entry' : SonameEntry} (h : Preferred raw soname entry) (h' : Preferred raw soname entry') : entry = entry' := by
  obtain ⟨before, after, rfl, hsoname, hbefore, hafter⟩ := h
  obtain ⟨before', after', heq, hsoname', hbefore', hafter'⟩ := h'
  rcases List.append_eq_append_iff.mp heq with ⟨mid, hb, hrest⟩ | ⟨mid, hb, hrest⟩
  · cases mid with
    | nil => cases hrest; rfl
    | cons e mid =>
      cases hrest
      have hlt := hbefore' entry (by rw [hb]; simp) hsoname
      exact absurd (hafter entry' (by simp) hsoname') (Int.not_le.mpr hlt)
  · cases mid with
    | nil => cases hrest; rfl
    | cons e mid =>
      cases hrest
      have hlt := hbefore entry' (by rw [hb]; simp) hsoname'
      exact absurd (hafter' entry (by simp) hsoname) (Int.not_le.mpr hlt)

theorem lookup_eq_some_iff : (SonameIndex.fromEntries raw).lookup soname = some entry ↔ Preferred raw soname entry := by
  have hbest := best_fromEntries raw
  refine ⟨fun h => hbest.preferred _ _ h, fun h => ?_⟩
  unfold SonameIndex.lookup
  cases hget : (SonameIndex.fromEntries raw).entries.get? soname with
  | some entry' => rw [(hbest.preferred _ _ hget).unique h]
  | none =>
    obtain ⟨before, after, rfl, hsoname, -⟩ := h
    exact absurd hsoname (hbest.missing _ hget entry (by simp))

/-! ## The sonames -/

theorem nodup_allSonames (raw : List SonameEntry) : (SonameIndex.fromEntries raw).allSonames.Nodup :=
  (List.perm_insertionSort _ _).nodup_iff.mpr (SonameIndex.fromEntries raw).entries.nodup

theorem mem_allSonames : soname ∈ (SonameIndex.fromEntries raw).allSonames ↔ ∃ e ∈ raw, e.soname = soname := by
  have hbest := best_fromEntries raw
  have hmem : soname ∈ (SonameIndex.fromEntries raw).allSonames ↔ ∃ entry, (SonameIndex.fromEntries raw).entries.get? soname = some entry :=
    (List.mem_insertionSort _).trans Table.mem_keys_iff
  rw [hmem]
  constructor
  · rintro ⟨entry, hget⟩
    obtain ⟨before, after, rfl, hsoname, -⟩ := hbest.preferred _ _ hget
    exact ⟨entry, by simp, hsoname⟩
  · rintro ⟨e, he, hsoname⟩
    cases hget : (SonameIndex.fromEntries raw).entries.get? soname with
    | some entry => exact ⟨entry, rfl⟩
    | none => exact absurd hsoname (hbest.missing _ hget e he)

/-! ## The numbers -/

theorem get?_foldl_insert {κ ρ : Type} [DecidableEq κ] {k : κ} {v : ρ} : ∀ {rows : List (κ × ρ)} {t : Table κ ρ}, (rows.map Prod.fst).Nodup →
    ((rows.foldl (fun t r => t.insertOrReplace r.1 r.2) t).get? k = some v ↔
      (k, v) ∈ rows ∨ k ∉ rows.map Prod.fst ∧ t.get? k = some v)
  | [], t, _ => by simp
  | r :: rows, t, h => by
    obtain ⟨hr, hrows⟩ := List.nodup_cons.mp h
    rw [List.foldl_cons, get?_foldl_insert hrows, Table.get?_insertOrReplace, List.mem_cons, List.map_cons, List.mem_cons]
    by_cases hk : k = r.1
    · have hnot : (k, v) ∉ rows := fun hmem => hr (hk ▸ List.mem_map_of_mem (f := Prod.fst) hmem)
      rw [if_pos hk, Option.some.injEq]
      constructor
      · rintro (hmem | ⟨-, hv⟩)
        · exact absurd hmem hnot
        · exact .inl (.inl (Prod.ext hk hv.symm))
      · rintro ((heq | hmem) | ⟨hne, -⟩)
        · refine .inr ⟨hk ▸ hr, ?_⟩
          rw [← heq]
        · exact absurd hmem hnot
        · exact absurd (.inl hk) hne
    · rw [if_neg hk]
      constructor
      · rintro (hmem | ⟨hnot, hv⟩)
        · exact .inl (.inr hmem)
        · exact .inr ⟨fun hor => hor.elim hk hnot, hv⟩
      · rintro ((heq | hmem) | ⟨hne, hv⟩)
        · exact absurd (congrArg Prod.fst heq) hk
        · exact .inl hmem
        · exact .inr ⟨fun hmem => hne (.inr hmem), hv⟩

theorem get?_inodeTable {κ ρ : Type} [DecidableEq κ] {k : κ} {v : ρ} {rows : List (κ × ρ)} (h : (rows.map Prod.fst).Nodup) :
    (inodeTable rows).get? k = some v ↔ (k, v) ∈ rows := by
  have hempty : (.empty : Table κ ρ).get? k ≠ some v := fun hget => by cases hget
  unfold inodeTable
  rw [get?_foldl_insert h]
  exact ⟨fun hor => hor.elim id fun hr => absurd hr.2 hempty, .inl⟩

theorem mem_mapIdx_iff {κ : Type} {names : List String} {f : Nat → String → κ} {b : κ} :
    b ∈ names.mapIdx f ↔ ∃ i name, names[i]? = some name ∧ b = f i name := by
  rw [List.mem_mapIdx]
  constructor
  · rintro ⟨i, hi, rfl⟩
    exact ⟨i, _, List.getElem?_eq_getElem hi, rfl⟩
  · rintro ⟨i, name, hget, rfl⟩
    obtain ⟨hi, rfl⟩ := List.getElem?_eq_some_iff.mp hget
    exact ⟨i, hi, rfl⟩

/-- The `i`-th soname has inode `i + 2`. -/
theorem sonameToIno_iff {ino : Nat} : (SonameIndex.fromEntries raw).sonameToIno.get? soname = some ino ↔
    ∃ i, (SonameIndex.fromEntries raw).allSonames[i]? = some soname ∧ ino = i + 2 := by
  have hkeys : ((SonameIndex.fromEntries raw).allSonames.mapIdx fun i soname => (soname, i + 2)).map Prod.fst =
      (SonameIndex.fromEntries raw).allSonames := by
    refine List.ext_getElem? fun i => ?_
    rw [List.getElem?_map, List.getElem?_mapIdx, Option.map_map]
    exact Option.map_id'
  unfold SonameIndex.sonameToIno
  rw [get?_inodeTable (by rw [hkeys]; exact nodup_allSonames raw), mem_mapIdx_iff]
  constructor
  · rintro ⟨i, name, hget, heq⟩
    cases heq
    exact ⟨i, hget, rfl⟩
  · rintro ⟨i, hget, rfl⟩
    exact ⟨i, soname, hget, rfl⟩

theorem inoToSoname_iff {ino : Nat} : (SonameIndex.fromEntries raw).inoToSoname.get? ino = some soname ↔
    ∃ i, (SonameIndex.fromEntries raw).allSonames[i]? = some soname ∧ ino = i + 2 := by
  have hkeys : ((SonameIndex.fromEntries raw).allSonames.mapIdx fun i soname => (i + 2, soname)).map Prod.fst =
      (List.range (SonameIndex.fromEntries raw).allSonames.length).map (· + 2) := by
    refine List.ext_getElem (by simp) fun i hi hi' => ?_
    simp
  have hnodup : ((List.range (SonameIndex.fromEntries raw).allSonames.length).map (· + 2)).Nodup :=
    List.nodup_range.map fun _ _ h => Nat.add_right_cancel h
  unfold SonameIndex.inoToSoname
  rw [get?_inodeTable (by rw [hkeys]; exact hnodup), mem_mapIdx_iff]
  constructor
  · rintro ⟨i, name, hget, heq⟩
    cases heq
    exact ⟨i, hget, rfl⟩
  · rintro ⟨i, hget, rfl⟩
    exact ⟨i, soname, hget, rfl⟩

end Ekapkgs
