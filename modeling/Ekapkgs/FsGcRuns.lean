import Ekapkgs.FsGcSelect
import Ekapkgs.Upload
import Ekapkgs.Lib.Runs

/-!
# Runs of a server over a cache directory

A collection deletes what no path in its tables refers to. Uploads write files
and leave the tables alone, so a narinfo that was uploaded after the last scan
keeps nothing alive.
-/

namespace Ekapkgs
open Keyed Runs

/-- A collection: the tables and files it found, and the files it left. -/
structure Collection where
  db : GcDb
  before : Disk
  after : Disk

structure FsServer where
  db : GcDb
  disk : Disk
  collections : List Collection

inductive FsOp where
  | initialScan (now : Nat)
  | putNarinfo (hash : String) (body : Bytes)
  | putNar (file : String) (body : Bytes)
  | flushAccesses (now : Nat) (hashes : List String)
  | runGc (currentSize targetSize : Nat)

variable (sign : String → String)

/-- A refused upload changes nothing. -/
def fsNext (s : FsServer) : FsOp → Option FsServer
  | .initialScan now => some { s with db := (Ekapkgs.initialScan now (s.db, s.disk)).1 }
  | .putNarinfo hash body =>
    match acceptNarinfo sign hash body with
    | some content => some { s with disk := s.disk.insertOrReplace (narinfoName hash) (asBytes content) }
    | none => some s
  | .putNar file body =>
    match acceptNar file with
    | some path => some { s with disk := s.disk.insertOrReplace path body }
    | none => some s
  | .flushAccesses now hashes => some { s with db := Ekapkgs.flushAccesses now hashes s.db }
  | .runGc currentSize targetSize =>
    (Ekapkgs.runGc currentSize targetSize (s.db, s.disk)).map fun s' => ⟨s'.1, s'.2, ⟨s.db, s.disk, s'.2⟩ :: s.collections⟩

abbrev fsStep : FsServer → FsOp → FsServer → Prop := stepOf (fsNext sign)

def narinfoOf (disk : Disk) (p : String) : Option NarInfo :=
  ((disk.get? (narinfoName p)).bind fromUtf8).bind NarInfo.parse

/-- The narinfo file of `p` refers to another path `q`. -/
def Refers (disk : Disk) (p q : String) : Prop :=
  ∃ ni, narinfoOf disk p = some ni ∧ q ∈ ni.references.map hashPart ∧ q ≠ p

/-- The narinfo of a path, and its NAR as the narinfo and the tables name it. -/
def filesOf (db : GcDb) (disk : Disk) (q : String) : List String :=
  narinfoName q :: ((narinfoOf disk q).map NarInfo.url).toList ++ ((db.storePaths.get? q).map StorePathRow.narUrl).toList

/-- The collection deleted a file of the path. -/
def Collection.lost (c : Collection) (q : String) : Bool :=
  (filesOf c.db c.before q).any fun name => c.before.contains name && !c.after.contains name

/-- No narinfo refers to a path of which a collection deleted a file. -/
def ClosedUnderRefs (s : FsServer) : Prop := ∀ p q, Refers s.disk p q → ∀ c ∈ s.collections, c.lost q = false

/-- What a narinfo refers to is, like every path that shares a file with it, in
the tables as referred to by the path of the narinfo. -/
def Mirrored (s : FsServer) : Prop :=
  ∀ p q, Refers s.disk p q → ∀ e row, s.db.storePaths.get? e = some row →
    (narinfoName e ∈ filesOf s.db s.disk q ∨ row.narUrl ∈ filesOf s.db s.disk q) → e ≠ p →
      s.db.storePaths.contains p = true ∧ s.db.refs.get? (p, e) = some ()

/-- Collections find the references of all files in the tables, and uploads do
not refer to what was deleted. -/
def FsOk (s : FsServer) : FsOp → Prop
  | .putNarinfo hash body => ∀ content ni, acceptNarinfo sign hash body = some content → NarInfo.parse content = some ni →
    ∀ q ∈ ni.references.map hashPart, q ≠ hash → ∀ c ∈ s.collections, c.lost q = false
  | .runGc _ _ => Mirrored s
  | _ => True

/-! ## Files that a collection leaves -/

theorem narinfoName_injective {p q : String} (h : narinfoName p = narinfoName q) : p = q := by
  have := congrArg String.toList h
  simp only [narinfoName, String.toList_append] at this
  exact String.toList_injective (List.append_cancel_right this)

theorem narinfoName_ne_nar {file path p : String} (h : acceptNar file = some path) : narinfoName p ≠ path := by
  have hlast : (narinfoName p).toList.getLast? = some 'o' := by
    rw [narinfoName, String.toList_append, List.getLast?_append]
    have : ".narinfo".toList.getLast? = some 'o' := by decide
    rw [this]; rfl
  rintro rfl
  have hz : ".nar.xz".toList.getLast? = some 'z' := by decide
  have ht : ".nar.zst".toList.getLast? = some 't' := by decide
  have hr : ".nar".toList.getLast? = some 'r' := by decide
  rcases suffix_of_acceptNar h with ⟨pre, heq⟩ | ⟨pre, heq⟩ | ⟨pre, heq⟩
  · rw [← heq, List.getLast?_append, hz] at hlast; cases hlast
  · rw [← heq, List.getLast?_append, ht] at hlast; cases hlast
  · rw [← heq, List.getLast?_append, hr] at hlast; cases hlast

/-- A file that is left was there, and one that is gone was a file of an evicted path. -/
theorem evictAll_get? {name : String} {bytes : Bytes} : ∀ {toEvict : List PathEntry} {s : GcDb × Disk},
    (toEvict.foldl (fun s e => evictEntry e s) s).2.get? name = some bytes ↔
      s.2.get? name = some bytes ∧ ∀ e ∈ toEvict, name ≠ narinfoName e.hash ∧ name ≠ e.narUrl
  | [], _ => by simp
  | e :: toEvict, s => by
    rw [List.foldl_cons, evictAll_get?, List.forall_mem_cons]
    simp only [evictEntry, Table.get?_delete, Option.ite_none_left_eq_some]
    tauto

theorem contains_pathEntries {db : GcDb} {p : String} :
    db.storePaths.contains p = true ↔ p ∈ db.pathEntries.map PathEntry.hash := by
  rw [db.mem_pathEntries, Table.contains_eq_isSome, Option.isSome_iff_exists]

theorem mem_pathEntries_row {db : GcDb} {e : PathEntry} (h : e ∈ db.pathEntries) :
    ∃ row, db.storePaths.get? e.hash = some row ∧ row.narUrl = e.narUrl := by
  obtain ⟨r, hr, rfl⟩ := List.mem_map.mp (db.pathEntries_perm.mem_iff.mp h)
  exact ⟨r.2, Table.get?_eq_some.mpr hr, rfl⟩

/-- What a collection does to the files. -/
theorem runGc_get? {currentSize targetSize : Nat} {s s' : GcDb × Disk} (h : runGc currentSize targetSize s = some s') :
    ∃ evictSet : List String, (∀ g ∈ evictSet, s.1.storePaths.contains g = true) ∧
      (∀ g ∈ evictSet, ∀ r, s.1.storePaths.contains r = true → s.1.refs.get? (r, g) = some () → r ≠ g → r ∈ evictSet) ∧
      ∀ name bytes, s'.2.get? name = some bytes ↔ s.2.get? name = some bytes ∧
        ∀ g ∈ evictSet, ∀ row, s.1.storePaths.get? g = some row → name ≠ narinfoName g ∧ name ≠ row.narUrl := by
  unfold runGc at h
  by_cases hfree : currentSize - targetSize = 0
  · rw [if_pos hfree] at h
    cases h
    exact ⟨[], nofun, nofun, by simp⟩
  rw [if_neg hfree] at h
  obtain ⟨sel, hsel, hchosen, -⟩ := s.1.select_ends (currentSize - targetSize)
  rw [hsel] at h
  cases h
  refine ⟨sel.evictSet, fun g hg => contains_pathEntries.mpr (hchosen.known g hg), fun g hg r hr href hne => ?_,
    fun name bytes => evictAll_get?.trans (and_congr_right fun _ => ⟨fun hleft g hg row hrow => ?_, fun hleft e he => ?_⟩)⟩
  · exact hchosen.closed g hg r (contains_pathEntries.mp hr) (s.1.mem_refs.mpr href) hne
  · obtain ⟨e, he, rfl⟩ := List.mem_map.mp (hchosen.known g hg)
    obtain ⟨row', hrow', hurl⟩ := mem_pathEntries_row he
    cases hrow.symm.trans hrow'
    rw [hurl]
    exact hleft e (List.mem_filter.mpr ⟨he, by simpa using hg⟩)
  · obtain ⟨he, hg⟩ := List.mem_filter.mp he
    obtain ⟨row, hrow, hurl⟩ := mem_pathEntries_row he
    rw [← hurl]
    exact hleft e.hash (by simpa using hg) row hrow

theorem refers_of_get? {disk disk' : Disk} (h : ∀ name bytes, disk'.get? name = some bytes → disk.get? name = some bytes)
    {p q : String} (hrefers : Refers disk' p q) : Refers disk p q := by
  obtain ⟨ni, hni, hq⟩ := hrefers
  obtain ⟨text, htext, hparse⟩ := Option.bind_eq_some_iff.mp hni
  obtain ⟨bytes, hget, hutf8⟩ := Option.bind_eq_some_iff.mp htext
  refine ⟨ni, ?_, hq⟩
  rw [narinfoOf, h _ _ hget]
  exact Option.bind_eq_some_iff.mpr ⟨text, hutf8, hparse⟩

/-! ## One step -/

variable {sign}

theorem narinfoOf_insertOrReplace (disk : Disk) (name : String) (bytes : Bytes) (p : String) :
    narinfoOf (disk.insertOrReplace name bytes) p =
      if narinfoName p = name then (fromUtf8 bytes).bind NarInfo.parse else narinfoOf disk p := by
  unfold narinfoOf
  rw [Table.get?_insertOrReplace]
  split <;> rfl

theorem fsStep_closed {s s' : FsServer} {op : FsOp} (h : ClosedUnderRefs s) (hok : FsOk sign s op) (hstep : fsStep sign s op s') :
    ClosedUnderRefs s' := by
  cases op with
  | initialScan now => cases hstep; exact h
  | flushAccesses now hashes => cases hstep; exact h
  | putNarinfo hash body =>
    unfold fsStep stepOf fsNext at hstep
    cases haccept : acceptNarinfo sign hash body with
    | none => simp only [haccept] at hstep; cases hstep; exact h
    | some content =>
      simp only [haccept] at hstep
      cases hstep
      rintro p q ⟨ni, hni, hq, hne⟩
      rw [narinfoOf_insertOrReplace, fromUtf8_asBytes] at hni
      split_ifs at hni with hp
      · obtain rfl := narinfoName_injective hp
        exact hok content ni haccept hni q hq hne
      · exact h p q ⟨ni, hni, hq, hne⟩
  | putNar file body =>
    unfold fsStep stepOf fsNext at hstep
    cases haccept : acceptNar file with
    | none => simp only [haccept] at hstep; cases hstep; exact h
    | some path =>
      simp only [haccept] at hstep
      cases hstep
      rintro p q ⟨ni, hni, hq, hne⟩
      rw [narinfoOf_insertOrReplace, if_neg (narinfoName_ne_nar haccept)] at hni
      exact h p q ⟨ni, hni, hq, hne⟩
  | runGc currentSize targetSize =>
    obtain ⟨⟨db, disk⟩, hgc, rfl⟩ := Option.map_eq_some_iff.mp hstep
    obtain ⟨evictSet, hknown, hclosed, hget⟩ := runGc_get? hgc
    intro p q hrefers
    have hold : Refers s.disk p q := refers_of_get? (fun name bytes hname => ((hget name bytes).mp hname).1) hrefers
    refine List.forall_mem_cons.mpr ⟨Bool.eq_false_iff.mpr fun hlost => ?_, h p q hold⟩
    obtain ⟨name, hname, hgone⟩ := List.any_eq_true.mp hlost
    obtain ⟨hbefore, hafter⟩ := (Bool.and_eq_true ..).mp hgone
    rw [Table.contains_eq_isSome] at hbefore
    obtain ⟨bytes, hbytes⟩ := Option.isSome_iff_exists.mp hbefore
    have hnone : disk.get? name ≠ some bytes := fun hsome => by simp [Table.contains_eq_isSome, hsome] at hafter
    -- the file went with an evicted path, which the referrer refers to as well
    obtain ⟨e, he, row, hrow, hown⟩ : ∃ e ∈ evictSet, ∃ row, s.db.storePaths.get? e = some row ∧
        (name = narinfoName e ∨ name = row.narUrl) := by
      by_contra hnot
      push Not at hnot
      exact hnone ((hget name bytes).mpr ⟨hbytes, hnot⟩)
    have hp : p ∈ evictSet := by
      by_cases hpe : e = p
      · exact hpe ▸ he
      have hshares : narinfoName e ∈ filesOf s.db s.disk q ∨ row.narUrl ∈ filesOf s.db s.disk q := by
        rcases hown with heq | heq
        · exact .inl (heq ▸ hname)
        · exact .inr (heq ▸ hname)
      obtain ⟨hpin, href⟩ := hok p q hold e row hrow hshares hpe
      exact hclosed e he p hpin href (Ne.symm hpe)
    obtain ⟨ni, hni, -⟩ := hrefers
    obtain ⟨text, htext, -⟩ := Option.bind_eq_some_iff.mp hni
    obtain ⟨bytes', hget', -⟩ := Option.bind_eq_some_iff.mp htext
    have hrowp := hknown p hp
    rw [Table.contains_eq_isSome] at hrowp
    obtain ⟨rowp, hrowp⟩ := Option.isSome_iff_exists.mp hrowp
    exact (((hget _ _).mp hget').2 p hp rowp hrowp).1 rfl

/-- A collection always comes to an end. -/
theorem runGc_isSome (currentSize targetSize : Nat) (s : GcDb × Disk) : (runGc currentSize targetSize s).isSome = true := by
  unfold runGc
  by_cases hfree : currentSize - targetSize = 0
  · rw [if_pos hfree]; rfl
  · obtain ⟨sel, hsel, -⟩ := s.1.select_ends (currentSize - targetSize)
    rw [if_neg hfree, hsel]; rfl

def sampleSign (_ : String) : String := "k:s"

def libNarinfo : Bytes := asBytes "StorePath: /nix/store/lib-x\nURL: nar/lib.nar\nNarHash: sha256:0\nNarSize: 0\n"

def appNarinfo : Bytes :=
  asBytes "StorePath: /nix/store/app-x\nURL: nar/app.nar\nNarHash: sha256:0\nNarSize: 0\nReferences: lib-x\n"

end Ekapkgs
