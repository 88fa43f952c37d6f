import Ekapkgs.FsGcCut
import Ekapkgs.FsGcRuns

/-!
# NARs that several paths share

Each evicted path takes the NAR file that its narinfo names with it, and counts
its size, whether or not another narinfo names the same file.
-/

namespace Ekapkgs
open Keyed

/-! ## The tables of a scan -/

/-- The directory itself has a narinfo of the path. -/
def AtTop (disk : Disk) (hash : String) (ni : NarInfo) : Prop := '/' ∉ hash.toList ∧ narinfoOf disk hash = some ni

/-- Every row is that of its narinfo, and has its references. -/
structure Mirrors (db : GcDb) (disk : Disk) : Prop where
  row : ∀ h row, db.storePaths.get? h = some row → (∃ ni, AtTop disk h ni ∧ row.narUrl = ni.url) ∧
    row.fileSize = disk.share List.length row.narUrl ∧ row.narinfoSize = disk.share List.length (narinfoName h)
  refs : ∀ r x, db.refs.get? (r, x) = some () ↔
    db.storePaths.contains r = true ∧ ∃ ni, narinfoOf disk r = some ni ∧ x ∈ ni.references.map (splitNext '-')

/-- Every narinfo of the directory has a row. -/
def Registered (db : GcDb) (disk : Disk) : Prop := ∀ h ni, AtTop disk h ni → db.storePaths.contains h = true

section
variable {now : Nat} {disk : Disk} {db : GcDb} {hash name text : String} {bytes : Bytes} {ni : NarInfo}

theorem slash_narinfoName : '/' ∈ (narinfoName hash).toList ↔ '/' ∈ hash.toList := by
  rw [narinfoName, String.toList_append, List.mem_append]
  exact or_iff_left (by decide)

/-- What the scan does with an entry: nothing, or it registers a new narinfo of the directory. -/
theorem scanEntry_cases (now : Nat) (disk : Disk) (name : String) (bytes : Bytes) (db : GcDb) : scanEntry now disk name bytes db = db ∨
    ∃ hash text ni, name = narinfoName hash ∧ '/' ∉ hash.toList ∧ db.storePaths.contains hash = false ∧ fromUtf8 bytes = some text ∧
      NarInfo.parse text = some ni ∧ scanEntry now disk name bytes db = db.register now hash text ni disk := by
  unfold scanEntry
  by_cases hslash : name.toList.contains '/' = true
  · rw [if_pos hslash]
    exact .inl rfl
  rw [if_neg hslash]
  cases hstrip : stripSuffix ".narinfo" name with
  | none => exact .inl rfl
  | some hash =>
    dsimp only
    have hname : name = narinfoName hash := eq_of_stripSuffix hstrip
    rw [List.contains_iff_mem, hname, slash_narinfoName] at hslash
    cases hin : db.storePaths.contains hash with
    | true => exact .inl rfl
    | false =>
      rw [if_neg Bool.false_ne_true]
      cases htext : fromUtf8 bytes with
      | none => exact .inl rfl
      | some text =>
        rw [Option.bind_some]
        cases hparse : NarInfo.parse text with
        | none => exact .inl rfl
        | some ni => exact .inr ⟨hash, text, ni, hname, hslash, hin, rfl, hparse, rfl⟩

theorem scanEntry_register (hslash : '/' ∉ hash.toList) (hnew : db.storePaths.contains hash = false) (htext : fromUtf8 bytes = some text)
    (hparse : NarInfo.parse text = some ni) : scanEntry now disk (narinfoName hash) bytes db = db.register now hash text ni disk := by
  unfold scanEntry
  rw [if_neg (by rwa [List.contains_iff_mem, slash_narinfoName]), narinfoName, stripSuffix_append]
  dsimp only
  rw [hnew, if_neg Bool.false_ne_true, htext, Option.bind_some, hparse]
  rfl

theorem get?_register_refs (hash : String) : ∀ (references : List String) (t : Table (String × String) Unit) (k : String × String),
    (references.foldl (fun t r => t.insertOrIgnore (hash, splitNext '-' r) ()) t).get? k = some () ↔
      t.get? k = some () ∨ (k.1 = hash ∧ k.2 ∈ references.map (splitNext '-'))
  | [], t, k => by simp
  | r :: references, t, k => by
    rw [List.foldl_cons, get?_register_refs hash references, Table.get?_insertOrIgnore, List.map_cons, List.mem_cons]
    by_cases hk : k = (hash, splitNext '-' r)
    · rw [if_pos hk, hk]
      simp
    · rw [if_neg hk]
      have : ¬ (k.1 = hash ∧ k.2 = splitNext '-' r) := fun h => hk (Prod.ext h.1 h.2)
      tauto

theorem mirrors_scanEntry (h : Mirrors db disk) (hmem : disk.get? name = some bytes) : Mirrors (scanEntry now disk name bytes db) disk := by
  rcases scanEntry_cases now disk name bytes db with hsame | ⟨hash, text, ni, rfl, hslash, hnew, htext, hparse, hscan⟩
  · rw [hsame]; exact h
  have hni : narinfoOf disk hash = some ni := by rw [narinfoOf, hmem, Option.bind_some, htext, Option.bind_some, hparse]
  have hnone : db.storePaths.get? hash = none := by
    rwa [Table.contains_eq_isSome, Option.isSome_eq_false_iff, Option.isNone_iff_eq_none] at hnew
  rw [hscan]
  constructor
  · intro g row hrow
    rw [GcDb.register, Table.get?_insertOrIgnore] at hrow
    by_cases hg : g = hash
    · rw [if_pos hg, hnone, Option.getD_none, Option.some.injEq] at hrow
      rw [← hrow, hg]
      refine ⟨⟨ni, ⟨hslash, hni⟩, rfl⟩, rfl, ?_⟩
      rw [Table.share, hmem, asBytes_of_fromUtf8 htext]
      rfl
    · rw [if_neg hg] at hrow
      exact h.row g row hrow
  · intro r x
    rw [GcDb.register, get?_register_refs, h.refs, Table.contains_insertOrIgnore]
    by_cases hr : r = hash
    · subst hr
      rw [hnew, hni]
      simp
    · simp [hr]

theorem contains_scanEntry (h : db.storePaths.contains hash = true) :
    (scanEntry now disk name bytes db).storePaths.contains hash = true := by
  rcases scanEntry_cases now disk name bytes db with hsame | ⟨hash', text, ni, -, -, -, -, -, hscan⟩
  · rw [hsame]; exact h
  · rw [hscan, GcDb.register, Table.contains_insertOrIgnore]
    exact .inl h

end

theorem mirrors_initialScan (now : Nat) (disk : Disk) : Mirrors (initialScan now (.empty, disk)).1 disk := by
  have hrows : ∀ (l : List (String × Bytes)) (db : GcDb), (∀ r ∈ l, r ∈ disk.rows) → Mirrors db disk →
      Mirrors (l.foldl (fun db r => scanEntry now disk r.1 r.2 db) db) disk := by
    intro l
    induction l with
    | nil => exact fun _ _ h => h
    | cons r l ih =>
      intro db hl h
      obtain ⟨hr, hl⟩ := List.forall_mem_cons.mp hl
      exact ih _ hl (mirrors_scanEntry h (Table.get?_eq_some.mpr hr))
  refine hrows disk.rows .empty (fun _ h => h) ⟨fun _ _ h => ?_, fun _ _ => ⟨fun h => ?_, fun h => ?_⟩⟩
  · cases h
  · cases h
  · cases h.1

theorem registered_initialScan (now : Nat) (disk : Disk) : Registered (initialScan now (.empty, disk)).1 disk := by
  have hknown : ∀ (l : List (String × Bytes)) (db : GcDb) (h : String), db.storePaths.contains h = true ∨
      ('/' ∉ h.toList ∧ ∃ bytes text ni, (narinfoName h, bytes) ∈ l ∧ fromUtf8 bytes = some text ∧ NarInfo.parse text = some ni) →
        (l.foldl (fun db r => scanEntry now disk r.1 r.2 db) db).storePaths.contains h = true := by
    intro l
    induction l with
    | nil => exact fun _ _ h => h.elim id fun ⟨_, _, _, _, hmem, _⟩ => absurd hmem List.not_mem_nil
    | cons r l ih =>
      rintro db h (hin | ⟨hslash, bytes, text, ni, hmem, htext, hparse⟩)
      · exact ih _ h (.inl (contains_scanEntry hin))
      · rcases List.mem_cons.mp hmem with rfl | hmem
        · refine ih _ h (.inl ?_)
          cases hin : db.storePaths.contains h with
          | true => exact contains_scanEntry hin
          | false =>
            dsimp only
            rw [scanEntry_register hslash hin htext hparse, GcDb.register, Table.contains_insertOrIgnore]
            exact .inr rfl
        · exact ih _ h (.inr ⟨hslash, bytes, text, ni, hmem, htext, hparse⟩)
  rintro h ni ⟨hslash, hni⟩
  refine hknown disk.rows .empty h (.inr ⟨hslash, ?_⟩)
  obtain ⟨text, htext, hparse⟩ := Option.bind_eq_some_iff.mp hni
  obtain ⟨bytes, hbytes, htext⟩ := Option.bind_eq_some_iff.mp htext
  exact ⟨bytes, text, ni, Table.get?_eq_some.mp hbytes, htext, hparse⟩

section
variable {disk : Disk} {db : GcDb}

theorem get?_flushAccesses (now : Nat) (hashes : List String) (db : GcDb) (h : String) :
    (flushAccesses now hashes db).storePaths.get? h =
      (db.storePaths.get? h).map fun row => if hashes.contains h then { row with lastAccess := now - now % 3600 } else row := by
  apply Table.get?_of_rows
  intro v
  simp only [flushAccesses, List.mem_map, Option.map_eq_some_iff, Table.get?_eq_some]
  constructor
  · rintro ⟨r, hr, hrow⟩
    split at hrow
    next hin =>
      cases hrow
      exact ⟨r.2, hr, by rw [if_pos hin]⟩
    next hin =>
      cases hrow
      exact ⟨v, hr, by rw [if_neg hin]⟩
  · rintro ⟨row, hr, rfl⟩
    refine ⟨_, hr, ?_⟩
    split <;> rfl

theorem contains_flushAccesses (now : Nat) (hashes : List String) (db : GcDb) (h : String) :
    (flushAccesses now hashes db).storePaths.contains h = db.storePaths.contains h := by
  rw [Table.contains_eq_isSome, get?_flushAccesses, Option.isSome_map, Table.contains_eq_isSome]

theorem Mirrors.flushAccesses (h : Mirrors db disk) (now : Nat) (hashes : List String) : Mirrors (flushAccesses now hashes db) disk := by
  constructor
  · intro g row hrow
    rw [get?_flushAccesses] at hrow
    obtain ⟨row', hrow', rfl⟩ := Option.map_eq_some_iff.mp hrow
    have := h.row g row' hrow'
    split <;> exact this
  · intro r x
    rw [contains_flushAccesses]
    exact h.refs r x

end

/-- The tables of a scan, after any recorded accesses. -/
def trackedDb (now : Nat) (disk : Disk) (accesses : List (Nat × List String)) : GcDb :=
  accesses.foldl (fun db a => flushAccesses a.1 a.2 db) (initialScan now (.empty, disk)).1

theorem trackedDb_mirrors (now : Nat) (disk : Disk) (accesses : List (Nat × List String)) :
    Mirrors (trackedDb now disk accesses) disk ∧ Registered (trackedDb now disk accesses) disk := by
  have hall : ∀ (accesses : List (Nat × List String)) (db : GcDb), Mirrors db disk → Registered db disk →
      Mirrors (accesses.foldl (fun db a => flushAccesses a.1 a.2 db) db) disk ∧
        Registered (accesses.foldl (fun db a => flushAccesses a.1 a.2 db) db) disk := by
    intro accesses
    induction accesses with
    | nil => exact fun _ h h' => ⟨h, h'⟩
    | cons a accesses ih =>
      intro db h h'
      refine ih _ (h.flushAccesses a.1 a.2) fun g ni hni => ?_
      rw [contains_flushAccesses]
      exact h' g ni hni
  exact hall accesses _ (mirrors_initialScan now disk) (registered_initialScan now disk)

/-! ## The property and its condition -/

/-- The bytes that a collection reports as freed. -/
def reportedFreed (currentSize targetSize : Nat) (db : GcDb) : Nat :=
  if currentSize - targetSize = 0 then 0 else ((db.select (currentSize - targetSize)).map Selection.freed).getD 0

/-- Whatever the target, a collection leaves the NAR of every narinfo it leaves, and
reports no more than the files it deletes hold. -/
def KeepsNars (db : GcDb) (disk : Disk) (currentSize : Nat) : Prop :=
  ∀ targetSize s', runGc currentSize targetSize (db, disk) = some s' →
    (∀ hash ni, AtTop s'.2 hash ni → disk.contains ni.url = true → s'.2.contains ni.url = true) ∧
      reportedFreed currentSize targetSize db + s'.2.total List.length ≤ disk.total List.length

/-- Some set of paths with `x` in it has another of its paths as a referrer of each:
in the end, `x` is referred to from a cycle. -/
def OnCycle (disk : Disk) (x : String) : Prop :=
  ∃ S : String → Prop, S x ∧ ∀ y, S y → ∃ r ni, S r ∧ AtTop disk r ni ∧ y ∈ ni.references.map (splitNext '-') ∧ r ≠ y

/-- Only what no collection evicts shares a file with another path. -/
structure NarsOwn (disk : Disk) : Prop where
  nar : ∀ p q nip niq, AtTop disk p nip → AtTop disk q niq → p ≠ q → nip.url = niq.url → disk.contains nip.url = true → OnCycle disk p
  narinfo : ∀ p q nip niq, AtTop disk p nip → AtTop disk q niq → nip.url = narinfoName q → OnCycle disk q

section
variable {disk : Disk} {db : GcDb}

theorem Mirrors.exists_row (h : Mirrors db disk) (hreg : Registered db disk) {hash : String} {ni : NarInfo} (htop : AtTop disk hash ni) :
    ∃ row, db.storePaths.get? hash = some row ∧ row.narUrl = ni.url := by
  have hin := hreg hash ni htop
  rw [Table.contains_eq_isSome] at hin
  obtain ⟨row, hrow⟩ := Option.isSome_iff_exists.mp hin
  obtain ⟨⟨ni', htop', hurl⟩, -⟩ := h.row hash row hrow
  cases htop.2.symm.trans htop'.2
  exact ⟨row, hrow, hurl⟩

theorem Mirrors.atTop_of_entry (h : Mirrors db disk) {e : PathEntry} (he : e ∈ db.pathEntries) :
    ∃ ni, AtTop disk e.hash ni ∧ e.narUrl = ni.url := by
  obtain ⟨row, hrow, hurl⟩ := mem_pathEntries_row he
  obtain ⟨⟨ni, htop, hni⟩, -⟩ := h.row _ row hrow
  exact ⟨ni, htop, hurl.symm.trans hni⟩

theorem Mirrors.entry_of_atTop (h : Mirrors db disk) (hreg : Registered db disk) {hash : String} {ni : NarInfo} (htop : AtTop disk hash ni) :
    ∃ e ∈ db.pathEntries, e.hash = hash ∧ e.narUrl = ni.url := by
  obtain ⟨e, he, rfl⟩ := List.mem_map.mp (contains_pathEntries.mp (hreg hash ni htop))
  obtain ⟨ni', htop', hurl⟩ := h.atTop_of_entry he
  cases htop.2.symm.trans htop'.2
  exact ⟨e, he, rfl, hurl⟩

theorem Mirrors.held_iff (h : Mirrors db disk) (hreg : Registered db disk) {x : String} : db.Held x ↔ OnCycle disk x := by
  have hpins (r y : String) : (r ∈ db.pathEntries.map PathEntry.hash ∧ (r, y) ∈ db.refs.rows.map Prod.fst) ↔
      ∃ ni, AtTop disk r ni ∧ y ∈ ni.references.map (splitNext '-') := by
    rw [GcDb.mem_refs, h.refs, contains_pathEntries]
    constructor
    · rintro ⟨hin, -, ni, hni, hy⟩
      obtain ⟨e, he, rfl⟩ := List.mem_map.mp hin
      obtain ⟨ni', htop, -⟩ := h.atTop_of_entry he
      exact ⟨ni, ⟨htop.1, hni⟩, hy⟩
    · rintro ⟨ni, htop, hy⟩
      have hin := contains_pathEntries.mp (hreg r ni htop)
      exact ⟨hin, hin, ni, htop.2, hy⟩
  constructor
  · rintro ⟨S, hx, hS⟩
    refine ⟨S, hx, fun y hy => ?_⟩
    obtain ⟨r, hr, hknown, href, hne⟩ := hS y hy
    obtain ⟨ni, htop, hin⟩ := (hpins r y).mp ⟨hknown, href⟩
    exact ⟨r, ni, hr, htop, hin, hne⟩
  · rintro ⟨S, hx, hS⟩
    refine ⟨S, hx, fun y hy => ?_⟩
    obtain ⟨r, ni, hr, htop, hin, hne⟩ := hS y hy
    obtain ⟨hknown, href⟩ := (hpins r y).mpr ⟨ni, htop, hin⟩
    exact ⟨r, hr, hknown, href, hne⟩

/-- An entry counts its two files. -/
theorem Mirrors.size_eq (h : Mirrors db disk) {e : PathEntry} (he : e ∈ db.pathEntries) :
    e.size = disk.share List.length (narinfoName e.hash) + disk.share List.length e.narUrl := by
  obtain ⟨r, hr, rfl⟩ := List.mem_map.mp (db.pathEntries_perm.mem_iff.mp he)
  obtain ⟨-, hfile, hnarinfo⟩ := h.row r.1 r.2 (Table.get?_eq_some.mpr hr)
  dsimp only
  rw [hfile, hnarinfo, Nat.add_comm]

end

/-! ## The files of a collection -/

def PathEntry.files (e : PathEntry) : List String := [narinfoName e.hash, e.narUrl]

/-- All files of the evicted paths, in the order of their deletion. -/
def GcDb.evictedFiles (db : GcDb) (sel : Selection) : List String :=
  (db.pathEntries.filter fun e => sel.evictSet.contains e.hash).flatMap PathEntry.files

section
variable {disk : Disk} {db : GcDb} {sel : Selection}

theorem evictAll_files (toEvict : List PathEntry) (s : GcDb × Disk) :
    (toEvict.foldl (fun s e => evictEntry e s) s).2 = (toEvict.flatMap PathEntry.files).foldl Table.delete s.2 := by
  induction toEvict generalizing s with
  | nil => rfl
  | cons e toEvict ih => rw [List.foldl_cons, ih]; rfl

/-- A collection deletes the files of what it selects, and reports what the selection frees. -/
theorem runGc_files (currentSize targetSize : Nat) (db : GcDb) (disk : Disk) :
    ∃ sel s', db.select (currentSize - targetSize) = some sel ∧ runGc currentSize targetSize (db, disk) = some s' ∧
      s'.2 = (db.evictedFiles sel).foldl Table.delete disk ∧ reportedFreed currentSize targetSize db = sel.freed := by
  obtain ⟨sel, hsel, -⟩ := db.select_ends (currentSize - targetSize)
  unfold runGc reportedFreed
  by_cases hfree : currentSize - targetSize = 0
  · have hnone : sel = .none := by
      rw [hfree] at hsel
      exact (Option.some.inj hsel).symm
    refine ⟨sel, (db, disk), hsel, if_pos hfree, ?_, ?_⟩
    · rw [hnone]
      simp [GcDb.evictedFiles, Selection.none]
    · rw [if_pos hfree, hnone]
      rfl
  · rw [if_neg hfree, if_neg hfree, hsel]
    exact ⟨sel, _, rfl, rfl, evictAll_files _ _, rfl⟩

theorem mem_evictedFiles {name : String} : name ∈ db.evictedFiles sel ↔
    ∃ e ∈ db.pathEntries, e.hash ∈ sel.evictSet ∧ (name = narinfoName e.hash ∨ name = e.narUrl) := by
  unfold GcDb.evictedFiles PathEntry.files
  simp only [List.mem_flatMap, List.mem_filter, List.contains_iff_mem, List.mem_cons, List.not_mem_nil, or_false, and_assoc]

theorem evictedFiles_share (h : Mirrors db disk) :
    ((db.evictedFiles sel).map (disk.share List.length)).sum = freedBy db.pathEntries sel.evictSet := by
  have hall : ∀ l : List PathEntry, (∀ e ∈ l, e ∈ db.pathEntries) →
      ((l.flatMap PathEntry.files).map (disk.share List.length)).sum = (l.map PathEntry.size).sum := by
    intro l
    induction l with
    | nil => exact fun _ => rfl
    | cons e l ih =>
      intro hl
      obtain ⟨he, hl⟩ := List.forall_mem_cons.mp hl
      rw [List.flatMap_cons, List.map_append, List.sum_append, ih hl, List.map_cons, List.sum_cons, h.size_eq he]
      simp [PathEntry.files]
  exact hall _ fun e he => (List.mem_filter.mp he).1

/-- Where a file is named twice, there is none. -/
theorem NarsOwn.evictedFiles_once (hown : NarsOwn disk) (h : Mirrors db disk) (hreg : Registered db disk) {toFree : Nat}
    (hsel : db.select toFree = some sel) :
    (db.evictedFiles sel).Pairwise fun name name' => name = name' → disk.share List.length name = 0 := by
  have hkept {x : String} (hx : OnCycle disk x) : x ∉ sel.evictSet := ((h.held_iff hreg).mpr hx).not_evicted hsel
  -- no NAR of a registered path is the narinfo of an evicted one
  have hcross : ∀ e ∈ db.pathEntries, ∀ e' ∈ db.pathEntries, e'.hash ∈ sel.evictSet → e.narUrl ≠ narinfoName e'.hash := by
    intro e he e' he' hin heq
    obtain ⟨ni, htop, hurl⟩ := h.atTop_of_entry he
    obtain ⟨ni', htop', -⟩ := h.atTop_of_entry he'
    exact hkept (hown.narinfo _ _ ni ni' htop htop' (hurl.symm.trans heq)) hin
  have hnodup : (db.pathEntries.filter fun e => sel.evictSet.contains e.hash).Pairwise fun e e' => e.hash ≠ e'.hash :=
    (List.pairwise_map.mp db.pathEntries_nodup).sublist List.filter_sublist
  refine List.pairwise_flatMap.mpr ⟨fun e he => ?_, hnodup.imp_of_mem fun {e e'} he he' hne => ?_⟩
  · obtain ⟨he, hin⟩ := List.mem_filter.mp he
    refine List.pairwise_pair.mpr fun heq => absurd heq.symm (hcross e he e he ?_)
    rwa [List.contains_iff_mem] at hin
  · obtain ⟨he, hin⟩ := List.mem_filter.mp he
    obtain ⟨he', hin'⟩ := List.mem_filter.mp he'
    rw [List.contains_iff_mem] at hin hin'
    simp only [PathEntry.files, List.forall_mem_cons, List.not_mem_nil, false_implies, implies_true, and_true]
    refine ⟨⟨fun heq => absurd (narinfoName_injective heq) hne, fun heq => absurd heq.symm (hcross e' he' e he hin)⟩,
      fun heq => absurd heq (hcross e he e' he' hin'), fun heq => ?_⟩
    by_contra hshare
    obtain ⟨ni, htop, hurl⟩ := h.atTop_of_entry he
    obtain ⟨ni', htop', hurl'⟩ := h.atTop_of_entry he'
    refine hkept (hown.nar _ _ ni ni' htop htop' hne (hurl.symm.trans (heq.trans hurl')) ?_) hin
    rw [← hurl, Table.contains_eq_isSome, Option.isSome_iff_ne_none]
    intro hnone
    rw [Table.share, hnone] at hshare
    exact hshare rfl

theorem NarsOwn.keepsNars (hown : NarsOwn disk) (h : Mirrors db disk) (hreg : Registered db disk) (currentSize : Nat) :
    KeepsNars db disk currentSize := by
  intro targetSize s' hgc
  obtain ⟨sel, s'', hsel, hgc', hdisk, hfreed⟩ := runGc_files currentSize targetSize db disk
  cases hgc.symm.trans hgc'
  have hkept {x : String} (hx : OnCycle disk x) : x ∉ sel.evictSet := ((h.held_iff hreg).mpr hx).not_evicted hsel
  rw [hdisk, hfreed]
  constructor
  · rintro hash ni ⟨hslash, hni⟩ hbefore
    have hleft : narinfoName hash ∉ db.evictedFiles sel := by
      intro hin
      rw [narinfoOf, Table.get?_foldl_delete, if_pos hin] at hni
      cases hni
    have htop : AtTop disk hash ni := by
      refine ⟨hslash, ?_⟩
      rwa [narinfoOf, Table.get?_foldl_delete, if_neg hleft] at hni
    rw [Table.contains_eq_isSome, Table.get?_foldl_delete, if_neg, ← Table.contains_eq_isSome]
    · exact hbefore
    intro hin
    obtain ⟨e, he, hevicted, hname⟩ := mem_evictedFiles.mp hin
    obtain ⟨ni', htop', hurl'⟩ := h.atTop_of_entry he
    rcases hname with hname | hname
    · exact hkept (hown.narinfo _ _ ni ni' htop htop' hname) hevicted
    · refine hkept (hown.nar _ hash ni' ni htop' htop (fun heq => hleft ?_) (hurl'.symm.trans hname.symm) ?_) hevicted
      · exact mem_evictedFiles.mpr ⟨e, he, hevicted, .inl (heq ▸ rfl)⟩
      · rwa [← hurl', ← hname]
  · have htotal := Table.total_foldl_delete List.length _ disk (hown.evictedFiles_once h hreg hsel)
    rw [evictedFiles_share h] at htotal
    obtain ⟨sel', hsel', hchosen, -⟩ := db.select_ends (currentSize - targetSize)
    cases hsel.symm.trans hsel'
    have hle : sel.freed ≤ freedBy db.pathEntries sel.evictSet := hchosen.freed ▸ Nat.mod_le _ _
    omega

/-- Some suffix has just one of two items of which the list has one. -/
theorem exists_suffix_one {a b : String} (hne : a ≠ b) {l : List String} (h : a ∈ l ∨ b ∈ l) :
    ∃ E, E <:+ l ∧ ((a ∈ E ∧ b ∉ E) ∨ (b ∈ E ∧ a ∉ E)) := by
  induction l with
  | nil => rcases h with h | h <;> cases h
  | cons x l ih =>
    by_cases hlater : a ∈ l ∨ b ∈ l
    · obtain ⟨E, hE, hone⟩ := ih hlater
      exact ⟨E, hE.trans (List.suffix_cons ..), hone⟩
    rw [not_or] at hlater
    refine ⟨x :: l, List.suffix_rfl, ?_⟩
    simp only [List.mem_cons, hlater.1, hlater.2, or_false] at h ⊢
    rcases h with rfl | rfl
    · exact .inl ⟨rfl, hne.symm⟩
    · exact .inr ⟨rfl, hne⟩

theorem Mirrors.size_pos (h : Mirrors db disk) {e : PathEntry} (he : e ∈ db.pathEntries) : 0 < e.size := by
  obtain ⟨ni, ⟨-, hni⟩, -⟩ := h.atTop_of_entry he
  obtain ⟨text, htext, hparse⟩ := Option.bind_eq_some_iff.mp hni
  obtain ⟨bytes, hbytes, htext⟩ := Option.bind_eq_some_iff.mp htext
  have hne : bytes ≠ [] := by
    rintro rfl
    have hempty : (fromUtf8 []).bind NarInfo.parse = none := by decide
    rw [htext, Option.bind_some, hparse] at hempty
    cases hempty
  have := List.length_pos_iff.mpr hne
  rw [h.size_eq he, Table.share, hbytes, Option.map_some, Option.getD_some]
  omega

/-- A collection that evicts just one of two paths takes the NAR of both. -/
theorem KeepsNars.not_alone {currentSize : Nat} (hkeeps : KeepsNars db disk currentSize) (h : Mirrors db disk) (hreg : Registered db disk)
    (hurls : ∀ p q ni, AtTop disk p ni → ni.url ≠ narinfoName q) {p q : String} {nip niq : NarInfo} (hp : AtTop disk p nip)
    (hq : AtTop disk q niq) (hurl : nip.url = niq.url) (hexists : disk.contains nip.url = true) {toFree : Nat}
    (hle : toFree ≤ currentSize) (hsel : db.select toFree = some sel) : ¬ (p ∈ sel.evictSet ∧ q ∉ sel.evictSet) := by
  rintro ⟨hin, hout⟩
  obtain ⟨sel', s', hsel', hgc, hdisk, -⟩ := runGc_files currentSize (currentSize - toFree) db disk
  rw [Nat.sub_sub_self hle] at hsel'
  cases hsel.symm.trans hsel'
  obtain ⟨e, he, rfl, hnar⟩ := h.entry_of_atTop hreg hp
  have hgone : nip.url ∈ db.evictedFiles sel := mem_evictedFiles.mpr ⟨e, he, hin, .inr hnar.symm⟩
  have hleft : narinfoName q ∉ db.evictedFiles sel := by
    intro hin'
    obtain ⟨e', he', hevicted, hname | hname⟩ := mem_evictedFiles.mp hin'
    · exact hout (narinfoName_injective hname ▸ hevicted)
    · obtain ⟨ni', htop', hurl'⟩ := h.atTop_of_entry he'
      exact hurls _ q ni' htop' (hurl'.symm.trans hname.symm)
  have hniq : AtTop s'.2 q niq := by
    refine ⟨hq.1, ?_⟩
    rw [hdisk, narinfoOf, Table.get?_foldl_delete, if_neg hleft]
    exact hq.2
  have hkept := (hkeeps _ s' hgc).1 q niq hniq (hurl ▸ hexists)
  rw [hdisk, ← hurl, Table.contains_eq_isSome, Table.get?_foldl_delete, if_pos hgone] at hkept
  cases hkept

theorem KeepsNars.narsOwn (hkeeps : KeepsNars db disk (db.storePaths.total GcDb.size)) (h : Mirrors db disk) (hreg : Registered db disk)
    (hsum : db.storePaths.total GcDb.size < 2 ^ 64) (hurls : ∀ p q ni, AtTop disk p ni → ni.url ≠ narinfoName q) : NarsOwn disk where
  narinfo p q nip _ hp _ heq := absurd heq (hurls p q nip hp)
  nar p q nip niq hp hq hne hurl hexists := by
    by_contra hcycle
    have hknown := contains_pathEntries.mp (hreg p nip hp)
    obtain ⟨sel, hsel, hin⟩ := GcDb.exists_evicted hsum (fun e he => h.size_pos he) hknown (mt (h.held_iff hreg).mp hcycle)
    obtain ⟨E, hE, hone⟩ := exists_suffix_one hne (.inl hin)
    obtain ⟨toFree, hle, sel', hsel', rfl⟩ := GcDb.select_first hsum (fun e he => h.size_pos he) (Nat.le_refl _) hsel hE
    rcases hone with hone | hone
    · exact hkeeps.not_alone h hreg hurls hp hq hurl hexists hle hsel' hone
    · exact hkeeps.not_alone h hreg hurls hq hp hurl.symm (hurl ▸ hexists) hle hsel' hone

end

/-- Collections keep the NARs of what they leave, and report no byte twice, where only
what cycles hold shares a file. Where no NAR is a narinfo, they do so only there, also
from the size in the tables. -/
theorem keepsNars_of_own (now : Nat) (disk : Disk) (accesses : List (Nat × List String)) :
    (NarsOwn disk → ∀ currentSize, KeepsNars (trackedDb now disk accesses) disk currentSize) ∧
    ((trackedDb now disk accesses).storePaths.total GcDb.size < 2 ^ 64 → (∀ p q ni, AtTop disk p ni → ni.url ≠ narinfoName q) →
      KeepsNars (trackedDb now disk accesses) disk ((trackedDb now disk accesses).storePaths.total GcDb.size) → NarsOwn disk) := by
  obtain ⟨hmirrors, hreg⟩ := trackedDb_mirrors now disk accesses
  exact ⟨fun hown => hown.keepsNars hmirrors hreg, fun hsum hurls hkeeps => hkeeps.narsOwn hmirrors hreg hsum hurls⟩

/-! ## Two narinfos with one NAR -/

/-- Two paths whose NARs are the same, named by their hash as caches do. -/
def sharedDisk : Disk := ((Table.empty.insertOrReplace "nar/x.nar" [1, 2, 3, 4]).insertOrReplace (narinfoName "app")
  (asBytes "StorePath: /nix/store/app-x\nURL: nar/x.nar\nNarHash: sha256:0\nNarSize: 4\n")).insertOrReplace (narinfoName "lib")
  (asBytes "StorePath: /nix/store/lib-x\nURL: nar/x.nar\nNarHash: sha256:0\nNarSize: 4\n")

/-- A collection that evicts one of them leaves the other without its NAR. -/
theorem shared_nar_lost :
    ¬ KeepsNars (trackedDb 0 sharedDisk []) sharedDisk ((trackedDb 0 sharedDisk []).storePaths.total GcDb.size) := by
  intro h
  have hlost : (runGc ((trackedDb 0 sharedDisk []).storePaths.total GcDb.size) 100 (trackedDb 0 sharedDisk [], sharedDisk)).any (fun s' =>
      (narinfoOf s'.2 "lib").any fun ni => sharedDisk.contains ni.url && !s'.2.contains ni.url) = true := by decide
  obtain ⟨s', hgc, htest⟩ := (Option.any_eq_true ..).mp hlost
  obtain ⟨ni, hni, htest⟩ := (Option.any_eq_true ..).mp htest
  obtain ⟨hbefore, hafter⟩ := (Bool.and_eq_true ..).mp htest
  rw [(h 100 s' hgc).1 "lib" ni ⟨by decide, hni⟩ hbefore] at hafter
  cases hafter

end Ekapkgs
