import Ekapkgs.SonameIndex

/-!
# Listing the library directory

`readdir` in `fuse.rs`. A scan calls it again and again, each time with the
offset of the last entry it has got, until the reply is empty.
-/

namespace Ekapkgs
open Keyed

inductive FileType where
  | directory | regularFile
  deriving DecidableEq

structure DirEntry where
  ino : Nat
  kind : FileType
  name : String
  deriving DecidableEq

def SonameIndex.dirEntries (index : SonameIndex) : List DirEntry :=
  [⟨ROOT_INO, .directory, "."⟩, ⟨ROOT_INO, .directory, ".."⟩] ++
    index.allSonames.filterMap fun soname => (index.sonameToIno.get? soname).map fun ino => ⟨ino, .regularFile, soname⟩

/-- The replies of the kernel's buffer: `size` is what an entry takes of it, and
`reply.add` refuses the first one that does not fit. -/
def addEntries (size : DirEntry → Nat) : Nat → List (DirEntry × Nat) → List (DirEntry × Nat)
  | _, [] => []
  | room, entry :: entries => if size entry.1 ≤ room then entry :: addEntries size (room - size entry.1) entries else []

/-- Each entry with the offset after it. -/
def SonameIndex.offsets (index : SonameIndex) : List (DirEntry × Nat) := index.dirEntries.mapIdx fun i entry => (entry, i + 1)

/-- In the root; elsewhere there is nothing to list. -/
def SonameIndex.readdir (index : SonameIndex) (size : DirEntry → Nat) (ino offset capacity : Nat) : Option (List (DirEntry × Nat)) :=
  if ino ≠ ROOT_INO then none else some (addEntries size capacity (index.offsets.drop offset))

/-! ## A scan -/

section
variable (index : SonameIndex) (size : DirEntry → Nat) (capacities : Nat → Nat)

def SonameIndex.replyAt (offset capacity : Nat) : List (DirEntry × Nat) := (index.readdir size ROOT_INO offset capacity).getD []

/-- Where the `n`-th call of a scan starts. -/
def SonameIndex.scanOffset : Nat → Nat
  | 0 => 0
  | n + 1 => ((index.replyAt size (scanOffset n) (capacities n)).getLast?.map Prod.snd).getD (scanOffset n)

def SonameIndex.scanReply (n : Nat) : List (DirEntry × Nat) := index.replyAt size (index.scanOffset size capacities n) (capacities n)

/-- What a scan of so many calls has listed. -/
def SonameIndex.scanned (n : Nat) : List DirEntry := (List.range n).flatMap fun k => (index.scanReply size capacities k).map Prod.fst

end

variable {index : SonameIndex} {size : DirEntry → Nat} {capacities : Nat → Nat}

theorem addEntries_take (size : DirEntry → Nat) : ∀ (entries : List (DirEntry × Nat)) (room : Nat), ∃ n, addEntries size room entries = entries.take n ∧
    n ≤ entries.length ∧ ((∃ entry ∈ entries.head?, size entry.1 ≤ room) → 0 < n)
  | [], _ => ⟨0, rfl, Nat.le_refl _, fun ⟨_, h, _⟩ => by cases h⟩
  | entry :: entries, room => by
    unfold addEntries
    by_cases hfits : size entry.1 ≤ room
    · obtain ⟨n, htake, hle, -⟩ := addEntries_take size entries (room - size entry.1)
      refine ⟨n + 1, ?_, Nat.succ_le_succ hle, fun _ => Nat.succ_pos n⟩
      rw [if_pos hfits, htake, List.take_succ_cons]
    · refine ⟨0, if_neg hfits, Nat.zero_le _, fun ⟨e, he, hsize⟩ => ?_⟩
      cases he
      exact absurd hsize hfits

theorem offsets_length : index.offsets.length = index.dirEntries.length := List.length_mapIdx

theorem offsets_getElem? {i : Nat} (h : i < index.dirEntries.length) : index.offsets[i]? = some (index.dirEntries[i], i + 1) := by
  unfold SonameIndex.offsets
  rw [List.getElem?_mapIdx, List.getElem?_eq_getElem h, Option.map_some]

/-- A call at an offset within the directory gets on, and its last entry says how far. -/
theorem replyAt_eq {offset capacity : Nat} (hle : offset ≤ index.dirEntries.length)
    (hfits : ∀ entry ∈ index.dirEntries, size entry ≤ capacity) :
    ∃ n, index.replyAt size offset capacity = (index.offsets.drop offset).take n ∧ offset + n ≤ index.dirEntries.length ∧
      (offset < index.dirEntries.length → 0 < n) ∧
      ((index.replyAt size offset capacity).getLast?.map Prod.snd).getD offset = offset + n := by
  obtain ⟨n, htake, hn, hpos⟩ := addEntries_take size (index.offsets.drop offset) capacity
  rw [List.length_drop, offsets_length] at hn
  have hreply : index.replyAt size offset capacity = (index.offsets.drop offset).take n := htake
  refine ⟨n, hreply, by omega, fun hlt => hpos ?_, ?_⟩
  · rw [List.head?_drop, offsets_getElem? hlt]
    exact ⟨_, rfl, hfits _ (List.getElem_mem hlt)⟩
  · rw [hreply, List.getLast?_take]
    cases n with
    | zero => rfl
    | succ m =>
      rw [if_neg (Nat.succ_ne_zero m), List.getElem?_drop, Nat.add_sub_cancel, offsets_getElem? (by omega)]
      rfl

/-- After so many calls the scan has listed what is before its offset. -/
theorem scanned_eq (hfits : ∀ k, ∀ entry ∈ index.dirEntries, size entry ≤ capacities k) : ∀ n,
    index.scanOffset size capacities n ≤ index.dirEntries.length ∧
      index.scanned size capacities n = index.dirEntries.take (index.scanOffset size capacities n)
  | 0 => ⟨Nat.zero_le _, rfl⟩
  | n + 1 => by
    obtain ⟨hle, hlisted⟩ := scanned_eq hfits n
    obtain ⟨m, hreply, hle', -, hoffset⟩ := replyAt_eq hle (hfits n)
    have hnext : index.scanOffset size capacities (n + 1) = index.scanOffset size capacities n + m := hoffset
    have hentries : index.offsets.map Prod.fst = index.dirEntries := by
      refine List.ext_getElem (by rw [List.length_map, offsets_length]) fun i hi hi' => ?_
      simp [SonameIndex.offsets]
    refine ⟨by rw [hnext]; exact hle', ?_⟩
    have hscan : index.scanned size capacities (n + 1) =
        index.scanned size capacities n ++ (index.scanReply size capacities n).map Prod.fst := by
      unfold SonameIndex.scanned
      rw [List.range_succ, List.flatMap_append, List.flatMap_singleton]
    have hlast : (index.scanReply size capacities n).map Prod.fst =
        (index.dirEntries.drop (index.scanOffset size capacities n)).take m := by
      show (index.replyAt size _ _).map Prod.fst = _
      rw [hreply, List.map_take, List.map_drop, hentries]
    rw [hscan, hlisted, hlast, hnext, List.take_add]

/-- A scan gets on until it is at the end. -/
theorem scan_grows (hfits : ∀ k, ∀ entry ∈ index.dirEntries, size entry ≤ capacities k) (n : Nat)
    (hlt : index.scanOffset size capacities n < index.dirEntries.length) :
    index.scanOffset size capacities n < index.scanOffset size capacities (n + 1) ∧ index.scanReply size capacities n ≠ [] := by
  obtain ⟨m, hreply, -, hpos, hoffset⟩ := replyAt_eq (Nat.le_of_lt hlt) (hfits n)
  have hnext : index.scanOffset size capacities (n + 1) = index.scanOffset size capacities n + m := hoffset
  have hm := hpos hlt
  refine ⟨by omega, fun hempty => ?_⟩
  have hlen := congrArg List.length (hreply.symm.trans hempty)
  rw [List.length_take, List.length_drop, offsets_length, List.length_nil] at hlen
  omega

theorem scan_ends (hfits : ∀ k, ∀ entry ∈ index.dirEntries, size entry ≤ capacities k) : ∀ (left n : Nat),
    index.dirEntries.length - index.scanOffset size capacities n = left → (∀ k < n, index.scanReply size capacities k ≠ []) →
      ∃ n', index.scanOffset size capacities n' = index.dirEntries.length ∧ ∀ k < n', index.scanReply size capacities k ≠ [] := by
  intro left
  induction left using Nat.strongRecOn with
  | ind left ih =>
    intro n hleft hbefore
    obtain ⟨hle, -⟩ := scanned_eq hfits n
    rcases Nat.lt_or_eq_of_le hle with hlt | heq
    · obtain ⟨hgrows, hne⟩ := scan_grows hfits n hlt
      refine ih _ (by omega) (n + 1) rfl fun k hk => ?_
      rcases Nat.lt_succ_iff_lt_or_eq.mp hk with hk | rfl
      · exact hbefore k hk
      · exact hne
    · exact ⟨n, heq, hbefore⟩

/-- The scan ends with an empty reply, and has then listed the directory. -/
theorem scan_complete (hfits : ∀ k, ∀ entry ∈ index.dirEntries, size entry ≤ capacities k) :
    ∃ n, index.scanReply size capacities n = [] ∧ (∀ k < n, index.scanReply size capacities k ≠ []) ∧
      index.scanned size capacities n = index.dirEntries := by
  obtain ⟨n, hend, hbefore⟩ := scan_ends hfits _ 0 rfl nofun
  obtain ⟨-, hlisted⟩ := scanned_eq hfits n
  refine ⟨n, ?_, hbefore, by rw [hlisted, hend, List.take_length]⟩
  have hempty : index.scanReply size capacities n = addEntries size (capacities n) (index.offsets.drop (index.scanOffset size capacities n)) := rfl
  rw [hempty, List.drop_eq_nil_of_le (by rw [offsets_length, hend])]
  rfl

/-! ## The directory -/

variable {raw : List SonameEntry}

theorem filterMap_eq_mapIdx {α β : Type} {f : α → Option β} : ∀ {l : List α} {g : Nat → α → β},
    (∀ i a, l[i]? = some a → f a = some (g i a)) → l.filterMap f = l.mapIdx g
  | [], _, _ => rfl
  | a :: l, g, h => by
    rw [List.filterMap_cons_some (h 0 a rfl), List.mapIdx_cons, filterMap_eq_mapIdx fun i a' hget => h (i + 1) a' hget]

/-- Every soname has its inode, so none is left out. -/
theorem dirEntries_eq (raw : List SonameEntry) : (SonameIndex.fromEntries raw).dirEntries =
    ⟨ROOT_INO, .directory, "."⟩ :: ⟨ROOT_INO, .directory, ".."⟩ ::
      (SonameIndex.fromEntries raw).allSonames.mapIdx fun i soname => ⟨i + 2, .regularFile, soname⟩ := by
  have hino : ∀ i soname, (SonameIndex.fromEntries raw).allSonames[i]? = some soname →
      ((SonameIndex.fromEntries raw).sonameToIno.get? soname).map (fun ino => (⟨ino, .regularFile, soname⟩ : DirEntry)) =
        some ⟨i + 2, .regularFile, soname⟩ := fun i soname h => by rw [sonameToIno_iff.mpr ⟨i, h, rfl⟩, Option.map_some]
  unfold SonameIndex.dirEntries
  rw [filterMap_eq_mapIdx hino]
  rfl

theorem names_dirEntries (raw : List SonameEntry) :
    (SonameIndex.fromEntries raw).dirEntries.map DirEntry.name = "." :: ".." :: (SonameIndex.fromEntries raw).allSonames := by
  rw [dirEntries_eq, List.map_cons, List.map_cons]
  refine congrArg ("." :: ".." :: ·) (List.ext_getElem? fun i => ?_)
  rw [List.getElem?_map, List.getElem?_mapIdx, Option.map_map]
  exact Option.map_id'

/-- The preferred entries, the two tables of inodes, and every scan. -/
theorem library_directory (raw : List SonameEntry) :
    (∀ soname entry, (SonameIndex.fromEntries raw).lookup soname = some entry ↔ Preferred raw soname entry) ∧
    (∀ soname ino, (SonameIndex.fromEntries raw).sonameToIno.get? soname = some ino ↔
      (SonameIndex.fromEntries raw).inoToSoname.get? ino = some soname) ∧
    (∀ soname, (∃ ino, (SonameIndex.fromEntries raw).sonameToIno.get? soname = some ino) ↔ ∃ e ∈ raw, e.soname = soname) ∧
    (∀ ino, (∃ soname, (SonameIndex.fromEntries raw).inoToSoname.get? ino = some soname) ↔
      2 ≤ ino ∧ ino ≤ (raw.map SonameEntry.soname).dedup.length + 1) ∧
    ∀ size capacities, (∀ k, ∀ entry ∈ (SonameIndex.fromEntries raw).dirEntries, size entry ≤ capacities k) →
      ∃ n sonames, (SonameIndex.fromEntries raw).scanReply size capacities n = [] ∧
        (∀ k < n, (SonameIndex.fromEntries raw).scanReply size capacities k ≠ []) ∧
        ((SonameIndex.fromEntries raw).scanned size capacities n).map DirEntry.name = "." :: ".." :: sonames ∧
        sonames.Nodup ∧ ∀ soname, soname ∈ sonames ↔ ∃ e ∈ raw, e.soname = soname := by
  have hlength : (raw.map SonameEntry.soname).dedup.length = (SonameIndex.fromEntries raw).allSonames.length := by
    refine ((List.perm_ext_iff_of_nodup (List.nodup_dedup _) (nodup_allSonames raw)).mpr fun soname => ?_).length_eq
    rw [List.mem_dedup, List.mem_map, mem_allSonames]
  refine ⟨fun _ _ => lookup_eq_some_iff, fun _ _ => sonameToIno_iff.trans inoToSoname_iff.symm, fun soname => ?_, fun ino => ?_,
    fun size capacities hfits => ?_⟩
  · rw [← mem_allSonames, List.mem_iff_getElem?]
    constructor
    · rintro ⟨ino, h⟩
      obtain ⟨i, hget, -⟩ := sonameToIno_iff.mp h
      exact ⟨i, hget⟩
    · rintro ⟨i, hget⟩
      exact ⟨i + 2, sonameToIno_iff.mpr ⟨i, hget, rfl⟩⟩
  · rw [hlength]
    constructor
    · rintro ⟨soname, h⟩
      obtain ⟨i, hget, rfl⟩ := inoToSoname_iff.mp h
      have hi := (List.getElem?_eq_some_iff.mp hget).1
      omega
    · rintro ⟨hle, hlt⟩
      have hi : ino - 2 < (SonameIndex.fromEntries raw).allSonames.length := by omega
      exact ⟨_, inoToSoname_iff.mpr ⟨ino - 2, List.getElem?_eq_getElem hi, by omega⟩⟩
  · obtain ⟨n, hend, hbefore, hlisted⟩ := scan_complete hfits
    refine ⟨n, (SonameIndex.fromEntries raw).allSonames, hend, hbefore, ?_, nodup_allSonames raw, fun _ => mem_allSonames⟩
    rw [hlisted, names_dirEntries]

/-- The second package has a priority, and so comes before the first. -/
def zlibSonames : List SonameEntry :=
  [⟨"libz.so.1", "zlib", "/nix/store/a-zlib", "lib/libz.so.1", none⟩,
    ⟨"libz.so.1", "zlib-ng", "/nix/store/b-zlib-ng", "lib/libz.so.1", some 5⟩]

theorem library_directory_zlib : (∀ k, ∀ entry ∈ (SonameIndex.fromEntries zlibSonames).dirEntries, (fun _ => 1) entry ≤ (fun _ : Nat => 1) k) ∧
    ∃ n sonames, (SonameIndex.fromEntries zlibSonames).scanReply (fun _ => 1) (fun _ => 1) n = [] ∧
      ((SonameIndex.fromEntries zlibSonames).scanned (fun _ => 1) (fun _ => 1) n).map DirEntry.name = "." :: ".." :: sonames := by
  refine ⟨fun _ _ _ => Nat.le_refl 1, ?_⟩
  obtain ⟨n, sonames, hend, -, hnames, -⟩ := (library_directory zlibSonames).2.2.2.2 (fun _ => 1) (fun _ => 1) fun _ _ _ => Nat.le_refl 1
  exact ⟨n, sonames, hend, hnames⟩

example : ((SonameIndex.fromEntries zlibSonames).lookup "libz.so.1").map SonameEntry.package = some "zlib-ng" := by decide

end Ekapkgs
