import Ekapkgs.CasWalk
import Ekapkgs.GcSafety

/-!
# The walk lists each thing once

Whatever the wanted paths share, the walk lists every directory below them once
and its children before it, every file with chunks once, and every chunk that the
client does not say it has once.
-/

namespace Ekapkgs
open Keyed Fallible Once

variable {δ : Type} [DecidableEq δ] (ext : Ext δ) (haveChunks : ChunkHaveCheck δ)

/-! ## What a list of nodes comes to -/

def dirsOf (ns : List NarNode) : List (List (String × NarNode)) :=
  ns.filterMap fun
    | .directory entries => some entries
    | _ => none

def dataOf (ns : List NarNode) : List Bytes :=
  ns.filterMap fun
    | .regular _ data => some data
    | _ => none

omit [DecidableEq δ] in
theorem mem_dirsOf {ns : List NarNode} {entries : List (String × NarNode)} :
    entries ∈ dirsOf ns ↔ NarNode.directory entries ∈ ns := by
  unfold dirsOf
  rw [List.mem_filterMap]
  constructor
  · rintro ⟨s, hs, hd⟩
    cases s with
    | directory entries' => cases hd; exact hs
    | regular executable data => cases hd
    | symlink target => cases hd
  · exact fun h => ⟨_, h, rfl⟩

def dirPair (entries : List (String × NarNode)) : δ × CaDirectory := (dirDigest ext entries, ⟨caEntries ext entries⟩)

/-- The digest of an entry that is a directory. -/
def childDirectory (entry : CaDirectoryEntry) : Option δ :=
  match entry.node.bind CaNode.node with
  | some (.directory dir) => fieldDigest ext dir.digest
  | _ => none

def ChildrenFirst (directories : List (δ × CaDirectory)) : Prop :=
  ∀ before d dir after, directories = before ++ (d, dir) :: after → ∀ entry ∈ dir.entries, ∀ child,
    childDirectory ext entry = some child → child ∈ before.map Prod.fst

/-- The accumulators once the nodes `ns` are done and the directories `opened`
are entered. -/
structure Walked (ns : List NarNode) (opened : List (List (String × NarNode))) (w : CasWalk δ) : Prop where
  closed : ∀ s ∈ ns, ∀ s' ∈ s.postorder, s' ∈ ns
  dirSeen : ∀ d, d ∈ w.dirSeen ↔ ∃ entries, (NarNode.directory entries ∈ ns ∨ entries ∈ opened) ∧ dirDigest ext entries = d
  directories : w.directories = once ((dirsOf ns).map (dirPair ext))
  childrenFirst : ChildrenFirst ext w.directories
  fileSeen : ∀ d, d ∈ w.fileSeen ↔ ∃ data ∈ dataOf ns, ext.blake3 data = d
  fileMappings : w.fileMappings = ((once (dataOf ns)).filter fun data => !(chunkRefs ext data).isEmpty).map
    fun data => (ext.blake3 data, chunkRefs ext data)
  chunkSeen : ∀ d, d ∈ w.chunkSeen ↔ haveChunks.contains ext d = false ∧ d ∈ ((dataOf ns).flatMap (chunkRefs ext)).map Prod.fst
  missingChunks : w.missingChunks = ((once ((dataOf ns).flatMap (chunkRefs ext))).filter
    fun chunk => !haveChunks.contains ext chunk.1).map (chunkMeta ext)

variable {ext haveChunks}

theorem walked_empty : Walked ext haveChunks [] [] .empty := by
  constructor <;> simp [CasWalk.empty, dirsOf, dataOf, ChildrenFirst]

/-- Nodes whose directories and contents are done already change nothing. -/
theorem Walked.append_done {ns l : List NarNode} {opened : List (List (String × NarNode))} {w : CasWalk δ}
    (h : Walked ext haveChunks ns opened w) (hdirs : dirsOf l ⊆ dirsOf ns) (hdata : dataOf l ⊆ dataOf ns)
    (hclosed : ∀ s ∈ l, ∀ s' ∈ s.postorder, s' ∈ ns ++ l) : Walked ext haveChunks (ns ++ l) opened w := by
  have hdirs' : dirsOf (ns ++ l) = dirsOf ns ++ dirsOf l := List.filterMap_append
  have hdata' : dataOf (ns ++ l) = dataOf ns ++ dataOf l := List.filterMap_append
  have hrefs : (dataOf l).flatMap (chunkRefs ext) ⊆ (dataOf ns).flatMap (chunkRefs ext) := by
    intro c hc
    obtain ⟨data, hd, hcd⟩ := List.mem_flatMap.mp hc
    exact List.mem_flatMap.mpr ⟨data, hdata hd, hcd⟩
  refine ⟨?_, ?_, ?_, h.childrenFirst, ?_, ?_, ?_, ?_⟩
  · intro s hs s' hs'
    rcases List.mem_append.mp hs with hs | hs
    · exact List.mem_append_left _ (h.closed s hs s' hs')
    · exact hclosed s hs s' hs'
  · intro d
    have hmem : ∀ entries, NarNode.directory entries ∈ ns ++ l ↔ NarNode.directory entries ∈ ns := by
      intro entries
      rw [List.mem_append]
      exact ⟨fun hd => hd.elim id fun hd => mem_dirsOf.mp (hdirs (mem_dirsOf.mpr hd)), .inl⟩
    rw [h.dirSeen]
    simp only [hmem]
  · rw [h.directories, hdirs', List.map_append, once_append_of_subset (List.map_subset _ hdirs)]
  · intro d
    rw [h.fileSeen, hdata']
    constructor
    · rintro ⟨data, hd, heq⟩
      exact ⟨data, List.mem_append_left _ hd, heq⟩
    · rintro ⟨data, hd, heq⟩
      exact ⟨data, (List.mem_append.mp hd).elim id fun hd => hdata hd, heq⟩
  · rw [h.fileMappings, hdata', once_append_of_subset hdata]
  · intro d
    rw [h.chunkSeen, hdata', List.flatMap_append, List.map_append, List.mem_append]
    constructor
    · exact fun ⟨hh, hd⟩ => ⟨hh, .inl hd⟩
    · rintro ⟨hh, hd | hd⟩
      · exact ⟨hh, hd⟩
      · exact ⟨hh, List.map_subset _ hrefs hd⟩
  · rw [h.missingChunks, hdata', List.flatMap_append, once_append_of_subset hrefs]

/-! ## Files -/

omit [DecidableEq δ] in
theorem chunkRefs_functional (laws : ext.Laws) {data data' : Bytes} {c c' : δ × Nat} (h : c ∈ chunkRefs ext data)
    (h' : c' ∈ chunkRefs ext data') (heq : c.1 = c'.1) : c = c' := by
  obtain ⟨cut, hcut, rfl⟩ := List.mem_map.mp h
  obtain ⟨cut', hcut', rfl⟩ := List.mem_map.mp h'
  have hbytes := laws.blake3_injective heq
  have h₁ := laws.chunk_length data cut hcut
  have h₂ := laws.chunk_length data' cut' hcut'
  rw [hbytes] at h₁
  exact Prod.ext heq (h₁.symm.trans h₂)

/-- The chunks seen and missing once `refs` are added. -/
theorem addChunks_spec {w : CasWalk δ} {done : List (δ × Nat)} :
    ∀ {refs : List (δ × Nat)}, (∀ c ∈ done ++ refs, ∀ c' ∈ done ++ refs, c.1 = c'.1 → c = c') →
      (∀ d, d ∈ w.chunkSeen ↔ haveChunks.contains ext d = false ∧ d ∈ done.map Prod.fst) →
      w.missingChunks = ((once done).filter fun chunk => !haveChunks.contains ext chunk.1).map (chunkMeta ext) →
      ∃ seen missing, refs.foldl (CasWalk.addChunk ext haveChunks) w = { w with chunkSeen := seen, missingChunks := missing } ∧
        (∀ d, d ∈ seen ↔ haveChunks.contains ext d = false ∧ d ∈ (done ++ refs).map Prod.fst) ∧
        missing = ((once (done ++ refs)).filter fun chunk => !haveChunks.contains ext chunk.1).map (chunkMeta ext) := by
  intro refs
  induction refs using List.reverseRecOn with
  | nil =>
    intro _ hseen hmissing
    exact ⟨w.chunkSeen, w.missingChunks, rfl, by simpa using hseen, by simpa using hmissing⟩
  | append_singleton refs c ih =>
    intro hfun hseen hmissing
    have hfun' : ∀ a ∈ done ++ refs, ∀ b ∈ done ++ refs, a.1 = b.1 → a = b := fun a ha b hb =>
      hfun a (by rw [← List.append_assoc]; exact List.mem_append_left _ ha) b
        (by rw [← List.append_assoc]; exact List.mem_append_left _ hb)
    obtain ⟨seen, missing, hfold, hseen', hmissing'⟩ := ih hfun' hseen hmissing
    rw [List.foldl_append, hfold, List.foldl_cons, List.foldl_nil, ← List.append_assoc, once_concat]
    have hmem : c.1 ∈ (done ++ refs).map Prod.fst ↔ c ∈ done ++ refs := by
      constructor
      · intro h
        obtain ⟨c', hc', heq⟩ := List.mem_map.mp h
        have hcc : c' = c := hfun c' (by rw [← List.append_assoc]; exact List.mem_append_left _ hc') c
          (by rw [← List.append_assoc]; exact List.mem_append_right _ (List.mem_singleton_self c)) heq
        exact hcc ▸ hc'
      · exact List.mem_map_of_mem
    have hmap : ∀ d, d ∈ (done ++ refs ++ [c]).map Prod.fst ↔ d ∈ (done ++ refs).map Prod.fst ∨ d = c.1 := fun d => by
      simp only [List.map_append, List.mem_append, List.map_cons, List.map_nil, List.mem_singleton]
    unfold CasWalk.addChunk
    by_cases hhave : haveChunks.contains ext c.1 = true
    · rw [if_pos hhave]
      refine ⟨seen, missing, rfl, fun d => ?_, ?_⟩
      · rw [hseen', hmap]
        constructor
        · exact fun ⟨hd, hm⟩ => ⟨hd, .inl hm⟩
        · rintro ⟨hd, hm | rfl⟩
          · exact ⟨hd, hm⟩
          · rw [hhave] at hd
            cases hd
      · by_cases hc : c ∈ done ++ refs
        · rw [if_pos hc, hmissing']
        · rw [if_neg hc, hmissing', List.filter_append]
          simp [hhave]
    · rw [if_neg hhave]
      have hfalse : haveChunks.contains ext c.1 = false := Bool.eq_false_of_not_eq_true hhave
      by_cases hc : c ∈ done ++ refs
      · rw [if_pos ((hseen' c.1).mpr ⟨hfalse, hmem.mpr hc⟩), if_pos hc]
        refine ⟨seen, missing, rfl, fun d => ?_, hmissing'⟩
        rw [hseen', hmap]
        constructor
        · exact fun ⟨hd, hm⟩ => ⟨hd, .inl hm⟩
        · rintro ⟨hd, hm | rfl⟩
          · exact ⟨hd, hm⟩
          · exact ⟨hd, hmem.mpr hc⟩
      · have hnot : c.1 ∉ seen := fun h => hc (hmem.mp ((hseen' c.1).mp h).2)
        dsimp only
        rw [if_neg hnot, if_neg hc]
        refine ⟨_, _, rfl, fun d => ?_, ?_⟩
        · rw [List.mem_append, hseen', hmap, List.mem_singleton]
          constructor
          · rintro (⟨hd, hm⟩ | rfl)
            · exact ⟨hd, .inl hm⟩
            · exact ⟨hfalse, .inr rfl⟩
          · rintro ⟨hd, hm | rfl⟩
            · exact .inl ⟨hd, hm⟩
            · exact .inr rfl
        · rw [List.filter_append, List.map_append, hmissing']
          simp [hfalse]

omit [DecidableEq δ] in
theorem dataOf_concat_regular (ns : List NarNode) (executable : Bool) (data : Bytes) :
    dataOf (ns ++ [.regular executable data]) = dataOf ns ++ [data] := by
  simp [dataOf, List.filterMap_append]

omit [DecidableEq δ] in
theorem dirsOf_concat_regular (ns : List NarNode) (executable : Bool) (data : Bytes) :
    dirsOf (ns ++ [.regular executable data]) = dirsOf ns := by
  simp [dirsOf, List.filterMap_append]

theorem addMapping_eq (w : CasWalk δ) (file : δ) (chunks : List (δ × Nat)) : w.addMapping file chunks =
    { w with fileMappings := w.fileMappings ++ if chunks.isEmpty then [] else [(file, chunks)] } := by
  unfold CasWalk.addMapping
  split
  · rw [List.append_nil]
  · rfl

variable {db : Db δ} {files : δ → Option Bytes}

theorem walkFile_walks (laws : ext.Laws) {ns : List NarNode} {opened : List (List (String × NarNode))} {w : CasWalk δ} {data : Bytes}
    (hrows : ∀ i, db.fileChunks.get? (ext.blake3 data, i) = (chunkRefs ext data)[i]?) (h : Walked ext haveChunks ns opened w)
    (executable : Bool) {st : Store δ} (hst : Serving ext db files st) : ∃ w' st',
      walkFile ext haveChunks (ext.blake3 data) w st = .ok w' st' ∧ Serving ext db files st' ∧
        Walked ext haveChunks (ns ++ [.regular executable data]) opened w' := by
  have hclosed : ∀ s ∈ [NarNode.regular executable data], ∀ s' ∈ s.postorder, s' ∈ ns ++ [NarNode.regular executable data] := by
    intro s hs s' hs'
    rw [List.mem_singleton.mp hs, NarNode.postorder] at hs'
    exact List.mem_append_right _ hs'
  unfold walkFile
  by_cases hseen : ext.blake3 data ∈ w.fileSeen
  · rw [if_pos hseen]
    obtain ⟨data', hdata', heq⟩ := (h.fileSeen _).mp hseen
    obtain rfl := laws.blake3_injective heq
    refine ⟨w, st, rfl, hst, h.append_done ?_ ?_ hclosed⟩
    · simp [dirsOf]
    · intro x hx
      have : x = data' := by simpa [dataOf] using hx
      exact this ▸ hdata'
  · rw [if_neg hseen]
    have hnew : data ∉ dataOf ns := fun hmem => hseen ((h.fileSeen _).mpr ⟨data, hmem, rfl⟩)
    have hnew' : data ∉ once (dataOf ns) := fun hmem => hnew (mem_once.mp hmem)
    rw [bind_of_ok (attempt_quiet hst.quiet), bind_of_ok (query_quiet hst.quiet), hst.db, Table.ordered_eq hrows]
    have hfun : ∀ c ∈ (dataOf ns).flatMap (chunkRefs ext) ++ chunkRefs ext data,
        ∀ c' ∈ (dataOf ns).flatMap (chunkRefs ext) ++ chunkRefs ext data, c.1 = c'.1 → c = c' := by
      have hlisted : ∀ c ∈ (dataOf ns).flatMap (chunkRefs ext) ++ chunkRefs ext data, ∃ data', c ∈ chunkRefs ext data' := by
        intro c hc
        rcases List.mem_append.mp hc with hc | hc
        · obtain ⟨data', -, hc⟩ := List.mem_flatMap.mp hc
          exact ⟨data', hc⟩
        · exact ⟨data, hc⟩
      intro c hc c' hc' heq
      obtain ⟨_, hc⟩ := hlisted c hc
      obtain ⟨_, hc'⟩ := hlisted c' hc'
      exact chunkRefs_functional laws hc hc' heq
    obtain ⟨seen, missing, hfold, hseen', hmissing⟩ :=
      addChunks_spec (w := { w with fileSeen := w.fileSeen ++ [ext.blake3 data] }) hfun h.chunkSeen h.missingChunks
    rw [hfold]
    refine ⟨_, st, rfl, hst, ?_⟩
    have hdata' := dataOf_concat_regular ns executable data
    have hmappings : once (dataOf ns ++ [data]) = once (dataOf ns) ++ [data] := by rw [once_concat, if_neg hnew]
    rw [addMapping_eq]
    refine ⟨?_, ?_, ?_, h.childrenFirst, ?_, ?_, ?_, ?_⟩
    · intro s hs s' hs'
      rcases List.mem_append.mp hs with hs | hs
      · exact List.mem_append_left _ (h.closed s hs s' hs')
      · exact hclosed s hs s' hs'
    · intro d
      have hmem : ∀ entries, NarNode.directory entries ∈ ns ++ [.regular executable data] ↔ NarNode.directory entries ∈ ns := by simp
      rw [h.dirSeen]
      simp only [hmem]
    · rw [h.directories, dirsOf_concat_regular]
    · intro d
      rw [hdata', List.mem_append, h.fileSeen, List.mem_singleton]
      constructor
      · rintro (⟨data', hd, rfl⟩ | rfl)
        · exact ⟨data', List.mem_append_left _ hd, rfl⟩
        · exact ⟨data, List.mem_append_right _ (List.mem_singleton_self _), rfl⟩
      · rintro ⟨data', hd, rfl⟩
        rcases List.mem_append.mp hd with hd | hd
        · exact .inl ⟨data', hd, rfl⟩
        · rw [List.mem_singleton.mp hd]
          exact .inr rfl
    · rw [hdata', hmappings, List.filter_append, List.map_append, h.fileMappings]
      by_cases hempty : (chunkRefs ext data).isEmpty = true
      · simp [hempty]
      · simp [hempty]
    · intro d
      rw [hdata', List.flatMap_append, List.flatMap_singleton]
      exact hseen' d
    · rw [hdata', List.flatMap_append, List.flatMap_singleton]
      exact hmissing

/-! ## The tree -/

theorem loadDirectory_orNone (laws : ext.Laws) {entries : List (String × NarNode)}
    (hrow : db.directories.get? (dirDigest ext entries) = some (ext.encodeDirectory ⟨caEntries ext entries⟩)) {st : Store δ}
    (hst : Serving ext db files st) : ∃ st',
      orNone (loadDirectory ext (dirDigest ext entries)) st = .ok (some ⟨caEntries ext entries⟩) st' ∧ Serving ext db files st' := by
  obtain ⟨st', hload, hst'⟩ := loadDirectory_of_get (d := dirDigest ext entries) laws rfl hrow hst
  refine ⟨st', ?_, hst'⟩
  unfold orNone
  rw [hload]

omit [DecidableEq δ] in
theorem postorder_closed : ∀ {t s s' : NarNode}, s ∈ t.postorder → s' ∈ s.postorder → s' ∈ t.postorder := by
  intro t
  induction t using NarNode.tree_induction with
  | regular executable data => intro s s' hs hs'; rw [NarNode.postorder, List.mem_singleton] at hs; rwa [hs] at hs'
  | symlink target => intro s s' hs hs'; rw [NarNode.postorder, List.mem_singleton] at hs; rwa [hs] at hs'
  | directory entries ih =>
    intro s s' hs hs'
    rcases mem_postorder_directory.mp hs with rfl | ⟨e, he, hs⟩
    · exact hs'
    · exact child_mem_postorder he (ih e he hs hs')

theorem Walked.enter {ns : List NarNode} {opened : List (List (String × NarNode))} {w : CasWalk δ}
    (h : Walked ext haveChunks ns opened w) (entries : List (String × NarNode)) :
    Walked ext haveChunks ns (entries :: opened) { w with dirSeen := w.dirSeen ++ [dirDigest ext entries] } where
  closed := h.closed
  dirSeen d := by
    rw [List.mem_append, h.dirSeen, List.mem_singleton]
    constructor
    · rintro (⟨entries', hin, hd⟩ | rfl)
      · exact ⟨entries', hin.imp id (List.mem_cons_of_mem _), hd⟩
      · exact ⟨entries, .inr (List.mem_cons_self ..), rfl⟩
    · rintro ⟨entries', hin | hin, hd⟩
      · exact .inl ⟨entries', .inl hin, hd⟩
      · rcases List.mem_cons.mp hin with rfl | hin
        · exact .inr hd.symm
        · exact .inl ⟨entries', .inr hin, hd⟩
  directories := h.directories
  childrenFirst := h.childrenFirst
  fileSeen := h.fileSeen
  fileMappings := h.fileMappings
  chunkSeen := h.chunkSeen
  missingChunks := h.missingChunks

omit [DecidableEq δ] in
theorem dataOf_concat_directory (ns : List NarNode) (entries : List (String × NarNode)) :
    dataOf (ns ++ [.directory entries]) = dataOf ns := by
  simp [dataOf, List.filterMap_append]

omit [DecidableEq δ] in
theorem dirsOf_concat_directory (ns : List NarNode) (entries : List (String × NarNode)) :
    dirsOf (ns ++ [.directory entries]) = dirsOf ns ++ [entries] := by
  simp [dirsOf, List.filterMap_append]

omit [DecidableEq δ] in
theorem dirPair_injective (laws : ext.Laws) : Function.Injective (dirPair ext) := fun _ _ h =>
  dirDigest_injective laws (Prod.mk.inj h).1

theorem childDirectory_caEntries (laws : ext.Laws) {entry : CaDirectoryEntry} {child : δ} : ∀ {entries : List (String × NarNode)},
    entry ∈ caEntries ext entries → childDirectory ext entry = some child →
      ∃ e ∈ entries, ∃ sub, e.2 = NarNode.directory sub ∧ dirDigest ext sub = child
  | (name, node) :: entries, hentry, hchild => by
    rw [caEntries, List.mem_cons] at hentry
    rcases hentry with rfl | hentry
    · cases node with
      | regular executable data => cases hchild
      | symlink target => cases hchild
      | directory sub =>
        refine ⟨_, List.mem_cons_self .., sub, rfl, ?_⟩
        simpa [childDirectory, caNode, directoryNode, fieldDigest_toVec laws, dirDigest] using hchild
    · obtain ⟨e, he, hsub⟩ := childDirectory_caEntries laws hentry hchild
      exact ⟨e, List.mem_cons_of_mem _ he, hsub⟩

theorem Walked.leave (laws : ext.Laws) {ns : List NarNode} {opened : List (List (String × NarNode))} {w : CasWalk δ}
    {entries : List (String × NarNode)} (h : Walked ext haveChunks ns (entries :: opened) w)
    (hchildren : ∀ e ∈ entries, ∀ s ∈ e.2.postorder, s ∈ ns) (hnew : NarNode.directory entries ∉ ns) :
    Walked ext haveChunks (ns ++ [.directory entries]) opened { w with directories := w.directories ++ [dirPair ext entries] } where
  closed s hs s' hs' := by
    rcases List.mem_append.mp hs with hs | hs
    · exact List.mem_append_left _ (h.closed s hs s' hs')
    · rw [List.mem_singleton.mp hs] at hs'
      rcases mem_postorder_directory.mp hs' with rfl | ⟨e, he, hs'⟩
      · exact List.mem_append_right _ (List.mem_singleton_self _)
      · exact List.mem_append_left _ (hchildren e he s' hs')
  dirSeen d := by
    rw [h.dirSeen]
    constructor
    · rintro ⟨entries', hin | hin, hd⟩
      · exact ⟨entries', .inl (List.mem_append_left _ hin), hd⟩
      · rcases List.mem_cons.mp hin with rfl | hin
        · exact ⟨entries', .inl (List.mem_append_right _ (List.mem_singleton_self _)), hd⟩
        · exact ⟨entries', .inr hin, hd⟩
    · rintro ⟨entries', hin | hin, hd⟩
      · rcases List.mem_append.mp hin with hin | hin
        · exact ⟨entries', .inl hin, hd⟩
        · obtain rfl := NarNode.directory.inj (List.mem_singleton.mp hin)
          exact ⟨entries', .inr (List.mem_cons_self ..), hd⟩
      · exact ⟨entries', .inr (List.mem_cons_of_mem _ hin), hd⟩
  directories := by
    have hnot : dirPair ext entries ∉ (dirsOf ns).map (dirPair ext) := by
      intro hmem
      obtain ⟨entries', hin, heq⟩ := List.mem_map.mp hmem
      obtain rfl := dirPair_injective laws heq
      exact hnew (mem_dirsOf.mp hin)
    rw [dirsOf_concat_directory, List.map_append, List.map_singleton, once_concat, if_neg hnot, h.directories]
  childrenFirst := by
    intro before d dir after hsplit entry hentry child hchild
    rcases List.eq_nil_or_concat after with rfl | ⟨after, last, rfl⟩
    · obtain ⟨rfl, hlast⟩ := List.append_inj' hsplit rfl
      obtain ⟨rfl, rfl⟩ : dirDigest ext entries = d ∧ (⟨caEntries ext entries⟩ : CaDirectory) = dir := by simpa [dirPair] using hlast
      obtain ⟨e, he, sub, hsub, rfl⟩ := childDirectory_caEntries laws hentry hchild
      rw [h.directories]
      refine List.mem_map.mpr ⟨dirPair ext sub, mem_once.mpr (List.mem_map_of_mem (mem_dirsOf.mpr ?_)), rfl⟩
      exact hchildren e he _ (hsub ▸ self_mem_postorder _)
    · rw [List.concat_eq_append, ← List.cons_append, ← List.append_assoc] at hsplit
      exact h.childrenFirst before d dir after (List.append_inj' hsplit rfl).1 entry hentry child hchild
  fileSeen := by rw [dataOf_concat_directory]; exact h.fileSeen
  fileMappings := by rw [dataOf_concat_directory]; exact h.fileMappings
  chunkSeen := by rw [dataOf_concat_directory]; exact h.chunkSeen
  missingChunks := by rw [dataOf_concat_directory]; exact h.missingChunks

/-- What the walk reads of a tree. -/
structure Stored (ext : Ext δ) (db : Db δ) (t : NarNode) : Prop where
  directories : HasDirectories ext db t
  fileChunks : ∀ data ∈ t.files, ∀ i, db.fileChunks.get? (ext.blake3 data, i) = (chunkRefs ext data)[i]?

theorem Stored.child {entries : List (String × NarNode)} (h : Stored ext db (.directory entries)) {e : String × NarNode}
    (he : e ∈ entries) : Stored ext db e.2 where
  directories entries' hin := h.directories entries' (child_mem_postorder he hin)
  fileChunks data hdata := by
    refine h.fileChunks data ?_
    obtain ⟨s, hs, hd⟩ := List.mem_filterMap.mp hdata
    exact List.mem_filterMap.mpr ⟨s, child_mem_postorder he hs, hd⟩

theorem walkCasNode_walks (laws : ext.Laws) : ∀ (t : NarNode) {fuel : Nat} {ns : List NarNode}
    {opened : List (List (String × NarNode))} {w : CasWalk δ} {st : Store δ}, t.depth ≤ fuel → Stored ext db t →
    Walked ext haveChunks ns opened w → (∀ entries ∈ opened, NarNode.directory entries ∉ t.postorder) → Serving ext db files st →
    ∃ w' st', walkCasNode ext haveChunks fuel (caNode ext t) w st = .ok w' st' ∧ Serving ext db files st' ∧
      Walked ext haveChunks (ns ++ t.postorder) opened w' := by
  intro t
  induction t using NarNode.tree_induction with
  | regular executable data =>
    intro fuel ns opened w st hfuel hstored h _ hst
    obtain ⟨fuel, rfl⟩ : ∃ n, fuel = n + 1 := ⟨fuel - 1, by rw [NarNode.depth] at hfuel; omega⟩
    unfold walkCasNode caNode fileNode
    simp only [fieldDigest_toVec laws]
    exact walkFile_walks laws (hstored.fileChunks data (by simp [NarNode.files, NarNode.postorder])) h executable hst
  | symlink target =>
    intro fuel ns opened w st hfuel _ h _ hst
    obtain ⟨fuel, rfl⟩ : ∃ n, fuel = n + 1 := ⟨fuel - 1, by rw [NarNode.depth] at hfuel; omega⟩
    refine ⟨w, st, rfl, hst, h.append_done ?_ ?_ ?_⟩
    · simp [dirsOf, NarNode.postorder]
    · simp [dataOf, NarNode.postorder]
    · intro s hs s' hs'
      exact List.mem_append_right _ (postorder_closed hs hs')
  | directory entries ih =>
    intro fuel ns opened w st hfuel hstored h hopened hst
    obtain ⟨fuel, rfl⟩ : ∃ n, fuel = n + 1 := ⟨fuel - 1, by rw [NarNode.depth] at hfuel; omega⟩
    have hself : ∀ entries' ∈ entries :: opened, ∀ e ∈ entries, NarNode.directory entries' ∉ e.2.postorder := by
      intro entries' hin e he hmem
      rcases List.mem_cons.mp hin with rfl | hin
      · have h₁ := sizeOf_le_of_mem_postorder e.2 hmem
        have h₂ := sizeOf_child he
        omega
      · exact hopened entries' hin (child_mem_postorder he hmem)
    unfold walkCasNode caNode directoryNode
    simp only [fieldDigest_toVec laws]
    by_cases hseen : dirDigest ext entries ∈ w.dirSeen
    · -- everything below was done when the directory was
      rw [show ext.blake3 (ext.encodeDirectory ⟨caEntries ext entries⟩) = dirDigest ext entries from rfl, if_pos hseen]
      obtain ⟨entries', hin, heq⟩ := (h.dirSeen _).mp hseen
      obtain rfl := dirDigest_injective laws heq
      have hmem : NarNode.directory entries' ∈ ns := hin.resolve_right fun hin => hopened entries' hin (self_mem_postorder _)
      have hsub : (NarNode.directory entries').postorder ⊆ ns := fun s hs => h.closed _ hmem s hs
      refine ⟨w, st, rfl, hst, h.append_done ?_ ?_ fun s hs s' hs' => List.mem_append_right _ (postorder_closed hs hs')⟩
      · exact fun x hx => mem_dirsOf.mpr (hsub (mem_dirsOf.mp hx))
      · intro x hx
        obtain ⟨s, hs, hsome⟩ := List.mem_filterMap.mp hx
        exact List.mem_filterMap.mpr ⟨s, hsub hs, hsome⟩
    · rw [show ext.blake3 (ext.encodeDirectory ⟨caEntries ext entries⟩) = dirDigest ext entries from rfl, if_neg hseen]
      obtain ⟨st₁, hload, hst₁⟩ := loadDirectory_orNone laws (hstored.directories entries (self_mem_postorder _)) hst
      rw [bind_of_ok hload]
      have hdepth : ∀ e ∈ entries, e.2.depth ≤ fuel := by
        intro e he
        have h₁ := depth_le_depthEntries he
        rw [NarNode.depth] at hfuel
        omega
      have hchildren : ∀ l : List (String × NarNode), (∀ e ∈ l, e ∈ entries) → ∀ {ns : List NarNode} {w : CasWalk δ} {st : Store δ},
          Walked ext haveChunks ns (entries :: opened) w → Serving ext db files st → ∃ w' st',
            (caEntries ext l).foldlM (forChild (walkCasNode ext haveChunks fuel)) w st = .ok w' st' ∧ Serving ext db files st' ∧
              Walked ext haveChunks (ns ++ postorderEntries l) (entries :: opened) w' := by
        intro l
        induction l with
        | nil =>
          intro _ ns w st h hst
          exact ⟨w, st, rfl, hst, by rw [postorderEntries, List.append_nil]; exact h⟩
        | cons e l ihl =>
          intro hl ns w st h hst
          have he := hl e (List.mem_cons_self ..)
          obtain ⟨w₁, st₁, hrun, hst₁, h₁⟩ := ih e he (hdepth e he) (hstored.child he) h (fun entries' hin => hself entries' hin e he) hst
          obtain ⟨w₂, st₂, hrun₂, hst₂, h₂⟩ := ihl (fun e' he' => hl e' (List.mem_cons_of_mem _ he')) h₁ hst₁
          refine ⟨w₂, st₂, ?_, hst₂, ?_⟩
          · obtain ⟨name, node⟩ := e
            rw [caEntries, List.foldlM_cons, bind_of_ok (show forChild (walkCasNode ext haveChunks fuel) w ⟨name, some (caNode ext node)⟩ st = _ from hrun)]
            exact hrun₂
          · obtain ⟨name, node⟩ := e
            rw [postorderEntries, ← List.append_assoc]
            exact h₂
      obtain ⟨w₂, st₂, hrun, hst₂, h₂⟩ := hchildren entries (fun _ he => he) (h.enter entries) hst₁
      refine ⟨{ w₂ with directories := w₂.directories ++ [dirPair ext entries] }, st₂, ?_, hst₂, ?_⟩
      · dsimp only
        rw [bind_of_ok hrun]
        rfl
      · rw [NarNode.postorder, ← List.append_assoc]
        refine h₂.leave laws (fun e he s hs => List.mem_append_right _ (mem_postorderEntries.mpr ⟨e, he, hs⟩)) fun hmem => ?_
        rcases List.mem_append.mp hmem with hmem | hmem
        · exact hseen ((h.dirSeen _).mpr ⟨entries, .inl hmem, rfl⟩)
        · obtain ⟨e, he, hs⟩ := mem_postorderEntries.mp hmem
          exact hself entries (List.mem_cons_self ..) e he hs

/-! ## The wanted paths -/

/-- The trees of the wanted paths that have one. -/
def wantedTrees (trees : String → Option NarNode) (wantHashes : List String) : List NarNode := wantHashes.filterMap trees

def wantedNodes (trees : String → Option NarNode) (wantHashes : List String) : List NarNode :=
  (wantedTrees trees wantHashes).flatMap NarNode.postorder

/-- Every path with a tree is stored, and every other row waits for its NAR. -/
structure StoredTrees (ext : Ext δ) (db : Db δ) (trees : String → Option NarNode) : Prop where
  root : ∀ hash t, trees hash = some t → HasRoot ext db hash t
  stored : ∀ hash t, trees hash = some t → Stored ext db t
  placeholder : ∀ hash row, trees hash = none → db.casPaths.get? hash = some row → row.rootNode = ext.encodeNode placeholderRoot

theorem StoredTrees.getRootNode_none (laws : ext.Laws) {trees : String → Option NarNode} (h : StoredTrees ext db trees) {hash : String}
    (hnone : trees hash = none) {st : Store δ} (hst : Serving ext db files st) :
    getRootNode ext hash st = .ok (if (db.casPaths.get? hash).isSome then some placeholderRoot else none) st := by
  unfold getRootNode
  rw [bind_of_ok (attempt_quiet hst.quiet), bind_of_ok (queryRow_quiet hst.quiet), hst.db]
  cases hrow : db.casPaths.get? hash with
  | none => rfl
  | some row =>
    simp only [Option.map_some, h.placeholder hash row hnone hrow, laws.decode_encodeNode]
    rfl

theorem walkCasNode_placeholder (fuel : Nat) (w : CasWalk δ) (st : Store δ) :
    walkCasNode ext haveChunks fuel placeholderRoot w st = .ok w st := by
  cases fuel <;> rfl

theorem walkRoots_walks (laws : ext.Laws) {trees : String → Option NarNode} (hstored : StoredTrees ext db trees) (hashes : List String)
    {ns : List NarNode} {w : CasWalk δ} {st : Store δ} (h : Walked ext haveChunks ns [] w) (hst : Serving ext db files st) :
    ∃ w' st', walkRoots ext haveChunks hashes w st = .ok w' st' ∧ Serving ext db files st' ∧
      Walked ext haveChunks (ns ++ wantedNodes trees hashes) [] w' := by
  induction hashes generalizing ns w st with
  | nil =>
    refine ⟨w, st, rfl, hst, ?_⟩
    simpa [wantedNodes, wantedTrees] using h
  | cons hash hashes ih =>
    unfold walkRoots
    cases htree : trees hash with
    | none =>
      obtain ⟨w', st', hrun, hst', h'⟩ := ih h hst
      refine ⟨w', st', ?_, hst', ?_⟩
      · rw [bind_of_ok (hstored.getRootNode_none laws htree hst)]
        by_cases hrow : (db.casPaths.get? hash).isSome
        · rw [if_pos hrow]
          dsimp only
          rw [bind_get, bind_of_ok (walkCasNode_placeholder _ w st)]
          exact hrun
        · rw [if_neg hrow]
          exact hrun
      · rwa [wantedNodes, wantedTrees, List.filterMap_cons_none htree]
    | some t =>
      have hroot : HasRoot ext st.db hash t := hst.db ▸ hstored.root hash t htree
      have hdepth : t.depth ≤ st.db.depth := by rw [hst.db]; exact (hstored.stored hash t htree).directories.depth_le laws
      have hopened : ∀ entries ∈ ([] : List (List (String × NarNode))), ¬ NarNode.directory entries ∈ t.postorder :=
        fun _ hin => absurd hin List.not_mem_nil
      obtain ⟨w₁, st₁, hrun₁, hst₁, h₁⟩ := walkCasNode_walks laws t hdepth (hstored.stored hash t htree) h hopened hst
      obtain ⟨w', st', hrun, hst', h'⟩ := ih h₁ hst₁
      refine ⟨w', st', ?_, hst', ?_⟩
      · rw [bind_of_ok (getRootNode_of_hasRoot laws hst.quiet hroot)]
        dsimp only
        rw [bind_get, bind_of_ok hrun₁]
        exact hrun
      · rw [wantedNodes, wantedTrees, List.filterMap_cons_some htree, List.flatMap_cons, ← List.append_assoc]
        exact h'

/-- The answer to a walk, in the order in which things are met first. -/
theorem walkCasTrees_eq (laws : ext.Laws) {trees : String → Option NarNode} (hstored : StoredTrees ext db trees)
    (haveChunks : ChunkHaveCheck δ) (wantHashes : List String) {st : Store δ} (hst : Serving ext db files st) :
    ChildrenFirst ext (once ((dirsOf (wantedNodes trees wantHashes)).map (dirPair ext))) ∧ ∃ st',
    walkCasTrees ext haveChunks wantHashes st = .ok
      (((once ((dataOf (wantedNodes trees wantHashes)).flatMap (chunkRefs ext))).filter fun chunk => !haveChunks.contains ext chunk.1).map
          (chunkMeta ext),
        once ((dirsOf (wantedNodes trees wantHashes)).map (dirPair ext)),
        ((once (dataOf (wantedNodes trees wantHashes))).filter fun data => !(chunkRefs ext data).isEmpty).map
          fun data => (ext.blake3 data, chunkRefs ext data)) st' ∧ Serving ext db files st' := by
  obtain ⟨w, st', hrun, hst', h⟩ := walkRoots_walks laws hstored wantHashes (walked_empty : Walked ext haveChunks [] [] .empty) hst
  rw [List.nil_append] at h
  refine ⟨h.directories ▸ h.childrenFirst, st', ?_, hst'⟩
  unfold walkCasTrees
  rw [bind_of_ok hrun]
  show EStateM.Result.ok (w.missingChunks, w.directories, w.fileMappings) st' = _
  rw [h.missingChunks, h.directories, h.fileMappings]

omit [DecidableEq δ] in
theorem mem_wantedNodes {trees : String → Option NarNode} {wantHashes : List String} {s : NarNode} :
    s ∈ wantedNodes trees wantHashes ↔ ∃ t ∈ wantedTrees trees wantHashes, s ∈ t.postorder := List.mem_flatMap

theorem mem_dataOf_wanted {trees : String → Option NarNode} {wantHashes : List String} {data : Bytes} :
    data ∈ dataOf (wantedNodes trees wantHashes) ↔ ∃ t ∈ wantedTrees trees wantHashes, data ∈ t.files := by
  unfold dataOf NarNode.files
  simp only [List.mem_filterMap, mem_wantedNodes]
  constructor
  · rintro ⟨s, ⟨t, ht, hs⟩, hd⟩
    exact ⟨t, ht, s, hs, hd⟩
  · rintro ⟨t, ht, s, hs, hd⟩
    exact ⟨s, ⟨t, ht, hs⟩, hd⟩

/-- Every directory once and after its children, every file with chunks once, and
every chunk once that the client does not say it has. -/
structure ListsOnce (ext : Ext δ) (haveChunks : ChunkHaveCheck δ) (wanted : List NarNode) (missing : List ChunkMeta)
    (dirs : List (δ × CaDirectory)) (mappings : List (δ × List (δ × Nat))) : Prop where
  dirs_nodup : (dirs.map Prod.fst).Nodup
  childrenFirst : ChildrenFirst ext dirs
  mem_dirs : ∀ d dir, (d, dir) ∈ dirs ↔ ∃ t ∈ wanted, ∃ entries, NarNode.directory entries ∈ t.postorder ∧
    d = dirDigest ext entries ∧ dir = ⟨caEntries ext entries⟩
  mappings_nodup : (mappings.map Prod.fst).Nodup
  mem_mappings : ∀ file chunks, (file, chunks) ∈ mappings ↔ chunks ≠ [] ∧ ∃ t ∈ wanted, ∃ data ∈ t.files,
    file = ext.blake3 data ∧ chunks = chunkRefs ext data
  missing_nodup : (missing.map ChunkMeta.digest).Nodup
  mem_missing : ∀ cm, cm ∈ missing ↔ ∃ chunk, cm = chunkMeta ext chunk ∧ haveChunks.contains ext chunk.1 = false ∧
    ∃ t ∈ wanted, ∃ data ∈ t.files, chunk ∈ chunkRefs ext data

theorem walkCasTrees_listsOnce (laws : ext.Laws) {trees : String → Option NarNode} (hstored : StoredTrees ext db trees)
    (haveChunks : ChunkHaveCheck δ) (wantHashes : List String) {st : Store δ} (hst : Serving ext db files st) :
    ∃ missing dirs mappings st', walkCasTrees ext haveChunks wantHashes st = .ok (missing, dirs, mappings) st' ∧
      Serving ext db files st' ∧ ListsOnce ext haveChunks (wantedTrees trees wantHashes) missing dirs mappings := by
  obtain ⟨hfirst, st', hrun, hst'⟩ := walkCasTrees_eq laws hstored haveChunks wantHashes hst
  refine ⟨_, _, _, st', hrun, hst', ?_, hfirst, fun d dir => ?_, ?_, fun file chunks => ?_, ?_, fun cm => ?_⟩
  · refine (nodup_once _).map_on fun p hp q hq heq => ?_
    obtain ⟨entries, -, rfl⟩ := List.mem_map.mp (mem_once.mp hp)
    obtain ⟨entries', -, rfl⟩ := List.mem_map.mp (mem_once.mp hq)
    obtain rfl := dirDigest_injective laws heq
    rfl
  · rw [mem_once, List.mem_map]
    simp only [mem_dirsOf, mem_wantedNodes, dirPair, Prod.mk.injEq]
    constructor
    · rintro ⟨entries, ⟨t, ht, hs⟩, rfl, rfl⟩
      exact ⟨t, ht, entries, hs, rfl, rfl⟩
    · rintro ⟨t, ht, entries, hs, rfl, rfl⟩
      exact ⟨entries, ⟨t, ht, hs⟩, rfl, rfl⟩
  · rw [List.map_map]
    exact ((nodup_once _).filter _).map laws.blake3_injective
  · simp only [List.mem_map, List.mem_filter, mem_once, mem_dataOf_wanted, Bool.not_eq_true', List.isEmpty_eq_false_iff, Prod.mk.injEq]
    constructor
    · rintro ⟨data, ⟨⟨t, ht, hdata⟩, hne⟩, rfl, rfl⟩
      exact ⟨hne, t, ht, data, hdata, rfl, rfl⟩
    · rintro ⟨hne, t, ht, data, hdata, rfl, rfl⟩
      exact ⟨data, ⟨⟨t, ht, hdata⟩, hne⟩, rfl, rfl⟩
  · rw [List.map_map]
    refine ((nodup_once _).filter _).map_on fun c hc c' hc' heq => ?_
    obtain ⟨data, -, hc⟩ := List.mem_flatMap.mp (mem_once.mp (List.mem_filter.mp hc).1)
    obtain ⟨data', -, hc'⟩ := List.mem_flatMap.mp (mem_once.mp (List.mem_filter.mp hc').1)
    refine chunkRefs_functional laws hc hc' (laws.toVec_injective ?_)
    simpa [chunkMeta] using heq
  · simp only [List.mem_map, List.mem_filter, mem_once, List.mem_flatMap, mem_dataOf_wanted, Bool.not_eq_true']
    constructor
    · rintro ⟨chunk, ⟨⟨data, ⟨t, ht, hdata⟩, hchunk⟩, hhave⟩, rfl⟩
      exact ⟨chunk, rfl, hhave, t, ht, data, hdata, hchunk⟩
    · rintro ⟨chunk, rfl, hhave, t, ht, data, hdata, hchunk⟩
      exact ⟨chunk, ⟨⟨data, ⟨t, ht, hdata⟩, hchunk⟩, hhave⟩, rfl⟩

/-! ## After any run -/

theorem GcInv.fileStored (laws : ext.Laws) {st : Store δ} {nars : String → Option NarNode} (h : GcInv ext st nars) {hash : String}
    {t : NarNode} (hnars : nars hash = some t) {data : Bytes} (hdata : data ∈ t.files) : FileStored ext st.db data := by
  obtain ⟨-, data', heq, hstored⟩ := h.recorded hash _ (h.files hash t hnars data hdata)
  rwa [laws.blake3_injective heq] at hstored

theorem GcInv.storedTrees (laws : ext.Laws) {st : Store δ} {nars : String → Option NarNode} (h : GcInv ext st nars) :
    StoredTrees ext st.db nars where
  root hash t hnars := by
    obtain ⟨row, hrow⟩ := h.path hash t hnars
    exact ⟨row, hrow, by rw [h.root hash row hrow, hnars]; rfl⟩
  stored hash t hnars := ⟨h.directories hash t hnars, fun data hdata => fileChunks_of_stored h.rows (h.fileStored laws hnars hdata)⟩
  placeholder hash row hnars hrow := by rw [h.root hash row hrow, hnars]; rfl

theorem GcInv.serving {st : Store δ} {nars : String → Option NarNode} (h : GcInv ext st nars) : Serving ext st.db st.files st :=
  ⟨rfl, rfl, h.quiet, h.cache⟩

/-- Whatever was uploaded and evicted before, the walk lists each thing below the
wanted paths once. -/
theorem walk_after_run (laws : ext.Laws) {level : Int} {ops : List StoreOp} {s : Served δ}
    (hrun : Runs.Run (serveStep ext level) .init ops s) (haveChunks : ChunkHaveCheck δ) (wantHashes : List String) :
    ∃ missing dirs mappings st', walkCasTrees ext haveChunks wantHashes s.store = .ok (missing, dirs, mappings) st' ∧
      ListsOnce ext haveChunks (wantHashes.filterMap s.nars) missing dirs mappings := by
  obtain ⟨missing, dirs, mappings, st', hwalk, -, hlists⟩ :=
    walkCasTrees_listsOnce laws ((run_gcInv laws hrun).storedTrees laws) haveChunks wantHashes (run_gcInv laws hrun).serving
  exact ⟨missing, dirs, mappings, st', hwalk, hlists⟩

theorem walk_after_twoUploads : ∃ missing dirs mappings st',
    walkCasTrees sampleExt (.exact []) ["a", "b"] twoUploads.store = .ok (missing, dirs, mappings) st' ∧
      ListsOnce sampleExt (.exact []) [sampleFile, sampleFile] missing dirs mappings := by
  have hnars : ["a", "b"].filterMap twoUploads.nars = [sampleFile, sampleFile] := by
    simp [twoUploads, oneUpload]
  rw [← hnars]
  exact walk_after_run sampleExt_laws (.cons oneUpload_step (.cons twoUploads_step (.nil _))) (.exact []) ["a", "b"]

end Ekapkgs
