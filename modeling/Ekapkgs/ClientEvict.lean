import Ekapkgs.ClientIndex

/-!
# Evicting from the client's chunk store

`evict_to_size` of `chunk_store.rs`. The rows of a file go only with the last
recorded path, and a chunk goes only when no row of a file names it. So nothing
that a recorded path needs is removed, and nothing is freed before the last path.
-/

namespace Ekapkgs
open Keyed Fallible

variable {δ : Type} [DecidableEq δ] {fails : Call δ → Bool} {ext : Ext δ}

namespace ChunkStore
variable (store : ChunkStore δ)

def chunksOf (fileDigest : δ) : List δ := (store.fileChunks.rows.filter fun row => row.1.1 = fileDigest).map fun row => row.2.1

/-- Some file has the chunk. -/
def names (chunkDigest : δ) : Bool := store.fileChunks.rows.any fun row => row.2.1 = chunkDigest

/-- This path, if any, is the only one recorded. -/
def lastPath (hash : String) : Bool := store.casPaths.rows.all fun row => row.1 = hash

def withoutFiles (fileDigests : List δ) : ChunkStore δ :=
  { store with fileChunks := store.fileChunks.deleteWhere fun key _ => decide (key.1 ∈ fileDigests) }

theorem mem_chunksOf {fileDigest c : δ} : c ∈ store.chunksOf fileDigest ↔ ∃ row ∈ store.fileChunks.rows, row.1.1 = fileDigest ∧ row.2.1 = c := by
  unfold chunksOf
  rw [List.mem_map]
  constructor
  · rintro ⟨row, hrow, rfl⟩
    obtain ⟨hmem, hfile⟩ := List.mem_filter.mp hrow
    exact ⟨row, hmem, by simpa using hfile, rfl⟩
  · rintro ⟨row, hmem, hfile, rfl⟩
    exact ⟨row, List.mem_filter.mpr ⟨hmem, by simpa using hfile⟩, rfl⟩

theorem names_iff {c : δ} : store.names c = true ↔ ∃ row ∈ store.fileChunks.rows, row.2.1 = c := by
  unfold names
  simp only [List.any_eq_true, decide_eq_true_eq]

theorem withoutFiles_nil : store.withoutFiles [] = store := by
  unfold withoutFiles
  rw [Table.deleteWhere_false]
  simp

theorem withoutFiles_cons (fileDigest : δ) (fileDigests : List δ) :
    (store.withoutFiles [fileDigest]).withoutFiles fileDigests = store.withoutFiles (fileDigest :: fileDigests) := by
  unfold withoutFiles
  simp only [Table.deleteWhere_deleteWhere, List.mem_cons, List.not_mem_nil, or_false, Bool.decide_or]

theorem mem_withoutFiles {fileDigests : List δ} {row : (δ × Nat) × (δ × Nat)} :
    row ∈ (store.withoutFiles fileDigests).fileChunks.rows ↔ row ∈ store.fileChunks.rows ∧ row.1.1 ∉ fileDigests := by
  unfold withoutFiles Table.deleteWhere
  simp [List.mem_filter]

end ChunkStore

/-! ## The files of a path -/

theorem chunksOfEvicted_ok {hash : String} {digests out : List δ} {f : δ} {s s' : ChunkStore δ}
    (h : chunksOfEvicted fails hash digests f s = .ok out s') :
    out = digests ++ s.chunksOf f ∧ s' = if s.lastPath hash then s.withoutFiles [f] else s := by
  unfold chunksOfEvicted at h
  obtain ⟨_, s₁, hselect, h⟩ := bind_ok.mp h
  rw [performCall_ok hselect, bind_get] at h
  obtain ⟨_, s₂, hothers, h⟩ := bind_ok.mp h
  rw [performCall_ok hothers] at h
  unfold ChunkStore.lastPath
  split at h
  next hlast =>
    rw [if_pos hlast]
    obtain ⟨_, s₃, hdelete, h⟩ := bind_ok.mp h
    rw [performCall_ok hdelete] at h
    cases h
    refine ⟨rfl, ?_⟩
    unfold ChunkStore.withoutFiles
    simp
  next hlast =>
    rw [if_neg hlast]
    cases h
    exact ⟨rfl, rfl⟩

/-- Beside another path the rows stay, so each chunk collected is named by one. -/
theorem chunksOfFiles_shared {hash : String} {s : ChunkStore δ} (hlast : s.lastPath hash = false) : ∀ {fds digests out : List δ} {s' : ChunkStore δ},
    fds.foldlM (chunksOfEvicted fails hash) digests s = .ok out s' → (∀ c ∈ digests, s.names c = true) →
      s' = s ∧ ∀ c ∈ out, s.names c = true
  | [], _, _, _, h, hnamed => by
    cases h
    exact ⟨rfl, hnamed⟩
  | f :: fds, digests, out, s', h, hnamed => by
    rw [List.foldlM_cons] at h
    obtain ⟨out₁, s₁, hfile, h⟩ := bind_ok.mp h
    obtain ⟨rfl, hs₁⟩ := chunksOfEvicted_ok hfile
    rw [if_neg (by simp [hlast])] at hs₁
    rw [hs₁] at h
    refine chunksOfFiles_shared hlast h fun c hc => ?_
    rcases List.mem_append.mp hc with hc | hc
    · exact hnamed c hc
    · obtain ⟨row, hrow, -, hchunk⟩ := s.mem_chunksOf.mp hc
      exact s.names_iff.mpr ⟨row, hrow, hchunk⟩

/-- With the last path its rows go, and their chunks are collected. -/
theorem chunksOfFiles_last {hash : String} : ∀ {fds digests out : List δ} {s s' : ChunkStore δ}, s.lastPath hash = true →
    fds.foldlM (chunksOfEvicted fails hash) digests s = .ok out s' →
      s' = s.withoutFiles fds ∧ ∀ c, c ∈ out ↔ c ∈ digests ∨ ∃ row ∈ s.fileChunks.rows, row.1.1 ∈ fds ∧ row.2.1 = c
  | [], _, _, s, _, _, h => by
    cases h
    refine ⟨s.withoutFiles_nil.symm, fun c => ?_⟩
    simp
  | f :: fds, digests, out, s, s', hlast, h => by
    rw [List.foldlM_cons] at h
    obtain ⟨out₁, s₁, hfile, h⟩ := bind_ok.mp h
    obtain ⟨rfl, hs₁⟩ := chunksOfEvicted_ok hfile
    rw [if_pos hlast] at hs₁
    subst hs₁
    have hlast₁ : (s.withoutFiles [f]).lastPath hash = true := hlast
    obtain ⟨hs', hout⟩ := chunksOfFiles_last hlast₁ h
    refine ⟨hs'.trans (s.withoutFiles_cons f fds), fun c => ?_⟩
    rw [hout, List.mem_append, s.mem_chunksOf, or_assoc]
    refine or_congr_right ⟨?_, ?_⟩
    · rintro (⟨row, hrow, hfile, hchunk⟩ | ⟨row, hrow, hfile, hchunk⟩)
      · exact ⟨row, hrow, List.mem_cons.mpr (.inl hfile), hchunk⟩
      · exact ⟨row, (s.mem_withoutFiles.mp hrow).1, List.mem_cons_of_mem _ hfile, hchunk⟩
    · rintro ⟨row, hrow, hfile, hchunk⟩
      by_cases hf : row.1.1 = f
      · exact .inl ⟨row, hrow, hf, hchunk⟩
      · refine .inr ⟨row, s.mem_withoutFiles.mpr ⟨hrow, by simpa using hf⟩, ?_, hchunk⟩
        exact (List.mem_cons.mp hfile).resolve_left hf

/-! ## The chunks of a path -/

/-- A chunk that a file has stays; any other goes. -/
theorem dropOrphan_ok {n n' : Nat} {c : δ} {s s' : ChunkStore δ} (h : dropOrphan fails n c s = .ok n' s') :
    (s.names c = true ∧ s' = s ∧ n' = n) ∨
      s.names c = false ∧ ∃ files, s' = { s with chunks := s.chunks.delete c, files := files } := by
  unfold dropOrphan at h
  obtain ⟨_, s₁, hselect, h⟩ := bind_ok.mp h
  rw [performCall_ok hselect, bind_get] at h
  unfold ChunkStore.names
  split at h
  next hnamed =>
    cases h
    exact .inl ⟨hnamed, rfl, rfl⟩
  next hnamed =>
    obtain ⟨_, s₂, hdelete, h⟩ := bind_ok.mp h
    rw [performCall_ok hdelete] at h
    cases h
    exact .inr ⟨Bool.eq_false_iff.mpr hnamed, _, rfl⟩

theorem dropOrphans_named : ∀ {cs : List δ} {n n' : Nat} {s s' : ChunkStore δ}, (∀ c ∈ cs, s.names c = true) →
    cs.foldlM (dropOrphan fails) n s = .ok n' s' → s' = s ∧ n' = n
  | [], _, _, _, _, _, h => by
    cases h
    exact ⟨rfl, rfl⟩
  | c :: cs, n, n', s, s', hnamed, h => by
    rw [List.foldlM_cons] at h
    obtain ⟨n₁, s₁, hdrop, h⟩ := bind_ok.mp h
    rcases dropOrphan_ok hdrop with ⟨-, hs₁, hn₁⟩ | ⟨hnot, -⟩
    · rw [hs₁, hn₁] at h
      exact dropOrphans_named (fun c' hc' => hnamed c' (List.mem_cons_of_mem _ hc')) h
    · rw [hnamed c (List.mem_cons_self ..)] at hnot
      cases hnot

theorem dropOrphans_ok : ∀ {cs : List δ} {n n' : Nat} {s s' : ChunkStore δ}, cs.foldlM (dropOrphan fails) n s = .ok n' s' →
    ∃ files, s' = { s with chunks := s.chunks.deleteWhere fun c _ => decide (c ∈ cs) && !s.names c, files := files }
  | [], _, _, s, _, h => by
    cases h
    refine ⟨s.files, ?_⟩
    rw [Table.deleteWhere_false]
    simp
  | c :: cs, n, n', s, s', h => by
    rw [List.foldlM_cons] at h
    obtain ⟨n₁, s₁, hdrop, h⟩ := bind_ok.mp h
    obtain ⟨files, hs'⟩ := dropOrphans_ok h
    refine ⟨files, ?_⟩
    rcases dropOrphan_ok hdrop with ⟨hnamed, rfl, -⟩ | ⟨hnot, files₁, rfl⟩
    · rw [hs']
      congr 2
      funext c' _
      by_cases hc : c' = c
      · rw [hc, hnamed, Bool.not_true, Bool.and_false, Bool.and_false]
      · simp [hc]
    · rw [hs']
      show ChunkStore.mk ((s.chunks.deleteWhere _).deleteWhere fun c' _ => decide (c' ∈ cs) && !s.names c') _ _ _ _ = _
      rw [Table.deleteWhere_deleteWhere]
      congr 2
      funext c' _
      by_cases hc : c' = c
      · rw [hc, hnot]
        simp
      · simp [hc]

/-! ## A path -/

theorem collectFileDigests_casPaths (store : ChunkStore δ) (paths : Table String CachedPath) : ∀ (fuel : Nat) (caNode : CaNode) (out : List δ),
    collectFileDigests fails ext { store with casPaths := paths } fuel caNode out = collectFileDigests fails ext store fuel caNode out
  | 0, _, _ => rfl
  | fuel + 1, caNode, out => by
    have ih := collectFileDigests_casPaths store paths fuel
    unfold collectFileDigests
    simp only [ih]
    rfl

namespace ChunkStore

/-- The files of a path as the walk for them finds them. -/
def pathFiles (fails : Call δ → Bool) (ext : Ext δ) (store : ChunkStore δ) (row : CachedPath) : List δ :=
  ((ext.decodeNode row.rootNode).bind fun rootNode => (collectFileDigests fails ext store store.depth rootNode []).toOption).getD []

/-- The chunks when these files are gone and no other has them. -/
def remaining (store : ChunkStore δ) (fileDigests : List δ) : Table δ Nat :=
  store.chunks.deleteWhere fun c _ => store.names c && !(store.withoutFiles fileDigests).names c

def withoutPath (store : ChunkStore δ) (hash : String) : ChunkStore δ := { store with casPaths := store.casPaths.delete hash }

end ChunkStore

theorem pathFiles_casPaths (store : ChunkStore δ) (paths : Table String CachedPath) (row : CachedPath) :
    { store with casPaths := paths }.pathFiles fails ext row = store.pathFiles fails ext row := by
  unfold ChunkStore.pathFiles
  simp only [collectFileDigests_casPaths]
  rfl

/-- What the transaction does once it has the files of the path. -/
def removePath (fails : Call δ → Bool) (hash : String) (totalFreed : Nat) (fileDigests : List δ) : ChunkM δ Nat := do
  performCall fails (.deletePath hash)
  modify fun store => store.withoutPath hash
  let chunkDigests ← fileDigests.foldlM (chunksOfEvicted fails hash) []
  let totalFreed ← chunkDigests.foldlM (dropOrphan fails) totalFreed
  performCall fails (.commit hash)
  pure totalFreed

/-- Beside another path only the path goes; the last one takes its files and their chunks with it. -/
theorem removePath_ok {hash : String} {n n' : Nat} {fds : List δ} {s s' : ChunkStore δ} (h : removePath fails hash n fds s = .ok n' s') :
    ((s.withoutPath hash).lastPath hash = false ∧ s' = s.withoutPath hash ∧ n' = n) ∨
      (s.withoutPath hash).lastPath hash = true ∧ s'.casPaths = s.casPaths.delete hash ∧ s'.chunks = s.remaining fds := by
  unfold removePath at h
  obtain ⟨_, s₁, hdelete, h⟩ := bind_ok.mp h
  rw [performCall_ok hdelete, bind_modify] at h
  obtain ⟨chunkDigests, s₂, hchunks, h⟩ := bind_ok.mp h
  obtain ⟨freed, s₃, horphans, h⟩ := bind_ok.mp h
  obtain ⟨_, s₄, hcommit, h⟩ := bind_ok.mp h
  cases h
  rw [performCall_ok hcommit]
  cases hlast : (s.withoutPath hash).lastPath hash with
  | false =>
    obtain ⟨hs₂, hnamed⟩ := chunksOfFiles_shared hlast hchunks nofun
    rw [hs₂] at horphans
    obtain ⟨hs₃, hn⟩ := dropOrphans_named hnamed horphans
    exact .inl ⟨rfl, hs₃, hn⟩
  | true =>
    obtain ⟨hs₂, hmem⟩ := chunksOfFiles_last hlast hchunks
    rw [hs₂] at horphans
    obtain ⟨files, hs₃⟩ := dropOrphans_ok horphans
    refine .inr ⟨rfl, by rw [hs₃]; rfl, ?_⟩
    rw [hs₃]
    unfold ChunkStore.remaining
    show s.chunks.deleteWhere (fun c _ => decide (c ∈ chunkDigests) && !(s.withoutFiles fds).names c) = _
    congr 1
    funext c _
    cases hkept : (s.withoutFiles fds).names c with
    | true => rw [Bool.not_true, Bool.and_false, Bool.and_false]
    | false =>
      rw [Bool.not_false, Bool.and_true, Bool.and_true, Bool.eq_iff_iff, decide_eq_true_eq, hmem, s.names_iff]
      constructor
      · rintro (hc | ⟨row, hrow, -, hchunk⟩)
        · cases hc
        · exact ⟨row, hrow, hchunk⟩
      · rintro ⟨row, hrow, hchunk⟩
        refine .inr ⟨row, hrow, ?_, hchunk⟩
        by_contra hfile
        rw [(s.withoutFiles fds).names_iff.mpr ⟨row, s.mem_withoutFiles.mpr ⟨hrow, hfile⟩, hchunk⟩] at hkept
        cases hkept

/-- A path goes when its row can be read. -/
theorem evictCachedPath_ok {hash : String} {n n' : Nat} {s s' : ChunkStore δ} (h : evictCachedPath fails ext hash n s = .ok n' s') :
    ((fails (.selectPath hash) = true ∨ s.casPaths.get? hash = none) ∧ s' = s ∧ n' = n) ∨
      ∃ row, fails (.selectPath hash) = false ∧ s.casPaths.get? hash = some row ∧
        removePath fails hash n (s.pathFiles fails ext row) s = .ok n' s' := by
  unfold evictCachedPath at h
  dsimp only at h
  split at h
  next freed store hbody =>
    cases h
    obtain ⟨_, s₁, hbegin, hbody⟩ := bind_ok.mp hbody
    rw [performCall_ok hbegin, bind_get] at hbody
    by_cases hselect : fails (.selectPath hash) = true
    · rw [if_pos hselect] at hbody
      cases hbody
      exact .inl ⟨.inl hselect, rfl, rfl⟩
    rw [if_neg hselect] at hbody
    cases hrow : s.casPaths.get? hash with
    | none =>
      rw [hrow] at hbody
      cases hbody
      exact .inl ⟨.inr rfl, rfl, rfl⟩
    | some row =>
      rw [hrow] at hbody
      refine .inr ⟨row, Bool.eq_false_iff.mpr hselect, rfl, ?_⟩
      unfold ChunkStore.pathFiles
      cases hnode : ext.decodeNode row.rootNode with
      | none =>
        simp only [hnode] at hbody
        exact hbody
      | some rootNode =>
        simp only [hnode] at hbody
        rw [Option.bind_some]
        cases hcollect : collectFileDigests fails ext s s.depth rootNode [] with
        | error e =>
          rw [hcollect] at hbody
          cases hbody
        | ok fileDigests =>
          rw [hcollect] at hbody
          exact hbody
  next => cases h

/-! ## The loop -/

/-- One round of the loop. -/
def evictRound (fails : Call δ → Bool) (ext : Ext δ) (toFree totalFreed : Nat) (hash : String) : ChunkM δ Nat :=
  if toFree ≤ totalFreed then pure totalFreed else evictCachedPath fails ext hash totalFreed

theorem lastPath_withoutPath {s : ChunkStore δ} {hash : String} :
    (s.withoutPath hash).lastPath hash = true ↔ ∀ hash', hash' ≠ hash → s.casPaths.get? hash' = none := by
  unfold ChunkStore.lastPath ChunkStore.withoutPath
  rw [List.all_eq_true]
  constructor
  · intro h hash' hne
    cases hrow : s.casPaths.get? hash' with
    | none => rfl
    | some row =>
      have hkept : (s.casPaths.delete hash).get? hash' = some row := by rw [Table.get?_delete, if_neg hne, hrow]
      exact absurd (by simpa using h _ (Table.get?_eq_some.mp hkept)) hne
  · intro h row hrow
    have hget := Table.get?_eq_some.mpr hrow
    rw [Table.get?_delete] at hget
    split at hget
    · cases hget
    next hne =>
      rw [h _ hne] at hget
      cases hget

/-- While a newer path is recorded, the older paths go and nothing else does. -/
theorem evictRounds_shared {toFree : Nat} {newest : String} {row : CachedPath} : ∀ {l : List String} {n n' : Nat} {s s' : ChunkStore δ},
    n < toFree → newest ∉ l → s.casPaths.get? newest = some row → l.foldlM (evictRound fails ext toFree) n s = .ok n' s' →
      n' = n ∧ ∃ paths, s' = { s with casPaths := paths } ∧
        ∀ hash, paths.get? hash = if hash ∈ l ∧ fails (.selectPath hash) = false then none else s.casPaths.get? hash
  | [], _, _, s, _, _, _, _, h => by
    cases h
    refine ⟨rfl, s.casPaths, rfl, fun hash => ?_⟩
    rw [if_neg fun hl => nomatch hl.1]
  | hash :: l, n, n', s, s', hn, hnewest, hrow, h => by
    rw [List.mem_cons, not_or] at hnewest
    rw [List.foldlM_cons] at h
    obtain ⟨n₁, s₁, hround, h⟩ := bind_ok.mp h
    unfold evictRound at hround
    rw [if_neg (Nat.not_le.mpr hn)] at hround
    have hstep : n₁ = n ∧ ∃ paths, s₁ = { s with casPaths := paths } ∧
        ∀ hash', paths.get? hash' = if hash' = hash ∧ fails (.selectPath hash) = false then none else s.casPaths.get? hash' := by
      rcases evictCachedPath_ok hround with ⟨hskip, hs₁, hn₁⟩ | ⟨row', hread, -, hremove⟩
      · refine ⟨hn₁, s.casPaths, hs₁, fun hash' => ?_⟩
        split
        next hhash =>
          rw [hhash.1]
          refine hskip.resolve_left fun hfail => ?_
          rw [hhash.2] at hfail
          cases hfail
        next => rfl
      · rcases removePath_ok hremove with ⟨-, hs₁, hn₁⟩ | ⟨hlast, -⟩
        · refine ⟨hn₁, s.casPaths.delete hash, hs₁, fun hash' => ?_⟩
          simp [hread]
        · have hgone := lastPath_withoutPath.mp hlast newest hnewest.1
          rw [hrow] at hgone
          cases hgone
    obtain ⟨hn₁, paths, hs₁, hpaths⟩ := hstep
    rw [hn₁, hs₁] at h
    have hrow₁ : ({ s with casPaths := paths } : ChunkStore δ).casPaths.get? newest = some row := by
      show paths.get? newest = _
      rw [hpaths, if_neg fun hhash => hnewest.1 hhash.1, hrow]
    obtain ⟨hn', paths', hs', hpaths'⟩ := evictRounds_shared hn hnewest.2 hrow₁ h
    refine ⟨hn', paths', hs', fun hash' => ?_⟩
    rw [hpaths']
    show (if _ then none else paths.get? hash') = _
    rw [hpaths]
    by_cases hl : hash' ∈ l ∧ fails (.selectPath hash') = false
    · rw [if_pos hl, if_pos ⟨List.mem_cons_of_mem _ hl.1, hl.2⟩]
    · rw [if_neg hl]
      by_cases hhash : hash' = hash
      · subst hhash
        by_cases hread : fails (.selectPath hash') = false
        · rw [if_pos ⟨rfl, hread⟩, if_pos ⟨List.mem_cons_self .., hread⟩]
        · rw [if_neg fun h => hread h.2, if_neg fun h => hread h.2]
      · rw [if_neg fun h => hhash h.1, if_neg fun h => hl ⟨(List.mem_cons.mp h.1).resolve_left hhash, h.2⟩]

/-! ## What is left -/

/-- While a path is recorded, only other paths have gone. -/
def KeepsPaths (s s' : ChunkStore δ) : Prop :=
  ∀ hash row, s'.casPaths.get? hash = some row → s.casPaths.get? hash = some row ∧ s' = { s with casPaths := s'.casPaths }

/-- The files of the path that was recorded last. -/
def ChunkStore.newestFiles (fails : Call δ → Bool) (ext : Ext δ) (store : ChunkStore δ) : List δ :=
  (store.pathsByAge.getLast?.bind store.casPaths.get?).elim [] (store.pathFiles fails ext)

theorem pathsByAge_perm (s : ChunkStore δ) : s.pathsByAge.Perm (s.casPaths.rows.map Prod.fst) := (List.perm_insertionSort _ _).map _

theorem mem_pathsByAge {s : ChunkStore δ} {hash : String} : hash ∈ s.pathsByAge ↔ ∃ row, s.casPaths.get? hash = some row := by
  rw [(pathsByAge_perm s).mem_iff, Table.mem_keys_iff]

theorem remaining_nil (s : ChunkStore δ) : s.remaining [] = s.chunks := by
  unfold ChunkStore.remaining
  rw [s.withoutFiles_nil, Table.deleteWhere_false]
  simp

/-- Paths stay whole, and the target is met when the files of the newest path alone make up for all of them. -/
theorem evictToSize_meets_iff {target n : Nat} {s s' : ChunkStore δ} (h : evictToSize fails ext target s = .ok n s') :
    KeepsPaths s s' ∧ (s'.chunks.total id ≤ target ↔ s.chunks.total id ≤ target ∨
      (∀ hash ∈ s.pathsByAge, fails (.selectPath hash) = false) ∧ (s.remaining (s.newestFiles fails ext)).total id ≤ target) := by
  unfold evictToSize at h
  obtain ⟨_, s₁, htotal, h⟩ := bind_ok.mp h
  rw [performCall_ok htotal, bind_get] at h
  by_cases hcurrent : s.chunks.total id ≤ target
  · simp only [hcurrent, if_true] at h
    cases h
    exact ⟨fun hash row hrow => ⟨hrow, rfl⟩, iff_of_true hcurrent (.inl hcurrent)⟩
  simp only [hcurrent, if_false] at h
  obtain ⟨_, s₂, hpaths, h⟩ := bind_ok.mp h
  rw [performCall_ok hpaths] at h
  change s.pathsByAge.foldlM (evictRound fails ext (s.chunks.total id - target)) 0 s = _ at h
  have hfree : 0 < s.chunks.total id - target := by omega
  rcases List.eq_nil_or_concat s.pathsByAge with hnil | ⟨l, newest, hconcat⟩
  · rw [hnil] at h
    cases h
    refine ⟨fun hash row hrow => ⟨hrow, rfl⟩, iff_of_false hcurrent ?_⟩
    rintro (hmet | ⟨-, hmet⟩)
    · exact hcurrent hmet
    · unfold ChunkStore.newestFiles at hmet
      rw [hnil] at hmet
      exact hcurrent (remaining_nil s ▸ hmet)
  rw [List.concat_eq_append] at hconcat
  rw [hconcat, List.foldlM_append] at h
  obtain ⟨row, hrow⟩ := mem_pathsByAge.mp (show newest ∈ s.pathsByAge by rw [hconcat]; simp)
  have hnodup : (l ++ [newest]).Nodup := hconcat ▸ (pathsByAge_perm s).nodup_iff.mpr s.casPaths.nodup
  have hnewest : newest ∉ l := fun hmem => (List.nodup_append.mp hnodup).2.2 newest hmem newest (List.mem_singleton_self _) rfl
  obtain ⟨n₁, s₃, holder, h⟩ := bind_ok.mp h
  obtain ⟨rfl, paths, rfl, hpaths⟩ := evictRounds_shared hfree hnewest hrow holder
  rw [List.foldlM_cons] at h
  obtain ⟨n₂, s₄, hround, h⟩ := bind_ok.mp h
  cases h
  unfold evictRound at hround
  rw [if_neg (Nat.not_le.mpr hfree)] at hround
  have hrow₁ : paths.get? newest = some row := by rw [hpaths, if_neg fun hl => hnewest hl.1, hrow]
  have hkept : ∀ {hash row}, paths.get? hash = some row → s.casPaths.get? hash = some row := by
    intro hash row' hget
    rw [hpaths] at hget
    split at hget
    · cases hget
    · exact hget
  have hfiles : s.newestFiles fails ext = s.pathFiles fails ext row := by
    unfold ChunkStore.newestFiles
    rw [hconcat, List.getLast?_concat, Option.bind_some, hrow]
    rfl
  have hread : (∀ hash, hash ≠ newest → paths.get? hash = none) ↔ ∀ hash ∈ l, fails (.selectPath hash) = false := by
    constructor
    · intro hgone hash hmem
      obtain ⟨row', hrow'⟩ := mem_pathsByAge.mp (show hash ∈ s.pathsByAge by rw [hconcat]; simp [hmem])
      have hnone := hgone hash fun heq => hnewest (heq ▸ hmem)
      rw [hpaths, hrow'] at hnone
      by_contra hfail
      rw [if_neg fun hl => hfail hl.2] at hnone
      cases hnone
    · intro hall hash hne
      rw [hpaths]
      split
      · rfl
      next hl =>
        cases hget : s.casPaths.get? hash with
        | none => rfl
        | some row' =>
          have hmem := mem_pathsByAge.mpr ⟨row', hget⟩
          rw [hconcat, List.mem_append, List.mem_singleton] at hmem
          have hmem := hmem.resolve_right hne
          exact absurd ⟨hmem, hall hash hmem⟩ hl
  have hselects : (∀ hash ∈ s.pathsByAge, fails (.selectPath hash) = false) ↔
      (∀ hash, hash ≠ newest → paths.get? hash = none) ∧ fails (.selectPath newest) = false := by
    rw [hread, hconcat]
    simp only [List.mem_append, List.mem_singleton, or_imp, forall_and, forall_eq]
  rw [hselects, hfiles]
  rcases evictCachedPath_ok hround with ⟨hskip, rfl, -⟩ | ⟨row', hselect, hrow', hremove⟩
  · -- the newest path could not be read
    refine ⟨fun hash row hget => ⟨hkept hget, rfl⟩, iff_of_false hcurrent ?_⟩
    rintro (hmet | ⟨⟨-, hselect⟩, -⟩)
    · exact hcurrent hmet
    · rcases hskip with hfail | hnone
      · rw [hselect] at hfail
        cases hfail
      · rw [hrow₁] at hnone
        cases hnone
  · obtain rfl := Option.some.inj (hrow₁.symm.trans hrow')
    rw [pathFiles_casPaths] at hremove
    rcases removePath_ok hremove with ⟨hlast, rfl, -⟩ | ⟨hlast, hgone, hchunks⟩
    · -- an older path could not be read and is still there
      refine ⟨fun hash row' hget => ⟨?_, rfl⟩, iff_of_false hcurrent ?_⟩
      · change (paths.delete newest).get? hash = some row' at hget
        rw [Table.get?_delete] at hget
        split at hget
        · cases hget
        · exact hkept hget
      · rintro (hmet | ⟨⟨hall, -⟩, -⟩)
        · exact hcurrent hmet
        · rw [lastPath_withoutPath.mpr hall] at hlast
          cases hlast
    · have hall := lastPath_withoutPath.mp hlast
      refine ⟨fun hash row' hget => ?_, ?_⟩
      · rw [hgone, Table.get?_delete] at hget
        split at hget
        · cases hget
        next hne =>
          rw [hall hash hne] at hget
          cases hget
      · rw [hchunks]
        show (s.remaining (s.pathFiles fails ext row)).total id ≤ target ↔ _
        exact ⟨fun hmet => .inr ⟨⟨hall, hselect⟩, hmet⟩, fun hmet => (hmet.resolve_left hcurrent).2⟩

/-! ## Two paths of their own -/

/-- The files of a recorded path have the chunk. -/
def ChunkStore.Referenced (ext : Ext δ) (store : ChunkStore δ) : Prop :=
  ∀ c ∈ store.chunks.rows.map Prod.fst, ∃ hash row, store.casPaths.get? hash = some row ∧
    ∃ file ∈ store.pathFiles (fun _ => false) ext row, c ∈ store.chunksOf file

/-- Two files of one chunk each, three bytes and one. -/
def twoPathStore : ChunkStore Bytes where
  chunks := (Table.empty.insertOrIgnore [1, 1, 1] 3).insertOrIgnore [2] 1
  fileChunks := (Table.empty.insertOrIgnore ([1, 1, 1], 0) ([1, 1, 1], 3)).insertOrIgnore ([2], 0) ([2], 1)
  directories := .empty
  casPaths := (Table.empty.insertOrIgnore "a" ⟨sampleExt.encodeNode (caNode sampleExt (.regular false [1, 1, 1])), 1⟩).insertOrIgnore "b"
    ⟨sampleExt.encodeNode (caNode sampleExt (.regular false [2])), 2⟩
  files := fun digest => if digest ∈ [[1, 1, 1], [2]] then some digest else none

theorem evictToSize_meets_twoPathStore : ∃ n s', evictToSize (fun _ => false) sampleExt 3 twoPathStore = .ok n s' ∧
    s'.chunks.total id ≤ 3 := by
  have hrun : evictToSize (fun _ => false) sampleExt 3 twoPathStore = .ok 1 _ := rfl
  exact ⟨1, _, hrun, (evictToSize_meets_iff hrun).2.mpr (.inr ⟨fun _ _ => rfl, by decide⟩)⟩

theorem twoPathStore_misses : ¬ ∀ (store store' : ChunkStore Bytes) (target n : Nat), store.Referenced sampleExt →
    evictToSize (fun _ => false) sampleExt target store = .ok n store' → store'.chunks.total id ≤ target := by
  intro h
  have hrun : evictToSize (fun _ => false) sampleExt 1 twoPathStore = .ok 1 _ := rfl
  have hreferenced : twoPathStore.Referenced sampleExt := by
    have hkeys : twoPathStore.chunks.rows.map Prod.fst = [[1, 1, 1], [2]] := by decide
    intro c hc
    rw [hkeys, List.mem_cons, List.mem_singleton] at hc
    rcases hc with rfl | rfl
    · exact ⟨"a", _, rfl, [1, 1, 1], by decide, by decide⟩
    · exact ⟨"b", _, rfl, [2], by decide, by decide⟩
  have hmet := h _ _ _ _ hreferenced hrun
  revert hmet
  decide

end Ekapkgs
