import Ekapkgs.CasPull
import Ekapkgs.StreamNars

/-!
# Deltas between paths

`compute_deltas` of `api/negotiate.rs` and `DeltaCache` of `main.rs`. While it
negotiates, the server compresses a wanted NAR against a NAR of the same package
that the client has and keeps the delta for the stream. The cache finds a delta by
its target alone.
-/

namespace Ekapkgs
open Keyed

/-! ## The cache -/

structure DeltaCache where
  map : Table (String × String) Bytes
  byTarget : Table String (String × String)
  order : List (String × String)
  totalBytes : Nat

def DELTA_CACHE_MAX_BYTES : Nat := 64 * 1024 * 1024
def DELTA_ENTRY_MAX_BYTES : Nat := 16 * 1024 * 1024

namespace DeltaCache

def new : DeltaCache := ⟨.empty, .empty, [], 0⟩

/-- Take an entry out of the map and of the index by target. -/
def remove (c : DeltaCache) (key : String × String) : DeltaCache :=
  match c.map.get? key with
  | some old =>
    { c with map := c.map.delete key, byTarget := c.byTarget.delete key.2, totalBytes := c.totalBytes - old.length }
  | none => c

/-- Evict the oldest entries until there is room, or no entry is left. -/
def evict (deltaLen : Nat) : List (String × String) → DeltaCache → DeltaCache
  | [], c => { c with order := [] }
  | key :: order, c =>
    if DELTA_CACHE_MAX_BYTES < c.totalBytes + deltaLen then evict deltaLen order (c.remove key)
    else { c with order := key :: order }

def insert (c : DeltaCache) (baseHash targetHash : String) (delta : Bytes) : DeltaCache :=
  if DELTA_ENTRY_MAX_BYTES < delta.length then c
  else
    let key := (baseHash, targetHash)
    let c := if (c.map.get? key).isSome then { c.remove key with order := c.order.filter (· ≠ key) } else c
    let c := evict delta.length c.order c
    { map := c.map.insertOrReplace key delta
      byTarget := c.byTarget.insertOrReplace targetHash key
      order := c.order ++ [key]
      totalBytes := c.totalBytes + delta.length }

/-- The base and the bytes of the delta that the index names for a target. -/
def entryForTarget (c : DeltaCache) (targetHash : String) : Option (String × Bytes) := do
  let key ← c.byTarget.get? targetHash
  let delta ← c.map.get? key
  pure (key.1, delta)

def getForTarget (c : DeltaCache) (targetHash : String) : Option Bytes := (c.entryForTarget targetHash).map Prod.snd

end DeltaCache

/-! ## What an insertion leaves -/

namespace DeltaCache

/-- Every entry and index of `c'` is one of `c`. -/
structure Within (c' c : DeltaCache) : Prop where
  map : ∀ key delta, c'.map.get? key = some delta → c.map.get? key = some delta
  byTarget : ∀ target key, c'.byTarget.get? target = some key → c.byTarget.get? target = some key

theorem Within.refl (c : DeltaCache) : c.Within c := ⟨fun _ _ h => h, fun _ _ h => h⟩

theorem Within.trans {c c' c'' : DeltaCache} (h : c''.Within c') (h' : c'.Within c) : c''.Within c :=
  ⟨fun key delta hget => h'.map key delta (h.map key delta hget), fun target key hget => h'.byTarget target key (h.byTarget target key hget)⟩

theorem remove_within (c : DeltaCache) (key : String × String) : (c.remove key).Within c := by
  unfold remove
  split
  · constructor
    · intro key' delta h
      rw [Table.get?_delete] at h
      exact (Option.ite_none_left_eq_some.mp h).2
    · intro target key' h
      rw [Table.get?_delete] at h
      exact (Option.ite_none_left_eq_some.mp h).2
  · exact .refl c

theorem evict_within (deltaLen : Nat) : ∀ (order : List (String × String)) (c : DeltaCache), (evict deltaLen order c).Within c
  | [], c => ⟨fun _ _ h => h, fun _ _ h => h⟩
  | key :: order, c => by
    unfold evict
    split
    · exact (evict_within deltaLen order _).trans (remove_within c key)
    · exact ⟨fun _ _ h => h, fun _ _ h => h⟩

/-- An entry after an insertion is the new one or an old one. -/
theorem get?_insert {c : DeltaCache} {baseHash targetHash : String} {delta delta' : Bytes} {key : String × String}
    (h : (c.insert baseHash targetHash delta).map.get? key = some delta') :
    key = (baseHash, targetHash) ∧ delta' = delta ∨ c.map.get? key = some delta' := by
  unfold insert at h
  split at h
  · exact .inr h
  · rw [Table.get?_insertOrReplace] at h
    split at h
    next heq => exact .inl ⟨heq, (Option.some.inj h).symm⟩
    · right
      have hmap := (evict_within _ _ _).map _ _ h
      split at hmap
      · exact (remove_within c _).map _ _ hmap
      · exact hmap

theorem byTarget_insert {c : DeltaCache} {baseHash targetHash target : String} {delta : Bytes} {key : String × String}
    (h : (c.insert baseHash targetHash delta).byTarget.get? target = some key) :
    target = targetHash ∧ key = (baseHash, targetHash) ∨ c.byTarget.get? target = some key := by
  unfold insert at h
  split at h
  · exact .inr h
  · rw [Table.get?_insertOrReplace] at h
    split at h
    next heq => exact .inl ⟨heq, (Option.some.inj h).symm⟩
    · right
      have hindex := (evict_within _ _ _).byTarget _ _ h
      split at hindex
      · exact (remove_within c _).byTarget _ _ hindex
      · exact hindex

end DeltaCache

/-! ## The deltas of a negotiation -/

/-- zstd with a dictionary, which reverses when the dictionary is the same. -/
structure DeltaCodec where
  compressWithDict : Bytes → Bytes → Option Bytes
  decompressWithDict : Bytes → Bytes → Option Bytes
  decompress_compress : ∀ data dict delta, compressWithDict data dict = some delta → decompressWithDict delta dict = some data

structure DeltaEntry extends ManifestEntry where
  deltaBaseHash : String
  deltaUrl : String
  deltaSize : Nat

def compressionOf (compression : String) : Compression :=
  if compression = "zstd" then .zstd
  else if compression = "xz" then .xz
  else if compression = "none" ∨ compression = "" then .none
  else .unspecified

def manifestEntry (sign : String → String) (narinfo : NarInfo) : DeltaEntry :=
  let ni := narinfo.signed sign
  { storePath := ni.storePath, references := ni.references, narHash := ni.narHash, narSize := ni.narSize
    signatures := ni.signatures, ca := ni.ca.getD "", url := ni.url, compression := compressionOf ni.compression
    fileHash := ni.fileHash, fileSize := ni.fileSize, deltaBaseHash := "", deltaUrl := "", deltaSize := 0 }

def MAX_DELTAS_PER_REQUEST : Nat := 32
def DELTA_MAX_NAR_SIZE : Nat := 64 * 1024 * 1024

/-- The package name: the store path without its hash and the version at its end. -/
def extractPname (storePath : String) : Option String :=
  (splitOnce "-" (rsplitNext '/' storePath)).map fun split =>
    let parts := Ekapkgs.split '-' split.2
    let version := parts.reverse.takeWhile fun part => part.toList.head?.any Char.isDigit
    let pnameEnd := parts.length - version.length
    if pnameEnd = 0 then split.2 else join '-' (parts.take pnameEnd)

structure DeltaCandidate where
  idx : Nat
  baseHash : String
  targetHash : String
  targetUrl : String

def Storage.narinfo? (storage : Storage) (hash : String) : Option NarInfo := (storage.getNarinfo hash).toOption.join

/-- `get_nar`: what `write_nar_to` writes, if it gets to the end. -/
def Storage.getNar (storage : Storage) (filePath : String) : Option Bytes :=
  let written := storage.writeNarTo filePath
  if written.result = .ok true then some written.bytes else none

section
variable (storage : Storage)

/-- The hash and the size of the last path of the client with each name. -/
def haveByPname (haveHashes : List String) : Table String (String × Nat) :=
  haveHashes.foldl (fun map hash =>
    match storage.narinfo? hash with
    | none => map
    | some ni =>
      match extractPname ni.storePath with
      | none => map
      | some pname => map.insertOrReplace pname (hash, ni.narSize)) .empty

def candidateFor (have_ : Table String (String × Nat)) (idx : Nat) (entry : DeltaEntry) : Option DeltaCandidate := do
  let targetPname ← extractPname entry.storePath
  let base ← have_.get? targetPname
  let targetHash := hashPart entry.storePath
  if base.1 = targetHash ∨ DELTA_MAX_NAR_SIZE < entry.narSize ∨ DELTA_MAX_NAR_SIZE < base.2 then none
  else some ⟨idx, base.1, targetHash, entry.url⟩

def deltaCandidates (haveHashes : List String) (available : List DeltaEntry) : List DeltaCandidate :=
  (available.zipIdx.filterMap fun entry => candidateFor (haveByPname storage haveHashes) entry.2 entry.1).take MAX_DELTAS_PER_REQUEST

/-- The delta of a candidate, if it is below four fifths of the target. -/
def computeDelta (codec : DeltaCodec) (candidate : DeltaCandidate) : Option Bytes := do
  let baseNar ← storage.getNar ("nar/" ++ candidate.baseHash ++ ".nar")
  let targetNar ← storage.getNar candidate.targetUrl
  let delta ← codec.compressWithDict targetNar baseNar
  if targetNar ≠ [] ∧ 5 * delta.length < 4 * targetNar.length then some delta else none

end

def DeltaEntry.withDelta (entry : DeltaEntry) (baseHash targetHash : String) (delta : Bytes) : DeltaEntry :=
  { entry with deltaBaseHash := baseHash, deltaUrl := "delta/" ++ baseHash ++ "/" ++ targetHash, deltaSize := delta.length }

end Ekapkgs
