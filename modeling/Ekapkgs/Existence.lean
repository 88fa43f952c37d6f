import Ekapkgs.Bloom
import Ekapkgs.Recovery
import Ekapkgs.Lib.Runs

/-!
# Existence filters

`has_chunk` and `has_narinfo` ask a Bloom filter before the table. Uploads insert
into the filter next to their rows, and the warmup and recovery threads read the
table, build a new filter and put it in place of the old one.
-/

namespace Ekapkgs
open Keyed Runs

inductive StoreKind where
  | chunks
  | paths
  deriving DecidableEq

inductive StoreKey (δ : Type) where
  | chunk (digest : δ)
  | path (hash : String)
  deriving DecidableEq

variable {δ : Type}

def StoreKey.kind : StoreKey δ → StoreKind
  | .chunk _ => .chunks
  | .path _ => .paths

/-- The digest that stands for a key in its filter. -/
def StoreKey.filterDigest (ext : Ext δ) : StoreKey δ → Bytes
  | .chunk digest => ext.toVec digest
  | .path hash => ext.toVec (ext.blake3 (asBytes hash))

def Db.keysOf (db : Db δ) : StoreKind → List (StoreKey δ)
  | .chunks => db.chunks.rows.map fun r => .chunk r.1
  | .paths => db.casPaths.rows.map fun r => .path r.1

/-- What the bloom filters and the flag beside them hold. -/
structure Filters where
  bloom : StoreKind → BloomFilter
  bloomReady : Bool

variable [DecidableEq δ]

def Db.hasRow (db : Db δ) : StoreKey δ → Bool
  | .chunk digest => db.chunks.contains digest
  | .path hash => db.casPaths.contains hash

/-! ## The filters -/

section
variable (ext : Ext δ)

def Filters.insertKey (f : Filters) (key : StoreKey δ) : Filters :=
  { f with bloom := Function.update f.bloom key.kind ((f.bloom key.kind).insert (key.filterDigest ext)) }

def Filters.bloomInsert (f : Filters) (digest : δ) : Filters := f.insertKey ext (.chunk digest)
def Filters.pathBloomInsert (f : Filters) (hash : String) : Filters := f.insertKey ext (.path hash)

def BloomFilter.containsKey (b : BloomFilter) (key : StoreKey δ) : Bool := b.maybeContains (key.filterDigest ext)

/-- Until the warmup is done every key may be there. -/
def Filters.maybeContains (f : Filters) (key : StoreKey δ) : Bool := !f.bloomReady || (f.bloom key.kind).containsKey ext key

def Filters.bloomMaybeContains (f : Filters) (digest : δ) : Bool := f.maybeContains ext (.chunk digest)
def Filters.pathBloomMaybeContains (f : Filters) (hash : String) : Bool := f.maybeContains ext (.path hash)

/-- A row that cannot be read is left out. -/
def loadKey (bloom : BloomFilter) (key : StoreKey δ) : CasM δ BloomFilter := do
  if ← fails then pure bloom
  else pure (bloom.insert (key.filterDigest ext))

/-- The filter of the rows that a scan reads, empty without a scan. -/
def buildBloom (withFpr : Nat → BloomFilter) (kind : StoreKind) : CasM δ BloomFilter := do
  let count ← queryRow fun db => some (db.keysOf kind).length
  let bloom := withFpr (max (count.getD 0) 1024)
  if ← fails then pure bloom  -- prepare
  else if ← fails then pure bloom  -- query_map
  else
    let st ← get
    (st.db.keysOf kind).foldlM (loadKey ext) bloom

def buildChunkBloom (withFpr : Nat → BloomFilter) : CasM δ BloomFilter := buildBloom ext withFpr .chunks
def buildPathBloom (withFpr : Nat → BloomFilter) : CasM δ BloomFilter := buildBloom ext withFpr .paths

def hasKey (f : Filters) (key : StoreKey δ) : CasM δ Bool :=
  if f.maybeContains ext key then query fun db => db.hasRow key else pure false

def hasChunk (f : Filters) (digest : δ) : CasM δ Bool := hasKey ext f (.chunk digest)
def hasNarinfo (f : Filters) (hash : String) : CasM δ Bool := hasKey ext f (.path hash)

end

/-! ## Threads -/

/-- The writes to the tables that a request ends with. -/
inductive Commit where
  | storeChunk (data : Bytes)
  | putNar (now : Nat) (filePath : String) (data : Bytes)
  | storeMetadata (now : Nat) (hash : String) (narinfo : NarInfo) (rootNode : CaNode)

inductive FilterAct (δ : Type) where
  | bloomInsert (key : StoreKey δ)
  | commit (c : Commit)
  /-- `put_narinfo` looks for the row, and then for the root in it. -/
  | checkRow (now : Nat) (hash : String) (narinfo : NarInfo)
  | readRoot (now : Nat) (hash : String) (narinfo : NarInfo)
  | recover (left : Salvage δ)
  | rebuild (kind : StoreKind)
  | install (kind : StoreKind) (bloom : BloomFilter)
  | setReady

section
variable (ext : Ext δ) (level : Int)

/-- The chunks of a NAR, in the order they are ingested. -/
def narChunks (t : NarNode) : List (StoreKey δ) := (t.files.flatMap ext.chunks).map fun x => .chunk (ext.blake3 x)

def Commit.exec : Commit → CasM δ Unit
  | .storeChunk data => discard <| Ekapkgs.storeChunk ext level data
  | .putNar now filePath data => discard <| Ekapkgs.putNar ext level now filePath data
  | .storeMetadata now hash narinfo rootNode => Ekapkgs.storeMetadata ext now hash narinfo rootNode

def Commit.keys : Commit → List (StoreKey δ)
  | .storeChunk data => [.chunk (ext.blake3 data)]
  | .putNar _ filePath data =>
    match parseNar data with
    | .ok t => narChunks ext t ++ [.path (hashOfFilePath filePath)]
    | .error _ => []
  | .storeMetadata _ hash _ _ => [.path hash]

omit [DecidableEq δ] in
def Batch.keys : Batch δ → List (StoreKey δ)
  | .chunks rows => rows.map fun r => .chunk r.1
  | .casPaths rows => rows.map fun r => .path r.1
  | _ => []

omit [DecidableEq δ] in
def Salvage.keys (left : Salvage δ) : List (StoreKey δ) :=
  (left.chunks.map fun r => .chunk r.1) ++ left.casPaths.map fun r => .path r.1

/-- The keys an act may add to the tables. -/
def FilterAct.keys : FilterAct δ → List (StoreKey δ)
  | .commit c => c.keys ext
  | .recover left => left.keys
  | _ => []

/-- `put_narinfo` once it has a root. -/
def storeNarinfo (now : Nat) (hash : String) (narinfo : NarInfo) (rootNode : CaNode) : List (FilterAct δ) :=
  [.commit (.storeMetadata now hash narinfo rootNode), .bloomInsert (.path hash)]

/-- An act on the store: what is to be done right after it, and the keys it
stored. -/
def FilterAct.run (withFpr : Nat → BloomFilter) : FilterAct δ → CasM δ (List (FilterAct δ) × List (StoreKey δ))
  | .commit c => do
    c.exec ext level
    pure ([], c.keys ext)
  | .checkRow now hash narinfo => do
    if ← hasRoot hash then pure ([.readRoot now hash narinfo], [])
    else pure (storeNarinfo now hash narinfo placeholderRoot, [])
  | .readRoot now hash narinfo => do
    match ← getRootNode ext hash with
    | some rootNode => pure (storeNarinfo now hash narinfo rootNode, [])
    | none => pure ([], [])
  | .recover left =>
    match left.next with
    | none => pure ([], [])
    | some (batch, left') => do
      batch.write ext
      let st ← get
      pure ([.recover left'], batch.keys.filter st.db.hasRow)
  | .rebuild kind => do
    let bloom ← buildBloom ext withFpr kind
    pure ([.install kind bloom], [])
  | _ => pure ([], [])

/-- An act on the filters. -/
def FilterAct.onFilters (f : Filters) : FilterAct δ → Filters
  | .bloomInsert key => f.insertKey ext key
  | .install kind bloom => { f with bloom := Function.update f.bloom kind bloom }
  | .setReady => { f with bloomReady := true }
  | _ => f

/-- `put_nar` inserts the chunks while its transaction is open, and the path
after the commit. -/
def requestActs : StoreOp → List (FilterAct δ)
  | .storeChunkExternal data => [.commit (.storeChunk data), .bloomInsert (.chunk (ext.blake3 data))]
  | .putNar now filePath data =>
    match parseNar data with
    | .ok t => (narChunks ext t).map .bloomInsert ++
        [.commit (.putNar now filePath data), .bloomInsert (.path (hashOfFilePath filePath))]
    | .error _ => []
  | .putNarinfo now hash content =>
    match NarInfo.parse content with
    | some narinfo => [.checkRow now hash narinfo]
    | none => []
  | _ => []

end

def warmupActs : List (FilterAct δ) := [.rebuild .chunks, .rebuild .paths, .setReady]

def recoveryActs (salvage : Salvage δ) : List (FilterAct δ) := [.recover salvage, .rebuild .chunks, .rebuild .paths]

/-- A request or a background thread: what it has still to do, and the keys it
stored that were not evicted since. -/
structure FilterThread (δ : Type) where
  todo : List (FilterAct δ)
  stored : List (StoreKey δ)

/-! ## The server -/

structure FilterServer (δ : Type) where
  store : Store δ
  filters : Filters
  threads : List (FilterThread δ)

inductive FilterStep where
  | request (op : StoreOp)
  /-- The thread does its next act. -/
  | step (thread : Nat) (faults : List Bool)
  /-- An upload that has stored nothing yet gives up. -/
  | abort (thread : Nat)
  | evict (hash : String) (faults : List Bool)

def FilterThread.afterEviction (db : Db δ) (t : FilterThread δ) : FilterThread δ := { t with stored := t.stored.filter db.hasRow }

variable (ext : Ext δ) (level : Int) (withFpr : Nat → BloomFilter)

/-- A thread does an act and goes on, or fails and ends. -/
def runAct (s : FilterServer δ) (i : Nat) (t : FilterThread δ) (act : FilterAct δ) (todo : List (FilterAct δ))
    (faults : List Bool) : FilterServer δ :=
  match act.run ext level withFpr { s.store with faults } with
  | .ok (more, keys) st => {
      store := st
      filters := act.onFilters ext s.filters
      threads := s.threads.set i ⟨more ++ todo, t.stored ++ keys⟩ }
  | .error _ st => { s with store := st, threads := s.threads.set i { t with todo := [] } }

def filterNext (s : FilterServer δ) : FilterStep → Option (FilterServer δ)
  | .request op => some { s with threads := s.threads ++ [⟨requestActs ext op, []⟩] }
  | .step i faults =>
    match s.threads[i]? with
    | some ⟨act :: todo, stored⟩ => some (runAct ext level withFpr s i ⟨act :: todo, stored⟩ act todo faults)
    | _ => none
  | .abort i =>
    match s.threads[i]? with
    | some ⟨_, []⟩ => some { s with threads := s.threads.set i ⟨[], []⟩ }
    | _ => none
  | .evict hash faults =>
    let st := finalState (evictPath hash { s.store with faults })
    some { s with store := st, threads := s.threads.map (FilterThread.afterEviction st.db) }

abbrev filterStep : FilterServer δ → FilterStep → FilterServer δ → Prop := stepOf (filterNext ext level withFpr)

/-- The server starts on a database, with rows to recover or without. -/
def FilterServer.init (bloom : StoreKind → BloomFilter) (st : Store δ) (salvage : Salvage δ) : FilterServer δ where
  store := st
  filters := ⟨bloom, false⟩
  threads := [⟨warmupActs, st.db.keysOf .chunks ++ st.db.keysOf .paths⟩, ⟨recoveryActs salvage, []⟩]

/-- What `has_chunk` and `has_narinfo` answer. -/
def FilterServer.has (s : FilterServer δ) (key : StoreKey δ) : Bool := s.filters.maybeContains ext key && s.store.db.hasRow key

end Ekapkgs
