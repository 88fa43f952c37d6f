import Ekapkgs.NarInfo
import Ekapkgs.Lib.Keyed

/-!
# Garbage collection of a cache directory

`gc.rs` for the filesystem storage: a database next to the files says which
paths there are, how large they are, when they were last read and what they
refer to. Nothing fails here, other than the removal of a file that is not there.
-/

namespace Ekapkgs
open Keyed

/-! ## Tables -/

structure StorePathRow where
  storePath : String
  narUrl : String
  fileSize : Nat
  narinfoSize : Nat
  lastAccess : Nat
  addedAt : Nat
  deriving DecidableEq

/-- A row of `refs` is its key: the referrer and the referee. -/
structure GcDb where
  storePaths : Table String StorePathRow
  refs : Table (String × String) Unit

def GcDb.empty : GcDb := ⟨.empty, .empty⟩

/-- Timestamps have the granularity of an hour, and each path is updated once. -/
def flushAccesses (now : Nat) (hashes : List String) (db : GcDb) : GcDb :=
  let quantized := now - now % 3600
  let touched (r : String × StorePathRow) := if hashes.contains r.1 then (r.1, { r.2 with lastAccess := quantized }) else r
  have hkeys : (db.storePaths.rows.map touched).map Prod.fst = db.storePaths.rows.map Prod.fst := by
    rw [List.map_map]
    refine List.map_congr_left fun r _ => ?_
    simp only [Function.comp_apply, touched]
    split <;> rfl
  { db with storePaths := ⟨db.storePaths.rows.map touched, hkeys ▸ db.storePaths.nodup⟩ }

/-! ## Choosing what to evict -/

structure PathEntry where
  hash : String
  narUrl : String
  size : Nat
  deriving DecidableEq

/-- All paths, the one read longest ago first. -/
def GcDb.pathEntries (db : GcDb) : List PathEntry :=
  (db.storePaths.rows.insertionSort fun a b => a.2.lastAccess ≤ b.2.lastAccess).map fun r =>
    ⟨r.1, r.2.narUrl, r.2.fileSize + r.2.narinfoSize⟩

/-- What the loops have chosen, the latest first, and the bytes it frees. -/
structure Selection where
  evictSet : List String
  freed : Nat
  deriving DecidableEq

def Selection.none : Selection := ⟨[], 0⟩

/-- `u64` addition wraps. -/
def Selection.evict (sel : Selection) (entry : PathEntry) : Selection :=
  ⟨entry.hash :: sel.evictSet, (sel.freed + entry.size) % 2 ^ 64⟩

section
variable (entries : List PathEntry) (refs : List (String × String)) (toFree : Nat)

/-- Only references from paths that exist count. -/
def referencedBy (hash : String) : List String :=
  (refs.filter fun r => (entries.map PathEntry.hash).contains r.1 && r.2 = hash).map Prod.fst

/-- A path is evictable if no retained path references it. -/
def pinned (evictSet : List String) (hash : String) : Bool :=
  (referencedBy entries refs hash).any fun r =>
    r ≠ hash && (entries.map PathEntry.hash).contains r && !evictSet.contains r

/-- The inner loop, and whether it has evicted anything. -/
def sweep : List PathEntry → Selection → Bool → Selection × Bool
  | [], sel, evictedAny => (sel, evictedAny)
  | entry :: rest, sel, evictedAny =>
    if sel.evictSet.contains entry.hash then sweep rest sel evictedAny
    else if pinned entries refs sel.evictSet entry.hash then sweep rest sel evictedAny
    else if toFree ≤ (sel.evict entry).freed then (sel.evict entry, true)
    else sweep rest (sel.evict entry) true

/-- The outer loop, which may not end within the fuel. -/
def selectLoop : Nat → Selection → Option Selection
  | 0, _ => .none
  | fuel + 1, sel =>
    if toFree ≤ sel.freed then some sel
    else
      let swept := sweep entries refs toFree entries sel false
      if swept.2 then selectLoop fuel swept.1 else some swept.1

end

/-- A sweep for every path that can go, and one more to see that none is left. -/
def GcDb.select (db : GcDb) (toFree : Nat) : Option Selection :=
  selectLoop db.pathEntries (db.refs.rows.map Prod.fst) toFree (db.pathEntries.length + 1) .none

/-! ## A collection -/

/-- The files of the cache directory by their relative names. -/
abbrev Disk := Table String Bytes

def narinfoName (hash : String) : String := hash ++ ".narinfo"

/-- A path goes with its files and its references. -/
def evictEntry (entry : PathEntry) (s : GcDb × Disk) : GcDb × Disk :=
  ({ storePaths := s.1.storePaths.delete entry.hash
     refs := (s.1.refs.deleteWhere fun r _ => r.1 = entry.hash).deleteWhere fun r _ => r.2 = entry.hash },
   (s.2.delete (narinfoName entry.hash)).delete entry.narUrl)

def runGc (currentSize targetSize : Nat) (s : GcDb × Disk) : Option (GcDb × Disk) :=
  let toFree := currentSize - targetSize
  if toFree = 0 then some s
  else do
    let sel ← s.1.select toFree
    let toEvict := s.1.pathEntries.filter fun e => sel.evictSet.contains e.hash
    some (toEvict.foldl (fun s e => evictEntry e s) s)

def maybeRunGc (maxSize targetSize : Nat) (s : GcDb × Disk) : Option (GcDb × Disk) :=
  let total := s.1.storePaths.total fun r => r.fileSize + r.narinfoSize
  if total ≤ maxSize then some s else runGc total targetSize s

/-! ## The initial scan -/

def GcDb.register (now : Nat) (hash text : String) (narinfo : NarInfo) (disk : Disk) (db : GcDb) : GcDb :=
  let fileSize := ((disk.get? narinfo.url).map List.length).getD 0
  let row : StorePathRow := ⟨narinfo.storePath, narinfo.url, fileSize, (asBytes text).length, now, now⟩
  { storePaths := db.storePaths.insertOrIgnore hash row
    refs := narinfo.references.foldl (fun t r => t.insertOrIgnore (hash, splitNext '-' r) ()) db.refs }

/-- One entry of the directory: its paths have no further component. -/
def scanEntry (now : Nat) (disk : Disk) (name : String) (bytes : Bytes) (db : GcDb) : GcDb :=
  match if name.toList.contains '/' then .none else stripSuffix ".narinfo" name with
  | .none => db
  | some hash =>
    if db.storePaths.contains hash then db
    else
      match (fromUtf8 bytes).bind fun text => (NarInfo.parse text).map fun narinfo => (text, narinfo) with
      | .none => db
      | some (text, narinfo) => db.register now hash text narinfo disk

def initialScan (now : Nat) (s : GcDb × Disk) : GcDb × Disk :=
  (s.2.rows.foldl (fun db r => scanEntry now s.2 r.1 r.2 db) s.1, s.2)

end Ekapkgs
