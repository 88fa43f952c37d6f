import Ekapkgs.NarInfo

/-!
# Which paths to send, and in what order

`api/negotiate.rs`: the closure of the wanted paths under references, and the
plan that downloads them. Paths are named by the hash part of their store path,
cut from references of any form.
-/

namespace Ekapkgs

/-! ## The closure -/

def MAX_CLOSURE_SIZE : Nat := 50000

structure Expansion where
  visited : List String
  queue : List String
  result : List String

section
variable {ε : Type} (getNarinfo : String → Except ε (Option NarInfo)) (haveSet : List String)

/-- A path that is not on this server is still listed. -/
def referencesOf (hash : String) : Option (List String) :=
  match getNarinfo hash with
  | .ok (some narinfo) => some narinfo.references
  | _ => none

def Expansion.enqueue (s : Expansion) (hash : String) : Expansion :=
  if haveSet.contains hash || s.visited.contains hash then s
  else { s with visited := hash :: s.visited, queue := s.queue ++ [hash] }

/-- The loop over the queue, which may not end within the fuel. -/
def expandLoop : Nat → Expansion → Option (List String)
  | 0, _ => none
  | fuel + 1, s =>
    match s.queue with
    | [] => some s.result
    | hash :: queue =>
      if MAX_CLOSURE_SIZE ≤ s.result.length then some s.result
      else
        let s' : Expansion := ⟨s.visited, queue, s.result ++ [hash]⟩
        expandLoop fuel (((referencesOf getNarinfo hash).getD []).foldl (fun s r => s.enqueue haveSet (hashPart r)) s')

def expandClosureHashes (seeds : List String) : Option (List String) :=
  expandLoop getNarinfo haveSet (MAX_CLOSURE_SIZE + 1) (seeds.foldl (fun s h => s.enqueue haveSet h) ⟨[], [], []⟩)

end

/-! ## The plan -/

structure PathManifestEntry where
  storePath : String
  references : List String
  deriving DecidableEq

def PathManifestEntry.hash (entry : PathManifestEntry) : String := hashPart entry.storePath

structure DownloadBatch where
  paths : List String
  priority : Nat
  deriving DecidableEq

structure Planner where
  assigned : List Nat
  resolved : List String
  batches : List DownloadBatch

section
variable (entries : List PathManifestEntry)

def Planner.unassigned (s : Planner) : List (PathManifestEntry × Nat) :=
  entries.zipIdx.filter fun e => !s.assigned.contains e.2

/-- The paths whose references are all resolved. -/
def Planner.ready (s : Planner) : List (PathManifestEntry × Nat) :=
  (s.unassigned entries).filter fun e => e.1.references.all fun r => s.resolved.contains (hashPart r)

def Planner.push (s : Planner) (batch : List (PathManifestEntry × Nat)) : Planner where
  assigned := s.assigned ++ batch.map Prod.snd
  resolved := s.resolved ++ batch.map fun e => e.1.hash
  batches := s.batches ++ [⟨batch.map fun e => e.1.hash, s.batches.length % 2 ^ 32⟩]

/-- One batch after the other; what remains when none is ready goes into a last
one. The loop may not end within the fuel. -/
def planLoop : Nat → Planner → Option (List DownloadBatch)
  | 0, _ => none
  | fuel + 1, s =>
    if s.ready entries = [] then
      if s.unassigned entries = [] then some s.batches else some (s.push (s.unassigned entries)).batches
    else
      let s' := s.push (s.ready entries)
      if s'.assigned.length = entries.length then some s'.batches else planLoop fuel s'

def buildDownloadPlan (haveSet : List String) : Option (List DownloadBatch) :=
  planLoop entries (entries.length + 1) ⟨[], haveSet, []⟩

end

end Ekapkgs
