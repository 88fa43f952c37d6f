import Ekapkgs.Castore

/-!
# The collector of the CAS store

`cas_maybe_run_gc` in `gc.rs`: once the chunks take more than `max_size`, evict
paths, the longest unused first, until enough is freed. Each eviction is a
transaction of its own, so other requests run in between.
-/

namespace Ekapkgs
open Keyed

variable {δ : Type}

/-- `SELECT hash FROM cas_paths ORDER BY last_access ASC`. -/
def Db.pathsByAccessAsc (db : Db δ) : List String :=
  (db.casPaths.rows.insertionSort fun a b => a.2.lastAccess ≤ b.2.lastAccess).map Prod.fst

/-- The loop of a collection: the paths it has yet to look at. -/
structure GcRun where
  paths : List String
  toFree : Nat
  freed : Nat

def GcRun.idle : GcRun := ⟨[], 0, 0⟩

/-- Everything before the loop. -/
def casMaybeRunGc (pathFilesReady : Bool) (maxSize targetSize : Nat) : CasM δ GcRun := do
  let total ← totalChunkBytes
  if total ≤ maxSize then pure .idle
  else if !pathFilesReady then pure .idle
  else
    let paths ← query Db.pathsByAccessAsc
    pure ⟨paths, total - targetSize, 0⟩

/-- The path that the loop evicts next. -/
def GcRun.next (gc : GcRun) : Option (String × GcRun) :=
  match gc.paths with
  | [] => none
  | hash :: paths => if gc.toFree ≤ gc.freed then none else some (hash, { gc with paths })

end Ekapkgs
