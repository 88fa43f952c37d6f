import Ekapkgs.NarInfoText

/-!
# Pruning of boot entries

`commands/system.rs`: `cmd_prune_boot_entries` removes the loader entries and
UKI files of generations that are gone, and the files of `EFI/nixos` that no
remaining entry refers to.
-/

namespace Ekapkgs

/-! ## Generations of a profile -/

/-- A name in a directory of profiles, and where it links. -/
structure ProfileLink where
  name : String
  target : Option String
  deriving DecidableEq, Repr

structure Generation where
  number : Nat
  path : String
  deriving DecidableEq, Repr

def discoverGenerations (profileBase : String) (profileDir : List ProfileLink) : List Generation :=
  let generations := profileDir.filterMap fun e => do
    let rest ← stripPrefix (profileBase ++ "-") e.name
    let number ← (← stripSuffix "-link" rest) |> parseU64
    let path ← e.target
    some ⟨number, path⟩
  generations.insertionSort fun a b => a.number ≤ b.number

/-- The file name of `SYSTEM_PROFILE`. -/
def SYSTEM_PROFILE : String := "system"

def collectActiveGenerations (profileDir : List ProfileLink) : List Nat :=
  (discoverGenerations SYSTEM_PROFILE profileDir).map Generation.number

/-! ## The boot partition -/

structure BootFile where
  name : String
  isDir : Bool
  deriving DecidableEq, Repr

/-- A file of `loader/entries`; one that is not readable (an I/O error, or not
UTF-8) still has contents for the boot loader. -/
structure LoaderEntry extends BootFile where
  contents : String
  readable : Bool
  deriving DecidableEq, Repr

/-- The directories `loader/entries`, `EFI/nixos` and `EFI/Linux`. -/
structure BootPartition where
  entries : Option (List LoaderEntry)
  nixos : Option (List BootFile)
  linux : Option (List BootFile)
  deriving DecidableEq, Repr

def LoaderEntry.readToString (e : LoaderEntry) : Option String := if e.readable && !e.isDir then some e.contents else none

def startsWith (pre s : String) : Bool := pre.toList.isPrefixOf s.toList

def endsWith (suffix s : String) : Bool := suffix.toList.isSuffixOf s.toList

def parseEntryGeneration (filename : String) : Option Nat := do
  let (_, after) ← splitOnce "-generation-" filename
  -- the number runs until the next '-' or '.'
  parseU64 (String.ofList (after.toList.takeWhile fun c => c ≠ '-' && c ≠ '.'))

def collectEfiRefs (contents : String) : List String :=
  (lines contents).flatMap fun line => ["linux ", "initrd ", "devicetree "].filterMap fun pre =>
    (stripPrefix pre (trim line)).map fun path => rsplitNext '/' (trim path)

/-! ## One pass over a directory -/

structure Pass (α : Type) where
  kept : List α
  removed : Except String Nat

def Pass.keep {α : Type} (f : α) (pass : Pass α) : Pass α := { pass with kept := f :: pass.kept }

/-- `remove_file` on every orphan; on a directory it fails, and the pass with it. -/
def pruneFiles {α : Type} (isDir orphaned : α → Bool) (dryRun : Bool) : List α → Nat → Pass α
  | [], removed => ⟨[], .ok removed⟩
  | f :: fs, removed =>
    if !orphaned f then (pruneFiles isDir orphaned dryRun fs removed).keep f
    else if dryRun then (pruneFiles isDir orphaned dryRun fs (removed + 1)).keep f
    else if isDir f then ⟨f :: fs, .error "Is a directory (os error 21)"⟩
    else pruneFiles isDir orphaned dryRun fs (removed + 1)

/-- The generation of a file that has the name of an entry. -/
def LoaderEntry.generation (e : LoaderEntry) : Option Nat :=
  if startsWith "nixos" e.name && endsWith ".conf" e.name then parseEntryGeneration e.name else none

def ukiGeneration (f : BootFile) : Option Nat :=
  if startsWith "ekaos-" f.name && endsWith ".efi" f.name then parseEntryGeneration f.name else none

def entryOrphaned (activeGens : List Nat) (e : LoaderEntry) : Bool := e.generation.any (!activeGens.contains ·)

def ukiOrphaned (activeGens : List Nat) (f : BootFile) : Bool := (ukiGeneration f).any (!activeGens.contains ·)

def efiOrphaned (referenced : List String) (f : BootFile) : Bool := !f.isDir && !referenced.contains f.name

/-- What the live entries refer to. -/
def referencedFiles (activeGens : List Nat) (entries : List LoaderEntry) : List String :=
  entries.flatMap fun e =>
    if e.generation.any activeGens.contains then e.readToString.elim [] collectEfiRefs else []

def pruneEntryFiles (activeGens : List Nat) (dryRun : Bool) (entries : List LoaderEntry) : Pass LoaderEntry :=
  pruneFiles (·.isDir) (entryOrphaned activeGens) dryRun entries 0

def pruneEfiFiles (referenced : List String) (dryRun : Bool) (files : List BootFile) : Pass BootFile :=
  pruneFiles (·.isDir) (efiOrphaned referenced) dryRun files 0

def pruneUkiFiles (activeGens : List Nat) (dryRun : Bool) (files : List BootFile) : Pass BootFile :=
  pruneFiles (·.isDir) (ukiOrphaned activeGens) dryRun files 0

/-! ## The command -/

/-- The entries, and then the files that they refer to. -/
def pruneLoader (activeGens : List Nat) (dryRun : Bool) (boot : BootPartition) : BootPartition × Except String Nat :=
  match boot.entries with
  | none => (boot, .ok 0)
  | some entries =>
    let pass := pruneEntryFiles activeGens dryRun entries
    let boot := { boot with entries := some pass.kept }
    match pass.removed with
    | .error e => (boot, .error e)
    | .ok entryRemoved =>
      match boot.nixos with
      | none => (boot, .ok entryRemoved)
      | some files =>
        let efi := pruneEfiFiles (referencedFiles activeGens entries) dryRun files
        ({ boot with nixos := some efi.kept }, efi.removed.map (entryRemoved + ·))

def pruneUkis (activeGens : List Nat) (dryRun : Bool) (boot : BootPartition) : BootPartition × Except String Nat :=
  match boot.linux with
  | none => (boot, .ok 0)
  | some files =>
    let pass := pruneUkiFiles activeGens dryRun files
    ({ boot with linux := some pass.kept }, pass.removed)

def pruneReport (dryRun : Bool) (removed : Nat) : String :=
  if removed = 0 then "No orphaned boot entries found."
  else if dryRun then "Would remove " ++ toString removed ++ " file(s). Run without --dry-run to delete."
  else "Removed " ++ toString removed ++ " orphaned file(s)."

/-- `gc` is the exit status of the garbage collection, where one is asked for;
`profileDir` is read after it. -/
def cmdPruneBootEntries (gc : Option Nat) (profileDir : Except String (List ProfileLink)) (dryRun : Bool)
    (boot : BootPartition) : BootPartition × Except String String :=
  match gc, profileDir with
  | some (status + 1), _ => (boot, .error ("Garbage collection failed (exit " ++ toString (status + 1) ++ ")"))
  | _, .error e => (boot, .error e)
  | _, .ok links =>
    let activeGens := collectActiveGenerations links
    if activeGens.isEmpty then (boot, .ok "No active system generations found.")
    else
      let (boot, removed) := pruneLoader activeGens dryRun boot
      match removed with
      | .error e => (boot, .error e)
      | .ok removed =>
        let (boot, ukiRemoved) := pruneUkis activeGens dryRun boot
        (boot, ukiRemoved.map fun n => pruneReport dryRun (removed + n))

end Ekapkgs
