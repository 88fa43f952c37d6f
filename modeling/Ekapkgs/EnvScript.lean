import Ekapkgs.EnvManifest
import Ekapkgs.Lib.Runs
import Ekapkgs.NarSound

/-!
# Rendered environment scripts

`env.rs`: `render_dev_env` writes a script for each shell and then a fingerprint of
the modification times that the inputs have by now. A script is fresh as long as the
fingerprint is the same.
-/

namespace Ekapkgs
open Runs

inductive EnvInput where
  | manifest | flakeNix | flakeLock
  deriving DecidableEq

def envInputs : List EnvInput := [.manifest, .flakeNix, .flakeLock]

inductive EnvHookShell where
  | bash | zsh | fish
  deriving DecidableEq

def envShells : List EnvHookShell := [.bash, .zsh, .fish]

/-- Nanoseconds since the epoch, a `u128`. -/
abbrev Mtime := Fin (2 ^ 128)

structure FileVersion where
  content : Bytes
  mtime : Mtime
  deriving DecidableEq

/-- The files that are there. -/
abbrev InputFiles := EnvInput → Option FileVersion

structure EnvContents where
  manifest : Option Bytes
  flakeNix : Option Bytes
  flakeLock : Option Bytes
  deriving DecidableEq

def InputFiles.content (files : InputFiles) (f : EnvInput) : Option Bytes := (files f).map FileVersion.content

def InputFiles.contents (files : InputFiles) : EnvContents :=
  ⟨files.content .manifest, files.content .flakeNix, files.content .flakeLock⟩

/-- Of the files that are there. -/
def InputFiles.mtimes (files : InputFiles) : List Mtime := envInputs.filterMap fun f => (files f).map FileVersion.mtime

inductive EnvScript where
  /-- Opened for writing, and not written. -/
  | torn
  | rendered (contents : EnvContents)
  deriving DecidableEq

/-- Where a run of `render_dev_env` is, from its command's load of the manifest on. -/
inductive RenderPhase where
  | reading (todo : List EnvInput) (inputs : InputFiles)
  | writing (todo : List EnvHookShell) (opened : Bool) (inputs : InputFiles)
  | stamping (todo : List EnvInput) (inputs stamps : InputFiles)
  | completed
  | failed

/-- `versions` are all that the files have had, and `rewritten` says that a script was
written after the fingerprint. -/
structure EnvDir (ι H : Type) where
  file : InputFiles
  script : EnvHookShell → Option EnvScript
  fingerprint : Option H
  phase : ι → RenderPhase
  versions : List (EnvInput × FileVersion)
  rewritten : Bool

inductive ScriptEvent (ι : Type) where
  | write (f : EnvInput) (version : FileVersion)
  | delete (f : EnvInput)
  | step (i : ι)
  | fail (i : ι)

section
variable {ι H : Type} [DecidableEq ι] [DecidableEq H] (fromStr : Bytes → Option EnvManifest) (hash : Bytes → H)

/-- No file is there yet. -/
def EnvDir.start : EnvDir ι H :=
  ⟨fun _ => none, fun _ => none, none, fun _ => .reading envInputs fun _ => none, [], false⟩

def computeFingerprint (files : InputFiles) : H := hash (files.mtimes.flatMap fun mtime : Mtime => toLeBytes 16 mtime)

/-- The next access of a run. -/
def EnvDir.advance (s : EnvDir ι H) (i : ι) : Option (EnvDir ι H) :=
  let goto (p : RenderPhase) : EnvDir ι H := { s with phase := Function.update s.phase i p }
  match s.phase i with
  | .reading (f :: todo) inputs =>
    if f = .manifest then
      match (s.file f).bind fun version => fromStr version.content with
      | some manifest => some (goto (if manifest.flakes = [] then .completed else .reading todo (Function.update inputs f (s.file f))))
      | none => some (goto .failed)
    else some (goto (.reading todo (Function.update inputs f (s.file f))))
  | .reading [] inputs => some (goto (.writing envShells false inputs))
  | .writing (shell :: todo) false inputs =>
    some { goto (.writing (shell :: todo) true inputs) with script := Function.update s.script shell (some .torn), rewritten := true }
  | .writing (shell :: todo) true inputs =>
    some { goto (.writing todo false inputs) with
      script := Function.update s.script shell (some (.rendered inputs.contents)), rewritten := true }
  | .writing [] _ inputs => some (goto (.stamping envInputs inputs fun _ => none))
  | .stamping (f :: todo) inputs stamps => some (goto (.stamping todo inputs (Function.update stamps f (s.file f))))
  -- a fingerprint half written is none
  | .stamping [] _ stamps => some { goto .completed with fingerprint := some (computeFingerprint hash stamps), rewritten := false }
  | .completed | .failed => none

def EnvDir.next (s : EnvDir ι H) : ScriptEvent ι → Option (EnvDir ι H)
  | .write f version =>
    -- the modification time was never used before
    if version.mtime ∈ s.versions.map fun v => v.2.mtime then none
    else some { s with file := Function.update s.file f (some version), versions := (f, version) :: s.versions }
  | .delete f => some { s with file := Function.update s.file f none }
  | .step i => s.advance fromStr hash i
  | .fail i => (s.advance fromStr hash i).map fun _ => { s with phase := Function.update s.phase i .failed }

abbrev scriptStep : EnvDir ι H → ScriptEvent ι → EnvDir ι H → Prop := stepOf (EnvDir.next fromStr hash)

def EnvDir.isEnvFresh (s : EnvDir ι H) : Bool := s.fingerprint = some (computeFingerprint hash s.file)

def EnvDir.freshEnvScript (s : EnvDir ι H) (shell : EnvHookShell) : Option EnvScript :=
  if s.isEnvFresh hash then s.script shell else none

end

end Ekapkgs
