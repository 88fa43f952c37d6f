import Ekapkgs.BootEntries
import Ekapkgs.ClientStores
import Ekapkgs.Lib.Fallible
import Ekapkgs.Lib.Keyed

/-!
# Applying services

`commands/home.rs`: `cmd_services_apply_quiet` removes the unit files of services
that are no longer enabled, builds those of the enabled ones and installs them
under a marker line that names the service each belongs to.
-/

namespace Ekapkgs
open Keyed Fallible

/-! ## Unit files -/

def MANAGED_MARKER : String := "# ekapkgs-managed"

def MANAGED_UNIT_SUFFIXES : List String := [".service", ".socket", ".timer"]

def isManagedUnitFile (name : String) : Bool := MANAGED_UNIT_SUFFIXES.any (endsWith · name)

def stripUnitSuffix (name : String) : String := (MANAGED_UNIT_SUFFIXES.findSome? (stripSuffix · name)).getD name

/-- The files of a directory, by name. -/
abbrev UnitDir := Table String Bytes

/-- The text of a unit file that has the marker. -/
def managedContents (name : String) (bytes : Bytes) : Option String :=
  if isManagedUnitFile name then (fromUtf8 bytes).filter (startsWith MANAGED_MARKER ·) else none

/-- The service that the first line names, or else the base name of the file. -/
def unitOwner (name contents : String) : String :=
  let firstLine := (lines contents).head?.getD ""
  let named := (stripPrefix MANAGED_MARKER firstLine).bind fun rest => (stripPrefix "service=" (trim rest)).map trim
  named.getD (stripUnitSuffix name)

/-- A `HashSet` is a list without duplicates. -/
def installedManagedUnits (dir : UnitDir) : List String :=
  (dir.rows.filterMap fun r => (managedContents r.1 r.2).map (unitOwner r.1)).dedup

def installedManagedUnitFiles (dir : UnitDir) : List String :=
  (dir.rows.filter fun r => (managedContents r.1 r.2).isSome).map Prod.fst

/-- `{svc}.service`, or a companion such as `{svc}-ssh.socket`, without the suffix. -/
def ownsBase (svc base : String) : Bool := base = svc || startsWith (svc ++ "-") base

def markedContents (owningService unitContents : String) : String :=
  MANAGED_MARKER ++ " service=" ++ owningService ++ "\n" ++ unitContents

/-! ## The manifest -/

def HomeServices.enabled (manifest : HomeServices) : List HomeServiceEntry := manifest.services.filter (·.enable)

def HomeServices.desired (manifest : HomeServices) : List String := (manifest.enabled.map (·.name)).dedup

/-! ## The environment -/

/-- The calls that may fail. -/
inductive UnitCall where
  | loadManifest
  | unitDir
  | remove (file : String)
  | tempDir
  | writeBuilt (file : String)
  | copyBuilt (file : String)
  | readBuiltDir
  | readBuilt (file : String)
  | install (file : String)
  | removeStale (file : String)
  deriving DecidableEq

inductive ServicesError where
  | call (c : UnitCall)
  | noCommand (name : String)
  /-- The expression could not be made, or its build failed. -/
  | nix
  | notUtf8 (file : String)
  /-- So many services did not start. -/
  | failedToStart (count : Nat)

/-- What the process meets: calls that fail, the order in which a hash set is
iterated, which values are strings (`Value::as_str`), where a command is found,
what Nix builds, and which units start. -/
structure ServicesEnv where
  fails : UnitCall → Bool
  asStr : TomlValue → Option String
  hashOrder : List String → List String
  hashOrder_perm : ∀ names, (hashOrder names).Perm names
  resolveCommandPath : String → String → String → String
  nixBuild : HomeServices → Option (Table String Bytes)
  starts : String → Bool

abbrev ServicesM := EStateM ServicesError UnitDir

namespace ServicesEnv
variable (env : ServicesEnv)

def call (c : UnitCall) : Except ServicesError Unit := if env.fails c then throw (.call c) else pure ()

/-! ## Removing -/

/-- `remove_file`, where the file exists. -/
def removeUnit (c : String → UnitCall) (file : String) : ServicesM Unit := do
  if (← get).contains file then
    MonadExcept.ofExcept (env.call (c file))
    modify (·.delete file)

/-- Every managed file that has the name, or starts with it and a dash. -/
def removeService (existing : List String) (name : String) : ServicesM Unit :=
  existing.forM fun file => if ownsBase name (stripUnitSuffix file) then env.removeUnit .remove file else pure ()

/-! ## Building -/

def getStr (entry : HomeServiceEntry) (key : String) : Option String := (entry.config.get? key).bind env.asStr

def generateDirectUnitFile (entry : HomeServiceEntry) (manifestFlake : String) : Except ServicesError String := do
  match env.getStr entry "command" with
  | none => throw (.noCommand entry.name)
  | some command =>
    let args := (env.getStr entry "args").getD ""
    let description := (env.getStr entry "description").getD entry.name
    let flake := entry.flake.getD manifestFlake
    let resolved := env.resolveCommandPath entry.name command flake
    let execStart := if args = "" then resolved else resolved ++ " " ++ args
    let stopSignal := (env.getStr entry "stop_signal").getD "SIGTERM"
    -- the source has an escaped backslash and a line break before `nRestart` and `nWantedBy`
    pure ("[Unit]\nDescription=" ++ description ++ "\n\n[Service]\nType=simple\nExecStart=" ++ execStart ++
      "\\\n         nRestart=on-failure\nRestartSec=5\nKillSignal=" ++ stopSignal ++
      "\n\n[Install]\\\n         nWantedBy=default.target\n")

def writeDirect (manifestFlake : String) (built : Table String Bytes) (entry : HomeServiceEntry) :
    Except ServicesError (Table String Bytes) := do
  let unitContents ← env.generateDirectUnitFile entry manifestFlake
  env.call (.writeBuilt (entry.name ++ ".service"))
  pure (built.insertOrReplace (entry.name ++ ".service") (asBytes unitContents))

def copyBuilt (built : Table String Bytes) (file : String × Bytes) : Except ServicesError (Table String Bytes) := do
  if isManagedUnitFile file.1 then
    env.call (.copyBuilt file.1)
    pure (built.insertOrReplace file.1 file.2)
  else pure built

/-- The temporary directory once the units of the enabled services are in it. -/
def buildUnits (manifest : HomeServices) : Except ServicesError (Table String Bytes) := do
  let directServices := manifest.enabled.filter fun entry => (env.getStr entry "command").isSome
  let nixServices := manifest.enabled.filter fun entry => (env.getStr entry "command").isNone
  env.call .tempDir
  let built ← directServices.foldlM (env.writeDirect manifest.flake) .empty
  if nixServices.isEmpty then pure built
  else
    match env.nixBuild manifest with
    | none => throw .nix
    | some files => files.rows.foldlM env.copyBuilt built

/-! ## Installing -/

def owningService (enabledNames : List String) (base : String) : String := (enabledNames.find? (ownsBase · base)).getD base

def installUnit (enabledNames : List String) (file : String × Bytes) : ServicesM Unit := do
  if isManagedUnitFile file.1 then
    MonadExcept.ofExcept (env.call (.readBuilt file.1))
    match fromUtf8 file.2 with
    | none => throw (.notUtf8 file.1)
    | some unitContents =>
      MonadExcept.ofExcept (env.call (.install file.1))
      modify (·.insertOrReplace file.1
        (asBytes (markedContents (owningService enabledNames (stripUnitSuffix file.1)) unitContents)))

/-- A managed file of an enabled service that the build no longer produces. -/
def removeStale (enabledNames : List String) (built : Table String Bytes) (file : String) : ServicesM Unit :=
  if enabledNames.any (ownsBase · (stripUnitSuffix file)) && !built.contains file then env.removeUnit .removeStale file
  else pure ()

def startServices (enabled : List HomeServiceEntry) : ServicesM Unit :=
  let failedServices := enabled.filter fun entry => !env.starts (entry.name ++ ".service")
  if failedServices.isEmpty then pure () else throw (.failedToStart failedServices.length)

def installServices (existing : List String) (manifest : HomeServices) (built : Table String Bytes) : ServicesM Unit := do
  let enabledNames := env.hashOrder manifest.desired
  MonadExcept.ofExcept (env.call .readBuiltDir)
  built.rows.forM (env.installUnit enabledNames)
  existing.forM (env.removeStale enabledNames built)
  env.startServices manifest.enabled

def toRemove (manifest : HomeServices) (dir : UnitDir) : List String :=
  (env.hashOrder (installedManagedUnits dir)).filter fun name => name ∉ manifest.desired

def applyServices (manifest : HomeServices) (dir : UnitDir) : ServicesM Unit := do
  let existing := installedManagedUnitFiles dir
  (env.toRemove manifest dir).forM (env.removeService existing)
  if !manifest.enabled.isEmpty then
    let built ← MonadExcept.ofExcept (env.buildUnits manifest)
    env.installServices existing manifest built

def cmdServicesApplyQuiet (dryRun : Bool) (manifest : HomeServices) : ServicesM Unit := do
  MonadExcept.ofExcept (env.call .loadManifest)
  MonadExcept.ofExcept (env.call .unitDir)
  let dir ← get
  if manifest.enabled.isEmpty && (env.toRemove manifest dir).isEmpty then pure ()
  else if dryRun then pure ()
  else env.applyServices manifest dir

end ServicesEnv

end Ekapkgs
