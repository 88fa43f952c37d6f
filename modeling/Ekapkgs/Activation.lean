import Ekapkgs.Text

/-!
# System activation

`commands/system.rs`: `cmd_activate` makes a generation of the profile for the
new system, runs its `switch-to-configuration`, and rolls back if that fails.
-/

namespace Ekapkgs

/-! ## Profiles -/

/-- A profile: the generation that its link names, and the store path of each generation. -/
structure SystemProfile where
  current : Option Nat
  links : Finmap fun _ : Nat => String

def SystemProfile.link (profile : SystemProfile) (number : Nat) : Option String := profile.links.lookup number

def SystemProfile.currentPath (profile : SystemProfile) : Option String := profile.current.bind profile.link

/-- The part of nix that `nix-env --set` shows. -/
structure NixEnv where
  isStorePath : String → Bool
  /-- The store path that an argument names from the working directory. -/
  resolve : SystemProfile → String → Option String
  /-- The number of the generation that is made for a store path. -/
  generation : SystemProfile → String → Nat
  resolve_storePath : ∀ (profile : SystemProfile) (path : String), isStorePath path = true → resolve profile path = some path
  isStorePath_resolve : ∀ (profile : SystemProfile) (arg path : String), resolve profile arg = some path → isStorePath path = true
  generation_free : ∀ (profile : SystemProfile) (path : String),
    profile.link (generation profile path) = none ∨ profile.link (generation profile path) = some path

namespace NixEnv

def makeCurrent (nix : NixEnv) (profile : SystemProfile) (path : String) : SystemProfile :=
  ⟨some (nix.generation profile path), profile.links.insert (nix.generation profile path) path⟩

/-- `nix-env --set`, and whether it succeeds. -/
def set (nix : NixEnv) (profile : SystemProfile) (arg : String) : SystemProfile × Bool :=
  match nix.resolve profile arg with
  | some path => (nix.makeCurrent profile path, true)
  | none => (profile, false)

end NixEnv

def resolveProfilePath : Option String → String
  | some name => "/nix/var/nix/profiles/system-profiles/" ++ name
  | none => "/nix/var/nix/profiles/system"

/-- What a profile's link holds: a name in its own directory. -/
def linkName (profilePath : String) (number : Nat) : String := rsplitNext '/' profilePath ++ "-" ++ toString number ++ "-link"

/-! ## The command -/

inductive ActivateMode where
  | switch
  | boot
  | test
  deriving DecidableEq, Repr

def ActivateMode.name : ActivateMode → String
  | .switch => "switch"
  | .boot => "boot"
  | .test => "test"

structure ActivateOpts where
  profileName : Option String
  installBootloader : Bool
  specialisation : Option String
  deriving DecidableEq, Repr

inductive ScriptStatus where
  | exited (code : Nat)
  | signaled
  /-- sudo itself cannot be started. -/
  | notStarted (e : String)
  deriving DecidableEq, Repr

def ScriptStatus.success : ScriptStatus → Bool
  | .exited code => code = 0
  | _ => false

/-- `status.code().unwrap_or(1)`. -/
def ScriptStatus.code : ScriptStatus → Nat
  | .exited code => code
  | _ => 1

inductive SudoCommand where
  | mkdir (dir : String)
  | nixEnvSet (profile arg : String)
  | script (env : List String) (path mode : String)
  deriving DecidableEq, Repr

structure Activated where
  profile : SystemProfile
  commands : List SudoCommand
  /-- What is run once the activation has failed. -/
  rollback : List SudoCommand
  result : Except String Unit

/-- The machine that the command runs on. -/
structure ActivateHost where
  nix : NixEnv
  pathExists : String → Bool
  script : List String → String → String → ScriptStatus

def activateScript (path : String) : String := path ++ "/bin/switch-to-configuration"

def ActivateOpts.envArgs (opts : ActivateOpts) : List String :=
  (if opts.installBootloader then ["NIXOS_INSTALL_BOOTLOADER=1"] else []) ++
    opts.specialisation.toList.map ("NIXOS_SPECIALISATION=" ++ ·)

/-- The specialisation that is asked for and not there. -/
def ActivateHost.missingSpecialisation (host : ActivateHost) (opts : ActivateOpts) (systemPath : String) : Option String :=
  opts.specialisation.filter fun spec => !host.pathExists (systemPath ++ "/specialisation/" ++ spec)

/-- `Path::parent`. -/
def parentDir (path : String) : String := String.ofList (path.toList.reverse.dropWhile (· ≠ '/')).tail.reverse

/-- `mkdir` for the directory of a named profile. -/
def ActivateHost.prepare (host : ActivateHost) (opts : ActivateOpts) : List SudoCommand :=
  let profileDir := parentDir (resolveProfilePath opts.profileName)
  if opts.profileName.isSome && !host.pathExists profileDir then [.mkdir profileDir] else []

/-- The previous profile target is set again, and its script run from there. -/
def ActivateHost.rollBack (host : ActivateHost) (profilePath : String) (prevTarget : Option String) (profile : SystemProfile) :
    SystemProfile × List SudoCommand :=
  match prevTarget with
  | none => (profile, [])
  | some prev =>
    let (profile, restored) := host.nix.set profile prev
    (profile, .nixEnvSet profilePath prev :: if restored then [.script [] (activateScript prev) "switch"] else [])

def cmdActivate (host : ActivateHost) (build : Except String String) (mode : ActivateMode) (dryRun : Bool) (opts : ActivateOpts)
    (profile : SystemProfile) : Activated :=
  match build with
  | .error e => ⟨profile, [], [], .error e⟩
  | .ok systemPath =>
    match host.missingSpecialisation opts systemPath with
    | some spec =>
      ⟨profile, [], [], .error ("Specialisation '" ++ spec ++ "' not found at " ++ systemPath ++ "/specialisation/" ++ spec)⟩
    | none =>
      if dryRun then ⟨profile, [], [], .ok ()⟩
      else
        let profilePath := resolveProfilePath opts.profileName
        let prevTarget := profile.current.map (linkName profilePath)
        let commands := host.prepare opts ++ [.nixEnvSet profilePath systemPath]
        let (profile, set) := host.nix.set profile systemPath
        if !set then ⟨profile, commands, [], .error "Failed to set system profile (exit 1)"⟩
        else
          let commands := commands ++ [.script opts.envArgs (activateScript systemPath) mode.name]
          match host.script opts.envArgs (activateScript systemPath) mode.name with
          | .notStarted e => ⟨profile, commands, [], .error ("failed to run activation: " ++ e)⟩
          | status =>
            if status.success then ⟨profile, commands, [], .ok ()⟩
            else
              let (profile, rollback) := host.rollBack profilePath prevTarget profile
              ⟨profile, commands, rollback, .error ("Activation failed (exit " ++ toString status.code ++ ")")⟩

/-! ## What each mode promises -/

/-- The previous configuration's own script is run again, by an absolute path to it. -/
def Reran (profilePath : String) (before : SystemProfile) (rollback : List SudoCommand) : Prop :=
  ∃ q, q.toList.head? = some '/' ∧
    (before.currentPath = some q ∨ ∃ n, before.current = some n ∧ q = parentDir profilePath ++ "/" ++ linkName profilePath n) ∧
    .script [] (activateScript q) "switch" ∈ rollback

/-- The status of the new system's script, where the command gets to run it, and the path of that system. -/
def ActivateHost.activation (host : ActivateHost) (build : Except String String) (mode : ActivateMode) (dryRun : Bool)
    (opts : ActivateOpts) (profile : SystemProfile) : Option (String × ScriptStatus) :=
  match build with
  | .error _ => none
  | .ok systemPath =>
    if (host.missingSpecialisation opts systemPath).isSome || dryRun then none
    else (host.nix.resolve profile systemPath).map fun path =>
      (path, host.script opts.envArgs (activateScript systemPath) mode.name)

/-- A test leaves the profile alone, a success of the others makes the new system current, and a failure
leaves the current system current and, in a switch, active. -/
def KeepsPromise (host : ActivateHost) (build : Except String String) (mode : ActivateMode) (dryRun : Bool) (opts : ActivateOpts)
    (profile : SystemProfile) : Prop :=
  let after := cmdActivate host build mode dryRun opts profile
  if mode = .test then after.profile = profile
  else
    ∀ path status, host.activation build mode dryRun opts profile = some (path, status) →
      if status.success then after.profile.currentPath = some path
      else
        ∀ prev, profile.currentPath = some prev → after.profile.currentPath = some prev ∧
          (mode = .switch → Reran (resolveProfilePath opts.profileName) profile after.rollback)

/-! ## When the promises are kept -/

variable {host : ActivateHost} {build : Except String String} {mode : ActivateMode} {dryRun : Bool} {opts : ActivateOpts}
  {profile : SystemProfile} {path : String} {status : ScriptStatus}

/-- After a failure, what the previous link's name names from the working directory. -/
def ActivateHost.restored (host : ActivateHost) (opts : ActivateOpts) (profile : SystemProfile) (path : String) :
    ScriptStatus → Option String
  | .notStarted _ => none
  | status =>
    if status.success then none
    else profile.current.bind fun n =>
      host.nix.resolve (host.nix.makeCurrent profile path) (linkName (resolveProfilePath opts.profileName) n)

theorem NixEnv.set_eq (nix : NixEnv) (profile : SystemProfile) (arg : String) :
    nix.set profile arg = match nix.resolve profile arg with
      | some path => (nix.makeCurrent profile path, true)
      | none => (profile, false) := rfl

theorem currentPath_makeCurrent (nix : NixEnv) (profile : SystemProfile) (path : String) :
    (nix.makeCurrent profile path).currentPath = some path := by
  simp [SystemProfile.currentPath, SystemProfile.link, NixEnv.makeCurrent]

theorem profile_of_not_activated (h : host.activation build mode dryRun opts profile = none) :
    (cmdActivate host build mode dryRun opts profile).profile = profile := by
  unfold ActivateHost.activation at h
  unfold cmdActivate
  cases build with
  | error e => rfl
  | ok systemPath =>
    dsimp only at h ⊢
    cases hmissing : host.missingSpecialisation opts systemPath with
    | some spec => rfl
    | none =>
      cases dryRun with
      | true => rfl
      | false =>
        rw [hmissing] at h
        have hresolve : host.nix.resolve profile systemPath = none := Option.map_eq_none_iff.mp h
        simp [NixEnv.set, hresolve]

/-- The rollback of a failed activation. -/
theorem of_rollBack (profile : SystemProfile) (path : String) {profilePath : String} :
    (host.rollBack profilePath (profile.current.map (linkName profilePath)) (host.nix.makeCurrent profile path)).1 =
        (match profile.current.bind fun n => host.nix.resolve (host.nix.makeCurrent profile path) (linkName profilePath n) with
          | some q => host.nix.makeCurrent (host.nix.makeCurrent profile path) q
          | none => host.nix.makeCurrent profile path) ∧
      ∀ command ∈ (host.rollBack profilePath (profile.current.map (linkName profilePath)) (host.nix.makeCurrent profile path)).2,
        ∃ n, profile.current = some n ∧ (command = .nixEnvSet profilePath (linkName profilePath n) ∨
          command = .script [] (activateScript (linkName profilePath n)) "switch") := by
  cases hcurrent : profile.current with
  | none => exact ⟨rfl, nofun⟩
  | some n =>
    rw [Option.map_some, Option.bind_some, ActivateHost.rollBack, NixEnv.set_eq]
    cases host.nix.resolve (host.nix.makeCurrent profile path) (linkName profilePath n) with
    | none => exact ⟨rfl, fun command h => ⟨n, rfl, .inl (List.mem_singleton.mp h)⟩⟩
    | some q =>
      refine ⟨rfl, fun command h => ⟨n, rfl, ?_⟩⟩
      rcases List.mem_cons.mp h with h | h
      · exact .inl h
      · exact .inr (List.mem_singleton.mp h)

/-- Where the new system's script is run, and fails or not. -/
theorem of_activated (h : host.activation build mode dryRun opts profile = some (path, status)) :
    (cmdActivate host build mode dryRun opts profile).profile =
        (match host.restored opts profile path status with
          | some q => host.nix.makeCurrent (host.nix.makeCurrent profile path) q
          | none => host.nix.makeCurrent profile path) ∧
      ∀ command ∈ (cmdActivate host build mode dryRun opts profile).rollback, ∃ n, profile.current = some n ∧
        (command = .nixEnvSet (resolveProfilePath opts.profileName) (linkName (resolveProfilePath opts.profileName) n) ∨
          command = .script [] (activateScript (linkName (resolveProfilePath opts.profileName) n)) "switch") := by
  unfold ActivateHost.activation at h
  unfold cmdActivate
  cases build with
  | error e => cases h
  | ok systemPath =>
    dsimp only at h ⊢
    obtain ⟨hgo, h⟩ := Option.ite_none_left_eq_some.mp h
    rw [Bool.or_eq_true, not_or, Bool.not_eq_true, Bool.not_eq_true, Option.isSome_eq_false_iff, Option.isNone_iff_eq_none] at hgo
    obtain ⟨path', hresolve, hstatus⟩ := Option.map_eq_some_iff.mp h
    obtain ⟨rfl, rfl⟩ := Prod.mk.inj hstatus
    rw [hgo.1, hgo.2, NixEnv.set_eq, hresolve]
    simp only [Bool.false_eq_true, if_false, Bool.not_true]
    cases host.script opts.envArgs (activateScript systemPath) mode.name with
    | notStarted e => exact ⟨rfl, nofun⟩
    | signaled => exact of_rollBack profile path'
    | exited code =>
      by_cases hcode : code = 0
      · subst hcode
        exact ⟨rfl, nofun⟩
      · have hstatus : (ScriptStatus.exited code).success = false := decide_eq_false hcode
        simp only [ActivateHost.restored, hstatus, Bool.false_eq_true, if_false]
        exact of_rollBack profile path'

theorem slash_not_mem_linkName (profilePath : String) (n : Nat) : '/' ∉ (linkName profilePath n).toList := by
  have hdigits : '/' ∉ (toString n).toList := by
    rw [Nat.toString_eq_repr, Nat.toList_repr]
    intro h
    exact absurd (Nat.isDigit_of_mem_toDigits (by decide) (by decide) h) (by decide)
  unfold linkName
  simp only [String.toList_append, List.mem_append, not_or]
  exact ⟨⟨⟨not_mem_rsplitNext '/' profilePath, by decide⟩, hdigits⟩, by decide⟩

/-- The rollback runs a script by a relative path only. -/
theorem not_reran (h : host.activation build mode dryRun opts profile = some (path, status)) :
    ¬ Reran (resolveProfilePath opts.profileName) profile (cmdActivate host build mode dryRun opts profile).rollback := by
  rintro ⟨q, hq, -, hmem⟩
  obtain ⟨n, -, hset | hscript⟩ := (of_activated h).2 _ hmem
  · cases hset
  · have hpath : activateScript q = activateScript (linkName (resolveProfilePath opts.profileName) n) := by
      injection hscript
    have hlists := congrArg String.toList hpath
    unfold activateScript at hlists
    rw [String.toList_append, String.toList_append] at hlists
    rw [List.append_cancel_right hlists] at hq
    exact slash_not_mem_linkName _ n (List.mem_of_head? hq)

theorem link_makeCurrent (nix : NixEnv) (profile : SystemProfile) (path : String) (n : Nat) :
    (nix.makeCurrent profile path).link n = if n = nix.generation profile path then some path else profile.link n := by
  unfold SystemProfile.link NixEnv.makeCurrent
  split
  next h => rw [h, Finmap.lookup_insert]
  next h => exact Finmap.lookup_insert_of_ne _ h

theorem profile_eq_iff {a b : SystemProfile} : a = b ↔ a.current = b.current ∧ ∀ n, a.link n = b.link n := by
  constructor
  · rintro rfl
    exact ⟨rfl, fun _ => rfl⟩
  · rintro ⟨hcurrent, hlink⟩
    obtain ⟨current, links⟩ := a
    obtain ⟨current', links'⟩ := b
    obtain rfl : current = current' := hcurrent
    obtain rfl : links = links' := Finmap.ext_lookup hlink
    rfl

theorem makeCurrent_eq_self {nix : NixEnv} : nix.makeCurrent profile path = profile ↔
    profile.current = some (nix.generation profile path) ∧ profile.link (nix.generation profile path) = some path := by
  rw [profile_eq_iff]
  refine and_congr eq_comm ⟨fun h => ?_, fun h n => ?_⟩
  · rw [← h, link_makeCurrent, if_pos rfl]
  · rw [link_makeCurrent]
    split
    next hn => rw [hn, h]
    next => rfl

theorem makeCurrent_twice_eq_self {nix : NixEnv} {q : String} :
    nix.makeCurrent (nix.makeCurrent profile path) q = profile ↔
      profile.link (nix.generation profile path) = some path ∧
        profile.current = some (nix.generation (nix.makeCurrent profile path) q) ∧
        profile.link (nix.generation (nix.makeCurrent profile path) q) = some q := by
  constructor
  · intro h
    obtain ⟨hcurrent, hlink⟩ := profile_eq_iff.mp h
    have hlast : profile.link (nix.generation (nix.makeCurrent profile path) q) = some q := by
      rw [← hlink, link_makeCurrent, if_pos rfl]
    refine ⟨?_, hcurrent.symm, hlast⟩
    by_cases hsame : nix.generation profile path = nix.generation (nix.makeCurrent profile path) q
    · -- the second generation is the first, so both are for the same path
      have hfirst : (nix.makeCurrent profile path).link (nix.generation (nix.makeCurrent profile path) q) = some path := by
        rw [link_makeCurrent, if_pos hsame.symm]
      rcases nix.generation_free (nix.makeCurrent profile path) q with hnone | hq
      · rw [hfirst] at hnone; cases hnone
      · rw [hsame, hlast, ← hq, hfirst]
    · rw [← hlink, link_makeCurrent, if_neg hsame, link_makeCurrent, if_pos rfl]
  · rintro ⟨hpath, hcurrent, hq⟩
    refine profile_eq_iff.mpr ⟨hcurrent.symm, fun n => ?_⟩
    rw [link_makeCurrent, link_makeCurrent]
    split
    next hn => rw [hn, hq]
    next =>
      split
      next hn => rw [hn, hpath]
      next => rfl

/-- The generations that nix-env makes are there already. -/
def MakesNothing (host : ActivateHost) (profile : SystemProfile) (path : String) : Option String → Prop
  | none => profile.current = some (host.nix.generation profile path) ∧ profile.link (host.nix.generation profile path) = some path
  | some q =>
    let set := host.nix.makeCurrent profile path
    profile.link (host.nix.generation profile path) = some path ∧ profile.current = some (host.nix.generation set q) ∧
      profile.link (host.nix.generation set q) = some q

/-- A test keeps its promise if nix-env makes no generation, a boot if the script succeeds or the previous
system is set again, a switch if the script succeeds; the last two also if there is no previous system. -/
theorem keepsPromise_iff (host : ActivateHost) (build : Except String String) (mode : ActivateMode) (dryRun : Bool)
    (opts : ActivateOpts) (profile : SystemProfile) : KeepsPromise host build mode dryRun opts profile ↔
      ∀ path status, host.activation build mode dryRun opts profile = some (path, status) →
        match mode with
        | .test => MakesNothing host profile path (host.restored opts profile path status)
        | .boot => status.success = true ∨ ∀ prev, profile.currentPath = some prev →
            (host.restored opts profile path status).getD path = prev
        | .switch => status.success = true ∨ profile.currentPath = none := by
  unfold KeepsPromise
  dsimp only
  cases hactivation : host.activation build mode dryRun opts profile with
  | none => simp [profile_of_not_activated hactivation]
  | some activated =>
    obtain ⟨path, status⟩ := activated
    have hprofile := (of_activated hactivation).1
    have hcurrent : (cmdActivate host build mode dryRun opts profile).profile.currentPath =
        some ((host.restored opts profile path status).getD path) := by
      rw [hprofile]
      cases host.restored opts profile path status <;> exact currentPath_makeCurrent ..
    have hsuccess : status.success = true → host.restored opts profile path status = none := by
      intro h
      cases status with
      | notStarted e => rfl
      | signaled => cases h
      | exited code => exact if_pos h
    have hall {P : String → ScriptStatus → Prop} :
        (∀ path' status', some (path, status) = some (path', status') → P path' status') ↔ P path status :=
      ⟨fun h => h path status rfl, by rintro h _ _ ⟨⟩; exact h⟩
    cases mode with
    | test =>
      rw [if_pos rfl, hprofile, hall]
      cases host.restored opts profile path status with
      | none => exact makeCurrent_eq_self
      | some q => exact makeCurrent_twice_eq_self
    | boot =>
      rw [if_neg nofun, hall, hall, hcurrent]
      by_cases hs : status.success = true
      · simp [hs, hsuccess hs]
      · simp [hs]
    | switch =>
      rw [if_neg nofun, hall, hall, hcurrent]
      change _ ↔ status.success = true ∨ profile.currentPath = none
      by_cases hs : status.success = true
      · simp [hs, hsuccess hs]
      · rw [if_neg hs, or_iff_right hs]
        refine ⟨fun h => ?_, fun h prev hprev => by rw [h] at hprev; cases hprev⟩
        cases hprev : profile.currentPath with
        | none => rfl
        | some prev => exact absurd ((h prev hprev).2 rfl) (not_reran hactivation)

/-- nix-env run from a directory that is not the profile's. -/
def sampleNix : NixEnv where
  isStorePath path := "/nix/store/".toList.isPrefixOf path.toList
  resolve _ arg := if "/nix/store/".toList.isPrefixOf arg.toList then some arg else none
  generation profile _ := profile.links.keys.sup id + 1
  resolve_storePath _ _ h := if_pos h
  isStorePath_resolve _ arg path h := by
    obtain ⟨hstore, h⟩ := Option.ite_none_right_eq_some.mp h
    rwa [← Option.some.inj h]
  generation_free profile _ := by
    refine .inl (Finmap.lookup_eq_none.mpr fun h => ?_)
    have hle : id (profile.links.keys.sup id + 1) ≤ profile.links.keys.sup id := Finset.le_sup (Finmap.mem_keys.mpr h)
    exact Nat.not_succ_le_self _ hle

def sampleHost (status : ScriptStatus) : ActivateHost := ⟨sampleNix, fun _ => true, fun _ _ _ => status⟩

def sampleProfile : SystemProfile := ⟨some 1, .singleton 1 "/nix/store/a"⟩

/-- A test makes a generation, and a failed switch leaves the new system current. -/
theorem promises_broken :
    ¬ KeepsPromise (sampleHost (.exited 0)) (.ok "/nix/store/b") .test false ⟨none, false, none⟩ sampleProfile ∧
      ¬ KeepsPromise (sampleHost (.exited 1)) (.ok "/nix/store/b") .switch false ⟨none, false, none⟩ sampleProfile := by
  constructor
  · intro h
    exact absurd (congrArg SystemProfile.current h) (by decide)
  · intro h
    have hfailed := h "/nix/store/b" (.exited 1) (by decide) "/nix/store/a" (by decide)
    exact absurd hfailed.1 (by decide)

end Ekapkgs
