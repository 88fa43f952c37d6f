import Ekapkgs.UserUnitsSound

/-!
# The unit directory follows the manifest

A run that succeeds leaves the unit files of its build and no other managed ones.
Phase 1 finds a file by the service that its marker names, and phase 3 by any
enabled service that could own it; so nothing is missed as long as the marker
names a service that owns the file.
-/

namespace Ekapkgs
open Keyed Fallible Runs

variable {env : ServicesEnv} {manifest : HomeServices} {dir dir' : UnitDir}

/-! ## A run that succeeds -/

theorem owningService_owns (names : List String) (base : String) :
    ownsBase (ServicesEnv.owningService names base) base = true := by
  unfold ServicesEnv.owningService
  cases hfind : names.find? (ownsBase · base) with
  | none => unfold ownsBase; simp
  | some name => exact List.find?_some (p := (ownsBase · base)) hfind

theorem installServices_ok {existing : List String} {built : Table String Bytes} (hbuilt : AllManaged built)
    (h : env.installServices existing manifest built dir = .ok () dir') :
    (∀ f ∈ built.rows.map Prod.fst, Installed (env.hashOrder manifest.desired) dir' f) ∧
      ∀ f ∉ built.rows.map Prod.fst, dir'.get? f =
        if f ∈ staleFiles (env.hashOrder manifest.desired) built existing then none else dir.get? f := by
  unfold ServicesEnv.installServices at h
  obtain ⟨_, dir₁, hread, hafter⟩ := bind_ok.mp h
  have hdir₁ : dir₁ = dir := by
    rcases call_cases env .readBuiltDir with ⟨-, hcall⟩ | ⟨-, hcall⟩
    · rw [hcall, ofExcept_error] at hread; cases hread
    · rw [hcall, ofExcept_ok] at hread; cases hread; rfl
  obtain ⟨_, dir₂, hinstall, hafter⟩ := bind_ok.mp hafter
  obtain ⟨_, dir₃, hstale, hstart⟩ := bind_ok.mp hafter
  have hdir₃ : dir' = dir₃ := by
    rcases startServices_state env dir₃ manifest.enabled with hstarted | ⟨n, hstarted⟩
    · rw [hstarted] at hstart; cases hstart; rfl
    · rw [hstarted] at hstart; cases hstart
  rw [hdir₁] at hinstall
  obtain ⟨dir₂', hinstalled, hframe, hresult⟩ := forM_installUnit env (env.hashOrder manifest.desired) dir
    fun file hmem => hbuilt file.1 (List.mem_map_of_mem hmem)
  rcases hresult with ⟨hall, hrun⟩ | ⟨e, -, hrun⟩
  swap
  · rw [hrun] at hinstall; cases hinstall
  rw [hrun] at hinstall
  cases hinstall
  rw [List.takeWhile_eq_self_iff.mpr hall] at hinstalled hframe
  rw [forM_removeStale] at hstale
  rw [hdir₃, forM_removeUnit_ok hstale]
  refine ⟨fun f hf => ?_, fun f hf => ?_⟩
  · obtain ⟨file, hfile, rfl⟩ := List.mem_map.mp hf
    obtain ⟨text, htext⟩ := hinstalled file hfile
    refine ⟨text, ?_⟩
    rw [get?_without, if_neg, htext]
    intro hmem
    have hnot := (Bool.and_eq_true_iff.mp (List.mem_filter.mp hmem).2).2
    rw [Table.contains_iff_mem.mpr hf] at hnot
    cases hnot
  · rw [get?_without, hframe f hf]

/-- What the enabled services are built into: nothing, where there are none. -/
def builtUnits (env : ServicesEnv) (manifest : HomeServices) : Except ServicesError (Table String Bytes) :=
  if manifest.enabled.isEmpty then .ok .empty else env.buildUnits manifest

theorem applyServices_ok (h : env.applyServices manifest dir dir = .ok () dir') :
    ∃ built, builtUnits env manifest = .ok built ∧ AllManaged built ∧
      (∀ f ∈ built.rows.map Prod.fst, Installed (env.hashOrder manifest.desired) dir' f) ∧
      ∀ f ∉ built.rows.map Prod.fst, dir'.get? f =
        if f ∈ env.removals manifest dir ∨ f ∈ staleFiles (env.hashOrder manifest.desired) built (installedManagedUnitFiles dir) then none
        else dir.get? f := by
  unfold ServicesEnv.applyServices at h
  rcases removePhase_run env manifest dir with ⟨-, f, hrun⟩ | ⟨-, hremoved, hrun⟩
  · rw [bind_of_error hrun] at h
    cases h
  rw [bind_of_ok hrun, hremoved] at h
  unfold builtUnits
  by_cases henabled : manifest.enabled.isEmpty = true
  · rw [if_neg (by simp [henabled])] at h
    cases h
    rw [if_pos henabled]
    refine ⟨.empty, rfl, nofun, nofun, fun f _ => ?_⟩
    have hdesired : env.hashOrder manifest.desired = [] := by
      have hnil : manifest.desired = [] := by
        unfold HomeServices.desired
        rw [List.isEmpty_iff.mp henabled]; rfl
      rw [hnil]
      exact List.perm_nil.mp (env.hashOrder_perm [])
    have hstale : f ∉ staleFiles (env.hashOrder manifest.desired) .empty (installedManagedUnitFiles dir) := by
      unfold staleFiles
      rw [hdesired]
      simp
    rw [get?_without]
    simp only [hstale, or_false]
  · rw [if_pos (by simpa using henabled)] at h
    rw [if_neg henabled]
    have hresult := buildUnits_result env manifest
    cases hbuild : env.buildUnits manifest with
    | error e => rw [hbuild, bind_of_error (ofExcept_error e)] at h; cases h
    | ok built =>
      rw [hbuild] at hresult h
      rw [bind_of_ok (ofExcept_ok built)] at h
      obtain ⟨hinstalled, hrest⟩ := installServices_ok hresult h
      refine ⟨built, rfl, hresult, hinstalled, fun f hf => ?_⟩
      rw [hrest f hf, get?_without]
      by_cases hgone : f ∈ env.removals manifest dir
      · simp [hgone]
      · simp [hgone]

/-! ## Owners -/

/-- Every marker names a service that owns the file. -/
def OwnersOwn (dir : UnitDir) : Prop :=
  ∀ f bytes contents, dir.get? f = some bytes → managedContents f bytes = some contents →
    ownsBase (unitOwner f contents) (stripUnitSuffix f) = true

/-- Whichever enabled service the search picks for a file of the build, or its
base name where there is none to pick, can be read back from the marker. -/
def LegibleOwners (env : ServicesEnv) (manifest : HomeServices) : Prop :=
  ∀ built, builtUnits env manifest = .ok built → ∀ f ∈ built.rows.map Prod.fst,
    (∀ name ∈ manifest.desired, ownsBase name (stripUnitSuffix f) = true → Legible name) ∧
      ((∀ name ∈ manifest.desired, ownsBase name (stripUnitSuffix f) = false) → Legible (stripUnitSuffix f))

theorem owningService_legible {built : Table String Bytes} (hlegible : LegibleOwners env manifest) (hbuilt : builtUnits env manifest = .ok built)
    {f : String} (hf : f ∈ built.rows.map Prod.fst) :
    Legible (ServicesEnv.owningService (env.hashOrder manifest.desired) (stripUnitSuffix f)) := by
  obtain ⟨hnames, hbase⟩ := hlegible built hbuilt f hf
  unfold ServicesEnv.owningService
  cases hfind : (env.hashOrder manifest.desired).find? (ownsBase · (stripUnitSuffix f)) with
  | none =>
    refine hbase fun name hname => ?_
    have hnot := List.find?_eq_none.mp hfind name ((env.hashOrder_perm _).mem_iff.mpr hname)
    simpa using hnot
  | some name =>
    exact hnames name ((env.hashOrder_perm _).mem_iff.mp (List.mem_of_find?_eq_some hfind))
      (List.find?_some (p := (ownsBase · (stripUnitSuffix f))) hfind)

/-- An old managed file that is not in the build goes: with its owner if that is
not enabled, and as a stale file if it is. -/
theorem old_file_goes (hown : OwnersOwn dir) {built : Table String Bytes} {f : String} (hf : f ∈ installedManagedUnitFiles dir)
    (hnot : f ∉ built.rows.map Prod.fst) : f ∈ env.removals manifest dir ∨
      f ∈ staleFiles (env.hashOrder manifest.desired) built (installedManagedUnitFiles dir) := by
  obtain ⟨bytes, contents, hget, hmanaged⟩ := mem_installedManagedUnitFiles.mp hf
  have howns := hown f bytes contents hget hmanaged
  by_cases hdesired : unitOwner f contents ∈ manifest.desired
  · right
    unfold staleFiles
    rw [List.mem_filter, Bool.and_eq_true, List.any_eq_true]
    refine ⟨hf, ⟨_, (env.hashOrder_perm _).mem_iff.mpr hdesired, howns⟩, ?_⟩
    rw [Bool.not_eq_true', ← Bool.not_eq_true, Table.contains_iff_mem]
    exact hnot
  · exact .inl (mem_removals.mpr ⟨hf, _, mem_installedManagedUnits.mpr ⟨f, bytes, contents, hget, hmanaged, rfl⟩, hdesired, howns⟩)

theorem applyServices_converges (hown : OwnersOwn dir) (hlegible : LegibleOwners env manifest)
    (h : env.applyServices manifest dir dir = .ok () dir') : OwnersOwn dir' ∧
      ∃ built, builtUnits env manifest = .ok built ∧ ∀ f, f ∈ installedManagedUnitFiles dir' ↔ f ∈ built.rows.map Prod.fst := by
  obtain ⟨built, hbuilt, hmanaged, hinstalled, hrest⟩ := applyServices_ok h
  have hmarked : ∀ f ∈ built.rows.map Prod.fst, ∃ text, dir'.get? f = some (asBytes text) ∧ managedContents f (asBytes text) = some text ∧
      ownsBase (unitOwner f text) (stripUnitSuffix f) = true := by
    intro f hf
    obtain ⟨text, htext⟩ := hinstalled f hf
    refine ⟨_, htext, managedContents_marked (hmanaged f hf) _ _, ?_⟩
    rw [unitOwner_marked f text (owningService_legible hlegible hbuilt hf)]
    exact owningService_owns _ _
  have hold : ∀ f ∉ built.rows.map Prod.fst, f ∉ installedManagedUnitFiles dir' := by
    intro f hf hmem
    obtain ⟨bytes, contents, hget, hcontents⟩ := mem_installedManagedUnitFiles.mp hmem
    rw [hrest f hf] at hget
    split at hget
    · cases hget
    next hkept => exact hkept (old_file_goes hown (mem_installedManagedUnitFiles.mpr ⟨bytes, contents, hget, hcontents⟩) hf)
  refine ⟨fun f bytes contents hget hcontents => ?_, built, hbuilt, fun f => ⟨fun hf => ?_, fun hf => ?_⟩⟩
  · by_cases hf : f ∈ built.rows.map Prod.fst
    · obtain ⟨text, htext, hcontents', howns⟩ := hmarked f hf
      rw [htext] at hget
      cases hget
      rw [hcontents'] at hcontents
      cases hcontents
      exact howns
    · exact absurd (mem_installedManagedUnitFiles.mpr ⟨bytes, contents, hget, hcontents⟩) (hold f hf)
  · by_contra hnot
    exact hold f hnot hf
  · obtain ⟨text, htext, hcontents, -⟩ := hmarked f hf
    exact mem_installedManagedUnitFiles.mpr ⟨_, text, htext, hcontents⟩

/-! ## Runs -/

/-- One run of the command. -/
structure ServicesRun where
  env : ServicesEnv
  manifest : HomeServices
  dryRun : Bool

def servicesNext (dir : UnitDir) (run : ServicesRun) : Option UnitDir :=
  onReturn (run.env.cmdServicesApplyQuiet run.dryRun run.manifest dir) fun _ dir' => dir'

/-- A run that succeeds. -/
def servicesStep : UnitDir → ServicesRun → UnitDir → Prop := stepOf servicesNext

theorem servicesStep_iff {run : ServicesRun} : servicesStep dir run dir' ↔
    run.env.cmdServicesApplyQuiet run.dryRun run.manifest dir = .ok () dir' := by
  unfold servicesStep stepOf servicesNext
  rw [onReturn_eq_some]
  constructor
  · rintro ⟨_, dir₁, hrun, rfl⟩
    exact hrun
  · exact fun hrun => ⟨(), dir', hrun, rfl⟩

def LegibleRun (_ : UnitDir) (run : ServicesRun) : Prop := LegibleOwners run.env run.manifest

/-- A run that succeeds comes to phase 1, is a dry run, or finds that there is nothing to do. -/
theorem apply_ok_cases {dryRun : Bool} (h : env.cmdServicesApplyQuiet dryRun manifest dir = .ok () dir') :
    Applies env dryRun manifest dir ∨ dir' = dir ∧ (dryRun = true ∨ manifest.enabled = [] ∧ env.toRemove manifest dir = []) := by
  by_cases happlies : Applies env dryRun manifest dir
  · exact .inl happlies
  have hsame := apply_of_not_applies happlies
  rw [h] at hsame
  refine .inr ⟨hsame, ?_⟩
  unfold ServicesEnv.cmdServicesApplyQuiet at h
  rcases call_cases env .loadManifest with ⟨-, hcall⟩ | ⟨hload, hcall⟩
  · rw [hcall, bind_of_error (ofExcept_error _)] at h; cases h
  rw [hcall, bind_of_ok (ofExcept_ok _)] at h
  rcases call_cases env .unitDir with ⟨-, hcall⟩ | ⟨hunitDir, hcall⟩
  · rw [hcall, bind_of_error (ofExcept_error _)] at h; cases h
  cases hdry : dryRun with
  | true => exact .inl rfl
  | false =>
    right
    by_contra hsome
    exact happlies ⟨hload, hunitDir, hdry, not_and_or.mp hsome⟩

theorem services_step (hown : OwnersOwn dir) {run : ServicesRun} (hlegible : LegibleOwners run.env run.manifest)
    (hstep : servicesStep dir run dir') : OwnersOwn dir' ∧ (run.dryRun = false →
      ∃ built, builtUnits run.env run.manifest = .ok built ∧ ∀ f, f ∈ installedManagedUnitFiles dir' ↔ f ∈ built.rows.map Prod.fst) := by
  have h := servicesStep_iff.mp hstep
  rcases apply_ok_cases h with happlies | ⟨rfl, hnone⟩
  · rw [apply_of_applies happlies] at h
    obtain ⟨hown', hconverges⟩ := applyServices_converges hown hlegible h
    exact ⟨hown', fun _ => hconverges⟩
  · refine ⟨hown, fun hdry => ?_⟩
    rw [hdry] at hnone
    obtain ⟨henabled, hremove⟩ := hnone.resolve_left nofun
    unfold builtUnits
    rw [if_pos (by simp [henabled])]
    refine ⟨.empty, rfl, fun f => iff_of_false (fun hf => ?_) nofun⟩
    -- its owner would be there to remove
    obtain ⟨bytes, contents, hget, hcontents⟩ := mem_installedManagedUnitFiles.mp hf
    have hdesired : unitOwner f contents ∉ run.manifest.desired := by
      unfold HomeServices.desired
      rw [henabled]
      exact nofun
    have hmem : unitOwner f contents ∈ run.env.toRemove run.manifest dir' := mem_toRemove.mpr ⟨mem_installedManagedUnits.mpr ⟨f, bytes, contents, hget, hcontents, rfl⟩, hdesired⟩
    rw [hremove] at hmem
    cases hmem

theorem services_converge {runs : List ServicesRun} {run : ServicesRun} (hfresh : installedManagedUnitFiles dir = [])
    (h : Run (guarded servicesStep LegibleRun) dir (runs ++ [run]) dir') (hdry : run.dryRun = false) :
    ∃ built, builtUnits run.env run.manifest = .ok built ∧ ∀ f, f ∈ installedManagedUnitFiles dir' ↔ f ∈ built.rows.map Prod.fst := by
  have hown : OwnersOwn dir := by
    intro f bytes contents hget hcontents
    have hmem := mem_installedManagedUnitFiles.mpr ⟨bytes, contents, hget, hcontents⟩
    rw [hfresh] at hmem
    cases hmem
  obtain ⟨dir₁, hbefore, hlast⟩ := h.of_append
  have hown₁ : OwnersOwn dir₁ := hbefore.invariant (fun _ _ _ hown hstep => (services_step hown hstep.1 hstep.2).1) hown
  cases hlast with
  | cons hstep hrest =>
    cases hrest
    exact (services_step hown₁ hstep.1 hstep.2).2 hdry

/-! ## A companion with a blank in its name -/

def plainService (name : String) : HomeServiceEntry := ⟨name, true, none, []⟩

def manifestOf (names : List String) : HomeServices := ⟨1, "", names.map plainService⟩

/-- Nix builds these files, if it builds, and no call fails. -/
def nixEnv (files : Option (List (String × Bytes))) : ServicesEnv where
  fails := fun _ => false
  asStr := fun _ => none
  hashOrder := id
  hashOrder_perm := fun _ => .refl _
  resolveCommandPath := fun _ command _ => command
  nixBuild := fun _ => files.map fun files => files.foldl (fun built file => built.insertOrReplace file.1 file.2) .empty
  starts := fun _ => true

def buildsRun (files : List String) : ServicesRun := ⟨nixEnv (some (files.map fun f => (f, []))), manifestOf ["x"], false⟩

theorem builtUnits_x {built : Table String Bytes} (h : builtUnits (buildsRun ["x.service"]).env (manifestOf ["x"]) = .ok built) :
    built.rows.map Prod.fst = ["x.service"] := by
  have hkeys : (builtUnits (buildsRun ["x.service"]).env (manifestOf ["x"])).toOption.map (fun built => built.rows.map Prod.fst) =
      some ["x.service"] := by decide
  rw [h] at hkeys
  exact Option.some.inj hkeys

theorem services_converge_x : ∃ dir, servicesNext .empty (buildsRun ["x.service"]) = some dir ∧
    ∃ built, builtUnits (buildsRun ["x.service"]).env (manifestOf ["x"]) = .ok built ∧
      ∀ f, f ∈ installedManagedUnitFiles dir ↔ f ∈ built.rows.map Prod.fst := by
  obtain ⟨dir, hdir⟩ := Option.isSome_iff_exists.mp
    (show (servicesNext .empty (buildsRun ["x.service"])).isSome = true by decide +kernel)
  have hlegible : LegibleRun .empty (buildsRun ["x.service"]) := by
    intro built hbuilt f hf
    rw [builtUnits_x hbuilt, List.mem_singleton] at hf
    have hbase : stripUnitSuffix f = "x" := by rw [hf]; decide
    rw [hbase]
    have hx : Legible "x" := ⟨by decide, by decide⟩
    refine ⟨fun name hname _ => ?_, fun _ => hx⟩
    rw [show name = "x" from List.mem_singleton.mp hname]
    exact hx
  have hrun : Run (guarded servicesStep LegibleRun) .empty ([] ++ [buildsRun ["x.service"]]) dir := .cons ⟨hlegible, hdir⟩ (.nil _)
  exact ⟨dir, hdir, services_converge rfl hrun rfl⟩

/-- The file `x .service` is marked for a service `x `, which is read back as `x`;
when the build no longer has it, no owner of it is found. -/
theorem companion_stays : ¬ ∀ (dir dir' : UnitDir) (runs : List ServicesRun) (run : ServicesRun), installedManagedUnitFiles dir = [] →
    Run servicesStep dir (runs ++ [run]) dir' → run.dryRun = false →
      ∃ built, builtUnits run.env run.manifest = .ok built ∧ ∀ f, f ∈ installedManagedUnitFiles dir' ↔ f ∈ built.rows.map Prod.fst := by
  intro h
  obtain ⟨dir, hdir, hstays⟩ := (Option.any_eq_true ..).mp
    (show ([buildsRun ["x.service", "x .service"], buildsRun ["x.service"]].foldlM servicesNext .empty).any
      (fun dir => (installedManagedUnitFiles dir).contains "x .service") = true by decide +kernel)
  obtain ⟨built, hbuilt, hfiles⟩ := h .empty dir [buildsRun ["x.service", "x .service"]] (buildsRun ["x.service"]) rfl (run_of_foldlM hdir) rfl
  have hmem := (hfiles "x .service").mp (List.contains_iff_mem.mp hstays)
  rw [builtUnits_x hbuilt] at hmem
  exact absurd hmem (by decide)

/-! ## A dash in a name, and a file of the user -/

/-- The result is an error before phase 3, and the file is gone. -/
def lostEarly (f : String) : EStateM.Result ServicesError UnitDir Unit → Bool
  | .error e dir => e.beforeInstall && !dir.contains f
  | .ok _ _ => false

def dashDir : UnitDir := Table.empty.insertOrReplace "foo.service" (asBytes (markedContents "foo" ""))
  |>.insertOrReplace "foo-bar.service" (asBytes (markedContents "foo-bar" ""))

def userDir : UnitDir := Table.empty.insertOrReplace "mine.service" (asBytes "[Unit]\n")

end Ekapkgs
