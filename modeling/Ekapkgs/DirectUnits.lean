import Ekapkgs.UnitsConverge

/-!
# Directly configured services

`commands/home.rs`: the unit of a service with a command is generated, and those
of the others are built by Nix, all into one temporary directory. The expression
for Nix has every enabled service in it, so that Nix builds a unit of the same
name as well, and its file is copied last.
-/

namespace Ekapkgs
open Keyed Fallible

variable {env : ServicesEnv} {manifest : HomeServices} {dir dir' : UnitDir}

/-! ## The two kinds -/

namespace ServicesEnv
variable (env)

def directServices (manifest : HomeServices) : List HomeServiceEntry := manifest.enabled.filter fun entry => (env.getStr entry "command").isSome

def nixServices (manifest : HomeServices) : List HomeServiceEntry := manifest.enabled.filter fun entry => (env.getStr entry "command").isNone

end ServicesEnv

def unitName (entry : HomeServiceEntry) : String := entry.name ++ ".service"

/-- Under the marker line of its owner, the unit of a service is the generated one. -/
def InstalledDirect (env : ServicesEnv) (manifest : HomeServices) (dir : UnitDir) (entry : HomeServiceEntry) : Prop :=
  ∃ text, env.generateDirectUnitFile entry manifest.flake = .ok text ∧ dir.get? (unitName entry) =
    some (asBytes (markedContents (ServicesEnv.owningService (env.hashOrder manifest.desired) (stripUnitSuffix (unitName entry))) text))

theorem unitName_inj {entry entry' : HomeServiceEntry} (h : unitName entry = unitName entry') : entry.name = entry'.name := by
  have hstrip := congrArg (stripSuffix ".service") h
  unfold unitName at hstrip
  rw [stripSuffix_append, stripSuffix_append] at hstrip
  exact Option.some.inj hstrip

/-! ## What is installed -/

/-- The text of a file of the build under its marker line. -/
def InstalledFrom (names : List String) (dir : UnitDir) (file : String × Bytes) : Prop :=
  ∃ text, fromUtf8 file.2 = some text ∧
    dir.get? file.1 = some (asBytes (markedContents (ServicesEnv.owningService names (stripUnitSuffix file.1)) text))

theorem installUnit_ok {names : List String} {file : String × Bytes} (hfile : isManagedUnitFile file.1 = true)
    (h : env.installUnit names file dir = .ok () dir') : ∃ text, fromUtf8 file.2 = some text ∧ dir' = dir.insertOrReplace file.1
      (asBytes (markedContents (ServicesEnv.owningService names (stripUnitSuffix file.1)) text)) := by
  unfold ServicesEnv.installUnit at h
  rw [if_pos hfile] at h
  rcases call_cases env (.readBuilt file.1) with ⟨-, hcall⟩ | ⟨-, hcall⟩
  · rw [hcall, bind_of_error (ofExcept_error _)] at h
    cases h
  rw [hcall, bind_of_ok (ofExcept_ok _)] at h
  cases htext : fromUtf8 file.2 with
  | none => rw [htext] at h; cases h
  | some text =>
    rw [htext] at h
    dsimp only at h
    rcases call_cases env (.install file.1) with ⟨-, hcall⟩ | ⟨-, hcall⟩
    · rw [hcall, bind_of_error (ofExcept_error _)] at h
      cases h
    · rw [hcall, bind_of_ok (ofExcept_ok _)] at h
      cases h
      exact ⟨text, rfl, rfl⟩

theorem forM_installUnit_ok {names : List String} : ∀ {files : List (String × Bytes)} {dir : UnitDir},
    (∀ file ∈ files, isManagedUnitFile file.1 = true) → (files.map Prod.fst).Nodup →
    files.forM (env.installUnit names) dir = .ok () dir' →
      (∀ file ∈ files, InstalledFrom names dir' file) ∧ ∀ f ∉ files.map Prod.fst, dir'.get? f = dir.get? f
  | [], dir, _, _, h => by
    cases h
    exact ⟨nofun, fun _ _ => rfl⟩
  | file :: files, dir, hmanaged, hnodup, h => by
    obtain ⟨hfile, hfiles⟩ := List.forall_mem_cons.mp hmanaged
    rw [List.map_cons, List.nodup_cons] at hnodup
    obtain ⟨_, dir₁, hinstall, hrest⟩ := bind_ok.mp h
    obtain ⟨text, htext, rfl⟩ := installUnit_ok hfile hinstall
    obtain ⟨hinstalled, hframe⟩ := forM_installUnit_ok hfiles hnodup.2 hrest
    refine ⟨List.forall_mem_cons.mpr ⟨⟨text, htext, ?_⟩, hinstalled⟩, fun f hf => ?_⟩
    · rw [hframe _ hnodup.1, Table.get?_insertOrReplace, if_pos rfl]
    · rw [List.map_cons, List.mem_cons, not_or] at hf
      rw [hframe f hf.2, Table.get?_insertOrReplace, if_neg hf.1]

theorem installServices_from {existing : List String} {built : Table String Bytes} (hbuilt : AllManaged built)
    (h : env.installServices existing manifest built dir = .ok () dir') :
    ∀ file ∈ built.rows, InstalledFrom (env.hashOrder manifest.desired) dir' file := by
  unfold ServicesEnv.installServices at h
  obtain ⟨_, dir₁, -, hafter⟩ := bind_ok.mp h
  obtain ⟨_, dir₂, hinstall, hafter⟩ := bind_ok.mp hafter
  obtain ⟨_, dir₃, hstale, hstart⟩ := bind_ok.mp hafter
  obtain rfl : dir' = dir₃ := by
    rcases startServices_state env dir₃ manifest.enabled with hstarted | ⟨n, hstarted⟩
    · rw [hstarted] at hstart; cases hstart; rfl
    · rw [hstarted] at hstart; cases hstart
  obtain ⟨hinstalled, -⟩ := forM_installUnit_ok (fun file hfile => hbuilt _ (List.mem_map_of_mem hfile)) built.nodup hinstall
  rw [forM_removeStale] at hstale
  intro file hfile
  obtain ⟨text, htext, hget⟩ := hinstalled file hfile
  refine ⟨text, htext, ?_⟩
  rw [forM_removeUnit_ok hstale, get?_without, if_neg, hget]
  intro hmem
  -- a stale file is not one of the build
  have hnot := (Bool.and_eq_true_iff.mp (List.mem_filter.mp hmem).2).2
  rw [Table.contains_iff_mem.mpr (List.mem_map_of_mem hfile)] at hnot
  cases hnot

theorem applyServices_from (henabled : manifest.enabled ≠ []) (h : env.cmdServicesApplyQuiet false manifest dir = .ok () dir') :
    ∃ built, env.buildUnits manifest = .ok built ∧ ∀ file ∈ built.rows, InstalledFrom (env.hashOrder manifest.desired) dir' file := by
  have happly : env.applyServices manifest dir dir = .ok () dir' := by
    unfold ServicesEnv.cmdServicesApplyQuiet at h
    obtain ⟨_, dir₁, hload, h⟩ := bind_ok.mp h
    obtain ⟨_, dir₂, hunitDir, h⟩ := bind_ok.mp h
    rcases call_cases env .loadManifest with ⟨-, hcall⟩ | ⟨-, hcall⟩
    · rw [hcall] at hload; cases hload
    rw [hcall] at hload
    cases hload
    rcases call_cases env .unitDir with ⟨-, hcall⟩ | ⟨-, hcall⟩
    · rw [hcall] at hunitDir; cases hunitDir
    rw [hcall] at hunitDir
    cases hunitDir
    rw [bind_get, if_neg (by simp [henabled]), if_neg Bool.false_ne_true] at h
    exact h
  unfold ServicesEnv.applyServices at happly
  obtain ⟨_, dir₁, -, happly⟩ := bind_ok.mp happly
  rw [if_pos (by simpa using henabled)] at happly
  cases hbuild : env.buildUnits manifest with
  | error e =>
    rw [hbuild, bind_of_error (ofExcept_error e)] at happly
    cases happly
  | ok built =>
    rw [hbuild, bind_of_ok (ofExcept_ok built)] at happly
    have hmanaged := buildUnits_result env manifest
    rw [hbuild] at hmanaged
    exact ⟨built, rfl, installServices_from hmanaged happly⟩

/-! ## What is built -/

theorem writeDirect_ok {flake : String} {built built' : Table String Bytes} {entry : HomeServiceEntry}
    (h : env.writeDirect flake built entry = .ok built') :
    ∃ text, env.generateDirectUnitFile entry flake = .ok text ∧ built' = built.insertOrReplace (unitName entry) (asBytes text) := by
  unfold ServicesEnv.writeDirect at h
  cases htext : env.generateDirectUnitFile entry flake with
  | error e => rw [htext] at h; cases h
  | ok text =>
    rw [htext] at h
    rcases call_cases env (.writeBuilt (entry.name ++ ".service")) with ⟨-, hcall⟩ | ⟨-, hcall⟩
    · simp only [hcall] at h
      cases h
    · simp only [hcall] at h
      cases h
      exact ⟨text, rfl, rfl⟩

/-- A later service of the same name wins. -/
theorem foldlM_writeDirect {flake : String} : ∀ {l : List HomeServiceEntry} {built built' : Table String Bytes},
    l.foldlM (env.writeDirect flake) built = .ok built' →
      (∀ entry ∈ l, (∃ text, env.generateDirectUnitFile entry flake = .ok text) ∧ ∃ later ∈ l, later.name = entry.name ∧
        ∃ text, env.generateDirectUnitFile later flake = .ok text ∧ built'.get? (unitName entry) = some (asBytes text)) ∧
      ∀ f, (∀ entry ∈ l, unitName entry ≠ f) → built'.get? f = built.get? f
  | [], built, built', h => by
    cases h
    exact ⟨nofun, fun _ _ => rfl⟩
  | entry :: l, built, built', h => by
    rw [List.foldlM_cons] at h
    cases hwrite : env.writeDirect flake built entry with
    | error e => rw [hwrite] at h; cases h
    | ok built₁ =>
      rw [hwrite] at h
      obtain ⟨text, htext, rfl⟩ := writeDirect_ok hwrite
      obtain ⟨hl, hframe⟩ := foldlM_writeDirect (l := l) h
      refine ⟨List.forall_mem_cons.mpr ⟨⟨⟨text, htext⟩, ?_⟩, fun entry' hmem => ?_⟩, fun f hf => ?_⟩
      · by_cases hlater : ∃ later ∈ l, unitName later = unitName entry
        · obtain ⟨later, hmem, hname⟩ := hlater
          obtain ⟨-, last, hlast, hlastName, htext⟩ := hl later hmem
          exact ⟨last, List.mem_cons_of_mem _ hlast, hlastName.trans (unitName_inj hname), hname ▸ htext⟩
        · refine ⟨entry, List.mem_cons_self, rfl, text, htext, ?_⟩
          rw [hframe _ fun later hmem hname => hlater ⟨later, hmem, hname⟩, Table.get?_insertOrReplace, if_pos rfl]
      · obtain ⟨hgenerated, last, hlast, hrest⟩ := hl entry' hmem
        exact ⟨hgenerated, last, List.mem_cons_of_mem _ hlast, hrest⟩
      · obtain ⟨hfirst, hrest⟩ := List.forall_mem_cons.mp hf
        rw [hframe f hrest, Table.get?_insertOrReplace, if_neg (Ne.symm hfirst)]

theorem foldlM_copyBuilt : ∀ {files : List (String × Bytes)} {built built' : Table String Bytes}, (files.map Prod.fst).Nodup →
    files.foldlM env.copyBuilt built = .ok built' →
      (∀ file ∈ files, isManagedUnitFile file.1 = true → built'.get? file.1 = some file.2) ∧
      ∀ f ∉ files.map Prod.fst, built'.get? f = built.get? f
  | [], built, built', _, h => by
    cases h
    exact ⟨nofun, fun _ _ => rfl⟩
  | file :: files, built, built', hnodup, h => by
    rw [List.map_cons, List.nodup_cons] at hnodup
    rw [List.foldlM_cons] at h
    cases hcopy : env.copyBuilt built file with
    | error e => rw [hcopy] at h; cases h
    | ok built₁ =>
      rw [hcopy] at h
      obtain ⟨hfiles, hframe⟩ := foldlM_copyBuilt hnodup.2 h
      have hbuilt₁ : built₁ = if isManagedUnitFile file.1 then built.insertOrReplace file.1 file.2 else built := by
        unfold ServicesEnv.copyBuilt at hcopy
        split_ifs at hcopy ⊢ with hmanaged
        · rcases call_cases env (.copyBuilt file.1) with ⟨-, hcall⟩ | ⟨-, hcall⟩
          · rw [hcall] at hcopy; cases hcopy
          · rw [hcall] at hcopy; cases hcopy; rfl
        · cases hcopy; rfl
      refine ⟨List.forall_mem_cons.mpr ⟨fun hmanaged => ?_, hfiles⟩, fun f hf => ?_⟩
      · rw [hframe _ hnodup.1, hbuilt₁, if_pos hmanaged, Table.get?_insertOrReplace, if_pos rfl]
      · rw [List.map_cons, List.mem_cons, not_or] at hf
        rw [hframe f hf.2, hbuilt₁]
        split_ifs
        · rw [Table.get?_insertOrReplace, if_neg hf.1]
        · rfl

theorem buildUnits_ok {built : Table String Bytes} (h : env.buildUnits manifest = .ok built) :
    ∃ direct, (env.directServices manifest).foldlM (env.writeDirect manifest.flake) .empty = .ok direct ∧
      (env.nixServices manifest = [] ∧ built = direct ∨ env.nixServices manifest ≠ [] ∧ ∃ files, env.nixBuild manifest = some files ∧
        files.rows.foldlM env.copyBuilt direct = .ok built) := by
  unfold ServicesEnv.buildUnits at h
  rcases call_cases env .tempDir with ⟨-, hcall⟩ | ⟨-, hcall⟩
  · rw [hcall] at h; cases h
  rw [hcall] at h
  have hdirect : ∀ {r}, (env.directServices manifest).foldlM (env.writeDirect manifest.flake) .empty = r →
      (manifest.enabled.filter fun entry => (env.getStr entry "command").isSome).foldlM (env.writeDirect manifest.flake) .empty = r := id
  cases hrun : (env.directServices manifest).foldlM (env.writeDirect manifest.flake) .empty with
  | error e => simp only [hdirect hrun] at h; cases h
  | ok direct =>
    simp only [hdirect hrun] at h
    refine ⟨direct, rfl, ?_⟩
    by_cases hnix : env.nixServices manifest = []
    · have hempty : (manifest.enabled.filter fun entry => (env.getStr entry "command").isNone).isEmpty = true := List.isEmpty_iff.mpr hnix
      simp only [hempty] at h
      exact .inl ⟨hnix, (Except.ok.inj h).symm⟩
    · have hempty : (manifest.enabled.filter fun entry => (env.getStr entry "command").isNone).isEmpty = false :=
        Bool.eq_false_iff.mpr fun hempty => hnix (List.isEmpty_iff.mp hempty)
      simp only [hempty] at h
      cases hfiles : env.nixBuild manifest with
      | none => rw [hfiles] at h; cases h
      | some files =>
        rw [hfiles] at h
        exact .inr ⟨hnix, files, rfl, h⟩

/-! ## Both kinds in one manifest -/

theorem markedContents_inj {owner text text' : String} (h : asBytes (markedContents owner text) = asBytes (markedContents owner text')) :
    text = text' :=
  (String.append_right_inj _).mp (asBytes_inj h)

theorem installedDirect_iff {entry : HomeServiceEntry} {text : String} {bytes : Bytes}
    (hgenerated : env.generateDirectUnitFile entry manifest.flake = .ok text)
    (hfrom : InstalledFrom (env.hashOrder manifest.desired) dir (unitName entry, bytes)) :
    InstalledDirect env manifest dir entry ↔ bytes = asBytes text := by
  obtain ⟨installed, htext, hget⟩ := hfrom
  have hbytes : asBytes installed = bytes := asBytes_of_fromUtf8 htext
  unfold InstalledDirect
  rw [hget, hgenerated]
  constructor
  · rintro ⟨text', htext', heq⟩
    rw [← hbytes, markedContents_inj (Option.some.inj heq), Except.ok.inj htext']
  · intro heq
    refine ⟨text, rfl, ?_⟩
    rw [asBytes_inj (hbytes.trans heq)]

/-- When the services that have a command get the unit generated for them. -/
theorem direct_units_iff (env : ServicesEnv) (manifest : HomeServices) (dir dir' : UnitDir)
    (hrun : env.cmdServicesApplyQuiet false manifest dir = .ok () dir')
    (hnix : ∀ files, env.nixBuild manifest = some files → ∀ entry ∈ manifest.enabled, (files.get? (unitName entry)).isSome = true) :
    (∀ entry ∈ env.directServices manifest, InstalledDirect env manifest dir' entry) ↔
      (env.nixServices manifest = [] ∧ ∀ entry ∈ env.directServices manifest, ∀ entry' ∈ env.directServices manifest,
        entry.name = entry'.name → env.generateDirectUnitFile entry manifest.flake = env.generateDirectUnitFile entry' manifest.flake) ∨
      (env.nixServices manifest ≠ [] ∧ ∀ files, env.nixBuild manifest = some files → ∀ entry ∈ env.directServices manifest,
        ∃ text, env.generateDirectUnitFile entry manifest.flake = .ok text ∧ files.get? (unitName entry) = some (asBytes text)) := by
  by_cases henabled : manifest.enabled = []
  · have hdirect : env.directServices manifest = [] := by unfold ServicesEnv.directServices; rw [henabled]; rfl
    have hnone : env.nixServices manifest = [] := by unfold ServicesEnv.nixServices; rw [henabled]; rfl
    rw [hdirect]
    exact iff_of_true nofun (.inl ⟨hnone, nofun⟩)
  obtain ⟨built, hbuild, hinstalled⟩ := applyServices_from henabled hrun
  obtain ⟨direct, hdirect, hkinds⟩ := buildUnits_ok hbuild
  obtain ⟨hwritten, -⟩ := foldlM_writeDirect hdirect
  rcases hkinds with ⟨hnone, rfl⟩ | ⟨hsome, files, hfiles, hcopied⟩
  · rw [or_iff_left fun h => h.1 hnone]
    constructor
    · refine fun h => ⟨hnone, fun entry hentry entry' hentry' hname => ?_⟩
      obtain ⟨⟨text, htext⟩, later, -, hlater, last, -, hget⟩ := hwritten entry hentry
      obtain ⟨⟨text', htext'⟩, -⟩ := hwritten entry' hentry'
      have hsame : unitName entry = unitName entry' := by unfold unitName; rw [hname]
      have hlast := (installedDirect_iff htext (hinstalled _ (Table.get?_eq_some.mp hget))).mp (h entry hentry)
      have hlast' := (installedDirect_iff htext' (hinstalled _ (Table.get?_eq_some.mp (hsame ▸ hget)))).mp (h entry' hentry')
      rw [htext, htext', asBytes_inj (hlast.symm.trans hlast')]
    · rintro ⟨-, hagree⟩ entry hentry
      obtain ⟨⟨text, htext⟩, later, hlater, hname, last, hlast, hget⟩ := hwritten entry hentry
      rw [hagree later hlater entry hentry hname, htext] at hlast
      refine (installedDirect_iff htext (hinstalled _ (Table.get?_eq_some.mp hget))).mpr ?_
      rw [Except.ok.inj hlast]
  · rw [or_iff_right fun h => hsome h.1]
    obtain ⟨hlast, -⟩ := foldlM_copyBuilt files.nodup hcopied
    have hunit : ∀ entry ∈ env.directServices manifest, ∃ text bytes, env.generateDirectUnitFile entry manifest.flake = .ok text ∧
        files.get? (unitName entry) = some bytes ∧ (InstalledDirect env manifest dir' entry ↔ bytes = asBytes text) := by
      intro entry hentry
      obtain ⟨⟨text, htext⟩, -⟩ := hwritten entry hentry
      obtain ⟨bytes, hbytes⟩ := Option.isSome_iff_exists.mp (hnix files hfiles entry (List.mem_of_mem_filter hentry))
      have hget := hlast _ (Table.get?_eq_some.mp hbytes) (isManagedUnitFile_service entry.name)
      exact ⟨text, bytes, htext, hbytes, installedDirect_iff htext (hinstalled _ (Table.get?_eq_some.mp hget))⟩
    constructor
    · refine fun h => ⟨hsome, fun files' hfiles' entry hentry => ?_⟩
      obtain rfl : files = files' := Option.some.inj (hfiles.symm.trans hfiles')
      obtain ⟨text, bytes, htext, hbytes, hiff⟩ := hunit entry hentry
      exact ⟨text, htext, by rw [hbytes, hiff.mp (h entry hentry)]⟩
    · rintro ⟨-, h⟩ entry hentry
      obtain ⟨text, bytes, htext, hbytes, hiff⟩ := hunit entry hentry
      obtain ⟨text', htext', hbytes'⟩ := h files hfiles entry hentry
      obtain rfl : text = text' := Except.ok.inj (htext.symm.trans htext')
      exact hiff.mpr (Option.some.inj (hbytes.symm.trans hbytes'))

/-! ## A service of each kind -/

/-- A service that has a command. -/
def commandService (name command : String) : HomeServiceEntry := ⟨name, true, none, [("command", .value command)]⟩

/-- Strings are values as they stand, and Nix builds these files. -/
def stringEnv (files : List (String × Bytes)) : ServicesEnv := { nixEnv (some files) with
  asStr := fun
    | .value text => some text
    | .table _ => none }

def directEnv : ServicesEnv := stringEnv [("a.service", []), ("b.service", [])]

/-- The files of Nix have a unit for each of the services. -/
theorem directEnv_builds {manifest : HomeServices} (hnames : ∀ entry ∈ manifest.enabled, entry.name = "a" ∨ entry.name = "b")
    (files : Table String Bytes) (h : directEnv.nixBuild manifest = some files) :
    ∀ entry ∈ manifest.enabled, (files.get? (unitName entry)).isSome = true := by
  intro entry hentry
  rw [← Option.some.inj h]
  have hunits : unitName entry = "a.service" ∨ unitName entry = "b.service" := by
    unfold unitName
    rcases hnames entry hentry with hname | hname
    · rw [hname]; exact .inl (by decide)
    · rw [hname]; exact .inr (by decide)
  rcases hunits with hunit | hunit
  · rw [hunit]; decide
  · rw [hunit]; decide

def oneDirect : HomeServices := ⟨1, "", [commandService "a" "/bin/a"]⟩

/-- With a service that Nix builds. -/
def bothKinds : HomeServices := ⟨1, "", [commandService "a" "/bin/a", plainService "b"]⟩

/-- The run succeeds, and this is what it installs for the first service. -/
def installsA (manifest : HomeServices) (bytes : Bytes) : Bool :=
  match directEnv.cmdServicesApplyQuiet false manifest .empty with
  | .ok _ dir => dir.get? "a.service" = some bytes
  | .error _ _ => false

theorem run_of_installsA {manifest : HomeServices} {bytes : Bytes} (h : installsA manifest bytes = true) :
    ∃ dir, directEnv.cmdServicesApplyQuiet false manifest .empty = .ok () dir ∧ dir.get? "a.service" = some bytes := by
  unfold installsA at h
  split at h
  next u dir heq => exact ⟨dir, heq, of_decide_eq_true h⟩
  · cases h

def unitA : String := "[Unit]\nDescription=a\n\n[Service]\nType=simple\nExecStart=/bin/a\\\n         nRestart=on-failure\nRestartSec=5" ++
  "\nKillSignal=SIGTERM\n\n[Install]\\\n         nWantedBy=default.target\n"

theorem direct_units_iff_one : ∃ dir, ∀ entry ∈ directEnv.directServices oneDirect, InstalledDirect directEnv oneDirect dir entry := by
  obtain ⟨dir, hrun, -⟩ := run_of_installsA (show installsA oneDirect (asBytes (markedContents "a" unitA)) = true by decide +kernel)
  have hnix : directEnv.nixServices oneDirect = [] := rfl
  refine ⟨dir, (direct_units_iff directEnv oneDirect .empty dir hrun (directEnv_builds (by simp [oneDirect, HomeServices.enabled, commandService]))).mpr
    (.inl ⟨hnix, ?_⟩)⟩
  intro entry hentry entry' hentry' _
  have hall : ∀ entry ∈ directEnv.directServices oneDirect, entry = commandService "a" "/bin/a" := by
    intro entry hentry
    exact List.mem_singleton.mp hentry
  rw [hall entry hentry, hall entry' hentry']

/-- The unit from Nix replaces the one that was generated. -/
theorem direct_unit_replaced : installsA bothKinds (asBytes (markedContents "a" "")) = true ∧
    ¬ ∀ (env : ServicesEnv) (manifest : HomeServices) (dir dir' : UnitDir),
      env.cmdServicesApplyQuiet false manifest dir = .ok () dir' →
      (∀ files, env.nixBuild manifest = some files → ∀ entry ∈ manifest.enabled, (files.get? (unitName entry)).isSome = true) →
        ∀ entry ∈ env.directServices manifest, InstalledDirect env manifest dir' entry := by
  have hinstalls : installsA bothKinds (asBytes (markedContents "a" "")) = true := by decide +kernel
  refine ⟨hinstalls, fun h => ?_⟩
  obtain ⟨dir, hrun, hget⟩ := run_of_installsA hinstalls
  have hnames : ∀ entry ∈ bothKinds.enabled, entry.name = "a" ∨ entry.name = "b" := by
    simp [bothKinds, HomeServices.enabled, commandService, plainService]
  have hbuilds := directEnv_builds hnames
  obtain ⟨text, htext, hunit⟩ := h directEnv bothKinds .empty dir hrun hbuilds (commandService "a" "/bin/a") (List.mem_cons_self ..)
  have hname : unitName (commandService "a" "/bin/a") = "a.service" := by decide
  have howner : ServicesEnv.owningService (directEnv.hashOrder bothKinds.desired) (stripUnitSuffix "a.service") = "a" := by decide
  rw [hname, hget, howner] at hunit
  have hempty := markedContents_inj (Option.some.inj hunit)
  rw [← hempty] at htext
  have hgenerated : (directEnv.generateDirectUnitFile (commandService "a" "/bin/a") bothKinds.flake).toOption ≠ some "" := by decide +kernel
  rw [htext] at hgenerated
  exact hgenerated rfl

end Ekapkgs
