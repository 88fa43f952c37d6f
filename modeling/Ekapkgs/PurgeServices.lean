import Ekapkgs.ClientStores
import Ekapkgs.RequestText

/-!
# Removing services with their data

`cmd_services_remove` in `home.rs`: the manifest, then the GC roots, then with
`--purge` the data directories, each in a loop of its own over all the names. A
location is where a path leads through the links on the disk.
-/

namespace Ekapkgs
open Links

abbrev HomeFiles := FileSystem FileContents

/-- A removal is refused, or done, or breaks off midway. -/
inductive RemoveOutcome where
  | refused | done | broken
  deriving DecidableEq

structure HomeSystem where
  cwd : Location
  /-- `HOME`. -/
  home : Option String
  /-- `service_gcroots_dir()`. -/
  gcroots : Option String
  /-- Whether `manifest.save()` succeeds. -/
  saves : Bool
  /-- `cmd_services_apply`: the disk after it, unless it fails. -/
  apply : HomeFiles → Option HomeFiles
  outcome : Location → RemoveOutcome

inductive Removal where
  | gcroot (name : String) (loc : Location)
  /-- `share` is where `~/.local/share` is. -/
  | directory (name : String) (loc : Location) (share : Option Location)
  deriving DecidableEq

def HomeServices.contains (m : HomeServices) (name : String) : Bool := m.services.any fun s => s.name = name

/-- How many names `manifest.remove` returns true for. -/
def removedCount : HomeServices → List String → Nat
  | _, [] => 0
  | m, name :: names =>
    (if (m.remove name).services.length < m.services.length then 1 else 0) + removedCount (m.remove name) names

section
variable (sys : HomeSystem)

/-- `path.exists()`. -/
def pathExists (fs : HomeFiles) (path : String) : Bool := (canonicalize fs sys.cwd path).isSome

/-- The location of what the path names; a link at its end is not followed. -/
def namedLocation (fs : HomeFiles) (path : String) : Option Location :=
  match (pathComponents path).getLast? with
  | some (.normal name) =>
    if Char.ofNat 0 ∈ path.toList then none
    else ((fs.resolve MAX_LINKS (if isAbsolutePath path then [] else sys.cwd) (pathComponents path).dropLast).map (name :: ·)).filter
      fun loc => (fs.entry loc).isSome
  | _ => canonicalize fs sys.cwd path

/-- `fs::remove_file`, for a path with a name at its end. -/
def removeFile? (fs : HomeFiles) (path : String) : Option Location :=
  match (pathComponents path).getLast? with
  | some (.normal _) => (namedLocation sys fs path).filter fun loc => !fs.isDirectory loc && sys.outcome loc ≠ .refused
  | _ => none

/-- The GC root that is removed for a name; a link counts though it leads nowhere. -/
def gcrootOf (fs : HomeFiles) (name : String) : Option Location :=
  sys.gcroots.bind fun gcroots =>
    let path := joinPath gcroots name
    let isSymlink := (namedLocation sys fs path).any fun loc => (fs.entry loc).any Entry.isSymlink
    if pathExists sys fs path || isSymlink then removeFile? sys fs path else none

/-- Failures are ignored. -/
def removeServiceGcroot (fs : HomeFiles) (name : String) : HomeFiles := (gcrootOf sys fs name).elim fs fs.without

def removeServiceGcroots : List String → HomeFiles → List Removal × HomeFiles
  | [], fs => ([], fs)
  | name :: names, fs =>
    let rest := removeServiceGcroots names (removeServiceGcroot sys fs name)
    (((gcrootOf sys fs name).map (Removal.gcroot name)).toList ++ rest.1, rest.2)

def shareDir (home : String) : String := joinPath home ".local/share"

/-- The directory, or the link to one, that `remove_dir_all` is called for. -/
def dataDirOf (home : String) (fs : HomeFiles) (name : String) : Option Location :=
  let path := joinPath (shareDir home) name
  if pathExists sys fs path then namedLocation sys fs path else none

/-- A file is no directory to remove. -/
def removeDirAll (fs : HomeFiles) (loc : Location) : RemoveOutcome :=
  if fs.isDirectory loc || (fs.entry loc).any Entry.isSymlink then sys.outcome loc else .refused

/-- A call that fails ends the command. -/
def purgeDataDirs (home : String) : List String → HomeFiles → List Removal
  | [], _ => []
  | name :: names, fs =>
    match dataDirOf sys home fs name with
    | none => purgeDataDirs home names fs
    | some loc =>
      let removal := .directory name loc (canonicalize fs sys.cwd (shareDir home))
      match removeDirAll sys fs loc with
      | .refused => []
      | .broken => [removal]
      | .done => removal :: purgeDataDirs home names (fs.without loc)

/-- What is removed from the disk. -/
def cmdServicesRemove (manifest : HomeServices) (services : List String) (noApply purge : Bool) (fs : HomeFiles) : List Removal :=
  if !sys.saves || removedCount manifest services = 0 then []
  else
    let (gcroots, fs) := removeServiceGcroots sys services fs
    match (if noApply then some fs else sys.apply fs), sys.home with
    | some fs, some home => if purge then gcroots ++ purgeDataDirs sys home services fs else gcroots
    | _, _ => gcroots

end

/-- Strictly inside. -/
def Inside (share : Option Location) (loc : Location) : Prop := ∃ dir, share = some dir ∧ dir <:+ loc ∧ loc ≠ dir

def Removal.Owned (manifest : HomeServices) : Removal → Prop
  | .gcroot name _ => manifest.contains name = true
  | .directory name loc share => manifest.contains name = true ∧ Inside share loc

/-! ## The turns of the names -/

section
variable (sys : HomeSystem)

/-- Each name with the disk when its turn comes. -/
def gcrootTurns : List String → HomeFiles → List (String × HomeFiles)
  | [], _ => []
  | name :: names, fs => (name, fs) :: gcrootTurns names (removeServiceGcroot sys fs name)

def purgeTurns (home : String) : List String → HomeFiles → List (String × HomeFiles)
  | [], _ => []
  | name :: names, fs => (name, fs) ::
    match dataDirOf sys home fs name with
    | none => purgeTurns home names fs
    | some loc => if removeDirAll sys fs loc = .done then purgeTurns home names (fs.without loc) else []

/-- Only names of the manifest have GC roots to remove. -/
def GcrootsFit (manifest : HomeServices) (turns : List (String × HomeFiles)) : Prop :=
  ∀ turn ∈ turns, (gcrootOf sys turn.2 turn.1).isSome = true → manifest.contains turn.1 = true

/-- Only names of the manifest have data directories to remove, and they lead inside. -/
def DataDirsFit (manifest : HomeServices) (home : String) (turns : List (String × HomeFiles)) : Prop :=
  ∀ turn ∈ turns, ∀ loc, dataDirOf sys home turn.2 turn.1 = some loc → removeDirAll sys turn.2 loc ≠ .refused →
    manifest.contains turn.1 = true ∧ Inside (canonicalize turn.2 sys.cwd (shareDir home)) loc

/-- No name is in the manifest, or all fit in their turns. -/
def NamesFit (manifest : HomeServices) (services : List String) (noApply purge : Bool) (fs : HomeFiles) : Prop :=
  sys.saves = true → (∃ name ∈ services, manifest.contains name = true) →
    GcrootsFit sys manifest (gcrootTurns sys services fs) ∧
    ∀ fs' home, (if noApply then some (removeServiceGcroots sys services fs).2 else sys.apply (removeServiceGcroots sys services fs).2) = some fs' →
      sys.home = some home → purge = true → DataDirsFit sys manifest home (purgeTurns sys home services fs')

end

variable {sys : HomeSystem} {manifest : HomeServices} {home : String}

theorem remove_length (m : HomeServices) (name : String) : (m.remove name).services.length < m.services.length ↔ m.contains name = true := by
  unfold HomeServices.remove HomeServices.contains
  dsimp only
  rw [List.length_filter_lt_length_iff_exists, List.any_eq_true]
  simp

theorem contains_remove (m : HomeServices) {name name' : String} (h : m.contains name = false) : (m.remove name).contains name' = m.contains name' := by
  have hall : ∀ s ∈ m.services, s.name ≠ name := by simpa [HomeServices.contains] using h
  unfold HomeServices.contains HomeServices.remove
  dsimp only
  rw [List.filter_eq_self.mpr fun s hs => decide_eq_true (hall s hs)]

theorem removedCount_eq_zero : ∀ {names : List String} {m : HomeServices}, removedCount m names = 0 ↔ ¬∃ name ∈ names, m.contains name = true
  | [], m => by simp [removedCount]
  | name :: names, m => by
    unfold removedCount
    cases hname : m.contains name with
    | true =>
      rw [if_pos ((remove_length m name).mpr hname)]
      exact ⟨fun h => absurd h (by omega), fun h => absurd ⟨name, List.mem_cons_self, hname⟩ h⟩
    | false =>
      rw [if_neg (fun h => by rw [(remove_length m name).mp h] at hname; cases hname), Nat.zero_add, removedCount_eq_zero]
      simp [contains_remove m hname, hname]

theorem gcroots_owned : ∀ {names : List String} {fs : HomeFiles},
    (∀ r ∈ (removeServiceGcroots sys names fs).1, r.Owned manifest) ↔ GcrootsFit sys manifest (gcrootTurns sys names fs)
  | [], fs => by simp [removeServiceGcroots, gcrootTurns, GcrootsFit]
  | name :: names, fs => by
    have ih : (∀ r ∈ (removeServiceGcroots sys names (removeServiceGcroot sys fs name)).1, r.Owned manifest) ↔
        GcrootsFit sys manifest (gcrootTurns sys names (removeServiceGcroot sys fs name)) := gcroots_owned
    unfold GcrootsFit at ih ⊢
    unfold removeServiceGcroots gcrootTurns
    dsimp only
    rw [List.forall_mem_append, List.forall_mem_cons, ih]
    refine and_congr_left fun _ => ?_
    cases gcrootOf sys fs name with
    | none => simp
    | some loc => simp [Removal.Owned]

theorem purge_owned : ∀ {names : List String} {fs : HomeFiles},
    (∀ r ∈ purgeDataDirs sys home names fs, r.Owned manifest) ↔ DataDirsFit sys manifest home (purgeTurns sys home names fs)
  | [], fs => by simp [purgeDataDirs, purgeTurns, DataDirsFit]
  | name :: names, fs => by
    unfold DataDirsFit purgeTurns purgeDataDirs
    rw [List.forall_mem_cons]
    dsimp only
    cases hdir : dataDirOf sys home fs name with
    | none =>
      rw [purge_owned]
      exact ⟨fun h => ⟨nofun, h⟩, fun h => h.2⟩
    | some loc =>
      dsimp only
      cases houtcome : removeDirAll sys fs loc with
      | refused => simp [houtcome]
      | broken => simp [houtcome, Removal.Owned]
      | done =>
        rw [if_pos rfl, List.forall_mem_cons, purge_owned]
        refine and_congr_left fun _ => ⟨fun h loc' heq _ => ?_, fun h => h loc rfl (by rw [houtcome]; nofun)⟩
        cases heq
        exact h

theorem services_owned (services : List String) (noApply purge : Bool) (fs : HomeFiles) :
    (∀ r ∈ cmdServicesRemove sys manifest services noApply purge fs, r.Owned manifest) ↔ NamesFit sys manifest services noApply purge fs := by
  unfold cmdServicesRemove NamesFit
  cases hsaves : sys.saves with
  | false => simp
  | true =>
    by_cases hcount : removedCount manifest services = 0
    · have hnone := removedCount_eq_zero.mp hcount
      rw [if_pos (by simp [hcount])]
      exact ⟨fun _ _ h => absurd h hnone, fun _ => nofun⟩
    have hsome : ∃ name ∈ services, manifest.contains name = true := not_not.mp fun h => hcount (removedCount_eq_zero.mpr h)
    rw [if_neg (by simp [hcount])]
    dsimp only
    have hfits : (∀ r ∈ (removeServiceGcroots sys services fs).1, r.Owned manifest) ↔ GcrootsFit sys manifest (gcrootTurns sys services fs) :=
      gcroots_owned
    cases happly : (if noApply then some (removeServiceGcroots sys services fs).2 else sys.apply (removeServiceGcroots sys services fs).2) with
    | none =>
      refine hfits.trans ⟨fun h _ _ => ⟨h, nofun⟩, fun h => (h rfl hsome).1⟩
    | some fs' =>
      cases hhome : sys.home with
      | none => exact hfits.trans ⟨fun h _ _ => ⟨h, fun _ _ _ hnone => by cases hnone⟩, fun h => (h rfl hsome).1⟩
      | some home =>
        dsimp only
        cases purge with
        | false => exact hfits.trans ⟨fun h _ _ => ⟨h, fun _ _ _ _ hfalse => by cases hfalse⟩, fun h => (h rfl hsome).1⟩
        | true =>
          rw [if_pos rfl, List.forall_mem_append, hfits, purge_owned]
          refine ⟨fun ⟨hroots, hdirs⟩ _ _ => ⟨hroots, fun fs'' home' heq hhome' _ => ?_⟩, fun h => ?_⟩
          · cases heq
            cases hhome'
            exact hdirs
          · obtain ⟨hroots, hdirs⟩ := h rfl hsome
            exact ⟨hroots, hdirs fs' home rfl rfl rfl⟩

/-! ## Names that are one component -/

theorem shareDir_eq (home : String) : ∃ before, shareDir home = before ++ ".local/share" := by
  unfold shareDir joinPath
  rw [if_neg (by decide)]
  split_ifs
  · exact ⟨home, rfl⟩
  · exact ⟨home ++ "/", rfl⟩

theorem pathComponents_append {base name : String} (h : '/' ∉ name.toList) :
    pathComponents (base ++ "/" ++ name) = pathComponents base ++ [Component.ofSegment name] := by
  have hsplit : (base ++ "/" ++ name).toList.splitOn '/' = base.toList.splitOn '/' ++ [name.toList] := by
    have hlist : (base ++ "/" ++ name).toList = base.toList ++ '/' :: name.toList := by simp
    rw [hlist, List.splitOn_append_cons_self, List.splitOn_eq_singleton h]
  unfold pathComponents split
  rw [hsplit, List.map_append, List.map_append]
  simp

/-- A plain name leads to an entry of the directory itself. -/
theorem inside_of_validName {fs : HomeFiles} {name : String} {loc : Location} (hname : ValidName name)
    (h : dataDirOf sys home fs name = some loc) : Inside (canonicalize fs sys.cwd (shareDir home)) loc := by
  obtain ⟨hsegment, hslash, hnul⟩ := hname
  obtain ⟨before, hshare⟩ := shareDir_eq home
  have hne : shareDir home ≠ "" := by rw [hshare]; simp
  have hlast : (shareDir home).toList.getLast? ≠ some '/' := by
    rw [hshare, String.toList_append, List.getLast?_append_of_ne_nil _ (by decide)]
    decide
  have hpath : joinPath (shareDir home) name = shareDir home ++ "/" ++ name := joinPath_of_name hne hlast hslash
  have hcomponents : pathComponents (shareDir home ++ "/" ++ name) = pathComponents (shareDir home) ++ [.normal name] := by
    rw [pathComponents_append hslash, hsegment]
  have habsolute : isAbsolutePath (shareDir home ++ "/" ++ name) = isAbsolutePath (shareDir home) := by
    unfold isAbsolutePath
    rw [String.append_assoc, String.toList_append, List.head?_append_of_ne_nil _ fun hnil => hne (String.toList_inj.mp hnil)]
  unfold dataDirOf at h
  dsimp only at h
  rw [hpath] at h
  split_ifs at h with hexists
  unfold namedLocation at h
  rw [hcomponents, List.getLast?_concat, habsolute, List.dropLast_concat] at h
  dsimp only at h
  by_cases hnul' : Char.ofNat 0 ∈ (shareDir home ++ "/" ++ name).toList
  · rw [if_pos hnul'] at h
    cases h
  rw [if_neg hnul'] at h
  obtain ⟨hmap, -⟩ := Option.filter_eq_some_iff.mp h
  obtain ⟨dir, hdir, rfl⟩ := Option.map_eq_some_iff.mp hmap
  refine ⟨dir, ?_, List.suffix_cons name dir, fun heq => ?_⟩
  · unfold canonicalize
    rw [if_neg ?_, hdir]
    rintro (hempty | hmem)
    · exact hne hempty
    · exact hnul' (by simp [hmem])
  · have := congrArg List.length heq
    rw [List.length_cons] at this
    omega

theorem mem_gcroots : ∀ {names : List String} {fs : HomeFiles}, ∀ turn ∈ gcrootTurns sys names fs, turn.1 ∈ names
  | _ :: _, _, turn, h => by
    rcases List.mem_cons.mp h with rfl | h
    · exact List.mem_cons_self
    · exact List.mem_cons_of_mem _ (mem_gcroots turn h)

theorem mem_purgeTurns : ∀ {names : List String} {fs : HomeFiles}, ∀ turn ∈ purgeTurns sys home names fs, turn.1 ∈ names
  | name :: names, fs, turn, h => by
    rcases List.mem_cons.mp h with rfl | h
    · exact List.mem_cons_self
    · cases hdir : dataDirOf sys home fs name with
      | none =>
        rw [hdir] at h
        exact List.mem_cons_of_mem _ (mem_purgeTurns turn h)
      | some loc =>
        rw [hdir] at h
        dsimp only at h
        split_ifs at h
        · exact List.mem_cons_of_mem _ (mem_purgeTurns turn h)
        · cases h

theorem namesFit_of_valid {services : List String} (h : ∀ name ∈ services, manifest.contains name = true ∧ ValidName name)
    (noApply purge : Bool) (fs : HomeFiles) : NamesFit sys manifest services noApply purge fs := by
  refine fun _ _ => ⟨fun turn hmem _ => (h _ (mem_gcroots turn hmem)).1, fun fs' home _ _ _ turn hmem loc hdir _ => ?_⟩
  obtain ⟨hcontains, hvalid⟩ := h _ (mem_purgeTurns turn hmem)
  exact ⟨hcontains, inside_of_validName hvalid hdir⟩

/-- All that is removed belongs to services removed from the manifest, and lies inside
`~/.local/share`, exactly if no name is in the manifest or all fit in their turns; on
every disk they do if they are plain names in the manifest. -/
theorem services_removed_only (sys manifest services noApply purge fs) :
    ((∀ r ∈ cmdServicesRemove sys manifest services noApply purge fs, r.Owned manifest) ↔
      NamesFit sys manifest services noApply purge fs) ∧
    ((∀ name ∈ services, manifest.contains name = true ∧ ValidName name) → NamesFit sys manifest services noApply purge fs) :=
  ⟨services_owned services noApply purge fs, fun h => namesFit_of_valid h noApply purge fs⟩

instance (name : String) : Decidable (ValidName name) := inferInstanceAs (Decidable (_ ∧ _ ∧ _))

/-- Whatever can be named is a directory. -/
def allDirectories : HomeFiles where
  entry loc := if ∀ name ∈ loc, ValidName name then some .directory else none
  root := if_pos nofun
  parent := by
    intro name loc h
    split at h
    · next hvalid => exact if_pos fun name' hmem => hvalid name' (List.mem_cons_of_mem _ hmem)
    · cases h
  valid := by
    intro name loc h
    split at h
    · next hvalid => exact hvalid name List.mem_cons_self
    · cases h

def homeOfU : HomeSystem := ⟨[], some "/home/u", none, true, some, fun _ => .done⟩

def nginxServices : HomeServices := ⟨1, "github:ekala-project/corepkgs", [⟨"nginx", true, none, []⟩]⟩

theorem services_removed_only_nginx : NamesFit homeOfU nginxServices ["nginx"] true true allDirectories := by
  refine (services_removed_only homeOfU nginxServices ["nginx"] true true allDirectories).2 fun name hmem => ?_
  rw [List.mem_singleton.mp hmem]
  exact ⟨by decide, by decide⟩

/-- The data of a name that is in no manifest is deleted with the service. -/
theorem purge_unlisted : ¬∀ r ∈ cmdServicesRemove homeOfU nginxServices ["nginx", "mail"] true true allDirectories, r.Owned nginxServices := by
  have hrun : cmdServicesRemove homeOfU nginxServices ["nginx", "mail"] true true allDirectories =
      [.directory "nginx" ["nginx", "share", ".local", "u", "home"] (some ["share", ".local", "u", "home"]),
        .directory "mail" ["mail", "share", ".local", "u", "home"] (some ["share", ".local", "u", "home"])] := by decide
  intro h
  have hmail := h (.directory "mail" ["mail", "share", ".local", "u", "home"] (some ["share", ".local", "u", "home"])) (by rw [hrun]; simp)
  exact absurd hmail.1 (by decide)

end Ekapkgs
