import Ekapkgs.ClientStores
import Ekapkgs.Lib.Keyed

/-!
# The package link directory

`symlink_dir.rs`, `store_path_index.rs` and the commands of `home.rs` that use
them. A package is linked from what its build resolved, but the directory is
rebuilt from the index, which a switch fills by the names it parses from store
paths.
-/

namespace Ekapkgs
open Keyed Runs

/-! ## State -/

/-- A link leads from a file name to the file of that name in `bin` of a store
path. No part of the program keeps `resolved`: it is the store path that the last
add or import of a manifest package resolved, while it exists. -/
structure PackageState where
  manifest : PackageManifest
  index : Table String String
  /-- The store paths that exist, with the names in `bin`. -/
  store : Table String (List String)
  links : Table String String
  resolved : Table String String

def PackageManifest.names (m : PackageManifest) : List String := m.packages.map (·.name)

def PackageManifest.resolveInstallable (m : PackageManifest) (entry : PackageEntry) : String :=
  entry.flake.getD m.flake ++ "#" ++ entry.name

/-- What an installable is built into, with the names in `bin`. -/
abbrev NixBuild := String → Option (String × List String)

/-! ## Links -/

def createPackageSymlinks (store : Table String (List String)) (storePath : String) (links : Table String String) : Table String String :=
  ((store.get? storePath).getD []).foldl (fun links file => links.insertOrReplace file storePath) links

def removePackageSymlinks (store : Table String (List String)) (storePath : String) (links : Table String String) : Table String String :=
  ((store.get? storePath).getD []).foldl (fun links file => if links.get? file = some storePath then links.delete file else links) links

/-- The store path of a package that the index knows and that exists. -/
def localPath (store : Table String (List String)) (index : Table String String) (name : String) : Option String :=
  (index.get? name).filter store.contains

def rebuildSymlinkDir (store : Table String (List String)) (index : Table String String) (packageNames : List String) : Table String String :=
  packageNames.foldl (fun links name =>
    match localPath store index name with
    | some storePath => createPackageSymlinks store storePath links
    | none => links) .empty

def PackageState.rebuild (s : PackageState) : PackageState := { s with links := rebuildSymlinkDir s.store s.index s.manifest.names }

/-! ## The index -/

/-- The characters before a `-` that a digit follows, and those after it. -/
def splitVersion : List Char → List Char × List Char
  | [] => ([], [])
  | [c] => ([c], [])
  | c :: d :: rest =>
    if c = '-' && d.isDigit then ([], d :: rest)
    else
      let (name, version) := splitVersion (d :: rest)
      (c :: name, version)

def parseStorePathName (path : String) : String × String :=
  let basename := rsplitNext '/' path
  match splitOnce "-" basename with
  | none => (basename, "")
  | some (_, nameVersion) =>
    let (name, version) := splitVersion nameVersion.toList
    (String.ofList name, String.ofList version)

def populateFromClosure (storePaths : List String) (index : Table String String) : Table String String :=
  storePaths.foldl (fun index path =>
    let (name, _) := parseStorePathName path
    if name = "" then index else index.insertOrReplace name path) index

/-! ## Commands -/

/-- The fast path: the index knows a store path that exists. -/
def PackageState.link (s : PackageState) (name storePath : String) : PackageState :=
  { s with
    links := createPackageSymlinks s.store storePath s.links
    resolved := s.resolved.insertOrReplace name storePath }

/-- The slow path: the build has made the store path. -/
def PackageState.linkBuilt (s : PackageState) (name : String) (out : String × List String) : PackageState :=
  let built := { s with
    store := s.store.insertOrIgnore out.1 out.2
    index := s.index.insertOrReplace name out.1 }
  built.link name out.1

/-- One package of `cmd_packages_add`; a build that fails ends the command. -/
def addPackage (flakeOverride : Option String) (addedAt addedBy : String) (build : NixBuild) (s : PackageState) (name : String) :
    Option PackageState :=
  if s.manifest.packages.any fun p => p.name = name then some s
  else
    let entry : PackageEntry := ⟨name, flakeOverride, some addedAt, some addedBy⟩
    let installable := s.manifest.resolveInstallable entry
    let manifest := { s.manifest with packages := s.manifest.packages ++ [entry] }
    match localPath s.store s.index name with
    | some storePath => some { s.link name storePath with manifest }
    | none => (build installable).map fun out => { s.linkBuilt name out with manifest }

/-- One name of `cmd_packages_remove`, with the number of those removed. -/
def removePackage (acc : PackageState × Nat) (name : String) : PackageState × Nat :=
  let (s, removed) := acc
  if s.manifest.packages.any fun p => p.name = name then
    ({ s with
      manifest := s.manifest.remove name
      links := (s.index.get? name).elim s.links fun storePath => removePackageSymlinks s.store storePath s.links
      resolved := s.resolved.delete name }, removed + 1)
  else acc

def removePackages (packages : List String) (s : PackageState) : PackageState :=
  let (s', removed) := packages.foldl removePackage (s, 0)
  if removed > 0 then s'.rebuild else s'

/-- One entry of `cmd_packages_import`; a build that fails is passed over. -/
def importPackage (build : NixBuild) (s : PackageState) (entry : PackageEntry) : PackageState :=
  match localPath s.store s.index entry.name with
  | some storePath => s.link entry.name storePath
  | none =>
    match build (s.manifest.resolveInstallable entry) with
    | some out => s.linkBuilt entry.name out
    | none => s

def importPackages (imported : PackageManifest) (merge : Bool) (build : NixBuild) (s : PackageState) : PackageState :=
  let manifest := s.manifest.importFrom imported merge
  let s := { s with manifest, resolved := s.resolved.deleteWhere fun name _ => name ∉ manifest.names }
  (manifest.packages.foldl (importPackage build) s).rebuild

/-- The store once every path of the closure exists. -/
def closureStore (closure : List (String × List String)) (store : Table String (List String)) : Table String (List String) :=
  closure.foldl (fun store path => store.insertOrIgnore path.1 path.2) store

def closureIndex (update : Bool) (closure : List (String × List String)) (index : Table String String) : Table String String :=
  populateFromClosure (closure.map Prod.fst) (if update then .empty else index)

/-- `home switch`, after the `update` that clears the index or without one, once
the activation of the build has succeeded. -/
def homeSwitch (update : Bool) (closure : List (String × List String)) (s : PackageState) : PackageState :=
  let switched := { s with store := closureStore closure s.store, index := closureIndex update closure s.index }
  switched.rebuild

/-- Store paths are collected: what was resolved to them does not exist any more. -/
def collectPaths (gone : List String) (s : PackageState) : PackageState :=
  { s with
    store := s.store.deleteWhere fun path _ => path ∈ gone
    resolved := s.resolved.deleteWhere fun _ path => path ∈ gone }

inductive PackagesOp where
  | add (packages : List String) (flakeOverride : Option String) (addedAt addedBy : String) (build : NixBuild)
  | remove (packages : List String)
  | importFrom (imported : PackageManifest) (merge : Bool) (build : NixBuild)
  | switch (update : Bool) (closure : List (String × List String))
  | collect (gone : List String)

/-- A command that succeeds. -/
def packagesNext (s : PackageState) : PackagesOp → Option PackageState
  | .add packages flakeOverride addedAt addedBy build => packages.foldlM (addPackage flakeOverride addedAt addedBy build) s
  | .remove packages => some (removePackages packages s)
  | .importFrom imported merge build => some (importPackages imported merge build s)
  | .switch update closure => some (homeSwitch update closure s)
  | .collect gone => some (collectPaths gone s)

/-! ## Mirroring -/

/-- The store path that the index has for a package of the manifest. -/
def PackageState.IsPackagePath (s : PackageState) (path : String) : Prop :=
  ∃ name ∈ s.manifest.names, s.index.get? name = some path

/-- Each file of a resolved store path has a link into the store path of some
package, and no link leads anywhere else. -/
structure MirrorsManifest (s : PackageState) : Prop where
  linked : ∀ name ∈ s.manifest.names, ∀ path bin, s.resolved.get? name = some path → s.store.get? path = some bin →
    ∀ file ∈ bin, ∃ path', s.links.get? file = some path' ∧ s.IsPackagePath path'
  owned : ∀ file path, s.links.get? file = some path → s.IsPackagePath path

/-- The index has a store path for the package that exists and provides what the
resolved one provides. -/
def Backs (store : Table String (List String)) (index : Table String String) (name path : String) : Prop :=
  ∃ bin path' bin', store.get? path = some bin ∧ index.get? name = some path' ∧ store.get? path' = some bin' ∧ bin ⊆ bin'

/-- A switch fills the index with paths that back what was resolved, and no path
is collected that backs one that stays. -/
def KeepsBacking (s : PackageState) : PackagesOp → Prop
  | .switch update closure => ∀ name path, s.resolved.get? name = some path →
      Backs (closureStore closure s.store) (closureIndex update closure s.index) name path
  | .collect gone => ∀ name path path', s.resolved.get? name = some path → path ∉ gone → s.index.get? name = some path' → path' ∉ gone
  | _ => True

/-! ## Links and stores -/

variable {s s' : PackageState} {store : Table String (List String)} {index links : Table String String}

theorem get?_createPackageSymlinks (path file : String) : (createPackageSymlinks store path links).get? file =
    if file ∈ (store.get? path).getD [] then some path else links.get? file := by
  unfold createPackageSymlinks
  induction (store.get? path).getD [] using List.reverseRecOn with
  | nil => simp
  | append_singleton files last ih =>
    rw [List.foldl_append, List.foldl_cons, List.foldl_nil, Table.get?_insertOrReplace, ih]
    by_cases hlast : file = last
    · simp [hlast]
    · simp [hlast]

theorem localPath_eq_some {name path : String} : localPath store index name = some path ↔
    index.get? name = some path ∧ ∃ bin, store.get? path = some bin := by
  unfold localPath
  rw [Option.filter_eq_some_iff, Table.contains_eq_isSome, Option.isSome_iff_exists]

/-- What a rebuilt directory holds: the files of the packages' store paths that exist. -/
theorem get?_rebuildSymlinkDir {file : String} : ∀ {names : List String}, 
    (∀ path, (rebuildSymlinkDir store index names).get? file = some path → ∃ name ∈ names, index.get? name = some path) ∧
      ∀ name ∈ names, ∀ path bin, index.get? name = some path → store.get? path = some bin → file ∈ bin →
        ∃ path', (rebuildSymlinkDir store index names).get? file = some path' := by
  intro names
  unfold rebuildSymlinkDir
  induction names using List.reverseRecOn with
  | nil => exact ⟨nofun, nofun⟩
  | append_singleton names last ih =>
    obtain ⟨howned, hlinked⟩ := ih
    rw [List.foldl_append, List.foldl_cons, List.foldl_nil]
    cases hlocal : localPath store index last with
    | none =>
      refine ⟨fun path hpath => ?_, fun name hname path bin hindex hstore hfile => ?_⟩
      · obtain ⟨name, hname, hindex⟩ := howned path hpath
        exact ⟨name, List.mem_append_left _ hname, hindex⟩
      · rcases List.mem_append.mp hname with hname | hname
        · exact hlinked name hname path bin hindex hstore hfile
        · rw [List.mem_singleton.mp hname] at hindex
          rw [localPath_eq_some.mpr ⟨hindex, bin, hstore⟩] at hlocal
          cases hlocal
    | some storePath =>
      obtain ⟨hlast, bin', hstore'⟩ := localPath_eq_some.mp hlocal
      dsimp only
      rw [get?_createPackageSymlinks, hstore', Option.getD_some]
      by_cases hnew : file ∈ bin'
      · rw [if_pos hnew]
        refine ⟨fun path hpath => ⟨last, by simp, ?_⟩, fun _ _ _ _ _ _ _ => ⟨_, rfl⟩⟩
        cases hpath
        exact hlast
      · rw [if_neg hnew]
        refine ⟨fun path hpath => ?_, fun name hname path bin hindex hstore hfile => ?_⟩
        · obtain ⟨name, hname, hindex⟩ := howned path hpath
          exact ⟨name, List.mem_append_left _ hname, hindex⟩
        · rcases List.mem_append.mp hname with hname | hname
          · exact hlinked name hname path bin hindex hstore hfile
          · rw [List.mem_singleton.mp hname, hlast] at hindex
            cases hindex
            rw [hstore'] at hstore
            cases hstore
            exact absurd hfile hnew

/-! ## The invariant -/

/-- What was resolved belongs to a package of the manifest and is backed by the index. -/
structure ResolvedBacked (s : PackageState) : Prop where
  current : ∀ name path, s.resolved.get? name = some path → name ∈ s.manifest.names
  backed : ∀ name path, s.resolved.get? name = some path → Backs s.store s.index name path

/-- Its files are linked, and links lead to what the index has. -/
structure LinksInv (s : PackageState) : Prop extends ResolvedBacked s where
  linked : ∀ name path bin, s.resolved.get? name = some path → s.store.get? path = some bin →
    ∀ file ∈ bin, ∃ path', s.links.get? file = some path'
  owned : ∀ file path, s.links.get? file = some path → s.IsPackagePath path

theorem LinksInv.mirrors (h : LinksInv s) : MirrorsManifest s where
  linked := by
    intro name _ path bin hresolved hstore file hfile
    obtain ⟨path', hlink⟩ := h.linked name path bin hresolved hstore file hfile
    exact ⟨path', hlink, h.owned file path' hlink⟩
  owned := h.owned

/-- A rebuilt directory needs of the old one nothing but the index. -/
theorem ResolvedBacked.rebuild (h : ResolvedBacked s) : LinksInv s.rebuild where
  current := h.current
  backed := h.backed
  linked := by
    intro name path bin hresolved hstore file hfile
    obtain ⟨bin', path', bin'', hstore', hindex, hstore'', hsub⟩ := h.backed name path hresolved
    have hstore : s.store.get? path = some bin := hstore
    rw [hstore'] at hstore
    cases hstore
    exact get?_rebuildSymlinkDir.2 name (h.current name path hresolved) path' bin'' hindex hstore'' (hsub hfile)
  owned := fun file path hlink => get?_rebuildSymlinkDir.1 path hlink

theorem get?_link_resolved {name path n : String} : (s.link name path).resolved.get? n =
    if n = name then some path else s.resolved.get? n := Table.get?_insertOrReplace ..

theorem ResolvedBacked.link (h : ResolvedBacked s) {name path : String} {bin : List String} (hname : name ∈ s.manifest.names)
    (hindex : s.index.get? name = some path) (hstore : s.store.get? path = some bin) : ResolvedBacked (s.link name path) where
  current := by
    intro n p hresolved
    rw [get?_link_resolved] at hresolved
    split at hresolved
    next heq => exact heq ▸ hname
    · exact h.current n p hresolved
  backed := by
    intro n p hresolved
    rw [get?_link_resolved] at hresolved
    split at hresolved
    next heq =>
      cases hresolved
      subst heq
      exact ⟨bin, path, bin, hstore, hindex, hstore, List.Subset.refl _⟩
    · exact h.backed n p hresolved

theorem get?_mono_of_insertOrIgnore {path p : String} {bin b : List String} (h : store.get? p = some b) :
    (store.insertOrIgnore path bin).get? p = some b := by
  rw [Table.get?_insertOrIgnore]
  split
  next heq => rw [← heq, h]; rfl
  · exact h

theorem Backs.mono {store' : Table String (List String)} {index' : Table String String} {name path : String}
    (h : Backs store index name path) (hstore : ∀ p b, store.get? p = some b → store'.get? p = some b)
    (hindex : index'.get? name = index.get? name) : Backs store' index' name path := by
  obtain ⟨bin, path', bin', hbin, hpath', hbin', hsub⟩ := h
  exact ⟨bin, path', bin', hstore _ _ hbin, hindex.trans hpath', hstore _ _ hbin', hsub⟩

/-- The state of the slow path before its links are made. -/
def PackageState.built (s : PackageState) (name : String) (out : String × List String) : PackageState :=
  { s with store := s.store.insertOrIgnore out.1 out.2, index := s.index.insertOrReplace name out.1 }

theorem get?_built_index {name n : String} {out : String × List String} : (s.built name out).index.get? n =
    if n = name then some out.1 else s.index.get? n := Table.get?_insertOrReplace ..

theorem get?_built_store (s : PackageState) (name : String) (out : String × List String) :
    ∃ bin, (s.built name out).store.get? out.1 = some bin := by
  refine ⟨(s.store.get? out.1).getD out.2, ?_⟩
  show (s.store.insertOrIgnore out.1 out.2).get? out.1 = _
  rw [Table.get?_insertOrIgnore, if_pos rfl]

/-- What was resolved for the package before is replaced. -/
theorem ResolvedBacked.linkBuilt (h : ResolvedBacked s) {name : String} (hname : name ∈ s.manifest.names) (out : String × List String) :
    ResolvedBacked (s.linkBuilt name out) where
  current := by
    intro n p hresolved
    have hresolved : ((s.built name out).link name out.1).resolved.get? n = some p := hresolved
    rw [get?_link_resolved] at hresolved
    split at hresolved
    next heq => exact heq ▸ hname
    · exact h.current n p hresolved
  backed := by
    intro n p hresolved
    have hresolved : ((s.built name out).link name out.1).resolved.get? n = some p := hresolved
    rw [get?_link_resolved] at hresolved
    split at hresolved
    next heq =>
      cases hresolved
      obtain ⟨bin, hbin⟩ := get?_built_store s name out
      exact ⟨bin, out.1, bin, hbin, by rw [heq]; exact get?_built_index.trans (if_pos rfl), hbin, List.Subset.refl _⟩
    next hne => exact (h.backed n p hresolved).mono (fun _ _ => get?_mono_of_insertOrIgnore) (get?_built_index.trans (if_neg hne))

/-! ## Adding -/

/-- A package that is new to the manifest has nothing resolved, and no link leads
to the manifest's packages through it. -/
theorem LinksInv.extend (h : LinksInv s) {manifest : PackageManifest} (hnames : ∀ n ∈ s.manifest.names, n ∈ manifest.names) :
    LinksInv { s with manifest } where
  current := fun name path hresolved => hnames name (h.current name path hresolved)
  backed := h.backed
  linked := h.linked
  owned := by
    intro file path hlink
    obtain ⟨name, hname, hindex⟩ := h.owned file path hlink
    exact ⟨name, hnames name hname, hindex⟩

theorem LinksInv.link (h : LinksInv s) {name path : String} {bin : List String} (hname : name ∈ s.manifest.names)
    (hindex : s.index.get? name = some path) (hstore : s.store.get? path = some bin) : LinksInv (s.link name path) where
  toResolvedBacked := h.toResolvedBacked.link hname hindex hstore
  linked := by
    intro n p bin' hresolved hbin' file hfile
    have hlinks : (s.link name path).links.get? file = if file ∈ bin then some path else s.links.get? file := by
      refine (get?_createPackageSymlinks path file).trans ?_
      rw [hstore, Option.getD_some]
    rw [hlinks]
    by_cases hnew : file ∈ bin
    · exact ⟨path, if_pos hnew⟩
    rw [if_neg hnew]
    rw [get?_link_resolved] at hresolved
    split at hresolved
    · cases hresolved
      have hbin' : s.store.get? path = some bin' := hbin'
      rw [hstore] at hbin'
      cases hbin'
      exact absurd hfile hnew
    · exact h.linked n p bin' hresolved hbin' file hfile
  owned := by
    intro file p hlink
    have hlinks := (get?_createPackageSymlinks path file).symm.trans hlink
    split at hlinks
    · cases hlinks
      exact ⟨name, hname, hindex⟩
    · exact h.owned file p hlinks

theorem LinksInv.built (h : LinksInv s) {name : String} (hname : name ∉ s.manifest.names) (out : String × List String) :
    LinksInv (s.built name out) where
  current := h.current
  backed := by
    intro n p hresolved
    have hne : n ≠ name := fun heq => hname (heq ▸ h.current n p hresolved)
    exact (h.backed n p hresolved).mono (fun _ _ => get?_mono_of_insertOrIgnore) (get?_built_index.trans (if_neg hne))
  linked := by
    intro n p bin hresolved hbin file hfile
    obtain ⟨bin', -, -, hbin', -⟩ := h.backed n p hresolved
    have hsame := (get?_mono_of_insertOrIgnore hbin').symm.trans hbin
    cases hsame
    exact h.linked n p bin hresolved hbin' file hfile
  owned := by
    intro file p hlink
    obtain ⟨m, hm, hindex⟩ := h.owned file p hlink
    have hne : m ≠ name := fun heq => hname (heq ▸ hm)
    exact ⟨m, hm, (get?_built_index.trans (if_neg hne)).trans hindex⟩

theorem mem_names_iff {m : PackageManifest} {name : String} : (m.packages.any fun p => p.name = name) = true ↔ name ∈ m.names := by
  unfold PackageManifest.names
  simp only [List.any_eq_true, decide_eq_true_eq, List.mem_map]

theorem linksInv_add {flakeOverride : Option String} {addedAt addedBy : String} {build : NixBuild} {name : String} (h : LinksInv s)
    (hadd : addPackage flakeOverride addedAt addedBy build s name = some s') : LinksInv s' := by
  unfold addPackage at hadd
  split at hadd
  · cases hadd; exact h
  next hnew =>
    rw [mem_names_iff] at hnew
    dsimp only at hadd
    have hnames (n : String) (hn : n ∈ s.manifest.names) :
        n ∈ ({ s.manifest with packages := s.manifest.packages ++ [⟨name, flakeOverride, some addedAt, some addedBy⟩] } : PackageManifest).names := by
      unfold PackageManifest.names at hn ⊢
      rw [List.map_append]
      exact List.mem_append_left _ hn
    have hname : name ∈ ({ s.manifest with packages := s.manifest.packages ++ [⟨name, flakeOverride, some addedAt, some addedBy⟩] } : PackageManifest).names := by
      unfold PackageManifest.names
      simp
    cases hlocal : localPath s.store s.index name with
    | some path =>
      rw [hlocal] at hadd
      obtain ⟨hindex, bin, hstore⟩ := localPath_eq_some.mp hlocal
      cases hadd
      exact (h.extend hnames).link hname hindex hstore
    | none =>
      rw [hlocal] at hadd
      obtain ⟨out, -, rfl⟩ := Option.map_eq_some_iff.mp hadd
      obtain ⟨bin, hbin⟩ := get?_built_store s name out
      exact ((h.built hnew out).extend hnames).link hname (get?_built_index.trans (if_pos rfl)) hbin

/-! ## Removing, importing, switching -/

theorem resolvedBacked_remove {acc : PackageState × Nat} (h : ResolvedBacked acc.1) (name : String) :
    ResolvedBacked (removePackage acc name).1 := by
  unfold removePackage
  dsimp only
  split
  · refine ⟨fun n path hresolved => ?_, fun n path hresolved => ?_⟩
    · have hresolved : (acc.1.resolved.delete name).get? n = some path := hresolved
      rw [Table.get?_delete] at hresolved
      split at hresolved
      · cases hresolved
      next hne =>
        obtain ⟨p, hp, hpname⟩ := List.mem_map.mp (h.current n path hresolved)
        refine List.mem_map.mpr ⟨p, List.mem_filter.mpr ⟨hp, ?_⟩, hpname⟩
        rw [hpname]
        exact decide_eq_true hne
    · have hresolved : (acc.1.resolved.delete name).get? n = some path := hresolved
      rw [Table.get?_delete] at hresolved
      split at hresolved
      · cases hresolved
      · exact h.backed n path hresolved
  · exact h

/-- Nothing was removed as long as the count is zero. -/
theorem removePackages_fold (h : ResolvedBacked s) (packages : List String) :
    ResolvedBacked (packages.foldl removePackage (s, 0)).1 ∧
      ((packages.foldl removePackage (s, 0)).2 = 0 → (packages.foldl removePackage (s, 0)).1 = s) := by
  induction packages using List.reverseRecOn with
  | nil => exact ⟨h, fun _ => rfl⟩
  | append_singleton packages name ih =>
    rw [List.foldl_append, List.foldl_cons, List.foldl_nil]
    refine ⟨resolvedBacked_remove ih.1 name, fun hzero => ?_⟩
    unfold removePackage at hzero ⊢
    dsimp only at hzero ⊢
    split at hzero
    · cases hzero
    next hnot =>
      rw [if_neg hnot]
      exact ih.2 hzero

theorem linksInv_remove (h : LinksInv s) (packages : List String) : LinksInv (removePackages packages s) := by
  obtain ⟨hbacked, hsame⟩ := removePackages_fold h.toResolvedBacked packages
  unfold removePackages
  dsimp only
  split
  · exact hbacked.rebuild
  next hzero =>
    rw [hsame (by omega)]
    exact h

theorem resolvedBacked_import (build : NixBuild) {entry : PackageEntry} (h : ResolvedBacked s) (hentry : entry.name ∈ s.manifest.names) :
    ResolvedBacked (importPackage build s entry) ∧ (importPackage build s entry).manifest = s.manifest := by
  unfold importPackage
  cases hlocal : localPath s.store s.index entry.name with
  | some path =>
    obtain ⟨hindex, bin, hstore⟩ := localPath_eq_some.mp hlocal
    exact ⟨h.link hentry hindex hstore, rfl⟩
  | none =>
    dsimp only
    cases build (s.manifest.resolveInstallable entry) with
    | none => exact ⟨h, rfl⟩
    | some out => exact ⟨h.linkBuilt hentry out, rfl⟩

theorem resolvedBacked_imports {build : NixBuild} : ∀ {entries : List PackageEntry} {s : PackageState}, ResolvedBacked s →
    (∀ entry ∈ entries, entry.name ∈ s.manifest.names) → ResolvedBacked (entries.foldl (importPackage build) s)
  | [], _, h, _ => h
  | entry :: entries, s, h, hentries => by
    obtain ⟨hnext, hmanifest⟩ := resolvedBacked_import build h (hentries entry (by simp))
    show ResolvedBacked (entries.foldl (importPackage build) (importPackage build s entry))
    exact resolvedBacked_imports hnext fun e he => hmanifest ▸ hentries e (by simp [he])

theorem linksInv_import (h : LinksInv s) (imported : PackageManifest) (merge : Bool) (build : NixBuild) :
    LinksInv (importPackages imported merge build s) := by
  unfold importPackages
  have hkept {name path : String} (hresolved : (s.resolved.deleteWhere fun name _ =>
      name ∉ (s.manifest.importFrom imported merge).names).get? name = some path) :
      s.resolved.get? name = some path ∧ name ∈ (s.manifest.importFrom imported merge).names := by
    rw [Table.get?_deleteWhere, Option.filter_eq_some_iff] at hresolved
    simpa using hresolved
  refine (resolvedBacked_imports ⟨fun name path hresolved => (hkept hresolved).2, fun name path hresolved => ?_⟩
    fun entry hentry => List.mem_map_of_mem hentry).rebuild
  exact h.backed name path (hkept hresolved).1

theorem linksInv_switch (h : LinksInv s) {update : Bool} {closure : List (String × List String)}
    (hbacking : KeepsBacking s (.switch update closure)) : LinksInv (homeSwitch update closure s) := by
  unfold homeSwitch
  exact ResolvedBacked.rebuild ⟨h.current, hbacking⟩

theorem linksInv_collect (h : LinksInv s) {gone : List String} (hbacking : KeepsBacking s (.collect gone)) : LinksInv (collectPaths gone s) := by
  have hresolved {name path : String} (hr : (collectPaths gone s).resolved.get? name = some path) :
      s.resolved.get? name = some path ∧ path ∉ gone := by
    have hr : (s.resolved.deleteWhere fun _ path => path ∈ gone).get? name = some path := hr
    rw [Table.get?_deleteWhere, Option.filter_eq_some_iff] at hr
    simpa using hr
  have hstore {path : String} (hpath : path ∉ gone) : (collectPaths gone s).store.get? path = s.store.get? path :=
    Table.get?_deleteWhere_of_neg fun _ => by simp [hpath]
  refine { current := fun name path hr => h.current name path (hresolved hr).1, backed := fun name path hr => ?_,
           linked := fun name path bin hr hbin => ?_, owned := h.owned }
  · obtain ⟨hold, hpath⟩ := hresolved hr
    obtain ⟨bin, path', bin', hbin, hindex, hbin', hsub⟩ := h.backed name path hold
    have hpath' := hbacking name path path' hold hpath hindex
    exact ⟨bin, path', bin', (hstore hpath).trans hbin, hindex, (hstore hpath').trans hbin', hsub⟩
  · obtain ⟨hold, hpath⟩ := hresolved hr
    exact h.linked name path bin hold ((hstore hpath).symm.trans hbin)

/-! ## Runs -/

theorem linksInv_step {op : PackagesOp} (h : LinksInv s) (hbacking : KeepsBacking s op) (hnext : packagesNext s op = some s') : LinksInv s' := by
  cases op with
  | add packages flakeOverride addedAt addedBy build =>
    have hrun : Run (stepOf (addPackage flakeOverride addedAt addedBy build)) s packages s' := run_of_foldlM hnext
    exact hrun.invariant (fun _ _ _ hinv hadd => linksInv_add hinv hadd) h
  | remove packages => cases hnext; exact linksInv_remove h packages
  | importFrom imported merge build => cases hnext; exact linksInv_import h imported merge build
  | switch update closure => cases hnext; exact linksInv_switch h hbacking
  | collect gone => cases hnext; exact linksInv_collect h hbacking

/-- Nothing is linked yet, and nothing has been resolved. -/
structure PackageState.Fresh (s : PackageState) : Prop where
  links : s.links = .empty
  resolved : s.resolved = .empty

theorem linksInv_fresh (h : s.Fresh) : LinksInv s where
  current := by rw [h.resolved]; exact nofun
  backed := by rw [h.resolved]; exact nofun
  linked := by rw [h.resolved]; exact nofun
  owned := by rw [h.links]; exact nofun

theorem packages_mirrored {ops : List PackagesOp} (hfresh : s.Fresh) (hrun : Run (guarded (stepOf packagesNext) KeepsBacking) s ops s') :
    MirrorsManifest s' := by
  have hinv : LinksInv s' := hrun.invariant (fun _ _ _ h hstep => linksInv_step h hstep.1 hstep.2) (linksInv_fresh hfresh)
  exact hinv.mirrors

/-! ## An attribute that is not the name of its store path -/

def noPackages : PackageState := ⟨⟨1, "nixpkgs", []⟩, .empty, .empty, .empty, .empty⟩

def nodePath : String := "/nix/store/abc-nodejs-20.1"

def nodeBuild : NixBuild := fun installable => if installable = "nixpkgs#nodejs" ∨ installable = "nixpkgs#nodejs_20" then some (nodePath, ["node"]) else none

def addNode (name : String) : PackagesOp := .add [name] none "now" "user" nodeBuild

def updateNode : PackagesOp := .switch true [(nodePath, ["node"])]

theorem parse_nodePath : parseStorePathName nodePath = ("nodejs", "20.1") := by decide

def afterOps (ops : List PackagesOp) : PackageState := (ops.foldlM packagesNext noPackages).getD noPackages

theorem packages_mirrored_nodejs : ∃ s, [addNode "nodejs", updateNode].foldlM packagesNext noPackages = some s ∧ MirrorsManifest s := by
  have hadd : packagesNext noPackages (addNode "nodejs") = some (afterOps [addNode "nodejs"]) := rfl
  have hupdate : packagesNext (afterOps [addNode "nodejs"]) updateNode = some (afterOps [addNode "nodejs", updateNode]) := rfl
  have hbacking : KeepsBacking (afterOps [addNode "nodejs"]) updateNode := by
    intro name path hresolved
    have hmem : (name, path) ∈ [("nodejs", nodePath)] := Table.get?_eq_some.mp hresolved
    cases List.mem_singleton.mp hmem
    exact ⟨["node"], nodePath, ["node"], by decide, by decide, by decide, List.Subset.refl _⟩
  have hrun : Run (guarded (stepOf packagesNext) KeepsBacking) noPackages [addNode "nodejs", updateNode]
      (afterOps [addNode "nodejs", updateNode]) := .cons ⟨trivial, hadd⟩ (.cons ⟨hbacking, hupdate⟩ (.nil _))
  exact ⟨_, rfl, packages_mirrored ⟨rfl, rfl⟩ hrun⟩

/-- The store path of `nodejs_20` is indexed as `nodejs`, so the rebuilt directory
has none of its links. -/
theorem update_drops_links : ¬ ∀ (s s' : PackageState) (ops : List PackagesOp), s.Fresh → Run (stepOf packagesNext) s ops s' → MirrorsManifest s' := by
  intro h
  have hrun : [addNode "nodejs_20", updateNode].foldlM packagesNext noPackages = some (afterOps [addNode "nodejs_20", updateNode]) := rfl
  have hmirrors := h _ _ _ ⟨rfl, rfl⟩ (run_of_foldlM hrun)
  obtain ⟨path, hlink, -⟩ := hmirrors.linked "nodejs_20" (by decide) nodePath ["node"] (by decide) (by decide) "node" (by simp)
  have hnone : (afterOps [addNode "nodejs_20", updateNode]).links.get? "node" = none := by decide
  rw [hnone] at hlink
  cases hlink

end Ekapkgs
