import Ekapkgs.UserUnits
import Ekapkgs.Castore
import Ekapkgs.Lib.Runs

/-!
# What applying services leaves

What each phase does to the unit directory, whether or not a call fails in it.
Phase 1 removes by the names of files, before anything is built, and phase 3
writes by the names of files, whatever has them.
-/

namespace Ekapkgs
open Keyed Fallible Runs

/-! ## Loops -/

section
variable {ε σ α β : Type}

theorem forM_flatMap (f : β → EStateM ε σ PUnit) (g : α → List β) : ∀ l : List α,
    (l.flatMap g).forM f = l.forM fun a => (g a).forM f
  | [] => rfl
  | a :: l => by
    have happend : (g a ++ l.flatMap g).forM f = (g a).forM f >>= fun _ => (l.flatMap g).forM f := List.forM_append
    rw [List.flatMap_cons, happend, forM_flatMap f g l]; rfl

theorem forM_filter (f : α → EStateM ε σ PUnit) (p : α → Bool) : ∀ l : List α,
    (l.filter p).forM f = l.forM fun a => if p a then f a else pure ⟨⟩
  | [] => rfl
  | a :: l => by
    have ih := forM_filter f p l
    show _ = (if p a then f a else pure ⟨⟩) >>= fun _ => l.forM fun a => if p a then f a else pure ⟨⟩
    rw [← ih]
    cases hp : p a with
    | true => rw [List.filter_cons_of_pos hp]; rfl
    | false => rw [List.filter_cons_of_neg (by simp [hp])]; rfl

end

/-! ## Names and owners -/

variable {env : ServicesEnv} {manifest : HomeServices} {dir dir' : UnitDir} {c : String → UnitCall}

theorem mem_installedManagedUnitFiles {f : String} : f ∈ installedManagedUnitFiles dir ↔
    ∃ bytes contents, dir.get? f = some bytes ∧ managedContents f bytes = some contents := by
  unfold installedManagedUnitFiles
  simp only [List.mem_map, List.mem_filter, Prod.exists, exists_and_right, exists_eq_right, Option.isSome_iff_exists,
    Table.get?_eq_some]
  constructor
  · rintro ⟨bytes, hrow, contents, h⟩
    exact ⟨bytes, contents, hrow, h⟩
  · rintro ⟨bytes, contents, hrow, h⟩
    exact ⟨bytes, hrow, contents, h⟩

theorem mem_installedManagedUnits {owner : String} : owner ∈ installedManagedUnits dir ↔
    ∃ f bytes contents, dir.get? f = some bytes ∧ managedContents f bytes = some contents ∧ unitOwner f contents = owner := by
  unfold installedManagedUnits
  rw [List.mem_dedup]
  simp only [List.mem_filterMap, Prod.exists, Option.map_eq_some_iff, Table.get?_eq_some, exists_and_left]

theorem mem_toRemove {name : String} : name ∈ env.toRemove manifest dir ↔
    name ∈ installedManagedUnits dir ∧ name ∉ manifest.desired := by
  unfold ServicesEnv.toRemove
  rw [List.mem_filter, (env.hashOrder_perm _).mem_iff, decide_eq_true_eq]

namespace ServicesEnv
variable (env)

/-- The files that phase 1 goes through, in its order. -/
def removals (manifest : HomeServices) (dir : UnitDir) : List String :=
  (env.toRemove manifest dir).flatMap fun name =>
    (installedManagedUnitFiles dir).filter fun file => ownsBase name (stripUnitSuffix file)

/-- Those it removes, until a call fails. -/
def removed (manifest : HomeServices) (dir : UnitDir) : List String :=
  (env.removals manifest dir).takeWhile fun file => !env.fails (.remove file)

/-- The file of the build can be read, and its unit written. -/
def installs (file : String × Bytes) : Bool :=
  !env.fails (.readBuilt file.1) && (fromUtf8 file.2).isSome && !env.fails (.install file.1)

end ServicesEnv

theorem mem_removals {f : String} : f ∈ env.removals manifest dir ↔ f ∈ installedManagedUnitFiles dir ∧
    ∃ name ∈ installedManagedUnits dir, name ∉ manifest.desired ∧ ownsBase name (stripUnitSuffix f) = true := by
  unfold ServicesEnv.removals
  simp only [List.mem_flatMap, mem_toRemove, List.mem_filter]
  constructor
  · rintro ⟨name, ⟨hname, hdesired⟩, hf, howns⟩
    exact ⟨hf, name, hname, hdesired, howns⟩
  · rintro ⟨hf, name, hname, hdesired, howns⟩
    exact ⟨name, ⟨hname, hdesired⟩, hf, howns⟩

/-- The error stands for a call before phase 3. -/
def ServicesError.beforeInstall : ServicesError → Bool
  | .call .loadManifest | .call .unitDir | .call (.remove _) | .call .tempDir | .call (.writeBuilt _) | .call (.copyBuilt _) => true
  | .noCommand _ | .nix => true
  | _ => false

/-! ## Removing -/

def UnitDir.without (dir : UnitDir) (files : List String) : UnitDir := dir.deleteWhere fun file _ => decide (file ∈ files)

theorem get?_without (files : List String) (f : String) : (UnitDir.without dir files).get? f = if f ∈ files then none else dir.get? f := by
  unfold UnitDir.without
  by_cases hf : f ∈ files
  · rw [if_pos hf, Table.get?_deleteWhere_of_pos fun _ => by simp [hf]]
  · rw [if_neg hf, Table.get?_deleteWhere_of_neg fun _ => by simp [hf]]

theorem without_nil : UnitDir.without dir [] = dir := Table.deleteWhere_false _ (by simp)

theorem without_cons (f : String) (files : List String) : UnitDir.without (dir.delete f) files = UnitDir.without dir (f :: files) := by
  unfold UnitDir.without Table.delete
  rw [Table.deleteWhere_deleteWhere]
  simp only [List.mem_cons, Bool.decide_or]

theorem without_of_not_mem {f : String} (h : dir.contains f = false) (files : List String) :
    UnitDir.without dir files = UnitDir.without dir (f :: files) := by
  rw [← without_cons]
  congr 1
  refine (Table.ext_rows (Table.delete_of_get?_none ?_)).symm
  rw [Table.contains_eq_isSome] at h
  simpa using h

theorem removeUnit_present {f : String} (h : dir.contains f = true) : env.removeUnit c f dir =
    if env.fails (c f) then .error (.call (c f)) dir else .ok () (dir.delete f) := by
  unfold ServicesEnv.removeUnit ServicesEnv.call
  rw [bind_get, if_pos h]
  cases env.fails (c f) with
  | true => rfl
  | false => rfl

theorem removeUnit_absent {f : String} (h : dir.contains f = false) : env.removeUnit c f dir = .ok () dir := by
  unfold ServicesEnv.removeUnit
  rw [bind_get, if_neg (by simp [h])]
  rfl

theorem forM_removeUnit_ok : ∀ {files : List String} {dir dir' : UnitDir}, files.forM (env.removeUnit c) dir = .ok () dir' →
    dir' = UnitDir.without dir files
  | [], dir, _, h => by cases h; exact without_nil.symm
  | f :: files, dir, dir', h => by
    obtain ⟨_, dir₁, hf, h⟩ := bind_ok.mp h
    have hrest := forM_removeUnit_ok h
    cases hd : dir.contains f with
    | true =>
      rw [removeUnit_present hd] at hf
      split at hf
      · cases hf
      · cases hf
        rw [hrest, without_cons]
    | false =>
      rw [removeUnit_absent hd] at hf
      cases hf
      rw [hrest, ← without_of_not_mem hd]

/-- Where a file that is gone is not tried again, the loop stops at the first failing call. -/
theorem forM_removeUnit : ∀ (files : List String) {dir : UnitDir}, (∀ f ∈ files, dir.contains f = true ∨ env.fails (c f) = false) →
    (∃ f ∈ files, env.fails (c f) = true) ∧ (∃ f, files.forM (env.removeUnit c) dir =
        .error (.call (c f)) (UnitDir.without dir (files.takeWhile fun file => !env.fails (c file)))) ∨
      (∀ f ∈ files, env.fails (c f) = false) ∧ files.forM (env.removeUnit c) dir = .ok () (UnitDir.without dir files)
  | [], dir, _ => .inr ⟨nofun, by rw [without_nil]; rfl⟩
  | f :: files, dir, h => by
    cases hfails : env.fails (c f) with
    | true =>
      have hd := (h f (by simp)).resolve_right (by simp [hfails])
      refine .inl ⟨⟨f, by simp, hfails⟩, f, ?_⟩
      rw [List.takeWhile_cons_of_neg (by simp [hfails]), without_nil]
      refine bind_of_error ?_
      rw [removeUnit_present hd, if_pos hfails]
    | false =>
      rw [List.takeWhile_cons_of_pos (by simp [hfails])]
      obtain ⟨dir₁, hf, hrest⟩ : ∃ dir₁, env.removeUnit c f dir = .ok () dir₁ ∧
          ∀ files, UnitDir.without dir₁ files = UnitDir.without dir (f :: files) := by
        cases hd : dir.contains f with
        | true => exact ⟨dir.delete f, by rw [removeUnit_present hd, hfails]; rfl, without_cons f⟩
        | false => exact ⟨dir, removeUnit_absent hd, without_of_not_mem hd⟩
      have hdir₁ : ∀ g ∈ files, dir₁.contains g = true ∨ env.fails (c g) = false := by
        intro g hg
        rcases h g (by simp [hg]) with hd | hd
        · by_cases hgf : g = f
          · exact .inr (hgf ▸ hfails)
          · refine .inl ?_
            have hget := (congrArg (Table.get? · g) (hrest [])).trans (get?_without [f] g)
            rw [without_nil, if_neg (by simpa using hgf)] at hget
            rw [Table.contains_eq_isSome] at hd ⊢
            rwa [hget]
        · exact .inr hd
      rcases forM_removeUnit files hdir₁ with ⟨⟨g, hg, hgfails⟩, e, hrun⟩ | ⟨hall, hrun⟩
      · refine .inl ⟨⟨g, by simp [hg], hgfails⟩, e, ?_⟩
        rw [← hrest]
        exact (bind_of_ok hf).trans hrun
      · refine .inr ⟨fun g hg => ?_, ?_⟩
        · rcases List.mem_cons.mp hg with rfl | hg
          · exact hfails
          · exact hall g hg
        · rw [← hrest]
          exact (bind_of_ok hf).trans hrun

theorem forM_removeUnit_frame {f : String} : ∀ {files : List String} {dir : UnitDir}, f ∉ files →
    (finalState (files.forM (env.removeUnit c) dir)).get? f = dir.get? f
  | [], _, _ => rfl
  | g :: files, dir, hf => by
    have hrest {dir : UnitDir} : (finalState (files.forM (env.removeUnit c) dir)).get? f = dir.get? f :=
      forM_removeUnit_frame fun hmem => hf (by simp [hmem])
    cases hd : dir.contains g with
    | false =>
      have hrun : (g :: files).forM (env.removeUnit c) dir = files.forM (env.removeUnit c) dir := bind_of_ok (removeUnit_absent hd)
      rw [hrun, hrest]
    | true =>
      have hg : env.removeUnit c g dir = _ := removeUnit_present hd
      split at hg
      · have hrun : (g :: files).forM (env.removeUnit c) dir = .error (.call (c g)) dir := bind_of_error hg
        rw [hrun]; rfl
      · have hrun : (g :: files).forM (env.removeUnit c) dir = files.forM (env.removeUnit c) (dir.delete g) := bind_of_ok hg
        rw [hrun, hrest, Table.get?_delete, if_neg fun heq => hf (by simp [heq])]

theorem forM_removeUnit_error : ∀ {files : List String} {dir dir' : UnitDir} {e : ServicesError},
    files.forM (env.removeUnit c) dir = .error e dir' → ∃ f, e = .call (c f)
  | [], _, _, _, h => by cases h
  | f :: files, dir, dir', e, h => by
    cases hd : dir.contains f with
    | false => exact forM_removeUnit_error ((bind_of_ok (removeUnit_absent hd)).symm.trans h)
    | true =>
      have hf : env.removeUnit c f dir = _ := removeUnit_present hd
      split at hf
      · have herror := (bind_of_error hf).symm.trans h
        injection herror with he
        exact ⟨f, he.symm⟩
      · exact forM_removeUnit_error ((bind_of_ok hf).symm.trans h)

/-- The managed files of enabled services that the build has not produced. -/
def staleFiles (names : List String) (built : Table String Bytes) (existing : List String) : List String :=
  existing.filter fun file => names.any (ownsBase · (stripUnitSuffix file)) && !built.contains file

theorem forM_removeStale (env : ServicesEnv) (names : List String) (built : Table String Bytes) (existing : List String) :
    existing.forM (env.removeStale names built) = (staleFiles names built existing).forM (env.removeUnit .removeStale) := by
  unfold staleFiles ServicesEnv.removeStale
  rw [forM_filter]

/-! ## Installing -/

theorem managedContents_marked {f : String} (h : isManagedUnitFile f = true) (owner text : String) :
    managedContents f (asBytes (markedContents owner text)) = some (markedContents owner text) := by
  have hmarker : startsWith MANAGED_MARKER (markedContents owner text) = true := by
    unfold startsWith markedContents
    simp only [String.toList_append, List.append_assoc]
    exact List.isPrefixOf_iff_prefix.mpr (List.prefix_append ..)
  unfold managedContents
  rw [if_pos h, fromUtf8_asBytes, Option.filter_some, if_pos hmarker]

theorem call_cases (env : ServicesEnv) (c : UnitCall) : env.fails c = true ∧ env.call c = .error (.call c) ∨ env.fails c = false ∧ env.call c = .ok () := by
  unfold ServicesEnv.call
  cases env.fails c with
  | true => exact .inl ⟨rfl, rfl⟩
  | false => exact .inr ⟨rfl, rfl⟩

theorem ofExcept_ok (a : α) : (MonadExcept.ofExcept (.ok a : Except ServicesError α) : ServicesM α) dir = .ok a dir := rfl

theorem ofExcept_error (e : ServicesError) : (MonadExcept.ofExcept (.error e : Except ServicesError α) : ServicesM α) dir = .error e dir := rfl

theorem installUnit_cases (env : ServicesEnv) (names : List String) (dir : UnitDir) {file : String × Bytes} (h : isManagedUnitFile file.1 = true) :
    (env.installs file = true ∧ ∃ text, env.installUnit names file dir = .ok () (dir.insertOrReplace file.1
        (asBytes (markedContents (ServicesEnv.owningService names (stripUnitSuffix file.1)) text)))) ∨
      env.installs file = false ∧ ∃ e : ServicesError, e.beforeInstall = false ∧ env.installUnit names file dir = .error e dir := by
  unfold ServicesEnv.installUnit ServicesEnv.installs
  rw [if_pos h]
  rcases call_cases env (.readBuilt file.1) with ⟨hread, hcall⟩ | ⟨hread, hcall⟩
  · exact .inr ⟨by simp [hread], _, rfl, by rw [hcall]; rfl⟩
  rw [hcall]
  cases htext : fromUtf8 file.2 with
  | none => exact .inr ⟨by simp, _, rfl, rfl⟩
  | some text =>
    rcases call_cases env (.install file.1) with ⟨hwrite, hcall⟩ | ⟨hwrite, hcall⟩
    · exact .inr ⟨by simp [hwrite], _, rfl, by rw [hcall]; rfl⟩
    · exact .inl ⟨by simp [hread, hwrite], text, by rw [hcall]; rfl⟩

/-- The unit was written under this name, and its first line names the owner. -/
def Installed (names : List String) (dir : UnitDir) (f : String) : Prop :=
  ∃ text, dir.get? f = some (asBytes (markedContents (ServicesEnv.owningService names (stripUnitSuffix f)) text))

theorem forM_installUnit (env : ServicesEnv) (names : List String) : ∀ {files : List (String × Bytes)} (dir : UnitDir),
    (∀ file ∈ files, isManagedUnitFile file.1 = true) → ∃ dir' : UnitDir,
      (∀ file ∈ files.takeWhile env.installs, Installed names dir' file.1) ∧
      (∀ f, f ∉ (files.takeWhile env.installs).map Prod.fst → dir'.get? f = dir.get? f) ∧
      ((∀ file ∈ files, env.installs file = true) ∧ files.forM (env.installUnit names) dir = .ok () dir' ∨
        ∃ e : ServicesError, e.beforeInstall = false ∧ files.forM (env.installUnit names) dir = .error e dir')
  | [], dir, _ => ⟨dir, nofun, fun _ _ => rfl, .inl ⟨nofun, rfl⟩⟩
  | file :: files, dir, h => by
    rcases installUnit_cases env names dir (h file (by simp)) with ⟨hinstalls, text, hfile⟩ | ⟨hinstalls, e, he, hfile⟩
    · obtain ⟨dir', hinstalled, hframe, hresult⟩ := forM_installUnit env names (dir.insertOrReplace file.1
        (asBytes (markedContents (ServicesEnv.owningService names (stripUnitSuffix file.1)) text)))
        fun file' (hmem : file' ∈ files) => h file' (List.mem_cons_of_mem _ hmem)
      rw [List.takeWhile_cons_of_pos hinstalls]
      refine ⟨dir', fun file' hmem => ?_, fun f hf => ?_, ?_⟩
      · by_cases hlater : file'.1 ∈ (files.takeWhile env.installs).map Prod.fst
        · obtain ⟨later, hmem, hname⟩ := List.mem_map.mp hlater
          exact hname ▸ hinstalled later hmem
        · rcases List.mem_cons.mp hmem with rfl | hmem
          · exact ⟨text, by rw [hframe _ hlater, Table.get?_insertOrReplace, if_pos rfl]⟩
          · exact absurd (List.mem_map_of_mem hmem) hlater
      · rw [List.map_cons, List.mem_cons, not_or] at hf
        rw [hframe f hf.2, Table.get?_insertOrReplace, if_neg hf.1]
      · rcases hresult with ⟨hall, hrun⟩ | ⟨e, he, hrun⟩
        · exact .inl ⟨List.forall_mem_cons.mpr ⟨hinstalls, hall⟩, (bind_of_ok hfile).trans hrun⟩
        · exact .inr ⟨e, he, (bind_of_ok hfile).trans hrun⟩
    · refine ⟨dir, ?_, fun _ _ => rfl, .inr ⟨e, he, bind_of_error hfile⟩⟩
      rw [List.takeWhile_cons_of_neg (by simp [hinstalls])]
      exact nofun

/-! ## Building -/

theorem isManagedUnitFile_service (name : String) : isManagedUnitFile (name ++ ".service") = true := by
  unfold isManagedUnitFile MANAGED_UNIT_SUFFIXES endsWith
  rw [List.any_cons, Bool.or_eq_true]
  refine .inl (List.isSuffixOf_iff_suffix.mpr ?_)
  rw [String.toList_append]
  exact List.suffix_append ..

/-- Every file in the directory of the build has a managed name. -/
def AllManaged (built : Table String Bytes) : Prop := ∀ f ∈ built.rows.map Prod.fst, isManagedUnitFile f = true

theorem AllManaged.insert {built : Table String Bytes} (h : AllManaged built) {f : String} (hf : isManagedUnitFile f = true) (bytes : Bytes) :
    AllManaged (built.insertOrReplace f bytes) := by
  intro g hg
  obtain ⟨bytes', hget⟩ := Table.mem_keys_iff.mp hg
  rw [Table.get?_insertOrReplace] at hget
  split at hget
  next heq => exact heq ▸ hf
  · exact h g (Table.mem_keys_iff.mpr ⟨bytes', hget⟩)

/-- What the result of a build step satisfies. -/
def BuildResult : Except ServicesError (Table String Bytes) → Prop
  | .ok built => AllManaged built
  | .error e => e.beforeInstall = true

theorem BuildResult.foldlM {α : Type} {step : Table String Bytes → α → Except ServicesError (Table String Bytes)}
    (hstep : ∀ built a, AllManaged built → BuildResult (step built a)) : ∀ (l : List α) (built : Table String Bytes), AllManaged built →
      BuildResult (l.foldlM step built)
  | [], _, h => h
  | a :: l, built, h => by
    have hfirst := hstep built a h
    rw [List.foldlM_cons]
    cases hrun : step built a with
    | error e => rw [hrun] at hfirst; exact hfirst
    | ok built' => rw [hrun] at hfirst; exact foldlM hstep l _ hfirst

theorem writeDirect_result (env : ServicesEnv) (flake : String) (built : Table String Bytes) (entry : HomeServiceEntry) (h : AllManaged built) :
    BuildResult (env.writeDirect flake built entry) := by
  unfold ServicesEnv.writeDirect ServicesEnv.generateDirectUnitFile
  cases env.getStr entry "command" with
  | none => rfl
  | some command =>
    rcases call_cases env (.writeBuilt (entry.name ++ ".service")) with ⟨-, hcall⟩ | ⟨-, hcall⟩
    · rw [hcall]; rfl
    · rw [hcall]; exact h.insert (isManagedUnitFile_service _) _

theorem copyBuilt_result (env : ServicesEnv) (built : Table String Bytes) (file : String × Bytes) (h : AllManaged built) :
    BuildResult (env.copyBuilt built file) := by
  unfold ServicesEnv.copyBuilt
  split
  next hmanaged =>
    rcases call_cases env (.copyBuilt file.1) with ⟨-, hcall⟩ | ⟨-, hcall⟩
    · rw [hcall]; rfl
    · rw [hcall]; exact h.insert hmanaged _
  · exact h

theorem buildUnits_result (env : ServicesEnv) (manifest : HomeServices) : BuildResult (env.buildUnits manifest) := by
  unfold ServicesEnv.buildUnits
  rcases call_cases env .tempDir with ⟨-, hcall⟩ | ⟨-, hcall⟩
  · rw [hcall]; rfl
  rw [hcall]
  have hdirect := BuildResult.foldlM (writeDirect_result env manifest.flake)
    (manifest.enabled.filter fun entry => (env.getStr entry "command").isSome) .empty nofun
  show BuildResult ((_ : Except ServicesError (Table String Bytes)) >>= _)
  cases hrun : (manifest.enabled.filter fun entry => (env.getStr entry "command").isSome).foldlM (env.writeDirect manifest.flake) .empty with
  | error e => rw [hrun] at hdirect; exact hdirect
  | ok built =>
    rw [hrun] at hdirect
    show BuildResult (if _ then _ else _)
    split
    · exact hdirect
    · cases env.nixBuild manifest with
      | none => rfl
      | some files => exact BuildResult.foldlM (copyBuilt_result env) _ _ hdirect

/-! ## Phases -/

theorem removePhase_eq (env : ServicesEnv) (manifest : HomeServices) (dir : UnitDir) :
    (env.toRemove manifest dir).forM (env.removeService (installedManagedUnitFiles dir)) =
      (env.removals manifest dir).forM (env.removeUnit .remove) := by
  unfold ServicesEnv.removals ServicesEnv.removeService
  rw [forM_flatMap]
  simp only [forM_filter]

theorem removePhase_run (env : ServicesEnv) (manifest : HomeServices) (dir : UnitDir) :
    (∃ f ∈ env.removals manifest dir, env.fails (.remove f) = true) ∧
        (∃ f, (env.toRemove manifest dir).forM (env.removeService (installedManagedUnitFiles dir)) dir =
          .error (.call (.remove f)) (UnitDir.without dir (env.removed manifest dir))) ∨
      (∀ f ∈ env.removals manifest dir, env.fails (.remove f) = false) ∧ env.removed manifest dir = env.removals manifest dir ∧
        (env.toRemove manifest dir).forM (env.removeService (installedManagedUnitFiles dir)) dir =
          .ok () (UnitDir.without dir (env.removed manifest dir)) := by
  rw [removePhase_eq]
  have hpresent : ∀ f ∈ env.removals manifest dir, dir.contains f = true ∨ env.fails (.remove f) = false := by
    intro f hf
    obtain ⟨bytes, contents, hget, -⟩ := mem_installedManagedUnitFiles.mp (mem_removals.mp hf).1
    exact .inl (by rw [Table.contains_eq_isSome, hget]; rfl)
  rcases forM_removeUnit (env.removals manifest dir) hpresent with hfails | ⟨hall, hrun⟩
  · exact .inl hfails
  · have hremoved : env.removed manifest dir = env.removals manifest dir :=
      List.takeWhile_eq_self_iff.mpr fun f hf => by rw [hall f hf]; rfl
    exact .inr ⟨hall, hremoved, by rw [hremoved, hrun]⟩

theorem managed_of_removed {f : String} (h : f ∈ env.removed manifest dir) : f ∈ installedManagedUnitFiles dir :=
  (mem_removals.mp ((List.takeWhile_prefix _).subset h)).1

theorem startServices_state (env : ServicesEnv) (dir : UnitDir) (enabled : List HomeServiceEntry) : env.startServices enabled dir = .ok () dir ∨
    ∃ n, env.startServices enabled dir = .error (.failedToStart n) dir := by
  unfold ServicesEnv.startServices
  split
  · exact .inl rfl
  · exact .inr ⟨_, rfl⟩

/-- Phases 3 and 4 write what can be installed, and touch nothing else that is not managed;
their errors are not those of an earlier phase. -/
theorem installServices_run (env : ServicesEnv) (manifest : HomeServices) (existing : List String) {built : Table String Bytes}
    (hbuilt : AllManaged built) (dir : UnitDir) : ∃ result, env.installServices existing manifest built dir = result ∧
    (∀ e dir', result = .error e dir' → e.beforeInstall = false) ∧
    ∀ f ∉ existing,
      (env.fails .readBuiltDir = false → f ∈ (built.rows.takeWhile env.installs).map Prod.fst →
        Installed (env.hashOrder manifest.desired) (finalState result) f) ∧
      (env.fails .readBuiltDir = true ∨ f ∉ (built.rows.takeWhile env.installs).map Prod.fst →
        (finalState result).get? f = dir.get? f) := by
  unfold ServicesEnv.installServices
  rcases call_cases env .readBuiltDir with ⟨hread, hcall⟩ | ⟨hread, hcall⟩
  · rw [hcall, bind_of_error (ofExcept_error _)]
    refine ⟨_, rfl, fun e dir' h => by cases h; rfl, fun f _ => ⟨fun hok => ?_, fun _ => rfl⟩⟩
    rw [hread] at hok
    cases hok
  rw [hcall, bind_of_ok (ofExcept_ok _)]
  obtain ⟨dir₂, hinstalled, hframe, hresult⟩ := forM_installUnit env (env.hashOrder manifest.desired) dir
    fun file hmem => hbuilt file.1 (List.mem_map_of_mem hmem)
  -- every later state agrees with `dir₂` outside the managed files
  have hsuffices : ∀ dir₃ : UnitDir, (∀ f ∉ existing, dir₃.get? f = dir₂.get? f) → ∀ f ∉ existing,
      (env.fails .readBuiltDir = false → f ∈ (built.rows.takeWhile env.installs).map Prod.fst →
        Installed (env.hashOrder manifest.desired) dir₃ f) ∧
      (env.fails .readBuiltDir = true ∨ f ∉ (built.rows.takeWhile env.installs).map Prod.fst → dir₃.get? f = dir.get? f) := by
    intro dir₃ hagree f hf
    refine ⟨fun _ hmem => ?_, fun h => ?_⟩
    · obtain ⟨file, hfile, rfl⟩ := List.mem_map.mp hmem
      obtain ⟨text, htext⟩ := hinstalled file hfile
      exact ⟨text, (hagree _ hf).trans htext⟩
    · rw [hread] at h
      rw [hagree f hf, hframe f (h.resolve_left nofun)]
  rcases hresult with ⟨-, hrun⟩ | ⟨e, he, hrun⟩
  · rw [bind_of_ok hrun, forM_removeStale]
    have hstale : ∀ f ∉ existing, (finalState ((staleFiles (env.hashOrder manifest.desired) built existing).forM
        (env.removeUnit .removeStale) dir₂)).get? f = dir₂.get? f :=
      fun f hf => forM_removeUnit_frame fun hmem => hf (List.mem_filter.mp hmem).1
    cases hremove : (staleFiles (env.hashOrder manifest.desired) built existing).forM (env.removeUnit .removeStale) dir₂ with
    | error e dir₃ =>
      obtain ⟨f, rfl⟩ := forM_removeUnit_error hremove
      rw [hremove] at hstale
      rw [bind_of_error hremove]
      exact ⟨_, rfl, fun e dir' h => by cases h; rfl, hsuffices dir₃ hstale⟩
    | ok _ dir₃ =>
      rw [hremove] at hstale
      rw [bind_of_ok hremove]
      rcases startServices_state env dir₃ manifest.enabled with hstart | ⟨n, hstart⟩
      · rw [hstart]
        exact ⟨_, rfl, nofun, hsuffices dir₃ hstale⟩
      · rw [hstart]
        exact ⟨_, rfl, fun e dir' h => by cases h; rfl, hsuffices dir₃ hstale⟩
  · rw [bind_of_error hrun]
    exact ⟨_, rfl, fun e' dir' h => by cases h; exact he, hsuffices dir₂ fun _ _ => rfl⟩

/-! ## What is not its own -/

/-- The run comes to phase 1. -/
def Applies (env : ServicesEnv) (dryRun : Bool) (manifest : HomeServices) (dir : UnitDir) : Prop :=
  env.fails .loadManifest = false ∧ env.fails .unitDir = false ∧ dryRun = false ∧
    (manifest.enabled ≠ [] ∨ env.toRemove manifest dir ≠ [])

theorem apply_of_not_applies {dryRun : Bool} (h : ¬ Applies env dryRun manifest dir) :
    finalState (env.cmdServicesApplyQuiet dryRun manifest dir) = dir := by
  unfold ServicesEnv.cmdServicesApplyQuiet
  rcases call_cases env .loadManifest with ⟨-, hcall⟩ | ⟨hload, hcall⟩
  · rw [hcall, bind_of_error (ofExcept_error _)]; rfl
  rw [hcall, bind_of_ok (ofExcept_ok _)]
  rcases call_cases env .unitDir with ⟨-, hcall⟩ | ⟨hunitDir, hcall⟩
  · rw [hcall, bind_of_error (ofExcept_error _)]; rfl
  rw [hcall, bind_of_ok (ofExcept_ok _), bind_get]
  split
  · rfl
  next hsome =>
    split
    · rfl
    next hdry =>
      refine absurd ⟨hload, hunitDir, by simpa using hdry, ?_⟩ h
      rw [Bool.and_eq_true, List.isEmpty_iff, List.isEmpty_iff] at hsome
      exact not_and_or.mp hsome

theorem apply_of_applies {dryRun : Bool} (h : Applies env dryRun manifest dir) :
    env.cmdServicesApplyQuiet dryRun manifest dir = env.applyServices manifest dir dir := by
  obtain ⟨hload, hunitDir, rfl, hsome⟩ := h
  unfold ServicesEnv.cmdServicesApplyQuiet ServicesEnv.call
  rw [hload, hunitDir]
  have hnot : ¬ (manifest.enabled.isEmpty && (env.toRemove manifest dir).isEmpty) = true := by
    rw [Bool.and_eq_true, List.isEmpty_iff, List.isEmpty_iff]
    exact not_and_or.mpr hsome
  refine (bind_of_ok (ofExcept_ok ())).trans ((bind_of_ok (ofExcept_ok ())).trans (bind_get.trans ?_))
  rw [if_neg hnot]; rfl

/-- A unit file without the marker stays as it is, and when nothing has been
installed every unit file of an enabled service does. -/
def OthersKept (env : ServicesEnv) (dryRun : Bool) (manifest : HomeServices) (dir : UnitDir) : Prop :=
  (∀ f bytes, dir.get? f = some bytes → managedContents f bytes = none →
    (finalState (env.cmdServicesApplyQuiet dryRun manifest dir)).get? f = some bytes) ∧
  ∀ e dir', env.cmdServicesApplyQuiet dryRun manifest dir = .error e dir' → e.beforeInstall = true →
    ∀ f bytes contents, dir.get? f = some bytes → managedContents f bytes = some contents →
      unitOwner f contents ∈ manifest.desired → dir'.get? f = some bytes

/-- The files that are written, when it comes to that, are new or have the marker;
and when it does not, no file that was removed belongs to an enabled service. -/
structure KeepsToItsOwn (env : ServicesEnv) (dryRun : Bool) (manifest : HomeServices) (dir : UnitDir) : Prop where
  written : Applies env dryRun manifest dir → (∀ f ∈ env.removals manifest dir, env.fails (.remove f) = false) →
    manifest.enabled ≠ [] → ∀ built, env.buildUnits manifest = .ok built → env.fails .readBuiltDir = false →
    ∀ file ∈ built.rows.takeWhile env.installs, ∀ bytes, dir.get? file.1 = some bytes → managedContents file.1 bytes ≠ none
  removed : Applies env dryRun manifest dir → (∃ f ∈ env.removals manifest dir, env.fails (.remove f) = true) ∨
    manifest.enabled ≠ [] ∧ (∃ e, env.buildUnits manifest = .error e) →
    ∀ f ∈ env.removed manifest dir, ∀ bytes contents, dir.get? f = some bytes → managedContents f bytes = some contents →
      unitOwner f contents ∉ manifest.desired

/-- What phase 1 leaves of the files that are not managed, and of those that are. -/
theorem removed_kept_iff : (∀ f bytes contents, dir.get? f = some bytes → managedContents f bytes = some contents →
      unitOwner f contents ∈ manifest.desired → (UnitDir.without dir (env.removed manifest dir)).get? f = some bytes) ↔
    ∀ f ∈ env.removed manifest dir, ∀ bytes contents, dir.get? f = some bytes → managedContents f bytes = some contents →
      unitOwner f contents ∉ manifest.desired := by
  constructor
  · intro h f hf bytes contents hget hmanaged hdesired
    have hkept := h f bytes contents hget hmanaged hdesired
    rw [get?_without, if_pos hf] at hkept
    cases hkept
  · intro h f bytes contents hget hmanaged hdesired
    rw [get?_without, if_neg fun hf => h f hf bytes contents hget hmanaged hdesired, hget]

theorem get?_removed_unmanaged (env : ServicesEnv) (manifest : HomeServices) {f : String} {bytes : Bytes} (hget : dir.get? f = some bytes) (hnone : managedContents f bytes = none) :
    f ∉ installedManagedUnitFiles dir ∧ (UnitDir.without dir (env.removed manifest dir)).get? f = some bytes := by
  have hnot : f ∉ installedManagedUnitFiles dir := by
    intro hmem
    obtain ⟨bytes', contents, hget', hsome⟩ := mem_installedManagedUnitFiles.mp hmem
    rw [hget] at hget'
    cases hget'
    rw [hnone] at hsome
    cases hsome
  exact ⟨hnot, by rw [get?_without, if_neg fun hf => hnot (managed_of_removed hf), hget]⟩

theorem Installed.managed {names : List String} {f : String} (h : Installed names dir f) (hf : isManagedUnitFile f = true) {bytes : Bytes}
    (hget : dir.get? f = some bytes) : managedContents f bytes ≠ none := by
  obtain ⟨text, htext⟩ := h
  rw [htext] at hget
  cases hget
  rw [managedContents_marked hf]
  exact nofun

/-- A name that is read back from the marker line as it is written. -/
structure Legible (name : String) : Prop where
  trimmed : trim name = name
  oneLine : '\n' ∉ name.toList

theorem dropWhile_of_trim {s : String} (h : trim s = s) :
    s.toList.dropWhile isWhitespace = s.toList ∧ s.toList.reverse.dropWhile isWhitespace = s.toList.reverse := by
  have hlist : (((s.toList.dropWhile isWhitespace).reverse.dropWhile isWhitespace).reverse).length = s.toList.length := by
    have := congrArg (fun t : String => t.toList.length) h
    simpa only [trim, String.toList_ofList] using this
  rw [List.length_reverse] at hlist
  have hfirst := List.IsSuffix.length_le (List.dropWhile_suffix (l := s.toList) isWhitespace)
  have hsecond := (List.dropWhile_suffix (p := isWhitespace) (l := (s.toList.dropWhile isWhitespace).reverse)).length_le
  rw [List.length_reverse] at hsecond
  have hstart : s.toList.dropWhile isWhitespace = s.toList := (List.dropWhile_suffix _).eq_of_length (by omega)
  rw [hstart] at hlist
  exact ⟨hstart, (List.dropWhile_suffix _).eq_of_length (by rw [hlist, List.length_reverse])⟩

theorem dropWhile_append_of_last (s : List Char) {c : Char} (hc : isWhitespace c = false) {o : List Char}
    (ho : o.reverse.dropWhile isWhitespace = o.reverse) : ((s ++ [c] ++ o).reverse.dropWhile isWhitespace) = (s ++ [c] ++ o).reverse := by
  rw [List.reverse_append]
  cases hrev : o.reverse with
  | nil => simp [hc]
  | cons x l =>
    have hx : isWhitespace x = false := by
      by_contra hx
      rw [hrev, List.dropWhile_cons_of_pos (by simpa using hx)] at ho
      have := congrArg List.length ho
      have hle := (List.dropWhile_suffix (p := isWhitespace) (l := l)).length_le
      simp only [List.length_cons] at this
      omega
    simp [hx]

theorem trim_marker {owner : String} (h : trim owner = owner) : trim (" service=" ++ owner) = "service=" ++ owner := by
  have hlast := dropWhile_append_of_last "service".toList (c := '=') (by decide) (dropWhile_of_trim h).2
  have hstart : (" service=" ++ owner).toList.dropWhile isWhitespace = ("service".toList ++ ['='] ++ owner.toList) := by
    rw [String.toList_append]
    show (' ' :: 's' :: ("ervice=".toList ++ owner.toList)).dropWhile isWhitespace = _
    rw [List.dropWhile_cons_of_pos (by decide), List.dropWhile_cons_of_neg (by decide)]
    rfl
  unfold trim
  rw [hstart, hlast, List.reverse_reverse]
  apply String.toList_injective
  rw [String.toList_ofList, String.toList_append]
  rfl

theorem unitOwner_marked (f text : String) {owner : String} (h : Legible owner) : unitOwner f (markedContents owner text) = owner := by
  have hline : OneLine (MANAGED_MARKER ++ " service=" ++ owner) := by
    have hlast := dropWhile_append_of_last "# ekapkgs-managed service".toList (c := '=') (by decide) (dropWhile_of_trim h.trimmed).2
    have hlist : (MANAGED_MARKER ++ " service=" ++ owner).toList = "# ekapkgs-managed service".toList ++ ['='] ++ owner.toList := by
      rw [String.toList_append]
      rfl
    constructor
    · rw [hlist, List.mem_append, not_or]
      exact ⟨by decide, h.oneLine⟩
    · intro hcr
      rw [hlist, List.getLast?_eq_head?_reverse] at hcr
      rw [← hlast] at hcr
      have hspace := List.head?_dropWhile_not isWhitespace ("# ekapkgs-managed service".toList ++ ['='] ++ owner.toList).reverse
      rw [hcr] at hspace
      exact absurd hspace (by decide)
  unfold unitOwner markedContents
  dsimp only
  rw [lines_append hline, List.head?_cons, Option.getD_some, String.append_assoc, stripPrefix_append, Option.bind_some,
    trim_marker h.trimmed, stripPrefix_append, Option.map_some, Option.getD_some, h.trimmed]
end Ekapkgs
