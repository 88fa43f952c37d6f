import Ekapkgs.NarInfo
import Ekapkgs.PackageLinks
import Ekapkgs.Lib.Grouped

/-!
# The software bill of materials

`commands/sbom.rs`: a component for every path of a closure, merged by package
name and version, and the CycloneDX document over the merged components.
-/

namespace Ekapkgs
open Grouped

/-! ## Components -/

structure SbomLicense where
  spdxId : Option String
  name : String
  deriving DecidableEq

structure SbomComponent where
  bomRef : String
  pname : String
  version : String
  description : String
  homepage : String
  licenses : List SbomLicense
  storePaths : List String
  narSize : UInt64
  role : String
  source : String
  cpe : Option String
  purl : Option String
  sourceProvenance : List String
  knownVulnerabilities : List String
  changelog : String
  mainProgram : String
  srcUrls : List String
  position : String
  deriving DecidableEq

/-- A path of the closure, as `nix path-info` lists it. -/
structure PathInfoEntry where
  path : String
  narSize : UInt64
  references : List String

/-- What a manifest embedded in the root path says of a path. -/
structure PackageManifestEntry where
  pname : String
  version : String
  license : List SbomLicense
  description : String
  homepage : String
  role : String
  source : String
  cpe : Option String
  purl : Option String
  sourceProvenance : List String
  knownVulnerabilities : List String
  changelog : String
  mainProgram : String

/-- What evaluating the package says of it. -/
structure EvalMeta where
  pname : String
  version : String
  description : String
  homepage : String
  changelog : String
  mainProgram : String
  license : List SbomLicense
  cpe : Option String
  purl : Option String
  position : String
  sourceProvenance : List String
  srcUrls : List String

def buildComponent (manifestIndex : String → Option PackageManifestEntry) (evalIndex : String → Option EvalMeta) (entry : PathInfoEntry) :
    SbomComponent :=
  let bomRef := hashPart entry.path
  match manifestIndex entry.path with
  | some manifestEntry =>
    { bomRef, pname := manifestEntry.pname, version := manifestEntry.version, description := manifestEntry.description,
      homepage := manifestEntry.homepage, licenses := manifestEntry.license, storePaths := [entry.path], narSize := entry.narSize,
      role := manifestEntry.role, source := manifestEntry.source, cpe := manifestEntry.cpe, purl := manifestEntry.purl,
      sourceProvenance := manifestEntry.sourceProvenance, knownVulnerabilities := manifestEntry.knownVulnerabilities,
      changelog := manifestEntry.changelog, mainProgram := manifestEntry.mainProgram, srcUrls := [], position := "" }
  | none =>
    match evalIndex entry.path with
    | some evalMeta =>
      { bomRef, pname := evalMeta.pname, version := evalMeta.version, description := evalMeta.description,
        homepage := evalMeta.homepage, licenses := evalMeta.license, storePaths := [entry.path], narSize := entry.narSize,
        role := "", source := "", cpe := evalMeta.cpe, purl := evalMeta.purl, sourceProvenance := evalMeta.sourceProvenance,
        knownVulnerabilities := [], changelog := evalMeta.changelog, mainProgram := evalMeta.mainProgram,
        srcUrls := evalMeta.srcUrls, position := evalMeta.position }
    | none =>
      -- only the name of the path is left
      { bomRef, pname := (parseStorePathName entry.path).1, version := (parseStorePathName entry.path).2, description := "",
        homepage := "", licenses := [], storePaths := [entry.path], narSize := entry.narSize, role := "", source := "",
        cpe := none, purl := none, sourceProvenance := [], knownVulnerabilities := [], changelog := "", mainProgram := "",
        srcUrls := [], position := "" }

/-! ## Coalescing -/

def SbomComponent.key (c : SbomComponent) : String × String := (c.pname, c.version)

def keepText (existing new : String) : String := if existing = "" ∧ new ≠ "" then new else existing

def keepList {α : Type} (existing new : List α) : List α := if existing.isEmpty && !new.isEmpty then new else existing

def keepSome (existing new : Option String) : Option String := if existing.isNone && new.isSome then new else existing

/-- The size and the paths add up; of the rest the first that is there is kept. -/
def SbomComponent.merge (existing c : SbomComponent) : SbomComponent :=
  { existing with
    narSize := existing.narSize + c.narSize
    storePaths := existing.storePaths ++ c.storePaths
    description := keepText existing.description c.description
    homepage := keepText existing.homepage c.homepage
    changelog := keepText existing.changelog c.changelog
    mainProgram := keepText existing.mainProgram c.mainProgram
    licenses := keepList existing.licenses c.licenses
    cpe := keepSome existing.cpe c.cpe
    purl := keepSome existing.purl c.purl
    role := keepText existing.role c.role
    source := keepText existing.source c.source
    sourceProvenance := keepList existing.sourceProvenance c.sourceProvenance
    srcUrls := keepList existing.srcUrls c.srcUrls
    position := keepText existing.position c.position
    knownVulnerabilities := existing.knownVulnerabilities ++ c.knownVulnerabilities }

def coalesceComponents (components : List SbomComponent) : List SbomComponent :=
  group SbomComponent.key SbomComponent.merge components

theorem key_merge (existing c : SbomComponent) : (existing.merge c).key = existing.key := rfl

theorem coalesced_of (components : List SbomComponent) :
    (components.foldl (Groups.add SbomComponent.key SbomComponent.merge) .empty).Of SbomComponent.key SbomComponent.merge components :=
  group_of key_merge components

/-- A coalesced component is the components of its key, in order. -/
theorem mem_coalesced {components : List SbomComponent} {c : SbomComponent} (h : c ∈ coalesceComponents components) :
    ∃ first rest, components.filter (fun b => b.key = c.key) = first :: rest ∧ c.bomRef = first.bomRef ∧
      c.storePaths = (first :: rest).flatMap SbomComponent.storePaths := by
  obtain ⟨first, rest, hfilter, hmerged⟩ := (coalesced_of components).merged c h
  refine ⟨first, rest, hfilter, ?_, ?_⟩
  · have hkeeps : ∀ a b : SbomComponent, (a.merge b).bomRef = a.bomRef := fun _ _ => rfl
    rw [hmerged]
    exact foldl_merge_keeps hkeeps rest first
  · have happends : ∀ a b : SbomComponent, (a.merge b).storePaths = a.storePaths ++ b.storePaths := fun _ _ => rfl
    rw [hmerged]
    exact foldl_merge_append happends rest first

theorem coalesced_key {components : List SbomComponent} {k : String × String} :
    k ∈ (coalesceComponents components).map SbomComponent.key ↔ k ∈ components.map SbomComponent.key := by
  constructor
  · intro h
    obtain ⟨c, hc, rfl⟩ := List.mem_map.mp h
    obtain ⟨first, rest, hfilter, -, -⟩ := mem_coalesced hc
    obtain ⟨hfirst, hkey⟩ := List.mem_filter.mp (hfilter ▸ List.mem_cons_self : first ∈ components.filter fun b => b.key = c.key)
    exact List.mem_map.mpr ⟨first, hfirst, of_decide_eq_true hkey⟩
  · intro h
    obtain ⟨b, hb, rfl⟩ := List.mem_map.mp h
    obtain ⟨c, hc, hkey⟩ := (coalesced_of components).covers b hb
    exact List.mem_map.mpr ⟨c, hc, hkey⟩

/-- The paths under a key, in order. -/
def pathsUnder (components : List SbomComponent) (k : String × String) : List String :=
  (components.filter fun c => c.key = k).flatMap SbomComponent.storePaths

theorem filter_key_of_nodup {k : String × String} {c : SbomComponent} : ∀ {l : List SbomComponent}, (l.map SbomComponent.key).Nodup →
    c ∈ l → c.key = k → l.filter (fun b => b.key = k) = [c]
  | [], _, h, _ => by cases h
  | b :: l, hnodup, h, hkey => by
    rw [List.map_cons, List.nodup_cons] at hnodup
    rcases List.mem_cons.mp h with rfl | h
    · have hrest : l.filter (fun b => b.key = k) = [] :=
        List.filter_eq_nil_iff.mpr fun b hb heq => hnodup.1 (List.mem_map.mpr ⟨b, hb, (of_decide_eq_true heq).trans hkey.symm⟩)
      rw [List.filter_cons_of_pos (by simpa using hkey), hrest]
    · have hb : ¬ b.key = k := fun heq => hnodup.1 (List.mem_map.mpr ⟨c, h, hkey.trans heq.symm⟩)
      rw [List.filter_cons_of_neg (by simpa using hb)]
      exact filter_key_of_nodup hnodup.2 h hkey

theorem pathsUnder_coalesced (components : List SbomComponent) (k : String × String) :
    pathsUnder (coalesceComponents components) k = pathsUnder components k := by
  by_cases hk : k ∈ components.map SbomComponent.key
  · obtain ⟨c, hc, hkey⟩ := List.mem_map.mp (coalesced_key.mpr hk)
    obtain ⟨first, rest, hfilter, -, hpaths⟩ := mem_coalesced hc
    have hown : (coalesceComponents components).filter (fun b => b.key = k) = [c] :=
      filter_key_of_nodup (coalesced_of components).nodup hc hkey
    unfold pathsUnder
    rw [hown, ← hkey, hfilter, ← hpaths]
    simp
  · have hnone : ∀ l : List SbomComponent, k ∉ l.map SbomComponent.key → pathsUnder l k = [] := by
      intro l hl
      unfold pathsUnder
      have hfilter : l.filter (fun c => c.key = k) = [] :=
        List.filter_eq_nil_iff.mpr fun c hc heq => hl (List.mem_map.mpr ⟨c, hc, of_decide_eq_true heq⟩)
      rw [hfilter]; rfl
    rw [hnone _ hk, hnone _ (mt coalesced_key.mp hk)]

/-- The sum as the program has it, modulo `2 ^ 64`. -/
def totalNarSize (components : List SbomComponent) : UInt64 := (components.map SbomComponent.narSize).sum

theorem totalNarSize_coalesced (components : List SbomComponent) : totalNarSize (coalesceComponents components) = totalNarSize components :=
  sum_group key_merge (fun _ _ => rfl) components

def narSizes (components : List SbomComponent) : Nat := (components.map fun c => c.narSize.toNat).sum

theorem toNat_totalNarSize (components : List SbomComponent) : (totalNarSize components).toNat = narSizes components % 2 ^ 64 := by
  unfold totalNarSize narSizes
  induction components with
  | nil => rfl
  | cons c components ih =>
    rw [List.map_cons, List.sum_cons, UInt64.toNat_add, ih, List.map_cons, List.sum_cons, Nat.add_mod_mod]

/-- Without an overflow the sizes are preserved as numbers. -/
theorem narSizes_coalesced {components : List SbomComponent} (h : narSizes components < 2 ^ 64) :
    narSizes (coalesceComponents components) = narSizes components := by
  have hsize : ∀ a b : SbomComponent, (a.merge b).narSize.toNat ≤ a.narSize.toNat + b.narSize.toNat := by
    intro a b
    show (a.narSize + b.narSize).toNat ≤ _
    rw [UInt64.toNat_add]
    exact Nat.mod_le ..
  have hle : narSizes (coalesceComponents components) ≤ narSizes components := sum_group_le hsize components
  have hmod := congrArg UInt64.toNat (totalNarSize_coalesced components)
  rwa [toNat_totalNarSize, toNat_totalNarSize, Nat.mod_eq_of_lt h, Nat.mod_eq_of_lt (hle.trans_lt h)] at hmod

theorem perm_of_sum_eq {l l' : List SbomComponent}
    (h : (l.map fun c => (c.storePaths : Multiset String)).sum = (l'.map fun c => (c.storePaths : Multiset String)).sum) :
    (l.flatMap SbomComponent.storePaths).Perm (l'.flatMap SbomComponent.storePaths) := by
  have hsum : ∀ l : List SbomComponent, (l.map fun c => (c.storePaths : Multiset String)).sum = (l.flatMap SbomComponent.storePaths : Multiset String) := by
    intro l
    induction l with
    | nil => rfl
    | cons c l ih => rw [List.map_cons, List.sum_cons, ih, List.flatMap_cons]; rfl
  rw [hsum, hsum] at h
  exact Multiset.coe_eq_coe.mp h

theorem coalescing_loses_nothing (components : List SbomComponent) :
    ((coalesceComponents components).map SbomComponent.key).Nodup ∧
      (∀ k, k ∈ (coalesceComponents components).map SbomComponent.key ↔ k ∈ components.map SbomComponent.key) ∧
      totalNarSize (coalesceComponents components) = totalNarSize components ∧
      (narSizes components < 2 ^ 64 → narSizes (coalesceComponents components) = narSizes components) ∧
      ((coalesceComponents components).flatMap SbomComponent.storePaths).Perm (components.flatMap SbomComponent.storePaths) ∧
      ∀ k, pathsUnder (coalesceComponents components) k = pathsUnder components k :=
  ⟨(coalesced_of components).nodup, fun _ => coalesced_key, totalNarSize_coalesced components,
    narSizes_coalesced, perm_of_sum_eq (sum_group key_merge (fun _ _ => rfl) components), pathsUnder_coalesced components⟩

end Ekapkgs
