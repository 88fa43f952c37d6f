import Ekapkgs.Sbom

/-!
# The dependency graph of a CycloneDX document

`write_cyclonedx` names the merged components by their first path and the edges
by the paths themselves. The two agree when every path that is linked to another
one names its component.
-/

namespace Ekapkgs
open Grouped

/-! ## The document -/

structure CdxLicense where
  id : Option String
  name : Option String

structure CdxExternalRef where
  refType : String
  url : String

structure CdxProperty where
  name : String
  value : String

structure CdxComponent where
  componentType : String
  bomRef : String
  name : String
  version : String
  description : Option String
  cpe : Option String
  purl : Option String
  licenses : List CdxLicense
  externalReferences : List CdxExternalRef
  properties : List CdxProperty

structure CdxDependency where
  depRef : String
  dependsOn : List String
  deriving DecidableEq

structure CycloneDxBom where
  /-- The component of the metadata. -/
  component : CdxComponent
  components : List CdxComponent
  dependencies : List CdxDependency

def OUTPUT_PATH : String := "nix:output_path"

/-- A property that is there when its text is. -/
def textProperty (name value : String) : List CdxProperty := if value = "" then [] else [⟨name, value⟩]

def referenceTo (refType url : String) : List CdxExternalRef := if url = "" then [] else [⟨refType, url⟩]

def componentToCdx (c : SbomComponent) : CdxComponent :=
  let isBinary := c.sourceProvenance.any fun s => containsStr "binary" s || containsStr "Binary" s
  let distType := if isBinary then "distribution" else "source-distribution"
  { componentType := if c.mainProgram = "" then "library" else "application"
    bomRef := c.bomRef
    name := c.pname
    version := c.version
    description := if c.description = "" then none else some c.description
    cpe := c.cpe
    purl := c.purl
    licenses := c.licenses.map fun l => ⟨l.spdxId, if l.spdxId.isSome then none else some l.name⟩
    externalReferences := referenceTo "website" c.homepage ++ referenceTo "release-notes" c.changelog ++
      c.srcUrls.map fun url => ⟨distType, url⟩
    properties := c.storePaths.map (fun p => ⟨OUTPUT_PATH, p⟩) ++
      (if c.narSize > 0 then [⟨"nix:nar_size", toString c.narSize⟩] else []) ++ textProperty "nix:role" c.role ++
      textProperty "nix:source" c.source ++
      (if c.sourceProvenance = [] then [] else [⟨"nix:sourceProvenance", join ',' c.sourceProvenance⟩]) ++
      textProperty "nix:mainProgram" c.mainProgram ++ textProperty "nix:position" c.position ++
      c.knownVulnerabilities.map fun cve => ⟨"nix:knownVulnerability", cve⟩ }

def dependencyOf (closureEntries : List PathInfoEntry) (entry : PathInfoEntry) : Option CdxDependency :=
  let others := entry.references.filter fun r => r ≠ entry.path
  let dependsOn := (others.filter fun r => r ∈ closureEntries.map PathInfoEntry.path).map hashPart
  if dependsOn.isEmpty then none else some ⟨hashPart entry.path, dependsOn⟩

def rootComponent (installable rootPath : String) (components : List SbomComponent) : CdxComponent :=
  match components.find? fun c => rootPath ∈ c.storePaths with
  | some rc => { componentToCdx rc with componentType := "application", bomRef := hashPart rootPath, name := installable }
  | none =>
    { componentType := "application", bomRef := hashPart rootPath, name := installable, version := "", description := none, cpe := none
      purl := none, licenses := [], externalReferences := [], properties := [⟨OUTPUT_PATH, rootPath⟩] }

def writeCyclonedx (installable rootPath : String) (components : List SbomComponent) (closureEntries : List PathInfoEntry) : CycloneDxBom where
  component := rootComponent installable rootPath components
  components := (components.filter fun c => rootPath ∉ c.storePaths).map componentToCdx
  dependencies := closureEntries.filterMap (dependencyOf closureEntries)

/-! ## Closures -/

/-- A closure and the path it was asked for. The hash part of a store path
identifies it. -/
structure SbomClosure where
  rootPath : String
  entries : List PathInfoEntry
  distinct : (entries.map PathInfoEntry.path).Nodup
  identified : ∀ p ∈ rootPath :: entries.map PathInfoEntry.path, ∀ q ∈ rootPath :: entries.map PathInfoEntry.path,
    hashPart p = hashPart q → p = q

variable (manifestIndex : String → Option PackageManifestEntry) (evalIndex : String → Option EvalMeta)

/-- The package name and version that a path goes by. -/
def componentKey (entry : PathInfoEntry) : String × String := (buildComponent manifestIndex evalIndex entry).key

def closureComponents (closure : SbomClosure) : List SbomComponent :=
  coalesceComponents (closure.entries.map (buildComponent manifestIndex evalIndex))

def closureBom (installable : String) (closure : SbomClosure) : CycloneDxBom :=
  writeCyclonedx installable closure.rootPath (closureComponents manifestIndex evalIndex closure) closure.entries

/-! ## Referential integrity -/

def CycloneDxBom.emitted (bom : CycloneDxBom) : List CdxComponent := bom.component :: bom.components

/-- The paths that a component of the document lists as its own. -/
def CdxComponent.outputPaths (c : CdxComponent) : List String :=
  (c.properties.filter fun p => p.name = OUTPUT_PATH).map CdxProperty.value

structure Referential (bom : CycloneDxBom) (closure : SbomClosure) : Prop where
  refs : ∀ d ∈ bom.dependencies, ∀ r ∈ d.depRef :: d.dependsOn, ∃ c ∈ bom.emitted, c.bomRef = r
  records : ∀ c ∈ bom.emitted, (bom.dependencies.filter fun d => d.depRef = c.bomRef).length ≤ 1
  edges : ∀ entry ∈ closure.entries, ∀ r ∈ entry.references, r ∈ closure.entries.map PathInfoEntry.path →
    ∀ c ∈ bom.emitted, entry.path ∈ c.outputPaths → ∀ c' ∈ bom.emitted, r ∈ c'.outputPaths → c ≠ c' →
      ∃ d ∈ bom.dependencies, d.depRef = c.bomRef ∧ c'.bomRef ∈ d.dependsOn

/-- Refers to another path of the closure, or is referred to by one. -/
def Linked (entries : List PathInfoEntry) (path : String) : Prop :=
  ∃ entry ∈ entries, ∃ r ∈ entry.references, r ≠ entry.path ∧ r ∈ entries.map PathInfoEntry.path ∧ (path = entry.path ∨ path = r)

/-- The root, or the first path of its name and version where these are not the
root's. -/
def NamesComponent (closure : SbomClosure) (entry : PathInfoEntry) : Prop :=
  entry.path = closure.rootPath ∨
    (closure.entries.find? fun e => componentKey manifestIndex evalIndex e = componentKey manifestIndex evalIndex entry).map PathInfoEntry.path =
        some entry.path ∧
      ∀ e ∈ closure.entries, e.path = closure.rootPath → componentKey manifestIndex evalIndex e ≠ componentKey manifestIndex evalIndex entry

/-! ## The components of a closure -/

variable {manifestIndex evalIndex} {closure : SbomClosure} {installable : String}

theorem buildComponent_bomRef (entry : PathInfoEntry) : (buildComponent manifestIndex evalIndex entry).bomRef = hashPart entry.path := by
  unfold buildComponent
  split
  · rfl
  · split <;> rfl

theorem buildComponent_storePaths (entry : PathInfoEntry) : (buildComponent manifestIndex evalIndex entry).storePaths = [entry.path] := by
  unfold buildComponent
  split
  · rfl
  · split <;> rfl

/-- A component has the paths of its key, and the reference of the first of them. -/
theorem mem_closureComponents {c : SbomComponent} (h : c ∈ closureComponents manifestIndex evalIndex closure) :
    (∃ first, closure.entries.find? (fun e => componentKey manifestIndex evalIndex e = c.key) = some first ∧ c.bomRef = hashPart first.path) ∧
      ∀ p, p ∈ c.storePaths ↔ ∃ e ∈ closure.entries, e.path = p ∧ componentKey manifestIndex evalIndex e = c.key := by
  obtain ⟨first, rest, hfilter, href, hpaths⟩ := mem_coalesced h
  rw [List.filter_map] at hfilter
  obtain ⟨entry, entries, hentries, hfirst, hrest⟩ := List.map_eq_cons_iff.mp hfilter
  have hfound : closure.entries.find? (fun e => componentKey manifestIndex evalIndex e = c.key) = some entry := by
    rw [← List.head?_filter]
    exact congrArg List.head? hentries
  refine ⟨⟨entry, hfound, ?_⟩, fun p => ?_⟩
  · rw [href, ← hfirst, buildComponent_bomRef]
  · have hpaths : c.storePaths = (entry :: entries).map PathInfoEntry.path := by
      rw [hpaths, ← hfirst, ← hrest, ← List.map_cons, List.flatMap_map]
      simp only [buildComponent_storePaths]
      exact List.map_eq_flatMap.symm
    rw [hpaths, ← hentries]
    constructor
    · intro hp
      obtain ⟨e, he, hep⟩ := List.mem_map.mp hp
      obtain ⟨hmem, hkey⟩ := List.mem_filter.mp he
      exact ⟨e, hmem, hep, of_decide_eq_true hkey⟩
    · rintro ⟨e, hmem, hep, hkey⟩
      exact List.mem_map.mpr ⟨e, List.mem_filter.mpr ⟨hmem, decide_eq_true hkey⟩, hep⟩

theorem filter_texts {l : List CdxProperty} (h : ∀ p ∈ l, p.name ≠ OUTPUT_PATH) : l.filter (fun p => p.name = OUTPUT_PATH) = [] :=
  List.filter_eq_nil_iff.mpr fun p hp heq => h p hp (of_decide_eq_true heq)

theorem filter_textProperty {name value : String} (h : name ≠ OUTPUT_PATH) :
    (textProperty name value).filter (fun p => p.name = OUTPUT_PATH) = [] := by
  refine filter_texts fun p hp => ?_
  unfold textProperty at hp
  split at hp
  · cases hp
  · rw [List.mem_singleton.mp hp]
    exact h

theorem outputPaths_componentToCdx (c : SbomComponent) : (componentToCdx c).outputPaths = c.storePaths := by
  have hsize : (if c.narSize > 0 then [(⟨"nix:nar_size", toString c.narSize⟩ : CdxProperty)] else []).filter (fun p => p.name = OUTPUT_PATH) = [] := by
    split <;> rfl
  have hprovenance : (if c.sourceProvenance = [] then [] else
      [(⟨"nix:sourceProvenance", join ',' c.sourceProvenance⟩ : CdxProperty)]).filter (fun p => p.name = OUTPUT_PATH) = [] := by
    split <;> rfl
  have hcves : (c.knownVulnerabilities.map fun cve => (⟨"nix:knownVulnerability", cve⟩ : CdxProperty)).filter (fun p => p.name = OUTPUT_PATH) = [] := by
    refine filter_texts fun p hp => ?_
    obtain ⟨cve, -, rfl⟩ := List.mem_map.mp hp
    show "nix:knownVulnerability" ≠ OUTPUT_PATH
    decide
  have hpaths : (c.storePaths.map fun p => (⟨OUTPUT_PATH, p⟩ : CdxProperty)).filter (fun p => p.name = OUTPUT_PATH) =
      c.storePaths.map fun p => ⟨OUTPUT_PATH, p⟩ := by
    refine List.filter_eq_self.mpr fun p hp => ?_
    obtain ⟨path, -, rfl⟩ := List.mem_map.mp hp
    rfl
  unfold CdxComponent.outputPaths componentToCdx
  simp only [List.filter_append, hsize, hprovenance, hcves, hpaths, filter_textProperty (show "nix:role" ≠ OUTPUT_PATH by decide),
    filter_textProperty (show "nix:source" ≠ OUTPUT_PATH by decide), filter_textProperty (show "nix:mainProgram" ≠ OUTPUT_PATH by decide),
    filter_textProperty (show "nix:position" ≠ OUTPUT_PATH by decide), List.append_nil, List.map_map]
  exact List.map_id _

theorem entry_of_path {e e' : PathInfoEntry} (he : e ∈ closure.entries) (he' : e' ∈ closure.entries) (h : e.path = e'.path) : e = e' :=
  List.inj_on_of_nodup_map closure.distinct he he' h

/-- Two components do not share a path. -/
theorem component_of_path {c c' : SbomComponent} (hc : c ∈ closureComponents manifestIndex evalIndex closure)
    (hc' : c' ∈ closureComponents manifestIndex evalIndex closure) {p : String} (hp : p ∈ c.storePaths) (hp' : p ∈ c'.storePaths) : c = c' := by
  obtain ⟨e, he, hep, hkey⟩ := ((mem_closureComponents hc).2 p).mp hp
  obtain ⟨e', he', hep', hkey'⟩ := ((mem_closureComponents hc').2 p).mp hp'
  have heq := entry_of_path he he' (hep.trans hep'.symm)
  subst heq
  exact List.inj_on_of_nodup_map (coalesced_of _).nodup hc hc' (hkey.symm.trans hkey')

/-! ## The emitted components -/

/-- The root component, with the paths it lists. -/
theorem rootComponent_cases (manifestIndex : String → Option PackageManifestEntry) (installable : String) : (closureBom manifestIndex evalIndex installable closure).component.bomRef = hashPart closure.rootPath ∧
    ((∃ rc ∈ closureComponents manifestIndex evalIndex closure, closure.rootPath ∈ rc.storePaths ∧
        (closureBom manifestIndex evalIndex installable closure).component.outputPaths = rc.storePaths) ∨
      (∀ c ∈ closureComponents manifestIndex evalIndex closure, closure.rootPath ∉ c.storePaths) ∧
        (closureBom manifestIndex evalIndex installable closure).component.outputPaths = [closure.rootPath]) := by
  unfold closureBom writeCyclonedx rootComponent
  dsimp only
  cases hfind : (closureComponents manifestIndex evalIndex closure).find? fun c => closure.rootPath ∈ c.storePaths with
  | some rc =>
    have hmem := List.mem_of_find?_eq_some hfind
    have hroot : closure.rootPath ∈ rc.storePaths := by simpa using List.find?_some hfind
    exact ⟨rfl, .inl ⟨rc, hmem, hroot, outputPaths_componentToCdx rc⟩⟩
  | none =>
    refine ⟨rfl, .inr ⟨fun c hc hroot => ?_, rfl⟩⟩
    have := List.find?_eq_none.mp hfind c hc
    exact this (by simpa using hroot)

theorem mem_components {c : CdxComponent} : c ∈ (closureBom manifestIndex evalIndex installable closure).components ↔
    ∃ s ∈ closureComponents manifestIndex evalIndex closure, closure.rootPath ∉ s.storePaths ∧ c = componentToCdx s := by
  show c ∈ ((closureComponents manifestIndex evalIndex closure).filter fun c => closure.rootPath ∉ c.storePaths).map componentToCdx ↔ _
  rw [List.mem_map]
  constructor
  · rintro ⟨s, hs, rfl⟩
    obtain ⟨hmem, hroot⟩ := List.mem_filter.mp hs
    exact ⟨s, hmem, of_decide_eq_true hroot, rfl⟩
  · rintro ⟨s, hmem, hroot, rfl⟩
    exact ⟨s, List.mem_filter.mpr ⟨hmem, decide_eq_true hroot⟩, rfl⟩

/-- A path is listed by one emitted component. -/
theorem emitted_of_path {c c' : CdxComponent} (hc : c ∈ (closureBom manifestIndex evalIndex installable closure).emitted)
    (hc' : c' ∈ (closureBom manifestIndex evalIndex installable closure).emitted) {p : String} (hp : p ∈ c.outputPaths) (hp' : p ∈ c'.outputPaths) :
    c = c' := by
  -- the root component against any of the others
  have hroot : ∀ s ∈ closureComponents manifestIndex evalIndex closure, closure.rootPath ∉ s.storePaths →
      p ∈ (closureBom manifestIndex evalIndex installable closure).component.outputPaths → p ∉ s.storePaths := by
    intro s hs hnot hin hps
    rcases (rootComponent_cases manifestIndex installable).2 with ⟨rc, hrc, hrootc, hpaths⟩ | ⟨-, hpaths⟩
    · rw [hpaths] at hin
      exact hnot (component_of_path hrc hs hin hps ▸ hrootc)
    · rw [hpaths, List.mem_singleton] at hin
      exact hnot (hin ▸ hps)
  rcases List.mem_cons.mp hc with rfl | hc
  · rcases List.mem_cons.mp hc' with rfl | hc'
    · rfl
    · obtain ⟨s, hs, hnot, rfl⟩ := mem_components.mp hc'
      rw [outputPaths_componentToCdx] at hp'
      exact absurd hp' (hroot s hs hnot hp)
  · obtain ⟨s, hs, hnot, rfl⟩ := mem_components.mp hc
    rw [outputPaths_componentToCdx] at hp
    rcases List.mem_cons.mp hc' with rfl | hc'
    · exact absurd hp (hroot s hs hnot hp')
    · obtain ⟨s', hs', -, rfl⟩ := mem_components.mp hc'
      rw [outputPaths_componentToCdx] at hp'
      rw [component_of_path hs hs' hp hp']

theorem root_mem_outputPaths (installable : String) :
    closure.rootPath ∈ (closureBom manifestIndex evalIndex installable closure).component.outputPaths := by
  rcases (rootComponent_cases manifestIndex installable).2 with ⟨rc, -, hroot, hpaths⟩ | ⟨-, hpaths⟩
  · rw [hpaths]; exact hroot
  · rw [hpaths]; exact List.mem_singleton_self _

/-- Every path of the closure is listed. -/
theorem emitted_covers (installable : String) {e : PathInfoEntry} (he : e ∈ closure.entries) :
    ∃ c ∈ (closureBom manifestIndex evalIndex installable closure).emitted, e.path ∈ c.outputPaths := by
  have hkey : componentKey manifestIndex evalIndex e ∈
      (closure.entries.map (buildComponent manifestIndex evalIndex)).map SbomComponent.key :=
    List.mem_map_of_mem (List.mem_map_of_mem he)
  obtain ⟨s, hs, hskey⟩ := List.mem_map.mp (coalesced_key.mpr hkey)
  have hpath : e.path ∈ s.storePaths := ((mem_closureComponents hs).2 _).mpr ⟨e, he, rfl, hskey.symm⟩
  by_cases hroot : closure.rootPath ∈ s.storePaths
  · refine ⟨_, List.mem_cons_self, ?_⟩
    rcases (rootComponent_cases manifestIndex installable).2 with ⟨rc, hrc, hrootc, hpaths⟩ | ⟨hnone, -⟩
    · rw [hpaths, component_of_path hrc hs hrootc hroot]
      exact hpath
    · exact absurd hroot (hnone s hs)
  · refine ⟨componentToCdx s, List.mem_cons_of_mem _ (mem_components.mpr ⟨s, hs, hroot, rfl⟩), ?_⟩
    rwa [outputPaths_componentToCdx]

theorem bomRef_of_names {e : PathInfoEntry} (he : e ∈ closure.entries) (hnames : NamesComponent manifestIndex evalIndex closure e) {c : CdxComponent}
    (hc : c ∈ (closureBom manifestIndex evalIndex installable closure).emitted) (hp : e.path ∈ c.outputPaths) : c.bomRef = hashPart e.path := by
  obtain ⟨hrootRef, hrootPaths⟩ := rootComponent_cases manifestIndex installable
  rcases hnames with hroot | ⟨hfirst, hother⟩
  · have hc' := emitted_of_path hc List.mem_cons_self hp (hroot ▸ root_mem_outputPaths installable)
    rw [hc', hroot]
    exact hrootRef
  · rcases List.mem_cons.mp hc with rfl | hc
    · rcases hrootPaths with ⟨rc, hrc, hrootc, hpaths⟩ | ⟨-, hpaths⟩
      · -- the root would go by the same name and version
        rw [hpaths] at hp
        obtain ⟨e', he', hep', hkey'⟩ := ((mem_closureComponents hrc).2 _).mp hrootc
        obtain ⟨e'', he'', hep'', hkey''⟩ := ((mem_closureComponents hrc).2 _).mp hp
        rw [entry_of_path he'' he hep''] at hkey''
        exact absurd (hkey'.trans hkey''.symm) (hother e' he' hep')
      · rw [hpaths, List.mem_singleton] at hp
        rw [hp]
        exact hrootRef
    · obtain ⟨s, hs, -, rfl⟩ := mem_components.mp hc
      rw [outputPaths_componentToCdx] at hp
      obtain ⟨⟨first, hfound, href⟩, hmem⟩ := mem_closureComponents hs
      obtain ⟨e', he', hep', hkey'⟩ := (hmem _).mp hp
      rw [entry_of_path he' he hep'] at hkey'
      rw [hkey', hfound, Option.map_some, Option.some.injEq] at hfirst
      rw [← hfirst]
      exact href

theorem names_of_bomRef {e : PathInfoEntry} (he : e ∈ closure.entries) {c : CdxComponent}
    (hc : c ∈ (closureBom manifestIndex evalIndex installable closure).emitted) (href : c.bomRef = hashPart e.path) :
    NamesComponent manifestIndex evalIndex closure e := by
  have hemem : e.path ∈ closure.rootPath :: closure.entries.map PathInfoEntry.path := List.mem_cons_of_mem _ (List.mem_map_of_mem he)
  rcases List.mem_cons.mp hc with rfl | hc
  · rw [(rootComponent_cases manifestIndex installable).1] at href
    exact .inl (closure.identified _ hemem _ List.mem_cons_self href.symm)
  · obtain ⟨s, hs, hnot, rfl⟩ := mem_components.mp hc
    obtain ⟨⟨first, hfound, hsref⟩, hmem⟩ := mem_closureComponents hs
    have hfirst : first ∈ closure.entries := List.mem_of_find?_eq_some hfound
    have hkey : componentKey manifestIndex evalIndex first = s.key := by simpa using List.find?_some hfound
    have hpath : e.path = first.path :=
      closure.identified _ hemem _ (List.mem_cons_of_mem _ (List.mem_map_of_mem hfirst)) (href.symm.trans hsref)
    rw [entry_of_path he hfirst hpath]
    refine .inr ⟨by rw [hkey, hfound]; rfl, fun e' he' hep' hkey' => ?_⟩
    exact hnot ((hmem _).mpr ⟨e', he', hep', hkey'.trans hkey⟩)

/-! ## The dependency records -/

theorem dependencyOf_eq_some {all : List PathInfoEntry} {entry : PathInfoEntry} {d : CdxDependency} (h : dependencyOf all entry = some d) :
    d.depRef = hashPart entry.path ∧ d.dependsOn ≠ [] ∧
      ∀ r, r ∈ d.dependsOn ↔ ∃ p ∈ entry.references, p ≠ entry.path ∧ p ∈ all.map PathInfoEntry.path ∧ hashPart p = r := by
  unfold dependencyOf at h
  dsimp only at h
  split at h
  · cases h
  · rename_i hne
    obtain rfl := Option.some.inj h
    refine ⟨rfl, fun hnil => hne (List.isEmpty_iff.mpr hnil), fun r => ?_⟩
    constructor
    · intro hr
      obtain ⟨p, hp, rfl⟩ := List.mem_map.mp hr
      obtain ⟨hp, hmem⟩ := List.mem_filter.mp hp
      obtain ⟨hp, hself⟩ := List.mem_filter.mp hp
      exact ⟨p, hp, of_decide_eq_true hself, of_decide_eq_true hmem, rfl⟩
    · rintro ⟨p, hp, hself, hmem, rfl⟩
      exact List.mem_map_of_mem (List.mem_filter.mpr ⟨List.mem_filter.mpr ⟨hp, decide_eq_true hself⟩, decide_eq_true hmem⟩)

/-- A path that refers to another one of the closure has a record. -/
theorem dependencyOf_isSome {all : List PathInfoEntry} {entry : PathInfoEntry} {r : String} (hr : r ∈ entry.references) (hself : r ≠ entry.path)
    (hmem : r ∈ all.map PathInfoEntry.path) : ∃ d, dependencyOf all entry = some d := by
  unfold dependencyOf
  dsimp only
  rw [if_neg]
  · exact ⟨_, rfl⟩
  · intro hempty
    have hin : hashPart r ∈ ((entry.references.filter fun r => r ≠ entry.path).filter fun r => r ∈ all.map PathInfoEntry.path).map hashPart :=
      List.mem_map_of_mem (List.mem_filter.mpr ⟨List.mem_filter.mpr ⟨hr, decide_eq_true hself⟩, decide_eq_true hmem⟩)
    rw [List.isEmpty_iff.mp hempty] at hin
    cases hin

theorem filterMap_refs_sublist (all entries : List PathInfoEntry) :
    ((entries.filterMap (dependencyOf all)).map CdxDependency.depRef).Sublist (entries.map fun e => hashPart e.path) := by
  induction entries with
  | nil => exact List.Sublist.refl _
  | cons e entries ih =>
    rw [List.filterMap_cons]
    cases hd : dependencyOf all e with
    | none => exact ih.cons _
    | some d =>
      rw [List.map_cons, List.map_cons, (dependencyOf_eq_some hd).1]
      exact ih.cons_cons _

/-- No two records are for the same reference. -/
theorem depRefs_nodup (installable : String) :
    ((closureBom manifestIndex evalIndex installable closure).dependencies.map CdxDependency.depRef).Nodup := by
  refine (filterMap_refs_sublist closure.entries closure.entries).nodup ?_
  have hmap : (closure.entries.map fun e => hashPart e.path) = (closure.entries.map PathInfoEntry.path).map hashPart := by
    rw [List.map_map]; rfl
  rw [hmap]
  refine closure.distinct.map_on fun p hp q hq heq => ?_
  exact closure.identified p (List.mem_cons_of_mem _ hp) q (List.mem_cons_of_mem _ hq) heq

theorem mem_dependencies {d : CdxDependency} : d ∈ (closureBom manifestIndex evalIndex installable closure).dependencies ↔
    ∃ e ∈ closure.entries, dependencyOf closure.entries e = some d := List.mem_filterMap

theorem length_filter_le_one {r : String} : ∀ {l : List CdxDependency}, (l.map CdxDependency.depRef).Nodup →
    (l.filter fun d => d.depRef = r).length ≤ 1
  | [], _ => Nat.zero_le 1
  | d :: l, h => by
    rw [List.map_cons, List.nodup_cons] at h
    by_cases hd : d.depRef = r
    · have hrest : l.filter (fun d => d.depRef = r) = [] :=
        List.filter_eq_nil_iff.mpr fun d' hd' heq => h.1 (List.mem_map.mpr ⟨d', hd', (of_decide_eq_true heq).trans hd.symm⟩)
      rw [List.filter_cons_of_pos (by simpa using hd), hrest]
      exact Nat.le_refl 1
    · rw [List.filter_cons_of_neg (by simpa using hd)]
      exact length_filter_le_one h.2

theorem sbom_referential_iff (manifestIndex : String → Option PackageManifestEntry) (evalIndex : String → Option EvalMeta)
    (installable : String) (closure : SbomClosure) : Referential (closureBom manifestIndex evalIndex installable closure) closure ↔
      ∀ e ∈ closure.entries, Linked closure.entries e.path → NamesComponent manifestIndex evalIndex closure e := by
  constructor
  · rintro ⟨hrefs, -, -⟩ e he ⟨entry, hentry, r, hr, hself, hmem, hlink⟩
    obtain ⟨d, hd⟩ := dependencyOf_isSome hr hself hmem
    obtain ⟨hdepRef, -, hdependsOn⟩ := dependencyOf_eq_some hd
    have hrecord : d ∈ (closureBom manifestIndex evalIndex installable closure).dependencies :=
      mem_dependencies.mpr ⟨entry, hentry, hd⟩
    have hnamed : hashPart e.path ∈ d.depRef :: d.dependsOn := by
      rcases hlink with heq | heq
      · rw [heq, hdepRef]
        exact List.mem_cons_self
      · rw [heq]
        exact List.mem_cons_of_mem _ ((hdependsOn _).mpr ⟨r, hr, hself, hmem, rfl⟩)
    obtain ⟨c, hc, href⟩ := hrefs d hrecord _ hnamed
    exact names_of_bomRef he hc href
  · intro hnames
    refine ⟨fun d hd r hr => ?_, fun c _ => length_filter_le_one (depRefs_nodup installable), ?_⟩
    · -- every reference is of a linked path
      obtain ⟨entry, hentry, hd⟩ := mem_dependencies.mp hd
      obtain ⟨hdepRef, hne, hdependsOn⟩ := dependencyOf_eq_some hd
      have hpath : ∃ e ∈ closure.entries, Linked closure.entries e.path ∧ hashPart e.path = r := by
        rcases List.mem_cons.mp hr with rfl | hr
        · obtain ⟨r', hr'⟩ := List.exists_mem_of_ne_nil _ hne
          obtain ⟨p, hp, hself, hmem, -⟩ := (hdependsOn r').mp hr'
          exact ⟨entry, hentry, ⟨entry, hentry, p, hp, hself, hmem, .inl rfl⟩, hdepRef.symm⟩
        · obtain ⟨p, hp, hself, hmem, rfl⟩ := (hdependsOn r).mp hr
          obtain ⟨e, he, rfl⟩ := List.mem_map.mp hmem
          exact ⟨e, he, ⟨entry, hentry, e.path, hp, hself, hmem, .inr rfl⟩, rfl⟩
      obtain ⟨e, he, hlinked, rfl⟩ := hpath
      obtain ⟨c, hc, hlisted⟩ := emitted_covers installable he
      exact ⟨c, hc, bomRef_of_names he (hnames e he hlinked) hc hlisted⟩
    · intro entry hentry r hr hmem c hc hp c' hc' hp' hne
      have hself : r ≠ entry.path := fun heq => hne (emitted_of_path hc hc' hp (heq ▸ hp'))
      obtain ⟨e, he, rfl⟩ := List.mem_map.mp hmem
      obtain ⟨d, hd⟩ := dependencyOf_isSome hr hself hmem
      obtain ⟨hdepRef, -, hdependsOn⟩ := dependencyOf_eq_some hd
      have href := bomRef_of_names hentry (hnames entry hentry ⟨entry, hentry, e.path, hr, hself, hmem, .inl rfl⟩) hc hp
      have href' := bomRef_of_names he (hnames e he ⟨entry, hentry, e.path, hr, hself, hmem, .inr rfl⟩) hc' hp'
      refine ⟨d, mem_dependencies.mpr ⟨entry, hentry, hd⟩, hdepRef.trans href.symm, ?_⟩
      rw [href']
      exact (hdependsOn _).mpr ⟨e.path, hr, hself, hmem, rfl⟩

/-- An application that refers to two outputs of a library. -/
def twoOutputs : SbomClosure where
  rootPath := "/nix/store/a-app-1"
  entries := [⟨"/nix/store/a-app-1", 1, ["/nix/store/b-lib-2", "/nix/store/c-lib-2-dev"]⟩, ⟨"/nix/store/b-lib-2", 1, []⟩,
    ⟨"/nix/store/c-lib-2-dev", 1, []⟩]
  distinct := by decide
  identified := by decide

def evalNamed (pname version : String) : EvalMeta := ⟨pname, version, "", "", "", "", [], none, none, "", [], []⟩

def twoOutputsMeta (path : String) : Option EvalMeta :=
  if path = "/nix/store/a-app-1" then some (evalNamed "app" "1") else some (evalNamed "lib" "2")

/-- The edge to the second output names no component. -/
theorem second_output_dangles : ¬ ∀ (manifestIndex : String → Option PackageManifestEntry) (evalIndex : String → Option EvalMeta)
    (installable : String) (closure : SbomClosure), Referential (closureBom manifestIndex evalIndex installable closure) closure := by
  intro h
  obtain ⟨hrefs, -, -⟩ := h (fun _ => none) twoOutputsMeta "nixpkgs#app" twoOutputs
  have he : (⟨"/nix/store/c-lib-2-dev", 1, []⟩ : PathInfoEntry) ∈ twoOutputs.entries :=
    List.mem_cons_of_mem _ (List.mem_cons_of_mem _ List.mem_cons_self)
  obtain ⟨c, hc, href⟩ := hrefs ⟨"a", ["b", "c"]⟩ (mem_dependencies.mpr ⟨_, List.mem_cons_self, by decide⟩) "c" (by decide)
  have hhash : hashPart "/nix/store/c-lib-2-dev" = "c" := by decide
  have hfound : (twoOutputs.entries.find? fun e => componentKey (fun _ => none) twoOutputsMeta e = ("lib", "2")).map PathInfoEntry.path =
      some "/nix/store/b-lib-2" := by decide
  rcases names_of_bomRef he hc (href.trans hhash.symm) with hroot | ⟨hfirst, -⟩
  · exact absurd hroot (by decide)
  · have hkey : componentKey (fun _ => none) twoOutputsMeta ⟨"/nix/store/c-lib-2-dev", 1, []⟩ = ("lib", "2") := by decide
    rw [hkey, hfound] at hfirst
    exact absurd hfirst (by decide)

end Ekapkgs
