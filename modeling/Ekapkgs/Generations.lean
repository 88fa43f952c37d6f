import Ekapkgs.Activation
import Ekapkgs.BootEntries

/-!
# Generations

`commands/system.rs`: `cmd_list_generations` marks the current generation of a
profile, and `cmd_rollback` goes back from it. What they compare with the store
paths of the generations is the link of the profile, which holds the name of
another link.
-/

namespace Ekapkgs

/-! ## The commands -/

/-- `read_link` of a name in the directory. -/
def readLink (profileDir : List ProfileLink) (name : String) : Except String String :=
  match profileDir.find? (·.name = name) with
  | none => .error "No such file or directory (os error 2)"
  | some ⟨_, none⟩ => .error "Invalid argument (os error 22)"
  | some ⟨_, some target⟩ => .ok target

/-- `Path::file_name` of a profile. -/
def profileBase (profile : String) : String := rsplitNext '/' profile

structure ListedGeneration where
  number : Nat
  path : String
  current : Bool
  deriving DecidableEq, Repr

def listGenerations (profile : String) (profileDir : List ProfileLink) : List ListedGeneration :=
  let currentTarget := (readLink profileDir (profileBase profile)).toOption
  (discoverGenerations (profileBase profile) profileDir).map fun g => ⟨g.number, g.path, currentTarget = some g.path⟩

/-- `{:>4}`. -/
def padNumber (number : Nat) : String := String.ofList ((toString number).toList.leftpad 4 ' ')

def ListedGeneration.line (g : ListedGeneration) : String :=
  padNumber g.number ++ "  " ++ g.path ++ if g.current then " (current)" else ""

/-- The entries of the JSON output, or else the lines of the plain one. -/
def cmdListGenerations (jsonOutput : Bool) (profile : String) (profileDir : List ProfileLink) :
    List ListedGeneration ⊕ List String :=
  let generations := listGenerations profile profileDir
  if jsonOutput then .inl generations
  else if generations.isEmpty then .inr ["No system generations found."]
  else .inr (generations.map ListedGeneration.line)

/-- The generation that is rolled back to. -/
def selectGeneration (generations : List Generation) (currentTarget : String) : Option Nat → Except String Generation
  | some num =>
    match generations.find? (·.number = num) with
    | some g => .ok g
    | none => .error ("Generation " ++ toString num ++
        " not found. Use `ekapkgs system list-generations` to see available generations.")
  | none =>
    match generations.findIdx? (·.path = currentTarget) with
    | some idx =>
      match (generations.take idx).getLast? with
      | some g => .ok g
      | none => .error "Already at the oldest generation, nothing to roll back to"
    | none =>
      match generations.getLast? with
      | some g => .ok g
      | none => .error "No system generations found"

/-- A command under sudo that has to succeed. -/
def runSudo (starting failed : String) : ScriptStatus → Except String Unit
  | .exited 0 => .ok ()
  | .notStarted e => .error (starting ++ e)
  | status => .error (failed ++ " (exit " ++ toString status.code ++ ")")

structure RolledBack where
  messages : List String
  commands : List SudoCommand
  result : Except String Unit

/-- `status` is how each command ends. -/
def rollBackTo (status : SudoCommand → ScriptStatus) (profile : String) (target : Generation) : RolledBack :=
  let rolling := "Rolling back to generation " ++ toString target.number ++ ": " ++ target.path
  let set := SudoCommand.nixEnvSet profile target.path
  match runSudo "failed to set system profile: " "Failed to set system profile" (status set) with
  | .error e => ⟨[rolling], [set], .error e⟩
  | .ok () =>
    let activate := SudoCommand.script [] (activateScript target.path) "switch"
    match runSudo "failed to run activation: " "Rollback activation failed" (status activate) with
    | .error e => ⟨[rolling], [set, activate], .error e⟩
    | .ok () => ⟨[rolling, "Rolled back to generation " ++ toString target.number], [set, activate], .ok ()⟩

def dryRollBackTo (target : Generation) : RolledBack :=
  ⟨["Rolling back to generation " ++ toString target.number ++ ": " ++ target.path, "Dry run:",
    "  Would roll back to generation " ++ toString target.number, "  System path: " ++ target.path], [], .ok ()⟩

def cmdSystemRollback (status : SudoCommand → ScriptStatus) (targetGen : Option Nat) (dryRun : Bool) (profile : String)
    (profileDir : List ProfileLink) : RolledBack :=
  match readLink profileDir (profileBase profile) with
  | .error e => ⟨[], [], .error ("failed to read system profile: " ++ e)⟩
  | .ok currentTarget =>
    match selectGeneration (discoverGenerations (profileBase profile) profileDir) currentTarget targetGen with
    | .error e => ⟨[], [], .error e⟩
    | .ok target =>
      if target.path = currentTarget then
        ⟨["Generation " ++ toString target.number ++ " is already the active generation"], [], .ok ()⟩
      else if dryRun then dryRollBackTo target
      else rollBackTo status profile target

/-! ## The directory of a profile -/

/-- The name of a generation's link. -/
def generationLink (base : String) (number : Nat) : String := base ++ "-" ++ toString number ++ "-link"

/-- The name of a link of another profile, or any other that is not shaped as
one of this profile's generations. -/
def ForeignName (base name : String) : Prop :=
  name ≠ base ∧ ((∃ other number, other ≠ base ∧ name = generationLink other number) ∨
    ∀ middle, name ≠ base ++ "-" ++ middle ++ "-link")

/-- A directory as nix-env writes it, in any order. -/
structure ProfileLayout where
  profile : String
  current : Generation
  generations : List Generation
  others : List ProfileLink
  links : List ProfileLink
  current_mem : current ∈ generations
  numbers_nodup : (generations.map Generation.number).Nodup
  numbers_u64 : ∀ g ∈ generations, g.number < 2 ^ 64
  absolute : ∀ g ∈ generations, g.path.toList.head? = some '/'
  foreign : ∀ e ∈ others, ForeignName (profileBase profile) e.name
  links_perm : links.Perm (⟨profileBase profile, some (generationLink (profileBase profile) current.number)⟩ ::
    generations.map (fun g => ⟨generationLink (profileBase profile) g.number, some g.path⟩) ++ others)

/-! ## Reading the names -/

theorem not_dash_mem_of_parseU64 {s : String} {n : Nat} (h : parseU64 s = some n) : '-' ∉ s.toList := by
  have hdigits : ∀ l : List Char, ¬ (l = [] ∨ (!l.all Char.isDigit) = true) → '-' ∉ l := by
    intro l hl hmem
    rw [not_or, Bool.not_eq_true, Bool.not_eq_false', List.all_eq_true] at hl
    exact absurd (hl.2 '-' hmem) (by decide)
  intro hmem
  unfold parseU64 at h
  dsimp only at h
  split at h
  · rename_i rest heq
    split_ifs at h with hbad
    rw [heq] at hmem
    rcases List.mem_cons.mp hmem with hplus | hrest
    · cases hplus
    · exact hdigits rest hbad hrest
  · split_ifs at h with hbad
    exact hdigits s.toList hbad hmem

theorem not_dash_mem_toString (n : Nat) : '-' ∉ (toString n).toList := by
  rw [Nat.toString_eq_repr, Nat.toList_repr]
  exact fun hmem => absurd (Nat.isDigit_of_mem_toDigits (by decide) (by decide) hmem) (by decide)

/-- What `discover_generations` makes of one name. -/
def linkGeneration (base : String) (e : ProfileLink) : Option Generation := do
  let rest ← stripPrefix (base ++ "-") e.name
  let number ← (← stripSuffix "-link" rest) |> parseU64
  let path ← e.target
  some ⟨number, path⟩

theorem linkGeneration_some {base : String} {e : ProfileLink} {g : Generation} (h : linkGeneration base e = some g) :
    ∃ middle, e.name = base ++ "-" ++ middle ++ "-link" ∧ parseU64 middle = some g.number := by
  unfold linkGeneration at h
  simp only [Option.bind_eq_bind, Option.bind_eq_some_iff] at h
  obtain ⟨rest, hrest, middle, hmiddle, number, hnumber, path, -, hg⟩ := h
  refine ⟨middle, ?_, ?_⟩
  · rw [eq_of_stripPrefix hrest, eq_of_stripSuffix hmiddle, ← String.append_assoc]
  · rw [hnumber, ← Option.some.inj hg]

theorem linkGeneration_link {base path : String} {number : Nat} (h : number < 2 ^ 64) :
    linkGeneration base ⟨generationLink base number, some path⟩ = some ⟨number, path⟩ := by
  have hname : generationLink base number = (base ++ "-") ++ (toString number ++ "-link") := String.append_assoc
  unfold linkGeneration
  dsimp only
  rw [hname, stripPrefix_append]
  simp only [Option.bind_eq_bind, Option.bind_some, stripSuffix_append, parseU64_toString h]

theorem linkGeneration_profile (base : String) (target : Option String) : linkGeneration base ⟨base, target⟩ = none := by
  refine Option.eq_none_iff_forall_ne_some.mpr fun g h => ?_
  obtain ⟨middle, hname, -⟩ := linkGeneration_some h
  have hlength := congrArg String.length hname
  simp only [String.length_append] at hlength
  have hdash : "-".length = 1 := rfl
  omega

theorem linkGeneration_foreign {base : String} {e : ProfileLink} (h : ForeignName base e.name) : linkGeneration base e = none := by
  refine Option.eq_none_iff_forall_ne_some.mpr fun g hg => ?_
  obtain ⟨middle, hname, hparse⟩ := linkGeneration_some hg
  obtain ⟨-, ⟨other, number, hother, heq⟩ | hshape⟩ := h
  · have hcut : ∀ {b m : String}, '-' ∉ m.toList →
        ((b ++ "-" ++ m).toList.reverse.splitOn '-').head? = some m.toList.reverse ∧
        (b ++ "-" ++ m).toList = b.toList ++ '-' :: m.toList := by
      intro b m hm
      have hlist : (b ++ "-" ++ m).toList = b.toList ++ '-' :: m.toList := by simp [String.toList_append]
      refine ⟨?_, hlist⟩
      rw [hlist, List.reverse_append, List.reverse_cons, List.append_assoc, List.singleton_append,
        List.splitOn_append_cons_self_of_not_mem (by simpa using hm), List.head?_cons]
    -- the names agree up to the suffix, so behind the last '-', and so before it as well
    have heq' : other ++ "-" ++ toString number = base ++ "-" ++ middle := by
      have hsuffix := congrArg (stripSuffix "-link") (heq.symm.trans hname)
      unfold generationLink at hsuffix
      rw [stripSuffix_append, stripSuffix_append] at hsuffix
      exact Option.some.inj hsuffix
    obtain ⟨hlast, hother'⟩ := hcut (b := other) (not_dash_mem_toString number)
    obtain ⟨hlast', hbase⟩ := hcut (b := base) (not_dash_mem_of_parseU64 hparse)
    rw [heq', hlast', Option.some.injEq, List.reverse_inj] at hlast
    rw [heq', hbase, hlast] at hother'
    exact hother (String.toList_injective (List.append_cancel_right hother').symm)
  · exact hshape middle hname

/-! ## What the commands see of a layout -/

namespace ProfileLayout

variable (L : ProfileLayout)

def base : String := profileBase L.profile

def discovered : List Generation := discoverGenerations L.base L.links

/-- The target of the profile's own link. -/
def currentLink : String := generationLink L.base L.current.number

theorem links_perm_base : L.links.Perm (⟨L.base, some L.currentLink⟩ ::
    L.generations.map (fun g => ⟨generationLink L.base g.number, some g.path⟩) ++ L.others) := L.links_perm

theorem discovered_perm : L.discovered.Perm L.generations := by
  have hself : linkGeneration L.base ⟨L.base, some L.currentLink⟩ = none := linkGeneration_profile _ _
  have hothers : L.others.filterMap (linkGeneration L.base) = [] :=
    List.filterMap_eq_nil_iff.mpr fun e he => linkGeneration_foreign (L.foreign e he)
  have hlinks : (L.generations.map fun g => ⟨generationLink L.base g.number, some g.path⟩).filterMap (linkGeneration L.base) =
      L.generations := by
    rw [List.filterMap_map]
    exact (List.filterMap_congr fun g hg => linkGeneration_link (L.numbers_u64 g hg)).trans List.filterMap_some
  have hperm := L.links_perm_base.filterMap (linkGeneration L.base)
  rw [List.cons_append, List.filterMap_cons_none hself, List.filterMap_append, hothers, List.append_nil, hlinks] at hperm
  exact (List.perm_insertionSort _ _).trans hperm

theorem discovered_increasing : L.discovered.Pairwise fun a b => a.number < b.number := by
  have hsorted : L.discovered.Pairwise fun a b => a.number ≤ b.number := List.pairwise_insertionSort _ _
  have hnodup : (L.discovered.map Generation.number).Nodup := (L.discovered_perm.map _).nodup_iff.mpr L.numbers_nodup
  refine (hsorted.and (List.pairwise_map.mp hnodup)).imp ?_
  exact fun h => Nat.lt_of_le_of_ne h.1 h.2

theorem readLink_profile : readLink L.links L.base = .ok L.currentLink := by
  have hmem : (⟨L.base, some L.currentLink⟩ : ProfileLink) ∈ L.links := L.links_perm_base.mem_iff.mpr (by simp)
  have hunique : ∀ e ∈ L.links, e.name = L.base → e = ⟨L.base, some L.currentLink⟩ := by
    intro e he hname
    rcases List.mem_append.mp (L.links_perm_base.mem_iff.mp he) with hown | hother
    · rcases List.mem_cons.mp hown with hself | hlink
      · exact hself
      · obtain ⟨g, -, rfl⟩ := List.mem_map.mp hlink
        have hlength := congrArg String.length hname
        simp only [generationLink, String.length_append] at hlength
        have hdash : "-".length = 1 := rfl
        omega
    · exact absurd hname (L.foreign e hother).1
  unfold readLink
  cases hfind : L.links.find? (·.name = L.base) with
  | none => exact absurd (List.find?_eq_none.mp hfind _ hmem) (by simp)
  | some e =>
    rw [hunique e (List.mem_of_find?_eq_some hfind) (by simpa using List.find?_some hfind)]

/-- A store path is never the name of a link. -/
theorem path_ne_currentLink {g : Generation} (h : g ∈ L.discovered) : g.path ≠ L.currentLink := by
  intro heq
  have hslash := L.absolute g (L.discovered_perm.mem_iff.mp h)
  have hlist : L.currentLink.toList = L.base.toList ++ '-' :: (toString L.current.number ++ "-link").toList := by
    unfold currentLink generationLink
    simp [String.toList_append]
  rw [heq, hlist] at hslash
  have hbase : '/' ∉ L.base.toList := not_mem_rsplitNext '/' L.profile
  cases hcs : L.base.toList with
  | nil =>
    rw [hcs] at hslash
    cases hslash
  | cons c cs =>
    rw [hcs] at hslash
    refine hbase ?_
    have hc : c = '/' := Option.some.inj hslash
    exact hcs ▸ hc ▸ List.mem_cons_self

/-! ## Listing and rolling back -/

def Discovers : Prop := L.discovered.Perm L.generations ∧ L.discovered.Pairwise fun a b => a.number < b.number

def MarksCurrent : Prop :=
  ∀ listed ∈ listGenerations L.profile L.links, listed.current = true ↔ listed.number = L.current.number

/-- The greatest generation below the current one. -/
def Previous (g : Generation) : Prop :=
  g ∈ L.generations ∧ g.number < L.current.number ∧ ∀ h ∈ L.generations, h.number < L.current.number → h.number ≤ g.number

def Selects (g : Generation) : Prop :=
  ∃ currentTarget, readLink L.links L.base = .ok currentTarget ∧ selectGeneration L.discovered currentTarget none = .ok g

def GoesBack (status : SudoCommand → ScriptStatus) (dryRun : Bool) : Prop :=
  (∀ g, L.Previous g → L.Selects g) ∧
    ((∀ g, ¬ L.Previous g) → ∃ e, cmdSystemRollback status none dryRun L.profile L.links = ⟨[], [], .error e⟩)

theorem marks_none {listed : ListedGeneration} (h : listed ∈ listGenerations L.profile L.links) : listed.current = false := by
  obtain ⟨g, hg, rfl⟩ := List.mem_map.mp h
  have hread : readLink L.links (profileBase L.profile) = .ok L.currentLink := L.readLink_profile
  have hne : L.currentLink ≠ g.path := (L.path_ne_currentLink hg).symm
  simp [hread, Except.toOption, hne]

theorem listed_current : ∃ listed ∈ listGenerations L.profile L.links, listed.number = L.current.number :=
  ⟨_, List.mem_map_of_mem (L.discovered_perm.mem_iff.mpr L.current_mem), rfl⟩

/-- The last generation, which is taken when none is the current one. -/
theorem selects_newest : ∃ newest ∈ L.discovered, (∀ h ∈ L.discovered, h.number ≤ newest.number) ∧
    selectGeneration L.discovered L.currentLink none = .ok newest := by
  have hcurrent : L.current ∈ L.discovered := L.discovered_perm.mem_iff.mpr L.current_mem
  obtain ⟨init, newest, hinit⟩ := (List.eq_nil_or_concat L.discovered).resolve_left (List.ne_nil_of_mem hcurrent)
  rw [List.concat_eq_append] at hinit
  have hnone : L.discovered.findIdx? (·.path = L.currentLink) = none := by
    rw [List.findIdx?_eq_none_iff]
    intro g hg
    simpa using L.path_ne_currentLink hg
  have hlast : L.discovered.getLast? = some newest := by rw [hinit, List.getLast?_concat]
  refine ⟨newest, by simp [hinit], fun h hh => ?_, ?_⟩
  · have hsorted := L.discovered_increasing
    rw [hinit, List.pairwise_append] at hsorted
    rw [hinit] at hh
    rcases List.mem_append.mp hh with hmem | hmem
    · exact Nat.le_of_lt (hsorted.2.2 h hmem newest (by simp))
    · exact Nat.le_of_eq (by rw [List.mem_singleton.mp hmem])
  · unfold selectGeneration
    dsimp only
    rw [hnone, hlast]

theorem rollback_newest (status : SudoCommand → ScriptStatus) (dryRun : Bool) {newest : Generation} (hmem : newest ∈ L.discovered)
    (hselect : selectGeneration L.discovered L.currentLink none = .ok newest) :
    cmdSystemRollback status none dryRun L.profile L.links =
      if dryRun then dryRollBackTo newest else rollBackTo status L.profile newest := by
  have hread : readLink L.links (profileBase L.profile) = .ok L.currentLink := L.readLink_profile
  have hselect' : selectGeneration (discoverGenerations (profileBase L.profile) L.links) L.currentLink none = .ok newest := hselect
  unfold cmdSystemRollback
  rw [hread]
  dsimp only
  rw [hselect']
  dsimp only
  rw [if_neg (L.path_ne_currentLink hmem)]

end ProfileLayout

theorem rollBackTo_messages (status : SudoCommand → ScriptStatus) (profile : String) (target : Generation) :
    (rollBackTo status profile target).messages ≠ [] := by
  unfold rollBackTo
  dsimp only
  split
  · exact List.cons_ne_nil _ _
  · split <;> exact List.cons_ne_nil _ _

namespace ProfileLayout

variable (L : ProfileLayout)

theorem not_marksCurrent : ¬ L.MarksCurrent := by
  intro h
  obtain ⟨listed, hlisted, hnumber⟩ := L.listed_current
  have hmarked := (h listed hlisted).mpr hnumber
  rw [L.marks_none hlisted] at hmarked
  cases hmarked

theorem not_goesBack (status : SudoCommand → ScriptStatus) (dryRun : Bool) : ¬ L.GoesBack status dryRun := by
  obtain ⟨newest, hmem, hnewest, hselect⟩ := L.selects_newest
  rintro ⟨hback, holdest⟩
  by_cases hprevious : ∃ g, L.Previous g
  · obtain ⟨g, hg⟩ := hprevious
    obtain ⟨target, hread, hselected⟩ := hback g hg
    rw [L.readLink_profile, Except.ok.injEq] at hread
    rw [← hread, hselect, Except.ok.injEq] at hselected
    refine Nat.not_lt.mpr (hnewest _ (L.discovered_perm.mem_iff.mpr L.current_mem)) ?_
    rw [hselected]
    exact hg.2.1
  · obtain ⟨e, he⟩ := holdest (not_exists.mp hprevious)
    rw [L.rollback_newest status dryRun hmem hselect] at he
    cases dryRun with
    | true => exact List.cons_ne_nil _ _ (congrArg RolledBack.messages he)
    | false => exact rollBackTo_messages _ _ _ (congrArg RolledBack.messages he)

end ProfileLayout

/-- The generations are found as they are; but none is ever marked, and a
rollback goes to the newest of them all. -/
theorem system_rollback_never (L : ProfileLayout) (status : SudoCommand → ScriptStatus) (dryRun : Bool) :
    L.Discovers ∧ (∀ listed ∈ listGenerations L.profile L.links, listed.current = false) ∧
    (∃ newest ∈ L.generations, (∀ h ∈ L.generations, h.number ≤ newest.number) ∧ L.Selects newest ∧
      cmdSystemRollback status none dryRun L.profile L.links =
        if dryRun then dryRollBackTo newest else rollBackTo status L.profile newest) ∧
    ¬ L.MarksCurrent ∧ ¬ L.GoesBack status dryRun := by
  refine ⟨⟨L.discovered_perm, L.discovered_increasing⟩, fun _ => L.marks_none, ?_, L.not_marksCurrent, L.not_goesBack status dryRun⟩
  obtain ⟨newest, hmem, hnewest, hselect⟩ := L.selects_newest
  have hperm := L.discovered_perm
  exact ⟨newest, hperm.mem_iff.mp hmem, fun h hh => hnewest h (hperm.mem_iff.mpr hh), ⟨_, L.readLink_profile, hselect⟩,
    L.rollback_newest status dryRun hmem hselect⟩

def systemLayout : ProfileLayout where
  profile := "/nix/var/nix/profiles/system"
  current := ⟨2, "/nix/store/b"⟩
  generations := [⟨1, "/nix/store/a"⟩, ⟨2, "/nix/store/b"⟩, ⟨3, "/nix/store/c"⟩]
  others := []
  links := [⟨"system", some "system-2-link"⟩, ⟨"system-1-link", some "/nix/store/a"⟩, ⟨"system-2-link", some "/nix/store/b"⟩,
    ⟨"system-3-link", some "/nix/store/c"⟩]
  current_mem := by decide
  numbers_nodup := by decide
  numbers_u64 := by decide
  absolute := by decide
  foreign := by simp
  links_perm := by
    have hbase : profileBase "/nix/var/nix/profiles/system" = "system" := by decide
    have hlinks : generationLink "system" 1 = "system-1-link" ∧ generationLink "system" 2 = "system-2-link" ∧
        generationLink "system" 3 = "system-3-link" := by decide
    rw [hbase]
    simp [hlinks]

/-- From the second generation, forward to the third. -/
theorem rollback_goes_forward : systemLayout.Previous ⟨1, "/nix/store/a"⟩ ∧ systemLayout.Selects ⟨3, "/nix/store/c"⟩ ∧
    ¬ ∀ (L : ProfileLayout) (status : SudoCommand → ScriptStatus) (dryRun : Bool),
      L.Discovers ∧ L.MarksCurrent ∧ L.GoesBack status dryRun := by
  have hprevious : systemLayout.Previous ⟨1, "/nix/store/a"⟩ := by
    unfold ProfileLayout.Previous
    decide
  refine ⟨hprevious, ⟨"system-2-link", rfl, rfl⟩, fun h => ?_⟩
  exact systemLayout.not_goesBack (fun _ => .exited 0) false (h _ _ _).2.2

end Ekapkgs
