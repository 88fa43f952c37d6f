import Ekapkgs.Generations

/-!
# Switching the home configuration

`commands/home.rs`: `cmd_switch` activates a new configuration, and another one
when that fails. The generation to fall back to is the one before the last; it
is right for `cmd_rollback`, but the last one is the current one.
-/

namespace Ekapkgs

/-! ## The commands -/

/-- The directory `generations`. -/
inductive StateDir where
  /-- Without a home directory. -/
  | unknown (e : String)
  | missing
  | unreadable (e : String)
  | listing (links : List ProfileLink)
  deriving DecidableEq, Repr

def homeEntries (links : List ProfileLink) : List Generation :=
  let entries := links.filterMap fun e => do
    let num ← parseU64 e.name
    let target ← e.target
    some ⟨num, target⟩
  entries.insertionSort fun a b => a.number ≤ b.number

def StateDir.generations : StateDir → List Generation
  | .listing links => homeEntries links
  | _ => []

def findPreviousGeneration (stateDir : StateDir) : Option Generation :=
  let entries := stateDir.generations
  -- the previous generation is the second-to-last entry
  if 2 ≤ entries.length then entries[entries.length - 2]? else none

def isCurrent (entries : List Generation) (g : Generation) : Bool := entries.getLast?.map Generation.number = some g.number

def cmdGenerations : StateDir → Except String (List String)
  | .unknown e => .error e
  | .missing => .ok ["No generations found."]
  | .unreadable e => .error e
  | .listing links =>
    let entries := homeEntries links
    if entries.isEmpty then .ok ["No generations found."]
    else .ok (entries.map fun g => ListedGeneration.line ⟨g.number, g.path, isCurrent entries g⟩)

structure HomeHost where
  build : String → List String → Except String String
  /-- Runs a script, which may add to the generations. -/
  run : StateDir → String → StateDir × ScriptStatus

structure Switched where
  stateDir : StateDir
  scripts : List String
  messages : List String
  result : Except String Unit

def activatePath (storePath : String) : String := storePath ++ "/activate"

/-- What is said of the fallback. -/
def fallbackReport (prev : Generation) : ScriptStatus → String
  | .exited 0 => "Rolled back to generation " ++ toString prev.number
  | .notStarted e => "Failed to run rollback activation: " ++ e ++ "; home may be in an inconsistent state — manually run: " ++
      activatePath prev.path
  | status => "Rollback activation also failed (exit " ++ toString status.code ++
      "); home may be in an inconsistent state — manually run: " ++ activatePath prev.path

/-- After a failed activation. -/
def fallBack (host : HomeHost) (stateDir : StateDir) (activated : String) (status : ScriptStatus) :
    Option Generation → Switched
  | none => ⟨stateDir, [activated], ["Activating home configuration..."],
      .error ("Home activation failed (exit " ++ toString status.code ++ ")")⟩
  | some prev =>
    let (stateDir, prevStatus) := host.run stateDir (activatePath prev.path)
    ⟨stateDir, [activated, activatePath prev.path],
      ["Activating home configuration...",
        "Activation failed, rolling back to generation " ++ toString prev.number ++ " (" ++ prev.path ++ ")...",
        fallbackReport prev prevStatus],
      .error ("Home activation failed (exit " ++ toString status.code ++ ")")⟩

def cmdSwitch (host : HomeHost) (stateDir : StateDir) (installable : String) (extra : List String) : Switched :=
  match host.build installable extra with
  | .error e => ⟨stateDir, [], [], .error e⟩
  | .ok storePath =>
    -- the generation to roll back to is recorded before the activation
    let prevGeneration := findPreviousGeneration stateDir
    let (stateDir, status) := host.run stateDir (activatePath storePath)
    match status with
    | .notStarted e => ⟨stateDir, [activatePath storePath], ["Activating home configuration..."],
        .error ("failed to run activation script: " ++ e)⟩
    | .exited 0 => ⟨stateDir, [activatePath storePath], ["Activating home configuration...", "Home configuration activated"], .ok ()⟩
    | status => fallBack host stateDir (activatePath storePath) status prevGeneration

def cmdHomeRollback (host : HomeHost) (stateDir : StateDir) : Switched :=
  match findPreviousGeneration stateDir with
  | none => ⟨stateDir, [], [], .error "No previous home generation found to roll back to"⟩
  | some prev =>
    let rolling := "Rolling back to generation " ++ toString prev.number ++ ": " ++ prev.path
    let (stateDir, status) := host.run stateDir (activatePath prev.path)
    match status with
    | .exited 0 => ⟨stateDir, [activatePath prev.path], [rolling, "Rolled back to generation " ++ toString prev.number], .ok ()⟩
    | .notStarted e => ⟨stateDir, [activatePath prev.path], [rolling], .error ("failed to run activation script: " ++ e)⟩
    | status => ⟨stateDir, [activatePath prev.path], [rolling],
        .error ("Rollback activation failed (exit " ++ toString status.code ++ ")")⟩

/-! ## The fallback -/

def ScriptStatus.started : ScriptStatus → Bool
  | .notStarted _ => false
  | _ => true

/-- The generations that are listed as current. -/
def StateDir.Current (stateDir : StateDir) (g : Generation) : Prop :=
  g ∈ stateDir.generations ∧ isCurrent stateDir.generations g = true

/-- After the failed activation of a store path, a generation that was current
when the switch began is activated again, if there was one. -/
def FallsBack (host : HomeHost) (stateDir : StateDir) (installable : String) (extra : List String) (storePath : String) : Prop :=
  (∃ g, stateDir.Current g) →
    ∃ g, stateDir.Current g ∧ (cmdSwitch host stateDir installable extra).scripts = [activatePath storePath, activatePath g.path]

variable {host : HomeHost} {stateDir : StateDir} {installable storePath : String} {extra : List String}

theorem activatePath_inj {a b : String} (h : activatePath a = activatePath b) : a = b := by
  have hlists := congrArg String.toList h
  simp only [activatePath, String.toList_append] at hlists
  exact String.toList_injective (List.append_cancel_right hlists)

theorem generations_sorted (stateDir : StateDir) : stateDir.generations.Pairwise fun a b => a.number ≤ b.number := by
  cases stateDir with
  | listing links => exact List.pairwise_insertionSort _ _
  | _ => exact List.Pairwise.nil

theorem findPreviousGeneration_short (h : stateDir.generations.length < 2) : findPreviousGeneration stateDir = none :=
  if_neg (Nat.not_le.mpr h)

theorem findPreviousGeneration_eq {init : List Generation} {prev last : Generation}
    (h : stateDir.generations = init ++ [prev, last]) : findPreviousGeneration stateDir = some prev := by
  unfold findPreviousGeneration
  dsimp only
  rw [h]
  simp

theorem current_iff {init : List Generation} {last g : Generation} (h : stateDir.generations = init ++ [last]) :
    stateDir.Current g ↔ (g ∈ init ∨ g = last) ∧ last.number = g.number := by
  unfold StateDir.Current isCurrent
  rw [h]
  simp

/-- The scripts of a switch whose activation fails. -/
theorem cmdSwitch_scripts (hbuild : host.build installable extra = .ok storePath)
    (hfail : (host.run stateDir (activatePath storePath)).2.success = false) :
    (cmdSwitch host stateDir installable extra).scripts = activatePath storePath ::
      (if (host.run stateDir (activatePath storePath)).2.started then
        (findPreviousGeneration stateDir).toList.map fun prev => activatePath prev.path else []) := by
  obtain ⟨stateDir', status, hrun⟩ : ∃ stateDir' status, host.run stateDir (activatePath storePath) = (stateDir', status) :=
    ⟨_, _, rfl⟩
  have hfallBack : (fallBack host stateDir' (activatePath storePath) status (findPreviousGeneration stateDir)).scripts =
      activatePath storePath :: (findPreviousGeneration stateDir).toList.map fun prev => activatePath prev.path := by
    cases findPreviousGeneration stateDir with
    | none => rfl
    | some prev => rfl
  rw [hrun] at hfail
  unfold cmdSwitch
  simp only [hbuild, hrun]
  cases status with
  | notStarted e => rfl
  | signaled => exact hfallBack
  | exited code =>
    cases code with
    | zero => cases hfail
    | succ n => exact hfallBack

/-- When a failed activation is followed by that of the current generation. -/
theorem home_fallback_iff (host : HomeHost) (stateDir : StateDir) (installable : String) (extra : List String) (storePath : String)
    (hbuild : host.build installable extra = .ok storePath)
    (hfail : (host.run stateDir (activatePath storePath)).2.success = false) :
    FallsBack host stateDir installable extra storePath ↔
      stateDir.generations = [] ∨ ((host.run stateDir (activatePath storePath)).2.started = true ∧
        ∃ init prev last, stateDir.generations = init ++ [prev, last] ∧ (prev.number = last.number ∨ prev.path = last.path)) := by
  unfold FallsBack
  rw [cmdSwitch_scripts hbuild hfail]
  rcases List.eq_nil_or_concat stateDir.generations with hnil | ⟨init, last, hlast⟩
  · refine iff_of_true ?_ (.inl hnil)
    rintro ⟨g, hg, -⟩
    rw [hnil] at hg
    cases hg
  rw [List.concat_eq_append] at hlast
  have hcurrent : stateDir.Current last := (current_iff hlast).mpr ⟨.inr rfl, rfl⟩
  have hne : stateDir.generations ≠ [] := by simp [hlast]
  by_cases hstarted : (host.run stateDir (activatePath storePath)).2.started = true
  case neg =>
    rw [if_neg hstarted]
    refine iff_of_false (fun h => ?_) ?_
    · obtain ⟨g, -, hscripts⟩ := h ⟨last, hcurrent⟩
      cases hscripts
    · rintro (hnil | ⟨hstarted', -⟩)
      · exact hne hnil
      · exact hstarted hstarted'
  rw [if_pos hstarted]
  rcases List.eq_nil_or_concat init with hinit | ⟨init, prev, hprev⟩
  · -- the only generation is the current one, and there is none before it
    rw [hinit, List.nil_append] at hlast
    rw [findPreviousGeneration_short (by rw [hlast, List.length_singleton]; decide)]
    refine iff_of_false (fun h => ?_) ?_
    · obtain ⟨g, -, hscripts⟩ := h ⟨last, hcurrent⟩
      cases hscripts
    · rintro (hnil | ⟨-, init, prev, last', heq, -⟩)
      · exact hne hnil
      · have hlength := congrArg List.length (hlast.symm.trans heq)
        simp at hlength
  · rw [List.concat_eq_append] at hprev
    have heq : stateDir.generations = init ++ [prev, last] := by rw [hlast, hprev, List.append_assoc, List.singleton_append]
    rw [findPreviousGeneration_eq heq, Option.toList_some, List.map_singleton]
    constructor
    · intro h
      obtain ⟨g, hg, hscripts⟩ := h ⟨last, hcurrent⟩
      have hpath : prev.path = g.path := activatePath_inj (by simpa using hscripts)
      refine .inr ⟨hstarted, init, prev, last, heq, ?_⟩
      obtain ⟨hmem, hnumber⟩ := (current_iff hlast).mp hg
      rcases hmem with hmem | rfl
      · -- another entry of the same number is not after the one before the last
        have hsorted := generations_sorted stateDir
        rw [heq, List.pairwise_append] at hsorted
        have hprevLast : prev.number ≤ last.number := (List.pairwise_cons.mp hsorted.2.1).1 last (by simp)
        rw [hprev] at hmem
        rcases List.mem_append.mp hmem with hmem | hmem
        · have hle := hsorted.2.2 g hmem prev (by simp)
          exact .inl (by omega)
        · rw [List.mem_singleton.mp hmem] at hnumber
          exact .inl hnumber.symm
      · exact .inr hpath
    · rintro (hnil | ⟨-, init', prev', last', heq', hsame⟩) -
      · exact absurd hnil hne
      · obtain ⟨-, htail⟩ := List.append_inj' (heq.symm.trans heq') rfl
        obtain ⟨hprev', hlast'⟩ := List.cons.inj htail
        rw [← hprev', ← (List.cons.inj hlast').1] at hsame
        rcases hsame with hnumber | hpath
        · exact ⟨prev, (current_iff hlast).mpr ⟨.inl (by simp [hprev]), hnumber.symm⟩, rfl⟩
        · exact ⟨last, hcurrent, by rw [hpath]⟩

/-- Its activation scripts all fail. -/
def failingHost : HomeHost where
  build := fun _ _ => .ok "/nix/store/c"
  run := fun stateDir _ => (stateDir, .exited 1)

def homeDir : StateDir := .listing [⟨"1", some "/nix/store/a"⟩, ⟨"2", some "/nix/store/b"⟩]

theorem home_fallback_iff_once : ¬ FallsBack failingHost (.listing [⟨"1", some "/nix/store/a"⟩]) "." [] "/nix/store/c" := by
  rw [home_fallback_iff failingHost _ "." [] "/nix/store/c" rfl rfl]
  rintro (hnil | ⟨-, init, prev, last, heq, -⟩)
  · cases hnil
  · have hlength := congrArg List.length heq
    have hone : (StateDir.listing [⟨"1", some "/nix/store/a"⟩]).generations.length = 1 := rfl
    simp [hone] at hlength

/-- The second generation was the current one, and the first is activated. -/
theorem older_generation_activated : (cmdSwitch failingHost homeDir "." []).scripts = ["/nix/store/c/activate", "/nix/store/a/activate"] ∧
    ¬ ∀ (host : HomeHost) (stateDir : StateDir) (installable : String) (extra : List String) (storePath : String),
      host.build installable extra = .ok storePath → (host.run stateDir (activatePath storePath)).2.success = false →
        FallsBack host stateDir installable extra storePath := by
  have hscripts : (cmdSwitch failingHost homeDir "." []).scripts = ["/nix/store/c/activate", "/nix/store/a/activate"] := by decide
  refine ⟨hscripts, fun h => ?_⟩
  have hgenerations : homeDir.generations = [⟨1, "/nix/store/a"⟩] ++ [⟨2, "/nix/store/b"⟩] := by decide
  obtain ⟨g, hg, hagain⟩ := h failingHost homeDir "." [] "/nix/store/c" rfl rfl ⟨⟨2, "/nix/store/b"⟩, (current_iff hgenerations).mpr ⟨.inr rfl, rfl⟩⟩
  rw [hscripts] at hagain
  have hpath : "/nix/store/a" = g.path := activatePath_inj (List.cons.inj (List.cons.inj hagain).2).1
  obtain ⟨hmem, hnumber⟩ := (current_iff hgenerations).mp hg
  rcases hmem with hmem | rfl
  · rw [List.mem_singleton.mp hmem] at hnumber
    cases hnumber
  · exact absurd hpath (by decide)

end Ekapkgs
