import Ekapkgs.DirectUnits
import Ekapkgs.Lib.UnitFile

/-!
# The text of a direct unit

`generate_direct_unit_file` of `commands/home.rs` writes the unit with one format
string, in which the line breaks before `Restart` and `WantedBy` follow an escaped
backslash: the file has a backslash at the end of two lines, and goes on in the
next one with an `n`. The first takes `Restart` into the command line, and the
second leaves the header of the last section open.
-/

namespace Ekapkgs
open UnitFile

variable (env : ServicesEnv) (entry : HomeServiceEntry) (manifestFlake : String)

/-! ## What the file is to say -/

namespace ServicesEnv

def execStart (command : String) : String :=
  let resolved := env.resolveCommandPath entry.name command (entry.flake.getD manifestFlake)
  let args := (env.getStr entry "args").getD ""
  if args = "" then resolved else resolved ++ " " ++ args

def description : String := (env.getStr entry "description").getD entry.name

def stopSignal : String := (env.getStr entry "stop_signal").getD "SIGTERM"

/-- The assignments of a unit that runs the command. -/
def wanted (command : String) : List Assignment :=
  [⟨"Unit", "Description", env.description entry⟩, ⟨"Service", "Type", "simple"⟩,
    ⟨"Service", "ExecStart", env.execStart entry manifestFlake command⟩, ⟨"Service", "Restart", "on-failure"⟩,
    ⟨"Service", "RestartSec", "5"⟩, ⟨"Service", "KillSignal", env.stopSignal entry⟩, ⟨"Install", "WantedBy", "default.target"⟩]

end ServicesEnv

/-- The unit of the entry is read back as it is meant. -/
def UnitReadsBack : Prop :=
  ∃ command text, env.getStr entry "command" = some command ∧ env.generateDirectUnitFile entry manifestFlake = .ok text ∧
    UnitFile.read text = .ok (env.wanted entry manifestFlake command)

/-! ## The lines of the file -/

variable {env entry manifestFlake} {text command : String}

/-- The file up to the last section. -/
def unitHead (description execStart stopSignal : String) : String :=
  "[Unit]\nDescription=" ++ description ++ "\n\n[Service]\nType=simple\nExecStart=" ++ execStart ++
    "\\\n         nRestart=on-failure\nRestartSec=5\nKillSignal=" ++ stopSignal

/-- The last section. -/
def unitTail : List (List Char) := ["[Install]\\".toList, "         nWantedBy=default.target".toList, []]

theorem generateDirectUnitFile_ok (h : env.generateDirectUnitFile entry manifestFlake = .ok text) :
    ∃ command, env.getStr entry "command" = some command ∧
      text = unitHead (env.description entry) (env.execStart entry manifestFlake command) (env.stopSignal entry) ++
        "\n\n[Install]\\\n         nWantedBy=default.target\n" := by
  unfold ServicesEnv.generateDirectUnitFile at h
  cases hcommand : env.getStr entry "command" with
  | none => rw [hcommand] at h; cases h
  | some command =>
    rw [hcommand] at h
    cases h
    exact ⟨command, rfl, rfl⟩

theorem lines_unit (head : String) : (head ++ "\n\n[Install]\\\n         nWantedBy=default.target\n").toList.splitOn '\n' =
    head.toList.splitOn '\n' ++ [] :: unitTail := by
  have htail : "\n\n[Install]\\\n         nWantedBy=default.target\n".toList =
      '\n' :: ['\n'].intercalate ([] :: unitTail) := by decide
  rw [String.toList_append, htail, List.splitOn_append_cons_self, List.splitOn_intercalate]
  · decide
  · simp

/-- The header of the last section, with the next line in it. -/
def openHeader : String := "[Install] nWantedBy=default.target"

theorem foldlM_unitTail (r : Reader) : (joinLines none unitTail).foldlM readLine r = .error ⟨openHeader, r.said⟩ := by
  have hjoined : joinLines none unitTail = [openHeader.toList, []] := by decide
  rw [hjoined, List.foldlM_cons]
  rfl

theorem read_unit (head : String) : UnitFile.read (head ++ "\n\n[Install]\\\n         nWantedBy=default.target\n") =
    (readLines (head.toList.splitOn '\n' ++ [[]])).bind fun r => .error ⟨openHeader, r.said⟩ := by
  rw [UnitFile.read, lines_unit, readLines, joinLines_cut _ _ held_none, List.foldlM_append]
  cases hhead : (joinLines none (head.toList.splitOn '\n' ++ [[]])).foldlM readLine ⟨none, []⟩ with
  | error e => rw [readLines, hhead]; rfl
  | ok r =>
    rw [readLines, hhead]
    change Except.map Reader.said ((joinLines none unitTail).foldlM readLine r) = _
    rw [foldlM_unitTail r]
    rfl

/-- Whatever the entry says, its unit is refused. -/
theorem direct_unit_refused (h : env.generateDirectUnitFile entry manifestFlake = .ok text) : ∃ refused, UnitFile.read text = .error refused := by
  obtain ⟨command, -, rfl⟩ := generateDirectUnitFile_ok h
  rw [read_unit]
  cases readLines ((unitHead (env.description entry) (env.execStart entry manifestFlake command) (env.stopSignal entry)).toList.splitOn '\n' ++ [[]]) with
  | error e => exact ⟨e, rfl⟩
  | ok r => exact ⟨_, rfl⟩

/-! ## What is read before the header -/

/-- On one line, without a backslash at the end. -/
def UnitLine (s : String) : Prop := '\n' ∉ s.toList ∧ s.toList.getLast? ≠ some '\\'

instance (s : String) : Decidable (UnitLine s) := inferInstanceAs (Decidable (_ ∧ _))

def stripped (s : String) : String := String.ofList (strip s.toList)

theorem lines_unitHead {description execStart stopSignal : String} (hdescription : UnitLine description) (hexec : UnitLine execStart)
    (hstop : UnitLine stopSignal) : (unitHead description execStart stopSignal).toList.splitOn '\n' =
      ["[Unit]".toList, "Description".toList ++ '=' :: description.toList, [], "[Service]".toList, "Type".toList ++ '=' :: "simple".toList,
        "ExecStart".toList ++ '=' :: (execStart.toList ++ ['\\']), "         nRestart=on-failure".toList, "RestartSec".toList ++ '=' :: "5".toList,
        "KillSignal".toList ++ '=' :: stopSignal.toList] := by
  have hunit : "[Unit]\nDescription=".toList = "[Unit]".toList ++ '\n' :: ("Description".toList ++ ['=']) := by decide
  have hservice : "\n\n[Service]\nType=simple\nExecStart=".toList =
      '\n' :: '\n' :: ("[Service]".toList ++ '\n' :: ("Type".toList ++ '=' :: "simple".toList ++ '\n' :: ("ExecStart".toList ++ ['=']))) := by decide
  have hrestart : "\\\n         nRestart=on-failure\nRestartSec=5\nKillSignal=".toList =
      '\\' :: '\n' :: ("         nRestart=on-failure".toList ++ '\n' :: ("RestartSec".toList ++ '=' :: "5".toList ++ '\n' :: ("KillSignal".toList ++ ['=']))) := by
    decide
  have hjoined : (unitHead description execStart stopSignal).toList = ['\n'].intercalate
      ["[Unit]".toList, "Description".toList ++ '=' :: description.toList, [], "[Service]".toList, "Type".toList ++ '=' :: "simple".toList,
        "ExecStart".toList ++ '=' :: (execStart.toList ++ ['\\']), "         nRestart=on-failure".toList, "RestartSec".toList ++ '=' :: "5".toList,
        "KillSignal".toList ++ '=' :: stopSignal.toList] := by
    unfold unitHead
    simp only [String.toList_append, hunit, hservice, hrestart, List.intercalate_cons_cons, List.intercalate_singleton, List.append_assoc,
      List.cons_append, List.nil_append]
  rw [hjoined, List.splitOn_intercalate]
  · have hassign : ∀ {key value : List Char}, '\n' ∉ key → '\n' ∉ value → '\n' ∉ key ++ '=' :: value := fun hkey hvalue =>
      List.not_mem_append hkey (List.not_mem_cons_of_ne_of_not_mem (by decide) hvalue)
    have hslash : '\n' ∉ execStart.toList ++ ['\\'] := List.not_mem_append hexec.1 (by decide)
    simp only [List.forall_mem_cons]
    exact ⟨by decide, hassign (by decide) hdescription.1, by decide, by decide, by decide, hassign (by decide) hslash, by decide, by decide,
      hassign (by decide) hstop.1, nofun⟩
  · simp

/-- The policy of restarts is read as arguments of the command. -/
theorem direct_unit_said (h : env.generateDirectUnitFile entry manifestFlake = .ok text) (hcommand : env.getStr entry "command" = some command)
    (hdescription : UnitLine (env.description entry)) (hexec : UnitLine (env.execStart entry manifestFlake command))
    (hstop : UnitLine (env.stopSignal entry)) :
    UnitFile.read text = .error ⟨openHeader, [⟨"Unit", "Description", stripped (env.description entry)⟩, ⟨"Service", "Type", "simple"⟩,
      ⟨"Service", "ExecStart", stripped (env.execStart entry manifestFlake command ++ " nRestart=on-failure")⟩, ⟨"Service", "RestartSec", "5"⟩,
      ⟨"Service", "KillSignal", stripped (env.stopSignal entry)⟩]⟩ := by
  obtain ⟨command', hcommand', rfl⟩ := generateDirectUnitFile_ok h
  obtain rfl : command' = command := Option.some.inj (hcommand'.symm.trans hcommand)
  have hplain : ∀ l ∈ ["[Unit]".toList, [], "[Service]".toList], dropBlank l = l ∧ isComment l = false ∧ continues l = false := by decide
  have hkeys : ∀ key ∈ ["Description".toList, "Type".toList, "ExecStart".toList, "RestartSec".toList, "KillSignal".toList], isKey key = true := by decide
  simp only [List.forall_mem_cons] at hplain hkeys
  obtain ⟨hunit, hempty, hservice, -⟩ := hplain
  obtain ⟨hdescriptionKey, htypeKey, hexecKey, hsecKey, hsignalKey, -⟩ := hkeys
  have hsimple : "simple".toList.getLast? ≠ some '\\' := by decide
  have hfive : "5".toList.getLast? ≠ some '\\' := by decide
  have hnext : isComment (dropBlank "         nRestart=on-failure".toList) = false ∧
      (dropBlank "         nRestart=on-failure".toList).getLast? ≠ some '\\' := by decide
  have hrestart : dropBlank "         nRestart=on-failure".toList = "nRestart=on-failure".toList := by decide
  rw [read_unit, lines_unitHead hdescription hexec hstop, readLines]
  simp only [List.cons_append, List.nil_append]
  rw [joinLines_line hunit.1 hunit.2.1 hunit.2.2, joinLines_assign hdescriptionKey hdescription.2, joinLines_line hempty.1 hempty.2.1 hempty.2.2,
    joinLines_line hservice.1 hservice.2.1 hservice.2.2, joinLines_assign htypeKey hsimple, joinLines_assign_held hexecKey hexec.2 hnext.1 hnext.2,
    joinLines_assign hsecKey hfive, joinLines_assign hsignalKey hstop.2, joinLines_line hempty.1 hempty.2.1 hempty.2.2, hrestart, joinLines]
  have hheader : ∀ r : Reader, readLine r "[Unit]".toList = .ok ⟨some "Unit", r.said⟩ := fun r => rfl
  have hheader' : ∀ r : Reader, readLine r "[Service]".toList = .ok ⟨some "Service", r.said⟩ := fun r => rfl
  have hblank : ∀ r : Reader, readLine r [] = .ok r := fun r => rfl
  simp only [Option.toList_none, List.foldlM_cons, List.foldlM_nil, hheader, hheader', hblank, readLine_assign hdescriptionKey,
    readLine_assign htypeKey, readLine_assign hexecKey, readLine_assign hsecKey, readLine_assign hsignalKey, bind, Except.bind, pure, Except.pure]
  have hvalues : String.ofList (strip ['s', 'i', 'm', 'p', 'l', 'e']) = "simple" ∧ String.ofList (strip ['5']) = "5" := by decide
  simpa [stripped] using hvalues

/-! ## Never read back -/

theorem direct_unit_never (env : ServicesEnv) (entry : HomeServiceEntry) (manifestFlake : String) : ¬ UnitReadsBack env entry manifestFlake := by
  rintro ⟨command, text, -, htext, hread⟩
  obtain ⟨refused, hrefused⟩ := direct_unit_refused htext
  rw [hrefused] at hread
  cases hread

/-- The unit of a service with nothing but a command. -/
theorem restart_swallowed : (∃ text, directEnv.generateDirectUnitFile (commandService "a" "/bin/a") "" = .ok text ∧
      UnitFile.read text = .error ⟨openHeader, [⟨"Unit", "Description", "a"⟩, ⟨"Service", "Type", "simple"⟩,
        ⟨"Service", "ExecStart", "/bin/a nRestart=on-failure"⟩, ⟨"Service", "RestartSec", "5"⟩, ⟨"Service", "KillSignal", "SIGTERM"⟩]⟩) ∧
    ¬ ∀ (env : ServicesEnv) (entry : HomeServiceEntry) (manifestFlake : String), (env.getStr entry "command").isSome = true →
      (∀ key s, env.getStr entry key = some s → UnitLine s) → UnitReadsBack env entry manifestFlake := by
  constructor
  · obtain ⟨text, htext⟩ : ∃ text, directEnv.generateDirectUnitFile (commandService "a" "/bin/a") "" = .ok text := ⟨_, rfl⟩
    have hdescription : directEnv.description (commandService "a" "/bin/a") = "a" := rfl
    have hexec : directEnv.execStart (commandService "a" "/bin/a") "" "/bin/a" = "/bin/a" := rfl
    have hstop : directEnv.stopSignal (commandService "a" "/bin/a") = "SIGTERM" := rfl
    have hsaid := @direct_unit_said directEnv (commandService "a" "/bin/a") "" text "/bin/a" htext rfl (by rw [hdescription]; decide)
      (by rw [hexec]; decide) (by rw [hstop]; decide)
    have hstripped : stripped "a" = "a" ∧ stripped ("/bin/a" ++ " nRestart=on-failure") = "/bin/a nRestart=on-failure" ∧
        stripped "SIGTERM" = "SIGTERM" := by decide
    rw [hdescription, hexec, hstop, hstripped.1, hstripped.2.1, hstripped.2.2] at hsaid
    exact ⟨text, htext, hsaid⟩
  · intro h
    refine direct_unit_never directEnv (commandService "a" "/bin/a") "" (h _ _ _ rfl fun key s hs => ?_)
    have hline : UnitLine "/bin/a" := by decide
    unfold ServicesEnv.getStr at hs
    obtain ⟨v, hget, hv⟩ := Option.bind_eq_some_iff.mp hs
    obtain ⟨e, he, rfl⟩ := Option.map_eq_some_iff.mp hget
    obtain rfl := List.mem_singleton.mp (List.mem_of_find?_eq_some he)
    cases hv
    exact hline

end Ekapkgs
