import Ekapkgs.Lib.Runs
import Mathlib

/-!
# Applying package changes in the background

`background_apply.rs` and `commands/home.rs`: a package mutation starts a timer,
or leaves a flag for the `home switch` that is running.
-/

namespace Ekapkgs
open Runs

/-- The statements of `schedule_home_apply`. -/
inductive SchedulePhase where
  | stopTimer
  | isActive
  | writeFlag
  | systemdRun
  deriving DecidableEq, Repr

/-- The statements of `cmd_switch`. -/
inductive SwitchPhase where
  | buildHome
  | activate
  -- check_and_clear_pending
  | flagExists
  | removeFlag
  | schedule (phase : SchedulePhase)
  | exit
  deriving DecidableEq, Repr

/-- A `home switch` in the service, and how many mutations had been saved when it started. -/
structure HomeSwitch where
  started : Nat
  phase : SwitchPhase
  deriving DecidableEq, Repr

structure ApplyState where
  /-- How many mutations of the manifest have been saved. -/
  manifest : Nat
  timer : Bool
  applyPending : Bool
  service : Option HomeSwitch
  /-- The process that holds the manifest's lock. -/
  mutation : Option SchedulePhase
  /-- The completed applies, each by its `started`. -/
  completed : List Nat
  deriving DecidableEq, Repr

inductive ApplyStep where
  | save
  | schedule
  | timerFires
  | switch
  deriving DecidableEq, Repr

namespace ApplyState

def initial (applyPending : Bool) : ApplyState := ⟨0, false, applyPending, none, none, []⟩

def scheduleNext (s : ApplyState) : SchedulePhase → ApplyState × Option SchedulePhase
  | .stopTimer => ({ s with timer := false }, some .isActive)
  | .isActive => (s, some (if s.service.isSome then .writeFlag else .systemdRun))
  | .writeFlag => ({ s with applyPending := true }, none)
  | .systemdRun => ({ s with timer := true }, none)

def switchNext (s : ApplyState) (run : HomeSwitch) : ApplyState :=
  match run.phase with
  | .buildHome => { s with service := some { run with phase := .activate } }
  | .activate => { s with service := some { run with phase := .flagExists }, completed := run.started :: s.completed }
  | .flagExists => { s with service := some { run with phase := if s.applyPending then .removeFlag else .exit } }
  | .removeFlag => { s with service := some { run with phase := .schedule .stopTimer }, applyPending := false }
  | .schedule phase =>
    let (t, next) := s.scheduleNext phase
    { t with service := some { run with phase := next.elim .exit .schedule } }
  | .exit => { s with service := none }

/-- No timer, no apply and no mutation is under way. -/
def Quiescent (s : ApplyState) : Prop := s.timer = false ∧ s.service = none ∧ s.mutation = none

/-- The last mutation precedes the start of a completed apply. -/
def LastApplied (s : ApplyState) : Prop := s.manifest = 0 ∨ s.manifest ∈ s.completed

/-- An apply that is running has started after the last mutation. -/
def InTime (s : ApplyState) : Prop := ∀ run, s.service = some run → run.started = s.manifest

end ApplyState

def applyNext (s : ApplyState) : ApplyStep → Option ApplyState
  | .save => if s.mutation.isNone then some { s with manifest := s.manifest + 1, mutation := some .stopTimer } else none
  | .schedule => s.mutation.map fun phase =>
    let (t, next) := s.scheduleNext phase
    { t with mutation := next }
  | .timerFires =>
    if s.timer then some { s with timer := false, service := some (s.service.getD ⟨s.manifest, .buildHome⟩) } else none
  | .switch => s.service.map s.switchNext

/-! ## What holds in every state -/

structure ApplyInv (s : ApplyState) : Prop where
  completed : ∀ v ∈ s.completed, v ≤ s.manifest
  started : ∀ run, s.service = some run → run.started ≤ s.manifest ∧ ∀ v ∈ s.completed, v ≤ run.started
  /-- Past its activation, an apply is complete. -/
  activated : ∀ run, s.service = some run → run.phase = .buildHome ∨ run.phase = .activate ∨ run.started ∈ s.completed
  /-- The service is active to the process inside it. -/
  inside : ∀ run, s.service = some run → run.phase ≠ .schedule .systemdRun
  timer : s.timer = true → s.service = none
  asking : s.mutation = some .isActive → s.timer = false
  starting : s.mutation = some .systemdRun → s.timer = false ∧ s.service = none

variable {s s' : ApplyState} {a : ApplyStep}

theorem applyInv_initial (applyPending : Bool) : ApplyInv (.initial applyPending) := by
  constructor <;> simp [ApplyState.initial]

theorem applyInv_save (h : ApplyInv s) : ApplyInv { s with manifest := s.manifest + 1, mutation := some .stopTimer } where
  completed v hv := Nat.le_succ_of_le (h.completed v hv)
  started run hrun := ⟨Nat.le_succ_of_le (h.started run hrun).1, (h.started run hrun).2⟩
  activated := h.activated
  inside := h.inside
  timer := h.timer
  asking := nofun
  starting := nofun

theorem applyInv_schedule (h : ApplyInv s) {phase : SchedulePhase} (hphase : s.mutation = some phase) :
    ApplyInv { (s.scheduleNext phase).1 with mutation := (s.scheduleNext phase).2 } := by
  cases phase with
  | stopTimer => exact { h with timer := nofun, asking := fun _ => rfl, starting := nofun }
  | isActive =>
    refine { h with asking := fun hask => ?_, starting := fun hstart => ⟨h.asking hphase, ?_⟩ }
    · cases hservice : s.service <;> simp [ApplyState.scheduleNext, hservice] at hask
    · cases hservice : s.service with
      | none => exact hservice
      | some run => simp [ApplyState.scheduleNext, hservice] at hstart
  | writeFlag => exact { h with asking := nofun, starting := nofun }
  | systemdRun => exact { h with timer := fun _ => (h.starting hphase).2, asking := nofun, starting := nofun }

theorem applyInv_timerFires (h : ApplyInv s) (htimer : s.timer = true) :
    ApplyInv { s with timer := false, service := some (s.service.getD ⟨s.manifest, .buildHome⟩) } := by
  rw [h.timer htimer]
  refine { h with started := ?_, activated := ?_, inside := ?_, timer := nofun, asking := fun _ => rfl, starting := fun hstart => ?_ }
  · rintro run ⟨⟩
    exact ⟨Nat.le_refl _, h.completed⟩
  · rintro run ⟨⟩
    exact .inl rfl
  · rintro run ⟨⟩
    nofun
  · rw [(h.starting hstart).1] at htimer
    cases htimer

theorem applyInv_switch (h : ApplyInv s) {run : HomeSwitch} (hrun : s.service = some run) : ApplyInv (s.switchNext run) := by
  have htimer : s.timer = false := by
    cases ht : s.timer with
    | false => rfl
    | true => rw [h.timer ht] at hrun; cases hrun
  have hmutation : s.mutation ≠ some .systemdRun := by
    intro hstart
    rw [(h.starting hstart).2] at hrun
    cases hrun
  have hstarted := h.started run hrun
  have hactivated := h.activated run hrun
  -- the run goes on, past its activation or before it
  have hmove : ∀ {phase : SwitchPhase} {flag : Bool}, (phase = .activate ∨ run.started ∈ s.completed) → phase ≠ .schedule .systemdRun →
      ApplyInv { s with service := some { run with phase := phase }, applyPending := flag } := by
    intro phase flag hpast hinside
    refine { h with started := ?_, activated := ?_, inside := ?_, timer := ?_, starting := fun hstart => absurd hstart hmutation }
    · rintro _ ⟨⟩
      exact hstarted
    · rintro _ ⟨⟩
      exact .inr hpast
    · rintro _ ⟨⟩
      exact hinside
    · intro ht
      rw [htimer] at ht
      cases ht
  have hdone (hb : run.phase ≠ .buildHome) (ha : run.phase ≠ .activate) : run.started ∈ s.completed :=
    (hactivated.resolve_left hb).resolve_left ha
  unfold ApplyState.switchNext
  cases hphase : run.phase with
  | buildHome => exact hmove (.inl rfl) nofun
  | activate =>
    refine { h with completed := ?_, started := ?_, activated := ?_, inside := ?_, timer := ?_, starting := fun hstart => absurd hstart hmutation }
    · exact List.forall_mem_cons.mpr ⟨hstarted.1, h.completed⟩
    · rintro _ ⟨⟩
      exact ⟨hstarted.1, List.forall_mem_cons.mpr ⟨Nat.le_refl _, hstarted.2⟩⟩
    · rintro _ ⟨⟩
      exact .inr (.inr List.mem_cons_self)
    · rintro _ ⟨⟩
      nofun
    · intro ht
      rw [htimer] at ht
      cases ht
  | flagExists =>
    refine hmove (.inr (hdone (by rw [hphase]; nofun) (by rw [hphase]; nofun))) ?_
    split <;> nofun
  | removeFlag => exact hmove (.inr (hdone (by rw [hphase]; nofun) (by rw [hphase]; nofun))) nofun
  | schedule phase =>
    have hcompleted := hdone (by rw [hphase]; nofun) (by rw [hphase]; nofun)
    cases phase with
    | stopTimer =>
      have hnext : ApplyInv { s with service := some { run with phase := .schedule .isActive } } := hmove (.inr hcompleted) nofun
      rw [htimer] at hnext
      exact hnext
    | isActive =>
      dsimp only [ApplyState.scheduleNext]
      rw [hrun]
      exact hmove (.inr hcompleted) nofun
    | writeFlag => exact hmove (.inr hcompleted) nofun
    | systemdRun => exact absurd hphase (h.inside run hrun)
  | exit =>
    exact { h with
      started := nofun, activated := nofun, inside := nofun, timer := fun _ => rfl, starting := fun hstart => absurd hstart hmutation }

theorem applyInv_step (h : ApplyInv s) (hstep : applyNext s a = some s') : ApplyInv s' := by
  unfold applyNext at hstep
  cases a with
  | save =>
    obtain ⟨-, hs⟩ := Option.ite_none_right_eq_some.mp hstep
    cases hs
    exact applyInv_save h
  | schedule =>
    obtain ⟨phase, hphase, hs⟩ := Option.map_eq_some_iff.mp hstep
    cases hs
    exact applyInv_schedule h hphase
  | timerFires =>
    obtain ⟨htimer, hs⟩ := Option.ite_none_right_eq_some.mp hstep
    cases hs
    exact applyInv_timerFires h htimer
  | switch =>
    obtain ⟨run, hrun, hs⟩ := Option.map_eq_some_iff.mp hstep
    cases hs
    exact applyInv_switch h hrun

theorem applyInv_run {applyPending : Bool} {as : List ApplyStep} (hrun : Run (stepOf applyNext) (.initial applyPending) as s) : ApplyInv s :=
  hrun.invariant (fun _ _ _ h hstep => applyInv_step h hstep) (applyInv_initial applyPending)

/-! ## After the last mutation's query -/

/-- The last mutation has asked whether the service is active. -/
def Asked (s : ApplyState) : Prop := s.mutation ≠ some .stopTimer ∧ s.mutation ≠ some .isActive

/-- An apply that starts after the last mutation is complete or still to come. -/
def Coming (s : ApplyState) : Prop :=
  s.manifest ∈ s.completed ∨ s.timer = true ∨ s.mutation = some .systemdRun ∨
    ∃ run, s.service = some run ∧ run.started = s.manifest

/-- No apply has started after the last mutation, and none will. -/
structure Lost (s : ApplyState) : Prop where
  saved : s.manifest ≠ 0
  completed : s.manifest ∉ s.completed
  timer : s.timer = false
  mutation : s.mutation ≠ some .systemdRun
  started : ∀ run, s.service = some run → run.started < s.manifest

theorem switchNext_frame (s : ApplyState) (run : HomeSwitch) :
    (s.switchNext run).manifest = s.manifest ∧ (s.switchNext run).mutation = s.mutation := by
  unfold ApplyState.switchNext
  cases run.phase with
  | schedule phase => cases phase <;> exact ⟨rfl, rfl⟩
  | _ => exact ⟨rfl, rfl⟩

/-- The service ends, or goes on as the same run. -/
theorem switchNext_service (s : ApplyState) (run : HomeSwitch) : (s.switchNext run).service = none ∧ run.phase = .exit ∨
    ∃ run', (s.switchNext run).service = some run' ∧ run'.started = run.started := by
  unfold ApplyState.switchNext
  cases run.phase with
  | schedule phase => cases phase <;> exact .inr ⟨_, rfl, rfl⟩
  | exit => exact .inl ⟨rfl, rfl⟩
  | _ => exact .inr ⟨_, rfl, rfl⟩

theorem switchNext_completed (s : ApplyState) (run : HomeSwitch) :
    (s.switchNext run).completed = s.completed ∨ (s.switchNext run).completed = run.started :: s.completed := by
  unfold ApplyState.switchNext
  cases run.phase with
  | schedule phase => cases phase <;> exact .inl rfl
  | activate => exact .inr rfl
  | _ => exact .inl rfl

theorem asked_step (h : Asked s) (ha : a ≠ .save) (hstep : applyNext s a = some s') : Asked s' := by
  unfold applyNext at hstep
  cases a with
  | save => exact absurd rfl ha
  | schedule =>
    obtain ⟨phase, hphase, hs⟩ := Option.map_eq_some_iff.mp hstep
    cases hs
    cases phase with
    | stopTimer => exact absurd hphase h.1
    | isActive => exact absurd hphase h.2
    | writeFlag | systemdRun => exact ⟨nofun, nofun⟩
  | timerFires =>
    obtain ⟨-, hs⟩ := Option.ite_none_right_eq_some.mp hstep
    cases hs
    exact h
  | switch =>
    obtain ⟨run, hrun, hs⟩ := Option.map_eq_some_iff.mp hstep
    cases hs
    unfold Asked
    rw [(switchNext_frame s run).2]
    exact h

theorem coming_step (hinv : ApplyInv s) (hasked : Asked s) (h : Coming s) (ha : a ≠ .save) (hstep : applyNext s a = some s') :
    Coming s' := by
  unfold applyNext at hstep
  cases a with
  | save => exact absurd rfl ha
  | schedule =>
    obtain ⟨phase, hphase, hs⟩ := Option.map_eq_some_iff.mp hstep
    cases hs
    cases phase with
    | stopTimer => exact absurd hphase hasked.1
    | isActive => exact absurd hphase hasked.2
    | writeFlag =>
      rcases h with h | h | h | h
      · exact .inl h
      · exact .inr (.inl h)
      · rw [hphase] at h; cases h
      · exact .inr (.inr (.inr h))
    | systemdRun => exact .inr (.inl rfl)
  | timerFires =>
    obtain ⟨htimer, hs⟩ := Option.ite_none_right_eq_some.mp hstep
    cases hs
    exact .inr (.inr (.inr ⟨_, rfl, by rw [hinv.timer htimer]; rfl⟩))
  | switch =>
    obtain ⟨run, hrun, hs⟩ := Option.map_eq_some_iff.mp hstep
    cases hs
    have hkept : s.manifest ∈ s.completed → s.manifest ∈ (s.switchNext run).completed := by
      intro hmem
      rcases switchNext_completed s run with hc | hc
      · rw [hc]; exact hmem
      · rw [hc]; exact List.mem_cons_of_mem _ hmem
    unfold Coming
    rw [(switchNext_frame s run).1]
    rcases h with h | h | h | ⟨run', hrun', hstarted⟩
    · exact .inl (hkept h)
    · rw [hinv.timer h] at hrun; cases hrun
    · rw [(hinv.starting h).2] at hrun; cases hrun
    · obtain rfl := Option.some.inj (hrun'.symm.trans hrun)
      rcases switchNext_service s run' with ⟨-, hexit⟩ | ⟨run'', hrun'', hsame⟩
      · have hactivated := hinv.activated run' hrun
        rw [hexit] at hactivated
        have hcompleted := (hactivated.resolve_left nofun).resolve_left nofun
        rw [hstarted] at hcompleted
        exact .inl (hkept hcompleted)
      · exact .inr (.inr (.inr ⟨run'', hrun'', hsame.trans hstarted⟩))

theorem Lost.step (hinv : ApplyInv s) (hasked : Asked s) (h : Lost s) (ha : a ≠ .save) (hstep : applyNext s a = some s') : Lost s' := by
  unfold applyNext at hstep
  cases a with
  | save => exact absurd rfl ha
  | schedule =>
    obtain ⟨phase, hphase, hs⟩ := Option.map_eq_some_iff.mp hstep
    cases hs
    cases phase with
    | stopTimer => exact absurd hphase hasked.1
    | isActive => exact absurd hphase hasked.2
    | writeFlag => exact { h with mutation := nofun }
    | systemdRun => exact absurd hphase h.mutation
  | timerFires =>
    obtain ⟨htimer, -⟩ := Option.ite_none_right_eq_some.mp hstep
    rw [h.timer] at htimer
    cases htimer
  | switch =>
    obtain ⟨run, hrun, hs⟩ := Option.map_eq_some_iff.mp hstep
    cases hs
    obtain ⟨hmanifest, hmutation⟩ := switchNext_frame s run
    refine ⟨by rw [hmanifest]; exact h.saved, ?_, ?_, by rw [hmutation]; exact h.mutation, fun run' hrun' => ?_⟩
    · rw [hmanifest]
      rcases switchNext_completed s run with hc | hc
      · rw [hc]; exact h.completed
      · rw [hc, List.mem_cons, not_or]
        exact ⟨Nat.ne_of_gt (h.started run hrun), h.completed⟩
    · unfold ApplyState.switchNext
      cases hphase : run.phase with
      | schedule phase =>
        cases phase with
        | systemdRun => exact absurd hphase (hinv.inside run hrun)
        | stopTimer => rfl
        | isActive | writeFlag => exact h.timer
      | _ => exact h.timer
    · rw [hmanifest]
      rcases switchNext_service s run with ⟨hnone, -⟩ | ⟨run'', hrun'', hsame⟩
      · rw [hnone] at hrun'; cases hrun'
      · obtain rfl := Option.some.inj (hrun''.symm.trans hrun')
        rw [hsame]
        exact h.started run hrun

/-! ## Every run -/

/-- The query of the last mutation decides what becomes of it. -/
theorem decided (hinv : ApplyInv s) (hask : s.mutation = some .isActive) (hstep : applyNext s .schedule = some s') :
    Asked s' ∧ (s.InTime → Coming s') ∧ (¬ s.InTime → Lost s') := by
  unfold applyNext at hstep
  rw [hask, Option.map_some] at hstep
  cases hstep
  cases hservice : s.service with
  | none =>
    have hintime : s.InTime := fun run hrun => by rw [hservice] at hrun; cases hrun
    have hnext : s.scheduleNext .isActive = (s, some .systemdRun) := by simp [ApplyState.scheduleNext, hservice]
    rw [hnext]
    exact ⟨⟨nofun, nofun⟩, fun _ => .inr (.inr (.inl rfl)), fun h => absurd hintime h⟩
  | some run =>
    obtain ⟨hle, hcompleted⟩ := hinv.started run hservice
    have hnext : s.scheduleNext .isActive = (s, some .writeFlag) := by simp [ApplyState.scheduleNext, hservice]
    rw [hnext]
    refine ⟨⟨nofun, nofun⟩, fun h => .inr (.inr (.inr ⟨run, hservice, h run hservice⟩)), fun h => ?_⟩
    have hlt : run.started < s.manifest := by
      refine Nat.lt_of_le_of_ne hle fun heq => h fun run' hrun' => ?_
      obtain rfl := Option.some.inj (hservice.symm.trans hrun')
      exact heq
    refine ⟨Nat.ne_zero_of_lt hlt, fun hmem => Nat.not_le_of_lt hlt (hcompleted _ hmem), hinv.asking hask, nofun, fun run' hrun' => ?_⟩
    obtain rfl := Option.some.inj (hservice.symm.trans hrun')
    exact hlt

theorem coming_run {as : List ApplyStep} (hrun : Run (stepOf applyNext) s as s') (hsave : .save ∉ as) (hinv : ApplyInv s)
    (hasked : Asked s) (h : Coming s) : Coming s' := by
  induction hrun with
  | nil s => exact h
  | cons hstep _ ih =>
    obtain ⟨ha, has⟩ := not_or.mp (mt List.mem_cons.mpr hsave)
    have hne := fun heq => ha (Eq.symm heq)
    exact ih has (applyInv_step hinv hstep) (asked_step hasked hne hstep) (coming_step hinv hasked h hne hstep)

theorem Lost.run {as : List ApplyStep} (hrun : Run (stepOf applyNext) s as s') (hsave : .save ∉ as) (hinv : ApplyInv s)
    (hasked : Asked s) (h : Lost s) : Lost s' := by
  induction hrun with
  | nil s => exact h
  | cons hstep _ ih =>
    obtain ⟨ha, has⟩ := not_or.mp (mt List.mem_cons.mpr hsave)
    have hne := fun heq => ha (Eq.symm heq)
    exact ih has (applyInv_step hinv hstep) (asked_step hasked hne hstep) (h.step hinv hasked hne hstep)

/-- Where the last mutation stands, by the steps so far. -/
inductive LastMutation (applyPending : Bool) (as : List ApplyStep) (s : ApplyState) : Prop where
  | nothing (hmanifest : s.manifest = 0) (hmutation : s.mutation = none)
  | asking (hmutation : s.mutation = some .stopTimer ∨ s.mutation = some .isActive)
  | asked (before after : List ApplyStep) (t u : ApplyState) (hsteps : as = before ++ .schedule :: after) (hsave : .save ∉ after)
      (hbefore : Run (stepOf applyNext) (.initial applyPending) before t) (hask : t.mutation = some .isActive)
      (hquery : applyNext t .schedule = some u) (hafter : Run (stepOf applyNext) u after s)

theorem lastMutation_step {applyPending : Bool} {as : List ApplyStep} (hrun : Run (stepOf applyNext) (.initial applyPending) as s)
    (h : LastMutation applyPending as s) (hstep : applyNext s a = some s') : LastMutation applyPending (as ++ [a]) s' := by
  -- steps of the service and of the timer
  have hother : a ≠ .save → s'.manifest = s.manifest → s'.mutation = s.mutation → LastMutation applyPending (as ++ [a]) s' := by
    intro ha hmanifest hmutation
    cases h with
    | nothing hzero hnone => exact .nothing (hmanifest.trans hzero) (hmutation.trans hnone)
    | asking hask => rw [← hmutation] at hask; exact .asking hask
    | asked before after t u hsteps hsave hbefore hask hquery hafter =>
      refine .asked before (after ++ [a]) t u (by simp [hsteps]) ?_ hbefore hask hquery (hafter.append (.cons hstep (.nil _)))
      rw [List.mem_append, List.mem_singleton, not_or]
      exact ⟨hsave, Ne.symm ha⟩
  cases a with
  | save =>
    obtain ⟨-, hs⟩ := Option.ite_none_right_eq_some.mp hstep
    cases hs
    exact .asking (.inl rfl)
  | schedule =>
    cases h with
    | nothing _ hnone =>
      unfold applyNext at hstep
      rw [hnone] at hstep
      cases hstep
    | asking hask =>
      rcases hask with hstop | hask
      · unfold applyNext at hstep
        rw [hstop] at hstep
        cases hstep
        exact .asking (.inr rfl)
      · exact .asked as [] s s' rfl List.not_mem_nil hrun hask hstep (.nil _)
    | asked before after t u hsteps hsave hbefore hask hquery hafter =>
      have hlaststep : Run (stepOf applyNext) s [.schedule] s' := .cons hstep (.nil _)
      refine .asked before (after ++ [.schedule]) t u (by simp [hsteps]) ?_ hbefore hask hquery (hafter.append hlaststep)
      rw [List.mem_append, List.mem_singleton, not_or]
      exact ⟨hsave, nofun⟩
  | timerFires =>
    obtain ⟨-, hs⟩ := Option.ite_none_right_eq_some.mp hstep
    cases hs
    exact hother nofun rfl rfl
  | switch =>
    obtain ⟨run, -, hs⟩ := Option.map_eq_some_iff.mp hstep
    cases hs
    exact hother nofun (switchNext_frame s run).1 (switchNext_frame s run).2

/-- When everything has come to rest, the last mutation is applied exactly if no
older apply was running when it asked. -/
theorem lastApplied_iff {applyPending : Bool} {as : List ApplyStep} (hrun : Run (stepOf applyNext) (.initial applyPending) as s)
    (hquiet : s.Quiescent) : s.LastApplied ↔
      ∀ before after t, as = before ++ .schedule :: after → .save ∉ after →
        Run (stepOf applyNext) (.initial applyPending) before t → t.mutation = some .isActive → t.InTime := by
  obtain ⟨htimer, hservice, hmutation⟩ := hquiet
  constructor
  · rintro happlied before after t rfl hsave hbefore hask
    obtain ⟨t', hbefore', hrest⟩ := hrun.of_append
    obtain rfl := run_unique hbefore hbefore'
    cases hrest with
    | cons hquery hafter =>
      have hinv := applyInv_run hbefore
      obtain ⟨hasked, -, hlost⟩ := decided hinv hask hquery
      by_contra hlate
      have hend := (hlost hlate).run hafter hsave (applyInv_step hinv hquery) hasked
      exact happlied.elim hend.saved hend.completed
  · intro h
    have hlast : LastMutation applyPending as s := hrun.history
      (fun _ _ _ _ hbefore hI hstep => lastMutation_step hbefore hI hstep) (.nothing rfl rfl)
    cases hlast with
    | nothing hmanifest => exact .inl hmanifest
    | asking hask => rw [hmutation] at hask; rcases hask with hask | hask <;> cases hask
    | asked before after t u hsteps hsave hbefore hask hquery hafter =>
      have hinv := applyInv_run hbefore
      obtain ⟨hasked, hcoming, -⟩ := decided hinv hask hquery
      have hend := coming_run hafter hsave (applyInv_step hinv hquery) hasked (hcoming (h before after t hsteps hsave hbefore hask))
      rcases hend with hend | hend | hend | ⟨run, hend, -⟩
      · exact .inr hend
      · rw [htimer] at hend; cases hend
      · rw [hmutation] at hend; cases hend
      · rw [hservice] at hend; cases hend

/-- Two mutations: the apply of the first has started before the second, which
finds it active. -/
theorem flagged_mutation_lost : ¬ ∀ (as : List ApplyStep) (s : ApplyState), Run (stepOf applyNext) (.initial false) as s →
    s.Quiescent → s.LastApplied := by
  intro h
  have hrun : Run (stepOf applyNext) (.initial false)
      [.save, .schedule, .schedule, .schedule, .timerFires, .switch, .save, .schedule, .schedule, .schedule,
        .switch, .switch, .switch, .switch, .switch, .switch, .switch] ⟨2, false, true, none, none, [1]⟩ := run_of_foldlM (by decide)
  have happlied := h _ _ hrun ⟨rfl, rfl, rfl⟩
  exact absurd happlied (by unfold ApplyState.LastApplied; decide)

/-- A mutation that finds no apply running is applied. -/
theorem lastApplied_sample : ∃ s : ApplyState, s.Quiescent ∧ (s.LastApplied ↔
    ∀ before after t, [ApplyStep.save, .schedule, .schedule, .schedule, .timerFires, .switch, .switch, .switch, .switch] =
        before ++ .schedule :: after → .save ∉ after →
      Run (stepOf applyNext) (.initial false) before t → t.mutation = some .isActive → t.InTime) := by
  have hrun : Run (stepOf applyNext) (.initial false)
      [.save, .schedule, .schedule, .schedule, .timerFires, .switch, .switch, .switch, .switch] ⟨1, false, false, none, none, [1]⟩ :=
    run_of_foldlM (by decide)
  exact ⟨_, ⟨rfl, rfl, rfl⟩, lastApplied_iff hrun ⟨rfl, rfl, rfl⟩⟩

end Ekapkgs
