import Ekapkgs.Text
import Ekapkgs.Lib.Runs

/-!
# Update diffs that are interrupted

`commands/flake.rs`: `cmd_update_diff` lets nix change `flake.lock` and puts it
back from `flake.lock.bak`. A run may be killed at any point.
-/

namespace Ekapkgs
open Runs

/-! ## One run, statement by statement -/

inductive DiffError where
  | report (text : String)
  | io
  | nix
  deriving DecidableEq, Repr

inductive Ending where
  | returned
  | error (e : DiffError)
  | killed
  deriving DecidableEq, Repr

/-- What `cmd_update_diff` does next. -/
inductive DiffPhase where
  | lockExists
  -- recover_stale_flake_lock_backup
  | bakExists
  | recoverRead
  | recoverWrite (backup : Bytes)
  | recoverRemove
  -- FlakeLockGuard::new
  | newRead
  | newWrite (backup : Bytes)
  | evalOld
  | flakeUpdate
  | flakeLockUpdate
  | evalNew
  | restoreRead (newPaths : Bool)
  | restoreWrite (newPaths : Bool) (backup : Bytes)
  | disarm (newPaths : Bool)
  -- drop of an armed guard
  | dropRead (e : DiffError)
  | dropWrite (e : DiffError) (backup : Bytes)
  | dropRemove (e : DiffError)
  deriving DecidableEq, Repr

inductive DiffProcess where
  | running (phase : DiffPhase)
  | ended (ending : Ending)
  deriving DecidableEq, Repr

structure DiffState where
  lock : Option Bytes
  bak : Option Bytes
  process : DiffProcess
  deriving DecidableEq, Repr

inductive DiffStep where
  | spawn
  /-- The file operation is carried out. -/
  | done
  /-- It fails; a write has opened the file and left this much of its data. -/
  | fails (written : Option Nat)
  /-- The nix command ends, and may have written flake.lock. -/
  | nix (lock : Option Bytes) (success : Bool)
  | kill (written : Option Nat) (lock : Option Bytes)
  deriving DecidableEq, Repr

namespace DiffState

def goto (s : DiffState) (phase : DiffPhase) : DiffState := { s with process := .running phase }

def finish (s : DiffState) (ending : Ending) : DiffState := { s with process := .ended ending }

/-- What is left of a file whose writing stops. -/
def interrupted (old : Option Bytes) (data : Bytes) : Option Nat → Option Bytes
  | none => old
  | some n => some (data.take n)

def cut (s : DiffState) (written : Option Nat) : DiffPhase → DiffState
  | .recoverWrite backup | .restoreWrite _ backup | .dropWrite _ backup => { s with lock := interrupted s.lock backup written }
  | .newWrite backup => { s with bak := interrupted s.bak backup written }
  | _ => s

def done (s : DiffState) : DiffPhase → Option DiffState
  | .lockExists =>
    if s.lock.isSome then some (s.goto .bakExists)
    else some (s.finish (.error (.report "flake.lock not found in current directory")))
  | .bakExists => some (s.goto (if s.bak.isSome then .recoverRead else .newRead))
  | .recoverRead => some (s.goto (s.bak.elim .newRead .recoverWrite))
  | .recoverWrite backup => some ({ s with lock := some backup }.goto .recoverRemove)
  | .recoverRemove => some ({ s with bak := none }.goto .newRead)
  | .newRead => some (s.lock.elim (s.finish (.error .io)) fun backup => s.goto (.newWrite backup))
  | .newWrite backup => some ({ s with bak := some backup }.goto .evalOld)
  | .restoreRead newPaths => some (s.goto (s.bak.elim (.dropRead .io) (.restoreWrite newPaths)))
  | .restoreWrite newPaths backup => some ({ s with lock := some backup }.goto (.disarm newPaths))
  | .disarm newPaths => some ({ s with bak := none }.finish (if newPaths then .returned else .error .nix))
  | .dropRead e => some (s.bak.elim (s.finish (.error e)) fun backup => s.goto (.dropWrite e backup))
  | .dropWrite e backup => some ({ s with lock := some backup }.goto (.dropRemove e))
  | .dropRemove e => some ({ s with bak := none }.finish (.error e))
  | .evalOld | .flakeUpdate | .flakeLockUpdate | .evalNew => none

def fails (s : DiffState) : DiffPhase → Option DiffState
  | .lockExists => some (s.finish (.error (.report "flake.lock not found in current directory")))
  | .bakExists | .recoverRead | .recoverWrite _ | .recoverRemove => some (s.goto .newRead)
  | .newRead | .newWrite _ => some (s.finish (.error .io))
  | .restoreRead _ | .restoreWrite _ _ => some (s.goto (.dropRead .io))
  | .disarm newPaths => some (s.finish (if newPaths then .returned else .error .nix))
  | .dropWrite e _ => some (s.goto (.dropRemove e))
  | .dropRead e | .dropRemove e => some (s.finish (.error e))
  | .evalOld | .flakeUpdate | .flakeLockUpdate | .evalNew => none

def nixEnds (s : DiffState) (success : Bool) : DiffPhase → Option DiffState
  | .evalOld => some (s.goto (if success then .flakeUpdate else .dropRead .nix))
  | .flakeUpdate => some (s.goto (if success then .evalNew else .flakeLockUpdate))
  | .flakeLockUpdate => some (s.goto .evalNew)
  | .evalNew => some (s.goto (.restoreRead success))
  | _ => none

def initial (c : Bytes) : DiffState := ⟨some c, none, .ended .returned⟩

end DiffState

def DiffPhase.isNix : DiffPhase → Bool
  | .evalOld | .flakeUpdate | .flakeLockUpdate | .evalNew => true
  | _ => false

def diffNext (s : DiffState) (a : DiffStep) : Option DiffState :=
  match s.process with
  | .ended _ => if a = .spawn then some (s.goto .lockExists) else none
  | .running phase =>
    match a with
    | .spawn => none
    | .done => s.done phase
    | .fails written => (s.cut written phase).fails phase
    | .nix lock success => ({ s with lock := lock.or s.lock }.nixEnds success phase)
    | .kill written lock => some (({ s.cut written phase with
        lock := if phase.isNix then lock.or s.lock else (s.cut written phase).lock }).finish .killed)

/-! ## What must not go wrong -/

/-- The step leaves this of the file that is being written. -/
def DiffStep.written : DiffStep → Option (Option Nat)
  | .fails written => some written
  | .kill written _ => some written
  | _ => none

def DiffStep.isFailure : DiffStep → Bool
  | .fails _ => true
  | _ => false

/-- The backup is written whole or not at all; an I/O error strikes neither the
recovery nor the drop of the guard while flake.lock differs from the backup. -/
def DiffSafe (s : DiffState) (a : DiffStep) : Prop :=
  match s.process with
  | .running (.newWrite backup) =>
    ∀ w ∈ a.written, DiffState.interrupted s.bak backup w = none ∨ DiffState.interrupted s.bak backup w = some backup
  | .running .bakExists | .running .recoverRead => a.isFailure → s.bak = none ∨ s.lock = s.bak
  | .running (.recoverWrite backup) | .running (.dropWrite _ backup) =>
    a.isFailure → ∀ w ∈ a.written, DiffState.interrupted s.lock backup w = some backup
  | _ => True

instance (s : DiffState) (a : DiffStep) : Decidable (DiffSafe s a) := by
  unfold DiffSafe
  split <;> infer_instance

/-- The run is not killed, and no I/O error takes its last chance to restore
the file or to remove the backup. -/
def Undisturbed (s : DiffState) : DiffStep → Prop
  | .kill _ _ => False
  | .fails _ =>
    match s.process with
    | .running .recoverRemove | .running (.restoreRead _) | .running (.restoreWrite _ _) => True
    | _ => False
  | _ => True

instance (s : DiffState) (a : DiffStep) : Decidable (Undisturbed s a) := by
  unfold Undisturbed
  split <;> first | infer_instance | (split <;> infer_instance)

/-! ## What the two files hold -/

/-- flake.lock can be put back: it holds `c`, or the backup does. -/
def Recoverable (c : Bytes) (s : DiffState) : Prop := s.lock = some c ∧ s.bak = none ∨ s.bak = some c ∧ s.lock.isSome

def DiffPhase.Sound (c : Bytes) (s : DiffState) : DiffPhase → Prop
  | .lockExists | .bakExists => Recoverable c s
  | .recoverRead | .evalOld | .flakeUpdate | .flakeLockUpdate | .evalNew | .restoreRead _ | .dropRead _ => s.bak = some c ∧ s.lock.isSome
  | .recoverWrite backup | .restoreWrite _ backup | .dropWrite _ backup => backup = c ∧ s.bak = some c ∧ s.lock.isSome
  | .recoverRemove | .disarm _ | .dropRemove _ => s.bak = some c ∧ s.lock = some c
  | .newRead => s.lock = some c ∧ (s.bak = none ∨ s.bak = some c)
  | .newWrite backup => backup = c ∧ s.lock = some c ∧ (s.bak = none ∨ s.bak = some c)

def DiffInv (c : Bytes) (s : DiffState) : Prop :=
  match s.process with
  | .ended _ => Recoverable c s
  | .running phase => phase.Sound c s

/-- As long as the last run goes on undisturbed. -/
def LastRun (c : Bytes) (s : DiffState) : Prop :=
  match s.process with
  | .ended _ => s.lock = some c ∧ s.bak = none
  | .running phase => phase.Sound c s

variable {c : Bytes} {s s' : DiffState} {phase : DiffPhase} {a : DiffStep}

theorem isSome_interrupted {old : Option Bytes} (h : old.isSome) (data : Bytes) (w : Option Nat) :
    (DiffState.interrupted old data w).isSome := by
  cases w with
  | none => exact h
  | some n => rfl

theorem DiffPhase.Sound.recoverable (h : phase.Sound c s) : Recoverable c s := by
  cases phase with
  | lockExists | bakExists => exact h
  | recoverRead | evalOld | flakeUpdate | flakeLockUpdate | evalNew | restoreRead | dropRead => exact .inr h
  | recoverWrite | restoreWrite | dropWrite => exact .inr h.2
  | recoverRemove | disarm | dropRemove => exact .inr ⟨h.1, by rw [h.2]; rfl⟩
  | newRead => exact h.2.elim (fun hb => .inl ⟨h.1, hb⟩) fun hb => .inr ⟨hb, by rw [h.1]; rfl⟩
  | newWrite => exact h.2.2.elim (fun hb => .inl ⟨h.2.1, hb⟩) fun hb => .inr ⟨hb, by rw [h.2.1]; rfl⟩

theorem LastRun.inv (h : LastRun c s) : DiffInv c s := by
  unfold LastRun at h
  unfold DiffInv
  cases hp : s.process with
  | ended ending => rw [hp] at h; exact .inl h
  | running phase => rw [hp] at h; exact h

theorem sound_done (h : phase.Sound c s) (hdone : s.done phase = some s') : LastRun c s' := by
  cases phase with
  | lockExists =>
    have hlock : s.lock.isSome := h.elim (fun h => by rw [h.1]; rfl) And.right
    rw [DiffState.done, if_pos hlock] at hdone
    cases hdone
    exact h
  | bakExists =>
    cases hdone
    rcases h with ⟨hlock, hbak⟩ | ⟨hbak, hlock⟩
    · rw [hbak]; exact ⟨hlock, .inl hbak⟩
    · rw [hbak]; exact ⟨hbak, hlock⟩
  | recoverRead | restoreRead => cases hdone; rw [h.1]; exact ⟨rfl, h⟩
  | dropRead => cases hdone; rw [h.1]; exact ⟨rfl, h⟩
  | newRead => cases hdone; rw [h.1]; exact ⟨rfl, h⟩
  | recoverWrite | restoreWrite | dropWrite => cases hdone; exact ⟨h.2.1, congrArg some h.1⟩
  | recoverRemove => cases hdone; exact ⟨h.2, .inl rfl⟩
  | newWrite => cases hdone; exact ⟨congrArg some h.1, by rw [DiffState.goto, h.2.1]; rfl⟩
  | disarm | dropRemove => cases hdone; exact ⟨h.2, rfl⟩
  | evalOld | flakeUpdate | flakeLockUpdate | evalNew => cases hdone

theorem sound_nixEnds (h : phase.Sound c s) {success : Bool} (hnix : s.nixEnds success phase = some s') : LastRun c s' := by
  cases phase with
  | evalOld | flakeUpdate => cases success <;> (cases hnix; exact h)
  | flakeLockUpdate | evalNew => cases hnix; exact h
  | _ => cases hnix

theorem isNix_of_nixEnds {success : Bool} (h : s.nixEnds success phase = some s') : phase.isNix := by
  cases phase with
  | evalOld | flakeUpdate | flakeLockUpdate | evalNew => rfl
  | _ => cases h

/-- nix may write flake.lock while one of its commands runs. -/
theorem DiffPhase.Sound.written (h : phase.Sound c s) (hnix : phase.isNix) (lock : Option Bytes) :
    phase.Sound c { s with lock := lock.or s.lock } := by
  have hlock {old : Option Bytes} (hold : old.isSome) : (lock.or old).isSome := by cases lock <;> simp [hold]
  cases phase with
  | evalOld | flakeUpdate | flakeLockUpdate | evalNew => exact ⟨h.1, hlock h.2⟩
  | _ => cases hnix

/-- A write that stops leaves the file as it was or a part of the backup. -/
theorem DiffPhase.Sound.cut (h : phase.Sound c s) (written : Option Nat)
    (hsafe : ∀ backup, phase = .newWrite backup →
      DiffState.interrupted s.bak backup written = none ∨ DiffState.interrupted s.bak backup written = some backup) :
    Recoverable c (s.cut written phase) := by
  cases phase with
  | recoverWrite | restoreWrite | dropWrite => exact .inr ⟨h.2.1, isSome_interrupted h.2.2 _ _⟩
  | newWrite backup =>
    obtain ⟨rfl, hlock, -⟩ := h
    rcases hsafe _ rfl with hbak | hbak
    · exact .inl ⟨hlock, hbak⟩
    · exact .inr ⟨hbak, by rw [DiffState.cut, hlock]; rfl⟩
  | _ => exact h.recoverable

theorem sound_fails (h : phase.Sound c s) {written : Option Nat} (hp : s.process = .running phase)
    (hsafe : DiffSafe s (.fails written)) (hfails : (s.cut written phase).fails phase = some s') : DiffInv c s' := by
  unfold DiffSafe at hsafe
  rw [hp] at hsafe
  cases phase with
  | lockExists => cases hfails; exact h
  | bakExists =>
    cases hfails
    rcases h with ⟨hlock, hbak⟩ | ⟨hbak, hlock⟩
    · exact ⟨hlock, .inl hbak⟩
    · rcases hsafe rfl with hnone | hsame
      · rw [hnone] at hbak; cases hbak
      · exact ⟨hsame.trans hbak, .inr hbak⟩
  | recoverRead =>
    cases hfails
    obtain ⟨hbak, -⟩ := h
    rcases hsafe rfl with hnone | hsame
    · rw [hnone] at hbak; cases hbak
    · exact ⟨hsame.trans hbak, .inr hbak⟩
  | recoverWrite =>
    cases hfails
    exact ⟨(hsafe rfl _ rfl).trans (congrArg some h.1), .inr h.2.1⟩
  | recoverRemove => cases hfails; exact ⟨h.2, .inr h.1⟩
  | newRead => cases hfails; exact h.recoverable
  | newWrite =>
    cases hfails
    exact h.cut written fun backup heq => by cases heq; exact hsafe _ rfl
  | restoreRead => cases hfails; exact h
  | restoreWrite => cases hfails; exact ⟨h.2.1, isSome_interrupted h.2.2 _ _⟩
  | disarm => cases hfails; exact h.recoverable
  | dropRead | dropRemove => cases hfails; exact h.recoverable
  | dropWrite =>
    cases hfails
    exact ⟨h.2.1, (hsafe rfl _ rfl).trans (congrArg some h.1)⟩
  | evalOld | flakeUpdate | flakeLockUpdate | evalNew => cases hfails

theorem diffInv_kill (h : phase.Sound c s) {written : Option Nat} {lock : Option Bytes} (hp : s.process = .running phase)
    (hsafe : DiffSafe s (.kill written lock)) :
    Recoverable c { s.cut written phase with lock := if phase.isNix then lock.or s.lock else (s.cut written phase).lock } := by
  by_cases hnix : phase.isNix
  · have hcut : s.cut written phase = s := by
      cases phase with
      | evalOld | flakeUpdate | flakeLockUpdate | evalNew => rfl
      | _ => cases hnix
    rw [hcut, if_pos hnix]
    exact (h.written hnix lock).recoverable
  · rw [if_neg hnix]
    refine h.cut written fun backup heq => ?_
    unfold DiffSafe at hsafe
    rw [hp, heq] at hsafe
    exact hsafe _ rfl

/-! ## Every run -/

theorem diffInv_step (h : DiffInv c s) (hsafe : DiffSafe s a) (hstep : diffNext s a = some s') : DiffInv c s' := by
  unfold DiffInv at h
  unfold diffNext at hstep
  cases hp : s.process with
  | ended ending =>
    rw [hp] at h hstep
    obtain ⟨-, hs⟩ := Option.ite_none_right_eq_some.mp hstep
    cases hs
    exact h
  | running phase =>
    rw [hp] at h hstep
    cases a with
    | spawn => cases hstep
    | done => exact (sound_done h hstep).inv
    | fails written => exact sound_fails h hp hsafe hstep
    | nix lock success =>
      exact (sound_nixEnds (h.written (isNix_of_nixEnds hstep) lock) hstep).inv
    | kill written lock => cases hstep; exact diffInv_kill h hp hsafe

/-- While the last run goes on, and when it has ended. -/
theorem lastRun_step (h : LastRun c s) (hundisturbed : Undisturbed s a) (hstep : diffNext s a = some s') : LastRun c s' := by
  unfold LastRun at h
  unfold diffNext at hstep
  cases hp : s.process with
  | ended ending =>
    rw [hp] at h hstep
    obtain ⟨-, hs⟩ := Option.ite_none_right_eq_some.mp hstep
    cases hs
    exact .inl h
  | running phase =>
    rw [hp] at h hstep
    cases a with
    | spawn => cases hstep
    | done => exact sound_done h hstep
    | fails written =>
      unfold Undisturbed at hundisturbed
      rw [hp] at hundisturbed
      cases phase with
      | recoverRemove => cases hstep; exact ⟨h.2, .inr h.1⟩
      | restoreRead => cases hstep; exact h
      | restoreWrite => cases hstep; exact ⟨h.2.1, isSome_interrupted h.2.2 _ _⟩
      | _ => exact hundisturbed.elim
    | nix lock success =>
      exact sound_nixEnds (h.written (isNix_of_nixEnds hstep) lock) hstep
    | kill => exact hundisturbed.elim

/-- After safe runs, killed or not, a last run that goes on to its end leaves
flake.lock as it was, and no backup. -/
theorem flakeLock_kept {as bs : List DiffStep} {ending : Ending}
    (hruns : Run (guarded (stepOf diffNext) DiffSafe) (.initial c) as s)
    (hlast : Run (guarded (stepOf diffNext) Undisturbed) s (.spawn :: bs) s') (hended : s'.process = .ended ending) :
    s'.lock = some c ∧ s'.bak = none := by
  have hinv : DiffInv c s := hruns.invariant (fun _ _ _ h hstep => diffInv_step h hstep.1 hstep.2) (.inl ⟨rfl, rfl⟩)
  cases hlast with
  | @cons _ t _ _ _ hspawn hrest =>
    have hstarted : LastRun c t := by
      obtain ⟨-, hspawn⟩ := hspawn
      unfold stepOf diffNext at hspawn
      cases hp : s.process with
      | ended e =>
        rw [hp] at hspawn
        cases hspawn
        unfold DiffInv at hinv
        rw [hp] at hinv
        exact hinv
      | running phase => rw [hp] at hspawn; cases hspawn
    have hlastRun : LastRun c s' := hrest.invariant (fun _ _ _ h hstep => lastRun_step h hstep.1 hstep.2) hstarted
    unfold LastRun at hlastRun
    rw [hended] at hlastRun
    exact hlastRun

/-- A run killed while nix updates, one killed in its recovery, and a third. -/
theorem flakeLock_kept_sample : ∃ s s' : DiffState,
    Run (guarded (stepOf diffNext) DiffSafe) (.initial [1, 2])
      [.spawn, .done, .done, .done, .done, .nix none true, .kill none (some [7]),
        .spawn, .done, .done, .done, .kill (some 1) none] s ∧ s.lock = some [1] ∧
      s'.process = .ended .returned ∧ s'.lock = some [1, 2] ∧ s'.bak = none := by
  have hruns : Run (guarded (stepOf diffNext) DiffSafe) (.initial [1, 2])
      [.spawn, .done, .done, .done, .done, .nix none true, .kill none (some [7]),
        .spawn, .done, .done, .done, .kill (some 1) none] ⟨some [1], some [1, 2], .ended .killed⟩ :=
    run_of_foldlM_guarded (by decide)
  have hlast : Run (guarded (stepOf diffNext) Undisturbed) ⟨some [1], some [1, 2], .ended .killed⟩
      [.spawn, .done, .done, .done, .done, .done, .done, .done, .nix none true, .nix (some [7]) true, .nix none true, .done, .done, .done]
      ⟨some [1, 2], none, .ended .returned⟩ := run_of_foldlM_guarded (by decide)
  exact ⟨_, _, hruns, rfl, rfl, flakeLock_kept hruns hlast rfl⟩

/-- A backup cut short by a kill is taken for flake.lock by the next run. -/
theorem cut_backup_restored : ¬ ∀ (c : Bytes) (as bs : List DiffStep) (s s' : DiffState) (ending : Ending),
    Run (guarded (stepOf diffNext) fun _ a => a.isFailure = false) (.initial c) as s →
    Run (guarded (stepOf diffNext) fun _ a => a.written = none) s (.spawn :: bs) s' → s'.process = .ended ending →
      s'.lock = some c ∧ s'.bak = none := by
  intro h
  have hruns : Run (guarded (stepOf diffNext) fun _ a => a.isFailure = false) (.initial [1, 2])
      [.spawn, .done, .done, .done, .kill (some 1) none] ⟨some [1, 2], some [1], .ended .killed⟩ :=
    run_of_foldlM_guarded (by decide)
  have hlast : Run (guarded (stepOf diffNext) fun _ a => a.written = none) ⟨some [1, 2], some [1], .ended .killed⟩
      [.spawn, .done, .done, .done, .done, .done, .done, .done, .nix none true, .nix (some [7]) true, .nix none true, .done, .done, .done]
      ⟨some [1], none, .ended .returned⟩ := run_of_foldlM_guarded (by decide)
  obtain ⟨hlock, -⟩ := h _ _ _ _ _ _ hruns hlast rfl
  cases hlock

/-! ## Every run ends -/

/-- Statements that are still to come, at most. -/
def DiffPhase.rank : DiffPhase → Nat
  | .lockExists => 16
  | .bakExists => 15
  | .recoverRead => 14
  | .recoverWrite _ => 13
  | .recoverRemove => 12
  | .newRead => 11
  | .newWrite _ => 10
  | .evalOld => 9
  | .flakeUpdate => 8
  | .flakeLockUpdate => 7
  | .evalNew => 6
  | .restoreRead _ => 5
  | .restoreWrite _ _ => 4
  | .disarm _ => 3
  | .dropRead _ => 3
  | .dropWrite _ _ => 2
  | .dropRemove _ => 1

def DiffState.rank (s : DiffState) : Nat :=
  match s.process with
  | .running phase => phase.rank
  | .ended _ => 0

theorem rank_done (h : s.done phase = some s') : s'.rank < phase.rank := by
  obtain ⟨lock, bak, process⟩ := s
  cases phase with
  | lockExists => cases lock <;> (cases h; exact Nat.le_of_ble_eq_true rfl)
  | newRead => cases lock <;> (cases h; exact Nat.le_of_ble_eq_true rfl)
  | bakExists | recoverRead | restoreRead | dropRead => cases bak <;> (cases h; exact Nat.le_of_ble_eq_true rfl)
  | evalOld | flakeUpdate | flakeLockUpdate | evalNew => cases h
  | _ => cases h; exact Nat.le_of_ble_eq_true rfl

theorem rank_fails (h : s.fails phase = some s') : s'.rank < phase.rank := by
  cases phase with
  | evalOld | flakeUpdate | flakeLockUpdate | evalNew => cases h
  | _ => cases h; exact Nat.le_of_ble_eq_true rfl

theorem rank_nixEnds {success : Bool} (h : s.nixEnds success phase = some s') : s'.rank < phase.rank := by
  cases phase with
  | evalOld | flakeUpdate => cases success <;> (cases h; exact Nat.le_of_ble_eq_true rfl)
  | flakeLockUpdate | evalNew => cases h; exact Nat.le_of_ble_eq_true rfl
  | _ => cases h

theorem rank_step (hrunning : s.process = .running phase) (hstep : diffNext s a = some s') : s'.rank < phase.rank := by
  unfold diffNext at hstep
  rw [hrunning] at hstep
  cases a with
  | spawn => cases hstep
  | done => exact rank_done hstep
  | fails => exact rank_fails hstep
  | nix => exact rank_nixEnds hstep
  | kill => cases hstep; cases phase <;> exact Nat.zero_lt_succ _

/-- From every point a run can go on undisturbed to its end. -/
theorem exists_lastRun (s : DiffState) : ∃ (bs : List DiffStep) (s' : DiffState) (ending : Ending),
    Run (guarded (stepOf diffNext) Undisturbed) s bs s' ∧ s'.process = .ended ending := by
  induction h : s.rank using Nat.strong_induction_on generalizing s with
  | _ n ih =>
    cases hp : s.process with
    | ended ending => exact ⟨[], s, ending, .nil s, hp⟩
    | running phase =>
      have hrank : s.rank = phase.rank := by rw [DiffState.rank, hp]
      obtain ⟨a, t, hundisturbed, hstep⟩ : ∃ a t, Undisturbed s a ∧ diffNext s a = some t := by
        cases hnix : phase.isNix with
        | true =>
          refine ⟨.nix none true, ?_⟩
          unfold diffNext
          rw [hp]
          cases phase with
          | evalOld | flakeUpdate | flakeLockUpdate | evalNew => exact ⟨_, trivial, rfl⟩
          | _ => cases hnix
        | false =>
          refine ⟨.done, ?_⟩
          unfold diffNext
          rw [hp]
          cases phase with
          | lockExists =>
            by_cases hlock : s.lock.isSome
            · exact ⟨_, trivial, if_pos hlock⟩
            · exact ⟨_, trivial, if_neg hlock⟩
          | evalOld | flakeUpdate | flakeLockUpdate | evalNew => cases hnix
          | _ => exact ⟨_, trivial, rfl⟩
      obtain ⟨bs, s', ending, hrun, hended⟩ := ih t.rank (by rw [← h, hrank]; exact rank_step hp hstep) t rfl
      exact ⟨a :: bs, s', ending, .cons ⟨hundisturbed, hstep⟩ hrun, hended⟩

end Ekapkgs
