import Ekapkgs.Lib.Runs
import Mathlib

/-!
# Commands that load, update and save

Any number of commands share a stored value. A command may take a lock, loads the
value, saves its updates one by one, and lets go of the lock. When no other command
saves between a command's load and its last update, the commands that succeed have
the effect of running one after the other.
-/

namespace Stores
open Runs

variable {σ ι : Type}

inductive Update (σ : Type) where
  | refuse
  | keep
  | save (content : σ)

def Update.apply (c : σ) : Update σ → Option σ
  | .refuse => none
  | .keep => some c
  | .save c' => some c'

def runUpdates (updates : List (σ → Update σ)) (c : σ) : Option σ := updates.foldlM (fun c f => (f c).apply c) c

/-- A command without the lock saves once. -/
structure Command (σ : Type) where
  locks : Bool
  updates : List (σ → Update σ)
  single : locks = false → ∃ f, updates = [f] ∧ ∀ c, f c ≠ .keep

def Command.run (command : Command σ) : σ → Option σ := runUpdates command.updates

/-- `seen` is the version of the store that a command has loaded or saved. -/
inductive Phase (σ : Type) where
  | idle
  | locked
  | loaded (content : σ) (seen : Nat) (rest : List (σ → Update σ)) (saved : Bool)
  | done (ok : Bool)

structure Store (σ ι : Type) where
  content : σ
  version : Nat
  holder : Option ι
  phase : ι → Phase σ

inductive Event (ι : Type) where
  | step (i : ι)
  | fail (i : ι)

section
variable [DecidableEq ι] (commands : ι → Command σ)

def Store.start (content : σ) : Store σ ι := ⟨content, 0, none, fun _ => .idle⟩

def Store.goto (s : Store σ ι) (i : ι) (p : Phase σ) : Store σ ι := { s with phase := Function.update s.phase i p }

def Store.finish (s : Store σ ι) (i : ι) (ok : Bool) : Store σ ι :=
  { s.goto i (.done ok) with holder := if s.holder = some i then none else s.holder }

/-- After its last update a command does not fail any more. -/
inductive Step : Store σ ι → Event ι → Store σ ι → Prop
  | lock {s : Store σ ι} {i : ι} : s.phase i = .idle → (commands i).locks = true → s.holder = none →
      Step s (.step i) { s.goto i .locked with holder := some i }
  | load {s : Store σ ι} {i : ι} : s.phase i = .idle ∧ (commands i).locks = false ∨ s.phase i = .locked →
      Step s (.step i) (s.goto i (.loaded s.content s.version (commands i).updates false))
  | refuse {s : Store σ ι} {i : ι} {c : σ} {seen : Nat} {f : σ → Update σ} {rest : List (σ → Update σ)} {saved : Bool} :
      s.phase i = .loaded c seen (f :: rest) saved → f c = .refuse → Step s (.step i) (s.finish i false)
  | keep {s : Store σ ι} {i : ι} {c : σ} {seen : Nat} {f : σ → Update σ} {rest : List (σ → Update σ)} {saved : Bool} :
      s.phase i = .loaded c seen (f :: rest) saved → f c = .keep → Step s (.step i) (s.goto i (.loaded c seen rest saved))
  | save {s : Store σ ι} {i : ι} {c c' : σ} {seen : Nat} {f : σ → Update σ} {rest : List (σ → Update σ)} {saved : Bool} :
      s.phase i = .loaded c seen (f :: rest) saved → f c = .save c' →
      Step s (.step i) { s.goto i (.loaded c' (s.version + 1) rest true) with content := c', version := s.version + 1 }
  | finish {s : Store σ ι} {i : ι} {c : σ} {seen : Nat} {saved : Bool} :
      s.phase i = .loaded c seen [] saved → Step s (.step i) (s.finish i true)
  | fail {s : Store σ ι} {i : ι} : (s.phase i = .idle ∨ s.phase i = .locked ∨
      ∃ c seen f rest saved, s.phase i = .loaded c seen (f :: rest) saved) → Step s (.fail i) (s.finish i false)

/-- A command that has saved does not fail. -/
def Whole (s : Store σ ι) : Event ι → Prop
  | .step i => ∀ c seen f rest, s.phase i = .loaded c seen (f :: rest) true → f c ≠ .refuse
  | .fail i => ∀ c seen rest, s.phase i ≠ .loaded c seen rest true

/-- No other command has saved since the command of the update loaded. -/
def UpToDate (s : Store σ ι) : Event ι → Prop
  | .step i => ∀ c seen f rest saved, s.phase i = .loaded c seen (f :: rest) saved → f c ≠ .refuse → seen = s.version
  | .fail _ => True

end

/-! ## Phases -/

def Phase.Midway (p : Phase σ) : Prop := ∃ c seen f rest, p = .loaded c seen (f :: rest) true

def Phase.Completed (p : Phase σ) : Prop := (∃ c seen saved, p = .loaded c seen [] saved) ∨ p = .done true

theorem not_midway_idle : ¬ (Phase.idle : Phase σ).Midway := nofun

variable {c c' : σ} {seen : Nat} {f : σ → Update σ} {rest updates : List (σ → Update σ)} {saved ok : Bool}

@[simp] theorem midway_loaded_iff : (Phase.loaded c seen rest saved).Midway ↔ rest ≠ [] ∧ saved = true := by
  constructor
  · rintro ⟨_, _, _, _, h⟩
    cases h
    exact ⟨nofun, rfl⟩
  · rintro ⟨hrest, rfl⟩
    obtain ⟨f, rest, rfl⟩ := List.exists_cons_of_ne_nil hrest
    exact ⟨c, seen, f, rest, rfl⟩

@[simp] theorem midway_done : ¬ (Phase.done ok : Phase σ).Midway := nofun

@[simp] theorem midway_locked : ¬ (Phase.locked : Phase σ).Midway := nofun

@[simp] theorem completed_loaded_iff : (Phase.loaded c seen rest saved).Completed ↔ rest = [] := by
  constructor
  · rintro (⟨_, _, _, h⟩ | h)
    · cases h; rfl
    · cases h
  · rintro rfl
    exact .inl ⟨c, seen, saved, rfl⟩

@[simp] theorem completed_done_iff : (Phase.done ok : Phase σ).Completed ↔ ok = true := by
  constructor
  · rintro (⟨_, _, _, h⟩ | h)
    · cases h
    · cases h; rfl
  · rintro rfl
    exact .inr rfl

@[simp] theorem not_completed_idle : ¬ (Phase.idle : Phase σ).Completed := by rintro (⟨_, _, _, h⟩ | h) <;> cases h

@[simp] theorem not_completed_locked : ¬ (Phase.locked : Phase σ).Completed := by rintro (⟨_, _, _, h⟩ | h) <;> cases h

theorem runUpdates_keep (h : f c = .keep) : runUpdates (f :: rest) c = runUpdates rest c := by
  unfold runUpdates
  rw [List.foldlM_cons, h]
  rfl

theorem runUpdates_save (h : f c = .save c') : runUpdates (f :: rest) c = runUpdates rest c' := by
  unfold runUpdates
  rw [List.foldlM_cons, h]
  rfl

theorem runUpdates_nil : runUpdates [] c = some c := rfl

/-! ## What every run keeps -/

section
variable [DecidableEq ι] (commands : ι → Command σ)

/-- What a command has loaded, as long as nobody else has saved since. -/
structure Consistent (s : Store σ ι) (i : ι) (c : σ) (seen : Nat) (rest : List (σ → Update σ)) (saved : Bool) : Prop where
  suffix : rest <:+ (commands i).updates
  fresh : saved = false → runUpdates (commands i).updates c = runUpdates rest c
  shorter : saved = true → rest.length < (commands i).updates.length
  seen_le : seen ≤ s.version
  current : seen = s.version → c = s.content

structure Inv (s : Store σ ι) : Prop where
  loaded : ∀ i c seen rest saved, s.phase i = .loaded c seen rest saved → Consistent commands s i c seen rest saved
  locked : ∀ i, s.phase i = .locked → (commands i).locks = true
  holder : ∀ i, (commands i).locks = true → (s.phase i = .locked ∨ ∃ c seen rest saved, s.phase i = .loaded c seen rest saved) → s.holder = some i

variable {commands} {s s' : Store σ ι} {i j : ι} {p : Phase σ} {e : Event ι}

theorem Store.goto_phase : (s.goto i p).phase j = if j = i then p else s.phase j := Function.update_apply ..

theorem Store.finish_phase : (s.finish i ok).phase j = if j = i then .done ok else s.phase j := Function.update_apply ..

theorem inv_start (c : σ) : Inv commands (.start c) :=
  ⟨nofun, nofun, fun i _ h => by rcases h with h | ⟨_, _, _, _, h⟩ <;> cases h⟩

theorem Consistent.of_eq (h : Consistent commands s i c seen rest saved) (hcontent : s'.content = s.content) (hversion : s'.version = s.version) :
    Consistent commands s' i c seen rest saved :=
  ⟨h.suffix, h.fresh, h.shorter, hversion ▸ h.seen_le, fun heq => hcontent ▸ h.current (hversion ▸ heq)⟩

/-- Once somebody has saved, all others are out of date. -/
theorem Consistent.outdated (h : Consistent commands s i c seen rest saved) (hversion : s'.version = s.version + 1) :
    Consistent commands s' i c seen rest saved := by
  have hle := h.seen_le
  exact ⟨h.suffix, h.fresh, h.shorter, by omega, fun heq => by omega⟩

/-- A command that takes the lock, goes on with it, or needs none. -/
theorem Inv.goto (h : Inv commands s) (hloaded : ∀ c seen rest saved, p = .loaded c seen rest saved → Consistent commands s i c seen rest saved)
    (hlocked : p = .locked → (commands i).locks = true) (hholder : (commands i).locks = true → s.holder = some i) : Inv commands (s.goto i p) := by
  refine ⟨fun j c seen rest saved hj => ?_, fun j hj => ?_, fun j hlocks hj => ?_⟩
  · rw [Store.goto_phase] at hj
    split_ifs at hj with heq
    · subst heq
      exact (hloaded c seen rest saved hj).of_eq rfl rfl
    · exact (h.loaded j c seen rest saved hj).of_eq rfl rfl
  · rw [Store.goto_phase] at hj
    split_ifs at hj with heq
    · exact heq ▸ hlocked hj
    · exact h.locked j hj
  · by_cases heq : j = i
    · exact heq ▸ hholder (heq ▸ hlocks)
    · simp only [Store.goto_phase, if_neg heq] at hj
      exact h.holder j hlocks hj

theorem Inv.finish (h : Inv commands s) (ok : Bool) : Inv commands (s.finish i ok) := by
  refine ⟨fun j c seen rest saved hj => ?_, fun j hj => ?_, fun j hlocks hj => ?_⟩
  · rw [Store.finish_phase] at hj
    split_ifs at hj
    exact (h.loaded j c seen rest saved hj).of_eq rfl rfl
  · rw [Store.finish_phase] at hj
    split_ifs at hj
    exact h.locked j hj
  · by_cases heq : j = i
    · simp [Store.finish_phase, heq] at hj
    · simp only [Store.finish_phase, if_neg heq] at hj
      have hholder := h.holder j hlocks hj
      show (if s.holder = some i then none else s.holder) = some j
      rw [hholder, if_neg (by simpa using heq)]

theorem Inv.step (h : Inv commands s) (hstep : Step commands s e s') : Inv commands s' := by
  cases hstep with
  | @lock i hidle hlocks hfree =>
    -- nobody holds the lock
    refine ⟨fun j c seen rest saved hj => ?_, fun j hj => ?_, fun j hlocks' hj => ?_⟩
    · dsimp only at hj
      rw [Store.goto_phase] at hj
      split_ifs at hj
      exact (h.loaded j c seen rest saved hj).of_eq rfl rfl
    · dsimp only at hj
      rw [Store.goto_phase] at hj
      split_ifs at hj with heq
      · exact heq ▸ hlocks
      · exact h.locked j hj
    · by_cases heq : j = i
      · exact congrArg some heq.symm
      · simp only [Store.goto_phase, if_neg heq] at hj
        have := h.holder j hlocks' hj
        rw [hfree] at this
        cases this
  | @load i hload =>
    refine h.goto (fun c seen rest saved heq => ?_) nofun fun hlocks => ?_
    · cases heq
      exact ⟨List.suffix_refl _, fun _ => rfl, nofun, Nat.le_refl _, fun _ => rfl⟩
    · rcases hload with ⟨-, hunlocked⟩ | hlocked
      · rw [hlocks] at hunlocked; cases hunlocked
      · exact h.holder i hlocks (.inl hlocked)
  | @keep i c seen f rest saved hphase hkeep =>
    have hi := h.loaded i c seen _ saved hphase
    refine h.goto (fun c' seen' rest' saved' heq => ?_) nofun fun hlocks => h.holder i hlocks (.inr ⟨_, _, _, _, hphase⟩)
    cases heq
    refine ⟨(List.suffix_cons f rest).trans hi.suffix, fun hsaved => (hi.fresh hsaved).trans (runUpdates_keep hkeep), fun hsaved => ?_, hi.seen_le, hi.current⟩
    exact Nat.lt_of_succ_lt (hi.shorter hsaved)
  | @save i c c' seen f rest saved hphase hsave =>
    have hi := h.loaded i c seen _ saved hphase
    refine ⟨fun j c₁ seen₁ rest₁ saved₁ hj => ?_, fun j hj => ?_, fun j hlocks hj => ?_⟩
    · dsimp only at hj
      rw [Store.goto_phase] at hj
      split_ifs at hj with heq
      · cases hj
        subst heq
        refine ⟨(List.suffix_cons f rest).trans hi.suffix, nofun, fun _ => ?_, Nat.le_refl _, fun _ => rfl⟩
        exact hi.suffix.length_le
      · exact (h.loaded j c₁ seen₁ rest₁ saved₁ hj).outdated rfl
    · dsimp only at hj
      rw [Store.goto_phase] at hj
      split_ifs at hj
      exact h.locked j hj
    · by_cases heq : j = i
      · exact heq ▸ h.holder i (heq ▸ hlocks) (.inr ⟨_, _, _, _, hphase⟩)
      · simp only [Store.goto_phase, if_neg heq] at hj
        exact h.holder j hlocks hj
  | refuse => exact h.finish false
  | finish => exact h.finish true
  | fail => exact h.finish false

omit [DecidableEq ι] in
theorem Inv.midway_locks (h : Inv commands s) (hi : (s.phase i).Midway) : (commands i).locks = true ∧ s.holder = some i := by
  obtain ⟨c, seen, f, rest, hphase⟩ := hi
  have hlocks : (commands i).locks = true := by
    cases hunlocked : (commands i).locks with
    | true => rfl
    | false =>
      obtain ⟨g, hg, -⟩ := (commands i).single hunlocked
      have hlt := (h.loaded i c seen _ true hphase).shorter rfl
      rw [hg, List.length_cons, List.length_cons, List.length_nil] at hlt
      omega
  exact ⟨hlocks, h.holder i hlocks (.inr ⟨_, _, _, _, hphase⟩)⟩

/-! ## A sequential order -/

/-- It has saved, not all it will, and somebody else has saved since. -/
def Overtaken (s : Store σ ι) : Prop := ∃ k c seen f rest, s.phase k = .loaded c seen (f :: rest) true ∧ seen < s.version

variable (commands) in
def runAll (order : List ι) (c : σ) : Option σ := order.foldlM (fun c i => (commands i).run c) c

/-- Running the completed commands in this order leads to `base`, which is the content
but for the updates of a command that is midway. -/
structure Serial (commands : ι → Command σ) (c₀ : σ) (s : Store σ ι) (order : List ι) (base : σ) : Prop where
  nodup : order.Nodup
  completed : ∀ i, i ∈ order ↔ (s.phase i).Completed
  runs : runAll commands order c₀ = some base
  settled : (∀ i, ¬ (s.phase i).Midway) → base = s.content
  midway : ∀ k c seen f rest, s.phase k = .loaded c seen (f :: rest) true →
    seen = s.version ∧ runUpdates (commands k).updates base = runUpdates (f :: rest) c ∧ ∀ j, (s.phase j).Midway → j = k

variable {c₀ base : σ} {order : List ι}

theorem runAll_append (hruns : runAll commands order c₀ = some base) (hi : (commands i).run base = some c) :
    runAll commands (order ++ [i]) c₀ = some c := by
  unfold runAll at hruns ⊢
  rw [List.foldlM_append, hruns]
  show (commands i).run base >>= pure = some c
  rw [hi]
  rfl

/-- A step of a command that neither saves nor completes. -/
theorem Serial.goto (h : Serial commands c₀ s order base) (hphase : s'.phase = Function.update s.phase i p) (hcontent : s'.content = s.content)
    (hversion : s'.version = s.version) (hcompleted : p.Completed ↔ (s.phase i).Completed) (hbefore : ¬ (s.phase i).Midway) (hafter : ¬ p.Midway) :
    Serial commands c₀ s' order base := by
  have hother (j : ι) : s'.phase j = if j = i then p else s.phase j := by rw [hphase, Function.update_apply]
  have hmidway (j : ι) : (s'.phase j).Midway ↔ (s.phase j).Midway := by
    rw [hother]
    split_ifs with heq
    · exact heq ▸ iff_of_false hafter hbefore
    · exact Iff.rfl
  refine ⟨h.nodup, fun j => ?_, h.runs, fun hnone => ?_, fun k c seen f rest hk => ?_⟩
  · rw [h.completed, hother]
    split_ifs with heq
    · exact heq ▸ hcompleted.symm
    · exact Iff.rfl
  · rw [hcontent]
    exact h.settled fun j hj => hnone j ((hmidway j).mpr hj)
  · rw [hother] at hk
    split_ifs at hk with heq
    · exact absurd (hk ▸ midway_loaded_iff.mpr ⟨nofun, rfl⟩) hafter
    · obtain ⟨hseen, hruns, hunique⟩ := h.midway k c seen f rest hk
      exact ⟨by rw [hversion, hseen], hruns, fun j hj => hunique j ((hmidway j).mp hj)⟩

/-- A command takes its last update, and nobody else is midway. -/
theorem Serial.complete (h : Serial commands c₀ s order base) (hphase : s'.phase = Function.update s.phase i p) (hp : p.Completed)
    (hnot : ¬ (s.phase i).Completed) (hothers : ∀ j, (s.phase j).Midway → j = i) (hrun : (commands i).run base = some s'.content) :
    Serial commands c₀ s' (order ++ [i]) s'.content := by
  have hother (j : ι) : s'.phase j = if j = i then p else s.phase j := by rw [hphase, Function.update_apply]
  have hnone (j : ι) : ¬ (s'.phase j).Midway := by
    rw [hother]
    split_ifs with heq
    · rcases hp with ⟨c, seen, saved, rfl⟩ | rfl <;> simp
    · exact fun hj => heq (hothers j hj)
  refine ⟨?_, fun j => ?_, runAll_append h.runs hrun, fun _ => rfl, fun k c seen f rest hk => ?_⟩
  · rw [List.nodup_append]
    refine ⟨h.nodup, List.nodup_singleton i, fun a ha b hb => ?_⟩
    rintro rfl
    exact hnot ((h.completed i).mp (List.mem_singleton.mp hb ▸ ha))
  · rw [List.mem_append, List.mem_singleton, h.completed, hother]
    split_ifs with heq
    · exact iff_of_true (.inr heq) hp
    · exact or_iff_left heq
  · exact absurd ⟨c, seen, f, rest, hk⟩ (hnone k)

theorem Overtaken.step (h : Overtaken s) (hwhole : Whole s e) (hcurrent : UpToDate s e) (hstep : Step commands s e s') : Overtaken s' := by
  obtain ⟨k, c, seen, f, rest, hk, hlt⟩ := h
  -- the command that was overtaken can neither update nor fail
  have hne {i : ι} (he : e = .step i ∨ e = .fail i) : k ≠ i := by
    rintro rfl
    rcases he with rfl | rfl
    · have hseen := hcurrent c seen f rest true hk (hwhole c seen f rest hk)
      omega
    · exact hwhole c seen _ hk
  cases hstep with
  | save => exact ⟨k, c, seen, f, rest, by rw [← hk]; exact Store.goto_phase.trans (if_neg (hne (.inl rfl))), Nat.lt_succ_of_lt hlt⟩
  | refuse | finish => exact ⟨k, c, seen, f, rest, by rw [← hk]; exact Store.finish_phase.trans (if_neg (hne (.inl rfl))), hlt⟩
  | fail => exact ⟨k, c, seen, f, rest, by rw [← hk]; exact Store.finish_phase.trans (if_neg (hne (.inr rfl))), hlt⟩
  | lock | load | keep => exact ⟨k, c, seen, f, rest, by rw [← hk]; exact Store.goto_phase.trans (if_neg (hne (.inl rfl))), hlt⟩

/-- What is left to run of a command leads from `base` where all of it does. -/
theorem Serial.rest_run (h : Serial commands c₀ s order base) (hinv : Inv commands s) (hphase : s.phase i = .loaded c seen (f :: rest) saved)
    (hseen : seen = s.version) (hothers : ∀ j, (s.phase j).Midway → j = i) : runUpdates (commands i).updates base = runUpdates (f :: rest) c := by
  have hi := hinv.loaded i c seen _ saved hphase
  cases saved with
  | true => exact (h.midway i c seen f rest hphase).2.1
  | false =>
    have hnone (j : ι) : ¬ (s.phase j).Midway := by
      intro hj
      rw [hothers j hj, hphase, midway_loaded_iff] at hj
      exact absurd hj.2 nofun
    rw [h.settled hnone, ← hi.current hseen]
    exact hi.fresh rfl

theorem Serial.keep (h : Serial commands c₀ s order base) (hinv : Inv commands s) (hphase : s.phase i = .loaded c seen (f :: rest) saved)
    (hkeep : f c = .keep) (hseen : seen = s.version) : ∃ order base, Serial commands c₀ (s.goto i (.loaded c seen rest saved)) order base := by
  have hi := hinv.loaded i c seen _ saved hphase
  -- a command that keeps what it has loaded holds the lock, as does one that is midway
  have hothers (j : ι) (hj : (s.phase j).Midway) : j = i := by
    have hlocks : (commands i).locks = true := by
      cases hunlocked : (commands i).locks with
      | true => rfl
      | false =>
        obtain ⟨g, hg, hsaves⟩ := (commands i).single hunlocked
        have hmem : f ∈ (commands i).updates := hi.suffix.subset (List.mem_cons_self ..)
        rw [hg, List.mem_singleton] at hmem
        exact absurd (hmem ▸ hkeep) (hsaves c)
    exact Option.some.inj ((hinv.midway_locks hj).2.symm.trans (hinv.holder i hlocks (.inr ⟨_, _, _, _, hphase⟩)))
  have hrun := (h.rest_run hinv hphase hseen hothers).trans (runUpdates_keep hkeep)
  cases rest with
  | nil =>
    rw [runUpdates_nil, hi.current hseen] at hrun
    exact ⟨_, _, h.complete rfl (by simp) (by simp [hphase]) hothers hrun⟩
  | cons g rest =>
    cases saved with
    | false => exact ⟨order, base, h.goto rfl rfl rfl (by simp [hphase]) (by simp [hphase]) (by simp)⟩
    | true =>
      have hphases (j : ι) : (s.goto i (.loaded c seen (g :: rest) true)).phase j = if j = i then .loaded c seen (g :: rest) true else s.phase j :=
        Store.goto_phase
      have hmidway (j : ι) (hj : ((s.goto i (.loaded c seen (g :: rest) true)).phase j).Midway) : j = i := by
        rw [hphases] at hj
        split_ifs at hj with heq
        · exact heq
        · exact hothers j hj
      refine ⟨order, base, h.nodup, fun j => ?_, h.runs, fun hnone => ?_, fun k c₁ seen₁ f₁ rest₁ hk => ?_⟩
      · rw [h.completed, hphases]
        split_ifs with heq
        · simp [heq, hphase]
        · exact Iff.rfl
      · exact absurd (by rw [hphases, if_pos rfl]; simp) (hnone i)
      · obtain rfl := hmidway k ⟨c₁, seen₁, f₁, rest₁, hk⟩
        rw [hphases, if_pos rfl] at hk
        cases hk
        exact ⟨hseen, hrun, hmidway⟩

theorem Serial.save (h : Serial commands c₀ s order base) (hinv : Inv commands s) (hphase : s.phase i = .loaded c seen (f :: rest) saved)
    (hsave : f c = .save c') (hseen : seen = s.version)
    (hs' : s' = { s.goto i (.loaded c' (s.version + 1) rest true) with content := c', version := s.version + 1 }) :
    Overtaken s' ∨ ∃ order base, Serial commands c₀ s' order base := by
  subst hs'
  have hphases (j : ι) : (Store.phase { s.goto i (.loaded c' (s.version + 1) rest true) with content := c', version := s.version + 1 } j) =
      if j = i then .loaded c' (s.version + 1) rest true else s.phase j := Store.goto_phase
  by_cases hothers : ∀ j, (s.phase j).Midway → j = i
  · refine .inr ?_
    have hrun := (h.rest_run hinv hphase hseen hothers).trans (runUpdates_save hsave)
    cases rest with
    | nil => exact ⟨_, _, h.complete rfl (by simp) (by simp [hphase]) hothers hrun⟩
    | cons g rest =>
      have hmidway (j : ι) (hj : (Store.phase { s.goto i (.loaded c' (s.version + 1) (g :: rest) true) with content := c', version := s.version + 1 } j).Midway) :
          j = i := by
        rw [hphases] at hj
        split_ifs at hj with heq
        · exact heq
        · exact hothers j hj
      refine ⟨order, base, h.nodup, fun j => ?_, h.runs, fun hnone => ?_, fun k c₁ seen₁ f₁ rest₁ hk => ?_⟩
      · rw [h.completed, hphases]
        split_ifs with heq
        · simp [heq, hphase]
        · exact Iff.rfl
      · exact absurd (by rw [hphases, if_pos rfl]; simp) (hnone i)
      · obtain rfl := hmidway k ⟨c₁, seen₁, f₁, rest₁, hk⟩
        rw [hphases, if_pos rfl] at hk
        cases hk
        exact ⟨rfl, hrun, hmidway⟩
  · push_neg at hothers
    obtain ⟨k, ⟨ck, seenk, g, restk, hk⟩, hne⟩ := hothers
    have hle := (hinv.loaded k ck seenk _ true hk).seen_le
    exact .inl ⟨k, ck, seenk, g, restk, by rw [hphases, if_neg hne, hk], Nat.lt_succ_of_le hle⟩

/-- Loading is all that a command without updates does. -/
theorem Serial.load (h : Serial commands c₀ s order base) (hinv : Inv commands s)
    (hload : s.phase i = .idle ∧ (commands i).locks = false ∨ s.phase i = .locked) :
    ∃ order base, Serial commands c₀ (s.goto i (.loaded s.content s.version (commands i).updates false)) order base := by
  have hbefore : ¬ (s.phase i).Completed ∧ ¬ (s.phase i).Midway := by
    rcases hload with ⟨hphase, -⟩ | hphase <;> simp [hphase, not_midway_idle]
  by_cases hupdates : (commands i).updates = []
  · have hlocked : s.phase i = .locked := by
      rcases hload with ⟨-, hunlocked⟩ | hlocked
      · obtain ⟨f, hf, -⟩ := (commands i).single hunlocked
        rw [hupdates] at hf; cases hf
      · exact hlocked
    have hothers (j : ι) (hj : (s.phase j).Midway) : j = i :=
      Option.some.inj ((hinv.midway_locks hj).2.symm.trans (hinv.holder i (hinv.locked i hlocked) (.inl hlocked)))
    have hnone (j : ι) : ¬ (s.phase j).Midway := fun hj => hbefore.2 (hothers j hj ▸ hj)
    have hrun : (commands i).run base = some s.content := by
      rw [h.settled hnone, Command.run, hupdates]
      rfl
    exact ⟨_, _, h.complete rfl (by simp [hupdates]) hbefore.1 hothers hrun⟩
  · exact ⟨order, base, h.goto rfl rfl rfl (by simp [hupdates, hbefore.1]) hbefore.2 (by simp)⟩

theorem serial_step (hinv : Inv commands s) (h : Overtaken s ∨ ∃ order base, Serial commands c₀ s order base) (hwhole : Whole s e)
    (hcurrent : UpToDate s e) (hstep : Step commands s e s') : Overtaken s' ∨ ∃ order base, Serial commands c₀ s' order base := by
  rcases h with h | ⟨order, base, h⟩
  · exact .inl (h.step hwhole hcurrent hstep)
  cases hstep with
  | lock hidle => exact .inr ⟨order, base, h.goto rfl rfl rfl (by simp [hidle]) (by simp [hidle, not_midway_idle]) (by simp)⟩
  | load hload => exact .inr (h.load hinv hload)
  | @refuse i c seen f rest saved hphase hrefuse =>
    cases saved with
    | true => exact absurd hrefuse (hwhole c seen f rest hphase)
    | false => exact .inr ⟨order, base, h.goto rfl rfl rfl (by simp [hphase]) (by simp [hphase]) (by simp)⟩
  | @keep i c seen f rest saved hphase hkeep => exact .inr (h.keep hinv hphase hkeep (hcurrent c seen f rest saved hphase (by simp [hkeep])))
  | @save i c c' seen f rest saved hphase hsave => exact h.save hinv hphase hsave (hcurrent c seen f rest saved hphase (by simp [hsave])) rfl
  | @finish i c seen saved hphase => exact .inr ⟨order, base, h.goto rfl rfl rfl (by simp [hphase]) (by simp [hphase]) (by simp)⟩
  | @fail i hphase =>
    rcases hphase with hphase | hphase | ⟨c, seen, f, rest, saved, hphase⟩
    · exact .inr ⟨order, base, h.goto rfl rfl rfl (by simp [hphase]) (by simp [hphase, not_midway_idle]) (by simp)⟩
    · exact .inr ⟨order, base, h.goto rfl rfl rfl (by simp [hphase]) (by simp [hphase]) (by simp)⟩
    · cases saved with
      | true => exact absurd hphase (hwhole c seen _)
      | false => exact .inr ⟨order, base, h.goto rfl rfl rfl (by simp [hphase]) (by simp [hphase]) (by simp)⟩

/-! ## Runs -/

variable {es : List (Event ι)}

/-- When every command locks, what a command has loaded is up to date. -/
theorem upToDate_of_locks (hlocks : ∀ i, (commands i).locks = true) (hrun : Run (Step commands) (.start c₀) es s) :
    ∀ i c seen rest saved, s.phase i = .loaded c seen rest saved → seen = s.version := by
  have hinv : Inv commands s ∧ ∀ i c seen rest saved, s.phase i = .loaded c seen rest saved → seen = s.version := by
    refine hrun.invariant (I := fun s => Inv commands s ∧ ∀ i c seen rest saved, s.phase i = .loaded c seen rest saved → seen = s.version)
      (fun t e t' h hstep => ⟨h.1.step hstep, fun j c₁ seen₁ rest₁ saved₁ hj => ?_⟩) ⟨inv_start c₀, nofun⟩
    obtain ⟨hinv, hseen⟩ := h
    cases hstep with
    | lock =>
      dsimp only at hj
      rw [Store.goto_phase] at hj
      split_ifs at hj
      exact hseen j _ _ _ _ hj
    | load =>
      rw [Store.goto_phase] at hj
      split_ifs at hj
      · cases hj; rfl
      · exact hseen j _ _ _ _ hj
    | keep hphase =>
      rw [Store.goto_phase] at hj
      split_ifs at hj
      · cases hj; exact hseen _ _ _ _ _ hphase
      · exact hseen j _ _ _ _ hj
    | @save i _ _ _ _ _ _ hphase =>
      have hholder := hinv.holder i (hlocks i) (.inr ⟨_, _, _, _, hphase⟩)
      dsimp only at hj
      rw [Store.goto_phase] at hj
      split_ifs at hj with heq
      · cases hj; rfl
      · -- the lock is held by the command that saves
        have := hinv.holder j (hlocks j) (.inr ⟨_, _, _, _, hj⟩)
        rw [hholder, Option.some.injEq] at this
        exact absurd this.symm heq
    | refuse | finish | fail =>
      rw [Store.finish_phase] at hj
      split_ifs at hj
      exact hseen j _ _ _ _ hj
  exact hinv.2

/-- The steps under which nothing is lost. -/
def Careful (commands : ι → Command σ) (s : Store σ ι) (e : Event ι) : Prop := Whole s e ∧ ((∀ i, (commands i).locks = true) ∨ UpToDate s e)

theorem careful_upToDate (hrun : Run (Step commands) (.start c₀) es s) (hcareful : Careful commands s e) : UpToDate s e := by
  obtain ⟨-, hlocks | hcurrent⟩ := hcareful
  · cases e with
    | step i => exact fun c seen f rest saved hphase _ => upToDate_of_locks hlocks hrun i c seen _ saved hphase
    | fail i => trivial
  · exact hcurrent

theorem serial_run (hrun : Run (guarded (Step commands) (Careful commands)) (.start c₀) es s) :
    Overtaken s ∨ ∃ order base, Serial commands c₀ s order base := by
  have hstart : Serial commands c₀ (.start c₀) [] c₀ := ⟨List.nodup_nil, fun i => by simp [Store.start], rfl, fun _ => rfl, nofun⟩
  have hall : Inv commands s ∧ (Overtaken s ∨ ∃ order base, Serial commands c₀ s order base) := by
    refine hrun.history (I := fun _ s => Inv commands s ∧ (Overtaken s ∨ ∃ order base, Serial commands c₀ s order base))
      (fun before t e t' hbefore h hstep => ?_) ⟨inv_start c₀, .inr ⟨[], c₀, hstart⟩⟩
    exact ⟨h.1.step hstep.2, serial_step h.1 h.2 hstep.1.1 (careful_upToDate hbefore.unguarded hstep.1) hstep.2⟩
  exact hall.2

/-- When all is done, the content is that of the commands that succeeded, one after
the other. -/
theorem serializable (hrun : Run (guarded (Step commands) (Careful commands)) (.start c₀) es s) (hdone : ∀ i, ∃ ok, s.phase i = .done ok) :
    ∃ order : List ι, order.Nodup ∧ (∀ i, i ∈ order ↔ s.phase i = .done true) ∧ runAll commands order c₀ = some s.content := by
  rcases serial_run hrun with ⟨k, c, seen, f, rest, hk, -⟩ | ⟨order, base, h⟩
  · obtain ⟨ok, hok⟩ := hdone k
    rw [hok] at hk; cases hk
  · have hnone (j : ι) : ¬ (s.phase j).Midway := by
      obtain ⟨ok, hok⟩ := hdone j
      simp [hok]
    refine ⟨order, h.nodup, fun i => ?_, h.settled hnone ▸ h.runs⟩
    obtain ⟨ok, hok⟩ := hdone i
    rw [h.completed, hok, completed_done_iff]
    simp

/-! ## What a save leaves is kept -/

def Phase.Unloaded (p : Phase σ) : Prop := p = .idle ∨ p = .locked

def Phase.Saved (p : Phase σ) : Prop := (∃ c seen rest, p = .loaded c seen rest true) ∨ p = .done true

/-- Some update of the command ends a property of the content. -/
def Command.Breaks (command : Command σ) (P : σ → Prop) : Prop := ∃ f ∈ command.updates, ∃ c c', P c ∧ f c = .save c' ∧ ¬ P c'

/-- What was loaded is out of date. -/
def Phase.Late (p : Phase σ) (version : Nat) : Prop := ∀ c seen f rest saved, p = .loaded c seen (f :: rest) saved → seen < version

/-- A property of the content since `t`, where all that had been loaded was late. -/
structure KeptSince (commands : ι → Command σ) (P : σ → Prop) (t s : Store σ ι) : Prop where
  kept : P s.content ∨ ∃ i, (t.phase i).Unloaded ∧ (s.phase i).Saved ∧ (commands i).Breaks P
  late : ∀ i, ¬ (t.phase i).Unloaded → ¬ (s.phase i).Unloaded ∧ (s.phase i).Late s.version

theorem saved_step (hwhole : Whole s e) (hstep : Step commands s e s') (hi : (s.phase i).Saved) : (s'.phase i).Saved := by
  have hgoto {j : ι} {p : Phase σ} (hp : j = i → p.Saved) : ((s.goto j p).phase i).Saved := by
    rw [Store.goto_phase]
    split_ifs with heq
    · exact hp heq.symm
    · exact hi
  have hfinish {j : ι} {ok : Bool} (hok : j = i → ok = true) : ((s.finish j ok).phase i).Saved := by
    rw [Store.finish_phase]
    split_ifs with heq
    · exact .inr (by rw [hok heq.symm])
    · exact hi
  -- the phase of the command that moves
  have hown {j : ι} (heq : j = i) : (∃ c seen rest, s.phase j = .loaded c seen rest true) ∨ s.phase j = .done true := by
    subst heq
    exact hi
  cases hstep with
  | lock hidle => exact hgoto fun heq => by rcases hown heq with ⟨_, _, _, h⟩ | h <;> rw [hidle] at h <;> cases h
  | load hload => exact hgoto fun heq => by rcases hown heq with ⟨_, _, _, h⟩ | h <;> rcases hload with ⟨hphase, -⟩ | hphase <;> rw [hphase] at h <;> cases h
  | refuse hphase hrefuse =>
    refine hfinish fun heq => ?_
    rcases hown heq with ⟨_, _, _, h⟩ | h
    · rw [hphase] at h
      cases h
      exact absurd hrefuse (hwhole _ _ _ _ hphase)
    · rw [hphase] at h; cases h
  | keep hphase =>
    refine hgoto fun heq => ?_
    rcases hown heq with ⟨_, _, _, h⟩ | h
    · rw [hphase] at h
      cases h
      exact .inl ⟨_, _, _, rfl⟩
    · rw [hphase] at h; cases h
  | save => exact hgoto fun _ => .inl ⟨_, _, _, rfl⟩
  | finish => exact hfinish fun _ => rfl
  | @fail j hphase =>
    refine hfinish fun heq => ?_
    rcases hown heq with ⟨c, seen, rest, h⟩ | h
    · exact absurd h (hwhole c seen rest)
    · rcases hphase with hphase | hphase | ⟨_, _, _, _, _, hphase⟩ <;> rw [hphase] at h <;> cases h

theorem Phase.Late.mono {version version' : Nat} (h : p.Late version) (hle : version ≤ version') : p.Late version' :=
  fun c seen f rest saved hp => (h c seen f rest saved hp).trans_le hle

/-- A command that was late cannot go on to update. -/
theorem late_step (hunloaded : ¬ (s.phase j).Unloaded) (hlate : (s.phase j).Late s.version) (hcurrent : UpToDate s e) (hstep : Step commands s e s') :
    ¬ (s'.phase j).Unloaded ∧ (s'.phase j).Late s'.version := by
  have hdone {ok : Bool} {version : Nat} : ¬ (Phase.done ok : Phase σ).Unloaded ∧ (Phase.done ok : Phase σ).Late version := by
    refine ⟨fun h => ?_, nofun⟩
    rcases h with h | h <;> cases h
  have hfinish {i : ι} {ok : Bool} : ¬ ((s.finish i ok).phase j).Unloaded ∧ ((s.finish i ok).phase j).Late s.version := by
    rw [Store.finish_phase]
    split_ifs
    · exact hdone
    · exact ⟨hunloaded, hlate⟩
  have hgoto {i : ι} {p : Phase σ} {version : Nat} (hne : j ≠ i) (hle : s.version ≤ version) :
      ¬ ((s.goto i p).phase j).Unloaded ∧ ((s.goto i p).phase j).Late version := by
    rw [Store.goto_phase, if_neg hne]
    exact ⟨hunloaded, hlate.mono hle⟩
  cases hstep with
  | @lock i hidle => exact hgoto (fun heq => hunloaded (heq ▸ .inl hidle)) (Nat.le_refl _)
  | @load i hload =>
    refine hgoto (fun heq => hunloaded (heq ▸ ?_)) (Nat.le_refl _)
    rcases hload with ⟨hphase, -⟩ | hphase
    · exact .inl hphase
    · exact .inr hphase
  | @keep i c seen f rest saved hphase hkeep =>
    refine hgoto (fun heq => ?_) (Nat.le_refl _)
    subst heq
    exact absurd (hcurrent c seen f rest saved hphase (by simp [hkeep])) (hlate c seen f rest saved hphase).ne
  | @save i c c' seen f rest saved hphase hsave =>
    refine hgoto (fun heq => ?_) (Nat.le_succ _)
    subst heq
    exact absurd (hcurrent c seen f rest saved hphase (by simp [hsave])) (hlate c seen f rest saved hphase).ne
  | refuse | finish | fail => exact hfinish

variable {P : σ → Prop} {t : Store σ ι}

theorem KeptSince.step (hinv : Inv commands s) (h : KeptSince commands P t s) (hwhole : Whole s e) (hcurrent : UpToDate s e)
    (hstep : Step commands s e s') : KeptSince commands P t s' := by
  refine ⟨?_, fun j hj => late_step (h.late j hj).1 (h.late j hj).2 hcurrent hstep⟩
  rcases h.kept with hP | ⟨i, hi, hsaved, hbreaks⟩
  · cases hstep with
    | @save i c c' seen f rest saved hphase hsave =>
      have hseen := hcurrent c seen f rest saved hphase (by simp [hsave])
      have hloaded := hinv.loaded i c seen _ saved hphase
      rw [← hloaded.current hseen] at hP
      by_cases hP' : P c'
      · exact .inl hP'
      · refine .inr ⟨i, ?_, ?_, f, hloaded.suffix.subset (List.mem_cons_self ..), c, c', hP, hsave, hP'⟩
        · by_contra hunloaded
          exact absurd hseen ((h.late i hunloaded).2 c seen f rest saved hphase).ne
        · exact .inl ⟨c', s.version + 1, rest, Store.goto_phase.trans (if_pos rfl)⟩
    | _ => exact .inl hP
  · exact .inr ⟨i, hi, saved_step hwhole hstep hsaved, hbreaks⟩

/-- After a command's last save, what the content is like changes only by commands
that load later. -/
theorem kept_run {before after : List (Event ι)} (hbefore : Run (guarded (Step commands) (Careful commands)) (.start c₀) before t)
    (hafter : Run (guarded (Step commands) (Careful commands)) t after s) (hP : P t.content) (hlate : ∀ i, (t.phase i).Late t.version) :
    P s.content ∨ ∃ i, (t.phase i).Unloaded ∧ (s.phase i).Saved ∧ (commands i).Breaks P := by
  have hall : Inv commands s ∧ KeptSince commands P t s := by
    have hinv : Inv commands t := hbefore.invariant (I := Inv commands) (fun _ _ _ h hstep => h.step hstep.2) (inv_start c₀)
    refine hafter.history (I := fun _ s => Inv commands s ∧ KeptSince commands P t s) (fun more u e u' hmore h hstep => ?_)
      ⟨hinv, .inl hP, fun i hi => ⟨hi, hlate i⟩⟩
    have hcurrent := careful_upToDate (hbefore.append hmore).unguarded hstep.1
    exact ⟨h.1.step hstep.2, h.2.step h.1 hstep.1.1 hcurrent hstep.2⟩
  exact hall.2.kept

end

end Stores
