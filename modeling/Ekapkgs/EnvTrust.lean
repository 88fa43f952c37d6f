import Ekapkgs.EnvManifest
import Ekapkgs.Lib.Runs

/-!
# Trusted environments

`config.rs` and `env.rs`: a shell hook builds the manifest of a directory only when
the hash of the file is the one recorded for the directory. Every access to the
manifest and to the trust database reads or writes the file anew, and anything can
happen in between.
-/

namespace Ekapkgs
open Runs

inductive EnvCommand where
  | allow | disallow | reload
  /-- The commands of the shell hook. -/
  | reloadHook | hasDevshell | renderEnv
  deriving DecidableEq

/-- Canonical directory paths to the hash of their manifest. -/
abbrev TrustedEnvs (D H : Type) := D → Option H

/-- Where a command is, and what it has read. -/
inductive TrustPhase (D H : Type) where
  | started (command : EnvCommand) (dir : D)
  | loadedManifest (dir : D) (content : Bytes) (manifest : EnvManifest)
  /-- About to load the database, after `reload` has built the content. -/
  | recording (dir : D) (built : Option Bytes)
  | loadedTrusted (dir : D) (built : Option Bytes) (trusted : TrustedEnvs D H)
  | hashed (dir : D) (built : Option Bytes) (content : Bytes) (trusted : TrustedEnvs D H)
  | recorded (dir : D) (built : Option Bytes) (content : Bytes)
  | revoking (dir : D) (trusted : TrustedEnvs D H)
  | revoked (dir : D)
  | checking (command : EnvCommand) (dir : D) (trusted : TrustedEnvs D H)
  /-- The content was trusted, with what the database had then. -/
  | trusts (command : EnvCommand) (dir : D) (content : Bytes) (stored : Option H)
  /-- The manifest was loaded, and is built. -/
  | uses (command : EnvCommand) (dir : D) (content : Bytes) (stored : Option H)
  | refused
  | failed

structure EnvHost (ι D H : Type) where
  manifest : D → Option Bytes
  trusted : TrustedEnvs D H
  phase : ι → TrustPhase D H

inductive EnvEvent (ι D : Type) where
  | edit (dir : D) (content : Option Bytes)
  | step (i : ι)
  | fail (i : ι)

/-- The hash of a file, and how a manifest is read from its text. -/
structure EnvReaders (H : Type) where
  blake3 : Bytes → H
  fromStr : Bytes → Option EnvManifest

variable {ι D H : Type} [DecidableEq D] [DecidableEq H] (readers : EnvReaders H)

def EnvHost.start [DecidableEq ι] (manifest : D → Option Bytes) (trusted : TrustedEnvs D H) (commands : ι → EnvCommand × D) : EnvHost ι D H :=
  ⟨manifest, trusted, fun i => .started (commands i).1 (commands i).2⟩

/-- `EnvManifest::load_from`. -/
def EnvHost.loadFrom (s : EnvHost ι D H) (dir : D) : Option (Bytes × EnvManifest) := do
  let content ← s.manifest dir
  let manifest ← readers.fromStr content
  pure (content, manifest)

/-- The content that a hook command that trusts the manifest goes on to build. -/
def EnvHost.toBuild (s : EnvHost ι D H) (command : EnvCommand) (dir : D) : Option Bytes := do
  let (content, manifest) ← s.loadFrom readers dir
  if command ≠ .reloadHook ∧ manifest.flakes = [] then none else some content

/-- `trusted.allow(dir)` with the content that was hashed. -/
def TrustedEnvs.allow (trusted : TrustedEnvs D H) (dir : D) (content : Bytes) : TrustedEnvs D H :=
  Function.update trusted dir (some (readers.blake3 content))

def TrustedEnvs.disallow (trusted : TrustedEnvs D H) (dir : D) : TrustedEnvs D H := Function.update trusted dir none

/-- Does the hash of the manifest match? -/
def TrustedEnvs.isTrusted (trusted : TrustedEnvs D H) (dir : D) (current : Option Bytes) : Bool :=
  match trusted dir, current with
  | some stored, some content => stored = readers.blake3 content
  | _, _ => false

/-- The next access of a command that does not fail: the phase it leads to, and what
the database is afterwards. -/
def EnvHost.advance (s : EnvHost ι D H) : TrustPhase D H → Option (TrustPhase D H × TrustedEnvs D H)
  | .started .allow dir => some (if (s.manifest dir).isSome then .recording dir none else .failed, s.trusted)
  | .started .disallow dir => some (.revoking dir s.trusted, s.trusted)
  | .started .reload dir =>
    match s.loadFrom readers dir with
    | some (content, manifest) => some (.loadedManifest dir content manifest, s.trusted)
    | none => some (.failed, s.trusted)
  | .started command dir => some (.checking command dir s.trusted, s.trusted)
  -- the profile is built, and the dev shells when there are flakes
  | .loadedManifest dir content _ => some (.recording dir (some content), s.trusted)
  | .recording dir built => some (.loadedTrusted dir built s.trusted, s.trusted)
  | .loadedTrusted dir built trusted =>
    match s.manifest dir with
    | some content => some (.hashed dir built content trusted, s.trusted)
    | none => some (.failed, s.trusted)
  | .hashed dir built content trusted => some (.recorded dir built content, trusted.allow readers dir content)
  | .revoking dir trusted => some (.revoked dir, trusted.disallow dir)
  | .checking command dir trusted =>
    match s.manifest dir with
    | some content =>
      if trusted.isTrusted readers dir (some content) then some (.trusts command dir content (s.trusted dir), s.trusted)
      else some (.refused, s.trusted)
    | none => some (.refused, s.trusted)
  | .trusts command dir _ stored =>
    match s.toBuild readers command dir with
    | some content => some (.uses command dir content stored, s.trusted)
    | none => some (.failed, s.trusted)
  | .recorded .. | .revoked _ | .uses .. | .refused | .failed => none

variable [DecidableEq ι]

def EnvHost.next (s : EnvHost ι D H) : EnvEvent ι D → Option (EnvHost ι D H)
  | .edit dir content => some { s with manifest := Function.update s.manifest dir content }
  | .step i => (s.advance readers (s.phase i)).map fun (p, trusted) => { s with trusted, phase := Function.update s.phase i p }
  | .fail i => (s.advance readers (s.phase i)).map fun _ => { s with phase := Function.update s.phase i .failed }

abbrev envStep : EnvHost ι D H → EnvEvent ι D → EnvHost ι D H → Prop := stepOf (EnvHost.next readers)

/-! ## What is built and what is recorded -/

/-- What a command has found out holds of the content that it uses or records. -/
def TrustPhase.Honest : TrustPhase D H → Prop
  | .trusts _ _ content stored => stored = some (readers.blake3 content)
  | .uses _ _ content stored => stored = some (readers.blake3 content)
  | .hashed _ built content _ => ∀ c ∈ built, readers.blake3 c = readers.blake3 content
  | .recorded _ built content => ∀ c ∈ built, readers.blake3 c = readers.blake3 content
  | _ => True

/-- A manifest is not edited between two reads of one command, and the database is
not changed between the load and the check. -/
def SameContent (s : EnvHost ι D H) : EnvEvent ι D → Prop
  | .step i =>
    match s.phase i with
    | .checking _ dir trusted => trusted.isTrusted readers dir (s.manifest dir) = true → s.trusted dir = trusted dir
    | .trusts command dir content _ => ∀ c ∈ s.toBuild readers command dir, readers.blake3 c = readers.blake3 content
    | .loadedTrusted dir built _ => ∀ c ∈ built, ∀ content ∈ s.manifest dir, readers.blake3 c = readers.blake3 content
    | _ => True
  | _ => True

instance (s : EnvHost ι D H) (e : EnvEvent ι D) : Decidable (SameContent readers s e) := by
  unfold SameContent
  split
  · split <;> infer_instance
  · infer_instance

variable {readers} {s s' : EnvHost ι D H} {e : EnvEvent ι D}

theorem isTrusted_iff {trusted : TrustedEnvs D H} {dir : D} {content : Bytes} :
    trusted.isTrusted readers dir (some content) = true ↔ trusted dir = some (readers.blake3 content) := by
  unfold TrustedEnvs.isTrusted
  cases trusted dir with
  | none => simp
  | some stored => simp

/-- The phase of the command that moves. -/
theorem advance_honest_iff {i : ι} {p : TrustPhase D H} {trusted : TrustedEnvs D H} (h : (s.phase i).Honest readers)
    (hstep : s.advance readers (s.phase i) = some (p, trusted)) : p.Honest readers ↔ SameContent readers s (.step i) := by
  unfold SameContent
  dsimp only
  generalize s.phase i = q at h hstep ⊢
  cases q with
  | started command dir =>
    cases command with
    | allow =>
      cases hstep
      split_ifs <;> simp [TrustPhase.Honest]
    | reload =>
      dsimp only [EnvHost.advance] at hstep
      split at hstep <;> cases hstep <;> simp [TrustPhase.Honest]
    | _ => cases hstep; simp [TrustPhase.Honest]
  | loadedManifest | recording | revoking => cases hstep; simp [TrustPhase.Honest]
  | loadedTrusted dir built db =>
    dsimp only [EnvHost.advance] at hstep
    cases hmanifest : s.manifest dir with
    | some content => rw [hmanifest] at hstep; cases hstep; simp [TrustPhase.Honest, hmanifest]
    | none => rw [hmanifest] at hstep; cases hstep; simp [TrustPhase.Honest, hmanifest]
  | hashed dir built content db =>
    cases hstep
    exact ⟨fun _ => trivial, fun _ => h⟩
  | checking command dir db =>
    dsimp only [EnvHost.advance] at hstep
    cases hmanifest : s.manifest dir with
    | some content =>
      rw [hmanifest] at hstep
      dsimp only at hstep
      split_ifs at hstep with htrusted
      · cases hstep
        rw [isTrusted_iff] at htrusted
        simp [TrustPhase.Honest, hmanifest, isTrusted_iff, htrusted]
      · cases hstep
        simp [TrustPhase.Honest, hmanifest, htrusted]
    | none =>
      rw [hmanifest] at hstep
      cases hstep
      simp [TrustPhase.Honest, TrustedEnvs.isTrusted, hmanifest]
  | trusts command dir content stored =>
    dsimp only [EnvHost.advance] at hstep
    have hstored : stored = some (readers.blake3 content) := h
    cases hbuild : s.toBuild readers command dir with
    | some c => rw [hbuild] at hstep; cases hstep; simp [TrustPhase.Honest, hbuild, hstored, eq_comm]
    | none => rw [hbuild] at hstep; cases hstep; simp [TrustPhase.Honest, hbuild]
  | recorded | revoked | uses | refused | failed => cases hstep

def EnvHost.Honest (readers : EnvReaders H) (s : EnvHost ι D H) : Prop := ∀ i, (s.phase i).Honest readers

/-- Each step keeps what is used and recorded honest, or breaks it at once. -/
theorem honest_step_iff (h : s.Honest readers) (hstep : envStep readers s e s') : s'.Honest readers ↔ SameContent readers s e := by
  cases e with
  | edit dir content => cases hstep; exact ⟨fun _ => trivial, fun _ => h⟩
  | step i =>
    obtain ⟨⟨p, trusted⟩, hadvance, rfl⟩ := Option.map_eq_some_iff.mp (show (s.advance readers (s.phase i)).map _ = some s' from hstep)
    rw [← advance_honest_iff (h i) hadvance]
    constructor
    · intro hhonest
      have hi := hhonest i
      dsimp only at hi
      rwa [Function.update_self] at hi
    · intro hp j
      dsimp only
      rw [Function.update_apply]
      split_ifs
      · exact hp
      · exact h j
  | fail i =>
    obtain ⟨⟨p, trusted⟩, -, rfl⟩ := Option.map_eq_some_iff.mp (show (s.advance readers (s.phase i)).map _ = some s' from hstep)
    refine ⟨fun _ => trivial, fun _ j => ?_⟩
    dsimp only
    rw [Function.update_apply]
    split_ifs
    · trivial
    · exact h j

/-! ## Where a hash in the database comes from -/

variable (readers) in
/-- A command has recorded the hash of content that it has read. -/
def RecordedBy (s : EnvHost ι D H) (dir : D) (hash : H) : Prop :=
  ∃ i built content, s.phase i = .recorded dir built content ∧ hash = readers.blake3 content

/-- The database that a command has read and may write back. -/
def TrustPhase.snapshot : TrustPhase D H → Option (TrustedEnvs D H)
  | .loadedTrusted _ _ trusted => some trusted
  | .hashed _ _ _ trusted => some trusted
  | .revoking _ trusted => some trusted
  | _ => none

section
variable (readers) (initial : TrustedEnvs D H)

def FromRecords (s : EnvHost ι D H) (trusted : TrustedEnvs D H) : Prop :=
  ∀ dir hash, trusted dir = some hash → initial dir = some hash ∨ RecordedBy readers s dir hash

structure RecordsKept (s : EnvHost ι D H) : Prop where
  trusted : FromRecords readers initial s s.trusted
  snapshot : ∀ i trusted, (s.phase i).snapshot = some trusted → FromRecords readers initial s trusted

end

variable {initial : TrustedEnvs D H}

theorem advance_recorded {q p : TrustPhase D H} {trusted : TrustedEnvs D H} (hstep : s.advance readers q = some (p, trusted)) :
    ∀ dir built content, q ≠ .recorded dir built content := by
  rintro dir built content rfl
  cases hstep

/-- What is written: the database as it is, a snapshot with the hash that was read, or
a snapshot with an entry less. -/
theorem advance_written {q p : TrustPhase D H} {trusted : TrustedEnvs D H} (hstep : s.advance readers q = some (p, trusted)) :
    (trusted = s.trusted ∧ (p.snapshot = none ∨ p.snapshot = some s.trusted ∨ p.snapshot = q.snapshot)) ∨
    (∃ dir built content db, q.snapshot = some db ∧ p = .recorded dir built content ∧ trusted = db.allow readers dir content) ∨
    ∃ dir db, q.snapshot = some db ∧ p = .revoked dir ∧ trusted = db.disallow dir := by
  cases q with
  | started command dir =>
    cases command with
    | reload =>
      dsimp only [EnvHost.advance] at hstep
      split at hstep <;> cases hstep <;> exact .inl ⟨rfl, .inl rfl⟩
    | allow => cases hstep; exact .inl ⟨rfl, .inl (by split_ifs <;> rfl)⟩
    | disallow => cases hstep; exact .inl ⟨rfl, .inr (.inl rfl)⟩
    | _ => cases hstep; exact .inl ⟨rfl, .inl rfl⟩
  | loadedManifest => cases hstep; exact .inl ⟨rfl, .inl rfl⟩
  | recording => cases hstep; exact .inl ⟨rfl, .inr (.inl rfl)⟩
  | loadedTrusted dir built db =>
    dsimp only [EnvHost.advance] at hstep
    split at hstep
    · cases hstep; exact .inl ⟨rfl, .inr (.inr rfl)⟩
    · cases hstep; exact .inl ⟨rfl, .inl rfl⟩
  | hashed dir built content db => cases hstep; exact .inr (.inl ⟨dir, built, content, db, rfl, rfl, rfl⟩)
  | revoking dir db => cases hstep; exact .inr (.inr ⟨dir, db, rfl, rfl, rfl⟩)
  | checking command dir db =>
    dsimp only [EnvHost.advance] at hstep
    split at hstep
    · split_ifs at hstep <;> cases hstep <;> exact .inl ⟨rfl, .inl rfl⟩
    · cases hstep; exact .inl ⟨rfl, .inl rfl⟩
  | trusts command dir content stored =>
    dsimp only [EnvHost.advance] at hstep
    split at hstep <;> cases hstep <;> exact .inl ⟨rfl, .inl rfl⟩
  | recorded | revoked | uses | refused | failed => cases hstep

theorem FromRecords.mono {trusted : TrustedEnvs D H} (h : FromRecords readers initial s trusted)
    (hkept : ∀ dir hash, RecordedBy readers s dir hash → RecordedBy readers s' dir hash) : FromRecords readers initial s' trusted :=
  fun dir hash hentry => (h dir hash hentry).imp_right (hkept dir hash)

theorem RecordsKept.step (h : RecordsKept readers initial s) (hstep : envStep readers s e s') : RecordsKept readers initial s' := by
  -- a command that goes on has not recorded anything yet
  have hmoves {i : ι} {q : TrustPhase D H} {trusted : TrustedEnvs D H} (hadvance : s.advance readers (s.phase i) = some (q, trusted))
      (p : TrustPhase D H) (trusted' : TrustedEnvs D H) :
      ∀ dir hash, RecordedBy readers s dir hash → RecordedBy readers { s with trusted := trusted', phase := Function.update s.phase i p } dir hash := by
    rintro dir hash ⟨j, built, content, hj, heq⟩
    refine ⟨j, built, content, ?_, heq⟩
    have hne : j ≠ i := fun hji => advance_recorded hadvance dir built content (hji ▸ hj)
    exact (Function.update_of_ne hne ..).trans hj
  cases e with
  | edit dir content => cases hstep; exact ⟨h.trusted, h.snapshot⟩
  | fail i =>
    obtain ⟨⟨q, trusted⟩, hadvance, rfl⟩ := Option.map_eq_some_iff.mp (show (s.advance readers (s.phase i)).map _ = some s' from hstep)
    refine ⟨h.trusted.mono (hmoves hadvance _ _), fun j db hj => ?_⟩
    dsimp only at hj
    rw [Function.update_apply] at hj
    split_ifs at hj
    · cases hj
    · exact (h.snapshot j db hj).mono (hmoves hadvance _ _)
  | step i =>
    obtain ⟨⟨p, trusted⟩, hadvance, rfl⟩ := Option.map_eq_some_iff.mp (show (s.advance readers (s.phase i)).map _ = some s' from hstep)
    have hkept := hmoves hadvance p trusted
    have hother {j : ι} {db : TrustedEnvs D H} (hj : (Function.update s.phase i p j).snapshot = some db) (hp : p.snapshot = some db → FromRecords readers initial s db) :
        FromRecords readers initial s db := by
      rw [Function.update_apply] at hj
      split_ifs at hj
      · exact hp hj
      · exact h.snapshot j db hj
    rcases advance_written hadvance with ⟨rfl, hp⟩ | ⟨dir, built, content, db, hdb, rfl, rfl⟩ | ⟨dir, db, hdb, rfl, rfl⟩
    · refine ⟨h.trusted.mono hkept, fun j db hj => (hother hj fun heq => ?_).mono hkept⟩
      rcases hp with hp | hp | hp
      · cases hp.symm.trans heq
      · cases hp.symm.trans heq; exact h.trusted
      · exact h.snapshot i db (hp.symm.trans heq)
    · refine ⟨fun dir' hash hentry => ?_, fun j db' hj => (hother hj nofun).mono hkept⟩
      dsimp only [TrustedEnvs.allow] at hentry
      rw [Function.update_apply] at hentry
      split_ifs at hentry with heq
      · cases hentry
        exact .inr ⟨i, built, content, heq ▸ Function.update_self .., rfl⟩
      · exact (h.snapshot i db hdb).mono hkept dir' hash hentry
    · refine ⟨fun dir' hash hentry => ?_, fun j db' hj => (hother hj nofun).mono hkept⟩
      dsimp only [TrustedEnvs.disallow] at hentry
      rw [Function.update_apply] at hentry
      split_ifs at hentry
      exact (h.snapshot i db hdb).mono hkept dir' hash hentry

variable {manifest : D → Option Bytes} {commands : ι → EnvCommand × D} {es : List (EnvEvent ι D)}

variable (readers initial) in
/-- Hooks build content whose hash was recorded when they trusted it, and what is
recorded is the hash of content that its command read, and built if it is a reload. -/
structure AboutContent (s : EnvHost ι D H) : Prop where
  uses : ∀ i command dir content stored, s.phase i = .uses command dir content stored → stored = some (readers.blake3 content)
  recorded : ∀ i dir built content, s.phase i = .recorded dir built content → ∀ c, built = some c → readers.blake3 c = readers.blake3 content
  entries : ∀ dir hash, s.trusted dir = some hash → initial dir = some hash ∨ RecordedBy readers s dir hash

theorem trust_aboutContent (hrun : Run (guarded (envStep readers) (SameContent readers)) (.start manifest initial commands) es s) :
    AboutContent readers initial s := by
  have hhonest : s.Honest readers := hrun.invariant (I := EnvHost.Honest readers) (fun _ _ _ h hstep => (honest_step_iff h hstep.2).mpr hstep.1) fun i => trivial
  have hkept : RecordsKept readers initial s := hrun.invariant (I := RecordsKept readers initial) (fun _ _ _ h hstep => h.step hstep.2) ⟨fun _ _ => .inl, nofun⟩
  refine ⟨fun i command dir content stored hi => ?_, fun i dir built content hi => ?_, hkept.trusted⟩
  · have := hhonest i
    rwa [hi] at this
  · have := hhonest i
    rwa [hi] at this

/-! ## Edits between two reads -/

def plainReaders : EnvReaders Bytes := ⟨id, fun _ => some .default⟩

/-- One command allows, another one is the hook. -/
def allowThenHook (command : EnvCommand) : EnvHost Bool Unit Bytes :=
  .start (fun _ => some [1]) (fun _ => none) fun i => (if i then .reloadHook else command, ())

def undisturbedHook : List (EnvEvent Bool Unit) := List.replicate 4 (.step false) ++ List.replicate 3 (.step true)

theorem trust_aboutContent_undisturbedHook : ∃ s, s.phase true = .uses .reloadHook () [1] (some [1]) ∧ AboutContent plainReaders (fun _ => none) s := by
  have hphase : (undisturbedHook.foldlM (fun s e => if SameContent plainReaders s e then s.next plainReaders e else none) (allowThenHook .allow)).map
      (fun s => s.phase true) = some (.uses .reloadHook () [1] (some [1])) := rfl
  obtain ⟨s, hs, huses⟩ := Option.map_eq_some_iff.mp hphase
  exact ⟨s, huses, trust_aboutContent (run_of_foldlM_guarded hs)⟩

def editedAfterCheck : List (EnvEvent Bool Unit) :=
  List.replicate 4 (.step false) ++ List.replicate 2 (.step true) ++ [.edit () (some [2]), .step true]

/-- The hook has checked one content and builds another. -/
theorem untrusted_content_built : ¬ ∀ es s, Run (envStep plainReaders) (allowThenHook .allow) es s → AboutContent plainReaders (fun _ => none) s := by
  intro h
  have hphase : (editedAfterCheck.foldlM (EnvHost.next plainReaders) (allowThenHook .allow)).map (fun s => s.phase true) =
      some (.uses .reloadHook () [2] (some [1])) := rfl
  obtain ⟨s, hs, huses⟩ := Option.map_eq_some_iff.mp hphase
  have := (h editedAfterCheck s (run_of_foldlM hs)).uses true _ _ _ _ huses
  exact absurd this (by decide)

end Ekapkgs
