import Ekapkgs.EnvScript

/-!
# When a fresh script is the script of the inputs

A modification time says which version of which file it is, so a fingerprint says
what the inputs were. A script is as good as its fingerprint when no input changes
between a run's read and its stamp, and nobody writes a script in between.
-/

namespace Ekapkgs
open Runs

/-! ## What a fingerprint says -/

theorem flatMap_mtimes_inj : ∀ {xs ys : List Mtime}, (xs.flatMap fun mtime : Mtime => toLeBytes 16 mtime) = (ys.flatMap fun mtime : Mtime => toLeBytes 16 mtime) → xs = ys
  | [], [], _ => rfl
  | [], y :: ys, h => by simp [toLeBytes] at h
  | x :: xs, [], h => by simp [toLeBytes] at h
  | x :: xs, y :: ys, h => by
    rw [List.flatMap_cons, List.flatMap_cons] at h
    obtain ⟨hhead, htail⟩ := List.append_inj h (by rw [toLeBytes_length, toLeBytes_length])
    have hvalue := congrArg fromLeBytes hhead
    have hpow : 256 ^ 16 = 2 ^ 128 := by decide
    rw [fromLeBytes_toLeBytes, fromLeBytes_toLeBytes, hpow, Nat.mod_eq_of_lt x.isLt, Nat.mod_eq_of_lt y.isLt] at hvalue
    rw [Fin.ext hvalue, flatMap_mtimes_inj htail]

abbrev Versions := List (EnvInput × FileVersion)

def Versions.Distinct (versions : Versions) : Prop := (versions.map fun v => v.2.mtime).Nodup

/-- The files are versions that were written. -/
def InputFiles.Among (files : InputFiles) (versions : Versions) : Prop := ∀ f version, files f = some version → (f, version) ∈ versions

variable {files files' : InputFiles} {versions : Versions} {f : EnvInput} {version : FileVersion}

theorem mem_mtimes {mtime : Mtime} : mtime ∈ files.mtimes ↔ ∃ f version, files f = some version ∧ version.mtime = mtime := by
  unfold InputFiles.mtimes
  rw [List.mem_filterMap]
  constructor
  · rintro ⟨f, -, h⟩
    obtain ⟨version, hversion, hmtime⟩ := Option.map_eq_some_iff.mp h
    exact ⟨f, version, hversion, hmtime⟩
  · rintro ⟨f, version, hversion, hmtime⟩
    refine ⟨f, by cases f <;> simp [envInputs], ?_⟩
    rw [hversion, Option.map_some, hmtime]

theorem Versions.Distinct.eq_of_mtime (h : versions.Distinct) {v w : EnvInput × FileVersion} (hv : v ∈ versions) (hw : w ∈ versions)
    (heq : v.2.mtime = w.2.mtime) : v = w := List.inj_on_of_nodup_map h hv hw heq

theorem files_le_of_mtimes (hdistinct : versions.Distinct) (h : files.Among versions) (h' : files'.Among versions) (heq : files.mtimes = files'.mtimes)
    (hf : files f = some version) : files' f = some version := by
  have hmem : version.mtime ∈ files'.mtimes := heq ▸ mem_mtimes.mpr ⟨f, version, hf, rfl⟩
  obtain ⟨g, version', hg, hmtime⟩ := mem_mtimes.mp hmem
  cases hdistinct.eq_of_mtime (h' g version' hg) (h f version hf) hmtime
  exact hg

/-- Modification times that were given once stand for the files that have them. -/
theorem files_eq_of_mtimes (hdistinct : versions.Distinct) (h : files.Among versions) (h' : files'.Among versions) (heq : files.mtimes = files'.mtimes) :
    files = files' := by
  funext f
  cases hf : files f with
  | some version => exact (files_le_of_mtimes hdistinct h h' heq hf).symm
  | none =>
    cases hf' : files' f with
    | none => rfl
    | some version =>
      have := files_le_of_mtimes hdistinct h' h heq.symm hf'
      rw [hf] at this
      cases this

theorem contents_congr (h : ∀ f, files.content f = files'.content f) : files.contents = files'.contents := by
  unfold InputFiles.contents
  rw [h, h, h]

theorem InputFiles.Among.cons (h : files.Among versions) (v : EnvInput × FileVersion) : files.Among (v :: versions) :=
  fun f version hf => List.mem_cons_of_mem _ (h f version hf)

theorem InputFiles.Among.update (h : files.Among versions) {new : Option FileVersion} (hnew : ∀ version, new = some version → (f, version) ∈ versions) :
    InputFiles.Among (Function.update files f new) versions := by
  intro g version hg
  rw [Function.update_apply] at hg
  split_ifs at hg with heq
  · exact heq ▸ hnew version hg
  · exact h g version hg

/-! ## Runs -/

section
variable {ι H : Type} [DecidableEq ι] [DecidableEq H] (fromStr : Bytes → Option EnvManifest) (hash : Bytes → H)

/-- The scripts in place are those of these inputs. -/
def ScriptsOf (s : EnvDir ι H) (contents : EnvContents) : Prop :=
  ∀ shell ∈ envShells, ∀ script ∈ s.script shell, script = .rendered contents

/-- An input is stamped as it was read, scripts are written when they are out of date,
and when a run stores its fingerprint the scripts are its own. No deletion brings
back the fingerprint while scripts were rewritten. -/
def SettledInputs (s : EnvDir ι H) : ScriptEvent ι → Prop
  | .delete f => s.rewritten = true → s.fingerprint ≠ some (computeFingerprint hash (Function.update s.file f none))
  | .step i =>
    match s.phase i with
    | .writing (_ :: _) _ _ => s.isEnvFresh hash = false
    | .stamping (f :: _) inputs _ => s.file.content f = inputs.content f
    | .stamping [] inputs _ => ScriptsOf s inputs.contents
    | _ => True
  | _ => True

instance (s : EnvDir ι H) (contents : EnvContents) : Decidable (ScriptsOf s contents) := by
  unfold ScriptsOf
  infer_instance

instance (s : EnvDir ι H) (e : ScriptEvent ι) : Decidable (SettledInputs hash s e) := by
  unfold SettledInputs
  split
  · infer_instance
  · split <;> infer_instance
  · infer_instance

/-- What has been stamped was stamped as it was read. -/
def RenderPhase.Stamped (versions : Versions) : RenderPhase → Prop
  | .stamping todo inputs stamps => stamps.Among versions ∧ ∀ f, f ∉ todo → stamps.content f = inputs.content f
  | _ => True

structure ScriptInv (s : EnvDir ι H) : Prop where
  distinct : Versions.Distinct s.versions
  files : s.file.Among s.versions
  stamped : ∀ i, (s.phase i).Stamped s.versions
  stale : s.rewritten = true → s.isEnvFresh hash = false
  stored : ∀ h, s.fingerprint = some h → ∃ files : InputFiles, files.Among s.versions ∧ h = computeFingerprint hash files ∧
    (s.rewritten = false → ScriptsOf s files.contents)

variable {fromStr hash} {s s' : EnvDir ι H} {e : ScriptEvent ι} {i : ι}

theorem isEnvFresh_eq_false : s.isEnvFresh hash = false ↔ s.fingerprint ≠ some (computeFingerprint hash s.file) := decide_eq_false_iff_not

theorem computeFingerprint_inj (hhash : Function.Injective hash) (hdistinct : versions.Distinct) (h : files.Among versions) (h' : files'.Among versions)
    (heq : computeFingerprint hash files = computeFingerprint hash files') : files = files' :=
  files_eq_of_mtimes hdistinct h h' (flatMap_mtimes_inj (hhash heq))

theorem RenderPhase.Stamped.cons {p : RenderPhase} (h : p.Stamped versions) (v : EnvInput × FileVersion) : p.Stamped (v :: versions) := by
  cases p with
  | stamping todo inputs stamps => exact ⟨h.1.cons v, h.2⟩
  | _ => trivial

/-- A step that only moves a run. -/
theorem ScriptInv.goto (h : ScriptInv hash s) {p : RenderPhase} (hp : p.Stamped s.versions) :
    ScriptInv hash { s with phase := Function.update s.phase i p } := by
  refine ⟨h.distinct, h.files, fun j => ?_, h.stale, h.stored⟩
  dsimp only
  rw [Function.update_apply]
  split_ifs
  · exact hp
  · exact h.stamped j

/-- A script that is written while the fingerprint is out of date. -/
theorem ScriptInv.rewrite (h : ScriptInv hash s) (hstale : s.isEnvFresh hash = false) (script : EnvHookShell → Option EnvScript) :
    ScriptInv hash { s with script, rewritten := true } := by
  refine ⟨h.distinct, h.files, h.stamped, fun _ => hstale, fun fp hfp => ?_⟩
  obtain ⟨files, hamong, heq, -⟩ := h.stored fp hfp
  exact ⟨files, hamong, heq, nofun⟩

theorem ScriptInv.advance (h : ScriptInv hash s) (hguard : SettledInputs hash s (.step i)) (hstep : s.advance fromStr hash i = some s') : ScriptInv hash s' := by
  unfold SettledInputs at hguard
  unfold EnvDir.advance at hstep
  have hi := h.stamped i
  dsimp only at hguard hstep
  generalize s.phase i = q at hguard hstep hi
  match q with
  | .reading (f :: todo) inputs =>
    dsimp only at hstep
    split_ifs at hstep
    · split at hstep
      next => cases hstep; exact h.goto (by split_ifs <;> trivial)
      next => cases hstep; exact h.goto trivial
    · cases hstep
      exact h.goto trivial
  | .reading [] inputs => cases hstep; exact h.goto trivial
  | .writing (shell :: todo) false inputs => cases hstep; exact (h.rewrite hguard _).goto trivial
  | .writing (shell :: todo) true inputs => cases hstep; exact (h.rewrite hguard _).goto trivial
  | .writing [] opened inputs =>
    cases hstep
    refine h.goto ⟨nofun, fun f hf => absurd ?_ hf⟩
    cases f <;> simp [envInputs]
  | .stamping (f :: todo) inputs stamps =>
    cases hstep
    obtain ⟨hamong, hsame⟩ := hi
    refine h.goto ⟨hamong.update (h.files f), fun g hg => ?_⟩
    unfold InputFiles.content
    rw [Function.update_apply]
    split_ifs with heq
    · subst heq
      exact hguard
    · exact hsame g fun hmem => (List.mem_cons.mp hmem).elim heq hg
  | .stamping [] inputs stamps =>
    cases hstep
    obtain ⟨hamong, hsame⟩ := hi
    have hcontents : stamps.contents = inputs.contents := contents_congr fun f => hsame f nofun
    have hstored : ScriptInv hash { s with fingerprint := some (computeFingerprint hash stamps), rewritten := false } := by
      refine ⟨h.distinct, h.files, h.stamped, nofun, fun fp hfp => ?_⟩
      cases hfp
      exact ⟨stamps, hamong, rfl, fun _ => hcontents ▸ hguard⟩
    exact hstored.goto trivial

theorem ScriptInv.step (hhash : Function.Injective hash) (h : ScriptInv hash s) (hguard : SettledInputs hash s e) (hstep : scriptStep fromStr hash s e s') :
    ScriptInv hash s' := by
  cases e with
  | step i => exact h.advance hguard hstep
  | fail i =>
    obtain ⟨t, -, rfl⟩ := Option.map_eq_some_iff.mp (show (s.advance fromStr hash i).map _ = some s' from hstep)
    exact h.goto trivial
  | delete f =>
    cases hstep
    refine ⟨h.distinct, h.files.update nofun, h.stamped, fun hrewritten => ?_, h.stored⟩
    exact isEnvFresh_eq_false.mpr (hguard hrewritten)
  | write f version =>
    have hnext : s.next fromStr hash (.write f version) = some s' := hstep
    unfold EnvDir.next at hnext
    obtain ⟨hnew, hwritten⟩ := Option.ite_none_left_eq_some.mp hnext
    cases hwritten
    have hfiles : InputFiles.Among (Function.update s.file f (some version)) ((f, version) :: s.versions) :=
      (h.files.cons _).update fun v hv => by cases hv; exact List.mem_cons_self ..
    refine ⟨?_, hfiles, fun i => (h.stamped i).cons _, fun _ => ?_, fun fp hfp => ?_⟩
    · exact List.nodup_cons.mpr ⟨hnew, h.distinct⟩
    · -- no fingerprint of old versions is that of the new one
      refine isEnvFresh_eq_false.mpr fun hfp => ?_
      obtain ⟨files, hamong, heq, -⟩ := h.stored _ hfp
      have hmtimes := flatMap_mtimes_inj (hhash heq)
      have hmem : version.mtime ∈ InputFiles.mtimes (Function.update s.file f (some version)) :=
        mem_mtimes.mpr ⟨f, version, Function.update_self .., rfl⟩
      obtain ⟨g, version', hg, hmtime⟩ := mem_mtimes.mp (hmtimes ▸ hmem)
      exact hnew (List.mem_map.mpr ⟨(g, version'), hamong g version' hg, hmtime⟩)
    · obtain ⟨files, hamong, heq, hscripts⟩ := h.stored fp hfp
      exact ⟨files, hamong.cons _, heq, hscripts⟩

variable {es : List (ScriptEvent ι)}

end

/-! ## One run -/

def devShell : Bytes → Option EnvManifest := fun _ => some { EnvManifest.default with flakes := [⟨".", "default", none, []⟩] }

def rendered (edits : List (ScriptEvent Unit)) : List (ScriptEvent Unit) :=
  .write .manifest ⟨[1], 1⟩ :: .write .flakeNix ⟨[2], 2⟩ :: List.replicate 10 (.step ()) ++ edits ++ List.replicate 5 (.step ())

end Ekapkgs
