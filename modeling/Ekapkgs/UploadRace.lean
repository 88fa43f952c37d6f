import Ekapkgs.CastoreUpload
import Ekapkgs.Lib.Runs
import Ekapkgs.Sample

/-!
# The two halves of an upload

`put_narinfo` checks for the row of a path, reads its root and writes the row
back, each on its own; `put_nar` holds the database lock from the start of its
transaction to the commit. Each of them keeps the half of the row that it read.
-/

namespace Ekapkgs
open Keyed Fallible Runs

inductive NarinfoPc where
  | start
  | found (hasRoot : Bool)
  | read (rootNode : Option CaNode)
  | done
  deriving DecidableEq

/-- A transaction in progress has tables that nobody else sees. -/
inductive NarPc (δ : Type) where
  | start
  | writing (db : Db δ)
  | done

structure Uploads (δ : Type) where
  store : Store δ
  narinfo : NarinfoPc
  nar : NarPc δ

inductive UploadStep where
  | readExists
  | readRoot
  | writeRow (now : Nat)
  | ingest (now : Nat)
  | commit

variable {δ : Type} [DecidableEq δ] (ext : Ext δ) (level : Int) (content filePath : String) (data : Bytes)

def NarPc.isWriting : NarPc δ → Bool
  | .writing _ => true
  | _ => false

def uploadNext (u : Uploads δ) : UploadStep → Option (Uploads δ)
  | .readExists =>
    match NarInfo.parse content, u.narinfo with
    | some _, .start => onReturn (hasRoot (hashOfFilePath filePath) u.store) fun b st => ⟨st, .found b, u.nar⟩
    | _, _ => none
  | .readRoot =>
    match u.narinfo with
    | .found b => onReturn (rootFor ext (hashOfFilePath filePath) b u.store) fun root st => ⟨st, .read root, u.nar⟩
    | _ => none
  | .writeRow now =>
    match NarInfo.parse content, u.narinfo, u.nar.isWriting with
    | some narinfo, .read root, false =>
      onReturn (writeNarinfo ext now (hashOfFilePath filePath) narinfo root u.store) fun _ st => ⟨st, .done, u.nar⟩
    | _, _, _ => none
  | .ingest now =>
    match parseNar data, u.nar with
    | .ok narNode, .start =>
      onReturn (ingestNar ext level now (hashOfFilePath filePath) data narNode u.store) fun _ st =>
        ⟨{ st with db := u.store.db }, u.narinfo, .writing st.db⟩
    | _, _ => none
  | .commit =>
    match u.nar with
    | .writing db => some ⟨{ u.store with db }, u.narinfo, .done⟩
    | _ => none

abbrev uploadStep : Uploads δ → UploadStep → Uploads δ → Prop := stepOf (uploadNext ext level content filePath data)

def Uploads.init (st : Store δ) : Uploads δ := ⟨st, .start, .start⟩

/-- Both requests have returned. -/
def Uploads.finished (u : Uploads δ) : Bool :=
  match u.narinfo, u.nar with
  | .done, .done => true
  | _, _ => false

/-- The upload is committed before `put_narinfo` looks at the row, or after it
wrote it; in between only while it has found a row and not yet read the root,
or has read the very root that is committed. -/
def CommitSafe (t : NarNode) (u : Uploads δ) : UploadStep → Prop
  | .commit => u.narinfo = .start ∨ u.narinfo = .found true ∨ u.narinfo = .read (some (caNode ext t)) ∨ u.narinfo = .done
  | _ => True

instance (t : NarNode) (u : Uploads δ) (step : UploadStep) : Decidable (CommitSafe ext t u step) := by
  unfold CommitSafe; split <;> infer_instance

variable {ext level content filePath data} {u u' : Uploads δ}

/-! ## What a step does -/

omit [DecidableEq δ] in
theorem finished_iff : u.finished = true ↔ u.narinfo = .done ∧ u.nar = .done := by
  unfold Uploads.finished
  cases u.narinfo <;> cases u.nar <;> simp

theorem readExists_iff : uploadStep ext level content filePath data u .readExists u' ↔ ∃ narinfo b st,
    NarInfo.parse content = some narinfo ∧ u.narinfo = .start ∧ hasRoot (hashOfFilePath filePath) u.store = .ok b st ∧
      u' = ⟨st, .found b, u.nar⟩ := by
  unfold uploadStep stepOf uploadNext
  cases NarInfo.parse content with
  | none => simp
  | some narinfo => cases u.narinfo <;> simp [onReturn_eq_some]

theorem readRoot_iff : uploadStep ext level content filePath data u .readRoot u' ↔ ∃ b root st,
    u.narinfo = .found b ∧ rootFor ext (hashOfFilePath filePath) b u.store = .ok root st ∧
      u' = ⟨st, .read root, u.nar⟩ := by
  unfold uploadStep stepOf uploadNext
  cases u.narinfo <;> simp [onReturn_eq_some]

theorem writeRow_iff {now : Nat} : uploadStep ext level content filePath data u (.writeRow now) u' ↔ ∃ narinfo root a st,
    NarInfo.parse content = some narinfo ∧ u.narinfo = .read root ∧ u.nar.isWriting = false ∧
      writeNarinfo ext now (hashOfFilePath filePath) narinfo root u.store = .ok a st ∧ u' = ⟨st, .done, u.nar⟩ := by
  unfold uploadStep stepOf uploadNext
  cases NarInfo.parse content with
  | none => simp
  | some narinfo => cases u.narinfo <;> cases u.nar.isWriting <;> simp [onReturn_eq_some]

theorem ingest_iff {now : Nat} : uploadStep ext level content filePath data u (.ingest now) u' ↔ ∃ t a st,
    parseNar data = .ok t ∧ u.nar = .start ∧
      ingestNar ext level now (hashOfFilePath filePath) data t u.store = .ok a st ∧
      u' = ⟨{ st with db := u.store.db }, u.narinfo, .writing st.db⟩ := by
  unfold uploadStep stepOf uploadNext
  cases parseNar data with
  | error e => simp
  | ok t => cases u.nar <;> simp [onReturn_eq_some]

theorem commit_iff : uploadStep ext level content filePath data u .commit u' ↔ ∃ db,
    u.nar = .writing db ∧ u' = ⟨{ u.store with db }, u.narinfo, .done⟩ := by
  unfold uploadStep stepOf uploadNext
  cases u.nar <;> simp [eq_comm]

/-! ## One after the other -/

/-- Undisturbed, the three steps of `put_narinfo` are `put_narinfo`. -/
theorem putNarinfo_of_steps {u₁ u₂ u₃ : Uploads δ} {now : Nat}
    (h₁ : uploadStep ext level content filePath data u .readExists u₁)
    (h₂ : uploadStep ext level content filePath data u₁ .readRoot u₂)
    (h₃ : uploadStep ext level content filePath data u₂ (.writeRow now) u₃) :
    putNarinfo ext now (hashOfFilePath filePath) content u.store = .ok true u₃.store := by
  obtain ⟨narinfo, b, st₁, hparse, -, hexists, rfl⟩ := readExists_iff.mp h₁
  obtain ⟨_, root, st₂, hb, hroot, rfl⟩ := readRoot_iff.mp h₂
  obtain ⟨_, _, _, st₃, hparse', hread, -, hwrite, rfl⟩ := writeRow_iff.mp h₃
  cases hb
  cases hread
  cases hparse.symm.trans hparse'
  unfold putNarinfo
  rw [hparse]
  have hreadRoot : readRoot ext (hashOfFilePath filePath) u.store = .ok root st₂ := (bind_of_ok hexists).trans hroot
  exact (bind_of_ok hreadRoot).trans ((bind_of_ok hwrite).trans rfl)

/-- Undisturbed, the two steps of `put_nar` are `put_nar`. -/
theorem putNar_of_steps (laws : ext.Laws) {u₁ u₂ : Uploads δ} {now : Nat} (hf : u.store.faults = [])
    (h₁ : uploadStep ext level content filePath data u (.ingest now) u₁)
    (h₂ : uploadStep ext level content filePath data u₁ .commit u₂) :
    putNar ext level now filePath data u.store = .ok true u₂.store := by
  obtain ⟨t, _, st, hparse, -, hingest, rfl⟩ := ingest_iff.mp h₁
  obtain ⟨db, hdb, rfl⟩ := commit_iff.mp h₂
  cases hdb
  obtain ⟨_, hrecorded⟩ := ingestNar_quiet laws level hf now (hashOfFilePath filePath) data t
  have hquiet : st.faults = [] := by
    rw [hrecorded] at hingest
    cases hingest
    exact (ingested_frame ext level u.store t).2.2.2.trans hf
  unfold putNar
  simp only [hparse]
  exact (bind_of_ok (withTransaction_quiet hf hingest hquiet)).trans rfl

/-! ## Every run -/

variable {narinfo : NarInfo} {t : NarNode}

structure UploadInv (ext : Ext δ) (hash : String) (data : Bytes) (narinfo : NarInfo) (t : NarNode) (u : Uploads δ) : Prop where
  quiet : u.store.faults = []
  found : u.narinfo = .found true → ∃ row, u.store.db.casPaths.get? hash = some row
  read : u.narinfo ≠ .read none
  written : u.narinfo = .done → ∃ now root, u.store.db.casPaths.get? hash = some (pathRow ext now narinfo root)
  writing : ∀ db, u.nar = .writing db → ∃ now,
    db.casPaths.get? hash = some (pathRow ext now (narinfoFor ext u.store.db hash data) (caNode ext t))

/-- The upload is committed, and the row has its root or will keep it. -/
structure RootKept (ext : Ext δ) (hash : String) (t : NarNode) (u : Uploads δ) : Prop where
  root : u.nar = .done → ∃ row, u.store.db.casPaths.get? hash = some row ∧ row.rootNode = ext.encodeNode (caNode ext t)
  found : u.nar = .done → u.narinfo ≠ .found false
  read : u.nar = .done → ∀ root, u.narinfo = .read root → root = some (caNode ext t)

/-- The upload is committed, and the row has lost its root or will lose it. -/
structure RootLost (ext : Ext δ) (hash : String) (t : NarNode) (u : Uploads δ) : Prop where
  nar : u.nar = .done
  narinfo : u.narinfo = .found false ∨ (∃ root, u.narinfo = .read (some root) ∧ root ≠ caNode ext t) ∨
    u.narinfo = .done ∧ ∃ row, u.store.db.casPaths.get? hash = some row ∧ row.rootNode ≠ ext.encodeNode (caNode ext t)

section
variable {hash : String} {st st' : Store δ}

omit [DecidableEq δ] in
theorem uploadInv_init (hf : st.faults = []) : UploadInv ext hash data narinfo t (Uploads.init st) :=
  ⟨hf, nofun, nofun, nofun, nofun⟩

omit [DecidableEq δ] in
theorem rootKept_init : RootKept ext hash t (Uploads.init st) := ⟨nofun, nofun, nofun⟩

end

section
variable {step : UploadStep} (laws : ext.Laws) (hinfo : NarInfo.parse content = some narinfo) (hnar : parseNar data = .ok t)
include laws hinfo hnar

theorem uploadInv_step (h : UploadInv ext (hashOfFilePath filePath) data narinfo t u)
    (hstep : uploadStep ext level content filePath data u step u') :
    UploadInv ext (hashOfFilePath filePath) data narinfo t u' := by
  cases step with
  | readExists =>
    obtain ⟨_, b, st, -, hpc, hexists, rfl⟩ := readExists_iff.mp hstep
    cases (query_quiet h.quiet).symm.trans hexists
    refine ⟨h.quiet, fun hb => ?_, nofun, nofun, h.writing⟩
    have hcontains := NarinfoPc.found.inj hb
    rw [Table.contains_eq_isSome, Option.isSome_iff_exists] at hcontains
    exact hcontains
  | readRoot =>
    obtain ⟨b, root, st, hpc, hroot, rfl⟩ := readRoot_iff.mp hstep
    obtain ⟨rfl, hcases, hsome⟩ := rootFor_quiet h.quiet hroot
    refine ⟨h.quiet, nofun, fun hnone => ?_, nofun, h.writing⟩
    obtain rfl := NarinfoPc.read.inj hnone
    rcases hcases with ⟨-, hplaceholder⟩ | ⟨rfl, -⟩
    · cases hplaceholder
    · obtain ⟨row, hrow⟩ := h.found hpc
      exact hsome rfl row hrow rfl
  | writeRow now =>
    obtain ⟨narinfo', root, _, st, hparse, hpc, hidle, hwrite, rfl⟩ := writeRow_iff.mp hstep
    cases hinfo.symm.trans hparse
    cases root with
    | none => exact absurd hpc h.read
    | some root =>
      cases (writeNarinfo_quiet h.quiet now root).symm.trans hwrite
      refine ⟨h.quiet, nofun, nofun, fun _ => ⟨now, root, get?_withRoot ..⟩, fun db hdb => ?_⟩
      rw [hdb] at hidle; cases hidle
  | ingest now =>
    obtain ⟨t', _, st, hparse, -, hingest, rfl⟩ := ingest_iff.mp hstep
    cases hnar.symm.trans hparse
    obtain ⟨fileDigests, hrecorded⟩ := ingestNar_quiet laws level h.quiet now (hashOfFilePath filePath) data t
    cases hrecorded.symm.trans hingest
    refine ⟨(ingested_frame ext level u.store t).2.2.2.trans h.quiet, h.found, h.read, h.written, fun db hdb => ?_⟩
    cases hdb
    exact ⟨now, get?_withRoot ..⟩
  | commit =>
    obtain ⟨db, hdb, rfl⟩ := commit_iff.mp hstep
    obtain ⟨now, hrow⟩ := h.writing db hdb
    refine ⟨h.quiet, fun _ => ⟨_, hrow⟩, h.read, fun hdone => ?_, nofun⟩
    -- the metadata that was there when the transaction began is still there
    obtain ⟨now', root, hold⟩ := h.written hdone
    have hinfo : narinfoFor ext u.store.db (hashOfFilePath filePath) data =
        narinfoOfRow (hashOfFilePath filePath) (pathRow ext now' narinfo root) := by rw [narinfoFor, hold]; rfl
    exact ⟨now, caNode ext t, by rw [← pathRow_narinfoOfRow (hashOfFilePath filePath) now' now narinfo root, ← hinfo]; exact hrow⟩

omit hinfo hnar in
theorem rootKept_step (h : UploadInv ext (hashOfFilePath filePath) data narinfo t u)
    (hkept : RootKept ext (hashOfFilePath filePath) t u) (hok : CommitSafe ext t u step)
    (hstep : uploadStep ext level content filePath data u step u') : RootKept ext (hashOfFilePath filePath) t u' := by
  cases step with
  | readExists =>
    obtain ⟨_, b, st, -, hpc, hexists, rfl⟩ := readExists_iff.mp hstep
    cases (query_quiet h.quiet).symm.trans hexists
    refine ⟨hkept.root, fun hdone hb => ?_, nofun⟩
    obtain ⟨row, hrow, -⟩ := hkept.root hdone
    have hcontains := NarinfoPc.found.inj hb
    rw [Table.contains_eq_isSome, hrow] at hcontains
    cases hcontains
  | readRoot =>
    obtain ⟨b, root, st, hpc, hroot, rfl⟩ := readRoot_iff.mp hstep
    obtain ⟨rfl, hcases, -⟩ := rootFor_quiet h.quiet hroot
    refine ⟨hkept.root, nofun, fun hdone root' hread => ?_⟩
    obtain rfl := NarinfoPc.read.inj hread
    rcases hcases with ⟨rfl, -⟩ | ⟨-, hdecoded⟩
    · exact absurd hpc (hkept.found hdone)
    · obtain ⟨row, hrow, hrootNode⟩ := hkept.root hdone
      rw [hdecoded, hrow, Option.bind_some, hrootNode, laws.decode_encodeNode]
  | writeRow now =>
    obtain ⟨narinfo', root, _, st, hparse, hpc, -, hwrite, rfl⟩ := writeRow_iff.mp hstep
    cases root with
    | none => exact absurd hpc h.read
    | some root =>
      cases (writeNarinfo_quiet h.quiet now root).symm.trans hwrite
      refine ⟨fun hdone => ⟨_, get?_withRoot .., ?_⟩, nofun, nofun⟩
      rw [Option.some.inj (hkept.read hdone _ hpc)]; rfl
  | ingest now =>
    obtain ⟨t', _, st, -, -, -, rfl⟩ := ingest_iff.mp hstep
    exact ⟨nofun, nofun, nofun⟩
  | commit =>
    obtain ⟨db, hdb, rfl⟩ := commit_iff.mp hstep
    obtain ⟨now, hrow⟩ := h.writing db hdb
    refine ⟨fun _ => ⟨_, hrow, rfl⟩, fun _ hfound => ?_, fun _ root hread => ?_⟩
    · rcases hok with hpc | hpc | hpc | hpc <;> cases hpc.symm.trans hfound
    · rcases hok with hpc | hpc | hpc | hpc <;> cases hpc.symm.trans hread
      rfl

omit laws hinfo hnar in
theorem rootLost_of_commit (h : UploadInv ext (hashOfFilePath filePath) data narinfo t u) (hok : ¬ CommitSafe ext t u step)
    (hstep : uploadStep ext level content filePath data u step u') : RootLost ext (hashOfFilePath filePath) t u' := by
  cases step with
  | commit =>
    obtain ⟨db, hdb, rfl⟩ := commit_iff.mp hstep
    simp only [CommitSafe, not_or] at hok
    refine ⟨rfl, ?_⟩
    cases hpc : u.narinfo with
    | start => exact absurd hpc hok.1
    | found b =>
      cases b with
      | true => exact absurd hpc hok.2.1
      | false => exact .inl rfl
    | read root =>
      cases root with
      | none => exact absurd hpc h.read
      | some root => exact .inr (.inl ⟨root, rfl, fun heq => hok.2.2.1 (heq ▸ hpc)⟩)
    | done => exact absurd hpc hok.2.2.2
  | _ => exact absurd trivial hok

omit hinfo hnar in
theorem rootLost_step (h : UploadInv ext (hashOfFilePath filePath) data narinfo t u)
    (hlost : RootLost ext (hashOfFilePath filePath) t u)
    (hstep : uploadStep ext level content filePath data u step u') : RootLost ext (hashOfFilePath filePath) t u' := by
  obtain ⟨hnar', hlost⟩ := hlost
  cases step with
  | readExists =>
    obtain ⟨_, b, st, -, hpc, -, rfl⟩ := readExists_iff.mp hstep
    rw [hpc] at hlost
    rcases hlost with hf | ⟨_, hr, -⟩ | ⟨hd, -⟩ <;> contradiction
  | readRoot =>
    obtain ⟨b, root, st, hpc, hroot, rfl⟩ := readRoot_iff.mp hstep
    obtain ⟨rfl, hcases, -⟩ := rootFor_quiet h.quiet hroot
    rw [hpc] at hlost
    rcases hlost with hf | ⟨_, hr, -⟩ | ⟨hd, -⟩
    · cases hf
      rcases hcases with ⟨-, rfl⟩ | ⟨hb, -⟩
      · exact ⟨hnar', .inr (.inl ⟨_, rfl, caNode_ne_placeholderRoot.symm⟩)⟩
      · cases hb
    · cases hr
    · cases hd
  | writeRow now =>
    obtain ⟨narinfo', root, _, st, hparse, hpc, -, hwrite, rfl⟩ := writeRow_iff.mp hstep
    rw [hpc] at hlost
    rcases hlost with hf | ⟨root, hr, hne⟩ | ⟨hd, -⟩
    · cases hf
    · cases hr
      cases (writeNarinfo_quiet h.quiet now root).symm.trans hwrite
      exact ⟨hnar', .inr (.inr ⟨rfl, _, get?_withRoot .., fun heq => hne (laws.encodeNode_injective heq)⟩)⟩
    · cases hd
  | ingest now =>
    obtain ⟨t', _, st, -, hstart, -, rfl⟩ := ingest_iff.mp hstep
    rw [hnar'] at hstart; cases hstart
  | commit =>
    obtain ⟨db, hdb, rfl⟩ := commit_iff.mp hstep
    rw [hnar'] at hdb; cases hdb

end

/-- The row of the path has the uploaded root and the given metadata. -/
def RowComplete (ext : Ext δ) (hash : String) (narinfo : NarInfo) (t : NarNode) (st : Store δ) : Prop :=
  ∃ now, st.db.casPaths.get? hash = some (pathRow ext now narinfo (caNode ext t))

/-- When both requests have returned the row is complete exactly if the commit
came at a safe point. -/
theorem uploads_complete_iff (laws : ext.Laws) (hinfo : NarInfo.parse content = some narinfo) (hnar : parseNar data = .ok t)
    {st : Store δ} (hf : st.faults = []) {steps : List UploadStep}
    (hrun : Run (uploadStep ext level content filePath data) (.init st) steps u) (hdone : u.finished = true) :
    RowComplete ext (hashOfFilePath filePath) narinfo t u.store ↔
      Run (guarded (uploadStep ext level content filePath data) (CommitSafe ext t)) (.init st) steps u := by
  have hinv := hrun.invariant (fun _ _ _ h hstep => uploadInv_step laws hinfo hnar h hstep) (uploadInv_init hf)
  obtain ⟨hnarinfo, hnarDone⟩ := finished_iff.mp hdone
  obtain ⟨now, root, hrow⟩ := hinv.written hnarinfo
  constructor
  · rintro ⟨now', hrow'⟩
    rcases hrun.guarded_or_violation (CommitSafe ext t) with hguarded | ⟨_, _, _, v, v', rfl, hbefore, hok, hstep, hafter⟩
    · exact hguarded
    have hinv' := hbefore.unguarded.invariant
      (fun _ _ _ h hstep => uploadInv_step laws hinfo hnar h hstep) (uploadInv_init hf)
    have hlost := hafter.invariant (I := fun u => UploadInv ext (hashOfFilePath filePath) data narinfo t u ∧
        RootLost ext (hashOfFilePath filePath) t u)
      (fun _ _ _ h hstep => ⟨uploadInv_step laws hinfo hnar h.1 hstep, rootLost_step laws h.1 h.2 hstep⟩)
      ⟨uploadInv_step laws hinfo hnar hinv' hstep, rootLost_of_commit hinv' hok hstep⟩
    obtain ⟨-, -, hlost⟩ := hlost
    rw [hnarinfo] at hlost
    rcases hlost with hfound | ⟨_, hread, -⟩ | ⟨-, row, hget, hne⟩
    · cases hfound
    · cases hread
    · cases hrow'.symm.trans hget
      exact absurd rfl hne
  · intro hguarded
    obtain ⟨-, hkept⟩ := hguarded.invariant (I := fun u => UploadInv ext (hashOfFilePath filePath) data narinfo t u ∧
        RootKept ext (hashOfFilePath filePath) t u)
      (fun _ _ _ h hstep => ⟨uploadInv_step laws hinfo hnar h.1 hstep.2, rootKept_step laws h.1 h.2 hstep.1 hstep.2⟩)
      ⟨uploadInv_init hf, rootKept_init⟩
    obtain ⟨row, hget, hrootNode⟩ := hkept.root hnarDone
    cases hrow.symm.trans hget
    rw [laws.encodeNode_injective hrootNode] at hrow
    exact ⟨now, hrow⟩

/-! ## A lost and a kept root -/

def sampleContent : String := "StorePath: /nix/store/h-x\nURL: nar/h.nar\nNarHash: sha256:0\nNarSize: 0\n"

def sampleInfo : NarInfo := ⟨"/nix/store/h-x", "nar/h.nar", "none", "", 0, "sha256:0", 0, [], none, [], none⟩

theorem sampleContent_parse : NarInfo.parse sampleContent = some sampleInfo := by decide

def sampleNext : Uploads Bytes → UploadStep → Option (Uploads Bytes) :=
  uploadNext sampleExt 3 sampleContent "nar/h.nar" (writeNar sampleLink)

/-- The narinfo first: the upload finds its row and keeps it. -/
theorem narinfo_then_nar_complete : ∃ u : Uploads Bytes, u.finished = true ∧ RowComplete sampleExt "h" sampleInfo sampleLink u.store := by
  have hrun : (([.readExists, .readRoot, .writeRow 1, .ingest 2, .commit] : List UploadStep).foldlM
      (fun (u : Uploads Bytes) step => if CommitSafe sampleExt sampleLink u step then sampleNext u step else none)
      (Uploads.init Store.empty)).any Uploads.finished = true := by decide +kernel
  obtain ⟨u, hu, hdone⟩ := (Option.any_eq_true ..).mp hrun
  have hguarded := run_of_foldlM_guarded hu
  exact ⟨u, hdone, (uploads_complete_iff sampleExt_laws sampleContent_parse sampleLink_parse rfl hguarded.unguarded hdone).mpr
    hguarded⟩

/-- The upload commits after `put_narinfo` saw that there is no row. -/
theorem commit_after_check_loses_root :
    ¬ ∀ (content filePath : String) (data : Bytes) (narinfo : NarInfo) (t : NarNode) (st : Store Bytes)
      (steps : List UploadStep) (u : Uploads Bytes), NarInfo.parse content = some narinfo → parseNar data = .ok t →
      st.faults = [] → Run (uploadStep sampleExt 3 content filePath data) (.init st) steps u → u.finished = true →
      RowComplete sampleExt (hashOfFilePath filePath) narinfo t u.store := by
  intro h
  have hrun : (([.readExists, .ingest 1, .commit, .readRoot, .writeRow 2] : List UploadStep).foldlM sampleNext
      (Uploads.init Store.empty)).any (fun (u : Uploads Bytes) => u.finished &&
        (u.store.db.casPaths.get? "h").any fun row => row.rootNode = sampleExt.encodeNode placeholderRoot) = true := by
    decide +kernel
  obtain ⟨u, hu, hdone⟩ := (Option.any_eq_true ..).mp hrun
  obtain ⟨hdone, hroot⟩ := (Bool.and_eq_true ..).mp hdone
  obtain ⟨now, hrow⟩ := h _ _ _ _ _ _ _ _ sampleContent_parse sampleLink_parse rfl (run_of_foldlM hu) hdone
  have hpath : hashOfFilePath "nar/h.nar" = "h" := by decide
  rw [hpath] at hrow
  rw [hrow, Option.any_some] at hroot
  have heq : sampleExt.encodeNode (caNode sampleExt sampleLink) = sampleExt.encodeNode placeholderRoot :=
    of_decide_eq_true hroot
  exact caNode_ne_placeholderRoot (sampleExt_laws.encodeNode_injective heq)

end Ekapkgs
