import Ekapkgs.CasPull
import Ekapkgs.Sample

/-!
# What a successful pull delivers

A path is delivered when its NAR and its narinfo are in the staging directory
that `nix copy` reads and the NAR has the hash of the manifest. One delivered
path makes the pull return `true`.
-/

namespace Ekapkgs
open Fallible Keyed

/-! ## A NAR is not mistaken for a narinfo -/

theorem asBytes_append (s t : String) : asBytes (s ++ t) = asBytes s ++ asBytes t := by
  show (s ++ t).toByteArray.data.toList = s.toByteArray.data.toList ++ t.toByteArray.data.toList
  rw [String.toByteArray_append]
  simp

section
variable {δ κ : Type}

/-- The first byte of `writeStr "nix-archive-1"`, a length of 13, is written. -/
def BeginsNar (s : κ × Bytes) : Prop := s.2.head? = some 13

theorem beginsNar_emit (bytes : Bytes) :
    Triple BeginsNar (emit bytes : Stream δ κ Unit) (fun _ => BeginsNar) fun _ _ => True := by
  refine Triple.modify fun s hs => ?_
  show (s.2 ++ bytes).head? = some 13
  rw [List.head?_append, show s.2.head? = some 13 from hs]; rfl

theorem beginsNar_reading {α : Type} (m : EStateM (CasError δ) κ α) :
    Triple BeginsNar (reading m) (fun _ => BeginsNar) fun _ _ => True := by
  intro s hs
  unfold reading
  cases m s.1 with
  | ok a k => exact hs
  | error e k => trivial

theorem beginsNar_liftExcept {α : Type} (r : Except (CasError δ) α) :
    Triple BeginsNar (liftExcept r : Stream δ κ α) (fun _ => BeginsNar) fun _ _ => True := by
  cases r with
  | ok a => exact Triple.pure fun _ h => h
  | error e => exact Triple.throw fun _ _ => trivial

variable {ext : Ext δ} {reader : ChunkReader δ κ}

theorem beginsNar_writeCasNode
    (hread : ∀ d, Triple BeginsNar (reader.writeFileDataTo d) (fun _ => BeginsNar) fun _ _ => True) :
    ∀ fuel caNode, Triple BeginsNar (writeCasNode ext reader fuel caNode) (fun _ => BeginsNar) fun _ _ => True
  | 0, _ => Triple.throw fun _ _ => trivial
  | fuel + 1, ⟨node⟩ => by
    unfold writeCasNode
    cases node with
    | none => exact Triple.throw fun _ _ => trivial
    | some kind =>
      cases kind with
      | file file =>
        refine Triple.bind (beginsNar_emit _) fun _ => ?_
        refine Triple.bind (beginsNar_liftExcept _) fun digest => ?_
        refine Triple.bind (beginsNar_emit _) fun _ => ?_
        refine Triple.bind (hread digest) fun _ => ?_
        exact Triple.bind (beginsNar_emit _) fun _ => beginsNar_emit _
      | directory dir =>
        refine Triple.bind (beginsNar_emit _) fun _ => ?_
        refine Triple.bind (beginsNar_liftExcept _) fun digest => ?_
        refine Triple.bind (beginsNar_emit _) fun _ => ?_
        refine Triple.bind (beginsNar_reading _) fun caDir => ?_
        refine Triple.bind (Triple.forM _ fun entry _ => ?_) fun _ => beginsNar_emit _
        refine Triple.bind (beginsNar_emit _) fun _ => Triple.bind ?_ fun _ => beginsNar_emit _
        cases entry.node with
        | none => exact Triple.pure fun _ h => h
        | some child => exact beginsNar_writeCasNode hread fuel child
      | symlink symlink =>
        refine Triple.bind (beginsNar_emit _) fun _ => ?_
        exact Triple.bind (beginsNar_emit _) fun _ => beginsNar_emit _

theorem beginsNar_writeNarStreaming
    (hread : ∀ d, Triple BeginsNar (reader.writeFileDataTo d) (fun _ => BeginsNar) fun _ _ => True)
    {fuel : Nat} {root : CaNode} {k : κ} {s : κ × Bytes}
    (h : writeNarStreaming ext reader fuel root (k, []) = .ok () s) : BeginsNar s := by
  unfold writeNarStreaming at h
  obtain ⟨u, t, ht, h⟩ := bind_ok.mp h
  have hbegin : BeginsNar t := by cases ht; rfl
  exact (beginsNar_writeCasNode hread fuel root).ok_of hbegin h

end

/-! ## Calls -/

section
variable {δ : Type} {fails : Call δ → Bool}

theorem onStore_performCall_done {call : Call δ} {client : Client δ} (h : fails call = false) :
    onStore (performCall fails call) client = .ok () client := by
  unfold onStore performCall
  rw [h]; rfl

theorem onStore_performCall_failed {call : Call δ} {client : Client δ} (h : fails call = true) :
    onStore (performCall fails call) client = .error (.store .failed) client := by
  unfold onStore performCall
  rw [h]; rfl

theorem write_failed {path : String} {bytes : Bytes} {client : Client δ} (h : fails (.writeStaged path) = true) :
    write fails path bytes client = .error (.store .failed) client :=
  bind_of_error (onStore_performCall_failed h)

theorem write_done {path : String} {bytes : Bytes} {client : Client δ} (h : fails (.writeStaged path) = false) :
    write fails path bytes client = .ok () { client with staging := client.staging ++ [(path, bytes)] } :=
  bind_of_ok (onStore_performCall_done h)

def cacheInfo : String × Bytes := ("nix-cache-info", asBytes "StoreDir: /nix/store\n")

theorem openStaging_ok_iff {client client' : Client δ} :
    openStaging fails client = .ok () client' ↔
      (fails .openStaging = false ∧ fails (.writeStaged "nix-cache-info") = false) ∧
        client' = { client with staging := [cacheInfo] } := by
  unfold openStaging
  cases hopen : fails .openStaging with
  | true => rw [bind_of_error (onStore_performCall_failed hopen)]; simp
  | false =>
    rw [bind_of_ok (onStore_performCall_done hopen)]
    cases hinfo : fails (.writeStaged "nix-cache-info") with
    | true => rw [bind_modify, write_failed hinfo]; simp
    | false =>
      rw [bind_modify, write_done hinfo]
      simp [cacheInfo, eq_comm]

theorem ignoring_staging {α : Type} (m : ChunkM δ α) (files : List (String × Bytes)) :
    Triple (fun client => client.staging = files) (ignoring m) (fun _ client => client.staging = files) fun _ _ => True := by
  intro client h
  unfold ignoring
  cases m client.store with
  | ok a store => exact h
  | error e store => cases e <;> first | exact h | trivial

end

variable {δ : Type} [DecidableEq δ] {ext : Ext δ} {fails : Call δ → Bool}

theorem beginsNar_reader (store : ChunkStore δ) (d : δ) :
    Triple BeginsNar ((store.reader fails ext).writeFileDataTo d) (fun _ => BeginsNar) fun _ _ => True :=
  Triple.bind (beginsNar_liftExcept _) fun _ => beginsNar_emit _

theorem head_narinfoText (entry : ManifestEntry) : (asBytes (buildNarinfoText entry)).head? = some 83 := by
  unfold buildNarinfoText line
  simp only [asBytes_append, List.append_assoc]
  rw [List.head?_append, show (asBytes "StorePath").head? = some 83 by decide]
  rfl

/-! ## The turn of one mapping -/

section
variable (ext : Ext δ) (fails : Call δ → Bool) (store : ChunkStore δ) (available : List ManifestEntry)

/-- The root of the mapping reassembles from the store to a NAR that the
manifest's entry of its path vouches for. -/
structure Stages (mapping : CaPathMapping) (entry : ManifestEntry) (narBytes : Bytes) : Prop where
  entry_eq : entryByHash available mapping.storePathHash = some entry
  reassembled : ∃ rootNode, mapping.rootNode = some rootNode ∧
    writeNarStreaming ext (store.reader fails ext) store.depth rootNode ((), []) = .ok () ((), narBytes)
  verified : verifyNarHash ext narBytes entry.narHash = true

def Stageable (mapping : CaPathMapping) : Prop := ∃ entry narBytes, Stages ext fails store available mapping entry narBytes

/-- The NAR that the turn of a mapping stages, if any. An error ends the pull:
a local call fails, or directories that contain each other never come to an end. -/
def turn (mapping : CaPathMapping) : Except (CasError δ) (Option (ManifestEntry × Bytes)) :=
  match mapping.rootNode, entryByHash available mapping.storePathHash with
  | some rootNode, some entry =>
    if fails (.createParent entry.url) then .error .failed
    else
      match writeNarStreaming ext (store.reader fails ext) store.depth rootNode ((), []) with
      | .error .depth _ => .error .depth
      | .error _ _ => .ok none
      | .ok () s =>
        if !verifyNarHash ext s.2 entry.narHash then .ok none
        else if fails (.writeStaged entry.url) || fails (.writeStaged (mapping.storePathHash ++ ".narinfo")) then
          .error .failed
        else .ok (some (entry, s.2))
  | _, _ => .ok none

def stagedFiles (mapping : CaPathMapping) (staged : ManifestEntry × Bytes) : List (String × Bytes) :=
  [(staged.1.url, staged.2), (mapping.storePathHash ++ ".narinfo", asBytes (buildNarinfoText staged.1))]

def turnFiles (mapping : CaPathMapping) : List (String × Bytes) :=
  match turn ext fails store available mapping with
  | .ok (some staged) => stagedFiles mapping staged
  | _ => []

end

theorem stageMapping_turn (available : List ManifestEntry) (mapping : CaPathMapping) (client : Client δ) :
    match turn ext fails client.store available mapping with
    | .ok staged => stageMapping ext fails available mapping client =
        .ok staged.isSome { client with staging := client.staging ++ (staged.map (stagedFiles mapping)).getD [] }
    | .error _ => ∃ e client', stageMapping ext fails available mapping client = .error e client' := by
  have hnone : (pure false : PullM δ Bool) client = .ok false { client with staging := client.staging ++ [] } := by
    rw [List.append_nil]; rfl
  obtain ⟨hash, rootNode⟩ := mapping
  unfold stageMapping turn
  cases rootNode with
  | none => exact hnone
  | some rootNode =>
    dsimp only
    cases entryByHash available hash with
    | none => exact hnone
    | some entry =>
      dsimp only
      cases hparent : fails (.createParent entry.url) with
      | true => exact ⟨.store .failed, client, bind_of_error (onStore_performCall_failed hparent)⟩
      | false =>
        rw [bind_of_ok (onStore_performCall_done hparent), bind_get, if_neg Bool.false_ne_true]
        cases hnar : writeNarStreaming ext (client.store.reader fails ext) client.store.depth rootNode ((), []) with
        | error e s => cases e <;> first | exact hnone | exact ⟨_, _, rfl⟩
        | ok u s =>
          dsimp only
          cases verifyNarHash ext s.2 entry.narHash with
          | false => exact hnone
          | true =>
            simp only [Bool.not_true, Bool.false_eq_true, if_false]
            cases hurl : fails (.writeStaged entry.url) with
            | true => exact ⟨.store .failed, client, bind_of_error (write_failed hurl)⟩
            | false =>
              rw [Bool.false_or, bind_of_ok (write_done hurl)]
              cases hinfo : fails (.writeStaged (hash ++ ".narinfo")) with
              | true => exact ⟨.store .failed, _, bind_of_error (write_failed hinfo)⟩
              | false =>
                rw [bind_of_ok (write_done hinfo)]
                simp [stagedFiles, pure, EStateM.pure]

section
variable {store : ChunkStore δ} {available : List ManifestEntry} {mapping : CaPathMapping}

theorem Stages.of_turn {entry : ManifestEntry} {narBytes : Bytes}
    (h : turn ext fails store available mapping = .ok (some (entry, narBytes))) :
    Stages ext fails store available mapping entry narBytes := by
  unfold turn at h
  split at h
  next rootNode entry' hroot hentry =>
    split at h
    · cases h
    split at h
    · cases h
    · cases h
    next s hnar =>
      cases hverify : verifyNarHash ext s.2 entry'.narHash with
      | false => rw [hverify] at h; cases h
      | true =>
        rw [hverify, if_neg (by decide)] at h
        split at h
        · cases h
        · cases h
          exact ⟨hentry, ⟨rootNode, hroot, hnar⟩, hverify⟩
  · cases h

theorem Stages.turn_eq {entry : ManifestEntry} {narBytes : Bytes} {staged : Option (ManifestEntry × Bytes)}
    (h : Stages ext fails store available mapping entry narBytes)
    (hturn : turn ext fails store available mapping = .ok staged) : staged = some (entry, narBytes) := by
  obtain ⟨rootNode, hroot, hnar⟩ := h.reassembled
  unfold turn at hturn
  rw [hroot, h.entry_eq] at hturn
  dsimp only at hturn
  split at hturn
  · cases hturn
  rw [hnar] at hturn
  dsimp only at hturn
  rw [h.verified, if_neg (by decide)] at hturn
  split at hturn
  · cases hturn
  · cases hturn; rfl

theorem stageable_iff_turn (hok : ∃ staged, turn ext fails store available mapping = .ok staged) :
    Stageable ext fails store available mapping ↔
      ∃ staged, turn ext fails store available mapping = .ok (some staged) := by
  obtain ⟨staged, hturn⟩ := hok
  constructor
  · rintro ⟨entry, narBytes, h⟩
    exact ⟨(entry, narBytes), h.turn_eq hturn ▸ hturn⟩
  · rintro ⟨⟨entry, narBytes⟩, h⟩
    exact ⟨entry, narBytes, .of_turn h⟩

end

/-! ## The loop over the mappings -/

/-- Whether the turn of a mapping stages a path. -/
def turnStages (ext : Ext δ) (fails : Call δ → Bool) (store : ChunkStore δ) (available : List ManifestEntry)
    (mapping : CaPathMapping) : Bool :=
  match turn ext fails store available mapping with
  | .ok staged => staged.isSome
  | .error _ => false

theorem turnFiles_of_ok {store : ChunkStore δ} {available : List ManifestEntry} {mapping : CaPathMapping}
    {staged : Option (ManifestEntry × Bytes)} (h : turn ext fails store available mapping = .ok staged) :
    turnFiles ext fails store available mapping = (staged.map (stagedFiles mapping)).getD [] := by
  unfold turnFiles
  rw [h]
  cases staged <;> rfl

theorem stageMappings_ok_iff {available : List ManifestEntry} : ∀ {mappings : List CaPathMapping} {client client' : Client δ} {n : Nat},
    stageMappings ext fails available mappings client = .ok n client' ↔
      (∀ m ∈ mappings, ∃ staged, turn ext fails client.store available m = .ok staged) ∧
      n = mappings.countP (turnStages ext fails client.store available) ∧
      client' = { client with staging := client.staging ++ mappings.flatMap (turnFiles ext fails client.store available) }
  | [], client, client', n => by
    constructor
    · intro h
      cases h
      simp
    · rintro ⟨-, rfl, rfl⟩
      simp [stageMappings, pure, EStateM.pure]
  | mapping :: mappings, client, client', n => by
    have hturn := @stageMapping_turn _ _ ext fails available mapping client
    unfold stageMappings
    cases ht : turn ext fails client.store available mapping with
    | error e =>
      rw [ht] at hturn
      obtain ⟨e', c, hc⟩ := hturn
      rw [bind_of_error hc]
      constructor
      · intro h; cases h
      · rintro ⟨hall, -⟩
        obtain ⟨staged, hs⟩ := hall mapping (by simp)
        rw [ht] at hs; cases hs
    | ok staged =>
      rw [ht] at hturn
      have hfiles := turnFiles_of_ok ht
      have hstages : turnStages ext fails client.store available mapping = staged.isSome := by unfold turnStages; rw [ht]
      rw [bind_of_ok hturn, bind_ok]
      constructor
      · rintro ⟨n', t, hrest, hpure⟩
        obtain ⟨hall, rfl, rfl⟩ := stageMappings_ok_iff.mp hrest
        cases hpure
        refine ⟨List.forall_mem_cons.mpr ⟨⟨staged, ht⟩, hall⟩, ?_, ?_⟩
        · rw [List.countP_cons, hstages]
        · rw [List.flatMap_cons, hfiles, List.append_assoc]
      · rintro ⟨hall, rfl, rfl⟩
        refine ⟨_, _, stageMappings_ok_iff.mpr ⟨(List.forall_mem_cons.mp hall).2, rfl, rfl⟩, ?_⟩
        rw [List.countP_cons, hstages, List.flatMap_cons, hfiles, List.append_assoc]
        rfl

/-! ## The whole pull -/

variable {peers : Peers δ} {now : Nat} {available : List ManifestEntry}

theorem importStaged_staging {response : ChunkNegotiateResponse} {client client' : Client δ}
    (h : importStaged ext fails peers now response client = .ok () client') : client'.staging = client.staging := by
  unfold importStaged at h
  rw [bind_get] at h
  have hloop (files : List (String × Bytes)) :
      Triple (fun client => client.staging = files) (response.pathMappings.forM (recordMapping ext fails now))
        (fun _ client => client.staging = files) fun _ _ => True := by
    refine Triple.forM _ fun mapping _ => ?_
    unfold recordMapping
    cases mapping.rootNode with
    | none => exact Triple.pure fun _ h => h
    | some rootNode => exact ignoring_staging _ _
  split at h
  · exact (Triple.bind (hloop client.staging) fun _ => ignoring_staging _ _).ok_of rfl h
  · cases h

section
variable (ext fails) (peers) (now) (available)

/-- What the staging directory holds when `nix copy` reads it. -/
def stagedDir (store : ChunkStore δ) (response : ChunkNegotiateResponse) : Client δ :=
  ⟨store, cacheInfo :: response.pathMappings.flatMap (turnFiles ext fails store available)⟩

/-- The reassembly meets no error, nix accepts the staged files, and the
eviction after it ends. -/
structure Imports (store : ChunkStore δ) (response : ChunkNegotiateResponse) (client' : Client δ) : Prop where
  opened : fails .openStaging = false ∧ fails (.writeStaged "nix-cache-info") = false
  turns : ∀ m ∈ response.pathMappings, ∃ staged, turn ext fails store available m = .ok staged
  imported : importStaged ext fails peers now response (stagedDir ext fails available store response) = .ok () client'

end

theorem countP_turnStages {store : ChunkStore δ} {mappings : List CaPathMapping}
    (hturns : ∀ m ∈ mappings, ∃ staged, turn ext fails store available m = .ok staged) :
    mappings.countP (turnStages ext fails store available) ≠ 0 ↔
      ∃ m ∈ mappings, Stageable ext fails store available m := by
  rw [← Nat.pos_iff_ne_zero, List.countP_pos_iff]
  refine exists_congr fun m => and_congr_right fun hm => ?_
  rw [stageable_iff_turn (hturns m hm)]
  obtain ⟨staged, hturn⟩ := hturns m hm
  unfold turnStages
  rw [hturn]
  cases staged <;> simp

theorem casPull_true_iff {wantHashes haveHashes : List String} {client client' : Client δ} :
    casPull ext fails peers now wantHashes haveHashes available client = .ok true client' ↔
      ∃ response client₁, fetchResponse ext fails peers wantHashes haveHashes client = .ok (some response) client₁ ∧
        (∃ m ∈ response.pathMappings, Stageable ext fails client₁.store available m) ∧
        Imports ext fails peers now available client₁.store response client' := by
  unfold casPull
  rw [bind_ok]
  constructor
  · rintro ⟨fetched, client₁, hfetch, h⟩
    cases fetched with
    | none => cases h
    | some response =>
      obtain ⟨_, client₂, hopen, h⟩ := bind_ok.mp h
      obtain ⟨hopened, rfl⟩ := openStaging_ok_iff.mp hopen
      obtain ⟨reassembled, client₃, hloop, h⟩ := bind_ok.mp h
      obtain ⟨hturns, rfl, rfl⟩ := stageMappings_ok_iff.mp hloop
      split at h
      · cases h
      next hne =>
        obtain ⟨_, client₄, himport, h⟩ := bind_ok.mp h
        cases h
        exact ⟨response, client₁, hfetch, (countP_turnStages hturns).mp hne, hopened, hturns, himport⟩
  · rintro ⟨response, client₁, hfetch, hstage, hopened, hturns, himport⟩
    refine ⟨some response, client₁, hfetch, ?_⟩
    dsimp only
    have hloop : stageMappings ext fails available response.pathMappings { client₁ with staging := [cacheInfo] } = _ :=
      stageMappings_ok_iff.mpr ⟨hturns, rfl, rfl⟩
    rw [bind_of_ok (openStaging_ok_iff.mpr ⟨hopened, rfl⟩), bind_of_ok hloop, if_neg ((countP_turnStages hturns).mpr hstage)]
    exact bind_of_ok himport

/-! ## Delivery -/

/-- The NAR of the entry, verified, and its narinfo are where `nix copy` reads. -/
def Delivered (ext : Ext δ) (client : Client δ) (entry : ManifestEntry) : Prop :=
  ∃ narBytes, verifyNarHash ext narBytes entry.narHash = true ∧ (entry.url, narBytes) ∈ client.staging ∧
    (entry.hash ++ ".narinfo", asBytes (buildNarinfoText entry)) ∈ client.staging

def ReportedAvailable (available : List ManifestEntry) (hash : String) : Prop := ∃ entry ∈ available, entry.hash = hash

theorem mem_entryByHash {hash : String} {entry : ManifestEntry} (h : entryByHash available hash = some entry) :
    entry ∈ available ∧ entry.hash = hash :=
  ⟨List.mem_reverse.mp (List.mem_of_find?_eq_some h), by simpa using List.find?_some h⟩

theorem Stages.delivered {store : ChunkStore δ} {response : ChunkNegotiateResponse} {mapping : CaPathMapping}
    {entry : ManifestEntry} {narBytes : Bytes} {client' : Client δ}
    (h : Stages ext fails store available mapping entry narBytes) (hmem : mapping ∈ response.pathMappings)
    (himports : Imports ext fails peers now available store response client') : Delivered ext client' entry := by
  obtain ⟨staged, hturn⟩ := himports.turns mapping hmem
  obtain rfl := h.turn_eq hturn
  have hfile {file : String × Bytes} (hf : file ∈ stagedFiles mapping (entry, narBytes)) : file ∈ client'.staging := by
    rw [importStaged_staging himports.imported]
    refine List.mem_cons_of_mem _ (List.mem_flatMap.mpr ⟨mapping, hmem, ?_⟩)
    rw [turnFiles_of_ok hturn]
    exact hf
  obtain ⟨-, hhash⟩ := mem_entryByHash h.entry_eq
  refine ⟨narBytes, h.verified, hfile (by simp [stagedFiles]), hfile ?_⟩
  rw [hhash]
  simp [stagedFiles]

theorem narinfo_path_ne_cacheInfo (hash : String) : hash ++ ".narinfo" ≠ cacheInfo.1 := by
  intro h
  have hsuffix : ".narinfo".toList <:+ "nix-cache-info".toList :=
    ⟨hash.toList, by rw [← String.toList_append]; exact congrArg String.toList h⟩
  revert hsuffix
  decide

theorem append_narinfo_inj {hash hash' : String} (h : hash ++ ".narinfo" = hash' ++ ".narinfo") : hash = hash' := by
  have := congrArg String.toList h
  rw [String.toList_append, String.toList_append] at this
  exact String.ext (List.append_cancel_right this)

/-- Only the turn of a mapping for the path writes its narinfo. -/
theorem stageable_of_narinfo {store : ChunkStore δ} {response : ChunkNegotiateResponse} {client' : Client δ}
    {hash : String} {entry : ManifestEntry} (himports : Imports ext fails peers now available store response client')
    (h : (hash ++ ".narinfo", asBytes (buildNarinfoText entry)) ∈ client'.staging) :
    ∃ m ∈ response.pathMappings, m.storePathHash = hash ∧ Stageable ext fails store available m := by
  rw [importStaged_staging himports.imported] at h
  rcases List.mem_cons.mp h with h | h
  · exact absurd (congrArg Prod.fst h) (narinfo_path_ne_cacheInfo hash)
  obtain ⟨mapping, hmem, h⟩ := List.mem_flatMap.mp h
  obtain ⟨staged, hturn⟩ := himports.turns mapping hmem
  rw [turnFiles_of_ok hturn] at h
  cases staged with
  | none => cases h
  | some staged =>
    obtain ⟨entry', narBytes⟩ := staged
    have hstages := Stages.of_turn hturn
    refine ⟨mapping, hmem, ?_, entry', narBytes, hstages⟩
    obtain ⟨rootNode, -, hnar⟩ := hstages.reassembled
    have hbegin : narBytes.head? = some 13 := beginsNar_writeNarStreaming (beginsNar_reader store) hnar
    rcases List.mem_cons.mp h with h | h
    · have htext : asBytes (buildNarinfoText entry) = narBytes := (Prod.mk.inj h).2
      rw [← htext, head_narinfoText] at hbegin
      cases hbegin
    · exact (append_narinfo_inj (Prod.mk.inj (List.mem_singleton.mp h)).1).symm

variable (ext fails) (peers) (now) (available)

/-- A pull that reports success has delivered every wanted path the server
reported available. -/
def PullDelivers (wantHashes haveHashes : List String) (client : Client δ) : Prop :=
  ∀ client', casPull ext fails peers now wantHashes haveHashes available client = .ok true client' →
    ∀ hash ∈ wantHashes, ReportedAvailable available hash →
      ∃ entry ∈ available, entry.hash = hash ∧ Delivered ext client' entry

/-- Once the reassembly gets to `nix copy`, one path that can be staged is
enough to report success, so all of them have to be. -/
theorem casPull_delivers_iff (wantHashes haveHashes : List String) (client : Client δ) :
    PullDelivers ext fails peers now available wantHashes haveHashes client ↔
      ∀ response client₁, fetchResponse ext fails peers wantHashes haveHashes client = .ok (some response) client₁ →
        (∃ client', Imports ext fails peers now available client₁.store response client') →
        (∃ m ∈ response.pathMappings, Stageable ext fails client₁.store available m) →
        ∀ hash ∈ wantHashes, ReportedAvailable available hash →
          ∃ m ∈ response.pathMappings, m.storePathHash = hash ∧ Stageable ext fails client₁.store available m := by
  constructor
  · intro h response client₁ hfetch himports hstage hash hwant havail
    obtain ⟨client', himports⟩ := himports
    have htrue := casPull_true_iff.mpr ⟨response, client₁, hfetch, hstage, himports⟩
    obtain ⟨entry, -, hhash, narBytes, -, -, hinfo⟩ := h client' htrue hash hwant havail
    exact stageable_of_narinfo himports (hhash ▸ hinfo)
  · intro h client' htrue hash hwant havail
    obtain ⟨response, client₁, hfetch, hstage, himports⟩ := casPull_true_iff.mp htrue
    obtain ⟨m, hm, hhash, entry, narBytes, hstages⟩ := h response client₁ hfetch ⟨client', himports⟩ hstage hash hwant havail
    obtain ⟨hmem, hentry⟩ := mem_entryByHash hstages.entry_eq
    exact ⟨entry, hmem, hentry.trans hhash, hstages.delivered hm himports⟩

/-! ## A chunk file is lost -/

def sampleManifest (hash : String) (narBytes : Bytes) : ManifestEntry where
  storePath := "/nix/store/" ++ hash ++ "-x"
  references := []
  narHash := "sha256:" ++ hexEncode narBytes
  narSize := narBytes.length
  signatures := []
  ca := ""
  url := "nar/" ++ hash ++ ".nar"
  compression := .none
  fileHash := ""
  fileSize := 0

/-- The server leaves out the chunk that the client says it has. -/
def samplePeers : Peers Bytes where
  negotiateChunks _ _ haveChunks := .ok {
    pathMappings := [⟨"link", some (caNode sampleExt sampleLink)⟩, ⟨"file", some (caNode sampleExt sampleFile)⟩]
    missingChunks := if haveChunks.contains [1] then [] else [⟨some ⟨[1]⟩, 1, "chunk/01"⟩]
    totalChunkSize := 1
    directories := []
    fileChunkMappings := [⟨some ⟨[1]⟩, [⟨some ⟨[1]⟩, 1⟩]⟩] }
  get url := if url = "chunk/01" then some [1] else none
  arrivals chunks := ⟨chunks, .refl _⟩
  importFromLocalCache _ := true

/-- The row of the chunk is there and its file is not. -/
def lostChunk : Client Bytes := ⟨{ ChunkStore.empty with chunks := Table.empty.insertOrIgnore [1] 1 }, []⟩

theorem casPull_skips : ¬ PullDelivers sampleExt (fun _ => false) samplePeers 0
    [sampleManifest "link" (writeNar sampleLink), sampleManifest "file" (writeNar sampleFile)]
    ["link", "file"] [] lostChunk := by
  intro h
  have hrun : (match casPull sampleExt (fun _ => false) samplePeers 0 ["link", "file"] []
      [sampleManifest "link" (writeNar sampleLink), sampleManifest "file" (writeNar sampleFile)] lostChunk with
    | .ok true client' => !client'.staging.any fun f => f.1 = "file.narinfo"
    | _ => false) = true := by decide +kernel
  split at hrun
  next client' hpull =>
    have havail : ReportedAvailable
        [sampleManifest "link" (writeNar sampleLink), sampleManifest "file" (writeNar sampleFile)] "file" :=
      ⟨_, List.mem_cons_of_mem _ (List.mem_singleton_self _), by decide⟩
    obtain ⟨entry, -, hhash, narBytes, -, -, hinfo⟩ := h client' hpull "file" (by decide) havail
    rw [hhash] at hinfo
    have hany : (client'.staging.any fun f => f.1 = "file.narinfo") = true :=
      List.any_eq_true.mpr ⟨_, hinfo, decide_eq_true (show "file" ++ ".narinfo" = "file.narinfo" by decide)⟩
    rw [hany] at hrun
    cases hrun
  next => cases hrun

end Ekapkgs
