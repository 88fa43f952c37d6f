import Ekapkgs.DeltaStreams

/-!
# Applying a delta

`download.rs`: `apply_delta` dumps the base of a delta from the local store. The
manifest names the base by the hash of its path, and the store has it under the
whole path, with its name.
-/

namespace Ekapkgs
open Keyed Runs

/-- The store of a client: what `nix-store --dump` writes for a path, which has a
hash and a name. -/
structure LocalStore where
  dump : String → Option Bytes
  path_shape : ∀ path nar, dump path = some nar → ∃ hash name, path = "/nix/store/" ++ hash ++ "-" ++ name

/-- What `apply_delta` dumps for a base. -/
def LocalStore.dumpBase (store : LocalStore) (_client : Nat) (baseHash : String) : Option Bytes :=
  store.dump ("/nix/store/" ++ baseHash)

/-- An entry that makes `download_single` ask for its delta. -/
def OffersDelta (entry : DeltaEntry) : Prop := entry.deltaUrl ≠ "" ∧ entry.deltaBaseHash ≠ ""

/-- `GET /delta/{base_hash}/{target_hash}` at the URL of an entry. -/
def DeltaServed (s : DeltaSystem) (entry : DeltaEntry) (delta : Bytes) : Prop :=
  ∃ targetHash, entry.deltaUrl = "delta/" ++ entry.deltaBaseHash ++ "/" ++ targetHash ∧
    s.cache.map.get? (entry.deltaBaseHash, targetHash) = some delta

/-- A client whose store has the base of an entry gets the entry's NAR out of the
delta that is served. -/
def DeltaUsable (server : NarServer) (codec : DeltaCodec) (s : DeltaSystem) (entry : DeltaEntry) : Prop :=
  ∀ (client : Nat) (store : LocalStore) (name : String) (baseNar delta : Bytes),
    server.getNar ("nar/" ++ entry.deltaBaseHash ++ ".nar") = some baseNar →
    store.dump ("/nix/store/" ++ entry.deltaBaseHash ++ "-" ++ name) = some baseNar → DeltaServed s entry delta →
      ∃ nar, server.getNar entry.url = some nar ∧ applyDelta codec store.dumpBase client delta entry.deltaBaseHash = some nar

variable {server : NarServer} {codec : DeltaCodec} {sign : String → String} {dump : Nat → String → Option Bytes}

/-! ## The bases of a negotiation -/

/-- A base is named by a hash alone, and the server has its NAR. -/
structure BasedEntry (server : NarServer) (entry : DeltaEntry) : Prop where
  plain : '-' ∉ entry.deltaBaseHash.toList
  stored : entry.deltaBaseHash ≠ "" → ∃ baseNar, server.getNar ("nar/" ++ entry.deltaBaseHash ++ ".nar") = some baseNar

structure BasesPlain (server : NarServer) (c : NarClient) : Prop where
  pending : ∀ candidate ∈ c.pending, '-' ∉ candidate.baseHash.toList
  available : ∀ entry ∈ c.available, BasedEntry server entry

theorem dash_not_mem_hashPart (path : String) : '-' ∉ (hashPart path).toList := by
  unfold hashPart splitNext
  rw [String.toList_ofList]
  intro h
  simpa using List.mem_takeWhile_imp h

theorem plain_of_haveByPname {haveHashes : List String} : ∀ pname base,
    (haveByPname server.toStorage haveHashes).get? pname = some base → '-' ∉ base.1.toList := by
  unfold haveByPname
  refine List.foldlRecOn (motive := fun map : Table String (String × Nat) => ∀ pname base, map.get? pname = some base → '-' ∉ base.1.toList)
    haveHashes _ ?_ ?_
  · exact nofun
  intro map hmap hash _
  cases hinfo : server.narinfo? hash with
  | none => exact hmap
  | some ni =>
    dsimp only
    cases hpname : extractPname ni.storePath with
    | none => exact hmap
    | some pname =>
      intro pname' base hget
      rw [Table.get?_insertOrReplace] at hget
      split at hget
      · rw [← Option.some.inj hget]
        rcases server.named hash ni hinfo with hempty | hnamed
        · rw [hempty, extractPname_empty] at hpname
          cases hpname
        · exact hnamed ▸ dash_not_mem_hashPart ni.storePath
      · exact hmap pname' base hget

theorem plain_of_deltaCandidates {haveHashes : List String} {available : List DeltaEntry} :
    ∀ candidate ∈ deltaCandidates server.toStorage haveHashes available, '-' ∉ candidate.baseHash.toList := by
  intro candidate h
  obtain ⟨entry, -, hcandidate⟩ := List.mem_filterMap.mp (List.mem_of_mem_take h)
  unfold candidateFor at hcandidate
  obtain ⟨pname, -, hcandidate⟩ := Option.bind_eq_some_iff.mp hcandidate
  obtain ⟨base, hbase, hcandidate⟩ := Option.bind_eq_some_iff.mp hcandidate
  obtain ⟨-, heq⟩ := Option.ite_none_left_eq_some.mp hcandidate
  rw [← Option.some.inj heq]
  exact plain_of_haveByPname pname base hbase

theorem basedEntry_manifestEntry (ni : NarInfo) : BasedEntry server (manifestEntry sign ni) := by
  have hempty : (manifestEntry sign ni).deltaBaseHash = "" := rfl
  exact ⟨by rw [hempty]; decide, fun h => absurd hempty h⟩

theorem BasesPlain.setEntry {c : NarClient} (h : BasesPlain server c) {candidate : DeltaCandidate} {delta : Bytes}
    (hplain : '-' ∉ candidate.baseHash.toList) (hdelta : computeDelta server.toStorage codec candidate = some delta) :
    ∀ entry ∈ setEntry c.available candidate delta, BasedEntry server entry := by
  obtain ⟨baseNar, hbase, -⟩ := Option.bind_eq_some_iff.mp hdelta
  intro entry hentry
  unfold Ekapkgs.setEntry at hentry
  obtain ⟨i, hi, hget⟩ := List.getElem_of_mem hentry
  rw [List.getElem_modify] at hget
  split at hget
  · rw [← hget]
    exact ⟨hplain, fun _ => ⟨baseNar, hbase⟩⟩
  · rw [← hget]
    exact h.available _ (List.getElem_mem _)

theorem basesPlain_step {s s' : DeltaSystem} {a : DeltaStep} (h : ∀ client, BasesPlain server (s.clients client))
    (hstep : deltaStep server codec sign dump s a s') : ∀ client, BasesPlain server (s'.clients client) := by
  have hupdate : ∀ {client : Nat} {c : NarClient}, BasesPlain server c →
      ∀ n, BasesPlain server (Function.update s.clients client c n) := fun hc => forall_update h hc
  unfold deltaStep stepOf deltaNext at hstep
  cases a with
  | negotiate client want haveHashes =>
    cases hstep
    refine hupdate ⟨plain_of_deltaCandidates, fun entry hentry => ?_⟩
    obtain ⟨ni, -, rfl⟩ := List.mem_map.mp hentry
    exact basedEntry_manifestEntry ni
  | joinDelta client acquired =>
    dsimp only at hstep
    have hc := h client
    have hpending := hc.pending
    cases hclient : (s.clients client).pending with
    | nil => rw [hclient] at hstep; cases hstep
    | cons candidate pending =>
      rw [hclient] at hstep hpending
      obtain ⟨hplain, hrest⟩ := List.forall_mem_cons.mp hpending
      dsimp only at hstep
      cases hdelta : (if acquired then computeDelta server.toStorage codec candidate else none) with
      | none =>
        rw [hdelta] at hstep
        cases hstep
        exact hupdate ⟨hrest, hc.available⟩
      | some delta =>
        rw [hdelta] at hstep
        cases hstep
        obtain ⟨-, hdelta⟩ := Option.ite_none_right_eq_some.mp hdelta
        exact hupdate ⟨hrest, hc.setEntry hplain hdelta⟩
  | requestStream client pathHashes =>
    obtain ⟨-, hstep⟩ := Option.ite_none_right_eq_some.mp hstep
    cases hstep
    exact hupdate ⟨(h client).pending, (h client).available⟩
  | streamPath client =>
    dsimp only at hstep
    cases htodo : (s.clients client).todo with
    | nil => rw [htodo] at hstep; cases hstep
    | cons hash todo =>
      rw [htodo] at hstep
      cases hstep
      exact hupdate ⟨(h client).pending, (h client).available⟩

theorem deltaRun_basesPlain {s : DeltaSystem} {steps : List DeltaStep} (hrun : Run (deltaStep server codec sign dump) .init steps s) :
    ∀ client, BasesPlain server (s.clients client) :=
  hrun.invariant (I := fun s => ∀ client, BasesPlain server (s.clients client)) (fun _ _ _ h hstep => basesPlain_step h hstep)
    fun _ => ⟨nofun, nofun⟩

/-! ## Applying -/

/-- No path of a store is a hash alone. -/
theorem dumpBase_none (store : LocalStore) (client : Nat) {baseHash : String} (h : '-' ∉ baseHash.toList) :
    store.dumpBase client baseHash = none := by
  refine Option.eq_none_iff_forall_ne_some.mpr fun nar hnar => h ?_
  obtain ⟨hash, name, hpath⟩ := store.path_shape _ nar hnar
  rw [String.append_assoc, String.append_assoc] at hpath
  rw [(String.append_right_inj _).mp hpath]
  simp [String.toList_append]

theorem applyDelta_none (codec : DeltaCodec) (store : LocalStore) (client : Nat) (delta : Bytes) {baseHash : String}
    (h : '-' ∉ baseHash.toList) : applyDelta codec store.dumpBase client delta baseHash = none := by
  unfold applyDelta
  rw [dumpBase_none store client h, Option.bind_none]

/-- A store with one path. -/
def singlePath (hash name : String) (nar : Bytes) : LocalStore where
  dump path := if path = "/nix/store/" ++ hash ++ "-" ++ name then some nar else none
  path_shape path nar' h := ⟨hash, name, (Option.ite_none_right_eq_some.mp h).1⟩

theorem deltaUsable_iff {s : DeltaSystem} {entry : DeltaEntry} (h : BasedEntry server entry) (hoffers : OffersDelta entry) :
    DeltaUsable server codec s entry ↔ ∀ delta, ¬ DeltaServed s entry delta := by
  constructor
  · intro husable delta hserved
    obtain ⟨baseNar, hbase⟩ := h.stored hoffers.2
    obtain ⟨nar, -, happly⟩ := husable 0 (singlePath entry.deltaBaseHash "x" baseNar) "x" baseNar delta hbase (if_pos rfl) hserved
    rw [applyDelta_none codec _ 0 delta h.plain] at happly
    cases happly
  · intro hnone client store name baseNar delta _ _ hserved
    exact absurd hserved (hnone delta)

/-- A delta of a response is never applied, whatever the store of the client has;
so the deltas are usable only where none is served. -/
theorem deltas_usable_iff (server : NarServer) (codec : DeltaCodec) (sign : String → String) (dump : Nat → String → Option Bytes)
    (s : DeltaSystem) (steps : List DeltaStep) (hrun : Run (deltaStep server codec sign dump) .init steps s) (client : Nat) :
    (∀ entry ∈ (s.clients client).available, OffersDelta entry → ∀ (store : LocalStore) (delta : Bytes),
      applyDelta codec store.dumpBase client delta entry.deltaBaseHash = none) ∧
    ((∀ entry ∈ (s.clients client).available, OffersDelta entry → DeltaUsable server codec s entry) ↔
      ∀ entry ∈ (s.clients client).available, OffersDelta entry → ∀ delta, ¬ DeltaServed s entry delta) := by
  have hbases := (deltaRun_basesPlain hrun client).available
  refine ⟨fun entry hentry _ store delta => applyDelta_none codec store client delta (hbases entry hentry).plain, ?_⟩
  exact forall_congr' fun entry => forall_congr' fun hentry => forall_congr' fun hoffers => deltaUsable_iff (hbases entry hentry) hoffers

/-- The state in which the client of the old version is offered a delta of one byte. -/
def offered (s : DeltaSystem) : Bool :=
  (s.clients 0).available.any fun entry => entry.deltaUrl = "delta/b/t" && entry.deltaBaseHash = "b" &&
    s.cache.map.get? ("b", "t") = some [7]

theorem exists_offered : ∃ s, Run (deltaStep twoVersions prefixCodec id twoVersionsDump) .init [.negotiate 0 ["t"] ["b"], .joinDelta 0 true] s ∧
    ∃ entry ∈ (s.clients 0).available, OffersDelta entry ∧ DeltaServed s entry [7] := by
  obtain ⟨s, hrun, hs⟩ := (Option.any_eq_true ..).mp
    (show (([.negotiate 0 ["t"] ["b"], .joinDelta 0 true].foldlM twoVersionsNext DeltaSystem.init).any offered) = true by decide +kernel)
  obtain ⟨entry, hentry, hs⟩ := List.any_eq_true.mp hs
  simp only [Bool.and_eq_true, decide_eq_true_eq] at hs
  obtain ⟨⟨hurl, hbase⟩, hget⟩ := hs
  refine ⟨s, run_of_foldlM hrun, entry, hentry, ⟨?_, ?_⟩, "t", ?_, ?_⟩
  · rw [hurl]; decide
  · rw [hbase]; decide
  · rw [hurl, hbase]; decide
  · rw [hbase]; exact hget

theorem deltas_usable_iff_offered : ∃ s : DeltaSystem,
    ¬ ∀ entry ∈ (s.clients 0).available, OffersDelta entry → DeltaUsable twoVersions prefixCodec s entry := by
  obtain ⟨s, hrun, entry, hentry, hoffers, hserved⟩ := exists_offered
  refine ⟨s, fun h => ?_⟩
  exact (deltas_usable_iff twoVersions prefixCodec id twoVersionsDump s _ hrun 0).2.mp h entry hentry hoffers [7] hserved

/-- The client has the old version, and the delta is not applied. -/
theorem delta_never_applied : ¬ ∀ (server : NarServer) (codec : DeltaCodec) (sign : String → String) (dump : Nat → String → Option Bytes)
    (s : DeltaSystem) (steps : List DeltaStep), Run (deltaStep server codec sign dump) .init steps s →
      ∀ client, ∀ entry ∈ (s.clients client).available, OffersDelta entry → DeltaUsable server codec s entry := by
  intro h
  obtain ⟨s, hrun, entry, hentry, hoffers, hserved⟩ := exists_offered
  have hbased := (deltaRun_basesPlain hrun 0).available entry hentry
  exact (deltaUsable_iff hbased hoffers).mp (h twoVersions prefixCodec id twoVersionsDump s _ hrun 0 entry hentry hoffers) [7] hserved

end Ekapkgs
