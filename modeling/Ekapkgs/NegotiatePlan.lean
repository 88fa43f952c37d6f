import Ekapkgs.Negotiate
import Ekapkgs.Lib.Graphs

/-!
# The order of the download plan

Round `n` of the planner takes the paths that no chain of `n + 1` references
outside the client's `have` set holds up. A path that refers to itself waits for
itself: it is never ready, and with all that wait for it it lands in one last
batch.
-/

namespace Ekapkgs
open Graphs

def PathManifestEntry.refs (entry : PathManifestEntry) : List String := entry.references.map hashPart

variable (entries : List PathManifestEntry) (haveSet : List String)

/-! ## Every path once -/

structure Planned (s : Planner) : Prop where
  once : s.assigned.Nodup
  known : ∀ i ∈ s.assigned, i < entries.length
  paths : s.batches.flatMap DownloadBatch.paths = s.assigned.filterMap fun i => entries[i]?.map PathManifestEntry.hash

variable {entries haveSet} {s : Planner}

theorem mem_unassigned {e : PathManifestEntry × Nat} :
    e ∈ s.unassigned entries ↔ entries[e.2]? = some e.1 ∧ e.2 ∉ s.assigned := by
  unfold Planner.unassigned
  simp [List.mem_filter, List.mem_zipIdx_iff_getElem?]

theorem unassigned_nodup : ((s.unassigned entries).map Prod.snd).Nodup := by
  refine List.Nodup.sublist (List.filter_sublist.map _) ?_
  rw [List.zipIdx_map_snd]
  exact List.nodup_range'

theorem ready_sublist : (s.ready entries).Sublist (s.unassigned entries) := List.filter_sublist

theorem Planned.push (h : Planned entries s) {batch : List (PathManifestEntry × Nat)}
    (hbatch : batch.Sublist (s.unassigned entries)) : Planned entries (s.push batch) where
  once := by
    refine h.once.append (unassigned_nodup.sublist (hbatch.map _)) fun i hi hnew => ?_
    obtain ⟨e, he, rfl⟩ := List.mem_map.mp hnew
    exact (mem_unassigned.mp (hbatch.subset he)).2 hi
  known := by
    intro i hi
    rcases List.mem_append.mp hi with hi | hi
    · exact h.known i hi
    · obtain ⟨e, he, rfl⟩ := List.mem_map.mp hi
      exact (List.getElem?_eq_some_iff.mp (mem_unassigned.mp (hbatch.subset he)).1).1
  paths := by
    have hnew : ∀ batch : List (PathManifestEntry × Nat), (∀ e ∈ batch, entries[e.2]? = some e.1) →
        batch.map (fun e => e.1.hash) = (batch.map Prod.snd).filterMap fun i => entries[i]?.map PathManifestEntry.hash := by
      intro batch hget
      induction batch with
      | nil => rfl
      | cons e batch ih =>
        rw [List.forall_mem_cons] at hget
        rw [List.map_cons, List.map_cons, List.filterMap_cons, hget.1, ih hget.2]; rfl
    simp only [Planner.push, List.flatMap_append, List.flatMap_singleton, List.filterMap_append, h.paths]
    rw [hnew batch fun e he => (mem_unassigned.mp (hbatch.subset he)).1]

theorem filterMap_range {α β : Type} (f : α → β) : ∀ l : List α,
    (List.range l.length).filterMap (fun i => l[i]?.map f) = l.map f
  | [] => rfl
  | a :: l => by
    rw [List.length_cons, List.range_succ_eq_map, List.filterMap_cons, List.filterMap_map, List.map_cons]
    simpa using filterMap_range f l

/-- With every path assigned, the batches hold the hashes of all entries. -/
theorem Planned.perm (h : Planned entries s) (hall : entries.length ≤ s.assigned.length) :
    (s.batches.flatMap DownloadBatch.paths).Perm (entries.map PathManifestEntry.hash) := by
  have hrange : s.assigned.Perm (List.range entries.length) := by
    refine (h.once.subperm fun i hi => List.mem_range.mpr (h.known i hi)).perm_of_length_le ?_
    rwa [List.length_range]
  rw [h.paths, ← filterMap_range PathManifestEntry.hash]
  exact hrange.filterMap _

theorem Planned.length_le (h : Planned entries s) : s.assigned.length ≤ entries.length := by
  have := (h.once.subperm fun i hi => List.mem_range.mpr (h.known i hi)).length_le
  rwa [List.length_range] at this

theorem push_length (batch : List (PathManifestEntry × Nat)) :
    (s.push batch).assigned.length = s.assigned.length + batch.length := by
  simp [Planner.push]

theorem length_le_of_unassigned (hnone : s.unassigned entries = []) :
    entries.length ≤ s.assigned.length := by
  have hsub : List.range entries.length ⊆ s.assigned := by
    intro i hi
    by_contra hout
    obtain ⟨e, hget⟩ : ∃ e, entries[i]? = some e := ⟨_, List.getElem?_eq_getElem (List.mem_range.mp hi)⟩
    have hmem : (e, i) ∈ s.unassigned entries := mem_unassigned.mpr ⟨hget, hout⟩
    rw [hnone] at hmem; cases hmem
  have := (List.nodup_range.subperm hsub).length_le
  rwa [List.length_range] at this

theorem planLoop_perm : ∀ (fuel : Nat) (s : Planner), Planned entries s → entries.length < fuel + s.assigned.length →
    ∃ batches, planLoop entries fuel s = some batches ∧
      (batches.flatMap DownloadBatch.paths).Perm (entries.map PathManifestEntry.hash)
  | 0, s, h, hfuel => by have := h.length_le; omega
  | fuel + 1, s, h, hfuel => by
    unfold planLoop
    by_cases hready : s.ready entries = []
    · rw [if_pos hready]
      by_cases hrest : s.unassigned entries = []
      · rw [if_pos hrest]; exact ⟨_, rfl, h.perm (length_le_of_unassigned hrest)⟩
      · rw [if_neg hrest]
        refine ⟨_, rfl, (h.push (List.Sublist.refl _)).perm ?_⟩
        have hnone : (s.push (s.unassigned entries)).unassigned entries = [] := by
          refine List.eq_nil_iff_forall_not_mem.mpr fun e he => ?_
          obtain ⟨hget, hout⟩ := mem_unassigned.mp he
          have hold : e.2 ∉ s.assigned := fun hin => hout (List.mem_append_left _ hin)
          exact hout (List.mem_append_right _ (List.mem_map_of_mem (mem_unassigned.mpr ⟨hget, hold⟩)))
        exact length_le_of_unassigned hnone
    · rw [if_neg hready]
      have hpush := h.push ready_sublist
      dsimp only
      by_cases hall : (s.push (s.ready entries)).assigned.length = entries.length
      · rw [if_pos hall]; exact ⟨_, rfl, hpush.perm hall.ge⟩
      · rw [if_neg hall]
        have hpos := List.length_pos_iff.mpr hready
        exact planLoop_perm fuel _ hpush (by rw [push_length]; omega)

variable (entries haveSet) in
theorem buildDownloadPlan_perm : ∃ batches, buildDownloadPlan entries haveSet = some batches ∧
    (batches.flatMap DownloadBatch.paths).Perm (entries.map PathManifestEntry.hash) :=
  planLoop_perm _ _ ⟨List.nodup_nil, nofun, rfl⟩ (by simp)

variable (entries haveSet) in
/-- The planner ends, and its batches are a partition of the paths. -/
theorem buildDownloadPlan_partition (hdistinct : (entries.map PathManifestEntry.hash).Nodup) : ∃ batches,
    buildDownloadPlan entries haveSet = some batches ∧ (batches.flatMap DownloadBatch.paths).Nodup ∧
      ∀ h, (∃ b ∈ batches, h ∈ b.paths) ↔ h ∈ entries.map PathManifestEntry.hash := by
  obtain ⟨batches, hplan, hperm⟩ := buildDownloadPlan_perm entries haveSet
  refine ⟨batches, hplan, hperm.nodup_iff.mpr hdistinct, fun h => ?_⟩
  rw [← hperm.mem_iff, List.mem_flatMap]

/-- Two paths that refer to each other. -/
def sampleCycle : List PathManifestEntry := [⟨"/nix/store/a-x", ["b-y"]⟩, ⟨"/nix/store/b-y", ["a-x", "c-z"]⟩]

theorem sampleCycle_partition : ∃ batches,
    buildDownloadPlan sampleCycle ["c"] = some batches ∧ (batches.flatMap DownloadBatch.paths).Nodup ∧
      ∀ h, (∃ b ∈ batches, h ∈ b.paths) ↔ h ∈ sampleCycle.map PathManifestEntry.hash :=
  buildDownloadPlan_partition sampleCycle ["c"] (by decide)

/-! ## Which batch -/

variable (entries haveSet) in
/-- A chain of `n + 1` references outside `have` starts at the path, and at every
entry of each hash on the way. -/
def Waits : Nat → PathManifestEntry → Prop
  | 0, e => ∃ r ∈ e.refs, r ∉ haveSet
  | n + 1, e => ∃ r ∈ e.refs, r ∉ haveSet ∧ ∀ dep ∈ entries, dep.hash = r → Waits n dep

theorem Waits.of_succ : ∀ {n : Nat} {e : PathManifestEntry}, Waits entries haveSet (n + 1) e → Waits entries haveSet n e
  | 0, _, ⟨r, hr, hhave, _⟩ => ⟨r, hr, hhave⟩
  | _ + 1, _, ⟨r, hr, hhave, hdeps⟩ => ⟨r, hr, hhave, fun dep hdep heq => (hdeps dep hdep heq).of_succ⟩

theorem Waits.of_le {m n : Nat} {e : PathManifestEntry} (hle : m ≤ n) (h : Waits entries haveSet n e) :
    Waits entries haveSet m e := by
  induction hle with
  | refl => exact h
  | step _ ih => exact ih h.of_succ

variable (entries haveSet) in
/-- The path is ready in round `n` and not before. -/
def ReadyAt (n : Nat) (e : PathManifestEntry) : Prop :=
  ¬ Waits entries haveSet n e ∧ ∀ m < n, Waits entries haveSet m e

variable (entries haveSet) in
/-- The path has been ready before round `n`. -/
def Settled (n : Nat) (e : PathManifestEntry) : Prop := ∃ m < n, ¬ Waits entries haveSet m e

theorem settled_succ {n : Nat} {e : PathManifestEntry} :
    Settled entries haveSet (n + 1) e ↔ Settled entries haveSet n e ∨ ReadyAt entries haveSet n e := by
  constructor
  · rintro ⟨m, hm, hready⟩
    by_cases hsettled : Settled entries haveSet n e
    · exact .inl hsettled
    have hwaits : ∀ k < n, Waits entries haveSet k e := fun k hk => by_contra fun hnot => hsettled ⟨k, hk, hnot⟩
    have hmn : m = n := by
      by_contra hne
      exact hready (hwaits m (by omega))
    subst hmn
    exact .inr ⟨hready, hwaits⟩
  · rintro (⟨m, hm, hready⟩ | hready)
    · exact ⟨m, by omega, hready⟩
    · exact ⟨n, by omega, hready.1⟩

theorem readyAt_iff {n : Nat} {e : PathManifestEntry} : ReadyAt entries haveSet n e ↔
    ¬ Settled entries haveSet n e ∧ ∀ r ∈ e.refs, r ∈ haveSet ∨ ∃ dep ∈ entries, dep.hash = r ∧ Settled entries haveSet n dep := by
  have hsettled : ¬ Settled entries haveSet n e ↔ ∀ m < n, Waits entries haveSet m e := by
    unfold Settled
    push Not
    rfl
  have hwaits : ¬ Waits entries haveSet n e ↔
      ∀ r ∈ e.refs, r ∈ haveSet ∨ ∃ dep ∈ entries, dep.hash = r ∧ Settled entries haveSet n dep := by
    cases n with
    | zero =>
      simp only [Waits, Settled]
      push Not
      simp
    | succ n =>
      have hlast : ∀ dep, Settled entries haveSet (n + 1) dep ↔ ¬ Waits entries haveSet n dep := fun dep =>
        ⟨fun ⟨m, hm, hnot⟩ hdep => hnot (hdep.of_le (by omega)), fun hnot => ⟨n, by omega, hnot⟩⟩
      simp only [Waits, hlast]
      push Not
      refine forall_congr' fun r => forall_congr' fun _ => ?_
      rw [or_iff_not_imp_left]
  rw [ReadyAt, hsettled, hwaits, and_comm]

variable (entries haveSet) in
/-- After `n` rounds. -/
structure Rounds (n : Nat) (s : Planner) : Prop where
  assigned : ∀ i e, entries[i]? = some e → (i ∈ s.assigned ↔ Settled entries haveSet n e)
  resolved : ∀ h, h ∈ s.resolved ↔ h ∈ haveSet ∨ ∃ e ∈ entries, e.hash = h ∧ Settled entries haveSet n e
  length : s.batches.length = n
  batches : ∀ k b, s.batches[k]? = some b → ∀ h, h ∈ b.paths ↔ ∃ e ∈ entries, e.hash = h ∧ ReadyAt entries haveSet k e

theorem Rounds.mem_unassigned {n : Nat} (hs : Rounds entries haveSet n s) {e : PathManifestEntry × Nat} :
    e ∈ s.unassigned entries ↔ entries[e.2]? = some e.1 ∧ ¬ Settled entries haveSet n e.1 := by
  rw [Ekapkgs.mem_unassigned]
  exact and_congr_right fun hget => not_congr (hs.assigned e.2 e.1 hget)

theorem Rounds.mem_ready {n : Nat} (hs : Rounds entries haveSet n s) {e : PathManifestEntry × Nat} :
    e ∈ s.ready entries ↔ entries[e.2]? = some e.1 ∧ ReadyAt entries haveSet n e.1 := by
  unfold Planner.ready
  rw [List.mem_filter, hs.mem_unassigned, readyAt_iff, and_assoc]
  refine and_congr_right fun _ => and_congr_right fun _ => ?_
  simp only [List.all_eq_true, List.contains_iff_mem, hs.resolved, PathManifestEntry.refs, List.forall_mem_map]

theorem mem_hashes_iff {batch : List (PathManifestEntry × Nat)} {p : PathManifestEntry → Prop}
    (hbatch : ∀ e, e ∈ batch ↔ entries[e.2]? = some e.1 ∧ p e.1) {h : String} :
    h ∈ batch.map (fun e => e.1.hash) ↔ ∃ e ∈ entries, e.hash = h ∧ p e := by
  rw [List.mem_map]
  constructor
  · rintro ⟨e, he, rfl⟩
    obtain ⟨hget, hp⟩ := (hbatch e).mp he
    exact ⟨e.1, List.mem_of_getElem? hget, rfl, hp⟩
  · rintro ⟨e, he, rfl, hp⟩
    obtain ⟨i, hi⟩ := List.mem_iff_getElem?.mp he
    exact ⟨(e, i), (hbatch (e, i)).mpr ⟨hi, hp⟩, rfl⟩

theorem getElem?_push {batch : List (PathManifestEntry × Nat)} {k : Nat} {b : DownloadBatch}
    (hb : (s.push batch).batches[k]? = some b) :
    s.batches[k]? = some b ∨ k = s.batches.length ∧ b.paths = batch.map fun e => e.1.hash := by
  simp only [Planner.push, List.getElem?_append] at hb
  split_ifs at hb with hk
  · exact .inl hb
  · obtain ⟨hlt, hb⟩ := List.getElem?_eq_some_iff.mp hb
    rw [List.getElem_singleton] at hb
    rw [List.length_singleton] at hlt
    exact .inr ⟨by omega, by rw [← hb]⟩

theorem Rounds.push {n : Nat} (hs : Rounds entries haveSet n s) : Rounds entries haveSet (n + 1) (s.push (s.ready entries)) where
  assigned i e hget := by
    have hnew : i ∈ (s.ready entries).map Prod.snd ↔ ReadyAt entries haveSet n e := by
      rw [List.mem_map]
      constructor
      · rintro ⟨e', he', rfl⟩
        obtain ⟨hget', hready⟩ := hs.mem_ready.mp he'
        cases hget.symm.trans hget'
        exact hready
      · exact fun hready => ⟨(e, i), hs.mem_ready.mpr ⟨hget, hready⟩, rfl⟩
    simp only [Planner.push, List.mem_append, hs.assigned i e hget, hnew, settled_succ]
  resolved h := by
    have hnew := mem_hashes_iff (fun e => hs.mem_ready (e := e)) (h := h)
    simp only [Planner.push, List.mem_append, hs.resolved, hnew, settled_succ]
    constructor
    · rintro ((hhave | ⟨e, he, heq, hold⟩) | ⟨e, he, heq, hready⟩)
      · exact .inl hhave
      · exact .inr ⟨e, he, heq, .inl hold⟩
      · exact .inr ⟨e, he, heq, .inr hready⟩
    · rintro (hhave | ⟨e, he, heq, hold | hready⟩)
      · exact .inl (.inl hhave)
      · exact .inl (.inr ⟨e, he, heq, hold⟩)
      · exact .inr ⟨e, he, heq, hready⟩
  length := by simp [Planner.push, hs.length]
  batches k b hb h := by
    rcases getElem?_push hb with hb | ⟨hk, hpaths⟩
    · exact hs.batches k b hb h
    · rw [hpaths, hk, hs.length]
      exact mem_hashes_iff fun e => hs.mem_ready

/-- Once a round takes no path, no later one does. -/
theorem not_readyAt_of_le {n k : Nat} (hnone : ∀ e ∈ entries, ¬ ReadyAt entries haveSet n e) (hle : n ≤ k) :
    ∀ e ∈ entries, ¬ ReadyAt entries haveSet k e := by
  induction hle with
  | refl => exact hnone
  | @step k _ ih =>
    intro e he hready
    have hsame : ∀ dep ∈ entries, Settled entries haveSet (k + 1) dep → Settled entries haveSet k dep :=
      fun dep hdep h => (settled_succ.mp h).resolve_right (ih dep hdep)
    obtain ⟨hnew, hrefs⟩ := readyAt_iff.mp hready
    refine ih e he (readyAt_iff.mpr ⟨fun h => hnew (settled_succ.mpr (.inl h)), fun r hr => ?_⟩)
    rcases hrefs r hr with hhave | ⟨dep, hdep, heq, h⟩
    · exact .inl hhave
    · exact .inr ⟨dep, hdep, heq, hsame dep hdep h⟩

theorem exists_readyAt {m : Nat} {e : PathManifestEntry} (h : ¬ Waits entries haveSet m e) :
    ∃ k ≤ m, ReadyAt entries haveSet k e := by
  classical
  have hex : ∃ k, ¬ Waits entries haveSet k e := ⟨m, h⟩
  exact ⟨Nat.find hex, Nat.find_min' hex h, Nat.find_spec hex, fun k hk => not_not.mp (Nat.find_min hex hk)⟩

variable (entries haveSet) in
/-- The path is in batch `k` of a plan of `n` rounds. -/
def InBatch (n k : Nat) (e : PathManifestEntry) : Prop :=
  ReadyAt entries haveSet k e ∨ k = n ∧ ∀ m, Waits entries haveSet m e

variable (entries haveSet) in
structure Layered (n : Nat) (batches : List DownloadBatch) : Prop where
  bound : ∀ k, ∀ e ∈ entries, ReadyAt entries haveSet k e → k < n
  placed : ∀ k, ∀ e ∈ entries, InBatch entries haveSet n k e → ∃ b, batches[k]? = some b
  paths : ∀ k b, batches[k]? = some b → ∀ h, h ∈ b.paths ↔ ∃ e ∈ entries, e.hash = h ∧ InBatch entries haveSet n k e

/-- All paths are settled, and the rounds are the plan. -/
theorem Rounds.layered {n : Nat} (hs : Rounds entries haveSet n s) (hall : ∀ e ∈ entries, Settled entries haveSet n e) :
    Layered entries haveSet n s.batches := by
  have hbound : ∀ k, ∀ e ∈ entries, ReadyAt entries haveSet k e → k < n := by
    intro k e he hready
    obtain ⟨m, hm, hnot⟩ := hall e he
    by_contra hle
    exact hnot (hready.2 m (by omega))
  have hiff : ∀ k, ∀ e ∈ entries, InBatch entries haveSet n k e ↔ ReadyAt entries haveSet k e := by
    intro k e he
    refine ⟨fun h => h.resolve_right fun ⟨_, hstuck⟩ => ?_, .inl⟩
    obtain ⟨m, _, hnot⟩ := hall e he
    exact hnot (hstuck m)
  refine ⟨hbound, fun k e he hin => ?_, fun k b hb h => ?_⟩
  · have hk : k < s.batches.length := by rw [hs.length]; exact hbound k e he ((hiff k e he).mp hin)
    exact ⟨_, List.getElem?_eq_getElem hk⟩
  · rw [hs.batches k b hb h]
    exact exists_congr fun e => and_congr_right fun he => and_congr_right fun _ => (hiff k e he).symm

/-- No path is ready, and what remains is one more batch. -/
theorem Rounds.layered_push {n : Nat} (hs : Rounds entries haveSet n s) (hnone : ∀ e ∈ entries, ¬ ReadyAt entries haveSet n e) :
    Layered entries haveSet n (s.push (s.unassigned entries)).batches := by
  have hbound : ∀ k, ∀ e ∈ entries, ReadyAt entries haveSet k e → k < n := by
    intro k e he hready
    by_contra hle
    exact not_readyAt_of_le hnone (by omega) e he hready
  have hstuck : ∀ e ∈ entries, ¬ Settled entries haveSet n e ↔ ∀ m, Waits entries haveSet m e := by
    intro e he
    refine ⟨fun hnew m => by_contra fun hnot => ?_, fun h ⟨m, _, hnot⟩ => hnot (h m)⟩
    obtain ⟨k, _, hready⟩ := exists_readyAt hnot
    exact hnew ⟨k, hbound k e he hready, hready.1⟩
  have hlength : (s.push (s.unassigned entries)).batches.length = n + 1 := by simp [Planner.push, hs.length]
  refine ⟨hbound, fun k e he hin => ?_, fun k b hb h => ?_⟩
  · have hk : k < (s.push (s.unassigned entries)).batches.length := by
      rw [hlength]
      rcases hin with hready | ⟨rfl, -⟩
      · exact Nat.lt_succ_of_lt (hbound k e he hready)
      · exact Nat.lt_succ_self _
    exact ⟨_, List.getElem?_eq_getElem hk⟩
  · rcases getElem?_push hb with hb | ⟨hk, hpaths⟩
    · have hlt : k < n := by rw [← hs.length]; exact (List.getElem?_eq_some_iff.mp hb).1
      rw [hs.batches k b hb h]
      refine exists_congr fun e => and_congr_right fun he => and_congr_right fun _ => ⟨.inl, fun hin => ?_⟩
      exact hin.resolve_right fun h => by omega
    · rw [hs.length] at hk
      subst hk
      rw [hpaths, mem_hashes_iff (p := fun e => ¬ Settled entries haveSet k e) fun e => hs.mem_unassigned]
      refine exists_congr fun e => and_congr_right fun he => and_congr_right fun _ => ?_
      rw [hstuck e he]
      exact ⟨fun h => .inr ⟨rfl, h⟩, fun hin => (hin.resolve_left (hnone e he)).2⟩

theorem planLoop_layered : ∀ (fuel n : Nat) (s : Planner) {batches : List DownloadBatch}, Planned entries s →
    Rounds entries haveSet n s → planLoop entries fuel s = some batches → ∃ n', Layered entries haveSet n' batches
  | 0, _, _, _, _, _, hplan => nomatch hplan
  | fuel + 1, n, s, batches, h, hs, hplan => by
    unfold planLoop at hplan
    by_cases hready : s.ready entries = []
    · rw [if_pos hready] at hplan
      have hnone : ∀ e ∈ entries, ¬ ReadyAt entries haveSet n e := by
        intro e he hat
        obtain ⟨i, hi⟩ := List.mem_iff_getElem?.mp he
        have hmem : (e, i) ∈ s.ready entries := hs.mem_ready.mpr ⟨hi, hat⟩
        rw [hready] at hmem; cases hmem
      by_cases hrest : s.unassigned entries = []
      · rw [if_pos hrest] at hplan
        cases hplan
        refine ⟨n, hs.layered fun e he => by_contra fun hnew => ?_⟩
        obtain ⟨i, hi⟩ := List.mem_iff_getElem?.mp he
        have hmem : (e, i) ∈ s.unassigned entries := hs.mem_unassigned.mpr ⟨hi, hnew⟩
        rw [hrest] at hmem; cases hmem
      · rw [if_neg hrest] at hplan
        cases hplan
        exact ⟨n, hs.layered_push hnone⟩
    · rw [if_neg hready] at hplan
      have hpush := h.push ready_sublist
      dsimp only at hplan
      by_cases hall : (s.push (s.ready entries)).assigned.length = entries.length
      · rw [if_pos hall] at hplan
        cases hplan
        refine ⟨n + 1, hs.push.layered fun e he => ?_⟩
        obtain ⟨i, hi⟩ := List.mem_iff_getElem?.mp he
        refine (hs.push.assigned i e hi).mp ?_
        have hperm := (hpush.once.subperm fun i hi => List.mem_range.mpr (hpush.known i hi)).perm_of_length_le
          (by rw [List.length_range]; exact hall.ge)
        exact hperm.mem_iff.mpr (List.mem_range.mpr (List.getElem?_eq_some_iff.mp hi).1)
      · rw [if_neg hall] at hplan
        exact planLoop_layered fuel (n + 1) _ hpush hs.push hplan

theorem buildDownloadPlan_layered {batches : List DownloadBatch} (hplan : buildDownloadPlan entries haveSet = some batches) :
    ∃ n, Layered entries haveSet n batches := by
  have hplanned : Planned entries ⟨[], haveSet, []⟩ := ⟨List.nodup_nil, nofun, rfl⟩
  have hrounds : Rounds entries haveSet 0 ⟨[], haveSet, []⟩ :=
    ⟨fun i e _ => by simp [Settled], fun h => by simp [Settled], rfl, fun k b hb => by simp at hb⟩
  exact planLoop_layered _ 0 _ hplanned hrounds hplan

end Ekapkgs
