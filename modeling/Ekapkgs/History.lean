import Ekapkgs.Lib.Fallible
import Ekapkgs.Lib.Keyed
import Ekapkgs.Lib.Newest

/-!
# The snapshot ring buffer

`record_snapshot` writes a row and trims the table to the newest ones. Each of
the two statements is committed by itself, so a failed trim leaves the new row.
-/

namespace Ekapkgs
open Keyed Newest Fallible

structure Snapshot where
  timestamp : Nat
  backend : String
  storePaths : Nat
  totalNarSize : Nat
  chunks : Nat
  chunkBytes : Nat
  uniqueFiles : Nat
  totalFileChunkRefs : Nat
  diskBytes : Nat
  inlineChunks : Nat
  compressedChunks : Nat
  gcRuns : Nat
  gcPathsEvicted : Nat
  gcBytesFreed : Nat
  deriving DecidableEq

/-- The `snapshots` table by its primary key. -/
abbrev Snapshots := Table Nat Snapshot

def MAX_SNAPSHOTS : Nat := 1000

inductive HistoryCall where
  | openDb | insert | trim
  deriving DecidableEq

abbrev HistoryM := EStateM HistoryCall Snapshots

/-- A call that fails changes nothing. -/
def execute (fails : HistoryCall → Bool) (call : HistoryCall) (change : Snapshots → Snapshots) : HistoryM Unit := fun t =>
  if fails call then .error call t else .ok () (change t)

/-- `ORDER BY timestamp DESC LIMIT MAX_SNAPSHOTS` -/
def newestTimestamps (t : Snapshots) : List Nat := ((t.rows.map Prod.fst).mergeSort fun a b => decide (b ≤ a)).take MAX_SNAPSHOTS

def trimSnapshots (t : Snapshots) : Snapshots := t.deleteWhere fun timestamp _ => !(newestTimestamps t).contains timestamp

def recordSnapshot (fails : HistoryCall → Bool) (snap : Snapshot) : HistoryM Unit := do
  execute fails .insert fun t => t.insertOrReplace snap.timestamp snap
  execute fails .trim trimSnapshots

/-- Errors are logged. -/
def recordOne (fails : HistoryCall → Bool) (snap : Snapshot) (t : Snapshots) : Snapshots :=
  match (do execute fails .openDb id; recordSnapshot fails snap : HistoryM Unit) t with
  | .ok _ t' => t'
  | .error _ t' => t'

def readSnapshots (t : Snapshots) : List Snapshot := (t.rows.mergeSort fun a b => decide (a.1 ≤ b.1)).map Prod.snd

/-! ## One step -/

theorem recordOne_eq (fails : HistoryCall → Bool) (snap : Snapshot) (t : Snapshots) : recordOne fails snap t =
    if fails .openDb || fails .insert then t
    else if fails .trim then t.insertOrReplace snap.timestamp snap
    else trimSnapshots (t.insertOrReplace snap.timestamp snap) := by
  unfold recordOne recordSnapshot execute
  cases hopen : fails .openDb with
  | true => rfl
  | false =>
    cases hinsert : fails .insert with
    | true => rfl
    | false => cases htrim : fails .trim <;> rfl

def Snapshots.timestamps (t : Snapshots) : Finset Nat := (t.rows.map Prod.fst).toFinset

theorem mem_timestamps {t : Snapshots} {k : Nat} : k ∈ t.timestamps ↔ ∃ snap, t.get? k = some snap := by
  rw [Snapshots.timestamps, List.mem_toFinset, Table.mem_keys_iff]

theorem timestamps_insertOrReplace (t : Snapshots) (k : Nat) (snap : Snapshot) :
    Snapshots.timestamps (t.insertOrReplace k snap) = insert k t.timestamps := by
  ext k'
  rw [Finset.mem_insert, mem_timestamps, mem_timestamps, Table.get?_insertOrReplace]
  split_ifs with heq
  · exact ⟨fun _ => .inl heq, fun _ => ⟨snap, rfl⟩⟩
  · exact ⟨.inr, fun h => h.resolve_left heq⟩

theorem get?_trimSnapshots (t : Snapshots) (k : Nat) :
    (trimSnapshots t).get? k = if k ∈ newest MAX_SNAPSHOTS t.timestamps then t.get? k else none := by
  have hcontains : (newestTimestamps t).contains k = decide (k ∈ newest MAX_SNAPSHOTS t.timestamps) := by
    rw [Bool.eq_iff_iff, List.contains_iff_mem, decide_eq_true_eq]
    exact mem_take_mergeSort t.nodup MAX_SNAPSHOTS
  unfold trimSnapshots
  split_ifs with hk
  · exact Table.get?_deleteWhere_of_neg fun _ => by rw [hcontains, decide_eq_true hk]; rfl
  · exact Table.get?_deleteWhere_of_pos fun _ => by rw [hcontains, decide_eq_false hk]; rfl

theorem timestamps_trimSnapshots (t : Snapshots) : (trimSnapshots t).timestamps = newest MAX_SNAPSHOTS t.timestamps := by
  ext k
  rw [mem_timestamps, get?_trimSnapshots]
  split_ifs with hk
  · exact ⟨fun _ => hk, fun hk => mem_timestamps.mp (newest_subset hk)⟩
  · constructor
    · rintro ⟨_, h⟩
      cases h
    · exact fun h => absurd h hk

/-! ## Every run -/

structure Recording where
  fails : HistoryCall → Bool
  snap : Snapshot

def historyTable (recordings : List Recording) : Snapshots := recordings.foldl (fun t r => recordOne r.fails r.snap t) .empty

/-- The table without a limit: the last snapshot that was written at each time. -/
def everWritten (recordings : List Recording) : Snapshots :=
  recordings.foldl (fun t r => if r.fails .openDb || r.fails .insert then t else t.insertOrReplace r.snap.timestamp r.snap) .empty

/-- Rows of `all`, and among them its newest ones. -/
structure KeepsNewest (all t : Snapshots) : Prop where
  newest : Newest.newest MAX_SNAPSHOTS t.timestamps = Newest.newest MAX_SNAPSHOTS all.timestamps
  rows : ∀ k ∈ t.timestamps, t.get? k = all.get? k
  stamped : ∀ k snap, all.get? k = some snap → snap.timestamp = k

theorem KeepsNewest.insert {all t : Snapshots} (h : KeepsNewest all t) (snap : Snapshot) :
    KeepsNewest (all.insertOrReplace snap.timestamp snap) (t.insertOrReplace snap.timestamp snap) := by
  refine ⟨?_, fun k hk => ?_, fun k snap' hget => ?_⟩
  · calc Newest.newest MAX_SNAPSHOTS (Snapshots.timestamps (t.insertOrReplace snap.timestamp snap))
        = Newest.newest MAX_SNAPSHOTS (Insert.insert snap.timestamp (Newest.newest MAX_SNAPSHOTS t.timestamps)) := by
          rw [timestamps_insertOrReplace, newest_insert_newest]
      _ = Newest.newest MAX_SNAPSHOTS (Insert.insert snap.timestamp (Newest.newest MAX_SNAPSHOTS all.timestamps)) := by rw [h.newest]
      _ = Newest.newest MAX_SNAPSHOTS (Snapshots.timestamps (all.insertOrReplace snap.timestamp snap)) := by
          rw [timestamps_insertOrReplace, newest_insert_newest]
  · rw [timestamps_insertOrReplace, Finset.mem_insert] at hk
    rw [Table.get?_insertOrReplace, Table.get?_insertOrReplace]
    split_ifs with heq
    · rfl
    · exact h.rows k (hk.resolve_left heq)
  · rw [Table.get?_insertOrReplace] at hget
    split_ifs at hget with heq
    · rw [← Option.some.inj hget, heq]
    · exact h.stamped k snap' hget

theorem KeepsNewest.trim {all t : Snapshots} (h : KeepsNewest all t) : KeepsNewest all (trimSnapshots t) := by
  refine ⟨?_, fun k hk => ?_, h.stamped⟩
  · rw [timestamps_trimSnapshots, newest_newest, h.newest]
  · rw [timestamps_trimSnapshots] at hk
    rw [get?_trimSnapshots, if_pos hk]
    exact h.rows k (newest_subset hk)

theorem historyTable_keeps (recordings : List Recording) : KeepsNewest (everWritten recordings) (historyTable recordings) := by
  unfold everWritten historyTable
  induction recordings using List.reverseRecOn with
  | nil => exact ⟨rfl, fun _ _ => rfl, fun _ snap h => absurd h (Option.some_ne_none snap).symm⟩
  | append_singleton recordings r ih =>
    rw [List.foldl_concat, List.foldl_concat, recordOne_eq]
    split_ifs with hwrite htrim
    · exact ih
    · exact ih.insert r.snap
    · exact (ih.insert r.snap).trim

/-! ## What is read -/

theorem mem_readSnapshots {t : Snapshots} (hstamped : ∀ k snap, t.get? k = some snap → snap.timestamp = k) {snap : Snapshot} :
    snap ∈ readSnapshots t ↔ t.get? snap.timestamp = some snap := by
  unfold readSnapshots
  rw [List.mem_map]
  constructor
  · rintro ⟨row, hrow, rfl⟩
    have hget : t.get? row.1 = some row.2 := Table.get?_eq_some.mpr (List.mem_mergeSort.mp hrow)
    rwa [hstamped _ _ hget]
  · exact fun h => ⟨(snap.timestamp, snap), List.mem_mergeSort.mpr (Table.get?_eq_some.mp h), rfl⟩

theorem readSnapshots_ascending {t : Snapshots} (hstamped : ∀ k snap, t.get? k = some snap → snap.timestamp = k) :
    (readSnapshots t).Pairwise fun a b => a.timestamp < b.timestamp := by
  have hsorted : (t.rows.mergeSort fun a b => decide (a.1 ≤ b.1)).Pairwise fun a b => decide (a.1 ≤ b.1) = true := by
    refine List.pairwise_mergeSort (fun a b c hab hbc => ?_) (fun a b => ?_) t.rows
    · exact decide_eq_true ((of_decide_eq_true hab).trans (of_decide_eq_true hbc))
    · rcases Nat.le_total a.1 b.1 with h | h <;> simp [h]
  have hkeys : (t.rows.mergeSort fun a b => decide (a.1 ≤ b.1)).Pairwise fun a b => a.1 ≠ b.1 :=
    List.pairwise_map.mp (((List.mergeSort_perm t.rows _).map Prod.fst).nodup_iff.mpr t.nodup)
  have hrow : ∀ row ∈ t.rows.mergeSort fun a b => decide (a.1 ≤ b.1), row.2.timestamp = row.1 := fun row hrow =>
    hstamped _ _ (Table.get?_eq_some.mpr (List.mem_mergeSort.mp hrow))
  refine List.pairwise_map.mpr ((hsorted.and hkeys).imp_of_mem fun {a b} ha hb h => ?_)
  rw [hrow a ha, hrow b hb]
  exact Nat.lt_of_le_of_ne (of_decide_eq_true h.1) h.2

/-- Written last at its time, with fewer than `MAX_SNAPSHOTS` later times. -/
def AmongNewest (recordings : List Recording) (snap : Snapshot) : Prop :=
  (everWritten recordings).get? snap.timestamp = some snap ∧ newer (everWritten recordings).timestamps snap.timestamp < MAX_SNAPSHOTS

theorem KeepsNewest.get? {all t : Snapshots} (h : KeepsNewest all t) {snap : Snapshot} (hall : all.get? snap.timestamp = some snap)
    (hnewer : newer all.timestamps snap.timestamp < MAX_SNAPSHOTS) : t.get? snap.timestamp = some snap := by
  have hnewest : snap.timestamp ∈ Newest.newest MAX_SNAPSHOTS all.timestamps := mem_newest.mpr ⟨mem_timestamps.mpr ⟨snap, hall⟩, hnewer⟩
  rw [← h.newest] at hnewest
  rw [h.rows _ (newest_subset hnewest), hall]

/-- However the calls fail, times are read in order, each with a snapshot that was
written for it, and none of the newest is lost. Once a recording goes through,
nothing else is left. -/
theorem history_after_run (recordings : List Recording) :
    ((readSnapshots (historyTable recordings)).Pairwise fun a b => a.timestamp < b.timestamp) ∧
    (∀ snap ∈ readSnapshots (historyTable recordings), (everWritten recordings).get? snap.timestamp = some snap) ∧
    (∀ snap, AmongNewest recordings snap → snap ∈ readSnapshots (historyTable recordings)) ∧
    ∀ before r, recordings = before ++ [r] → (∀ call, r.fails call = false) →
      ∀ snap, snap ∈ readSnapshots (historyTable recordings) ↔ AmongNewest recordings snap := by
  have h := historyTable_keeps recordings
  have hrows : ∀ k snap, (historyTable recordings).get? k = some snap → (everWritten recordings).get? k = some snap := fun k snap hget =>
    (h.rows k (mem_timestamps.mpr ⟨snap, hget⟩)).symm.trans hget
  have hstamped : ∀ k snap, (historyTable recordings).get? k = some snap → snap.timestamp = k := fun k snap hget =>
    h.stamped k snap (hrows k snap hget)
  have hread : ∀ snap, AmongNewest recordings snap → snap ∈ readSnapshots (historyTable recordings) := fun snap hsnap =>
    (mem_readSnapshots hstamped).mpr (h.get? hsnap.1 hsnap.2)
  refine ⟨readSnapshots_ascending hstamped, fun snap hsnap => hrows _ _ ((mem_readSnapshots hstamped).mp hsnap), hread,
    fun before r hlast hok snap => ⟨fun hsnap => ?_, hread snap⟩⟩
  have hget := (mem_readSnapshots hstamped).mp hsnap
  refine ⟨hrows _ _ hget, ?_⟩
  have htrimmed : (historyTable recordings).timestamps = Newest.newest MAX_SNAPSHOTS (historyTable recordings).timestamps := by
    have hstep : historyTable recordings = trimSnapshots ((historyTable before).insertOrReplace r.snap.timestamp r.snap) := by
      rw [hlast, historyTable, List.foldl_concat, recordOne_eq, hok, hok, hok]
      rfl
    rw [hstep, timestamps_trimSnapshots, newest_newest]
  have hmem : snap.timestamp ∈ (historyTable recordings).timestamps := mem_timestamps.mpr ⟨snap, hget⟩
  rw [htrimmed, h.newest] at hmem
  exact (mem_newest.mp hmem).2

end Ekapkgs
