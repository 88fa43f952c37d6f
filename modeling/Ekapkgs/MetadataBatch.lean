import Ekapkgs.NarinfoCache
import Ekapkgs.PushText
import Ekapkgs.NarInfoParsed
import Ekapkgs.UploadRace

/-!
# Metadata read one at a time and in batches

`storage/castore.rs`: the two lookups over the columns of `cas_paths`, and what
the last upload of a path's narinfo leaves for them to read.
-/

namespace Ekapkgs
open Fallible Keyed

/-! ## Columns -/

/-- `n as i64`. -/
def asI64 (n : Nat) : Int := (BitVec.ofNat 64 n).toInt

/-- `i as u64`. -/
def asU64 (i : Int) : Nat := (BitVec.ofInt 64 i).toNat

theorem asU64_asI64 {n : Nat} (h : n < 2 ^ 64) : asU64 (asI64 n) = n := by
  unfold asU64 asI64
  rw [BitVec.ofInt_toInt, BitVec.toNat_ofNat, Nat.mod_eq_of_lt h]

/-- What both statements select, beside the hash. -/
structure MetadataColumns where
  storePath : String
  narHash : String
  narSize : Int
  references : String
  signatures : String
  ca : String
  deriver : String

def PathRow.columns (row : PathRow) : MetadataColumns where
  storePath := row.storePath
  narHash := row.narHash
  narSize := asI64 row.narSize
  references := row.references
  signatures := row.signatures
  ca := row.ca
  deriver := row.deriver

def narinfoOfColumns (hash : String) (columns : MetadataColumns) : NarInfo where
  storePath := columns.storePath
  url := "nar/" ++ hash ++ ".nar"
  compression := "none"
  fileHash := ""
  fileSize := 0
  narHash := columns.narHash
  narSize := asU64 columns.narSize
  references := if columns.references = "" then [] else split ' ' columns.references
  deriver := if columns.deriver = "" then none else some columns.deriver
  signatures := if columns.signatures = "" then [] else split '\n' columns.signatures
  ca := if columns.ca = "" then none else some columns.ca

theorem narinfoOfColumns_columns (hash : String) {row : PathRow} (h : row.narSize < 2 ^ 64) :
    narinfoOfColumns hash row.columns = narinfoOfRow hash row := by
  unfold narinfoOfColumns narinfoOfRow PathRow.columns
  dsimp only
  rw [asU64_asI64 h]

/-! ## Lookups -/

variable {δ : Type} [DecidableEq δ]

def loadMetadataWithConn (hash : String) : CasM δ (Option NarInfo) := do
  attempt  -- prepare
  let columns ← queryRow fun db => (db.casPaths.get? hash).map PathRow.columns
  pure (columns.map (narinfoOfColumns hash))

def METADATA_BATCH_SIZE : Nat := 500

/-- `slice.chunks(n)`. -/
def chunks {α : Type} (n : Nat) (l : List α) : List (List α) := (l.toChunksAux (n - 1) 0).2

/-- `SELECT .. WHERE hash IN (..)`: a row comes back once, however often its hash is named. -/
def Db.selectIn (db : Db δ) (chunk : List String) : List (String × MetadataColumns) :=
  (db.casPaths.rows.filter fun r => r.1 ∈ chunk).map fun r => (r.1, r.2.columns)

/-- The rows of the batches, in order. -/
def loadBatches : List (List String) → CasM δ (List (String × NarInfo))
  | [] => pure []
  | chunk :: chunks => do
    attempt  -- prepare
    let rows ← query fun db => db.selectIn chunk
    let available := rows.map fun r => (r.1, narinfoOfColumns r.1 r.2)
    let rest ← loadBatches chunks
    pure (available ++ rest)

/-- `found_set` holds the hashes of the available list. -/
def batchLoadMetadata (hashes : List String) : CasM δ (List (String × NarInfo) × List String) := do
  let available ← loadBatches (chunks METADATA_BATCH_SIZE hashes)
  pure (available, hashes.filter fun h => h ∉ available.map Prod.fst)

/-! ## What the lookups read -/

variable {ext : Ext δ} {level : Int} {st : Store δ}

def readMetadata (st : Store δ) (hash : String) : Option NarInfo :=
  (st.db.casPaths.get? hash).map fun row => narinfoOfColumns hash row.columns

omit [DecidableEq δ] in
theorem loadMetadataWithConn_quiet (hf : st.faults = []) (hash : String) :
    loadMetadataWithConn hash st = .ok (readMetadata st hash) st := by
  unfold loadMetadataWithConn readMetadata
  refine (bind_of_ok (attempt_quiet hf)).trans ((bind_of_ok (queryRow_quiet hf)).trans ?_)
  rw [Option.map_map]; rfl

omit [DecidableEq δ] in
theorem readMetadata_references (st : Store δ) (hash : String) :
    (readMetadata st hash).map NarInfo.references = (storedInfo st hash).map NarInfo.references := by
  unfold readMetadata storedInfo
  rw [Option.map_map, Option.map_map]; rfl

theorem flatten_toChunksAux {α : Type} (n : Nat) : ∀ (l : List α) (i : Nat),
    (l.toChunksAux n i).1 ++ (l.toChunksAux n i).2.flatten = l
  | [], _ => rfl
  | x :: l, 0 => by
    simp only [List.toChunksAux, List.flatten_cons, List.nil_append, List.cons_append]
    rw [flatten_toChunksAux n l n]
  | x :: l, i + 1 => by
    simp only [List.toChunksAux, List.cons_append]
    rw [flatten_toChunksAux n l i]

theorem flatten_chunks {α : Type} (n : Nat) (l : List α) : (chunks n l).flatten = l := by
  have hfirst : (l.toChunksAux (n - 1) 0).1 = [] := by cases l <;> rfl
  have hflatten := flatten_toChunksAux (n - 1) l 0
  rwa [hfirst, List.nil_append] at hflatten

omit [DecidableEq δ] in
theorem mem_selectIn {chunk : List String} {hash : String} {columns : MetadataColumns} :
    (hash, columns) ∈ st.db.selectIn chunk ↔
      hash ∈ chunk ∧ (st.db.casPaths.get? hash).map PathRow.columns = some columns := by
  unfold Db.selectIn
  simp only [List.mem_map, List.mem_filter, decide_eq_true_eq, Prod.mk.injEq, Prod.exists, Option.map_eq_some_iff,
    Table.get?_eq_some]
  constructor
  · rintro ⟨hash, row, ⟨hrow, hchunk⟩, rfl, rfl⟩
    exact ⟨hchunk, row, hrow, rfl⟩
  · rintro ⟨hchunk, row, hrow, rfl⟩
    exact ⟨hash, row, ⟨hrow, hchunk⟩, rfl, rfl⟩

omit [DecidableEq δ] in
theorem loadBatches_quiet (hf : st.faults = []) : ∀ chunks : List (List String),
    ∃ available, loadBatches chunks st = .ok available st ∧
      ∀ hash ni, (hash, ni) ∈ available ↔ hash ∈ chunks.flatten ∧ readMetadata st hash = some ni
  | [] => ⟨[], rfl, fun _ _ => by simp⟩
  | chunk :: chunks => by
    obtain ⟨rest, hrest, hmem⟩ := loadBatches_quiet hf chunks
    refine ⟨(st.db.selectIn chunk).map (fun r => (r.1, narinfoOfColumns r.1 r.2)) ++ rest, ?_, fun hash ni => ?_⟩
    · refine (bind_of_ok (attempt_quiet hf)).trans ((bind_of_ok (query_quiet hf)).trans ?_)
      exact (bind_of_ok hrest).trans rfl
    have hchunk : (hash, ni) ∈ (st.db.selectIn chunk).map (fun r => (r.1, narinfoOfColumns r.1 r.2)) ↔
        hash ∈ chunk ∧ readMetadata st hash = some ni := by
      unfold readMetadata
      simp only [List.mem_map, Prod.exists, mem_selectIn, Prod.mk.injEq, Option.map_eq_some_iff]
      constructor
      · rintro ⟨hash, columns, ⟨hchunk, row, hrow, rfl⟩, rfl, rfl⟩
        exact ⟨hchunk, row, hrow, rfl⟩
      · rintro ⟨hchunk, row, hrow, rfl⟩
        exact ⟨hash, row.columns, ⟨hchunk, row, hrow, rfl⟩, rfl, rfl⟩
    rw [List.mem_append, hchunk, hmem, List.flatten_cons, List.mem_append, or_and_right]

omit [DecidableEq δ] in
/-- However the request is cut into batches, each hash of it is looked up as by itself. -/
theorem batchLoadMetadata_quiet (hf : st.faults = []) (hashes : List String) :
    ∃ available unavailable, batchLoadMetadata hashes st = .ok (available, unavailable) st ∧
      (∀ hash ni, (hash, ni) ∈ available ↔ hash ∈ hashes ∧ readMetadata st hash = some ni) ∧
      ∀ hash, hash ∈ unavailable ↔ hash ∈ hashes ∧ readMetadata st hash = none := by
  obtain ⟨available, hload, hmem⟩ := loadBatches_quiet hf (chunks METADATA_BATCH_SIZE hashes)
  rw [flatten_chunks] at hmem
  refine ⟨available, _, (bind_of_ok hload).trans rfl, hmem, fun hash => ?_⟩
  rw [List.mem_filter, decide_eq_true_eq, List.mem_map]
  refine and_congr_right fun hhash => ?_
  constructor
  · intro hnot
    refine Option.eq_none_iff_forall_not_mem.mpr fun ni hni => hnot ⟨(hash, ni), (hmem hash ni).mpr ⟨hhash, hni⟩, rfl⟩
  · rintro hnone ⟨⟨hash, ni⟩, hav, rfl⟩
    rw [((hmem hash ni).mp hav).2] at hnone
    cases hnone

/-! ## Sequences of uploads -/

def StoreOp.isPut : StoreOp → Bool
  | .putNar .. | .putNarinfo .. => true
  | _ => false

/-- The narinfo that an upload brings for the hash. -/
def StoreOp.narinfoPut (hash : String) : StoreOp → Option NarInfo
  | .putNarinfo _ hash' content => if hash' = hash then NarInfo.parse content else none
  | _ => none

theorem narinfoPut_self (now : Nat) (hash content : String) :
    (StoreOp.putNarinfo now hash content).narinfoPut hash = NarInfo.parse content := if_pos rfl

def narinfosPut (hash : String) (ops : List StoreOp) : List NarInfo := ops.filterMap (StoreOp.narinfoPut hash)

def applyOps (ext : Ext δ) (level : Int) (ops : List StoreOp) (st : Store δ) : Store δ :=
  ops.foldl (fun st op => applyOp ext level op st) st

theorem reloaded_narinfoFor {hash : String} {data : Bytes} {ni : NarInfo} (h : RowsStored ext st) (hinfo : storedInfo st hash = some ni) :
    reloaded ext hash (narinfoFor ext st.db hash data) = ni := by
  have hni : narinfoFor ext st.db hash data = ni := congrArg (Option.getD · _) hinfo
  rw [hni, storedInfo_reloaded h hinfo]

theorem applyOp_put (laws : ext.Laws) (level : Int) (h : RowsStored ext st) {op : StoreOp} (hop : op.isPut = true) (hash : String) :
    RowsStored ext (applyOp ext level op st) ∧
      (∀ ni, op.narinfoPut hash = some ni → storedInfo (applyOp ext level op st) hash = some (reloaded ext hash ni)) ∧
      (op.narinfoPut hash = none → ∀ ni, storedInfo st hash = some ni → storedInfo (applyOp ext level op st) hash = some ni) := by
  cases op with
  | putNarinfo now hash' content =>
    unfold applyOp StoreOp.narinfoPut
    dsimp only
    cases hparse : NarInfo.parse content with
    | none =>
      have hsame : finalState (putNarinfo ext now hash' content st) = st := by unfold putNarinfo; rw [hparse]; rfl
      rw [hsame]
      exact ⟨h, by simp, fun _ _ hinfo => hinfo⟩
    | some ni' =>
      have hput := putNarinfo_parsed laws h now hash' hparse
      refine ⟨hput.stored, fun ni hni => ?_, fun hnone ni hinfo => ?_⟩
      · split at hni
        next heq => cases hni; subst heq; exact hput.info
        · cases hni
      · split at hnone
        · cases hnone
        next hne => rw [hput.other hash (Ne.symm hne), hinfo]
  | putNar now filePath data =>
    unfold applyOp StoreOp.narinfoPut
    dsimp only
    rcases putNar_restores laws level h now filePath data with hsame | ⟨t, -, hput⟩
    · rw [hsame]
      exact ⟨h, nofun, fun _ _ hinfo => hinfo⟩
    refine ⟨hput.stored, nofun, fun _ ni hinfo => ?_⟩
    by_cases heq : hash = hashOfFilePath filePath
    · subst heq
      rw [hput.info, reloaded_narinfoFor h hinfo]
    · rw [hput.other hash heq, hinfo]
  | _ => cases hop

/-- Whatever else was put since, the row holds the narinfo that was put last. -/
theorem applyOps_put (laws : ext.Laws) (level : Int) (h : RowsStored ext st) (hash : String) : ∀ (ops : List StoreOp),
    (∀ op ∈ ops, op.isPut = true) → RowsStored ext (applyOps ext level ops st) ∧
      ∀ ni, (narinfosPut hash ops).getLast? = some ni → storedInfo (applyOps ext level ops st) hash = some (reloaded ext hash ni) := by
  intro ops
  induction ops using List.reverseRecOn with
  | nil => exact fun _ => ⟨h, nofun⟩
  | append_singleton ops op ih =>
    intro hops
    obtain ⟨hstored, hlast⟩ := ih fun op' hmem => hops op' (List.mem_append_left _ hmem)
    obtain ⟨hstored', hput, hkept⟩ := applyOp_put laws level hstored (hops op (by simp)) hash
    have hops' : applyOps ext level (ops ++ [op]) st = applyOp ext level op (applyOps ext level ops st) := by
      unfold applyOps; rw [List.foldl_append]; rfl
    rw [hops']
    refine ⟨hstored', fun ni hni => ?_⟩
    unfold narinfosPut at hni hlast
    rw [List.filterMap_append] at hni
    cases hop : op.narinfoPut hash with
    | none =>
      rw [List.filterMap_cons_none hop, List.filterMap_nil, List.append_nil] at hni
      exact hkept hop _ (hlast ni hni)
    | some ni' =>
      rw [List.filterMap_cons_some hop, List.filterMap_nil, List.getLast?_concat] at hni
      cases hni
      exact hput ni hop

/-! ## What the last narinfo leaves -/

/-- What the separators and the empty text of the columns can tell apart. -/
structure NarInfo.Separable (ni : NarInfo) : Prop where
  references : ∀ r ∈ ni.references, r ≠ "" ∧ ' ' ∉ r.toList
  signatures : ∀ s ∈ ni.signatures, s ≠ "" ∧ '\n' ∉ s.toList
  deriver : ni.deriver ≠ some ""
  ca : ni.ca ≠ some ""

/-- The loaded metadata is that of the narinfo. -/
structure Carries (loaded ni : NarInfo) : Prop where
  storePath : loaded.storePath = ni.storePath
  narHash : loaded.narHash = ni.narHash
  narSize : loaded.narSize = ni.narSize
  references : loaded.references = basenames ni.references
  signatures : loaded.signatures = ni.signatures
  deriver : loaded.deriver = ni.deriver
  ca : loaded.ca = ni.ca

/-- An empty text is stored for no word as for one empty word. -/
theorem words_reload {c : Char} {words : List String} (hne : words ≠ [""]) (h : ∀ w ∈ words, c ∉ w.toList) :
    (if join c words = "" then [] else split c (join c words)) = words := by
  by_cases hnil : words = []
  · rw [hnil]; rfl
  have hsplit := split_join hnil h
  rw [if_neg, hsplit]
  intro hempty
  rw [hempty] at hsplit
  exact hne (hsplit.symm.trans (by simp [split]))

theorem text_reload {o : Option String} (h : o ≠ some "") : (if o.getD "" = "" then none else some (o.getD "")) = o := by
  cases o with
  | none => rfl
  | some s => exact if_neg fun hempty => h (congrArg some hempty)

theorem space_not_mem_basename {r : String} (h : ' ' ∉ r.toList) : ' ' ∉ (rsplitNext '/' r).toList := by
  intro hmem
  rw [rsplitNext, String.toList_ofList, List.mem_reverse] at hmem
  exact h (List.mem_reverse.mp ((List.takeWhile_prefix _).subset hmem))

omit [DecidableEq δ] in
theorem carries_columns (hash : String) (now : Nat) (root : CaNode) {ni : NarInfo} (hsize : ni.narSize < 2 ^ 64) (hni : ni.Separable)
    (hnames : basenames ni.references ≠ [""]) : Carries (narinfoOfColumns hash (pathRow ext now ni root).columns) ni := by
  have hspaces : ∀ w ∈ basenames ni.references, ' ' ∉ w.toList := by
    intro w hw
    obtain ⟨r, hr, rfl⟩ := List.mem_map.mp hw
    exact space_not_mem_basename (hni.references r hr).2
  have hsignatures : ni.signatures ≠ [""] := fun hone => (hni.signatures "" (by rw [hone]; simp)).1 rfl
  exact ⟨rfl, rfl, asU64_asI64 hsize, words_reload hnames hspaces, words_reload hsignatures fun s hs => (hni.signatures s hs).2,
    text_reload hni.deriver, text_reload hni.ca⟩

/-- A row that loads as a narinfo was stored loads holds the narinfo's columns. -/
theorem readMetadata_carries (h : RowsStored ext st) {hash : String} {ni : NarInfo}
    (hinfo : storedInfo st hash = some (reloaded ext hash ni)) (hsize : ni.narSize < 2 ^ 64) (hni : ni.Separable)
    (hnames : basenames ni.references ≠ [""]) : ∃ loaded, readMetadata st hash = some loaded ∧ Carries loaded ni := by
  obtain ⟨row, hrow, heq⟩ := Option.map_eq_some_iff.mp hinfo
  refine ⟨narinfoOfColumns hash row.columns, by unfold readMetadata; rw [hrow]; rfl, ?_⟩
  have hrowSize : row.narSize = ni.narSize := congrArg NarInfo.narSize heq
  rw [narinfoOfColumns_columns hash (hrowSize ▸ hsize), heq]
  have hcarries : Carries (narinfoOfColumns hash (pathRow ext 0 ni placeholderRoot).columns) ni :=
    carries_columns hash 0 placeholderRoot hsize hni hnames
  rwa [narinfoOfColumns_columns hash hsize] at hcarries

theorem parse_mem_narinfosPut {hash : String} {ops : List StoreOp} {ni : NarInfo} (h : ni ∈ narinfosPut hash ops) :
    ∃ content, NarInfo.parse content = some ni := by
  obtain ⟨op, -, hop⟩ := List.mem_filterMap.mp h
  cases op with
  | putNarinfo now hash' content =>
    unfold StoreOp.narinfoPut at hop
    dsimp only at hop
    split at hop
    · exact ⟨content, hop⟩
    · cases hop
  | _ => cases hop

theorem metadata_roundTrip (laws : ext.Laws) (level : Int) (h : RowsStored ext st) (ops : List StoreOp) (hops : ∀ op ∈ ops, op.isPut = true)
    (hash : String) :
    ∃ loaded, loadMetadataWithConn hash (applyOps ext level ops st) = .ok loaded (applyOps ext level ops st) ∧
      (∀ hashes, ∃ available unavailable,
        batchLoadMetadata hashes (applyOps ext level ops st) = .ok (available, unavailable) (applyOps ext level ops st) ∧
        (hash ∈ hashes → ∀ ni, (hash, ni) ∈ available ↔ loaded = some ni) ∧
        (hash ∈ hashes ↔ hash ∈ available.map Prod.fst ∨ hash ∈ unavailable) ∧
        ¬ (hash ∈ available.map Prod.fst ∧ hash ∈ unavailable)) ∧
      ∀ ni, (narinfosPut hash ops).getLast? = some ni → ni.Separable → basenames ni.references ≠ [""] →
        ∃ ni', loaded = some ni' ∧ Carries ni' ni := by
  obtain ⟨hstored, hlast⟩ := applyOps_put laws level h hash ops hops
  refine ⟨_, loadMetadataWithConn_quiet hstored.quiet hash, fun hashes => ?_, fun ni hni hsep hnames => ?_⟩
  · obtain ⟨available, unavailable, hbatch, havailable, hunavailable⟩ := batchLoadMetadata_quiet hstored.quiet hashes
    have hkeys : hash ∈ available.map Prod.fst ↔ hash ∈ hashes ∧ (readMetadata (applyOps ext level ops st) hash).isSome = true := by
      rw [List.mem_map, Option.isSome_iff_exists]
      constructor
      · rintro ⟨⟨hash, ni⟩, hmem, rfl⟩
        exact ⟨((havailable hash ni).mp hmem).1, ni, ((havailable hash ni).mp hmem).2⟩
      · rintro ⟨hhash, ni, hni⟩
        exact ⟨(hash, ni), (havailable hash ni).mpr ⟨hhash, hni⟩, rfl⟩
    refine ⟨available, unavailable, hbatch, fun hhash ni => ?_, ?_, ?_⟩
    · rw [havailable]
      exact and_iff_right hhash
    · rw [hkeys, hunavailable]
      cases readMetadata (applyOps ext level ops st) hash <;> simp
    · rw [hkeys, hunavailable]
      rintro ⟨⟨-, hsome⟩, -, hnone⟩
      rw [hnone] at hsome
      cases hsome
  · obtain ⟨content, hparse⟩ := parse_mem_narinfosPut (List.mem_of_getLast? hni)
    exact readMetadata_carries hstored (hlast ni hni) (parse_plain hparse).narSize hsep hnames

/-! ## A NAR before its narinfo, and a reference without a name -/

def narThenNarinfo : List StoreOp := [.putNar 0 "nar/h.nar" (writeNar sampleLink), .putNarinfo 1 "h" sampleContent]

theorem metadata_roundTrip_narThenNarinfo : ∃ ni, loadMetadataWithConn "h" (applyOps sampleExt 3 narThenNarinfo Store.empty) =
      .ok (some ni) (applyOps sampleExt 3 narThenNarinfo Store.empty) ∧ Carries ni sampleInfo := by
  obtain ⟨loaded, hload, -, hcarries⟩ := metadata_roundTrip sampleExt_laws 3 rowsStored_init
    narThenNarinfo (by decide) "h"
  have hput : (narinfosPut "h" narThenNarinfo).getLast? = some sampleInfo := by
    unfold narThenNarinfo narinfosPut
    rw [List.filterMap_cons_none rfl, List.filterMap_cons_some ((narinfoPut_self 1 "h" sampleContent).trans sampleContent_parse)]
    rfl
  obtain ⟨ni, rfl, hni⟩ := hcarries sampleInfo hput ⟨nofun, nofun, nofun, nofun⟩ (by decide)
  exact ⟨ni, hload, hni⟩

def namelessContent : String := "StorePath: /nix/store/h-x\nURL: nar/h.nar\nNarHash: sha256:0\nNarSize: 0\nReferences: a/\n"

def namelessInfo : NarInfo := { sampleInfo with references := ["a/"] }

theorem namelessContent_parse : NarInfo.parse namelessContent = some namelessInfo := by
  decide

/-- The one reference is all directory: its basename is the text of no references. -/
theorem nameless_reference_lost : ¬ ∀ (ops : List StoreOp) (hash : String) (ni : NarInfo), (∀ op ∈ ops, op.isPut = true) →
    (narinfosPut hash ops).getLast? = some ni → ni.Separable → ∃ ni',
      loadMetadataWithConn hash (applyOps sampleExt 3 ops Store.empty) = .ok (some ni') (applyOps sampleExt 3 ops Store.empty) ∧
        Carries ni' ni := by
  intro h
  have hput : (narinfosPut "h" [.putNarinfo 0 "h" namelessContent]).getLast? = some namelessInfo := by
    unfold narinfosPut
    rw [List.filterMap_cons_some ((narinfoPut_self 0 "h" namelessContent).trans namelessContent_parse)]
    rfl
  have hsep : namelessInfo.Separable := ⟨by decide, nofun, nofun, nofun⟩
  obtain ⟨hstored, hlast⟩ := applyOps_put sampleExt_laws 3 rowsStored_init "h" [.putNarinfo 0 "h" namelessContent]
    (by decide)
  obtain ⟨ni, hload, hcarries⟩ := h _ "h" _ (by decide) hput hsep
  rw [loadMetadataWithConn_quiet hstored.quiet] at hload
  have hread := (readMetadata_references (applyOps sampleExt 3 [.putNarinfo 0 "h" namelessContent] Store.empty) "h").trans
    (congrArg (Option.map NarInfo.references) (hlast _ hput))
  injection hload with hload
  rw [hload, Option.map_some, Option.map_some, hcarries.references] at hread
  exact absurd hread (by decide)

end Ekapkgs
