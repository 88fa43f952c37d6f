import Ekapkgs.GcSafety
import Ekapkgs.Upload

/-!
# The cache of signed narinfos

`NarInfoCache` of `main.rs` and the requests around it. A read looks the cache up,
on a miss loads the metadata and signs it, and then fills the cache; other requests
run in between. An upload or an eviction changes the row of its path in one
statement or one commit, and a read sees nothing else of the store, so each is one
step. Nothing takes an entry out of the cache except its capacity.
-/

namespace Ekapkgs
open Keyed Fallible Runs

/-! ## The cache -/

structure NarInfoCache where
  map : Table String String
  order : List String

def NARINFO_CACHE_CAPACITY : Nat := 8192

def NarInfoCache.new : NarInfoCache := ⟨.empty, []⟩

def NarInfoCache.get (c : NarInfoCache) (hash : String) : Option String := c.map.get? hash

def NarInfoCache.insert (c : NarInfoCache) (hash text : String) : NarInfoCache :=
  if c.map.contains hash then c
  else
    let c' : NarInfoCache := if NARINFO_CACHE_CAPACITY ≤ c.map.rows.length then
        match c.order with
        | evicted :: order => ⟨c.map.delete evicted, order⟩
        | [] => c
      else c
    ⟨c'.map.insertOrReplace hash text, c'.order ++ [hash]⟩

/-- What a fill leaves in the cache was there or is the new entry. -/
theorem NarInfoCache.get_insert {c : NarInfoCache} {hash text hash' text' : String}
    (h : (c.insert hash text).get hash' = some text') : hash' = hash ∧ text' = text ∨ c.get hash' = some text' := by
  have hdelete : ∀ {evicted : String}, (c.map.delete evicted).get? hash' = some text' → c.map.get? hash' = some text' := by
    intro evicted h
    rw [Table.get?_delete] at h
    exact (Option.ite_none_left_eq_some.mp h).2
  unfold NarInfoCache.insert NarInfoCache.get at *
  split at h
  · exact .inr h
  · rw [Table.get?_insertOrReplace] at h
    split at h
    next heq => exact .inl ⟨heq, (Option.some.inj h).symm⟩
    · right
      split at h
      · split at h
        · exact hdelete h
        · exact h
      · exact h

/-! ## The server -/

/-- 32 characters of the base 32 alphabet of nix. -/
def isValidStoreHash (s : String) : Bool :=
  s.toList.length = 32 && s.toList.all "0123456789abcdfghijklmnpqrsvwxyz".toList.contains

/-- Where a read stands. -/
inductive ReadPc where
  | missed (hash : String)
  | loaded (hash text : String)

def ReadPc.holds (hash : String) : ReadPc → Bool
  | .missed _ => false
  | .loaded hash' _ => hash' = hash

structure NarinfoServer (δ : Type) where
  store : Store δ
  cache : NarInfoCache
  readers : Table Nat ReadPc

inductive NarinfoStep where
  /-- `GET /{name}` and its look-up in the cache. -/
  | lookup (reader : Nat) (name : String)
  | load (reader : Nat)
  | respond (reader : Nat)
  | putNarinfo (now : Nat) (hash : String) (body : Bytes)
  | putNar (now : Nat) (file : String) (data : Bytes)
  | evict (hash : String)
  | restart

inductive Answer where
  | text (body : String)
  | notFound
  | internalError
  deriving DecidableEq

variable {δ : Type} [DecidableEq δ] (ext : Ext δ) (level : Int) (sign : String → String)

def NarinfoServer.init : NarinfoServer δ := ⟨.empty, .new, .empty⟩

def requestedHash (name : String) : String := (stripSuffix ".narinfo" name).getD name

/-- The text of a narinfo with the server's signature. -/
def signedText (ni : NarInfo) : String := (ni.signed sign).toNarinfoString

def uploadNarinfo (now : Nat) (hash : String) (body : Bytes) (st : Store δ) : Store δ :=
  match acceptNarinfo sign hash body with
  | some content => finalState (putNarinfo ext now hash content st)
  | none => st

def uploadNar (now : Nat) (file : String) (data : Bytes) (st : Store δ) : Store δ :=
  match acceptNar file with
  | some filePath => finalState (putNar ext level now filePath data st)
  | none => st

def narinfoNext (s : NarinfoServer δ) : NarinfoStep → Option (NarinfoServer δ)
  | .lookup reader name =>
    if s.readers.contains reader || (stripSuffix ".ls" name).isSome then none
    else
      let hash := requestedHash name
      if !isValidStoreHash hash || (s.cache.get hash).isSome then some s
      else some { s with readers := s.readers.insertOrReplace reader (.missed hash) }
  | .load reader =>
    match s.readers.get? reader with
    | some (.missed hash) =>
      match loadMetadata hash s.store with
      | .ok (some ni) st => some { s with store := st, readers := s.readers.insertOrReplace reader (.loaded hash (signedText sign ni)) }
      | .ok none st => some { s with store := st, readers := s.readers.delete reader }
      | .error _ st => some { s with store := st, readers := s.readers.delete reader }
    | _ => none
  | .respond reader =>
    match s.readers.get? reader with
    | some (.loaded hash text) => some { s with cache := s.cache.insert hash text, readers := s.readers.delete reader }
    | _ => none
  | .putNarinfo now hash body => some { s with store := uploadNarinfo ext sign now hash body s.store }
  | .putNar now file data => some { s with store := uploadNar ext level now file data s.store }
  | .evict hash => some { s with store := finalState (evictPath hash s.store) }
  | .restart => some ⟨{ s.store with dirCache := .empty }, .new, .empty⟩

abbrev narinfoStep : NarinfoServer δ → NarinfoStep → NarinfoServer δ → Prop := stepOf (narinfoNext ext level sign)

/-- What a step answers to a client that asked for a hash. -/
def NarinfoServer.answer (s : NarinfoServer δ) : NarinfoStep → Option (String × Answer)
  | .lookup _ name =>
    let hash := requestedHash name
    if !isValidStoreHash hash then some (hash, .notFound)
    else (s.cache.get hash).map fun text => (hash, .text text)
  | .load reader =>
    match s.readers.get? reader with
    | some (.missed hash) =>
      match loadMetadata hash s.store with
      | .ok (some _) _ => none
      | .ok none _ => some (hash, .notFound)
      | .error _ _ => some (hash, .internalError)
    | _ => none
  | .respond reader =>
    match s.readers.get? reader with
    | some (.loaded hash text) => some (hash, .text text)
    | _ => none
  | _ => none

/-! ## What the answer should be -/

def storedInfo (st : Store δ) (hash : String) : Option NarInfo := (st.db.casPaths.get? hash).map (narinfoOfRow hash)

/-- The metadata of a row that `put_nar` made up. -/
def NarInfo.isPlaceholder (ni : NarInfo) : Bool := ni.storePath = ""

/-- The rendering and signature of the metadata there is, which is no placeholder. -/
def AnswersStored (s : NarinfoServer δ) (step : NarinfoStep) : Prop :=
  ∀ hash a, s.answer step = some (hash, a) → isValidStoreHash hash →
    match storedInfo s.store hash with
    | none => a = .notFound
    | some ni => a = .text (signedText sign ni) ∧ ni.isPlaceholder = false

/-! ## What keeps the cache coherent -/

/-- Some read of the path may still serve what it has loaded. -/
def NarinfoServer.remembers (s : NarinfoServer δ) (hash : String) : Bool :=
  s.cache.map.contains hash || s.readers.rows.any fun r => r.2.holds hash

/-- The metadata a narinfo comes back as once it is stored. -/
def reloaded (hash : String) (ni : NarInfo) : NarInfo := narinfoOfRow hash (pathRow ext 0 ni placeholderRoot)

/-- No placeholder is loaded, and while a read of a path is remembered the path
is not evicted and no upload changes its metadata. -/
def cacheSafe (s : NarinfoServer δ) : NarinfoStep → Bool
  | .load reader =>
    match s.readers.get? reader with
    | some (.missed hash) => (storedInfo s.store hash).all fun ni => !ni.isPlaceholder
    | _ => true
  | .putNarinfo _ hash body =>
    !s.remembers hash ||
      match (acceptNarinfo sign hash body).bind NarInfo.parse with
      | some ni => storedInfo s.store hash = some (reloaded ext hash ni)
      | none => true
  | .putNar _ file data =>
    match acceptNar file with
    | some filePath => !s.remembers (hashOfFilePath filePath) || !(parseNar data).toOption.isSome ||
        (storedInfo s.store (hashOfFilePath filePath)).isSome
    | none => true
  | .evict hash => !s.remembers hash
  | _ => true

/-! ## The rows an upload leaves -/

variable {ext level sign} {st : Store δ}

/-- The store meets no failure, and its rows were all stored by an upload. -/
structure RowsStored (ext : Ext δ) (st : Store δ) : Prop where
  quiet : st.faults = []
  rows : ∀ hash row, st.db.casPaths.get? hash = some row → ∃ now ni root, row = pathRow ext now ni root

omit [DecidableEq δ] in
theorem rowsStored_init : RowsStored ext (Store.empty : Store δ) := ⟨rfl, nofun⟩

omit [DecidableEq δ] in
theorem narinfoOfRow_pathRow (hash : String) (now : Nat) (ni : NarInfo) (root : CaNode) :
    narinfoOfRow hash (pathRow ext now ni root) = reloaded ext hash ni := rfl

omit [DecidableEq δ] in
theorem storedInfo_reloaded {hash : String} {ni : NarInfo} (h : RowsStored ext st) (hinfo : storedInfo st hash = some ni) :
    reloaded ext hash ni = ni := by
  obtain ⟨row, hrow, rfl⟩ := Option.map_eq_some_iff.mp hinfo
  obtain ⟨now, ni, root, rfl⟩ := h.rows hash row hrow
  have hrow : pathRow ext 0 (narinfoOfRow hash (pathRow ext now ni root)) placeholderRoot = pathRow ext 0 ni placeholderRoot :=
    pathRow_narinfoOfRow hash now 0 ni root placeholderRoot
  unfold reloaded
  rw [hrow]; rfl

/-- A store whose rows differ at one hash at most, where one is stored. -/
structure Restores (ext : Ext δ) (st st' : Store δ) (hash : String) (ni : NarInfo) : Prop where
  stored : RowsStored ext st'
  info : storedInfo st' hash = some (reloaded ext hash ni)
  other : ∀ hash' ≠ hash, storedInfo st' hash' = storedInfo st hash'

omit [DecidableEq δ] in
theorem RowsStored.withRoot (h : RowsStored ext st) {st' : Store δ} {now : Nat} {hash : String} {ni : NarInfo} {root : CaNode}
    (hquiet : st'.faults = st.faults) (hpaths : st'.db.casPaths = st.db.casPaths.insertOrReplace hash (pathRow ext now ni root)) :
    Restores ext st st' hash ni := by
  have hget (hash' : String) : st'.db.casPaths.get? hash' =
      if hash' = hash then some (pathRow ext now ni root) else st.db.casPaths.get? hash' := by
    rw [hpaths, Table.get?_insertOrReplace]
  refine ⟨⟨hquiet.trans h.quiet, fun hash' row hrow => ?_⟩, ?_, fun hash' hne => ?_⟩
  · rw [hget] at hrow
    split at hrow
    · exact ⟨now, ni, root, (Option.some.inj hrow).symm⟩
    · exact h.rows hash' row hrow
  · unfold storedInfo
    rw [hget, if_pos rfl]; rfl
  · unfold storedInfo
    rw [hget, if_neg hne]

omit [DecidableEq δ] in
theorem putNarinfo_parsed (laws : ext.Laws) (h : RowsStored ext st) (now : Nat) (hash : String) {content : String} {ni : NarInfo}
    (hparse : NarInfo.parse content = some ni) : Restores ext st (finalState (putNarinfo ext now hash content st)) hash ni := by
  have hroot : ∃ root, CurrentRoot ext st.db hash root := by
    cases hrow : st.db.casPaths.get? hash with
    | none => exact ⟨placeholderRoot, .inl ⟨hrow, rfl⟩⟩
    | some row =>
      obtain ⟨now', ni', root, rfl⟩ := h.rows hash row hrow
      exact ⟨root, .inr ⟨_, hrow, laws.decode_encodeNode root⟩⟩
  obtain ⟨root, hroot⟩ := hroot
  rw [putNarinfo_quiet h.quiet hroot now hparse]
  exact h.withRoot rfl rfl

omit [DecidableEq δ] in
theorem putNarinfo_restores (laws : ext.Laws) (h : RowsStored ext st) (now : Nat) (hash content : String) :
    finalState (putNarinfo ext now hash content st) = st ∨ ∃ ni, NarInfo.parse content = some ni ∧
      Restores ext st (finalState (putNarinfo ext now hash content st)) hash ni := by
  cases hparse : NarInfo.parse content with
  | none => left; unfold putNarinfo; rw [hparse]; rfl
  | some ni => exact .inr ⟨ni, rfl, putNarinfo_parsed laws h now hash hparse⟩

theorem putNar_restores (laws : ext.Laws) (level : Int) (h : RowsStored ext st) (now : Nat) (filePath : String) (data : Bytes) :
    finalState (putNar ext level now filePath data st) = st ∨ ∃ t, parseNar data = .ok t ∧
      Restores ext st (finalState (putNar ext level now filePath data st)) (hashOfFilePath filePath)
        (narinfoFor ext st.db (hashOfFilePath filePath) data) := by
  cases hparse : parseNar data with
  | error e => left; unfold putNar; simp only [hparse]; rfl
  | ok t =>
    right
    obtain ⟨fileDigests, hingest⟩ := ingestNar_quiet laws level h.quiet now (hashOfFilePath filePath) data t
    obtain ⟨-, hpaths, -, hfaults⟩ := ingested_frame ext level st t
    have hput : putNar ext level now filePath data st = .ok true (recorded ext level now (hashOfFilePath filePath) data t fileDigests st) := by
      unfold putNar
      simp only [hparse]
      exact (bind_of_ok (withTransaction_quiet h.quiet hingest (hfaults.trans h.quiet))).trans rfl
    rw [hput]
    have hrecorded : (recorded ext level now (hashOfFilePath filePath) data t fileDigests st).db.casPaths =
        st.db.casPaths.insertOrReplace (hashOfFilePath filePath)
          (pathRow ext now (narinfoFor ext st.db (hashOfFilePath filePath) data) (caNode ext t)) := by
      rw [← hpaths]; rfl
    exact ⟨t, rfl, h.withRoot hfaults hrecorded⟩

theorem evictPath_stored (h : RowsStored ext st) (hash : String) :
    RowsStored ext (finalState (evictPath hash st)) ∧
      ∀ hash' ≠ hash, storedInfo (finalState (evictPath hash st)) hash' = storedInfo st hash' := by
  obtain ⟨bytesFreed, hevict, -⟩ := evictPath_quiet h.quiet hash
  rw [hevict]
  refine ⟨⟨h.quiet, fun hash' row hrow => ?_⟩, fun hash' hne => ?_⟩
  · exact h.rows hash' row (Option.ite_none_left_eq_some.mp ((evicted_casPaths hash hash').symm.trans hrow)).2
  · unfold storedInfo
    show ((evicted hash st).db.casPaths.get? hash').map _ = _
    rw [evicted_casPaths, if_neg hne]

/-! ## Coherence -/

/-- A read of the path serves this text, now or once it has answered. -/
def NarinfoServer.Holds (s : NarinfoServer δ) (hash text : String) : Prop :=
  s.cache.get hash = some text ∨ ∃ reader, s.readers.get? reader = some (.loaded hash text)

omit [DecidableEq δ] in
theorem NarinfoServer.Holds.remembered {s : NarinfoServer δ} {hash text : String} (h : s.Holds hash text) :
    s.remembers hash = true := by
  unfold NarinfoServer.remembers
  rw [Bool.or_eq_true]
  rcases h with h | ⟨reader, h⟩
  · left
    rw [Table.contains_eq_isSome, Option.isSome_iff_exists]
    exact ⟨text, h⟩
  · right
    exact List.any_eq_true.mpr ⟨_, Table.get?_eq_some.mp h, by simp [ReadPc.holds]⟩

structure CacheInv (ext : Ext δ) (sign : String → String) (s : NarinfoServer δ) : Prop where
  stored : RowsStored ext s.store
  texts : ∀ hash text, s.Holds hash text → ∃ ni, storedInfo s.store hash = some ni ∧ ni.isPlaceholder = false ∧
    text = signedText sign ni

omit [DecidableEq δ] in
theorem cacheInv_init : CacheInv ext sign (.init : NarinfoServer δ) :=
  ⟨rowsStored_init, by rintro hash text (h | ⟨reader, h⟩) <;> cases h⟩

omit [DecidableEq δ] in
/-- A step that changes the store only where nothing is remembered. -/
theorem CacheInv.withStore {s : NarinfoServer δ} (h : CacheInv ext sign s) {st' : Store δ} (hstored : RowsStored ext st')
    (hinfo : ∀ hash, s.remembers hash = true → storedInfo st' hash = storedInfo s.store hash) :
    CacheInv ext sign { s with store := st' } := by
  refine ⟨hstored, fun hash text hold => ?_⟩
  have hold : s.Holds hash text := hold
  rw [hinfo hash hold.remembered]
  exact h.texts hash text hold

omit [DecidableEq δ] in
theorem cacheInv_restores {s : NarinfoServer δ} (h : CacheInv ext sign s) {st' : Store δ} {hash : String} {ni : NarInfo}
    (hrestores : Restores ext s.store st' hash ni)
    (hsafe : s.remembers hash = true → storedInfo s.store hash = some (reloaded ext hash ni)) :
    CacheInv ext sign { s with store := st' } := by
  refine h.withStore hrestores.stored fun hash' hmem => ?_
  by_cases hne : hash' = hash
  · subst hne
    rw [hrestores.info, hsafe hmem]
  · exact hrestores.other hash' hne

omit [DecidableEq δ] in
theorem loadMetadata_quiet (hf : st.faults = []) (hash : String) : loadMetadata hash st = .ok (storedInfo st hash) st :=
  (bind_of_ok (attempt_quiet hf)).trans ((bind_of_ok (queryRow_quiet hf)).trans rfl)

omit [DecidableEq δ] in
/-- A step that neither the store nor the cache sees. -/
theorem CacheInv.withReaders {s : NarinfoServer δ} (h : CacheInv ext sign s) {readers : Table Nat ReadPc}
    (hreaders : ∀ reader hash text, readers.get? reader = some (.loaded hash text) →
      s.readers.get? reader = some (.loaded hash text)) : CacheInv ext sign { s with readers } := by
  refine ⟨h.stored, fun hash text hold => h.texts hash text ?_⟩
  rcases hold with hold | ⟨reader, hold⟩
  · exact .inl hold
  · exact .inr ⟨reader, hreaders reader hash text hold⟩

theorem get?_delete_loaded {readers : Table Nat ReadPc} {reader reader' : Nat} {pc : ReadPc}
    (h : (readers.delete reader').get? reader = some pc) : readers.get? reader = some pc := by
  rw [Table.get?_delete] at h
  exact (Option.ite_none_left_eq_some.mp h).2

theorem cacheInv_step (laws : ext.Laws) {s s' : NarinfoServer δ} {step : NarinfoStep} (h : CacheInv ext sign s)
    (hsafe : cacheSafe ext sign s step = true) (hstep : narinfoStep ext level sign s step s') : CacheInv ext sign s' := by
  cases step with
  | lookup reader name =>
    simp only [narinfoStep, stepOf, narinfoNext] at hstep
    split_ifs at hstep
    · cases hstep; exact h
    · cases hstep
      refine h.withReaders fun reader' hash text hget => ?_
      rw [Table.get?_insertOrReplace] at hget
      split_ifs at hget
      · cases hget
      · exact hget
  | load reader =>
    simp only [narinfoStep, stepOf, narinfoNext] at hstep
    split at hstep
    next hash hpc =>
      have hplaceholder : (storedInfo s.store hash).all (fun ni => !ni.isPlaceholder) = true := by
        simpa only [cacheSafe, hpc] using hsafe
      rw [loadMetadata_quiet h.stored.quiet] at hstep
      cases hinfo : storedInfo s.store hash with
      | none =>
        rw [hinfo] at hstep
        cases hstep
        exact h.withReaders fun reader' hash' text hget => get?_delete_loaded hget
      | some ni =>
        rw [hinfo] at hstep hplaceholder
        cases hstep
        refine ⟨h.stored, fun hash' text hold => ?_⟩
        rcases hold with hold | ⟨reader', hold⟩
        · exact h.texts hash' text (.inl hold)
        · rw [Table.get?_insertOrReplace] at hold
          split_ifs at hold
          · cases hold
            exact ⟨ni, hinfo, by simpa using hplaceholder, rfl⟩
          · exact h.texts hash' text (.inr ⟨reader', hold⟩)
    · cases hstep
  | respond reader =>
    simp only [narinfoStep, stepOf, narinfoNext] at hstep
    split at hstep
    next hash text hpc =>
      cases hstep
      refine ⟨h.stored, fun hash' text' hold => h.texts hash' text' ?_⟩
      rcases hold with hold | ⟨reader', hold⟩
      · rcases NarInfoCache.get_insert hold with ⟨rfl, rfl⟩ | hold
        · exact .inr ⟨reader, hpc⟩
        · exact .inl hold
      · exact .inr ⟨reader', get?_delete_loaded hold⟩
    · cases hstep
  | putNarinfo now hash body =>
    cases hstep
    unfold uploadNarinfo
    cases haccept : acceptNarinfo sign hash body with
    | none => exact h
    | some content =>
      dsimp only
      rcases putNarinfo_restores laws h.stored now hash content with heq | ⟨ni, hparse, hrestores⟩
      · rw [heq]; exact h
      · refine cacheInv_restores h hrestores fun hmem => ?_
        simpa [cacheSafe, haccept, hparse, hmem] using hsafe
  | putNar now file data =>
    cases hstep
    unfold uploadNar
    cases haccept : acceptNar file with
    | none => exact h
    | some filePath =>
      dsimp only
      rcases putNar_restores laws level h.stored now filePath data with heq | ⟨t, hparse, hrestores⟩
      · rw [heq]; exact h
      · refine cacheInv_restores h hrestores fun hmem => ?_
        have hrow : (storedInfo s.store (hashOfFilePath filePath)).isSome = true := by
          simpa [cacheSafe, haccept, hparse, hmem, Except.toOption] using hsafe
        obtain ⟨ni, hinfo⟩ := Option.isSome_iff_exists.mp hrow
        have hkept : narinfoFor ext s.store.db (hashOfFilePath filePath) data = ni := congrArg (Option.getD · _) hinfo
        rw [hkept, hinfo, storedInfo_reloaded h.stored hinfo]
  | evict hash =>
    cases hstep
    obtain ⟨hstored, hother⟩ := evictPath_stored h.stored hash
    refine h.withStore hstored fun hash' hmem => hother hash' ?_
    rintro rfl
    simp [cacheSafe, hmem] at hsafe
  | restart =>
    cases hstep
    exact ⟨⟨h.stored.quiet, h.stored.rows⟩, by rintro hash text (h | ⟨reader, h⟩) <;> cases h⟩

omit [DecidableEq δ] in
/-- Where nothing stale is remembered, an answer is the row rendered and signed. -/
theorem answersStored_of_inv {s : NarinfoServer δ} {step : NarinfoStep} (h : CacheInv ext sign s)
    (hsafe : cacheSafe ext sign s step = true) : AnswersStored sign s step := by
  have hholds {hash text : String} (hold : s.Holds hash text) : match storedInfo s.store hash with
      | none => Answer.text text = .notFound
      | some ni => Answer.text text = .text (signedText sign ni) ∧ ni.isPlaceholder = false := by
    obtain ⟨ni, hinfo, hplaceholder, rfl⟩ := h.texts hash text hold
    rw [hinfo]
    exact ⟨rfl, hplaceholder⟩
  intro hash a hanswer hvalid
  cases step with
  | lookup reader name =>
    simp only [NarinfoServer.answer] at hanswer
    split_ifs at hanswer with hname
    · cases hanswer; simp [hvalid] at hname
    · obtain ⟨text, hget, heq⟩ := Option.map_eq_some_iff.mp hanswer
      cases heq
      exact hholds (.inl hget)
  | load reader =>
    simp only [NarinfoServer.answer] at hanswer
    split at hanswer
    next hash' hpc =>
      rw [loadMetadata_quiet h.stored.quiet] at hanswer
      cases hinfo : storedInfo s.store hash' with
      | none => rw [hinfo] at hanswer; cases hanswer; rw [hinfo]
      | some ni => rw [hinfo] at hanswer; cases hanswer
    · cases hanswer
  | respond reader =>
    simp only [NarinfoServer.answer] at hanswer
    split at hanswer
    next hash' text hpc => cases hanswer; exact hholds (.inr ⟨reader, hpc⟩)
    · cases hanswer
  | putNarinfo now hash' body => cases hanswer
  | putNar now file data => cases hanswer
  | evict hash' => cases hanswer
  | restart => cases hanswer

def CacheSafe (ext : Ext δ) (sign : String → String) (s : NarinfoServer δ) (step : NarinfoStep) : Prop :=
  cacheSafe ext sign s step = true

/-- In a run whose steps are all safe every read is answered from the row. -/
theorem narinfoRun_answers (laws : ext.Laws) {steps : List NarinfoStep} {s s' : NarinfoServer δ} {step : NarinfoStep}
    (hrun : Run (guarded (narinfoStep ext level sign) (CacheSafe ext sign)) .init steps s)
    (hstep : guarded (narinfoStep ext level sign) (CacheSafe ext sign) s step s') : AnswersStored sign s step := by
  have hinv : CacheInv ext sign s := hrun.invariant (fun _ _ _ h hnext => cacheInv_step laws h hnext.1 hnext.2) cacheInv_init
  exact answersStored_of_inv hinv hstep.1

/-! ## An upload in two halves -/

instance (s : NarinfoServer δ) (step : NarinfoStep) : Decidable (CacheSafe ext sign s step) :=
  inferInstanceAs (Decidable (_ = true))

def sampleHash : String := "0123456789abcdfghijklmnpqrsvwxyz"

def sampleNarinfo : Bytes :=
  asBytes ("StorePath: /nix/store/" ++ sampleHash ++ "-x\nURL: nar/" ++ sampleHash ++ ".nar\nNarHash: sha256:0\nNarSize: 0\n")

def keySign (text : String) : String := "key:" ++ text

def pushNarinfo : NarinfoStep := .putNarinfo 0 sampleHash sampleNarinfo

def pushNar : NarinfoStep := .putNar 0 (sampleHash ++ ".nar") (writeNar sampleLink)

def readNarinfo (reader : Nat) : List NarinfoStep := [.lookup reader (sampleHash ++ ".narinfo"), .load reader, .respond reader]

def sampleStep : NarinfoServer Bytes → NarinfoStep → Option (NarinfoServer Bytes) := narinfoNext sampleExt 3 keySign

def secondRead : NarinfoStep := .lookup 1 (sampleHash ++ ".narinfo")

theorem narinfoRun_answers_second : ∃ s : NarinfoServer Bytes, (s.answer secondRead).isSome = true ∧
    AnswersStored keySign s secondRead := by
  obtain ⟨s, hs, hread⟩ := (Option.any_eq_true ..).mp
    (show ((pushNarinfo :: pushNar :: readNarinfo 0).foldlM (fun s a => if CacheSafe sampleExt keySign s a then sampleStep s a else none)
      NarinfoServer.init).any (fun s => (s.answer secondRead).isSome && (sampleStep s secondRead).isSome) = true by decide +kernel)
  rw [Bool.and_eq_true] at hread
  obtain ⟨s', hs'⟩ := Option.isSome_iff_exists.mp hread.2
  have hrun : Run (guarded (narinfoStep sampleExt 3 keySign) (CacheSafe sampleExt keySign)) .init _ s :=
    run_of_foldlM_guarded hs
  exact ⟨s, hread.1, narinfoRun_answers sampleExt_laws hrun ⟨rfl, hs'⟩⟩

/-- The read comes between the NAR and the narinfo of an upload, and the next
one after both have returned. -/
theorem placeholder_outlives_upload : ¬ ∀ (steps : List NarinfoStep) (s s' : NarinfoServer Bytes) (step : NarinfoStep),
    Run (narinfoStep sampleExt 3 keySign) .init steps s → narinfoStep sampleExt 3 keySign s step s' →
      AnswersStored keySign s step := by
  intro h
  obtain ⟨s, hs, hread⟩ := (Option.any_eq_true ..).mp
    (show ((pushNar :: readNarinfo 0 ++ [pushNarinfo]).foldlM sampleStep NarinfoServer.init).any (fun s =>
        (sampleStep s secondRead).isSome && (s.answer secondRead).any fun answer => (storedInfo s.store sampleHash).any fun ni =>
          answer.1 = sampleHash && answer.2 ≠ .text (signedText keySign ni)) = true by decide +kernel)
  obtain ⟨hnext, hread⟩ := (Bool.and_eq_true_iff ..).mp hread
  obtain ⟨s', hs'⟩ := Option.isSome_iff_exists.mp hnext
  obtain ⟨⟨hash, a⟩, hanswer, hread⟩ := (Option.any_eq_true ..).mp hread
  obtain ⟨ni, hinfo, hread⟩ := (Option.any_eq_true ..).mp hread
  obtain ⟨hhash, hstale⟩ := (Bool.and_eq_true_iff ..).mp hread
  obtain rfl : hash = sampleHash := of_decide_eq_true hhash
  have hanswers := h _ s s' secondRead (run_of_foldlM hs) hs' sampleHash a hanswer (by decide)
  rw [hinfo] at hanswers
  exact of_decide_eq_true hstale hanswers.1

end Ekapkgs
