import Ekapkgs.ExistenceSound
import Ekapkgs.FsGcRuns
import Ekapkgs.NarInfoParsed
import Ekapkgs.PushSound

/-!
# What is uploaded is served

An upload is two requests, for the narinfo and for the NAR that it names, in either
order. `CacheBackend` is what both storages are to those who upload to them. The
filesystem keeps a NAR under the name it came with, the castore under the hash in
that name, and then as the NAR of the path with this hash.
-/

namespace Ekapkgs
open Keyed Fallible Runs

/-! ## A cache and those who upload to it -/

/-- A request that has passed the check of its token. -/
inductive Upload where
  | narinfo (now : Nat) (hash : String) (body : Bytes)
  | nar (now : Nat) (file : String) (body : Bytes)

/-- `put` says whether it succeeds; `getNar` gives the body of an answer that is not an error. -/
structure CacheBackend (σ : Type) where
  put : Upload → σ → Bool × σ
  getNarinfo : String → σ → Option String
  getNar : String → σ → Option Bytes

/-- All of a narinfo that an upload is to preserve. -/
structure Restored (ni ni' : NarInfo) : Prop where
  storePath : ni'.storePath = ni.storePath
  narHash : ni'.narHash = ni.narHash
  narSize : ni'.narSize = ni.narSize
  references : ni'.references = ni.references
  deriver : ni'.deriver.filter (· ≠ "") = ni.deriver.filter (· ≠ "")
  ca : ni'.ca.filter (· ≠ "") = ni.ca.filter (· ≠ "")
  signatures : ∀ sig ∈ ni.signatures, sig ∈ ni'.signatures

namespace CacheBackend
variable {σ : Type} (B : CacheBackend σ)

def puts (uploads : List Upload) (s : σ) : σ := uploads.foldl (fun s u => (B.put u s).2) s

/-- The narinfo comes back, and the NAR under the URL in it. -/
def Serves (s : σ) (hash : String) (ni : NarInfo) (data : Bytes) : Prop :=
  ∃ text ni' file, B.getNarinfo hash s = some text ∧ NarInfo.parse text = some ni' ∧ Restored ni ni' ∧ ni'.url = "nar/" ++ file ∧
    B.getNar file s = some data

/-- Both uploads in either order, and any others between and after them. -/
def RoundTrips (s : σ) (others : Upload → Prop) (hash : String) (body : Bytes) (file : String) (data : Bytes) : Prop :=
  ∀ ni now now' between after, (fromUtf8 body).bind NarInfo.parse = some ni → (∀ u ∈ between ++ after, others u) →
    ∀ first second, (first = .narinfo now hash body ∧ second = .nar now' file data ∨
        first = .nar now' file data ∧ second = .narinfo now hash body) →
      (B.put first s).1 = true → (B.put second (B.puts between (B.put first s).2)).1 = true →
        B.Serves (B.puts after (B.put second (B.puts between (B.put first s).2)).2) hash ni data

variable {B} {others : Upload → Prop} {hash file : String} {body data : Bytes}

theorem puts_keeps {P : σ → Prop} (h : ∀ u s, others u → P s → P (B.put u s).2) : ∀ {uploads : List Upload} {s : σ},
    (∀ u ∈ uploads, others u) → P s → P (B.puts uploads s)
  | [], _, _, hs => hs
  | u :: uploads, s, huploads, hs => by
    obtain ⟨hu, huploads⟩ := List.forall_mem_cons.mp huploads
    show P (B.puts uploads (B.put u s).2)
    exact puts_keeps h huploads (h u s hu hs)

/-- `J n a` says that the narinfo is there if `n`, and the NAR if `a`. -/
theorem RoundTrips.of_stages {J : Bool → Bool → σ → Prop} {ni : NarInfo} {s : σ} (hni : (fromUtf8 body).bind NarInfo.parse = some ni)
    (hstart : J false false s) (hnarinfo : ∀ now n a s, J n a s → (B.put (.narinfo now hash body) s).1 = true →
      J true a (B.put (.narinfo now hash body) s).2)
    (hnar : ∀ now n a s, J n a s → (B.put (.nar now file data) s).1 = true → J n true (B.put (.nar now file data) s).2)
    (hother : ∀ u n a s, others u → J n a s → J n a (B.put u s).2) (hserves : ∀ s, J true true s → B.Serves s hash ni data) :
    B.RoundTrips s others hash body file data := by
  intro ni' now now' between after hni' hothers first second horder hfirst hsecond
  cases hni.symm.trans hni'
  have hbetween : ∀ u ∈ between, others u := fun u hu => hothers u (List.mem_append_left _ hu)
  have hafter : ∀ u ∈ after, others u := fun u hu => hothers u (List.mem_append_right _ hu)
  have hkeeps (n a : Bool) : ∀ u s, others u → J n a s → J n a (B.put u s).2 := fun u s hu h => hother u n a s hu h
  refine hserves _ (puts_keeps (hkeeps true true) hafter ?_)
  rcases horder with ⟨rfl, rfl⟩ | ⟨rfl, rfl⟩
  · exact hnar _ _ _ _ (puts_keeps (hkeeps true false) hbetween (hnarinfo _ _ _ _ hstart hfirst)) hsecond
  · exact hnarinfo _ _ _ _ (puts_keeps (hkeeps false true) hbetween (hnar _ _ _ _ hstart hfirst)) hsecond

end CacheBackend

/-- An upload of this narinfo or of this NAR. -/
def Upload.targets (hash file : String) : Upload → Prop
  | .narinfo _ hash' _ => hash' = hash
  | .nar _ file' _ => file' = file

/-! ## The narinfo that comes back -/

/-- Values of one line, and references that are basenames. -/
structure NarInfo.Standard (ni : NarInfo) : Prop where
  printable : ni.Printable
  references : basenames ni.references = ni.references

section
variable {sign : String → String} {ni : NarInfo}

theorem NarInfo.Standard.parse (h : ni.Standard) : NarInfo.parse ni.toNarinfoString = some ni := by
  rw [parse_toNarinfoString h.printable, h.references]

theorem NarInfo.Standard.signed (h : ni.Standard) (hsign : ∀ text, OneLine (sign text)) : (ni.signed sign).Standard := by
  obtain ⟨signatures, heq, hsignatures⟩ := signed_eq sign ni
  rw [heq]
  refine ⟨{ h.printable with signatures := fun sig hsig => ?_ }, h.references⟩
  rcases hsignatures sig hsig with hsig | rfl
  · exact h.printable.signatures sig hsig
  · exact hsign _

theorem Restored.refl (ni : NarInfo) : Restored ni ni := ⟨rfl, rfl, rfl, rfl, rfl, rfl, fun _ h => h⟩

theorem Restored.trans {ni' ni'' : NarInfo} (h : Restored ni ni') (h' : Restored ni' ni'') : Restored ni ni'' :=
  ⟨h'.storePath.trans h.storePath, h'.narHash.trans h.narHash, h'.narSize.trans h.narSize, h'.references.trans h.references,
    h'.deriver.trans h.deriver, h'.ca.trans h.ca, fun sig hsig => h'.signatures sig (h.signatures sig hsig)⟩

theorem restored_signed (sign : String → String) (ni : NarInfo) : Restored ni (ni.signed sign) := by
  unfold NarInfo.signed
  dsimp only
  split
  · exact .refl ni
  · exact ⟨rfl, rfl, rfl, rfl, rfl, rfl, fun sig hsig => List.mem_append_left _ hsig⟩

/-- What the handler stores of a narinfo, read back. -/
theorem acceptNarinfo_standard (hsign : ∀ text, OneLine (sign text)) {hash content : String} {body : Bytes}
    (hni : (fromUtf8 body).bind NarInfo.parse = some ni) (hstandard : ni.Standard) (h : acceptNarinfo sign hash body = some content) :
    NarInfo.parse content = some (ni.signed sign) ∧ ni.storePathHash = hash ∧ isValidNarUrl ni.url = true := by
  obtain ⟨ni', ⟨-, hparse, hhash, hurl⟩, rfl⟩ := acceptNarinfo_iff.mp h
  cases hni.symm.trans hparse
  exact ⟨(hstandard.signed hsign).parse, hhash, hurl⟩

end

/-! ## The cache directory -/

structure FsCache where
  disk : Disk
  cache : NarInfoCache

section
variable (sign : String → String)

def fsPut : Upload → FsCache → Bool × FsCache
  | .narinfo _ hash body, s =>
    match acceptNarinfo sign hash body with
    | some content => (true, { s with disk := s.disk.insertOrReplace (narinfoName hash) (asBytes content) })
    | none => (false, s)
  | .nar _ file body, s =>
    match acceptNar file with
    | some path => (true, { s with disk := s.disk.insertOrReplace path body })
    | none => (false, s)

def fsGetNarinfo (hash : String) (s : FsCache) : Option String :=
  if !isValidStoreHash hash then none
  else (s.cache.get hash).or ((narinfoOf s.disk hash).map (signedText sign))

def fsGetNar (file : String) (s : FsCache) : Option Bytes := if isValidNarFilename file then s.disk.get? ("nar/" ++ file) else none

def fsBackend : CacheBackend FsCache := ⟨fsPut sign, fsGetNarinfo sign, fsGetNar⟩

end

section
variable {sign : String → String} {hash file content : String} {body data : Bytes} {ni : NarInfo}

theorem nar_injective {file file' : String} (h : "nar/" ++ file = "nar/" ++ file') : file = file' := by
  have := congrArg String.toList h
  rw [String.toList_append, String.toList_append] at this
  exact String.toList_injective (List.append_cancel_left this)

/-- The files of the two uploads, as far as they are there. -/
structure FsHeld (sign : String → String) (hash : String) (ni : NarInfo) (file : String) (data : Bytes) (n a : Bool) (s : FsCache) : Prop where
  cache : s.cache.get hash = none
  narinfo : n = true → narinfoOf s.disk hash = some (ni.signed sign)
  nar : a = true → s.disk.get? ("nar/" ++ file) = some data

theorem FsHeld.put {n a : Bool} {s : FsCache} (h : FsHeld sign hash ni file data n a s) (hfile : isValidNarFilename file = true) {u : Upload}
    (hu : ¬ u.targets hash file) : FsHeld sign hash ni file data n a (fsPut sign u s).2 := by
  have haccept : acceptNar file = some ("nar/" ++ file) := if_pos hfile
  cases u with
  | narinfo now hash' body' =>
    unfold fsPut
    dsimp only
    cases acceptNarinfo sign hash' body' with
    | none => exact h
    | some content =>
      refine ⟨h.cache, fun hn => ?_, fun ha => ?_⟩
      · rw [narinfoOf_insertOrReplace, if_neg fun heq => hu (narinfoName_injective heq).symm]
        exact h.narinfo hn
      · rw [Table.get?_insertOrReplace, if_neg (narinfoName_ne_nar haccept).symm]
        exact h.nar ha
  | nar now file' body' =>
    unfold fsPut
    dsimp only
    cases haccept' : acceptNar file' with
    | none => exact h
    | some path =>
      obtain ⟨-, hpath⟩ := Option.ite_none_right_eq_some.mp haccept'
      cases hpath
      refine ⟨h.cache, fun hn => ?_, fun ha => ?_⟩
      · rw [narinfoOf_insertOrReplace, if_neg (narinfoName_ne_nar haccept')]
        exact h.narinfo hn
      · rw [Table.get?_insertOrReplace, if_neg fun heq => hu (nar_injective heq).symm]
        exact h.nar ha

theorem FsHeld.putNarinfo (hsign : ∀ text, OneLine (sign text)) (hni : (fromUtf8 body).bind NarInfo.parse = some ni) (hstandard : ni.Standard)
    (hfile : isValidNarFilename file = true) {n a : Bool} {s : FsCache} (h : FsHeld sign hash ni file data n a s) (now : Nat)
    (hput : (fsPut sign (.narinfo now hash body) s).1 = true) :
    FsHeld sign hash ni file data true a (fsPut sign (.narinfo now hash body) s).2 := by
  have haccept : acceptNar file = some ("nar/" ++ file) := if_pos hfile
  unfold fsPut at hput ⊢
  dsimp only at hput ⊢
  cases hcontent : acceptNarinfo sign hash body with
  | none => rw [hcontent] at hput; cases hput
  | some content =>
    refine ⟨h.cache, fun _ => ?_, fun ha => ?_⟩
    · rw [narinfoOf_insertOrReplace, if_pos rfl, fromUtf8_asBytes, Option.bind_some]
      exact (acceptNarinfo_standard hsign hni hstandard hcontent).1
    · rw [Table.get?_insertOrReplace, if_neg (narinfoName_ne_nar haccept).symm]
      exact h.nar ha

theorem FsHeld.putNar (hfile : isValidNarFilename file = true) {n a : Bool} {s : FsCache} (h : FsHeld sign hash ni file data n a s) (now : Nat) :
    FsHeld sign hash ni file data n true (fsPut sign (.nar now file data) s).2 := by
  have haccept : acceptNar file = some ("nar/" ++ file) := if_pos hfile
  unfold fsPut
  dsimp only
  rw [haccept]
  refine ⟨h.cache, fun hn => ?_, fun _ => ?_⟩
  · rw [narinfoOf_insertOrReplace, if_neg (narinfoName_ne_nar haccept)]
    exact h.narinfo hn
  · rw [Table.get?_insertOrReplace, if_pos rfl]

theorem FsHeld.serves (hsign : ∀ text, OneLine (sign text)) (hhash : isValidStoreHash hash = true) (hurl : ni.url = "nar/" ++ file)
    (hstandard : ni.Standard) (hfile : isValidNarFilename file = true) {s : FsCache} (h : FsHeld sign hash ni file data true true s) :
    (fsBackend sign).Serves s hash ni data := by
  have hget : fsGetNarinfo sign hash s = some (signedText sign (ni.signed sign)) := by
    unfold fsGetNarinfo
    rw [hhash, h.cache, h.narinfo rfl]
    rfl
  have hnar : fsGetNar file s = some data := by
    unfold fsGetNar
    rw [if_pos hfile, h.nar rfl]
  refine ⟨_, (ni.signed sign).signed sign, file, hget, ((hstandard.signed hsign).signed hsign).parse,
    (restored_signed sign ni).trans (restored_signed sign _), ?_, hnar⟩
  obtain ⟨signatures, heq, -⟩ := signed_eq sign ni
  obtain ⟨signatures', heq', -⟩ := signed_eq sign (ni.signed sign)
  rw [heq', heq]
  exact hurl

theorem fsBackend_roundTrips (hsign : ∀ text, OneLine (sign text)) (hhash : isValidStoreHash hash = true)
    (hni : (fromUtf8 body).bind NarInfo.parse = some ni) (hurl : ni.url = "nar/" ++ file) (hfile : isValidNarFilename file = true)
    (hstandard : ni.Standard) (disk : Disk) {cache : NarInfoCache} (hcache : cache.get hash = none) :
    (fsBackend sign).RoundTrips ⟨disk, cache⟩ (fun u => ¬ u.targets hash file) hash body file data := by
  refine CacheBackend.RoundTrips.of_stages (J := FsHeld sign hash ni file data) hni ⟨hcache, nofun, nofun⟩ ?_ ?_ ?_ ?_
  · exact fun now n a s h hput => h.putNarinfo hsign hni hstandard hfile now hput
  · exact fun now n a s h _ => h.putNar hfile now
  · exact fun u n a s hu h => h.put hfile hu
  · exact fun s h => h.serves hsign hhash hurl hstandard hfile

end

/-! ## The castore -/

/-- Of the filters only that of the paths is kept up, which is the one that is read here. -/
structure CasCache (δ : Type) where
  server : CacheServer δ
  filters : Filters

section
variable {δ : Type} [DecidableEq δ] (ext : Ext δ) (level : Int) (sign : String → String)

def casPut : Upload → CasCache δ → Bool × CasCache δ
  | .narinfo now hash body, s =>
    match acceptNarinfo sign hash body with
    | none => (false, s)
    | some content =>
      match putNarinfo ext now hash content s.server.store with
      | .ok stored st => (stored, ⟨{ s.server with store := st }, s.filters.pathBloomInsert ext hash⟩)
      | .error _ st => (false, { s with server := { s.server with store := st } })
  | .nar now file body, s =>
    match acceptNar file with
    | none => (false, s)
    | some path =>
      match putNar ext level now path body s.server.store with
      | .ok stored st => (stored, ⟨{ s.server with store := st }, s.filters.pathBloomInsert ext (hashOfFilePath path)⟩)
      | .error _ st => (false, { s with server := { s.server with store := st } })

/-- After a probe for the row, what is streamed, also where the stream ends in an error. -/
def casGetNar (file : String) (s : CasCache δ) : Option Bytes :=
  if !isValidNarFilename file then none
  else
    match hasNarinfo ext s.filters (hashOfFilePath ("nar/" ++ file)) s.server.store with
    | .ok true st => some (streamNarChunks ext ("nar/" ++ file) (by decide : 0 < STREAM_CHUNK_SIZE) st).1.flatten
    | _ => none

def casBackend : CacheBackend (CasCache δ) :=
  ⟨casPut ext level sign, fun hash s => (getNarinfo sign hash s.server).1, casGetNar ext⟩

end

/-- An upload of this narinfo, or of a NAR whose name has the hash. -/
def Upload.names (hash : String) : Upload → Prop
  | .narinfo _ hash' _ => hash' = hash
  | .nar _ file _ => hashOfFilePath ("nar/" ++ file) = hash

section
variable {δ : Type} [DecidableEq δ] {ext : Ext δ} {level : Int} {sign : String → String} {hash file : String} {body data : Bytes}
  {ni : NarInfo} {t : NarNode} {nar : Option NarNode}

/-- What the store holds of a path: its narinfo if `n`, and this NAR. -/
structure CasHeld (ext : Ext δ) (sign : String → String) (hash : String) (ni : NarInfo) (n : Bool) (nar : Option NarNode) (s : CasCache δ) :
    Prop where
  cache : s.server.cache.get hash = none
  stored : RowsStored ext s.server.store
  narinfo : n = true → storedInfo s.server.store hash = some (reloaded ext hash (ni.signed sign))
  filtered : n = true → s.filters.contains ext (.path hash) = true
  nar : ∃ nars, GcInv ext s.server.store nars ∧ nars hash = nar

omit [DecidableEq δ] in
theorem contains_pathBloomInsert {filters : Filters} {k : StoreKey δ} (hash : String) (h : filters.contains ext k = true) :
    (filters.pathBloomInsert ext hash).contains ext k = true := by
  show (FilterAct.onFilters ext filters (.bloomInsert (.path hash))).contains ext k = true
  exact onFilters_contains h nofun

/-- An upload of a narinfo, under whatever root there is. -/
theorem putNarinfo_stored (laws : ext.Laws) {st : Store δ} {nars : String → Option NarNode} (hgc : GcInv ext st nars) (hstored : RowsStored ext st)
    (now : Nat) (hash : String) {content : String} (hparse : NarInfo.parse content = some ni) :
    ∃ st', putNarinfo ext now hash content st = .ok true st' ∧ GcInv ext st' nars ∧ Restores ext st st' hash ni := by
  obtain ⟨root, hroot⟩ : ∃ root, CurrentRoot ext st.db hash root := by
    cases hrow : st.db.casPaths.get? hash with
    | none => exact ⟨placeholderRoot, .inl ⟨hrow, rfl⟩⟩
    | some row => exact ⟨_, .inr ⟨row, hrow, by rw [hgc.root hash row hrow]; exact laws.decode_encodeNode _⟩⟩
  exact ⟨_, putNarinfo_quiet hgc.quiet hroot now hparse, gcInv_withRoot laws hgc now ni hroot, hstored.withRoot rfl rfl⟩

/-- An upload of a NAR, under the metadata there is or a placeholder. -/
theorem putNar_stored (laws : ext.Laws) (level : Int) {st : Store δ} {nars : String → Option NarNode} (hgc : GcInv ext st nars)
    (hstored : RowsStored ext st) (now : Nat) (path : String) (hparse : parseNar data = .ok t) :
    ∃ st', putNar ext level now path data st = .ok true st' ∧ GcInv ext st' (Function.update nars (hashOfFilePath path) (some t)) ∧
      Restores ext st st' (hashOfFilePath path) (narinfoFor ext st.db (hashOfFilePath path) data) := by
  obtain ⟨-, hpaths, -, hfaults⟩ := ingested_frame ext level st t
  have hrow : (uploaded ext level now (hashOfFilePath path) data t st).db.casPaths =
      st.db.casPaths.insertOrReplace (hashOfFilePath path) (pathRow ext now (narinfoFor ext st.db (hashOfFilePath path) data) (caNode ext t)) := by
    rw [← hpaths]; rfl
  exact ⟨_, putNar_quiet laws level hgc.quiet hgc.rows now path hparse, gcInv_putNar laws hgc now (hashOfFilePath path) data t,
    hstored.withRoot hfaults hrow⟩

omit [DecidableEq δ] in
/-- What the row keeps of a narinfo, if it has a signature that is not empty. -/
theorem restored_reloaded (ext : Ext δ) (hash : String) (h : ni.Standard) (hsig : ∃ sig ∈ ni.signatures, sig ≠ "") :
    Restored ni (reloaded ext hash ni) := by
  refine ⟨rfl, rfl, rfl, ?_, ?_, ?_, fun sig hmem => ?_⟩
  · exact (references_of_words h.printable.references).trans h.references
  · show (if ni.deriver.getD "" = "" then none else some (ni.deriver.getD "")).filter _ = _
    cases hd : ni.deriver with
    | none => rfl
    | some d => by_cases hempty : d = "" <;> simp [hempty, Option.filter]
  · show (if ni.ca.getD "" = "" then none else some (ni.ca.getD "")).filter _ = _
    cases hc : ni.ca with
    | none => rfl
    | some c => by_cases hempty : c = "" <;> simp [hempty, Option.filter]
  · obtain ⟨sig', hmem', hne⟩ := hsig
    show sig ∈ if join '\n' ni.signatures = "" then [] else split '\n' (join '\n' ni.signatures)
    rw [if_neg (join_ne_empty_of_mem hmem' hne (h.printable.signatures sig' hmem').1),
      split_join (List.ne_nil_of_mem hmem') fun s hs => (h.printable.signatures s hs).1]
    exact hmem

theorem oneLine_narUrl (hhash : isValidStoreHash hash = true) : OneLine ("nar/" ++ hash ++ ".nar") := by
  have hlist : ("nar/" ++ hash ++ ".nar").toList = ("nar/".toList ++ hash.toList) ++ ".nar".toList := by
    rw [String.toList_append, String.toList_append]
  constructor
  · rw [hlist, List.mem_append, List.mem_append]
    rintro ((h | h) | h)
    · exact absurd h (by decide)
    · exact not_mem_storeHash hhash (by decide) h
    · exact absurd h (by decide)
  · rw [hlist, List.getLast?_append, show ".nar".toList.getLast? = some 'r' by decide, Option.some_or]
    decide

omit [DecidableEq δ] in
theorem standard_reloaded (ext : Ext δ) (hhash : isValidStoreHash hash = true) (h : ni.Standard) (hsig : ∃ sig ∈ ni.signatures, sig ≠ "") :
    (reloaded ext hash ni).Standard := by
  have hreferences : (reloaded ext hash ni).references = ni.references := (restored_reloaded ext hash h hsig).references
  refine ⟨⟨h.printable.storePath, oneLine_narUrl hhash, (by decide : OneLine "none"), (by decide : OneLine ""), Nat.two_pow_pos 64,
    h.printable.narHash, h.printable.narSize, ?_, fun d hd => ?_, fun sig hsig' => ?_, fun c hc => ?_⟩, ?_⟩
  · rw [hreferences]
    exact h.printable.references
  · have hd : (if ni.deriver.getD "" = "" then none else some (ni.deriver.getD "")) = some d := hd
    obtain ⟨hne, hd⟩ := Option.ite_none_left_eq_some.mp hd
    cases hderiver : ni.deriver with
    | none => rw [hderiver] at hne; exact absurd rfl hne
    | some d' =>
      rw [hderiver] at hd
      exact Option.some.inj hd ▸ h.printable.deriver d' hderiver
  · obtain ⟨sig', hmem', hne⟩ := hsig
    have hsig' : sig ∈ if join '\n' ni.signatures = "" then [] else split '\n' (join '\n' ni.signatures) := hsig'
    rw [if_neg (join_ne_empty_of_mem hmem' hne (h.printable.signatures sig' hmem').1),
      split_join (List.ne_nil_of_mem hmem') fun s hs => (h.printable.signatures s hs).1] at hsig'
    exact h.printable.signatures sig hsig'
  · have hc : (if ni.ca.getD "" = "" then none else some (ni.ca.getD "")) = some c := hc
    obtain ⟨hne, hc⟩ := Option.ite_none_left_eq_some.mp hc
    cases hca : ni.ca with
    | none => rw [hca] at hne; exact absurd rfl hne
    | some c' =>
      rw [hca] at hc
      exact Option.some.inj hc ▸ h.printable.ca c' hca
  · rw [hreferences]
    exact h.references

theorem CasHeld.put (laws : ext.Laws) (level : Int) {n : Bool} {s : CasCache δ} (h : CasHeld ext sign hash ni n nar s) {u : Upload} (hu : ¬ u.names hash) :
    CasHeld ext sign hash ni n nar (casPut ext level sign u s).2 := by
  obtain ⟨nars, hgc, hnar⟩ := h.nar
  cases u with
  | narinfo now hash' body' =>
    unfold casPut
    dsimp only
    cases acceptNarinfo sign hash' body' with
    | none => exact h
    | some content =>
      dsimp only
      cases hparse : NarInfo.parse content with
      | none =>
        have hput : putNarinfo ext now hash' content s.server.store = .error .invalidNarinfo s.server.store := by
          unfold putNarinfo; rw [hparse]; rfl
        rw [hput]
        exact h
      | some ni' =>
        obtain ⟨st', hput, hgc', hrestores⟩ := putNarinfo_stored laws hgc h.stored now hash' hparse
        rw [hput]
        exact ⟨h.cache, hrestores.stored, fun hn => (hrestores.other hash (Ne.symm hu)).trans (h.narinfo hn),
          fun hn => contains_pathBloomInsert hash' (h.filtered hn), nars, hgc', hnar⟩
  | nar now file' body' =>
    unfold casPut
    dsimp only
    cases haccept : acceptNar file' with
    | none => exact h
    | some path =>
      dsimp only
      obtain ⟨-, hpath⟩ := Option.ite_none_right_eq_some.mp haccept
      cases hpath
      cases hparse : parseNar body' with
      | error e =>
        have hput : putNar ext level now ("nar/" ++ file') body' s.server.store = .error (.nar e) s.server.store := by
          unfold putNar; rw [hparse]; rfl
        rw [hput]
        exact h
      | ok t' =>
        obtain ⟨st', hput, hgc', hrestores⟩ := putNar_stored laws level hgc h.stored now ("nar/" ++ file') hparse
        rw [hput]
        refine ⟨h.cache, hrestores.stored, fun hn => (hrestores.other hash (Ne.symm hu)).trans (h.narinfo hn),
          fun hn => contains_pathBloomInsert _ (h.filtered hn), _, hgc', ?_⟩
        rw [Function.update_of_ne (Ne.symm hu), hnar]

theorem CasHeld.putNarinfo (laws : ext.Laws) (level : Int) (hsign : ∀ text, OneLine (sign text)) (hni : (fromUtf8 body).bind NarInfo.parse = some ni)
    (hstandard : ni.Standard) {n : Bool} {s : CasCache δ} (h : CasHeld ext sign hash ni n nar s) (now : Nat)
    (hput : (casPut ext level sign (.narinfo now hash body) s).1 = true) :
    CasHeld ext sign hash ni true nar (casPut ext level sign (.narinfo now hash body) s).2 := by
  obtain ⟨nars, hgc, hnar⟩ := h.nar
  unfold casPut at hput ⊢
  dsimp only at hput ⊢
  cases hcontent : acceptNarinfo sign hash body with
  | none => rw [hcontent] at hput; cases hput
  | some content =>
    have hparse := (acceptNarinfo_standard hsign hni hstandard hcontent).1
    obtain ⟨st', hstore, hgc', hrestores⟩ := putNarinfo_stored laws hgc h.stored now hash hparse
    dsimp only
    rw [hstore]
    exact ⟨h.cache, hrestores.stored, fun _ => hrestores.info, fun _ => insertKey_contains _, nars, hgc', hnar⟩

theorem CasHeld.putNar (laws : ext.Laws) (level : Int) (hfile : isValidNarFilename file = true) (hnamed : hashOfFilePath ("nar/" ++ file) = hash)
    (hparse : parseNar data = .ok t) {n : Bool} {s : CasCache δ} (h : CasHeld ext sign hash ni n nar s) (now : Nat) :
    CasHeld ext sign hash ni n (some t) (casPut ext level sign (.nar now file data) s).2 := by
  obtain ⟨nars, hgc, -⟩ := h.nar
  have haccept : acceptNar file = some ("nar/" ++ file) := if_pos hfile
  obtain ⟨st', hstore, hgc', hrestores⟩ := putNar_stored laws level hgc h.stored now ("nar/" ++ file) hparse
  unfold casPut
  dsimp only
  rw [haccept]
  dsimp only
  rw [hstore]
  rw [hnamed] at hgc' hrestores ⊢
  refine ⟨h.cache, hrestores.stored, fun hn => ?_, fun hn => contains_pathBloomInsert hash (h.filtered hn), _, hgc', Function.update_self ..⟩
  have hinfo := h.narinfo hn
  have hkept : narinfoFor ext s.server.store.db hash data = reloaded ext hash (ni.signed sign) := congrArg (Option.getD · _) hinfo
  rw [hrestores.info, hkept, storedInfo_reloaded h.stored hinfo]

/-- An upload that both handlers accept is stored. -/
theorem CasHeld.stored_narinfo (laws : ext.Laws) (level : Int) (hsign : ∀ text, OneLine (sign text)) (haccepted : Accepted hash body ni) (hstandard : ni.Standard)
    {n : Bool} {s : CasCache δ} (h : CasHeld ext sign hash ni n nar s) (now : Nat) : (casPut ext level sign (.narinfo now hash body) s).1 = true := by
  obtain ⟨nars, hgc, -⟩ := h.nar
  have hcontent : acceptNarinfo sign hash body = some (ni.signed sign).toNarinfoString := acceptNarinfo_iff.mpr ⟨ni, haccepted, rfl⟩
  obtain ⟨st', hstore, -⟩ := putNarinfo_stored laws hgc h.stored now hash (acceptNarinfo_standard hsign haccepted.parsed hstandard hcontent).1
  unfold casPut
  dsimp only
  rw [hcontent]
  dsimp only
  rw [hstore]

theorem CasHeld.stored_nar (laws : ext.Laws) (level : Int) (hfile : isValidNarFilename file = true) (hparse : parseNar data = .ok t)
    {n : Bool} {s : CasCache δ} (h : CasHeld ext sign hash ni n nar s) (now : Nat) : (casPut ext level sign (.nar now file data) s).1 = true := by
  obtain ⟨nars, hgc, -⟩ := h.nar
  have haccept : acceptNar file = some ("nar/" ++ file) := if_pos hfile
  obtain ⟨st', hstore, -⟩ := putNar_stored laws level hgc h.stored now ("nar/" ++ file) hparse
  unfold casPut
  dsimp only
  rw [haccept]
  dsimp only
  rw [hstore]

/-- The server's signature is there once a narinfo is signed. -/
theorem exists_signature (hsign : ∀ text, OneLine (sign text) ∧ sign text ≠ "") (ni : NarInfo) : ∃ sig ∈ (ni.signed sign).signatures, sig ≠ "" := by
  refine ⟨_, ?_, (hsign (fingerprint ni.storePath ni.narHash ni.narSize ni.references)).2⟩
  unfold NarInfo.signed
  dsimp only
  split
  next hin => exact List.contains_iff_mem.mp hin
  next => exact List.mem_append_right _ (List.mem_singleton.mpr rfl)

omit [DecidableEq δ] in
/-- Nothing is sent of a path whose NAR has not come. -/
theorem streamNarChunks_placeholder [DecidableEq δ] (laws : ext.Laws) {st : Store δ} (hf : st.faults = []) {path : String} {row : PathRow}
    (hrow : st.db.casPaths.get? (hashOfFilePath path) = some row) (hroot : row.rootNode = ext.encodeNode placeholderRoot) :
    (streamNarChunks ext path (by decide : 0 < STREAM_CHUNK_SIZE) st).1.flatten = [] := by
  have hread : getRootNode ext (hashOfFilePath path) st = .ok (some placeholderRoot) st := by
    unfold getRootNode
    rw [bind_of_ok (attempt_quiet hf), bind_of_ok (queryRow_quiet hf), hrow]
    simp only [Option.map_some, hroot, laws.decode_encodeNode]
    rfl
  have hreading : reading (getRootNode ext (hashOfFilePath path)) (st, []) = .ok (some placeholderRoot) (st, []) := by
    unfold reading; rw [hread]
  obtain ⟨e, hwrite⟩ : ∃ e, writeNarTo ext path (st, []) = .error e (st, writeStr "nix-archive-1") := by
    have hstream : ∃ e, writeNarStreaming ext (castoreReader ext) st.db.depth placeholderRoot (st, []) = .error e (st, writeStr "nix-archive-1") := by
      cases st.db.depth with
      | zero => exact ⟨.depth, rfl⟩
      | succ fuel => exact ⟨.noVariant, rfl⟩
    obtain ⟨e, hstream⟩ := hstream
    refine ⟨e, ?_⟩
    unfold writeNarTo
    rw [bind_of_ok hreading]
    exact (bind_of_ok rfl).trans (bind_of_error hstream)
  unfold streamNarChunks
  rw [hwrite]
  show ((Blocks.Buffer.new (by decide : 0 < STREAM_CHUNK_SIZE)).write (writeStr "nix-archive-1")).sent.flatten = []
  rw [Blocks.Buffer.sent_write_of_short _ _ (show 0 + (writeStr "nix-archive-1").length < STREAM_CHUNK_SIZE by decide)]
  rfl

/-- What is served of a NAR that has come, or not yet. -/
def servedNar : Option NarNode → Bytes
  | some t => writeNar t.sorted
  | none => []

theorem CasHeld.casGetNar (laws : ext.Laws) (hhash : isValidStoreHash hash = true) {s : CasCache δ} (h : CasHeld ext sign hash ni true nar s) :
    Ekapkgs.casGetNar ext (hash ++ ".nar") s = some (servedNar nar) := by
  obtain ⟨nars, hgc, hnar⟩ := h.nar
  have hname : hashOfFilePath ("nar/" ++ (hash ++ ".nar")) = hash := hashOfFilePath_narFile hhash
  obtain ⟨row, hrow, -⟩ := Option.map_eq_some_iff.mp (h.narinfo rfl)
  have hprobe : hasNarinfo ext s.filters hash s.server.store = .ok true s.server.store := by
    unfold hasNarinfo hasKey
    simp only [maybeContains_of_contains (h.filtered rfl), if_true]
    refine (query_quiet h.stored.quiet).trans ?_
    show EStateM.Result.ok (s.server.store.db.casPaths.contains hash) _ = _
    rw [Table.contains_eq_isSome, hrow]
    rfl
  unfold Ekapkgs.casGetNar
  rw [isValidNarFilename_of_storeHash hhash, hname, hprobe]
  simp only [Bool.not_true, Bool.false_eq_true, if_false, Option.some.injEq]
  cases nar with
  | some t =>
    obtain ⟨blocks, st', hstream, hblocks⟩ := (gcInv_downloads laws hgc hnar).streamNarChunks _ hname STREAM_CHUNK_SIZE (by decide)
    rw [hstream, hblocks]
    rfl
  | none =>
    refine streamNarChunks_placeholder laws h.stored.quiet (by rw [hname]; exact hrow) ?_
    rw [hgc.root hash row hrow, hnar]
    rfl

theorem CasHeld.serves_iff (laws : ext.Laws) (hsign : ∀ text, OneLine (sign text) ∧ sign text ≠ "") (hhash : isValidStoreHash hash = true)
    (hstandard : ni.Standard) {s : CasCache δ} (h : CasHeld ext sign hash ni true nar s) :
    (casBackend ext level sign).Serves s hash ni data ↔ servedNar nar = data := by
  have hinfo := h.narinfo rfl
  have hsigned := hstandard.signed fun text => (hsign text).1
  have hget : (getNarinfo sign hash s.server).1 = some (signedText sign (reloaded ext hash (ni.signed sign))) := by
    unfold getNarinfo
    simp only [hhash, Bool.not_true, Bool.false_eq_true, if_false, h.cache]
    rw [loadMetadata_quiet h.stored.quiet, hinfo]
  have hreloaded := standard_reloaded ext hhash hsigned (exists_signature hsign ni)
  have hparse := (hreloaded.signed fun text => (hsign text).1).parse
  have hurl : ((reloaded ext hash (ni.signed sign)).signed sign).url = "nar/" ++ (hash ++ ".nar") := by
    obtain ⟨signatures, heq, -⟩ := signed_eq sign (reloaded ext hash (ni.signed sign))
    rw [heq]
    exact String.append_assoc ..
  have hnar := h.casGetNar laws hhash
  constructor
  · rintro ⟨text, ni', file', htext, hni', -, hfile', hgot⟩
    cases hget.symm.trans htext
    cases hparse.symm.trans hni'
    obtain rfl := nar_injective (hurl.symm.trans hfile')
    exact Option.some.inj (hnar.symm.trans hgot)
  · intro hsame
    exact ⟨_, _, hash ++ ".nar", hget, hparse,
      ((restored_signed sign ni).trans (restored_reloaded ext hash hsigned (exists_signature hsign ni))).trans (restored_signed sign _), hurl,
      hnar.trans (congrArg some hsame)⟩

theorem CasHeld.init (laws : ext.Laws) {ops : List StoreOp} {served : Served δ} (hserved : Run (serveStep ext level) .init ops served)
    {cache : NarInfoCache} (hcache : cache.get hash = none) (filters : Filters) :
    CasHeld ext sign hash ni false (served.nars hash) ⟨⟨served.store, cache⟩, filters⟩ :=
  ⟨hcache, hserved.invariant (I := fun s => RowsStored ext s.store) (fun _ _ _ h hstep => serveStep_rowsStored laws h hstep) rowsStored_init,
    nofun, nofun, served.nars, run_gcInv laws hserved, rfl⟩

/-- The NAR comes under the hash of the path, and is as nix writes it. -/
def StoredInPlace (hash file : String) (data : Bytes) : Prop :=
  ∀ t, parseNar data = .ok t → hashOfFilePath ("nar/" ++ file) = hash ∧ writeNar t.sorted = data

theorem casPut_of_parse_error (ext : Ext δ) (level : Int) (sign : String → String) {e : NarError} (hparse : parseNar data = .error e) (now : Nat) (s : CasCache δ) :
    (casPut ext level sign (.nar now file data) s).1 = false := by
  unfold casPut
  dsimp only
  cases acceptNar file with
  | none => rfl
  | some path =>
    have hput : putNar ext level now path data s.server.store = .error (.nar e) s.server.store := by unfold putNar; rw [hparse]; rfl
    dsimp only
    rw [hput]

variable {s : CasCache δ}

theorem CasHeld.roundTrips (laws : ext.Laws) (hsign : ∀ text, OneLine (sign text) ∧ sign text ≠ "") (hhash : isValidStoreHash hash = true)
    (hni : (fromUtf8 body).bind NarInfo.parse = some ni) (hfile : isValidNarFilename file = true) (hstandard : ni.Standard)
    (hplace : StoredInPlace hash file data) (h : CasHeld ext sign hash ni false nar s) :
    (casBackend ext level sign).RoundTrips s (fun u => ¬ u.names hash) hash body file data := by
  cases hparse : parseNar data with
  | error e =>
    have hfails (now : Nat) (s : CasCache δ) : ((casBackend ext level sign).put (.nar now file data) s).1 = false :=
      casPut_of_parse_error ext level sign hparse now s
    rintro ni' now now' between after - - first second (⟨rfl, rfl⟩ | ⟨rfl, rfl⟩) hfirst hsecond
    · rw [hfails] at hsecond
      cases hsecond
    · rw [hfails] at hfirst
      cases hfirst
  | ok t =>
    obtain ⟨hnamed, hsame⟩ := hplace t hparse
    refine CacheBackend.RoundTrips.of_stages
      (J := fun n a s => ∃ nar, (a = true → nar = some t) ∧ CasHeld ext sign hash ni n nar s) hni ⟨nar, nofun, h⟩ ?_ ?_ ?_ ?_
    · rintro now n a s ⟨nar, hnar, h⟩ hput
      exact ⟨nar, hnar, h.putNarinfo laws level (fun text => (hsign text).1) hni hstandard now hput⟩
    · rintro now n a s ⟨nar, -, h⟩ -
      exact ⟨some t, fun _ => rfl, h.putNar laws level hfile hnamed hparse now⟩
    · rintro u n a s hu ⟨nar, hnar, h⟩
      exact ⟨nar, hnar, h.put laws level hu⟩
    · rintro s ⟨nar, hnar, h⟩
      obtain rfl := hnar rfl
      exact (h.serves_iff laws hsign hhash hstandard).mpr hsame

/-- Another name, or another order of entries, does not come back. -/
theorem CasHeld.roundTrips_only (laws : ext.Laws) (hsign : ∀ text, OneLine (sign text) ∧ sign text ≠ "") (hhash : isValidStoreHash hash = true)
    (haccepted : Accepted hash body ni) (hfile : isValidNarFilename file = true) (hstandard : ni.Standard)
    (hfresh : hashOfFilePath ("nar/" ++ file) ≠ hash → nar = none) (h : CasHeld ext sign hash ni false nar s) {others : Upload → Prop}
    (htrips : (casBackend ext level sign).RoundTrips s others hash body file data) : StoredInPlace hash file data := by
  intro t hparse
  have hsign' (text : String) : OneLine (sign text) := (hsign text).1
  have hnarinfo := h.stored_narinfo laws level hsign' haccepted hstandard 0
  have hheld := h.putNarinfo laws level hsign' haccepted.parsed hstandard 0 hnarinfo
  have hnar := hheld.stored_nar laws level hfile hparse 0
  have hserves := htrips ni 0 0 [] [] haccepted.parsed (fun _ h => absurd h (List.not_mem_nil)) _ _ (.inl ⟨rfl, rfl⟩) hnarinfo hnar
  by_cases hnamed : hashOfFilePath ("nar/" ++ file) = hash
  · have hboth := hheld.putNar laws level hfile hnamed hparse 0
    exact ⟨hnamed, (hboth.serves_iff laws hsign hhash hstandard).mp hserves⟩
  · have hboth := hheld.put laws level (u := .nar 0 file data) hnamed
    have hempty : servedNar nar = data := (hboth.serves_iff laws hsign hhash hstandard).mp hserves
    rw [hfresh hnamed] at hempty
    subst hempty
    have hnil : (parseNar []).toOption = none := by decide
    rw [show parseNar [] = .ok t from hparse] at hnil
    cases hnil

end

/-! ## Both -/

theorem narFile_of_narUrl {file : String} (h : isValidNarUrl ("nar/" ++ file) = true) : isValidNarFilename file = true := by
  unfold isValidNarUrl at h
  have hlist : ("nar/" ++ file).toList = ['n', 'a', 'r', '/'] ++ file.toList := by rw [String.toList_append]; rfl
  obtain ⟨-, hfile⟩ := Bool.and_eq_true_iff.mp h
  rw [hlist] at hfile
  rwa [show List.drop 4 (['n', 'a', 'r', '/'] ++ file.toList) = file.toList from rfl, String.ofList_toList] at hfile

/-- Of a narinfo of which nothing is cached. The directory gives back every NAR;
a store that has met no failure gives back what is stored in place. -/
theorem uploads_served {δ : Type} [DecidableEq δ] {ext : Ext δ} (laws : ext.Laws) (level : Int) {sign : String → String}
    (hsign : ∀ text, OneLine (sign text) ∧ sign text ≠ "") {hash file : String} {body data : Bytes} {ni : NarInfo}
    (hhash : isValidStoreHash hash = true) (haccepted : Accepted hash body ni) (hurl : ni.url = "nar/" ++ file) (hstandard : ni.Standard)
    {cache : NarInfoCache} (hcache : cache.get hash = none) :
    (∀ disk, (fsBackend sign).RoundTrips ⟨disk, cache⟩ (fun u => ¬ u.targets hash file) hash body file data) ∧
    ∀ ops served filters, Run (serveStep ext level) .init ops served →
      (hashOfFilePath ("nar/" ++ file) ≠ hash → served.store.db.casPaths.get? hash = none) →
        ((casBackend ext level sign).RoundTrips ⟨⟨served.store, cache⟩, filters⟩ (fun u => ¬ u.names hash) hash body file data ↔
          StoredInPlace hash file data) := by
  have hfile := narFile_of_narUrl (hurl ▸ haccepted.url)
  refine ⟨fun disk => fsBackend_roundTrips (fun text => (hsign text).1) hhash haccepted.parsed hurl hfile hstandard disk hcache, ?_⟩
  intro ops served filters hserved hfresh
  have hheld : CasHeld ext sign hash ni false (served.nars hash) ⟨⟨served.store, cache⟩, filters⟩ := .init laws hserved hcache filters
  have hnone : hashOfFilePath ("nar/" ++ file) ≠ hash → served.nars hash = none := by
    intro hname
    cases hnars : served.nars hash with
    | none => rfl
    | some t =>
      obtain ⟨row, hrow⟩ := (run_gcInv laws hserved).path hash t hnars
      rw [hfresh hname] at hrow
      cases hrow
  exact ⟨hheld.roundTrips_only laws hsign hhash haccepted hfile hstandard hnone,
    fun hplace => hheld.roundTrips laws hsign hhash haccepted.parsed hfile hstandard hplace⟩

/-! ## A NAR of one file -/

def uploadedNarInfo (file : String) : NarInfo :=
  ⟨"/nix/store/00000000000000000000000000000000-x", "nar/" ++ file, "none", "sha256:0", 1, "sha256:0", 1, [], none, [], none⟩

def zeroHash : String := "00000000000000000000000000000000"

/-- The NAR is named by its own hash. -/
def narHashFile : String := "1b8m03r63zqhnjf7l5wnldhh7c134ap5vpj0850ymkq1iyzicy5s.nar"

theorem uploadedNarInfo_standard {file : String} (h : OneLine ("nar/" ++ file)) : (uploadedNarInfo file).Standard := by
  have hpath : OneLine "/nix/store/00000000000000000000000000000000-x" := by decide
  have hnone : OneLine "none" := by decide
  have hnarHash : OneLine "sha256:0" := by decide
  have hsize : 1 < 2 ^ 64 := by decide
  exact ⟨⟨hpath, h, hnone, hnarHash, hsize, hnarHash, hsize, nofun, nofun, nofun, nofun⟩, rfl⟩

theorem uploadedNarInfo_accepted {file : String} (h : OneLine ("nar/" ++ file)) (hurl : isValidNarUrl ("nar/" ++ file) = true) :
    Accepted zeroHash (asBytes (uploadedNarInfo file).toNarinfoString) (uploadedNarInfo file) := by
  refine ⟨by decide, ?_, (by decide : hashPart "/nix/store/00000000000000000000000000000000-x" = zeroHash), hurl⟩
  rw [fromUtf8_asBytes, Option.bind_some]
  exact (uploadedNarInfo_standard h).parse

theorem serverSign_signature (text : String) : OneLine (serverSign text) ∧ serverSign text ≠ "" :=
  ⟨serverSign_oneLine text, show "server:s" ≠ "" by decide⟩

theorem zeroHash_storeHash : isValidStoreHash zeroHash = true := by decide

theorem uploads_served_inPlace : (fsBackend serverSign).RoundTrips ⟨.empty, .new⟩ (fun u => ¬ u.targets zeroHash (zeroHash ++ ".nar")) zeroHash
      (asBytes (uploadedNarInfo (zeroHash ++ ".nar")).toNarinfoString) (zeroHash ++ ".nar") (writeNar sampleFile) ∧
    (casBackend sampleExt 3 serverSign).RoundTrips ⟨⟨.empty, .new⟩, noFilters⟩ (fun u => ¬ u.names zeroHash) zeroHash
      (asBytes (uploadedNarInfo (zeroHash ++ ".nar")).toNarinfoString) (zeroHash ++ ".nar") (writeNar sampleFile) := by
  have hline : OneLine ("nar/" ++ (zeroHash ++ ".nar")) := by decide
  have hurl : isValidNarUrl ("nar/" ++ (zeroHash ++ ".nar")) = true := by decide
  have hserved := @uploads_served _ _ _ sampleExt_laws 3 _ serverSign_signature _ _ _ (writeNar sampleFile) _ zeroHash_storeHash
    (uploadedNarInfo_accepted hline hurl) rfl (uploadedNarInfo_standard hline) .new rfl
  refine ⟨hserved.1 .empty, (hserved.2 [] .init noFilters (.nil _) fun _ => rfl).mpr fun t ht => ?_⟩
  cases sampleFile_parse.symm.trans ht
  exact ⟨hashOfFilePath_narFile zeroHash_storeHash, by decide⟩

theorem narHashFile_oneLine : OneLine ("nar/" ++ narHashFile) := by decide

theorem narHashFile_url : isValidNarUrl ("nar/" ++ narHashFile) = true := by decide

/-- The store has no NAR of the path when it has come under the hash of the NAR. -/
theorem nar_hash_url_lost : ¬ ∀ (hash file : String) (body data : Bytes) (ni : NarInfo), Accepted hash body ni → ni.url = "nar/" ++ file →
    ni.Standard → (casBackend sampleExt 3 serverSign).RoundTrips ⟨⟨.empty, .new⟩, noFilters⟩ (fun u => ¬ u.targets hash file) hash body file data := by
  intro h
  have haccepted := uploadedNarInfo_accepted narHashFile_oneLine narHashFile_url
  have hstandard := uploadedNarInfo_standard narHashFile_oneLine
  have htrips := h zeroHash narHashFile _ (writeNar sampleFile) _ haccepted rfl hstandard
  have hheld : CasHeld sampleExt serverSign zeroHash (uploadedNarInfo narHashFile) false none ⟨⟨.empty, .new⟩, noFilters⟩ :=
    .init sampleExt_laws (.nil _ : Run (serveStep sampleExt 3) Served.init [] Served.init) rfl noFilters
  have hplace := hheld.roundTrips_only sampleExt_laws serverSign_signature zeroHash_storeHash haccepted (narFile_of_narUrl narHashFile_url)
    hstandard (fun _ => rfl) htrips
  exact absurd (hplace sampleFile sampleFile_parse).1 (by decide)

end Ekapkgs
