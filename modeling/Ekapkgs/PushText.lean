import Ekapkgs.Fingerprint
import Ekapkgs.GcSafety
import Ekapkgs.Push

/-!
# The names and the narinfo of a push

The server accepts the file and the narinfo of a path as nix describes it, and
holds the metadata that the client sent.
-/

namespace Ekapkgs

/-! ## Store hashes -/

def storeAlphabet : List Char := "0123456789abcdfghijklmnpqrsvwxyz".toList

theorem mem_storeAlphabet {hash : String} (h : isValidStoreHash hash = true) : ∀ c ∈ hash.toList, c ∈ storeAlphabet := by
  unfold isValidStoreHash at h
  rw [Bool.and_eq_true] at h
  intro c hc
  exact List.contains_iff_mem.mp (List.all_eq_true.mp h.2 c hc)

theorem storeAlphabet_plain : ∀ c ∈ storeAlphabet, (c.isLower || c.isDigit) = true ∧ c ≠ '.' := by
  have hall : (storeAlphabet.all fun c => (c.isLower || c.isDigit) && c ≠ '.') = true := by decide
  intro c hc
  simpa using List.all_eq_true.mp hall c hc

theorem not_mem_storeHash {hash : String} (h : isValidStoreHash hash = true) {c : Char} (hc : c ∉ storeAlphabet) :
    c ∉ hash.toList := fun hmem => hc (mem_storeAlphabet h c hmem)

theorem storeHash_ne_empty {hash : String} (h : isValidStoreHash hash = true) : hash ≠ "" := by
  rintro rfl
  exact absurd h (by decide)

theorem isValidNixHash_of_storeHash {hash : String} (h : isValidStoreHash hash = true) : isValidNixHash hash = true := by
  unfold isValidNixHash
  rw [Bool.and_eq_true]
  refine ⟨decide_eq_true (storeHash_ne_empty h), List.all_eq_true.mpr fun c hc => ?_⟩
  exact (storeAlphabet_plain c (mem_storeAlphabet h c hc)).1

theorem toList_narFile (hash : String) : (hash ++ ".nar").toList = hash.toList ++ ['.', 'n', 'a', 'r'] := by
  rw [String.toList_append]; rfl

theorem stripSuffix_of_last {suffix s : String} (h : suffix.toList.getLast? ≠ s.toList.getLast?) (hne : suffix.toList ≠ []) :
    stripSuffix suffix s = none := by
  refine Option.not_isSome_iff_eq_none.mp fun hsome => h ?_
  obtain ⟨start, heq⟩ := stripSuffix_isSome hsome
  rw [← heq, List.getLast?_append_of_ne_nil _ hne]

theorem isValidNarFilename_of_storeHash {hash : String} (h : isValidStoreHash hash = true) :
    isValidNarFilename (hash ++ ".nar") = true := by
  have hplain : ∀ c, c ∉ storeAlphabet → c ∉ ['.', 'n', 'a', 'r'] → (hash ++ ".nar").toList.contains c = false := by
    intro c hc hext
    refine Bool.eq_false_iff.mpr fun hmem => ?_
    rw [toList_narFile, List.contains_iff_mem, List.mem_append] at hmem
    exact hmem.elim (not_mem_storeHash h hc) hext
  have hdots : containsStr ".." (hash ++ ".nar") = false := by
    refine Bool.eq_false_iff.mpr fun hmem => ?_
    obtain ⟨tail, htail, hprefix⟩ := List.any_eq_true.mp hmem
    have hsub : ['.', '.'].Sublist (hash ++ ".nar").toList :=
      ((List.isPrefixOf_iff_prefix.mp hprefix).sublist).trans (List.IsSuffix.sublist ((List.mem_tails ..).mp htail))
    -- there is one dot
    have hcount := hsub.count_le '.'
    rw [toList_narFile, List.count_append, List.count_eq_zero_of_not_mem (not_mem_storeHash h (by decide))] at hcount
    exact absurd hcount (by decide)
  have hlast : (hash ++ ".nar").toList.getLast? = some 'r' := by
    rw [toList_narFile, List.getLast?_append_of_ne_nil _ (by simp)]; rfl
  unfold isValidNarFilename
  rw [hplain '/' (by decide) (by decide), hplain '\\' (by decide) (by decide), hdots]
  rw [stripSuffix_of_last (by rw [hlast]; decide) (by decide), stripSuffix_of_last (by rw [hlast]; decide) (by decide),
    stripSuffix_append]
  exact isValidNixHash_of_storeHash h

theorem hashOfFilePath_narFile {hash : String} (h : isValidStoreHash hash = true) : hashOfFilePath ("nar/" ++ (hash ++ ".nar")) = hash := by
  have hslash : '/' ∉ (hash ++ ".nar").toList := by
    rw [toList_narFile, List.mem_append]
    exact fun hmem => hmem.elim (not_mem_storeHash h (by decide)) (by decide)
  have hname : rsplitNext '/' ("nar/" ++ (hash ++ ".nar")) = hash ++ ".nar" := by
    unfold rsplitNext
    have hlist : ("nar/" ++ (hash ++ ".nar")).toList = ['n', 'a', 'r'] ++ '/' :: (hash ++ ".nar").toList := by
      rw [String.toList_append]; rfl
    rw [hlist, List.reverse_append, List.reverse_cons, List.append_assoc, List.takeWhile_append_of_pos]
    · simp
    · intro c hc
      simpa using fun e : c = '/' => hslash (e ▸ List.mem_reverse.mp hc)
  unfold hashOfFilePath
  rw [hname]
  unfold splitNext
  rw [toList_narFile, List.takeWhile_append_of_pos]
  · simp
  · intro c hc
    simpa using (storeAlphabet_plain c (mem_storeAlphabet h c hc)).2

/-! ## The narinfo of a path -/

/-- The metadata that the client sends. -/
def LocalPath.toNarInfo (p : LocalPath) : NarInfo :=
  ⟨p.path, "nar/" ++ p.narFile, "none", p.info.narHash, p.narData.length, p.info.narHash, p.info.narSize, p.info.references, none,
    p.info.signatures, p.info.ca⟩

/-- The metadata as it is parsed, under some signatures. -/
def LocalPath.sent (p : LocalPath) (signatures : List String) : NarInfo :=
  { p.toNarInfo with references := basenames p.info.references, signatures }

/-- What nix says of its paths, and that the dump is the NAR of this tree. -/
structure LocalPath.Dumped (p : LocalPath) (t : NarNode) : Prop where
  path : p.path = p.storePath
  hash : isValidStoreHash p.hash = true
  nar : p.narData = writeNar t
  canonical : t.Canonical
  length : p.narData.length < 2 ^ 64
  narHash : p.info.narHash ≠ ""
  printable : p.toNarInfo.Printable

theorem basenames_eq_nil {references : List String} : basenames references = [] ↔ references = [] := List.map_eq_nil_iff

theorem basenames_idem (references : List String) : basenames (basenames references) = basenames references := by
  unfold basenames
  rw [List.map_map]
  exact List.map_congr_left fun r _ => rsplitNext_idem '/' r

theorem writeNar_ne_nil (t : NarNode) : writeNar t ≠ [] := by
  unfold writeNar
  exact List.append_ne_nil_of_left_ne_nil (by decide) _

variable {p : LocalPath} {t : NarNode}

theorem LocalPath.Dumped.narinfo_eq (h : p.Dumped t) : p.narinfo = p.toNarInfo.toNarinfoString := by
  have hlength : p.narData.length > 0 := List.length_pos_iff.mpr (h.nar ▸ writeNar_ne_nil t)
  unfold LocalPath.narinfo NarInfo.toNarinfoString LocalPath.toNarInfo
  simp only [h.narHash, if_false, hlength, if_true, basenames_eq_nil]
  cases p.info.ca <;> simp

theorem LocalPath.Dumped.parse (h : p.Dumped t) :
    NarInfo.parse p.narinfo = some (p.sent p.info.signatures) := by
  rw [h.narinfo_eq]
  exact parse_toNarinfoString h.printable

theorem LocalPath.Dumped.acceptNarinfo (h : p.Dumped t) (sign : String → String) :
    Ekapkgs.acceptNarinfo sign p.hash (asBytes p.narinfo) =
      some ((p.sent p.info.signatures).signed sign).toNarinfoString := by
  refine acceptNarinfo_iff.mpr ⟨_, ⟨isValidNixHash_of_storeHash h.hash, ?_, ?_, ?_⟩, rfl⟩
  · rw [fromUtf8_asBytes, Option.bind_some]
    exact h.parse
  · show hashPart p.path = p.hash
    rw [h.path]; rfl
  · show isValidNarUrl ("nar/" ++ p.narFile) = true
    have hlist : ("nar/" ++ p.narFile).toList = ['n', 'a', 'r', '/'] ++ p.narFile.toList := by rw [String.toList_append]; rfl
    unfold isValidNarUrl
    rw [hlist, show "nar/".toList = ['n', 'a', 'r', '/'] from rfl, Bool.and_eq_true]
    refine ⟨List.isPrefixOf_iff_prefix.mpr (List.prefix_append ..), ?_⟩
    rw [show List.drop 4 (['n', 'a', 'r', '/'] ++ p.narFile.toList) = p.narFile.toList from rfl, String.ofList_toList]
    exact isValidNarFilename_of_storeHash h.hash

/-- The server's signature is all that signing adds. -/
theorem signed_eq (sign : String → String) (ni : NarInfo) : ∃ signatures, ni.signed sign = { ni with signatures } ∧
    ∀ sig ∈ signatures, sig ∈ ni.signatures ∨ sig = ni.serverSignature sign := by
  unfold NarInfo.signed
  dsimp only
  split_ifs
  · exact ⟨ni.signatures, rfl, fun _ h => .inl h⟩
  · refine ⟨_, rfl, fun sig hsig => ?_⟩
    rcases List.mem_append.mp hsig with hsig | hsig
    · exact .inl hsig
    · exact .inr (List.mem_singleton.mp hsig)

/-- The metadata that is stored parses from the signed text, and is carried. -/
theorem LocalPath.Dumped.parse_signed (h : p.Dumped t) {sign : String → String} (hsign : ∀ text, OneLine (sign text)) : ∃ signatures,
    NarInfo.parse ((p.sent p.info.signatures).signed sign).toNarinfoString =
      some (p.sent signatures) := by
  obtain ⟨signatures, heq, hsignatures⟩ := signed_eq sign (p.sent p.info.signatures)
  have hprintable : (p.sent signatures).Printable :=
    { h.printable with
      signatures := fun sig hsig => (hsignatures sig hsig).elim (h.printable.signatures sig) fun e => e ▸ hsign _
      references := by
        show ∀ r ∈ basenames (basenames p.info.references), Word r
        rw [basenames_idem]; exact h.printable.references }
  have hidem : basenames (p.sent signatures).references = (p.sent signatures).references := basenames_idem p.info.references
  refine ⟨signatures, ?_⟩
  have hsigned : (p.sent p.info.signatures).signed sign = p.sent signatures := heq
  rw [hsigned, parse_toNarinfoString hprintable, hidem]

/-! ## What is read back -/

theorem split_join {c : Char} {words : List String} (hne : words ≠ []) (h : ∀ w ∈ words, c ∉ w.toList) : split c (join c words) = words := by
  have hback : (String.ofList ∘ String.toList) = id := by funext w; simp
  unfold split join
  rw [String.toList_ofList, List.splitOn_intercalate, List.map_map, hback, List.map_id]
  · intro l hl
    obtain ⟨w, hw, rfl⟩ := List.mem_map.mp hl
    exact h w hw
  · simpa using hne

theorem join_ne_empty_of_mem {c : Char} {words : List String} {w : String} (hw : w ∈ words) (hne : w ≠ "") (h : c ∉ w.toList) :
    join c words ≠ "" := by
  obtain ⟨x, hx⟩ := List.exists_mem_of_ne_nil w.toList fun hnil => hne (String.toList_inj.mp hnil)
  have hxc : x ≠ c := by
    rintro rfl
    exact h hx
  intro hempty
  have hmem := (mem_join hxc words).mpr ⟨w, hw, hx⟩
  rw [hempty] at hmem
  cases hmem

theorem space_not_mem_word {w : String} (h : Word w) : ' ' ∉ w.toList := fun hmem => absurd (h.2 _ hmem) (by decide)

theorem join_ne_empty {words : List String} (hne : words ≠ []) (h : ∀ w ∈ words, Word w) : join ' ' words ≠ "" := by
  obtain ⟨w, hw⟩ := List.exists_mem_of_ne_nil _ hne
  exact join_ne_empty_of_mem hw (h w hw).1 (space_not_mem_word (h w hw))

/-- References are stored as words between blanks. -/
theorem references_of_words {references : List String} (h : ∀ r ∈ basenames references, Word r) :
    (if join ' ' (basenames references) = "" then [] else split ' ' (join ' ' (basenames references))) = basenames references := by
  by_cases hnil : basenames references = []
  · rw [hnil]; rfl
  · rw [if_neg (join_ne_empty hnil h), split_join hnil fun w hw => space_not_mem_word (h w hw)]

/-- The stored metadata of a push comes back. -/
theorem LocalPath.Dumped.carried {δ : Type} (ext : Ext δ) (h : p.Dumped t) (signatures : List String) :
    p.Carried (reloaded ext p.hash (p.sent signatures)) := by
  refine ⟨rfl, rfl, rfl, ?_⟩
  show (if join ' ' (basenames (basenames p.info.references)) = "" then [] else split ' ' (join ' ' (basenames (basenames p.info.references)))) = _
  rw [basenames_idem]
  exact references_of_words h.printable.references

/-- The metadata of a placeholder is never carried. -/
theorem LocalPath.Dumped.not_placeholder (h : p.Dumped t) {ni : NarInfo} (hcarried : p.Carried ni) : ni.isPlaceholder = false := by
  refine decide_eq_false fun hempty => ?_
  have hpath : p.storePath = "" := by rw [← h.path, ← hcarried.storePath, hempty]
  have hhash : p.hash = "" := by
    unfold LocalPath.hash
    rw [hpath]; decide
  exact storeHash_ne_empty h.hash hhash

end Ekapkgs
