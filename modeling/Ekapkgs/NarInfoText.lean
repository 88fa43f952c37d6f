import Ekapkgs.NarInfo

/-!
# Printing and parsing a narinfo

A narinfo is printed as a list of keys and values, one a line. A printed narinfo
whose values are single lines is parsed back, with its references as basenames.
-/

namespace Ekapkgs

/-! ## Lines -/

/-- A value that `lines` gives back as it is. -/
def OneLine (s : String) : Prop := '\n' ∉ s.toList ∧ s.toList.getLast? ≠ some '\r'

instance (s : String) : Decidable (OneLine s) := inferInstanceAs (Decidable (_ ∧ _))

/-- A line without the carriage return at its end. -/
def chomp (s : String) : String := if s.toList.getLast? = some '\r' then String.ofList s.toList.dropLast else s

theorem lines_append_chomp {l rest : String} (h : '\n' ∉ l.toList) : lines (l ++ "\n" ++ rest) = chomp l :: lines rest := by
  have hsplit : (l ++ "\n" ++ rest).toList.splitOn '\n' = l.toList :: rest.toList.splitOn '\n' := by
    rw [String.toList_append, String.toList_append, List.append_assoc]
    exact List.splitOn_append_cons_self_of_not_mem h rest.toList
  have hne : rest.toList.splitOn '\n' ≠ [] := List.splitOn_ne_nil _ _
  unfold lines chomp
  dsimp only
  rw [hsplit, List.dropLast_cons_of_ne_nil hne, List.getLast?_cons_of_ne_nil hne, List.map_cons, List.cons_append, List.map_cons]
  split_ifs
  · rfl
  · rw [String.ofList_toList]

theorem chomp_of_oneLine {l : String} (h : OneLine l) : chomp l = l := if_neg h.2

theorem lines_append {l rest : String} (h : OneLine l) : lines (l ++ "\n" ++ rest) = l :: lines rest := by
  rw [lines_append_chomp h.1, chomp_of_oneLine h]

theorem lines_empty : lines "" = [] := by decide

/-- The text of a key and its value, without the end of the line. -/
def keyed (p : String × String) : String := p.1 ++ ": " ++ p.2

theorem chomp_of_concat {s : String} {init : List Char} (h : s.toList = init ++ ['\r']) : chomp s = String.ofList init := by
  unfold chomp
  rw [h, List.getLast?_concat, if_pos rfl, List.dropLast_concat]

theorem chomp_keyed (p : String × String) : chomp (keyed p) = keyed (p.1, chomp p.2) := by
  have hlist : (keyed p).toList = (p.1.toList ++ ": ".toList) ++ p.2.toList := by
    unfold keyed
    rw [String.toList_append, String.toList_append]
  by_cases hr : p.2.toList.getLast? = some '\r'
  · obtain ⟨init, hinit⟩ := List.getLast?_eq_some_iff.mp hr
    rw [hinit, ← List.append_assoc] at hlist
    rw [chomp_of_concat hlist, chomp_of_concat hinit]
    apply String.toList_injective
    simp [keyed]
  · have hkept : (keyed p).toList.getLast? ≠ some '\r' := by
      rw [hlist, List.getLast?_append]
      cases hlast : p.2.toList.getLast? with
      | none => simp
      | some c =>
        rw [hlast] at hr
        exact hr
    rw [chomp, if_neg hkept, chomp, if_neg hr]

theorem lines_pairs_chomp : ∀ {ps : List (String × String)}, (∀ p ∈ ps, '\n' ∉ p.1.toList ∧ '\n' ∉ p.2.toList) →
    lines (String.join (ps.map fun p => line p.1 p.2)) = ps.map fun p => keyed (p.1, chomp p.2)
  | [], _ => by rw [List.map_nil, List.map_nil, String.join_nil, lines_empty]
  | p :: ps, h => by
    obtain ⟨hp, hps⟩ := List.forall_mem_cons.mp h
    have hkeyed : '\n' ∉ (keyed p).toList := by
      unfold keyed
      simp [String.toList_append, hp.1, hp.2]
    rw [List.map_cons, List.map_cons, String.join_cons, ← lines_pairs_chomp hps, ← chomp_keyed]
    exact lines_append_chomp hkeyed

theorem oneLine_keyed {p : String × String} (hkey : '\n' ∉ p.1.toList) (hvalue : OneLine p.2) : OneLine (keyed p) := by
  unfold keyed OneLine
  simp only [String.toList_append]
  constructor
  · simp [hkey, hvalue.1]
  · have hsep : ": ".toList = [':', ' '] := rfl
    cases hlast : p.2.toList.getLast? with
    | none => simp [List.getLast?_eq_none_iff.mp hlast, hsep]
    | some c =>
      have := hvalue.2
      rw [List.getLast?_append, hlast]
      rw [hlast] at this
      exact this

theorem lines_pairs : ∀ {ps : List (String × String)}, (∀ p ∈ ps, '\n' ∉ p.1.toList ∧ OneLine p.2) →
    lines (String.join (ps.map fun p => line p.1 p.2)) = ps.map keyed
  | [], _ => by rw [List.map_nil, List.map_nil, String.join_nil, lines_empty]
  | p :: ps, h => by
    obtain ⟨hp, hps⟩ := List.forall_mem_cons.mp h
    rw [List.map_cons, List.map_cons, String.join_cons, ← lines_pairs hps]
    exact lines_append (oneLine_keyed hp.1 hp.2)

/-! ## Keys and values -/

theorem splitOnce_go {value : String} : ∀ (cs before : List Char), ':' ∉ cs →
    splitOnce.go ": " before (cs ++ ':' :: ' ' :: value.toList) = some (String.ofList (before.reverse ++ cs), value)
  | [], before, _ => by
    have hsep : ": ".toList = [':', ' '] := rfl
    simp [splitOnce.go, hsep]
  | c :: cs, before, h => by
    have hsep : ": ".toList = [':', ' '] := rfl
    rw [List.mem_cons, not_or] at h
    have hne : ¬ ": ".toList.isPrefixOf (c :: (cs ++ ':' :: ' ' :: value.toList)) = true := by simp [hsep, h.1]
    rw [List.cons_append, splitOnce.go, if_neg hne, splitOnce_go cs (c :: before) h.2]
    simp

theorem splitOnce_keyed {p : String × String} (h : ':' ∉ p.1.toList) : splitOnce ": " (keyed p) = some p := by
  have hlist : (keyed p).toList = p.1.toList ++ ':' :: ' ' :: p.2.toList := by
    unfold keyed
    rw [String.toList_append, String.toList_append, List.append_assoc]
    rfl
  unfold splitOnce
  rw [hlist, splitOnce_go p.1.toList [] h, List.reverse_nil, List.nil_append, String.ofList_toList]

def NarInfoFields.setPairs : List (String × String) → NarInfoFields → Option NarInfoFields
  | [], f => some f
  | p :: ps, f => (f.set p.1 p.2).bind (setPairs ps)

theorem NarInfoFields.setLines_keyed : ∀ {ps : List (String × String)} {f : NarInfoFields}, (∀ p ∈ ps, ':' ∉ p.1.toList) →
    setLines (ps.map keyed) f = setPairs ps f
  | [], _, _ => rfl
  | p :: ps, f, h => by
    obtain ⟨hp, hps⟩ := List.forall_mem_cons.mp h
    rw [List.map_cons, setLines, splitOnce_keyed hp, setPairs]
    simp only [Option.bind_eq_bind, Option.bind_some]
    congr 1
    funext f'
    exact setLines_keyed hps

theorem NarInfoFields.setPairs_append : ∀ {ps qs : List (String × String)} {f : NarInfoFields},
    setPairs (ps ++ qs) f = (setPairs ps f).bind (setPairs qs)
  | [], _, _ => rfl
  | p :: ps, qs, f => by
    rw [List.cons_append, setPairs, setPairs, Option.bind_assoc]
    congr 1
    funext f'
    exact setPairs_append

/-! ## Numbers and references -/

theorem parseU64_toString {n : Nat} (h : n < 2 ^ 64) : parseU64 (toString n) = some n := by
  have hlist : (toString n).toList = Nat.toDigits 10 n := by rw [Nat.toString_eq_repr, Nat.toList_repr]
  have hdigit : ∀ c ∈ Nat.toDigits 10 n, c.isDigit = true := fun c hc => Nat.isDigit_of_mem_toDigits (by decide) (by decide) hc
  have hplus : ∀ rest, Nat.toDigits 10 n ≠ '+' :: rest := by
    intro rest heq
    exact absurd (hdigit '+' (heq ▸ List.mem_cons_self)) (by decide)
  unfold parseU64
  rw [hlist]
  have hvalue : (Nat.toDigits 10 n).foldl (fun n c => 10 * n + (c.toNat - '0'.toNat)) 0 = n := Nat.ofDigitChars_ten_toDigits
  dsimp only
  split
  next rest heq => exact absurd heq (hplus rest)
  · rw [if_neg, hvalue, if_pos h]
    simpa [Nat.toDigits_ne_nil] using hdigit

/-- A word that `splitWhitespace` gives back as it is. -/
def Word (s : String) : Prop := s ≠ "" ∧ ∀ c ∈ s.toList, isWhitespace c = false

instance (s : String) : Decidable (Word s) := inferInstanceAs (Decidable (_ ∧ _))

theorem splitOnP_words : ∀ {ws : List String}, ws ≠ [] → (∀ w ∈ ws, Word w) →
    ([' '].intercalate (ws.map String.toList)).splitOnP isWhitespace = ws.map String.toList
  | [], h, _ => absurd rfl h
  | [w], _, h => by
    rw [List.map_singleton, List.intercalate_singleton]
    exact List.splitOnP_eq_singleton (h w List.mem_cons_self).2
  | w :: w' :: ws, _, h => by
    obtain ⟨hw, hws⟩ := List.forall_mem_cons.mp h
    have ih := splitOnP_words (List.cons_ne_nil w' ws) hws
    rw [List.map_cons] at ih
    rw [List.map_cons, List.map_cons, List.intercalate_cons_cons, List.append_assoc, List.singleton_append,
      List.splitOnP_append_cons_of_forall_mem hw.2 ' ' (by decide), ih]

theorem splitWhitespace_join {ws : List String} (hne : ws ≠ []) (h : ∀ w ∈ ws, Word w) : splitWhitespace (join ' ' ws) = ws := by
  have hkeep : (ws.map String.toList).filter (fun l => !l.isEmpty) = ws.map String.toList := by
    refine List.filter_eq_self.mpr fun l hl => ?_
    obtain ⟨w, hw, rfl⟩ := List.mem_map.mp hl
    simpa using (h w hw).1
  have hback : (String.ofList ∘ String.toList) = id := by funext w; simp
  rw [splitWhitespace, join, String.toList_ofList, splitOnP_words hne h, hkeep, List.map_map, hback, List.map_id]

theorem oneLine_word {w : String} (h : Word w) : OneLine w := by
  constructor
  · intro hmem
    exact absurd (h.2 _ hmem) (by decide)
  · intro hlast
    exact absurd (h.2 _ (List.mem_of_getLast? hlast)) (by decide)

/-! ## The pairs of a narinfo -/

def NarInfo.pairs (ni : NarInfo) : List (String × String) :=
  [("StorePath", ni.storePath), ("URL", ni.url), ("Compression", ni.compression)] ++
  (if ni.fileHash = "" then [] else [("FileHash", ni.fileHash)]) ++
  (if ni.fileSize > 0 then [("FileSize", toString ni.fileSize)] else []) ++
  [("NarHash", ni.narHash), ("NarSize", toString ni.narSize)] ++
  (if ni.references = [] then [] else [("References", join ' ' (basenames ni.references))]) ++
  ni.deriver.toList.map (Prod.mk "Deriver") ++ ni.signatures.map (Prod.mk "Sig") ++ ni.ca.toList.map (Prod.mk "CA")

theorem join_ite {c : Prop} [Decidable c] (ps : List (String × String)) : String.join ((if c then [] else ps).map fun p => line p.1 p.2) =
    if c then "" else String.join (ps.map fun p => line p.1 p.2) := by
  split_ifs <;> rfl

theorem join_map_pair (key : String) (values : List String) :
    String.join ((values.map (Prod.mk key)).map fun p => line p.1 p.2) = String.join (values.map (line key)) := by
  rw [List.map_map]
  rfl

theorem toNarinfoString_eq (ni : NarInfo) : ni.toNarinfoString = String.join (ni.pairs.map fun p => line p.1 p.2) := by
  have hsize : ∀ ps : List (String × String), String.join ((if ni.fileSize > 0 then ps else []).map fun p => line p.1 p.2) =
      if ni.fileSize > 0 then String.join (ps.map fun p => line p.1 p.2) else "" := by intro ps; split_ifs <;> rfl
  unfold NarInfo.toNarinfoString NarInfo.pairs
  simp only [List.map_append, String.join_append, join_ite, hsize, join_map_pair, List.map_cons, List.map_nil, String.join_cons,
    String.join_nil, String.append_empty, String.append_assoc]
  cases ni.deriver <;> cases ni.ca <;> simp

/-! ## The round trip -/

/-- Values that stand on one line, numbers of 64 bits, and references of one word. -/
structure NarInfo.Printable (ni : NarInfo) : Prop where
  storePath : OneLine ni.storePath
  url : OneLine ni.url
  compression : OneLine ni.compression
  fileHash : OneLine ni.fileHash
  fileSize : ni.fileSize < 2 ^ 64
  narHash : OneLine ni.narHash
  narSize : ni.narSize < 2 ^ 64
  references : ∀ r ∈ basenames ni.references, Word r
  deriver : ∀ d ∈ ni.deriver, OneLine d
  signatures : ∀ sig ∈ ni.signatures, OneLine sig
  ca : ∀ ca ∈ ni.ca, OneLine ca

def narInfoKeys : List String :=
  ["StorePath", "URL", "Compression", "FileHash", "FileSize", "NarHash", "NarSize", "References", "Deriver", "Sig", "CA"]

theorem oneLine_digits (n : Nat) : OneLine (toString n) := by
  have hdigit : ∀ c ∈ (toString n).toList, c.isDigit = true := by
    intro c hc
    rw [Nat.toString_eq_repr, Nat.toList_repr] at hc
    exact Nat.isDigit_of_mem_toDigits (by decide) (by decide) hc
  exact ⟨fun h => absurd (hdigit _ h) (by decide), fun h => absurd (hdigit _ (List.mem_of_getLast? h)) (by decide)⟩

theorem oneLine_join {ws : List String} (h : ∀ w ∈ ws, Word w) : OneLine (join ' ' ws) := by
  have hword : ∀ c, c ≠ ' ' → isWhitespace c = true → c ∉ (join ' ' ws).toList := by
    intro c hc hspace hmem
    obtain ⟨w, hw, hcw⟩ := (mem_join hc ws).mp hmem
    rw [(h w hw).2 c hcw] at hspace
    cases hspace
  exact ⟨hword '\n' (by decide) (by decide), fun hlast => hword '\r' (by decide) (by decide) (List.mem_of_getLast? hlast)⟩

theorem NarInfo.pairs_forall {ni : NarInfo} {P : String → String → Prop} (storePath : P "StorePath" ni.storePath) (url : P "URL" ni.url)
    (compression : P "Compression" ni.compression) (fileHash : P "FileHash" ni.fileHash) (fileSize : P "FileSize" (toString ni.fileSize))
    (narHash : P "NarHash" ni.narHash) (narSize : P "NarSize" (toString ni.narSize))
    (references : P "References" (join ' ' (basenames ni.references))) (deriver : ∀ d ∈ ni.deriver, P "Deriver" d)
    (signatures : ∀ sig ∈ ni.signatures, P "Sig" sig) (ca : ∀ ca ∈ ni.ca, P "CA" ca) : ∀ p ∈ ni.pairs, P p.1 p.2 := by
  intro p hp
  unfold NarInfo.pairs at hp
  simp only [List.mem_append, List.mem_cons, List.not_mem_nil, or_false, List.mem_map, Option.mem_toList] at hp
  rcases hp with ((((((((rfl | rfl | rfl) | hp) | hp) | rfl | rfl) | hp) | ⟨d, hd, rfl⟩) | ⟨sig, hsig, rfl⟩) | ⟨ca', hca, rfl⟩)
  · exact storePath
  · exact url
  · exact compression
  · split_ifs at hp
    · cases hp
    · rwa [List.mem_singleton.mp hp]
  · split_ifs at hp
    · rwa [List.mem_singleton.mp hp]
    · cases hp
  · exact narHash
  · exact narSize
  · split_ifs at hp
    · cases hp
    · rwa [List.mem_singleton.mp hp]
  · exact deriver d hd
  · exact signatures sig hsig
  · exact ca ca' hca

theorem NarInfo.Printable.pairs {ni : NarInfo} (h : ni.Printable) : ∀ p ∈ ni.pairs, p.1 ∈ narInfoKeys ∧ OneLine p.2 := by
  refine NarInfo.pairs_forall (P := fun key value => key ∈ narInfoKeys ∧ OneLine value) ⟨?_, h.storePath⟩ ⟨?_, h.url⟩ ⟨?_, h.compression⟩
    ⟨?_, h.fileHash⟩ ⟨?_, oneLine_digits _⟩ ⟨?_, h.narHash⟩ ⟨?_, oneLine_digits _⟩ ⟨?_, oneLine_join h.references⟩
    (fun d hd => ⟨?_, h.deriver d hd⟩) (fun sig hsig => ⟨?_, h.signatures sig hsig⟩) (fun ca hca => ⟨?_, h.ca ca hca⟩)
  all_goals simp [narInfoKeys]

theorem narInfoKeys_plain : ∀ key ∈ narInfoKeys, '\n' ∉ key.toList ∧ ':' ∉ key.toList := by decide

theorem NarInfoFields.setPairs_signatures : ∀ {sigs : List String} {f : NarInfoFields},
    setPairs (sigs.map (Prod.mk "Sig")) f = some { f with signatures := f.signatures ++ sigs }
  | [], f => by rw [List.append_nil]; rfl
  | sig :: sigs, f => by
    have hset : f.set "Sig" sig = some { f with signatures := f.signatures ++ [sig] } := by simp [NarInfoFields.set]
    rw [List.map_cons, setPairs, hset, Option.bind_some, setPairs_signatures]
    simp

/-- What the loop over the printed lines has assigned at its end. -/
def NarInfo.fields (ni : NarInfo) : NarInfoFields where
  storePath := some ni.storePath
  url := some ni.url
  compression := some ni.compression
  fileHash := if ni.fileHash = "" then none else some ni.fileHash
  fileSize := if ni.fileSize > 0 then some ni.fileSize else none
  narHash := some ni.narHash
  narSize := some ni.narSize
  references := basenames ni.references
  deriver := ni.deriver
  signatures := ni.signatures
  ca := ni.ca

open NarInfoFields (setPairs setPairs_append setPairs_signatures) in
theorem setPairs_pairs {ni : NarInfo} (h : ni.Printable) : NarInfoFields.setPairs ni.pairs .none = some ni.fields := by
  have hhead : ∀ f, setPairs [("StorePath", ni.storePath), ("URL", ni.url), ("Compression", ni.compression)] f =
      some { f with storePath := some ni.storePath, url := some ni.url, compression := some ni.compression } := by
    intro f; simp [setPairs, NarInfoFields.set]
  have hfileHash : ∀ f, setPairs (if ni.fileHash = "" then [] else [("FileHash", ni.fileHash)]) f =
      some { f with fileHash := if ni.fileHash = "" then f.fileHash else some ni.fileHash } := by
    intro f; split_ifs <;> simp [setPairs, NarInfoFields.set]
  have hfileSize : ∀ f, setPairs (if ni.fileSize > 0 then [("FileSize", toString ni.fileSize)] else []) f =
      some { f with fileSize := if ni.fileSize > 0 then some ni.fileSize else f.fileSize } := by
    intro f; split_ifs <;> simp [setPairs, NarInfoFields.set, parseU64_toString h.fileSize, -Nat.toString_eq_repr]
  have hnar : ∀ f, setPairs [("NarHash", ni.narHash), ("NarSize", toString ni.narSize)] f =
      some { f with narHash := some ni.narHash, narSize := some ni.narSize } := by
    intro f; simp [setPairs, NarInfoFields.set, parseU64_toString h.narSize, -Nat.toString_eq_repr]
  have hreferences : ∀ f : NarInfoFields, f.references = [] →
      setPairs (if ni.references = [] then [] else [("References", join ' ' (basenames ni.references))]) f =
        some { f with references := basenames ni.references } := by
    intro f hf
    by_cases hnil : ni.references = []
    · rw [if_pos hnil, hnil, basenames, List.map_nil, ← hf]; rfl
    · have hne : basenames ni.references ≠ [] := by simpa [basenames] using hnil
      rw [if_neg hnil]
      simp [setPairs, NarInfoFields.set, splitWhitespace_join hne h.references]
  have hderiver : ∀ f : NarInfoFields, f.deriver = none →
      setPairs (ni.deriver.toList.map (Prod.mk "Deriver")) f = some { f with deriver := ni.deriver } := by
    intro f hf
    cases ni.deriver with
    | none => cases f; cases hf; rfl
    | some d => simp [setPairs, NarInfoFields.set]
  have hca : ∀ f : NarInfoFields, f.ca = none → setPairs (ni.ca.toList.map (Prod.mk "CA")) f = some { f with ca := ni.ca } := by
    intro f hf
    cases ni.ca with
    | none => cases f; cases hf; rfl
    | some ca => simp [setPairs, NarInfoFields.set]
  unfold NarInfo.pairs
  simp only [setPairs_append, hhead, hfileHash, hfileSize, hnar, Option.bind_some]
  rw [hreferences _ rfl, Option.bind_some, hderiver _ rfl, Option.bind_some, setPairs_signatures, Option.bind_some, hca _ rfl]
  rfl

theorem parse_toNarinfoString {ni : NarInfo} (h : ni.Printable) :
    NarInfo.parse ni.toNarinfoString = some { ni with references := basenames ni.references } := by
  have hlines : lines ni.toNarinfoString = ni.pairs.map keyed := by
    rw [toNarinfoString_eq]
    exact lines_pairs fun p hp => ⟨(narInfoKeys_plain _ (h.pairs p hp).1).1, (h.pairs p hp).2⟩
  have hfields := NarInfoFields.setLines_keyed (f := .none) fun p hp => (narInfoKeys_plain _ (h.pairs p hp).1).2
  unfold NarInfo.parse
  rw [hlines, hfields, setPairs_pairs h]
  by_cases hhash : ni.fileHash = "" <;> by_cases hfile : ni.fileSize > 0 <;> simp [NarInfo.fields, hhash, hfile]
  all_goals omega

/-- References that are basenames come back as they are. -/
theorem NarInfo.parse_printed {ni : NarInfo} (h : ni.Printable) (hbase : ∀ r ∈ ni.references, '/' ∉ r.toList) :
    NarInfo.parse ni.toNarinfoString = some ni := by
  have hreferences : basenames ni.references = ni.references :=
    (List.map_congr_left fun r hr => rsplitNext_of_not_mem (hbase r hr)).trans (List.map_id _)
  rw [parse_toNarinfoString h, hreferences]

def helloInfo : NarInfo :=
  ⟨"/nix/store/h-hello", "nar/h.nar.zst", "zstd", "sha256:1", 7, "sha256:0", 9, ["g-glibc", "h-hello"], some "d-hello.drv", ["k:s", "l:t"], none⟩

theorem NarInfo.parse_printed_hello : NarInfo.parse helloInfo.toNarinfoString = some helloInfo := by
  have hbase : basenames helloInfo.references = ["g-glibc", "h-hello"] := by decide
  refine NarInfo.parse_printed ?_ (by decide : ∀ r ∈ ["g-glibc", "h-hello"], '/' ∉ r.toList)
  constructor
  case references =>
    rw [hbase]
    simp [Word, isWhitespace]
  all_goals unfold helloInfo
  all_goals decide

end Ekapkgs
