import Ekapkgs.NarInfoText

/-!
# What the parser of narinfos gives

A line assigns one field. What was parsed has no line break in its values, so it
can be parsed again once it is printed.
-/

namespace Ekapkgs

/-! ## Lines and their pieces -/

/-- Pieces hold characters of the whole, and no separator. -/
theorem mem_splitOnP {sep : Char → Bool} {c : Char} : ∀ {cs piece : List Char}, piece ∈ cs.splitOnP sep → c ∈ piece → c ∈ cs ∧ sep c = false
  | [], piece, hpiece, hc => by
    rw [List.splitOnP_nil, List.mem_singleton] at hpiece
    rw [hpiece] at hc
    cases hc
  | d :: cs, piece, hpiece, hc => by
    rw [List.splitOnP_cons_eq_if_modifyHead] at hpiece
    by_cases hd : sep d = true
    · rw [if_pos hd] at hpiece
      rcases List.mem_cons.mp hpiece with rfl | hpiece
      · cases hc
      · exact (mem_splitOnP hpiece hc).imp_left (List.mem_cons_of_mem d)
    · rw [if_neg hd] at hpiece
      obtain ⟨first, rest, hsplit⟩ := List.exists_cons_of_ne_nil (List.splitOnP_ne_nil sep cs)
      rw [hsplit, List.modifyHead_cons] at hpiece
      rcases List.mem_cons.mp hpiece with rfl | hpiece
      · rcases List.mem_cons.mp hc with rfl | hc
        · exact ⟨List.mem_cons_self, by simpa using hd⟩
        · exact (mem_splitOnP (hsplit ▸ List.mem_cons_self) hc).imp_left (List.mem_cons_of_mem d)
      · exact (mem_splitOnP (hsplit ▸ List.mem_cons_of_mem first hpiece) hc).imp_left (List.mem_cons_of_mem d)

theorem newline_not_mem_lines {text l : String} (h : l ∈ lines text) : '\n' ∉ l.toList := by
  have hpiece {piece : List Char} (h : piece ∈ text.toList.splitOn '\n') : '\n' ∉ piece := by
    intro hc
    rw [List.splitOn_eq_splitOnP] at h
    exact absurd (mem_splitOnP h hc).2 (by decide)
  unfold lines at h
  obtain ⟨piece, hmem, rfl⟩ := List.mem_map.mp h
  rw [String.toList_ofList]
  rcases List.mem_append.mp hmem with hmem | hmem
  · obtain ⟨full, hfull, rfl⟩ := List.mem_map.mp hmem
    have hfull := hpiece (List.dropLast_subset _ hfull)
    split_ifs
    · exact fun hc => hfull (List.dropLast_subset _ hc)
    · exact hfull
  · exact hpiece (List.mem_of_getLast? (Option.mem_toList.mp (List.mem_filter.mp hmem).1))

theorem splitOnce_go_eq {sep key value : String} : ∀ {rest before : List Char}, splitOnce.go sep before rest = some (key, value) →
    before.reverse ++ rest = key.toList ++ sep.toList ++ value.toList
  | [], _, h => by cases h
  | c :: rest, before, h => by
    rw [splitOnce.go] at h
    by_cases hsep : sep.toList.isPrefixOf (c :: rest) = true
    · rw [if_pos hsep] at h
      cases h
      obtain ⟨after, hafter⟩ := List.isPrefixOf_iff_prefix.mp hsep
      rw [String.toList_ofList, String.toList_ofList, ← hafter, List.drop_left, List.append_assoc]
    · rw [if_neg hsep] at h
      simpa using splitOnce_go_eq h

theorem eq_of_splitOnce {sep s key value : String} (h : splitOnce sep s = some (key, value)) : s = key ++ sep ++ value := by
  apply String.toList_injective
  rw [String.toList_append, String.toList_append, ← splitOnce_go_eq h, List.reverse_nil, List.nil_append]

theorem parseU64_lt {s : String} {n : Nat} (h : parseU64 s = some n) : n < 2 ^ 64 := by
  unfold parseU64 at h
  dsimp only at h
  split at h
  all_goals
    split_ifs at h with hdigits hlt
    cases h
    exact hlt

/-! ## The loop over the lines -/

/-- What a line assigns. -/
inductive NarInfoFields.Assigns (f : NarInfoFields) (value : String) : String → NarInfoFields → Prop
  | storePath : Assigns f value "StorePath" { f with storePath := some value }
  | url : Assigns f value "URL" { f with url := some value }
  | compression : Assigns f value "Compression" { f with compression := some value }
  | fileHash : Assigns f value "FileHash" { f with fileHash := some value }
  | fileSize {n : Nat} (h : parseU64 value = some n) : Assigns f value "FileSize" { f with fileSize := some n }
  | narHash : Assigns f value "NarHash" { f with narHash := some value }
  | narSize {n : Nat} (h : parseU64 value = some n) : Assigns f value "NarSize" { f with narSize := some n }
  | references : Assigns f value "References" { f with references := splitWhitespace value }
  | deriver : Assigns f value "Deriver" { f with deriver := some value }
  | signature : Assigns f value "Sig" { f with signatures := f.signatures ++ [value] }
  | ca : Assigns f value "CA" { f with ca := some value }
  | other {key : String} (h : key ∉ narInfoKeys) : Assigns f value key f

namespace NarInfoFields
variable {f g : NarInfoFields} {key value : String}

theorem assigns_of_set (h : f.set key value = some g) : f.Assigns value key g := by
  unfold set at h
  by_cases hstorePath : key = "StorePath"
  · rw [if_pos hstorePath] at h; cases h; exact hstorePath ▸ .storePath
  rw [if_neg hstorePath] at h
  by_cases hurl : key = "URL"
  · rw [if_pos hurl] at h; cases h; exact hurl ▸ .url
  rw [if_neg hurl] at h
  by_cases hcompression : key = "Compression"
  · rw [if_pos hcompression] at h; cases h; exact hcompression ▸ .compression
  rw [if_neg hcompression] at h
  by_cases hfileHash : key = "FileHash"
  · rw [if_pos hfileHash] at h; cases h; exact hfileHash ▸ .fileHash
  rw [if_neg hfileHash] at h
  by_cases hfileSize : key = "FileSize"
  · rw [if_pos hfileSize] at h
    obtain ⟨n, hn, rfl⟩ := Option.map_eq_some_iff.mp h
    exact hfileSize ▸ .fileSize hn
  rw [if_neg hfileSize] at h
  by_cases hnarHash : key = "NarHash"
  · rw [if_pos hnarHash] at h; cases h; exact hnarHash ▸ .narHash
  rw [if_neg hnarHash] at h
  by_cases hnarSize : key = "NarSize"
  · rw [if_pos hnarSize] at h
    obtain ⟨n, hn, rfl⟩ := Option.map_eq_some_iff.mp h
    exact hnarSize ▸ .narSize hn
  rw [if_neg hnarSize] at h
  by_cases hreferences : key = "References"
  · rw [if_pos hreferences] at h; cases h; exact hreferences ▸ .references
  rw [if_neg hreferences] at h
  by_cases hderiver : key = "Deriver"
  · rw [if_pos hderiver] at h; cases h; exact hderiver ▸ .deriver
  rw [if_neg hderiver] at h
  by_cases hsignature : key = "Sig"
  · rw [if_pos hsignature] at h; cases h; exact hsignature ▸ .signature
  rw [if_neg hsignature] at h
  by_cases hca : key = "CA"
  · rw [if_pos hca] at h; cases h; exact hca ▸ .ca
  rw [if_neg hca] at h
  cases h
  refine .other fun hmem => ?_
  simp only [narInfoKeys, List.mem_cons, List.not_mem_nil, or_false] at hmem
  tauto

/-- All texts assigned so far. -/
def texts (f : NarInfoFields) : List String :=
  f.storePath.toList ++ f.url.toList ++ f.compression.toList ++ f.fileHash.toList ++ f.narHash.toList ++ f.references ++ f.deriver.toList ++
    f.signatures ++ f.ca.toList

theorem Assigns.texts (h : f.Assigns value key g) {s : String} (hs : s ∈ g.texts) :
    s ∈ f.texts ∨ s = value ∨ s ∈ splitWhitespace value := by
  have hvalue : some value = some s → s = value := fun heq => (Option.some.inj heq).symm
  unfold NarInfoFields.texts at hs ⊢
  cases h with
  | other h => exact .inl hs
  | _ =>
    simp only [List.mem_append, Option.mem_toList, List.mem_singleton] at hs ⊢
    tauto

/-- A key without which there is no narinfo has its value. -/
def Assigned (f : NarInfoFields) (key : String) : Prop :=
  (key = "StorePath" → f.storePath.isSome) ∧ (key = "URL" → f.url.isSome) ∧ (key = "NarHash" → f.narHash.isSome) ∧
    (key = "NarSize" → f.narSize.isSome)

theorem Assigns.assigned (h : f.Assigns value key g) : g.Assigned key ∧ ∀ key', f.Assigned key' → g.Assigned key' := by
  cases h with
  | other h =>
    simp only [narInfoKeys, List.mem_cons, not_or] at h
    exact ⟨⟨fun e => absurd e h.1, fun e => absurd e h.2.1, fun e => absurd e h.2.2.2.2.2.1, fun e => absurd e h.2.2.2.2.2.2.1⟩,
      fun _ h => h⟩
  | _ => exact ⟨by simp [Assigned], by simp +contextual [Assigned]⟩

theorem setPairs_assigned : ∀ {ps : List (String × String)} {f g : NarInfoFields}, setPairs ps f = some g →
    ∀ key, key ∈ ps.map Prod.fst ∨ f.Assigned key → g.Assigned key
  | [], f, g, h, key, hkey => by
    cases h
    exact hkey.resolve_left List.not_mem_nil
  | p :: ps, f, g, h, key, hkey => by
    obtain ⟨f', hset, hrest⟩ := Option.bind_eq_some_iff.mp h
    obtain ⟨hnew, hkept⟩ := (assigns_of_set hset).assigned
    refine setPairs_assigned hrest key ?_
    rw [List.map_cons, List.mem_cons] at hkey
    rcases hkey with (rfl | hkey) | hkey
    · exact .inr hnew
    · exact .inl hkey
    · exact .inr (hkept key hkey)

/-- Only sizes can be refused. -/
theorem set_isSome (f : NarInfoFields) (h : key = "FileSize" ∨ key = "NarSize" → (parseU64 value).isSome = true) :
    (f.set key value).isSome = true := by
  by_cases hfileSize : key = "FileSize"
  · subst hfileSize
    simpa [set] using h (.inl rfl)
  by_cases hnarSize : key = "NarSize"
  · subst hnarSize
    simpa [set] using h (.inr rfl)
  unfold set
  rw [if_neg hfileSize, if_neg hnarSize]
  repeat' split
  all_goals rfl

theorem setPairs_isSome : ∀ {ps : List (String × String)} (f : NarInfoFields),
    (∀ p ∈ ps, p.1 = "FileSize" ∨ p.1 = "NarSize" → (parseU64 p.2).isSome = true) → (setPairs ps f).isSome = true
  | [], _, _ => rfl
  | p :: ps, f, h => by
    obtain ⟨hp, hps⟩ := List.forall_mem_cons.mp h
    obtain ⟨f', hf'⟩ := Option.isSome_iff_exists.mp (set_isSome f hp)
    rw [setPairs, hf', Option.bind_some]
    exact setPairs_isSome f' hps

/-- What holds at the start and is kept by each line holds at the end. -/
theorem setLines_invariant {P : NarInfoFields → Prop} {Q : String → Prop}
    (hstep : ∀ {f g : NarInfoFields} {key value : String}, Q (key ++ ": " ++ value) → P f → f.Assigns value key g → P g) :
    ∀ {ls : List String} {f g : NarInfoFields}, (∀ l ∈ ls, Q l) → P f → setLines ls f = some g → P g
  | [], _, _, _, hf, h => by cases h; exact hf
  | l :: ls, f, g, hls, hf, h => by
    obtain ⟨hl, hls⟩ := List.forall_mem_cons.mp hls
    obtain ⟨⟨key, value⟩, hsplit, h⟩ := Option.bind_eq_some_iff.mp h
    obtain ⟨f', hset, hrest⟩ := Option.bind_eq_some_iff.mp h
    exact setLines_invariant hstep hls (hstep (eq_of_splitOnce hsplit ▸ hl) hf (assigns_of_set hset)) hrest

end NarInfoFields

/-! ## A second parse -/

/-- Values without line breaks, and numbers of 64 bits. -/
structure NarInfo.Plain (ni : NarInfo) : Prop where
  values : ∀ p ∈ ni.pairs, '\n' ∉ p.2.toList
  fileSize : ni.fileSize < 2 ^ 64
  narSize : ni.narSize < 2 ^ 64

/-- What the loop keeps true of the fields. -/
structure NarInfoFields.Plain (f : NarInfoFields) : Prop where
  texts : ∀ s ∈ f.texts, '\n' ∉ s.toList
  fileSize : ∀ n ∈ f.fileSize, n < 2 ^ 64
  narSize : ∀ n ∈ f.narSize, n < 2 ^ 64

theorem NarInfoFields.Plain.assigns {f g : NarInfoFields} {key value : String} (hline : '\n' ∉ (key ++ ": " ++ value).toList) (hf : f.Plain)
    (h : f.Assigns value key g) : g.Plain := by
  have hvalue : '\n' ∉ value.toList := fun hc => hline (by rw [String.toList_append]; exact List.mem_append_right _ hc)
  refine ⟨fun s hs => ?_, ?_, ?_⟩
  · rcases h.texts hs with hs | rfl | hs
    · exact hf.texts s hs
    · exact hvalue
    · obtain ⟨piece, hpiece, rfl⟩ := List.mem_map.mp hs
      rw [String.toList_ofList]
      exact fun hc => hvalue (mem_splitOnP (List.mem_filter.mp hpiece).1 hc).1
  · cases h with
    | fileSize hn => exact fun n h => Option.mem_some_iff.mp h ▸ parseU64_lt hn
    | _ => exact hf.fileSize
  · cases h with
    | narSize hn => exact fun n h => Option.mem_some_iff.mp h ▸ parseU64_lt hn
    | _ => exact hf.narSize

theorem newline_not_mem_basenames {references : List String} (h : ∀ r ∈ references, '\n' ∉ r.toList) : '\n' ∉ (join ' ' (basenames references)).toList := by
  rw [mem_join (by decide)]
  rintro ⟨base, hbase, hc⟩
  obtain ⟨r, hr, rfl⟩ := List.mem_map.mp hbase
  refine h r hr ?_
  rw [rsplitNext, String.toList_ofList, List.mem_reverse] at hc
  exact List.mem_reverse.mp ((List.takeWhile_prefix _).subset hc)

theorem parse_plain {text : String} {ni : NarInfo} (h : NarInfo.parse text = some ni) : ni.Plain := by
  unfold NarInfo.parse at h
  obtain ⟨f, hf, h⟩ := Option.bind_eq_some_iff.mp h
  obtain ⟨storePath, hstorePath, h⟩ := Option.bind_eq_some_iff.mp h
  obtain ⟨url, hurl, h⟩ := Option.bind_eq_some_iff.mp h
  obtain ⟨narHash, hnarHash, h⟩ := Option.bind_eq_some_iff.mp h
  obtain ⟨narSize, hnarSize, h⟩ := Option.bind_eq_some_iff.mp h
  cases h
  have hempty : NarInfoFields.none.Plain := by
    constructor
    · exact fun _ hs => absurd hs List.not_mem_nil
    · exact fun _ hn => absurd hn (Option.not_mem_none _)
    · exact fun _ hn => absurd hn (Option.not_mem_none _)
  have hplain : f.Plain := NarInfoFields.setLines_invariant (P := NarInfoFields.Plain) (Q := fun l => '\n' ∉ l.toList)
    (fun hline hf h => hf.assigns hline h) (fun l hl => newline_not_mem_lines hl) hempty hf
  have htexts {s : String} (hs : s ∈ f.texts) : '\n' ∉ s.toList := hplain.texts s hs
  unfold NarInfoFields.texts at htexts
  simp only [List.mem_append, Option.mem_toList] at htexts
  refine ⟨NarInfo.pairs_forall (P := fun _ value => '\n' ∉ value.toList) (htexts (by simp [hstorePath])) (htexts (by simp [hurl])) ?_ ?_
    (oneLine_digits _).1 (htexts (by simp [hnarHash])) (oneLine_digits _).1 (newline_not_mem_basenames fun r hr => htexts (by simp [hr]))
    (fun d hd => htexts ?_) (fun sig hsig => htexts (by simp [hsig])) (fun ca hca => htexts ?_), ?_, hplain.narSize _ hnarSize⟩
  · cases hc : f.compression with
    | none => exact (by decide : '\n' ∉ "none".toList)
    | some c => exact htexts (by simp [hc])
  · cases hc : f.fileHash with
    | none => exact (by decide : '\n' ∉ "".toList)
    | some c => exact htexts (by simp [hc])
  · simp [show f.deriver = some d from hd]
  · simp [show f.ca = some ca from hca]
  · cases hc : f.fileSize with
    | none => exact Nat.two_pow_pos 64
    | some n => exact hplain.fileSize n hc

/-- A narinfo that was parsed can be parsed again once it is printed. -/
theorem NarInfo.Plain.parse_isSome {ni : NarInfo} (h : ni.Plain) : (NarInfo.parse ni.toNarinfoString).isSome = true := by
  have hkey : ∀ p ∈ ni.pairs, p.1 ∈ narInfoKeys := by
    refine NarInfo.pairs_forall (P := fun key _ => key ∈ narInfoKeys) ?_ ?_ ?_ ?_ ?_ ?_ ?_ ?_ (fun _ _ => ?_) (fun _ _ => ?_) fun _ _ => ?_
    all_goals simp [narInfoKeys]
  have hlines : lines ni.toNarinfoString = (ni.pairs.map fun p => (p.1, chomp p.2)).map keyed := by
    rw [toNarinfoString_eq, List.map_map]
    exact lines_pairs_chomp fun p hp => ⟨(narInfoKeys_plain _ (hkey p hp)).1, h.values p hp⟩
  have hkeys : ∀ p ∈ ni.pairs.map fun p => (p.1, chomp p.2), ':' ∉ p.1.toList := fun p hp => by
    obtain ⟨q, hq, rfl⟩ := List.mem_map.mp hp
    exact (narInfoKeys_plain _ (hkey q hq)).2
  have hsizes : ∀ p ∈ ni.pairs.map fun p => (p.1, chomp p.2), p.1 = "FileSize" ∨ p.1 = "NarSize" → (parseU64 p.2).isSome = true := by
    have hdigits {n : Nat} (hn : n < 2 ^ 64) : (parseU64 (chomp (toString n))).isSome = true := by
      rw [chomp_of_oneLine (oneLine_digits n), parseU64_toString hn]
      rfl
    intro p hp
    obtain ⟨q, hq, rfl⟩ := List.mem_map.mp hp
    refine NarInfo.pairs_forall (P := fun key value => key = "FileSize" ∨ key = "NarSize" → (parseU64 (chomp value)).isSome = true)
      ?_ ?_ ?_ ?_ (fun _ => hdigits h.fileSize) ?_ (fun _ => hdigits h.narSize) ?_ (fun _ _ => ?_) (fun _ _ => ?_) (fun _ _ => ?_) q hq
    all_goals exact fun hkey => absurd hkey (by decide)
  obtain ⟨f, hf⟩ := Option.isSome_iff_exists.mp (NarInfoFields.setPairs_isSome .none hsizes)
  have hassigned (key : String) (hmem : key ∈ ni.pairs.map Prod.fst) : f.Assigned key :=
    NarInfoFields.setPairs_assigned hf key (.inl (by rwa [List.map_map]))
  obtain ⟨storePath, hstorePath⟩ := Option.isSome_iff_exists.mp ((hassigned "StorePath" (by simp [NarInfo.pairs])).1 rfl)
  obtain ⟨url, hurl⟩ := Option.isSome_iff_exists.mp ((hassigned "URL" (by simp [NarInfo.pairs])).2.1 rfl)
  obtain ⟨narHash, hnarHash⟩ := Option.isSome_iff_exists.mp ((hassigned "NarHash" (by simp [NarInfo.pairs])).2.2.1 rfl)
  obtain ⟨narSize, hnarSize⟩ := Option.isSome_iff_exists.mp ((hassigned "NarSize" (by simp [NarInfo.pairs])).2.2.2 rfl)
  unfold NarInfo.parse
  rw [hlines, NarInfoFields.setLines_keyed hkeys, hf]
  simp [hstorePath, hurl, hnarHash, hnarSize]

end Ekapkgs
