import Ekapkgs.DeltaCache
import Ekapkgs.Substituter
import Ekapkgs.TornNarinfo

/-!
# The renderers of a narinfo

A client prints the narinfo of a path from the entry of a negotiation, and the
server prints the one that it holds. They are read back alike where the entry
has kept the compression and the content address.
-/

namespace Ekapkgs

/-! ## Reading a printed narinfo -/

/-- A narinfo as it is read from its own text. -/
def NarInfo.reread (ni : NarInfo) : NarInfo where
  storePath := chomp ni.storePath
  url := chomp ni.url
  compression := chomp ni.compression
  fileHash := chomp ni.fileHash
  fileSize := ni.fileSize
  narHash := chomp ni.narHash
  narSize := ni.narSize
  references := if ni.references = [] then [] else splitWhitespace (chomp (join ' ' (basenames ni.references)))
  deriver := ni.deriver.map chomp
  signatures := ni.signatures.map chomp
  ca := ni.ca.map chomp

/-- The fields behind it, before the defaults. -/
def NarInfo.rereadFields (ni : NarInfo) : NarInfoFields where
  storePath := some (chomp ni.storePath)
  url := some (chomp ni.url)
  compression := some (chomp ni.compression)
  fileHash := if ni.fileHash = "" then none else some (chomp ni.fileHash)
  fileSize := if ni.fileSize > 0 then some ni.fileSize else none
  narHash := some (chomp ni.narHash)
  narSize := some ni.narSize
  references := ni.reread.references
  deriver := ni.deriver.map chomp
  signatures := ni.signatures.map chomp
  ca := ni.ca.map chomp

theorem chomp_number (n : Nat) : chomp (toString n) = toString n := chomp_of_oneLine (oneLine_digits n)

open NarInfoFields (setPairs setPairs_append setPairs_signatures) in
theorem setPairs_chomped {ni : NarInfo} (h : ni.Plain) :
    setPairs (ni.pairs.map fun p => (p.1, chomp p.2)) .none = some ni.rereadFields := by
  have hhead : ∀ f, setPairs ([("StorePath", ni.storePath), ("URL", ni.url), ("Compression", ni.compression)].map fun p => (p.1, chomp p.2)) f =
      some { f with storePath := some (chomp ni.storePath), url := some (chomp ni.url), compression := some (chomp ni.compression) } := by
    intro f; simp [setPairs, NarInfoFields.set]
  have hfileHash : ∀ f, setPairs ((if ni.fileHash = "" then [] else [("FileHash", ni.fileHash)]).map fun p => (p.1, chomp p.2)) f =
      some { f with fileHash := if ni.fileHash = "" then f.fileHash else some (chomp ni.fileHash) } := by
    intro f; split_ifs <;> simp [setPairs, NarInfoFields.set]
  have hfileSize : ∀ f, setPairs ((if ni.fileSize > 0 then [("FileSize", toString ni.fileSize)] else []).map fun p => (p.1, chomp p.2)) f =
      some { f with fileSize := if ni.fileSize > 0 then some ni.fileSize else f.fileSize } := by
    intro f
    split_ifs <;> simp [setPairs, NarInfoFields.set, chomp_number, parseU64_toString h.fileSize, -Nat.toString_eq_repr]
  have hnar : ∀ f, setPairs ([("NarHash", ni.narHash), ("NarSize", toString ni.narSize)].map fun p => (p.1, chomp p.2)) f =
      some { f with narHash := some (chomp ni.narHash), narSize := some ni.narSize } := by
    intro f; simp [setPairs, NarInfoFields.set, chomp_number, parseU64_toString h.narSize, -Nat.toString_eq_repr]
  have hreferences : ∀ f : NarInfoFields, f.references = [] →
      setPairs ((if ni.references = [] then [] else [("References", join ' ' (basenames ni.references))]).map fun p => (p.1, chomp p.2)) f =
        some { f with references := ni.reread.references } := by
    intro f hf
    unfold NarInfo.reread
    split_ifs
    · rw [← hf]; rfl
    · simp [setPairs, NarInfoFields.set]
  have hderiver : ∀ f : NarInfoFields, f.deriver = none →
      setPairs ((ni.deriver.toList.map (Prod.mk "Deriver")).map fun p => (p.1, chomp p.2)) f = some { f with deriver := ni.deriver.map chomp } := by
    intro f hf
    cases ni.deriver with
    | none => cases f; cases hf; rfl
    | some d => simp [setPairs, NarInfoFields.set]
  have hsignatures : (ni.signatures.map (Prod.mk "Sig")).map (fun p => (p.1, chomp p.2)) = (ni.signatures.map chomp).map (Prod.mk "Sig") := by
    rw [List.map_map, List.map_map]
    rfl
  have hca : ∀ f : NarInfoFields, f.ca = none →
      setPairs ((ni.ca.toList.map (Prod.mk "CA")).map fun p => (p.1, chomp p.2)) f = some { f with ca := ni.ca.map chomp } := by
    intro f hf
    cases ni.ca with
    | none => cases f; cases hf; rfl
    | some ca => simp [setPairs, NarInfoFields.set]
  unfold NarInfo.pairs
  simp only [List.map_append, setPairs_append, hhead, hfileHash, hfileSize, hnar, Option.bind_some]
  rw [hreferences _ rfl, Option.bind_some, hderiver _ rfl, Option.bind_some, hsignatures, setPairs_signatures, Option.bind_some, hca _ rfl]
  rfl

theorem parse_text {ni : NarInfo} (h : ni.Plain) : NarInfo.parse ni.toNarinfoString = some ni.reread := by
  have hkey : ∀ p ∈ ni.pairs, p.1 ∈ narInfoKeys := by
    refine NarInfo.pairs_forall (P := fun key _ => key ∈ narInfoKeys) ?_ ?_ ?_ ?_ ?_ ?_ ?_ ?_ (fun _ _ => ?_) (fun _ _ => ?_) fun _ _ => ?_
    all_goals simp [narInfoKeys]
  have hlines : lines ni.toNarinfoString = (ni.pairs.map fun p => (p.1, chomp p.2)).map keyed := by
    rw [toNarinfoString_eq, List.map_map]
    exact lines_pairs_chomp fun p hp => ⟨(narInfoKeys_plain _ (hkey p hp)).1, h.values p hp⟩
  have hkeys : ∀ p ∈ ni.pairs.map fun p => (p.1, chomp p.2), ':' ∉ p.1.toList := fun p hp => by
    obtain ⟨q, hq, rfl⟩ := List.mem_map.mp hp
    exact (narInfoKeys_plain _ (hkey q hq)).2
  have hhash : (if ni.fileHash = "" then none else some (chomp ni.fileHash)).getD "" = chomp ni.fileHash := by
    split_ifs with hempty
    · rw [hempty]; decide
    · rfl
  have hsize : (if ni.fileSize > 0 then some ni.fileSize else none).getD 0 = ni.fileSize := by
    split_ifs with hpos
    · rfl
    · rw [Option.getD_none]; omega
  unfold NarInfo.parse
  rw [hlines, NarInfoFields.setLines_keyed hkeys, setPairs_chomped h]
  simp only [NarInfo.rereadFields, Option.bind_eq_bind, Option.bind_some, hhash, hsize, Option.getD_some]
  rfl

/-! ## The text of an entry -/

/-- The narinfo that the text of an entry is the text of. -/
def ManifestEntry.narInfo (entry : ManifestEntry) : NarInfo where
  storePath := entry.storePath
  url := entry.url
  compression := entry.compression.toString
  fileHash := entry.fileHash
  fileSize := entry.fileSize
  narHash := entry.narHash
  narSize := entry.narSize
  references := entry.references
  deriver := none
  signatures := entry.signatures
  ca := if entry.ca = "" then none else some entry.ca

theorem buildNarinfoText_eq (entry : ManifestEntry) : buildNarinfoText entry = entry.narInfo.toNarinfoString := by
  unfold buildNarinfoText NarInfo.toNarinfoString ManifestEntry.narInfo
  dsimp only
  split_ifs <;> simp

/-- What a client makes of a narinfo; it has no use for the deriver. -/
def NarInfo.interpreted (ni : NarInfo) : NarInfo := { ni with deriver := none }

variable {sign : String → String} {ni : NarInfo}

/-- The entry that the server makes of a narinfo. -/
def negotiatedEntry (sign : String → String) (ni : NarInfo) : ManifestEntry := (manifestEntry sign ni).toManifestEntry

/-- Both of the clients' texts are read as the server's own is. -/
def RenderersAgree (sign : String → String) (ni : NarInfo) : Prop :=
  (NarInfo.parse (buildNarinfoText (negotiatedEntry sign ni))).map NarInfo.interpreted =
      (NarInfo.parse (ni.signed sign).toNarinfoString).map NarInfo.interpreted ∧
    (NarInfo.parse (buildNarinfo (negotiatedEntry sign ni))).map NarInfo.interpreted =
      (NarInfo.parse (ni.signed sign).toNarinfoString).map NarInfo.interpreted

/-- What is left of a narinfo in its entry. -/
def NarInfo.negotiated (ni : NarInfo) : NarInfo :=
  { ni with compression := (compressionOf ni.compression).toString, deriver := none, ca := ni.ca.filter (· ≠ "") }

theorem negotiatedEntry_narInfo (sign : String → String) (ni : NarInfo) : (negotiatedEntry sign ni).narInfo = (ni.signed sign).negotiated := by
  have hca : (if (ni.signed sign).ca.getD "" = "" then none else some ((ni.signed sign).ca.getD "")) =
      (ni.signed sign).ca.filter (· ≠ "") := by
    cases (ni.signed sign).ca with
    | none => rfl
    | some ca => by_cases h : ca = "" <;> simp [h, Option.filter]
  unfold NarInfo.negotiated
  rw [← hca]
  rfl

theorem newline_not_mem_compression (c : Compression) : '\n' ∉ c.toString.toList := by
  cases c <;> decide

theorem NarInfo.Plain.negotiated (h : ni.Plain) : ni.negotiated.Plain := by
  refine ⟨fun p hp => ?_, h.fileSize, h.narSize⟩
  have hkept : p ∈ ni.pairs ∨ p = ("Compression", (compressionOf ni.compression).toString) := by
    unfold NarInfo.pairs NarInfo.negotiated at *
    simp only [List.mem_append, List.mem_cons, List.not_mem_nil, List.mem_map, Option.mem_toList, Option.toList_none, Option.mem_def,
      Option.filter_eq_some_iff, false_and, exists_false, or_false] at hp ⊢
    rcases hp with (((((((rfl | rfl | rfl) | hp) | hp) | hp) | hp) | hp) | ⟨ca, ⟨hca, -⟩, rfl⟩)
    case inr => exact .inl (.inr ⟨ca, hca, rfl⟩)
    all_goals simp only [*, true_or, or_true]
  rcases hkept with hp | rfl
  · exact h.values p hp
  · exact newline_not_mem_compression _

/-- The two narinfos are read alike but for the compression and the content address. -/
theorem interpreted_iff (ni : NarInfo) : ni.negotiated.reread.interpreted = ni.reread.interpreted ↔
    chomp (compressionOf ni.compression).toString = chomp ni.compression ∧ (ni.ca.filter (· ≠ "")).map chomp = ni.ca.map chomp := by
  unfold NarInfo.interpreted NarInfo.reread NarInfo.negotiated
  simp only [NarInfo.mk.injEq, true_and, and_true]

theorem chomp_compression (c : Compression) : chomp c.toString = c.toString := by
  cases c <;> decide

theorem compression_kept_iff (compression : String) : chomp (compressionOf compression).toString = chomp compression ↔
    compression = "zstd" ∨ compression = "xz" ∨ chomp compression = "none" := by
  rw [chomp_compression]
  by_cases hzstd : compression = "zstd"
  · subst hzstd; decide
  by_cases hxz : compression = "xz"
  · subst hxz; decide
  have hnone : (compressionOf compression).toString = "none" := by
    unfold compressionOf
    rw [if_neg hzstd, if_neg hxz]
    split_ifs <;> rfl
  rw [hnone]
  simp [hzstd, hxz, eq_comm]

theorem ca_kept_iff (ca : Option String) : (ca.filter (· ≠ "")).map chomp = ca.map chomp ↔ ca ≠ some "" := by
  cases ca with
  | none => simp
  | some ca => by_cases h : ca = "" <;> simp [h]

/-- What a path that comes through a negotiation needs to be read as the server
has it. -/
theorem renderers_agree_iff (sign : String → String) (ni : NarInfo) (hni : ni.Plain) (hsign : ∀ text, OneLine (sign text)) :
    RenderersAgree sign ni ↔ (ni.compression = "zstd" ∨ ni.compression = "xz" ∨ chomp ni.compression = "none") ∧ ni.ca ≠ some "" := by
  have hsigned : (ni.signed sign).Plain := hni.signed hsign
  have hkept : (ni.signed sign).compression = ni.compression ∧ (ni.signed sign).ca = ni.ca := by
    unfold NarInfo.signed
    dsimp only
    split <;> exact ⟨rfl, rfl⟩
  have htext : (NarInfo.parse (buildNarinfoText (negotiatedEntry sign ni))).map NarInfo.interpreted =
      some (ni.signed sign).negotiated.reread.interpreted := by
    rw [buildNarinfoText_eq, negotiatedEntry_narInfo, parse_text hsigned.negotiated, Option.map_some]
  unfold RenderersAgree buildNarinfo
  rw [and_self, htext, parse_text hsigned, Option.map_some, Option.some.injEq, interpreted_iff, compression_kept_iff, ca_kept_iff, hkept.1, hkept.2]

theorem renderers_agree_iff_hello : RenderersAgree (fun _ => "key:s") helloInfo :=
  (renderers_agree_iff _ helloInfo ⟨by decide, by decide, by decide⟩ fun _ => by decide).mpr ⟨.inl rfl, nofun⟩

def bzip2Info : NarInfo := { helloInfo with compression := "bzip2" }

/-- A path compressed with bzip2 is taken for one that is not compressed. -/
theorem bzip2_read_as_none : ¬ ∀ (sign : String → String) (ni : NarInfo), ni.Plain → (∀ text, OneLine (sign text)) → RenderersAgree sign ni := by
  intro h
  have hplain : bzip2Info.Plain := ⟨by decide, by decide, by decide⟩
  have hagree := (h (fun _ => "key:s") bzip2Info hplain (fun _ => by decide)).1
  have hsigned : (bzip2Info.signed fun _ => "key:s").Plain := hplain.signed fun _ => by decide
  rw [buildNarinfoText_eq, negotiatedEntry_narInfo, parse_text hsigned.negotiated, parse_text hsigned, Option.map_some, Option.map_some,
    Option.some.injEq] at hagree
  exact absurd (congrArg NarInfo.compression hagree) (by decide)

end Ekapkgs
