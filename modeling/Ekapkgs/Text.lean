import Mathlib

/-!
# Bytes and strings

The `str` and slice functions the sources call, on Lean's strings. A string is
taken apart through its characters, so each function is the list function it
names.
-/

namespace Ekapkgs

abbrev Bytes := List UInt8

/-- `str::as_bytes`. -/
def asBytes (s : String) : Bytes := s.toUTF8.data.toList

/-- `String::from_utf8`. -/
def fromUtf8 (b : Bytes) : Option String := String.fromUTF8? ⟨b.toArray⟩

@[simp] theorem fromUtf8_asBytes (s : String) : fromUtf8 (asBytes s) = some s := by
  have h : (⟨(s.toUTF8.data.toList).toArray⟩ : ByteArray) = s.toByteArray := by simp
  unfold fromUtf8 asBytes
  rw [h, String.fromUTF8?, dif_pos s.isValidUTF8]
  rfl

theorem asBytes_of_fromUtf8 {bytes : Bytes} {text : String} (h : fromUtf8 bytes = some text) : asBytes text = bytes := by
  unfold fromUtf8 String.fromUTF8? at h
  split at h
  · cases h
    unfold asBytes
    simp [String.fromUTF8, String.toUTF8]
  · cases h

theorem asBytes_inj {s t : String} (h : asBytes s = asBytes t) : s = t := by
  have := congrArg fromUtf8 h
  simpa using this

/-- `s.rsplit(c).next().unwrap_or(s)`: what follows the last `c`. -/
def rsplitNext (c : Char) (s : String) : String :=
  String.ofList (s.toList.reverse.takeWhile (· ≠ c)).reverse

/-- `s.split(c).next().unwrap_or(s)`: what precedes the first `c`. -/
def splitNext (c : Char) (s : String) : String := String.ofList (s.toList.takeWhile (· ≠ c))

/-- `s.split(c)`. -/
def split (c : Char) (s : String) : List String := (s.toList.splitOn c).map String.ofList

/-- `parts.join(c)`. -/
def join (c : Char) (parts : List String) : String :=
  String.ofList ([c].intercalate (parts.map String.toList))

/-- `s.split_once(sep)`. -/
def splitOnce (sep s : String) : Option (String × String) :=
  let rec go (before : List Char) : List Char → Option (String × String)
    | [] => none
    | c :: rest =>
      if sep.toList.isPrefixOf (c :: rest) then
        some (String.ofList before.reverse, String.ofList ((c :: rest).drop sep.toList.length))
      else go (c :: before) rest
  go [] s.toList

/-- `s.strip_suffix(suffix)`. -/
def stripSuffix (suffix s : String) : Option String :=
  if suffix.toList.isSuffixOf s.toList then some (String.ofList (s.toList.take (s.length - suffix.length))) else none

/-- `s.strip_prefix(p)`. -/
def stripPrefix (pre s : String) : Option String :=
  if pre.toList.isPrefixOf s.toList then some (String.ofList (s.toList.drop pre.toList.length)) else none

/-- `s.contains(sub)`. -/
def containsStr (sub s : String) : Bool := s.toList.tails.any sub.toList.isPrefixOf

/-- `s.lines()`: a line ends at `"\n"` or `"\r\n"`, and the last line may lack its end. -/
def lines (s : String) : List String :=
  let parts := s.toList.splitOn '\n'
  let ended := parts.dropLast.map fun l => if l.getLast? = some '\r' then l.dropLast else l
  (ended ++ parts.getLast?.toList.filter fun l => !l.isEmpty).map String.ofList

/-- The characters with the `White_Space` property. -/
def isWhitespace (c : Char) : Bool :=
  (9 ≤ c.val && c.val ≤ 13) || c.val = 0x20 || c.val = 0x85 || c.val = 0xa0 || c.val = 0x1680 ||
  (0x2000 ≤ c.val && c.val ≤ 0x200a) || c.val = 0x2028 || c.val = 0x2029 || c.val = 0x202f || c.val = 0x205f ||
  c.val = 0x3000

/-- `s.split_whitespace()`. -/
def splitWhitespace (s : String) : List String :=
  ((s.toList.splitOnP isWhitespace).filter fun l => !l.isEmpty).map String.ofList

/-- `s.trim()`. -/
def trim (s : String) : String := String.ofList ((s.toList.dropWhile isWhitespace).reverse.dropWhile isWhitespace).reverse

/-- `s.eq_ignore_ascii_case(t)`. -/
def eqIgnoreAsciiCase (s t : String) : Bool := s.toList.map Char.toLower = t.toList.map Char.toLower

/-- `s.parse::<u64>()`: an optional `'+'`, then digits only, at least one. -/
def parseU64 (s : String) : Option Nat :=
  let digits := match s.toList with
    | '+' :: rest => rest
    | l => l
  if digits = [] ∨ !digits.all Char.isDigit then none
  else
    let n := digits.foldl (fun n c => 10 * n + (c.toNat - '0'.toNat)) 0
    if n < 2 ^ 64 then some n else none

theorem stripSuffix_isSome {suffix s : String} (h : (stripSuffix suffix s).isSome = true) : suffix.toList <:+ s.toList := by
  unfold stripSuffix at h
  split_ifs at h with hs
  · exact List.isSuffixOf_iff_suffix.mp hs
  · cases h

theorem stripSuffix_append (s suffix : String) : stripSuffix suffix (s ++ suffix) = some s := by
  have hsuffix : suffix.toList.isSuffixOf (s ++ suffix).toList = true :=
    List.isSuffixOf_iff_suffix.mpr (by rw [String.toList_append]; exact List.suffix_append ..)
  unfold stripSuffix
  rw [if_pos hsuffix, String.length_append, Nat.add_sub_cancel, String.toList_append]
  have hlength : s.length = s.toList.length := String.length_toList.symm
  rw [hlength, List.take_left, String.ofList_toList]

theorem eq_of_stripSuffix {suffix s t : String} (h : stripSuffix suffix s = some t) : s = t ++ suffix := by
  obtain ⟨pre, hpre⟩ := stripSuffix_isSome (Option.isSome_iff_exists.mpr ⟨t, h⟩)
  have hs : s = String.ofList pre ++ suffix := by
    apply String.toList_injective
    rw [String.toList_append, String.toList_ofList, hpre]
  rw [hs, stripSuffix_append, Option.some.injEq] at h
  rw [hs, h]

theorem stripPrefix_append (pre s : String) : stripPrefix pre (pre ++ s) = some s := by
  have hprefix : pre.toList.isPrefixOf (pre ++ s).toList = true :=
    List.isPrefixOf_iff_prefix.mpr (by rw [String.toList_append]; exact List.prefix_append ..)
  unfold stripPrefix
  rw [if_pos hprefix, String.toList_append, List.drop_left, String.ofList_toList]

theorem eq_of_stripPrefix {pre s t : String} (h : stripPrefix pre s = some t) : s = pre ++ t := by
  unfold stripPrefix at h
  split_ifs at h with hpre
  obtain ⟨rest, hrest⟩ := List.isPrefixOf_iff_prefix.mp hpre
  have hs : s = pre ++ String.ofList rest := by
    apply String.toList_injective
    rw [String.toList_append, String.toList_ofList, hrest]
  rw [← Option.some.inj h, hs, String.toList_append, List.drop_left, String.toList_ofList]

theorem join_split (c : Char) (s : String) : join c (split c s) = s := by
  have : (String.toList ∘ String.ofList) = id := by funext l; simp
  simp only [join, split, List.map_map, this, List.map_id, List.intercalate_splitOn, String.ofList_toList]

theorem rsplitNext_of_not_mem {c : Char} {s : String} (h : c ∉ s.toList) : rsplitNext c s = s := by
  have : s.toList.reverse.takeWhile (· ≠ c) = s.toList.reverse :=
    List.takeWhile_eq_self_iff.mpr fun x hx => by
      simpa using fun e : x = c => h (e ▸ List.mem_reverse.mp hx)
  rw [rsplitNext, this, List.reverse_reverse, String.ofList_toList]

theorem not_mem_rsplitNext (c : Char) (s : String) : c ∉ (rsplitNext c s).toList := by
  simp only [rsplitNext, String.toList_ofList, List.mem_reverse]
  intro h
  simpa using List.mem_takeWhile_imp h

theorem rsplitNext_idem (c : Char) (s : String) : rsplitNext c (rsplitNext c s) = rsplitNext c s :=
  rsplitNext_of_not_mem (not_mem_rsplitNext c s)

theorem mem_join {c x : Char} (hx : x ≠ c) : ∀ (parts : List String), x ∈ (join c parts).toList ↔
    ∃ p ∈ parts, x ∈ p.toList
  | [] => by simp [join]
  | [p] => by simp [join]
  | p :: q :: parts => by
    have ih := mem_join hx (q :: parts)
    simp only [join, String.toList_ofList] at ih ⊢
    rw [List.map_cons, List.map_cons, List.intercalate_cons_cons, ← List.map_cons, List.mem_append,
      List.mem_append, ih]
    simp [hx]

/-- Pieces of a string hold only characters of it. -/
theorem mem_of_mem_split {c x : Char} {s p : String} (hx : x ≠ c) (hp : p ∈ split c s) (h : x ∈ p.toList) :
    x ∈ s.toList := by
  rw [← join_split c s]
  exact (mem_join hx _).mpr ⟨p, hp, h⟩

end Ekapkgs
