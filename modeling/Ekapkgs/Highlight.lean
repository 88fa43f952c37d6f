import Ekapkgs.Lib.Utf8Cut

/-!
# Search results with the match underlined

`highlight_match` in `search.rs`. A text is the list of its characters; positions
are found in the lower-cased text and used in the text itself.
-/

namespace Ekapkgs
open Utf8Cut

/-- What `str::to_lowercase` knows about characters. -/
structure CaseTables where
  lower : Char → List Char
  cased : Char → Bool
  caseIgnorable : Char → Bool

section
variable (tables : CaseTables)

def caseIgnorableThenCased (cs : List Char) : Bool := (cs.dropWhile tables.caseIgnorable).head?.any tables.cased

/-- `before` goes from the last character back. A sigma that ends a word becomes a final one. -/
def lowerFrom (before : List Char) : List Char → List Char
  | [] => []
  | c :: after =>
    (if c = 'Σ' then [if caseIgnorableThenCased tables before && !caseIgnorableThenCased tables after then 'ς' else 'σ']
      else tables.lower c) ++ lowerFrom (c :: before) after

def toLowercase (text : List Char) : List Char := lowerFrom tables [] text

inductive Piece where
  | plain (text : List Char)
  | underlined (text : List Char)
  deriving DecidableEq

/-- What a terminal shows of a piece. -/
def Piece.text : Piece → List Char
  | .plain text => text
  | .underlined text => text

/-- Nothing when a slice panics. -/
def highlightMatch (text query : List Char) : Option (List Piece) :=
  if query = [] then some [.plain text]
  else
    match find? (toLowercase tables query) (toLowercase tables text) with
    | some pos => do
      let (before, rest) ← cut? pos text
      let (matched, after) ← cut? (utf8Len query) rest
      pure [.plain before, .underlined matched, .plain after]
    | none => some [.plain text]

/-- The pieces are the text, and the underlined one is the query but for its case. -/
def Decorates (text query : List Char) : Prop :=
  ∃ pieces, highlightMatch tables text query = some pieces ∧ pieces.flatMap Piece.text = text ∧
    ∀ matched, .underlined matched ∈ pieces → toLowercase tables matched = toLowercase tables query

/-- The first match in the lower-cased text is found at the position of a match in
the text that is as long as the query. -/
def Aligned (text query : List Char) : Prop :=
  toLowercase tables query <:+: toLowercase tables text →
    ∃ before matched after, text = before ++ (matched ++ after) ∧ toLowercase tables matched = toLowercase tables query ∧
      utf8Len matched = utf8Len query ∧ FirstAt (toLowercase tables query) (toLowercase tables text) (utf8Len before)

/-- One character of the same length, and no sigma. -/
def KeepsLength (c : Char) : Prop := c ≠ 'Σ' ∧ ∃ d, tables.lower c = [d] ∧ d.utf8Size = c.utf8Size

end

variable {tables : CaseTables} {text query : List Char}

theorem highlightMatch_decorates (hquery : query ≠ []) : Decorates tables text query ↔ Aligned tables text query := by
  unfold Decorates Aligned highlightMatch
  rw [if_neg hquery]
  cases hfind : find? (toLowercase tables query) (toLowercase tables text) with
  | none =>
    refine ⟨fun _ hinfix => absurd hinfix (find?_eq_none.mp hfind), fun _ => ⟨_, rfl, ?_, ?_⟩⟩
    · rw [List.flatMap_singleton]
      rfl
    · intro matched hmem
      cases List.mem_singleton.mp hmem
  | some pos =>
    have hfirst := find?_eq_some.mp hfind
    refine ⟨fun ⟨pieces, hpieces, _, hmatched⟩ _ => ?_, fun haligned => ?_⟩
    · obtain ⟨⟨before, rest⟩, hbefore, hrest⟩ := Option.bind_eq_some_iff.mp hpieces
      obtain ⟨⟨matched, after⟩, hcut, hpure⟩ := Option.bind_eq_some_iff.mp hrest
      cases hpure
      obtain ⟨htext, hpos⟩ := cut?_eq_some.mp hbefore
      obtain ⟨htail, hlen⟩ := cut?_eq_some.mp hcut
      refine ⟨before, matched, after, by rw [htext, htail], hmatched matched (by simp), hlen, ?_⟩
      rw [hpos]
      exact hfirst
    · obtain ⟨l, r, hlower, -⟩ := hfirst.occurs
      obtain ⟨before, matched, after, htext, hsame, hlen, hfirst'⟩ := haligned ⟨l, r, by rw [hlower, List.append_assoc]⟩
      have hbefore : cut? pos text = some (before, matched ++ after) := cut?_eq_some.mpr ⟨htext, hfirst'.unique hfirst⟩
      have hmatched : cut? (utf8Len query) (matched ++ after) = some (matched, after) := cut?_eq_some.mpr ⟨rfl, hlen⟩
      refine ⟨[.plain before, .underlined matched, .plain after], ?_, ?_, ?_⟩
      · dsimp only
        rw [hbefore, Option.bind_eq_bind, Option.bind_some]
        dsimp only
        rw [hmatched]
        rfl
      · rw [htext]
        simp [Piece.text]
      · intro matched' hmem
        have heq : matched' = matched := by simpa using hmem
        rw [heq]
        exact hsame

theorem lowerFrom_keepsLength : ∀ (before text : List Char), (∀ c ∈ text, KeepsLength tables c) →
    lowerFrom tables before text = text.map fun c => (tables.lower c).headD c
  | _, [], _ => rfl
  | before, c :: text, h => by
    obtain ⟨hsigma, d, hlower, -⟩ := h c List.mem_cons_self
    rw [lowerFrom, if_neg hsigma, lowerFrom_keepsLength _ text fun c hc => h c (List.mem_cons_of_mem _ hc), hlower, List.map_cons, hlower]
    rfl

theorem utf8Len_keepsLength : ∀ text : List Char, (∀ c ∈ text, KeepsLength tables c) →
    utf8Len (text.map fun c => (tables.lower c).headD c) = utf8Len text
  | [], _ => rfl
  | c :: text, h => by
    obtain ⟨-, d, hlower, hsize⟩ := h c List.mem_cons_self
    rw [List.map_cons, utf8Len_cons, utf8Len_cons, utf8Len_keepsLength text fun c hc => h c (List.mem_cons_of_mem _ hc), hlower]
    exact congrArg (· + _) hsize

/-- Text whose characters keep their length is cut where its lower-cased form is. -/
theorem aligned_of_keepsLength (htext : ∀ c ∈ text, KeepsLength tables c) (hquery : ∀ c ∈ query, KeepsLength tables c) :
    Aligned tables text query := by
  intro hinfix
  obtain ⟨n, hn⟩ := find?_of_infix hinfix
  have hfirst := find?_eq_some.mp hn
  obtain ⟨l, r, hlower, hpos⟩ := hfirst.occurs
  have hmap := hlower
  rw [toLowercase, lowerFrom_keepsLength [] text htext] at hmap
  obtain ⟨before, rest, rfl, hbefore, hrest⟩ := List.map_eq_append_iff.mp hmap
  obtain ⟨matched, after, rfl, hmatched, -⟩ := List.map_eq_append_iff.mp hrest
  have hkeeps : ∀ c ∈ matched, KeepsLength tables c := fun c hc => htext c (by simp [hc])
  refine ⟨before, matched, after, rfl, ?_, ?_, ?_⟩
  · rw [← hmatched, toLowercase, lowerFrom_keepsLength [] matched hkeeps]
  · rw [← utf8Len_keepsLength matched hkeeps, hmatched, toLowercase, lowerFrom_keepsLength [] query hquery, utf8Len_keepsLength query hquery]
  · rw [← utf8Len_keepsLength before fun c hc => htext c (by simp [hc]), hbefore, hpos]
    exact hfirst

/-- A search result is decorated exactly if the two texts are aligned, and they are
if lower-casing changes no lengths. -/
theorem highlight_decorates (tables text query) :
    (query ≠ [] → (Decorates tables text query ↔ Aligned tables text query)) ∧
    ((∀ c ∈ text ++ query, KeepsLength tables c) → Aligned tables text query) :=
  ⟨highlightMatch_decorates, fun h => aligned_of_keepsLength (fun c hc => h c (List.mem_append_left _ hc))
    fun c hc => h c (List.mem_append_right _ hc)⟩

/-- ASCII letters and the capital i with a dot, whose small letter is two characters. -/
def dottedCases : CaseTables where
  lower c := if c = 'İ' then ['i', '\u0307'] else [c.toLower]
  cased c := c.isAlpha || c = 'İ'
  caseIgnorable c := c = '\u0307'

theorem highlight_decorates_nix : Decorates dottedCases ['N', 'i', 'x'] ['n', 'I'] := by
  obtain ⟨hiff, haligned⟩ := highlight_decorates dottedCases ['N', 'i', 'x'] ['n', 'I']
  refine (hiff (by decide)).mpr (haligned fun c hc => ?_)
  have hmem : c = 'N' ∨ c = 'i' ∨ c = 'x' ∨ c = 'n' ∨ c = 'I' := by simpa using hc
  rcases hmem with rfl | rfl | rfl | rfl | rfl <;> exact ⟨by decide, _, rfl, by decide⟩

theorem highlightMatch_dotted : highlightMatch dottedCases ['İ', 'x'] ['x'] = none := by decide

end Ekapkgs
