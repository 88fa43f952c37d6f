import Mathlib

/-!
# A fragment of TOML

Tables and arrays of tables whose values are unsigned decimal integers and basic
strings, one line each, as `toml::from_str` reads them.
-/

namespace Toml

/-! ## Basic strings -/

/-- What may not stand in a basic string as it is. -/
def isControl (c : Char) : Bool := (c.val < 0x20 && c ≠ '\t') || c.val = 0x7f

inductive Scan where
  | text
  | escape
  /-- Digits of an escape that are still to come, and the number so far. -/
  | hex (left value : Nat)

def simpleEscape (c : Char) : Option Char :=
  if c = 'b' then some (Char.ofNat 8) else if c = 't' then some '\t' else if c = 'n' then some '\n'
  else if c = 'f' then some (Char.ofNat 12) else if c = 'r' then some '\r' else if c = '"' then some '"'
  else if c = '\\' then some '\\' else none

def hexValue (c : Char) : Option Nat :=
  if '0' ≤ c ∧ c ≤ '9' then some (c.toNat - '0'.toNat)
  else if 'a' ≤ c ∧ c ≤ 'f' then some (c.toNat - 'a'.toNat + 10)
  else if 'A' ≤ c ∧ c ≤ 'F' then some (c.toNat - 'A'.toNat + 10)
  else none

def scalarOf (n : Nat) : Option Char := if n.isValidChar then some (Char.ofNat n) else none

/-- The text of a string after its opening quote, and what follows the closing one. -/
def readBasic : Scan → List Char → Option (List Char × List Char)
  | _, [] => none
  | .text, c :: cs =>
    if c = '"' then some ([], cs)
    else if c = '\\' then readBasic .escape cs
    else if isControl c then none
    else (readBasic .text cs).map fun r => (c :: r.1, r.2)
  | .escape, c :: cs =>
    match simpleEscape c with
    | some d => (readBasic .text cs).map fun r => (d :: r.1, r.2)
    | none => if c = 'u' then readBasic (.hex 4 0) cs else if c = 'U' then readBasic (.hex 8 0) cs else none
  | .hex left value, c :: cs => do
    let digit ← hexValue c
    if left ≤ 1 then do
      let d ← scalarOf (16 * value + digit)
      (readBasic .text cs).map fun r => (d :: r.1, r.2)
    else readBasic (.hex (left - 1) (16 * value + digit)) cs

/-! ## Lines -/

inductive Scalar where
  | integer (n : Nat)
  | string (s : String)
  deriving DecidableEq

def isBlank (c : Char) : Bool := c = ' ' || c = '\t'

def isBareKey (c : Char) : Bool := c.isAlphanum || c = '_' || c = '-'

def decimal (cs : List Char) : Nat := cs.foldl (fun n c => 10 * n + (c.toNat - '0'.toNat)) 0

/-- An integer is one of 64 bits with a sign. -/
def readInteger (cs : List Char) : Option Nat :=
  if cs = [] ∨ !cs.all Char.isDigit ∨ (cs.head? = some '0' ∧ cs ≠ ['0']) then none
  else if decimal cs < 2 ^ 63 then some (decimal cs) else none

def readValue (cs : List Char) : Option Scalar :=
  if cs.head? = some '"' then
    (readBasic .text cs.tail).bind fun r => if r.2.all isBlank then some (.string (String.ofList r.1)) else none
  else (readInteger (cs.reverse.dropWhile isBlank).reverse).map .integer

inductive Line where
  | blank
  | table (name : String)
  | element (name : String)
  | entry (key : String) (value : Scalar)
  deriving DecidableEq

/-- `key = value`. -/
def readEntry (cs : List Char) : Option Line :=
  let key := cs.takeWhile isBareKey
  let rest := (cs.dropWhile isBareKey).dropWhile isBlank
  if key ≠ [] ∧ rest.head? = some '=' then (readValue (rest.tail.dropWhile isBlank)).map (.entry (String.ofList key)) else none

def readHeader (cs close : List Char) : Option String :=
  let name := cs.takeWhile isBareKey
  if name ≠ [] ∧ cs.dropWhile isBareKey = close then some (String.ofList name) else none

def readLine (cs : List Char) : Option Line :=
  if cs.all isBlank then some .blank
  else if ['[', '['].isPrefixOf cs then (readHeader (cs.drop 2) [']', ']']).map .element
  else if ['['].isPrefixOf cs then (readHeader (cs.drop 1) [']']).map .table
  else readEntry cs

/-! ## Documents -/

structure Section where
  /-- One of an array of tables. -/
  isElement : Bool
  name : String
  entries : List (String × Scalar)
  deriving DecidableEq

/-- The sections so far, the last one first. A table is opened once, and a key is set once. -/
def addLine (sections : List Section) : Line → Option (List Section)
  | .blank => some sections
  | .table name => if sections.any fun s => s.name = name then none else some (⟨false, name, []⟩ :: sections)
  | .element name =>
    if sections.any fun s => s.name = name ∧ s.isElement = false then none else some (⟨true, name, []⟩ :: sections)
  | .entry key value =>
    match sections with
    | [] => none
    | s :: sections =>
      if s.entries.any fun e => e.1 = key then none else some ({ s with entries := s.entries ++ [(key, value)] } :: sections)

def readDocument (text : String) : Option (List Section) := do
  let lines ← (text.toList.splitOn '\n').mapM readLine
  let sections ← lines.foldlM addLine []
  some sections.reverse

/-! ## What is read from a written line -/

theorem span_isBareKey {key : List Char} (hkey : ∀ c ∈ key, isBareKey c = true) (rest : List Char) :
    (key ++ ' ' :: rest).takeWhile isBareKey = key ∧ (key ++ ' ' :: rest).dropWhile isBareKey = ' ' :: rest := by
  rw [List.takeWhile_append_of_pos hkey, List.dropWhile_append_of_pos hkey]
  exact ⟨by rw [List.takeWhile_cons_of_neg (by decide), List.append_nil], List.dropWhile_cons_of_neg (by decide)⟩

theorem ne_of_isBareKey {c d : Char} (hc : isBareKey c = true) (hd : isBareKey d = false) : c ≠ d := by
  rintro rfl
  rw [hc] at hd
  cases hd

theorem readLine_entry {key value : List Char} (hne : key ≠ []) (hkey : ∀ c ∈ key, isBareKey c = true)
    (hvalue : ∀ c ∈ value.head?, isBlank c = false) :
    readLine (key ++ ' ' :: '=' :: ' ' :: value) = (readValue value).map (.entry (String.ofList key)) := by
  obtain ⟨k, ks, rfl⟩ := List.exists_cons_of_ne_nil hne
  have hk : isBareKey k = true := hkey k List.mem_cons_self
  have hkblank : isBlank k = false := by
    unfold isBlank
    rw [decide_eq_false (ne_of_isBareKey hk (by decide)), decide_eq_false (ne_of_isBareKey hk (by decide))]
    rfl
  have hkbracket : ('[' == k) = false := beq_false_of_ne (ne_of_isBareKey hk (by decide)).symm
  have hrest : value.dropWhile isBlank = value := by
    cases value with
    | nil => rfl
    | cons v vs => exact List.dropWhile_cons_of_neg (by rw [hvalue v rfl]; decide)
  obtain ⟨htake, hdrop⟩ := span_isBareKey hkey ('=' :: ' ' :: value)
  unfold readLine
  rw [List.cons_append, List.all_cons, hkblank, Bool.false_and, if_neg (by decide)]
  rw [List.isPrefixOf_cons₂, List.isPrefixOf_cons₂, hkbracket, Bool.false_and, Bool.false_and, if_neg (by decide), if_neg (by decide)]
  unfold readEntry
  rw [← List.cons_append, htake, hdrop, List.dropWhile_cons_of_pos (by decide), List.dropWhile_cons_of_neg (by decide)]
  dsimp only
  rw [if_pos ⟨hne, rfl⟩, List.tail_cons, List.dropWhile_cons_of_pos (by decide), hrest]

theorem span_close {name : List Char} (hname : ∀ c ∈ name, isBareKey c = true) (close : List Char) :
    (name ++ ']' :: close).takeWhile isBareKey = name ∧ (name ++ ']' :: close).dropWhile isBareKey = ']' :: close := by
  rw [List.takeWhile_append_of_pos hname, List.dropWhile_append_of_pos hname]
  exact ⟨by rw [List.takeWhile_cons_of_neg (by decide), List.append_nil], List.dropWhile_cons_of_neg (by decide)⟩

theorem readHeader_name {name close : List Char} (hne : name ≠ []) (hname : ∀ c ∈ name, isBareKey c = true) :
    readHeader (name ++ ']' :: close) (']' :: close) = some (String.ofList name) := by
  obtain ⟨htake, hdrop⟩ := span_close hname close
  unfold readHeader
  rw [htake, hdrop]
  dsimp only
  rw [if_pos ⟨hne, rfl⟩]

theorem readLine_element {name : List Char} (hne : name ≠ []) (hname : ∀ c ∈ name, isBareKey c = true) :
    readLine ('[' :: '[' :: (name ++ [']', ']'])) = some (.element (String.ofList name)) := by
  unfold readLine
  rw [List.all_cons, if_neg (by simp [isBlank]), if_pos (by simp), List.drop_succ_cons, List.drop_succ_cons, List.drop_zero,
    readHeader_name hne hname]
  rfl

theorem readLine_table {name : List Char} (hne : name ≠ []) (hname : ∀ c ∈ name, isBareKey c = true) :
    readLine ('[' :: (name ++ [']'])) = some (.table (String.ofList name)) := by
  obtain ⟨k, ks, rfl⟩ := List.exists_cons_of_ne_nil hne
  have hk : ('[' == k) = false := beq_false_of_ne (ne_of_isBareKey (hname k List.mem_cons_self) (by decide)).symm
  unfold readLine
  rw [List.all_cons, if_neg (by simp [isBlank]), if_neg (by simp [List.isPrefixOf_cons₂, hk]), if_pos (by simp), List.drop_succ_cons,
    List.drop_zero, readHeader_name hne hname]
  rfl

theorem readLine_nil : readLine [] = some .blank := rfl

theorem head_toDigits {n : Nat} (h : 0 < n) : (Nat.toDigits 10 n).head? ≠ some '0' := by
  induction n using Nat.strong_induction_on with
  | _ n ih =>
    by_cases hn : n < 10
    · rw [Nat.toDigits_of_lt_base hn]
      have hdigit : ∀ m : Fin 10, m.val.digitChar = '0' → m.val = 0 := by decide
      intro heq
      exact absurd (hdigit ⟨n, hn⟩ (Option.some.inj heq)) (Nat.ne_of_gt h)
    · have hle : 10 ≤ n := Nat.le_of_not_lt hn
      rw [Nat.toDigits_of_base_le (by decide) hle, List.head?_append_of_ne_nil _ Nat.toDigits_ne_nil]
      exact ih (n / 10) (Nat.div_lt_self h (by decide)) (Nat.div_pos hle (by decide))

/-- A number is read back when it fits a signed integer. -/
theorem readValue_toString (n : Nat) : readValue (toString n).toList = if n < 2 ^ 63 then some (.integer n) else none := by
  have hlist : (toString n).toList = Nat.toDigits 10 n := by rw [Nat.toString_eq_repr, Nat.toList_repr]
  have hdigit : ∀ c ∈ Nat.toDigits 10 n, c.isDigit = true := fun c hc => Nat.isDigit_of_mem_toDigits (by decide) (by decide) hc
  have hdecimal : decimal (Nat.toDigits 10 n) = n := Nat.ofDigitChars_ten_toDigits
  have hquote : (Nat.toDigits 10 n).head? ≠ some '"' := by
    intro heq
    exact absurd (hdigit '"' (List.mem_of_head? heq)) (by decide)
  have hblank : (Nat.toDigits 10 n).reverse.dropWhile isBlank = (Nat.toDigits 10 n).reverse := by
    cases hreverse : (Nat.toDigits 10 n).reverse with
    | nil => rfl
    | cons c cs =>
      have hc : c.isDigit = true := hdigit c (List.mem_reverse.mp (hreverse ▸ List.mem_cons_self))
      refine List.dropWhile_cons_of_neg fun hblank => ?_
      have hspace : c = ' ' ∨ c = '\t' := by simpa [isBlank] using hblank
      rcases hspace with rfl | rfl <;> exact absurd hc (by decide)
  have hplain : ¬ (Nat.toDigits 10 n = [] ∨ !(Nat.toDigits 10 n).all Char.isDigit ∨
      ((Nat.toDigits 10 n).head? = some '0' ∧ Nat.toDigits 10 n ≠ ['0'])) := by
    rintro (hnil | hall | ⟨hzero, hne⟩)
    · exact Nat.toDigits_ne_nil hnil
    · rw [List.all_eq_true.mpr hdigit] at hall
      cases hall
    · rcases Nat.eq_zero_or_pos n with rfl | hpos
      · exact hne (Nat.toDigits_zero 10)
      · exact head_toDigits hpos hzero
  unfold readValue readInteger
  rw [hlist, if_neg hquote, hblank, List.reverse_reverse, if_neg hplain, hdecimal]
  split <;> rfl

/-- Entries with new keys are added to the last section. -/
theorem foldlM_entries {sections : List Section} : ∀ (entries : List (String × Scalar)) (s : Section),
    ((s.entries ++ entries).map Prod.fst).Nodup →
    (entries.map fun e => Line.entry e.1 e.2).foldlM addLine (s :: sections) =
      some ({ s with entries := s.entries ++ entries } :: sections)
  | [], s, _ => by simp
  | (key, value) :: entries, s, h => by
    have hnew : (s.entries.any fun e => e.1 = key) = false := by
      refine List.any_eq_false.mpr fun e he heq => ?_
      rw [List.map_append, List.nodup_append] at h
      exact h.2.2 e.1 (List.mem_map_of_mem he) key List.mem_cons_self (of_decide_eq_true heq)
    have hrest : (((s.entries ++ [(key, value)]) ++ entries).map Prod.fst).Nodup := by
      rw [List.append_assoc]
      exact h
    rw [List.map_cons, List.foldlM_cons]
    dsimp only [addLine]
    rw [hnew, if_neg (by decide), Option.bind_eq_bind, Option.bind_some, foldlM_entries entries _ hrest, List.append_assoc]
    rfl

end Toml
