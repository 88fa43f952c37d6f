import Ekapkgs.NixExprs
import Ekapkgs.Lib.NixData

/-!
# Service configuration as Nix values

What the expression that `toml_table_to_nix` of `commands/home.rs` writes for a
configuration is as a value. A key of plain characters is written without quotes,
also where it is a keyword or starts with a digit, and an integer with its sign,
also where a list would need parentheses.
-/

namespace Ekapkgs
open Nix

/-! ## What is written -/

mutual

/-- The value that is meant. -/
def Setting.value? : Setting → Option Value
  | .string s => some (.string s)
  | .integer n => some (.integer n)
  | .boolean b => some (.boolean b)
  | .array items => (Setting.values? items).map .list
  | .table entries => (Setting.attrs? entries).map .attrs
  | .float _ | .datetime _ => none

def Setting.values? : List Setting → Option (List Value)
  | [] => some []
  | value :: values => value.value?.bind fun v => (Setting.values? values).map (v :: ·)

def Setting.attrs? : List (String × Setting) → Option (List (String × Value))
  | [] => some []
  | (key, value) :: entries => value.value?.bind fun v => (Setting.attrs? entries).map ((key, v) :: ·)

end

mutual

/-- Strings without carriage returns, integers of 64 bits, booleans, arrays, and tables
with distinct keys. -/
def Setting.Data : Setting → Prop
  | .string s => '\r' ∉ s.toList
  | .integer n => -2 ^ 63 ≤ n ∧ n < 2 ^ 63
  | .boolean _ => True
  | .array items => Setting.ItemsData items
  | .table entries => (entries.map Prod.fst).Nodup ∧ Setting.EntriesData entries
  | .float _ | .datetime _ => False

def Setting.ItemsData : List Setting → Prop
  | [] => True
  | value :: values => value.Data ∧ Setting.ItemsData values

def Setting.EntriesData : List (String × Setting) → Prop
  | [] => True
  | (_, value) :: entries => value.Data ∧ Setting.EntriesData entries

end

def isPlainKey (key : String) : Bool := key.toList.all fun c => c.isAlphanum || c = '_' || c = '-'

def Setting.isNegative : Setting → Bool
  | .integer n => n < 0
  | _ => false

/-- A name that is no keyword, or a text in quotes. -/
def NixKey (key : String) : Prop :=
  if isPlainKey key then key.toList.head?.any isWordStart = true ∧ key.toList ∉ keywords else '\r' ∉ key.toList

instance (key : String) : Decidable (NixKey key) := inferInstanceAs (Decidable (ite _ _ _))

mutual

/-- No key but names, no integer whose absolute value has more than 63 bits, and no
negative integer in an array. -/
def Setting.Nixable : Setting → Prop
  | .integer n => n ≠ -2 ^ 63
  | .array items => Setting.ItemsNixable items
  | .table entries => Setting.EntriesNixable entries
  | _ => True

def Setting.ItemsNixable : List Setting → Prop
  | [] => True
  | value :: values => value.isNegative = false ∧ value.Nixable ∧ Setting.ItemsNixable values

def Setting.EntriesNixable : List (String × Setting) → Prop
  | [] => True
  | (key, value) :: entries => NixKey key ∧ value.Nixable ∧ Setting.EntriesNixable entries

end

/-! ## Its lexemes -/

def keyLexemes (key : String) : List Lexeme := if isPlainKey key then plainLexemes key.toList ' ' else [.string (unreturned key.toList)]

mutual

def settingLexemes : Setting → List Lexeme
  | .string s => [.string (unreturned s.toList)]
  | .integer n => (if n < 0 then [.symbol '-'] else []) ++ [.number (Nat.toDigits 10 n.natAbs)]
  | .boolean b => [.word (toString b).toList]
  | .array items => .symbol '[' :: (itemsLexemes items ++ [.symbol ']'])
  | .table entries => .symbol '{' :: (entriesLexemes entries ++ [.symbol '}'])
  | .float _ | .datetime _ => []

def itemsLexemes : List Setting → List Lexeme
  | [] => []
  | value :: values => settingLexemes value ++ itemsLexemes values

def entriesLexemes : List (String × Setting) → List Lexeme
  | [] => []
  | (key, value) :: entries => keyLexemes key ++ .symbol '=' :: (settingLexemes value ++ .symbol ';' :: entriesLexemes entries)

end

theorem isPlain_of_isPlainKey {key : String} (h : isPlainKey key = true) : ∀ c ∈ key.toList, isPlain c = true := by
  intro c hc
  have hplain := List.all_eq_true.mp h c hc
  unfold isPlain
  rw [hplain, Bool.true_or]

theorem toList_quoteNix_escape (s : String) : (quoteNix s).toList = '"' :: (escape s.toList ++ ['"']) := by
  rw [toList_quoteNix]
  simp [quotedText, quoted, render, Segment.render]

theorem clean_quoteNix (s : String) : Clean (quoteNix s).toList [.string (unreturned s.toList)] := by
  rw [toList_quoteNix_escape]
  exact clean_string s.toList

theorem clean_key (key : String) : Clean ((escapeNixKey key).toList ++ [' ']) (keyLexemes key) := by
  unfold escapeNixKey keyLexemes
  by_cases hplain : isPlainKey key = true
  · have hall : (key.toList.all fun c => c.isAlphanum || c = '_' || c = '-') = true := hplain
    rw [if_pos hall, if_pos hplain]
    exact clean_plain (isPlain_of_isPlainKey hplain) rfl
  · have hall : ¬ (key.toList.all fun c => c.isAlphanum || c = '_' || c = '-') = true := hplain
    rw [if_neg hall, if_neg hplain]
    exact (clean_quoteNix key).append clean_space

theorem clean_delimiter {d : Char} (hd : isDelimiter d = true) : Clean [d] (beginLexeme d).2 := by
  unfold isDelimiter at hd
  rw [Bool.or_eq_true, decide_eq_true_eq, decide_eq_true_eq] at hd
  rcases hd with rfl | rfl
  · exact clean_space
  · exact clean_semicolon

theorem clean_integer (n : Int) {d : Char} (hd : isDelimiter d = true) :
    Clean ((toString n).toList ++ [d]) (settingLexemes (.integer n) ++ (beginLexeme d).2) := by
  have hnumber : ∀ m : Nat, plainLexemes (toString m).toList d = .number (Nat.toDigits 10 m) :: (beginLexeme d).2 := by
    intro m
    rw [Nat.toString_eq_repr, Nat.toList_repr]
    have hdigits : ∀ c ∈ Nat.toDigits 10 m, c.isDigit = true := fun c hc => Nat.isDigit_of_mem_toDigits (by decide) (by decide) hc
    cases hlist : Nat.toDigits 10 m with
    | nil => exact absurd hlist Nat.toDigits_ne_nil
    | cons c cs =>
      rw [hlist] at hdigits
      exact plainLexemes_number hdigits hd
  have hread := clean_plain (plain_toString n) hd
  cases n with
  | ofNat m =>
    have hlist : (toString (Int.ofNat m)).toList = (toString m).toList := rfl
    rw [hlist, hnumber m] at hread
    rw [hlist, settingLexemes, if_neg (by simp)]
    exact hread
  | negSucc m =>
    have hlist : (toString (Int.negSucc m)).toList = '-' :: (toString (m + 1)).toList := by
      have hsign : toString (Int.negSucc m) = "-" ++ toString (m + 1) := rfl
      rw [hsign, String.toList_append, toList_literal (s := "-") rfl, List.singleton_append]
    have hminus : plainLexemes ('-' :: (toString (m + 1)).toList) d = .symbol '-' :: plainLexemes (toString (m + 1)).toList d := rfl
    rw [hlist, hminus, hnumber (m + 1)] at hread
    rw [hlist, settingLexemes, if_pos (Int.negSucc_lt_zero m)]
    exact hread

theorem clean_boolean (b : Bool) {d : Char} (hd : isDelimiter d = true) :
    Clean ((toString b).toList ++ [d]) (settingLexemes (.boolean b) ++ (beginLexeme d).2) := by
  have hread := clean_plain (plain_bool b) hd
  have hword : plainLexemes (toString b).toList d = .word (toString b).toList :: (beginLexeme d).2 := by
    cases b with
    | true =>
      have htrue : (toString true).toList = ['t', 'r', 'u', 'e'] := toList_literal rfl
      have hrest : (['r', 'u', 'e'].all isWordChar) = true := by decide
      rw [htrue]
      exact plainLexemes_word rfl (List.all_eq_true.mp hrest) hd
    | false =>
      have hfalse : (toString false).toList = ['f', 'a', 'l', 's', 'e'] := toList_literal rfl
      have hrest : (['a', 'l', 's', 'e'].all isWordChar) = true := by decide
      rw [hfalse]
      exact plainLexemes_word rfl (List.all_eq_true.mp hrest) hd
  rwa [hword] at hread

/-- An attribute and the blank after it. -/
theorem clean_entry (key : String) {value : Setting}
    (h : Clean ((tomlValueToNix value).toList ++ [';']) (settingLexemes value ++ [.symbol ';'])) :
    Clean ((escapeNixKey key ++ " = " ++ tomlValueToNix value ++ ";").toList ++ [' '])
      (keyLexemes key ++ .symbol '=' :: (settingLexemes value ++ [.symbol ';'])) := by
  have htext : (escapeNixKey key ++ " = " ++ tomlValueToNix value ++ ";").toList ++ [' '] =
      ((escapeNixKey key).toList ++ [' ']) ++ (['='] ++ ([' '] ++ (((tomlValueToNix value).toList ++ [';']) ++ [' ']))) := by
    rw [String.toList_append, String.toList_append, String.toList_append, toList_literal (s := " = ") rfl, toList_literal (s := ";") rfl]
    simp
  have hread := (clean_key key).append (clean_equals.append (clean_space.append (h.append clean_space)))
  rw [List.append_nil, List.nil_append] at hread
  rw [htext]
  exact hread

mutual

theorem clean_setting : ∀ {value : Setting}, value.Data → ∀ {d : Char}, isDelimiter d = true →
    Clean ((tomlValueToNix value).toList ++ [d]) (settingLexemes value ++ (beginLexeme d).2)
  | .string s, _, _, hd => (clean_quoteNix s).append (clean_delimiter hd)
  | .integer n, _, _, hd => clean_integer n hd
  | .boolean b, _, _, hd => clean_boolean b hd
  | .array items, h, d, hd => by
    have htext : (tomlValueToNix (.array items)).toList =
        '[' :: ((' ' :: ([' '].intercalate ((tomlValuesToNix items).map String.toList) ++ [' '])) ++ [']']) := by
      rw [tomlValueToNix, String.toList_append, String.toList_append, toList_join, toList_literal (s := "[ ") rfl, toList_literal (s := " ]") rfl]
      simp
    rw [htext]
    exact (clean_list (clean_space.append (clean_items h))).append (clean_delimiter hd)
  | .table entries, h, d, hd => by
    have htext : (tomlValueToNix (.table entries)).toList =
        '{' :: ((' ' :: ([' '].intercalate ((tomlEntriesToNix entries).map String.toList) ++ [' '])) ++ ['}']) := by
      rw [tomlValueToNix, String.toList_append, String.toList_append, toList_join, toList_literal (s := "\x7b ") rfl,
        toList_literal (s := " \x7d") rfl]
      simp
    rw [htext]
    exact (clean_braces (clean_space.append (clean_entries h.2))).append (clean_delimiter hd)

theorem clean_items : ∀ {items : List Setting}, Setting.ItemsData items →
    Clean ([' '].intercalate ((tomlValuesToNix items).map String.toList) ++ [' ']) (itemsLexemes items)
  | [], _ => clean_space
  | [value], h => by
    have hvalue := clean_setting h.1 (d := ' ') rfl
    have hspace : (beginLexeme ' ').2 = [] := rfl
    rw [hspace, List.append_nil] at hvalue
    rw [tomlValuesToNix, tomlValuesToNix, itemsLexemes, itemsLexemes, List.append_nil, List.map_cons, List.map_nil, List.intercalate_singleton]
    exact hvalue
  | value :: value' :: items, h => by
    have hvalue := clean_setting h.1 (d := ' ') rfl
    have hspace : (beginLexeme ' ').2 = [] := rfl
    have hitems := clean_items h.2
    rw [hspace, List.append_nil] at hvalue
    rw [tomlValuesToNix, List.map_cons] at hitems
    rw [tomlValuesToNix, tomlValuesToNix, itemsLexemes, List.map_cons, List.map_cons, List.intercalate_cons_cons, List.append_assoc,
      List.append_assoc, ← List.append_assoc _ [' '] _]
    exact hvalue.append hitems

theorem clean_entries : ∀ {entries : List (String × Setting)}, Setting.EntriesData entries →
    Clean ([' '].intercalate ((tomlEntriesToNix entries).map String.toList) ++ [' ']) (entriesLexemes entries)
  | [], _ => clean_space
  | [(key, value)], h => by
    have hsemi : (beginLexeme ';').2 = [.symbol ';'] := rfl
    have hvalue := clean_setting h.1 (d := ';') rfl
    rw [hsemi] at hvalue
    rw [tomlEntriesToNix, tomlEntriesToNix, entriesLexemes, entriesLexemes, List.map_cons, List.map_nil, List.intercalate_singleton]
    exact clean_entry key hvalue
  | (key, value) :: (key', value') :: entries, h => by
    have hsemi : (beginLexeme ';').2 = [.symbol ';'] := rfl
    have hvalue := clean_setting h.1 (d := ';') rfl
    rw [hsemi] at hvalue
    have hentries := clean_entries h.2
    rw [tomlEntriesToNix, List.map_cons] at hentries
    have hall := (clean_entry key hvalue).append hentries
    rw [tomlEntriesToNix, tomlEntriesToNix, entriesLexemes, List.map_cons, List.map_cons, List.intercalate_cons_cons]
    simp only [List.append_assoc, List.cons_append, List.nil_append] at hall ⊢
    exact hall

end

/-! ## How it is parsed -/

/-- The attribute that a key is read as. -/
def keyAttr (key : String) : Option (List Char) :=
  if isPlainKey key then
    if key.toList.head?.any isWordStart then attrName (.word key.toList) else none
  else some (unreturned key.toList)

mutual

def Setting.expr : Setting → Option Expr
  | .string s => some (.string (unreturned s.toList))
  | .integer n => if n.natAbs < 2 ^ 63 then some (if n < 0 then .negation (.integer n.natAbs) else .integer n.natAbs) else none
  | .boolean b => some (.name (toString b).toList)
  | .array items => (Setting.itemExprs items).map .list
  | .table entries => (Setting.bindExprs entries).map .set
  | .float _ | .datetime _ => none

def Setting.itemExprs : List Setting → Option (List Expr)
  | [] => some []
  | value :: values => if value.isNegative then none else value.expr.bind fun e => (Setting.itemExprs values).map (e :: ·)

def Setting.bindExprs : List (String × Setting) → Option (List (List Char × Expr))
  | [] => some []
  | (key, value) :: entries => (keyAttr key).bind fun attr => value.expr.bind fun e => (Setting.bindExprs entries).map ((attr, e) :: ·)

end

/-- An expression may start there, and not be negated or left out. -/
def Starts (f : Frame) : Prop := ∀ (outer : List Frame) (t : Lexeme), t ≠ .symbol '-' → t ≠ .symbol ']' → parseStep (f :: outer) t = start t (f :: outer)

theorem starts_operand (signs : Nat) : Starts (.operand signs) := by
  intro outer t hminus _
  rw [parseStep, if_neg hminus]

theorem starts_items (items : List Expr) : Starts (.items items) := by
  intro outer t _ hclose
  rw [parseStep, if_neg hclose]

theorem parse_simple {f : Frame} (hf : Starts f) {t : Lexeme} (ht : ∀ c, t ≠ .symbol c) (outer : List Frame) :
    [t].foldlM parseStep (f :: outer) = (simple t).bind fun e => complete e (f :: outer) := by
  rw [List.foldlM_cons, hf outer t (ht _) (ht _), start, if_neg (ht _), if_neg (ht _)]
  cases (simple t).bind fun e => complete e (f :: outer) <;> rfl

theorem foldlM_step {t : Lexeme} {ts : List Lexeme} {fs fs' : List Frame} (h : parseStep fs t = some fs') :
    (t :: ts).foldlM parseStep fs = ts.foldlM parseStep fs' := by
  rw [List.foldlM_cons, h]
  rfl

theorem foldlM_stuck {t : Lexeme} {fs : List Frame} (h : parseStep fs t = none) (ts : List Lexeme) : (t :: ts).foldlM parseStep fs = none := by
  rw [List.foldlM_cons, h]
  rfl

/-- Plain characters that are no name start with a lexeme that is no attribute. -/
theorem plainLexemes_cases {cs : List Char} (h : (cs.all fun c => c.isAlphanum || c = '_' || c = '-') = true) :
    (cs.head?.any isWordStart = true ∧ plainLexemes cs ' ' = [.word cs]) ∨
    (cs.head?.any isWordStart = false ∧ (plainLexemes cs ' ' = [] ∨ ∃ t ts, plainLexemes cs ' ' = t :: ts ∧ t ≠ .symbol '\x7d' ∧ attrName t = none)) := by
  cases cs with
  | nil => exact .inr ⟨rfl, .inl rfl⟩
  | cons c cs =>
    rw [List.all_cons, Bool.and_eq_true] at h
    obtain ⟨hc, hcs⟩ := h
    by_cases hstart : isWordStart c = true
    · refine .inl ⟨hstart, plainLexemes_word hstart (fun d hd => ?_) rfl⟩
      have hplain := List.all_eq_true.mp hcs d hd
      unfold isWordChar
      rw [hplain, Bool.true_or]
    · rw [Bool.not_eq_true] at hstart
      refine .inr ⟨hstart, .inr ?_⟩
      by_cases hdigit : c.isDigit = true
      · obtain ⟨digits, ts, hread⟩ := lexRun_number_head ' ' rfl cs [c]
        refine ⟨.number digits, ts, ?_, nofun, rfl⟩
        rw [plainLexemes, List.cons_append, List.map_cons, lexRun, lexStep, beginLexeme, hstart, if_neg Bool.false_ne_true, if_pos hdigit]
        exact hread
      · have hminus : c = '-' := by
          unfold isWordStart at hstart
          unfold Char.isAlphanum at hc
          simp only [Bool.or_eq_true, decide_eq_true_eq, Bool.or_eq_false_iff, decide_eq_false_iff_not] at hc hstart
          rcases hc with ((halpha | hdigit') | hunder) | hminus
          · rw [hstart.1] at halpha
            cases halpha
          · exact absurd hdigit' hdigit
          · exact absurd hunder hstart.2
          · exact hminus
        subst hminus
        exact ⟨.symbol '-', _, rfl, by decide, rfl⟩

/-- At a key, the lexemes of one that is not read as an attribute lead nowhere. -/
theorem parse_key (key : String) (binds : List (List Char × Expr)) (outer : List Frame) (ts : List Lexeme) :
    (keyLexemes key ++ .symbol '=' :: ts).foldlM parseStep (.binds binds :: outer) =
      (keyAttr key).bind fun attr => ts.foldlM parseStep (.operand 0 :: .equals attr :: .binds binds :: outer) := by
  have hequals : ∀ attr, (.symbol '=' :: ts).foldlM parseStep (.equals attr :: .binds binds :: outer) =
      ts.foldlM parseStep (.operand 0 :: .equals attr :: .binds binds :: outer) := fun attr => foldlM_step (by rw [parseStep, if_pos rfl])
  have hattr : ∀ {t : Lexeme} {attr : List Char}, t ≠ .symbol '\x7d' → attrName t = some attr →
      parseStep (.binds binds :: outer) t = some (.equals attr :: .binds binds :: outer) := by
    intro t attr ht hname
    rw [parseStep, if_neg ht, hname]
    rfl
  have hstuck : ∀ {t : Lexeme}, t ≠ .symbol '\x7d' → attrName t = none → parseStep (.binds binds :: outer) t = none := by
    intro t ht hname
    rw [parseStep, if_neg ht, hname]
    rfl
  unfold keyLexemes keyAttr
  by_cases hplain : isPlainKey key = true
  · rw [if_pos hplain, if_pos hplain]
    rcases plainLexemes_cases hplain with ⟨hhead, hread⟩ | ⟨hhead, hread⟩
    · rw [hhead, hread, List.cons_append, List.nil_append]
      rw [if_pos rfl]
      cases hname : attrName (.word key.toList) with
      | none => exact foldlM_stuck (hstuck (t := .word key.toList) nofun hname) _
      | some attr => exact (foldlM_step (hattr (t := .word key.toList) nofun hname)).trans (hequals _)
    · rw [hhead, if_neg Bool.false_ne_true]
      rcases hread with hread | ⟨t, rest, hread, hclose, hname⟩
      · rw [hread]
        exact foldlM_stuck (hstuck (by decide) rfl) _
      · rw [hread]
        exact foldlM_stuck (hstuck hclose hname) _
  · have hstring := hattr (t := .string (unreturned key.toList)) nofun rfl
    rw [if_neg hplain, if_neg hplain]
    exact (foldlM_step hstring).trans (hequals _)

theorem simple_number (m : Nat) : simple (.number (Nat.toDigits 10 m)) = if m < 2 ^ 63 then some (.integer m) else none := by
  rw [simple, Nat.ofDigitChars_ten_toDigits]

theorem simple_boolean (b : Bool) : simple (.word (toString b).toList) = some (.name (toString b).toList) := by
  have hname : ∀ b : Bool, ¬ ((toString b).toList ∈ keywords ∨ (toString b).toList = ['o', 'r']) := by decide
  rw [simple, if_neg (hname b)]

theorem bind_complete_operand (o : Option Expr) (outer : List Frame) :
    (o.bind fun e => complete e (.operand 0 :: outer)) = o.map fun e => .operator e :: outer := by
  cases o <;> rfl

theorem bind_complete_items (o : Option Expr) (es : List Expr) (outer : List Frame) :
    (o.bind fun e => complete e (.items es :: outer)) = o.map fun e => .items (es ++ [e]) :: outer := by
  cases o <;> rfl

mutual

theorem parse_setting : ∀ {value : Setting}, value.Data → value.isNegative = false → ∀ {f : Frame}, Starts f → ∀ outer,
    (settingLexemes value).foldlM parseStep (f :: outer) = value.expr.bind fun e => complete e (f :: outer)
  | .string s, _, _, f, hf, outer => parse_simple hf (fun _ h => by cases h) outer
  | .integer n, _, hn, f, hf, outer => by
    have hpos : ¬ n < 0 := of_decide_eq_false hn
    rw [settingLexemes, if_neg hpos, List.nil_append, parse_simple hf (fun _ h => by cases h), simple_number, Setting.expr, if_neg hpos]
  | .boolean b, _, _, f, hf, outer => by
    rw [settingLexemes, parse_simple hf (fun _ h => by cases h), simple_boolean, Setting.expr]
  | .array items, h, _, f, hf, outer => by
    have hopen : parseStep (f :: outer) (.symbol '[') = some (.items [] :: f :: outer) := by
      rw [hf _ _ (by decide) (by decide)]
      rfl
    rw [settingLexemes, foldlM_step hopen, List.foldlM_append, parse_items h, Setting.expr]
    cases Setting.itemExprs items with
    | none => rfl
    | some es =>
      have hclose : parseStep (.items es :: f :: outer) (.symbol ']') = complete (.list es) (f :: outer) := by
        rw [parseStep, if_pos rfl]
      simp only [Option.map_some, Option.bind_some, List.nil_append, bind, List.foldlM_cons, List.foldlM_nil, hclose]
      cases complete (.list es) (f :: outer) <;> rfl
  | .table entries, h, _, f, hf, outer => by
    have hopen : parseStep (f :: outer) (.symbol '\x7b') = some (.binds [] :: f :: outer) := by
      rw [hf _ _ (by decide) (by decide)]
      rfl
    rw [settingLexemes, foldlM_step hopen, List.foldlM_append, parse_entries h.2, Setting.expr]
    cases Setting.bindExprs entries with
    | none => rfl
    | some binds =>
      have hclose : parseStep (.binds binds :: f :: outer) (.symbol '\x7d') = complete (.set binds) (f :: outer) := by
        rw [parseStep, if_pos rfl]
      simp only [Option.map_some, Option.bind_some, List.nil_append, bind, List.foldlM_cons, List.foldlM_nil, hclose]
      cases complete (.set binds) (f :: outer) <;> rfl

theorem parse_items : ∀ {items : List Setting}, Setting.ItemsData items → ∀ (es : List Expr) (outer : List Frame),
    (itemsLexemes items).foldlM parseStep (.items es :: outer) = (Setting.itemExprs items).map fun es' => .items (es ++ es') :: outer
  | [], _, es, outer => by
    rw [itemsLexemes, Setting.itemExprs, Option.map_some, List.append_nil]
    rfl
  | value :: values, h, es, outer => by
    rw [itemsLexemes, Setting.itemExprs]
    cases hn : value.isNegative with
    | true =>
      have hminus : ∃ ts, settingLexemes value = .symbol '-' :: ts := by
        cases value with
        | integer n =>
          rw [settingLexemes, if_pos (of_decide_eq_true hn)]
          exact ⟨_, rfl⟩
        | _ => cases hn
      obtain ⟨ts, hts⟩ := hminus
      rw [hts, List.cons_append]
      exact foldlM_stuck rfl _
    | false =>
      rw [List.foldlM_append, parse_setting h.1 hn (starts_items es), bind_complete_items, if_neg Bool.false_ne_true]
      cases value.expr with
      | none => rfl
      | some e =>
        simp only [Option.map_some, Option.bind_some, bind, parse_items h.2]
        cases Setting.itemExprs values with
        | none => rfl
        | some es' => simp

theorem parse_entries : ∀ {entries : List (String × Setting)}, Setting.EntriesData entries → ∀ (binds : List (List Char × Expr)) (outer : List Frame),
    (entriesLexemes entries).foldlM parseStep (.binds binds :: outer) =
      (Setting.bindExprs entries).map fun binds' => .binds (binds ++ binds') :: outer
  | [], _, binds, outer => by
    rw [entriesLexemes, Setting.bindExprs, Option.map_some, List.append_nil]
    rfl
  | (key, value) :: entries, h, binds, outer => by
    rw [entriesLexemes, parse_key, Setting.bindExprs]
    cases keyAttr key with
    | none => rfl
    | some attr =>
      have hvalue : (settingLexemes value).foldlM parseStep (.operand 0 :: .equals attr :: .binds binds :: outer) =
          value.expr.map fun e => .operator e :: .equals attr :: .binds binds :: outer := by
        cases hn : value.isNegative with
        | false => rw [parse_setting h.1 hn (starts_operand 0), bind_complete_operand]
        | true =>
          cases value with
          | integer n =>
            have hneg : n < 0 := of_decide_eq_true hn
            have hminus : parseStep (.operand 0 :: .equals attr :: .binds binds :: outer) (.symbol '-') =
                some (.operand 1 :: .equals attr :: .binds binds :: outer) := by rw [parseStep, if_pos rfl]
            rw [settingLexemes, if_pos hneg, List.singleton_append, foldlM_step hminus, parse_simple (starts_operand 1) (fun _ h => by cases h),
              simple_number, Setting.expr, if_pos hneg]
            split_ifs <;> rfl
          | _ => cases hn
      rw [Option.bind_some, Option.bind_some, List.foldlM_append, hvalue]
      cases value.expr with
      | none => rfl
      | some e =>
        have hsemi : parseStep (.operator e :: .equals attr :: .binds binds :: outer) (.symbol ';') = some (.binds (binds ++ [(attr, e)]) :: outer) := by
          rw [parseStep, if_pos rfl]
        simp only [Option.map_some, Option.bind_some, bind, foldlM_step hsemi, parse_entries h.2]
        cases Setting.bindExprs entries with
        | none => rfl
        | some binds' => simp

end

/-! ## What it evaluates to -/

theorem keyAttr_eq_some (key : String) : keyAttr key = some key.toList ↔ NixKey key := by
  unfold keyAttr NixKey
  by_cases hplain : isPlainKey key = true
  · rw [if_pos hplain, if_pos hplain]
    by_cases hstart : key.toList.head?.any isWordStart = true
    · rw [if_pos hstart, attrName]
      split_ifs with hkeyword
      · exact iff_of_false nofun fun h => h.2 hkeyword
      · exact iff_of_true rfl ⟨hstart, hkeyword⟩
    · rw [if_neg hstart]
      exact iff_of_false nofun fun h => hstart h.1
  · rw [if_neg hplain, if_neg hplain, Option.some.injEq]
    exact unreturned_eq_self

theorem evalItems_cons {o : Option Expr} {os : Option (List Expr)} {v : Value} {vs : List Value} :
    (o.bind fun e => os.map (e :: ·)).bind evalItems = some (v :: vs) ↔ o.bind eval = some v ∧ os.bind evalItems = some vs := by
  cases o with
  | none => exact iff_of_false nofun fun h => by cases h.1
  | some e =>
    cases os with
    | none => exact iff_of_false nofun fun h => by cases h.2
    | some es =>
      simp only [Option.bind_some, Option.map_some, evalItems]
      cases eval e with
      | none => exact iff_of_false nofun fun h => by cases h.1
      | some v' =>
        cases evalItems es with
        | none => exact iff_of_false nofun fun h => by cases h.2
        | some vs' => simp

theorem evalBinds_cons {key : String} {o : Option Expr} {os : Option (List (List Char × Expr))} {v : Value} {vs : List (String × Value)} :
    ((keyAttr key).bind fun attr => o.bind fun e => os.map ((attr, e) :: ·)).bind evalBinds = some ((key, v) :: vs) ↔
      NixKey key ∧ o.bind eval = some v ∧ os.bind evalBinds = some vs := by
  rw [← keyAttr_eq_some]
  cases keyAttr key with
  | none => exact iff_of_false nofun fun h => by cases h.1
  | some attr =>
    have hname : String.ofList attr = key ↔ attr = key.toList := by
      constructor
      · rintro rfl
        exact (String.toList_ofList ..).symm
      · rintro rfl
        exact String.ofList_toList ..
    cases o with
    | none => exact iff_of_false nofun fun h => by cases h.2.1
    | some e =>
      cases os with
      | none => exact iff_of_false nofun fun h => by cases h.2.2
      | some binds =>
        simp only [Option.bind_some, Option.map_some, evalBinds]
        cases eval e with
        | none => exact iff_of_false nofun fun h => by cases h.2.1
        | some v' =>
          cases evalBinds binds with
          | none => exact iff_of_false nofun fun h => by cases h.2.2
          | some vs' => simp [hname, and_assoc]

theorem keys_attrs? : ∀ {entries : List (String × Setting)} {vs : List (String × Value)}, Setting.attrs? entries = some vs →
    vs.map Prod.fst = entries.map Prod.fst
  | [], _, h => by cases h; rfl
  | (key, value) :: entries, vs, h => by
    rw [Setting.attrs?] at h
    obtain ⟨v, -, h⟩ := Option.bind_eq_some_iff.mp h
    obtain ⟨vs', hvs', rfl⟩ := Option.map_eq_some_iff.mp h
    rw [List.map_cons, List.map_cons, keys_attrs? hvs']

theorem eval_set {o : Option (List (List Char × Expr))} {vs : List (String × Value)} (hkeys : (vs.map Prod.fst).Nodup) :
    (o.map .set).bind eval = some (.attrs vs) ↔ o.bind evalBinds = some vs := by
  cases o with
  | none => exact iff_of_false nofun nofun
  | some binds =>
    rw [Option.map_some, Option.bind_some, Option.bind_some, eval]
    cases evalBinds binds with
    | none => exact iff_of_false nofun nofun
    | some vs' =>
      rw [Option.bind_some]
      constructor
      · intro h
        split_ifs at h
        cases h
        rfl
      · intro h
        cases h
        rw [if_pos hkeys]

mutual

theorem eval_setting : ∀ {value : Setting} {v : Value}, value.Data → value.value? = some v → (value.expr.bind eval = some v ↔ value.Nixable)
  | .string s, v, h, hv => by
    cases hv
    refine iff_of_true ?_ trivial
    rw [Setting.expr, Option.bind_some, eval, unreturned_eq_self.mpr h, String.ofList_toList]
  | .integer n, v, h, hv => by
    cases hv
    obtain ⟨hlow, hhigh⟩ := h
    rw [Setting.expr, Setting.Nixable]
    by_cases hsmall : n.natAbs < 2 ^ 63
    · refine iff_of_true ?_ (by omega)
      rw [if_pos hsmall, Option.bind_some]
      split_ifs with hneg
      · have habs : -(n.natAbs : Int) = n := by omega
        rw [eval, eval]
        simp only [habs]
      · have habs : (n.natAbs : Int) = n := by omega
        rw [eval, habs]
    · rw [if_neg hsmall]
      exact iff_of_false nofun (by omega)
  | .boolean b, v, _, hv => by
    cases hv
    refine iff_of_true ?_ trivial
    rw [Setting.expr, Option.bind_some, eval]
    cases b with
    | true =>
      have htrue : (toString true).toList = ['t', 'r', 'u', 'e'] := toList_literal rfl
      rw [htrue]
      rfl
    | false =>
      have hfalse : (toString false).toList = ['f', 'a', 'l', 's', 'e'] := toList_literal rfl
      rw [hfalse]
      rfl
  | .array items, v, h, hv => by
    rw [Setting.value?] at hv
    obtain ⟨vs, hvs, rfl⟩ := Option.map_eq_some_iff.mp hv
    rw [Setting.expr, Setting.Nixable, ← eval_items h hvs]
    cases Setting.itemExprs items with
    | none => exact iff_of_false nofun nofun
    | some es =>
      rw [Option.map_some, Option.bind_some, Option.bind_some, eval]
      cases evalItems es <;> simp
  | .table entries, v, h, hv => by
    rw [Setting.value?] at hv
    obtain ⟨vs, hvs, rfl⟩ := Option.map_eq_some_iff.mp hv
    rw [Setting.expr, Setting.Nixable, ← eval_entries h.2 hvs]
    exact eval_set (by rw [keys_attrs? hvs]; exact h.1)

theorem eval_items : ∀ {items : List Setting} {vs : List Value}, Setting.ItemsData items → Setting.values? items = some vs →
    ((Setting.itemExprs items).bind evalItems = some vs ↔ Setting.ItemsNixable items)
  | [], vs, _, hvs => by
    cases hvs
    exact iff_of_true rfl trivial
  | value :: values, vs, h, hvs => by
    rw [Setting.values?] at hvs
    obtain ⟨v, hv, hvs⟩ := Option.bind_eq_some_iff.mp hvs
    obtain ⟨vs', hvs', rfl⟩ := Option.map_eq_some_iff.mp hvs
    rw [Setting.itemExprs, Setting.ItemsNixable, ← eval_setting h.1 hv, ← eval_items h.2 hvs']
    cases value.isNegative with
    | true => exact iff_of_false nofun nofun
    | false =>
      rw [if_neg Bool.false_ne_true, evalItems_cons]
      simp

theorem eval_entries : ∀ {entries : List (String × Setting)} {vs : List (String × Value)}, Setting.EntriesData entries →
    Setting.attrs? entries = some vs → ((Setting.bindExprs entries).bind evalBinds = some vs ↔ Setting.EntriesNixable entries)
  | [], vs, _, hvs => by
    cases hvs
    exact iff_of_true rfl trivial
  | (key, value) :: entries, vs, h, hvs => by
    rw [Setting.attrs?] at hvs
    obtain ⟨v, hv, hvs⟩ := Option.bind_eq_some_iff.mp hvs
    obtain ⟨vs', hvs', rfl⟩ := Option.map_eq_some_iff.mp hvs
    rw [Setting.bindExprs, Setting.EntriesNixable, ← eval_setting h.1 hv, ← eval_entries h.2 hvs']
    exact evalBinds_cons

end

/-! ## Configurations -/

mutual

theorem value?_isSome : ∀ {value : Setting}, value.Data → ∃ v, value.value? = some v
  | .string s, _ => ⟨_, rfl⟩
  | .integer n, _ => ⟨_, rfl⟩
  | .boolean b, _ => ⟨_, rfl⟩
  | .array items, h => by
    obtain ⟨vs, hvs⟩ := values?_isSome h
    exact ⟨.list vs, by rw [Setting.value?, hvs]; rfl⟩
  | .table entries, h => by
    obtain ⟨vs, hvs⟩ := attrs?_isSome h.2
    exact ⟨.attrs vs, by rw [Setting.value?, hvs]; rfl⟩

theorem values?_isSome : ∀ {items : List Setting}, Setting.ItemsData items → ∃ vs, Setting.values? items = some vs
  | [], _ => ⟨[], rfl⟩
  | value :: values, h => by
    obtain ⟨v, hv⟩ := value?_isSome h.1
    obtain ⟨vs, hvs⟩ := values?_isSome h.2
    exact ⟨v :: vs, by rw [Setting.values?, hv, hvs]; rfl⟩

theorem attrs?_isSome : ∀ {entries : List (String × Setting)}, Setting.EntriesData entries → ∃ vs, Setting.attrs? entries = some vs
  | [], _ => ⟨[], rfl⟩
  | (key, value) :: entries, h => by
    obtain ⟨v, hv⟩ := value?_isSome h.1
    obtain ⟨vs, hvs⟩ := attrs?_isSome h.2
    exact ⟨(key, v) :: vs, by rw [Setting.attrs?, hv, hvs]; rfl⟩

end

theorem lexemes_of_clean {cs : List Char} {ts : List Lexeme} (h : Clean cs ts) : lexemes cs = ts := by
  obtain ⟨es, hrun, hlex⟩ := h []
  unfold lexemes Lexer.start
  rw [hrun, hlex]
  exact List.append_nil _

/-- A configuration with definitions before it, in braces. -/
theorem parse_braces {before : List Char} {ts : List Lexeme} {binds : List (List Char × Expr)} (hclean : Clean before ts)
    (hparse : ∀ outer, ts.foldlM parseStep (.binds [] :: outer) = some (.binds binds :: outer)) {entries : List (String × Setting)}
    (h : Setting.EntriesData entries) {text : String}
    (htext : text.toList = '{' :: ((before ++ ([' '].intercalate ((tomlEntriesToNix entries).map String.toList) ++ [' '])) ++ ['}'])) :
    parse text = (Setting.bindExprs entries).map fun binds' => .set (binds ++ binds') := by
  have hlexemes := lexemes_of_clean (clean_braces (hclean.append (clean_entries h)))
  have hopen : parseStep [.operand 0] (.symbol '\x7b') = some [.binds [], .operand 0] := rfl
  rw [parse, htext, hlexemes, parseLexemes, foldlM_step hopen, List.foldlM_append, List.foldlM_append, hparse]
  simp only [bind, Option.bind_some, parse_entries h]
  cases Setting.bindExprs entries with
  | none => rfl
  | some binds' => rfl

/-- The expression for a configuration. -/
def bracedConfig (config : List (String × Setting)) : String := "\x7b " ++ tomlTableToNix config ++ " \x7d"

/-- The value of a service in `build_services_nix_expr`. -/
def enabledConfig (config : List (String × Setting)) : String := "\x7b enable = true; " ++ tomlTableToNix config ++ " \x7d"

theorem definition_enabledConfig (entry : ServiceEntry) :
    entry.definition = "    " ++ quoteNix entry.name ++ " = " ++ enabledConfig entry.config ++ ";" := by
  have hopen : " = \x7b enable = true; " = " = " ++ "\x7b enable = true; " := by decide
  have hclose : " \x7d;" = " \x7d" ++ ";" := by decide
  unfold ServiceEntry.definition enabledConfig
  rw [hopen, hclose]
  simp only [String.append_assoc]

/-- The configuration is read back as a value, and is a set of attributes after `enable = true;` as well. -/
structure SurvivesNix (config : List (String × Setting)) : Prop where
  value : ∃ vs, Setting.attrs? config = some vs ∧ evaluate (bracedConfig config) = some (.attrs vs)
  enabled : ∃ vs, evaluate (enabledConfig config) = some (.attrs vs)

variable {config : List (String × Setting)}

theorem parse_bracedConfig (h : Setting.EntriesData config) : parse (bracedConfig config) = (Setting.bindExprs config).map .set := by
  have hparse : ∀ outer, ([] : List Lexeme).foldlM parseStep (.binds [] :: outer) = some (.binds [] :: outer) := fun _ => rfl
  refine parse_braces clean_space hparse h ?_
  rw [bracedConfig, tomlTableToNix, String.toList_append, String.toList_append, toList_join, toList_literal (s := "\x7b ") rfl,
    toList_literal (s := " \x7d") rfl]
  simp

/-- `enable = true;` -/
def enableBind : List Char × Expr := (['e', 'n', 'a', 'b', 'l', 'e'], .name ['t', 'r', 'u', 'e'])

theorem enable_text : (tomlEntriesToNix [("enable", .boolean true)]).map String.toList =
    [['e', 'n', 'a', 'b', 'l', 'e', ' ', '=', ' ', 't', 'r', 'u', 'e', ';']] := by decide

theorem enable_expr : Setting.bindExprs [("enable", .boolean true)] = some [enableBind] := rfl

theorem toList_enabled (s : String) : ("\x7b enable = true; " ++ s ++ " \x7d").toList =
    ['{', ' ', 'e', 'n', 'a', 'b', 'l', 'e', ' ', '=', ' ', 't', 'r', 'u', 'e', ';', ' '] ++ s.toList ++ [' ', '}'] := by
  rw [String.toList_append, String.toList_append, toList_literal (s := "\x7b enable = true; ") rfl, toList_literal (s := " \x7d") rfl]

theorem parse_enabledConfig (h : Setting.EntriesData config) :
    parse (enabledConfig config) = (Setting.bindExprs config).map fun binds => .set (enableBind :: binds) := by
  have hdata : Setting.EntriesData [("enable", .boolean true)] := ⟨trivial, trivial⟩
  have hparse : ∀ outer, (entriesLexemes [("enable", .boolean true)]).foldlM parseStep (.binds [] :: outer) = some (.binds [enableBind] :: outer) := by
    intro outer
    rw [parse_entries hdata, enable_expr]
    rfl
  have hclean := clean_space.append (clean_entries hdata)
  rw [enable_text, List.intercalate_singleton] at hclean
  refine parse_braces hclean hparse h ?_
  unfold enabledConfig
  rw [toList_enabled, tomlTableToNix, toList_join]
  simp only [List.append_assoc, List.cons_append, List.nil_append]

theorem evaluate_bracedConfig (h : (Setting.table config).Data) {vs : List (String × Value)} (hvs : Setting.attrs? config = some vs) :
    evaluate (bracedConfig config) = some (.attrs vs) ↔ Setting.EntriesNixable config := by
  rw [evaluate, parse_bracedConfig h.2, eval_set (by rw [keys_attrs? hvs]; exact h.1), eval_entries h.2 hvs]

theorem evaluate_enabledConfig (h : (Setting.table config).Data) (hconfig : Setting.EntriesNixable config) :
    (∃ vs, evaluate (enabledConfig config) = some (.attrs vs)) ↔ "enable" ∉ config.map Prod.fst := by
  obtain ⟨vs, hvs⟩ := attrs?_isSome h.2
  have heval := (eval_entries h.2 hvs).mpr hconfig
  obtain ⟨binds, hbinds, heval⟩ := Option.bind_eq_some_iff.mp heval
  have henable : evalBinds (enableBind :: binds) = some (("enable", .boolean true) :: vs) := by
    rw [enableBind, evalBinds, heval]
    rfl
  have hnodup : ((("enable", Value.boolean true) :: vs).map Prod.fst).Nodup ↔ "enable" ∉ config.map Prod.fst := by
    rw [List.map_cons, List.nodup_cons, keys_attrs? hvs, and_iff_left h.1]
  rw [evaluate, parse_enabledConfig h.2, hbinds, Option.map_some, Option.bind_some, eval, henable, Option.bind_some, ← hnodup]
  split_ifs with hkeys
  · exact iff_of_true ⟨_, rfl⟩ hkeys
  · exact iff_of_false nofun hkeys

/-- A configuration of strings, integers, booleans, arrays and tables survives exactly
when its keys are names or texts in quotes, no integer is the least one, none in an
array is negative, and no key is `enable`. -/
theorem config_survives_iff (config : List (String × Setting)) (h : (Setting.table config).Data) :
    SurvivesNix config ↔ Setting.EntriesNixable config ∧ "enable" ∉ config.map Prod.fst := by
  constructor
  · rintro ⟨⟨vs, hvs, hvalue⟩, henabled⟩
    have hconfig := (evaluate_bracedConfig h hvs).mp hvalue
    exact ⟨hconfig, (evaluate_enabledConfig h hconfig).mp henabled⟩
  · rintro ⟨hconfig, henable⟩
    obtain ⟨vs, hvs⟩ := attrs?_isSome h.2
    exact ⟨⟨vs, hvs, (evaluate_bracedConfig h hvs).mpr hconfig⟩, (evaluate_enabledConfig h hconfig).mpr henable⟩

theorem config_survives_iff_port : SurvivesNix [("port", .integer 8080), ("args", .array [.string "-v"])] := by
  have hreturn : '\r' ∉ "-v".toList := by decide
  have hleast : (8080 : Int) ≠ -2 ^ 63 := by decide
  refine (config_survives_iff _ ?_).mpr ⟨?_, by decide⟩
  · exact ⟨by decide, ⟨by decide, by decide⟩, ⟨hreturn, trivial⟩, trivial⟩
  · exact ⟨by decide, hleast, by decide, ⟨rfl, trivial, trivial⟩, trivial⟩

theorem not_survives (h : (Setting.table config).Data) (hconfig : ¬ Setting.EntriesNixable config) : ¬ SurvivesNix config := by
  rintro ⟨⟨vs, hvs, hvalue⟩, -⟩
  exact hconfig ((evaluate_bracedConfig h hvs).mp hvalue)

/-- A port as a key, a keyword, no key at all, a negative number in an array, and the
least integer. -/
theorem unquoted_key_breaks : (¬ SurvivesNix [("8080", .string "web")] ∧ ¬ SurvivesNix [("if", .string "eth0")] ∧ ¬ SurvivesNix [("", .boolean true)] ∧
      ¬ SurvivesNix [("nice", .array [.integer (-5)])] ∧ ¬ SurvivesNix [("least", .integer (-2 ^ 63))]) ∧
    ¬ ∀ config, (Setting.table config).Data → SurvivesNix config := by
  have hweb : '\r' ∉ "web".toList := by decide
  have heth : '\r' ∉ "eth0".toList := by decide
  have hport : ¬ SurvivesNix [("8080", .string "web")] :=
    not_survives ⟨by decide, hweb, trivial⟩ fun h => absurd h.1 (by decide)
  refine ⟨⟨hport, ?_, ?_, ?_, ?_⟩, fun h => hport (h _ ⟨by decide, hweb, trivial⟩)⟩
  · exact not_survives ⟨by decide, heth, trivial⟩ fun h => absurd h.1 (by decide)
  · exact not_survives ⟨by decide, trivial, trivial⟩ fun h => absurd h.1 (by decide)
  · exact not_survives ⟨by decide, ⟨⟨by decide, by decide⟩, trivial⟩, trivial⟩ fun h => absurd h.2.1.1 (by decide)
  · exact not_survives ⟨by decide, ⟨by decide, by decide⟩, trivial⟩ fun h => h.2.1 rfl

end Ekapkgs
