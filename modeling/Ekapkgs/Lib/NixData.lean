import Ekapkgs.Lib.NixLexer

/-!
# Nix expressions of data

The words of an expression, a parser for the expressions that stand for data
(attribute sets whose attributes are single names, lists, strings, integers and
names), and the values of these. Comments, antiquotations and indented strings
are none of them.
-/

namespace Nix

/-! ## Words -/

inductive Lexeme where
  | word (cs : List Char)
  | number (digits : List Char)
  | string (s : List Char)
  | symbol (c : Char)
  /-- Of an expression that is not one of data. -/
  | other
  deriving DecidableEq

/-- What was read of the next lexeme. -/
inductive Partly where
  | nothing
  | word (cs : List Char)
  | number (digits : List Char)
  | string (s : List Char)
  deriving DecidableEq

def Partly.done : Partly → List Lexeme
  | .nothing => []
  | .word cs => [.word cs]
  | .number digits => [.number digits]
  | .string _ => [.other]

def isSpace (c : Char) : Bool := c = ' ' || c = '\t' || c = '\n' || c = '\r'

/-- A character of code between lexemes. -/
def beginLexeme (c : Char) : Partly × List Lexeme :=
  if isWordStart c then (.word [c], [])
  else if c.isDigit then (.number [c], [])
  else if c = '"' then (.string [], [])
  else if isSpace c then (.nothing, [])
  else (.nothing, [.symbol c])

def put (ts : List Lexeme) (r : Partly × List Lexeme) : Partly × List Lexeme := (r.1, ts ++ r.2)

def lexStep : Partly → Event → Partly × List Lexeme
  | .nothing, .code c => beginLexeme c
  | .word cs, .code c => if isWordChar c then (.word (cs ++ [c]), []) else put [.word cs] (beginLexeme c)
  | .number digits, .code c => if c.isDigit then (.number (digits ++ [c]), []) else put [.number digits] (beginLexeme c)
  | .string s, .code c => (.nothing, [if c = '"' then .string s else .other])
  | .string s, .text c => (.string (s ++ [c]), [])
  | p, .text _ => (.nothing, p.done ++ [.other])

def lexRun : Partly → List Event → Partly × List Lexeme
  | p, [] => (p, [])
  | p, e :: es => put (lexStep p e).2 (lexRun (lexStep p e).1 es)

def lexemes (cs : List Char) : List Lexeme :=
  let r := lexRun .nothing (run .start cs).2
  r.2 ++ r.1.done

/-! ## Expressions -/

inductive Expr where
  | string (s : List Char)
  | integer (n : Nat)
  | name (cs : List Char)
  | negation (e : Expr)
  | list (items : List Expr)
  | set (binds : List (List Char × Expr))

/-- The words that are no names. `or` may still be an attribute. -/
def keywords : List (List Char) :=
  [['i', 'f'], ['t', 'h', 'e', 'n'], ['e', 'l', 's', 'e'], ['a', 's', 's', 'e', 'r', 't'], ['w', 'i', 't', 'h'], ['l', 'e', 't'],
    ['i', 'n'], ['r', 'e', 'c'], ['i', 'n', 'h', 'e', 'r', 'i', 't']]

/-- Integers have 64 bits. -/
def simple : Lexeme → Option Expr
  | .string s => some (.string s)
  | .number digits => if Nat.ofDigitChars 10 digits 0 < 2 ^ 63 then some (.integer (Nat.ofDigitChars 10 digits 0)) else none
  | .word cs => if cs ∈ keywords ∨ cs = ['o', 'r'] then none else some (.name cs)
  | _ => none

def attrName : Lexeme → Option (List Char)
  | .string s => some s
  | .word cs => if cs ∈ keywords then none else some cs
  | _ => none

/-- What is open, and what is expected in it. -/
inductive Frame where
  /-- An expression, after so many minus signs. -/
  | operand (signs : Nat)
  | operator (e : Expr)
  | items (items : List Expr)
  | binds (binds : List (List Char × Expr))
  | equals (attr : List Char)

def negated : Nat → Expr → Expr
  | 0, e => e
  | signs + 1, e => negated signs (.negation e)

/-- A complete expression without an operator, in what is open. -/
def complete (e : Expr) : List Frame → Option (List Frame)
  | .operand signs :: outer => some (.operator (negated signs e) :: outer)
  | .items items :: outer => some (.items (items ++ [e]) :: outer)
  | _ => none

/-- A lexeme where an expression may start. -/
def start (t : Lexeme) (outer : List Frame) : Option (List Frame) :=
  if t = .symbol '{' then some (.binds [] :: outer)
  else if t = .symbol '[' then some (.items [] :: outer)
  else (simple t).bind fun e => complete e outer

def parseStep : List Frame → Lexeme → Option (List Frame)
  | .operand signs :: outer, t => if t = .symbol '-' then some (.operand (signs + 1) :: outer) else start t (.operand signs :: outer)
  | .items items :: outer, t => if t = .symbol ']' then complete (.list items) outer else start t (.items items :: outer)
  | .binds binds :: outer, t =>
    if t = .symbol '}' then complete (.set binds) outer else (attrName t).map fun attr => .equals attr :: .binds binds :: outer
  | .equals attr :: outer, t => if t = .symbol '=' then some (.operand 0 :: .equals attr :: outer) else none
  | .operator e :: .equals attr :: .binds binds :: outer, t => if t = .symbol ';' then some (.binds (binds ++ [(attr, e)]) :: outer) else none
  | _, _ => none

def parseLexemes (ts : List Lexeme) : Option Expr :=
  match ts.foldlM parseStep [.operand 0] with
  | some [.operator e] => some e
  | _ => none

def parse (text : String) : Option Expr := parseLexemes (lexemes text.toList)

/-! ## Values -/

inductive Value where
  | string (s : String)
  | integer (n : Int)
  | boolean (b : Bool)
  | list (vs : List Value)
  | attrs (vs : List (String × Value))

mutual

/-- No attribute is defined twice. -/
def eval : Expr → Option Value
  | .string s => some (.string (String.ofList s))
  | .integer n => some (.integer n)
  | .name cs =>
    if cs = ['t', 'r', 'u', 'e'] then some (.boolean true) else if cs = ['f', 'a', 'l', 's', 'e'] then some (.boolean false) else none
  | .negation e =>
    match eval e with
    | some (.integer n) => some (.integer (-n))
    | _ => none
  | .list items => (evalItems items).map .list
  | .set binds => (evalBinds binds).bind fun vs => if (vs.map Prod.fst).Nodup then some (.attrs vs) else none

def evalItems : List Expr → Option (List Value)
  | [] => some []
  | e :: es => (eval e).bind fun v => (evalItems es).map (v :: ·)

def evalBinds : List (List Char × Expr) → Option (List (String × Value))
  | [] => some []
  | (attr, e) :: binds => (eval e).bind fun v => (evalBinds binds).map ((String.ofList attr, v) :: ·)

end

def evaluate (text : String) : Option Value := (parse text).bind eval

/-! ## Reading words -/

theorem lexRun_append (p : Partly) (es es' : List Event) : lexRun p (es ++ es') = put (lexRun p es).2 (lexRun (lexRun p es).1 es') := by
  induction es generalizing p with
  | nil => rfl
  | cons e es ih => simp only [List.cons_append, lexRun, ih, put, List.append_assoc]

/-- The text is these lexemes, whatever is open around it, and ends between lexemes. -/
def Clean (cs : List Char) (ts : List Lexeme) : Prop :=
  ∀ outer, ∃ es, run ⟨.code, outer⟩ cs = (⟨.code, outer⟩, es) ∧ lexRun .nothing es = (.nothing, ts)

theorem Clean.append {cs cs' : List Char} {ts ts' : List Lexeme} (h : Clean cs ts) (h' : Clean cs' ts') : Clean (cs ++ cs') (ts ++ ts') := by
  intro outer
  obtain ⟨es, hrun, hlex⟩ := h outer
  obtain ⟨es', hrun', hlex'⟩ := h' outer
  refine ⟨es ++ es', ?_, ?_⟩
  · rw [run_append, hrun, hrun']
    rfl
  · rw [lexRun_append, hlex, hlex']
    rfl

theorem clean_nil : Clean [] [] := fun _ => ⟨[], rfl, rfl⟩

theorem clean_space : Clean [' '] [] := fun _ => ⟨[.code ' '], rfl, rfl⟩

theorem clean_semicolon : Clean [';'] [.symbol ';'] := fun _ => ⟨[.code ';'], rfl, rfl⟩

theorem clean_equals : Clean ['='] [.symbol '='] := fun _ => ⟨[.code '='], rfl, rfl⟩

theorem clean_list {cs : List Char} {ts : List Lexeme} (h : Clean cs ts) : Clean ('[' :: (cs ++ [']'])) (.symbol '[' :: (ts ++ [.symbol ']'])) := by
  have hopen : Clean ['['] [.symbol '['] := fun _ => ⟨[.code '['], rfl, rfl⟩
  have hclose : Clean [']'] [.symbol ']'] := fun _ => ⟨[.code ']'], rfl, rfl⟩
  exact hopen.append (h.append hclose)

theorem clean_braces {cs : List Char} {ts : List Lexeme} (h : Clean cs ts) : Clean ('{' :: (cs ++ ['}'])) (.symbol '{' :: (ts ++ [.symbol '}'])) := by
  intro outer
  obtain ⟨es, hrun, hlex⟩ := h (.code :: outer)
  have hopen : step ⟨.code, outer⟩ '{' = (⟨.code, .code :: outer⟩, [.code '{']) := rfl
  have hclose : run ⟨.code, .code :: outer⟩ ['}'] = (⟨.code, outer⟩, [.code '}']) := rfl
  refine ⟨.code '{' :: (es ++ [.code '}']), ?_, ?_⟩
  · rw [run, hopen, run_append, hrun, hclose]
    rfl
  · rw [lexRun, lexRun_append]
    have hbegin : lexStep .nothing (.code '{') = (.nothing, [.symbol '{']) := rfl
    rw [hbegin, hlex]
    rfl

theorem lexRun_text (s t : List Char) : lexRun (.string s) (t.map .text) = (.string (s ++ t), []) := by
  induction t generalizing s with
  | nil => rw [List.append_nil]; rfl
  | cons c t ih =>
    rw [List.map_cons, lexRun, lexStep, ih]
    simp [put]

theorem clean_string (s : List Char) : Clean ('"' :: (escape s ++ ['"'])) [.string (unreturned s)] := by
  intro outer
  have hopen : step ⟨.code, outer⟩ '"' = (⟨.string, outer⟩, [.code '"']) := rfl
  have hbegin : lexStep .nothing (.code '"') = (.string [], []) := rfl
  refine ⟨.code '"' :: literalText (unreturned s), ?_, ?_⟩
  · rw [run, hopen, (run_escape_all outer s).1]
    rfl
  · rw [lexRun, hbegin, literalText, lexRun_append, lexRun_text]
    rfl

/-! ## Words of plain characters -/

def isDelimiter (d : Char) : Bool := d = ' ' || d = ';'

theorem run_delimiter (outer : List Mode) {mode : Mode} {d : Char} (hmode : mode = .code ∨ mode = .word) (hd : isDelimiter d = true) :
    run ⟨mode, outer⟩ [d] = (⟨.code, outer⟩, [.code d]) := by
  unfold isDelimiter at hd
  rw [Bool.or_eq_true, decide_eq_true_eq, decide_eq_true_eq] at hd
  rcases hd with rfl | rfl <;> rcases hmode with rfl | rfl <;> rfl

theorem lexStep_delimiter {p : Partly} {d : Char} (hp : ∀ s, p ≠ .string s) (hd : isDelimiter d = true) :
    lexStep p (.code d) = (.nothing, p.done ++ (beginLexeme d).2) := by
  unfold isDelimiter at hd
  rw [Bool.or_eq_true, decide_eq_true_eq, decide_eq_true_eq] at hd
  cases p with
  | string s => exact absurd rfl (hp s)
  | _ => rcases hd with rfl | rfl <;> rfl

/-- The lexemes of plain characters before a delimiter. -/
def plainLexemes (cs : List Char) (d : Char) : List Lexeme := (lexRun .nothing ((cs ++ [d]).map .code)).2

theorem isPlain_ne_quote {c : Char} (h : isPlain c = true) : c ≠ '"' := by
  rintro rfl
  exact absurd h (by decide)

theorem lexStep_plain {p : Partly} {c : Char} (hp : ∀ s, p ≠ .string s) (hc : isPlain c = true) : ∀ s, (lexStep p (.code c)).1 ≠ .string s := by
  have hbegin : ∀ s, (beginLexeme c).1 ≠ .string s := by
    intro s
    unfold beginLexeme
    rw [if_neg (isPlain_ne_quote hc)]
    split_ifs <;> exact nofun
  intro s
  cases p with
  | nothing => exact hbegin s
  | word cs =>
    rw [lexStep]
    split
    · exact nofun
    · exact hbegin s
  | number digits =>
    rw [lexStep]
    split
    · exact nofun
    · exact hbegin s
  | string s' => exact absurd rfl (hp s')

theorem lexRun_plain : ∀ {cs : List Char} {p : Partly}, (∀ s, p ≠ .string s) → (∀ c ∈ cs, isPlain c = true) →
    ∀ s, (lexRun p (cs.map .code)).1 ≠ .string s
  | [], _, hp, _ => hp
  | c :: cs, p, hp, h => by
    rw [List.map_cons, lexRun]
    exact lexRun_plain (lexStep_plain hp (h c List.mem_cons_self)) fun d hd => h d (List.mem_cons_of_mem _ hd)

theorem clean_plain {cs : List Char} (h : ∀ c ∈ cs, isPlain c = true) {d : Char} (hd : isDelimiter d = true) :
    Clean (cs ++ [d]) (plainLexemes cs d) := by
  intro outer
  obtain ⟨mode', hmode', hrun⟩ := run_plain outer cs .code (.inl rfl) h
  refine ⟨(cs ++ [d]).map .code, ?_, ?_⟩
  · rw [run_append, hrun, run_delimiter outer hmode' hd, List.map_append]
    rfl
  · have hends : (lexRun .nothing ((cs ++ [d]).map .code)).1 = .nothing := by
      rw [List.map_append, lexRun_append]
      have hplain := lexRun_plain (p := .nothing) nofun h
      simp only [put, List.map_cons, List.map_nil, lexRun, lexStep_delimiter hplain hd]
    exact Prod.ext hends rfl

theorem lexRun_word : ∀ (cs w : List Char) {d : Char}, (∀ c ∈ cs, isWordChar c = true) → isDelimiter d = true →
    (lexRun (.word w) ((cs ++ [d]).map .code)).2 = .word (w ++ cs) :: (beginLexeme d).2
  | [], w, d, _, hd => by
    have hstep := lexStep_delimiter (p := .word w) nofun hd
    simp only [List.nil_append, List.map_cons, List.map_nil, lexRun, hstep, put, Partly.done, List.append_nil]
    rfl
  | c :: cs, w, d, h, hd => by
    rw [List.cons_append, List.map_cons, lexRun, lexStep, if_pos (h c List.mem_cons_self)]
    simp only [put, List.nil_append]
    rw [lexRun_word cs (w ++ [c]) (fun e he => h e (List.mem_cons_of_mem _ he)) hd, List.append_assoc, List.singleton_append]

theorem plainLexemes_word {c : Char} {cs : List Char} (hc : isWordStart c = true) (h : ∀ c ∈ cs, isWordChar c = true) {d : Char}
    (hd : isDelimiter d = true) : plainLexemes (c :: cs) d = .word (c :: cs) :: (beginLexeme d).2 := by
  rw [plainLexemes, List.cons_append, List.map_cons, lexRun, lexStep, beginLexeme, if_pos hc]
  simp only [put, List.nil_append]
  rw [lexRun_word cs [c] h hd, List.singleton_append]

theorem not_isWordStart {c : Char} (h : c.isDigit = true) : isWordStart c = false := by
  have hne : c ≠ '_' := by
    rintro rfl
    exact absurd h (by decide)
  simp only [isWordStart, Char.isAlpha, Char.isUpper, Char.isLower, Char.isDigit, Bool.or_eq_false_iff, Bool.and_eq_false_iff,
    Bool.and_eq_true, decide_eq_true_eq, decide_eq_false_iff_not, ge_iff_le, UInt32.le_iff_toNat_le] at h ⊢
  have hnine : c.val.toNat ≤ 57 := h.2
  refine ⟨⟨fun hupper => ?_, .inl fun hlower => ?_⟩, hne⟩
  · have : 65 ≤ c.val.toNat := hupper.1
    omega
  · have : 97 ≤ c.val.toNat := hlower
    omega

theorem lexRun_number : ∀ (cs digits : List Char) {d : Char}, (∀ c ∈ cs, c.isDigit = true) → isDelimiter d = true →
    (lexRun (.number digits) ((cs ++ [d]).map .code)).2 = .number (digits ++ cs) :: (beginLexeme d).2
  | [], digits, d, _, hd => by
    have hstep := lexStep_delimiter (p := .number digits) nofun hd
    simp only [List.nil_append, List.map_cons, List.map_nil, lexRun, hstep, put, Partly.done, List.append_nil]
    rfl
  | c :: cs, digits, d, h, hd => by
    rw [List.cons_append, List.map_cons, lexRun, lexStep, if_pos (h c List.mem_cons_self)]
    simp only [put, List.nil_append]
    rw [lexRun_number cs (digits ++ [c]) (fun e he => h e (List.mem_cons_of_mem _ he)) hd, List.append_assoc, List.singleton_append]

theorem plainLexemes_number {c : Char} {cs : List Char} (h : ∀ e ∈ c :: cs, e.isDigit = true) {d : Char} (hd : isDelimiter d = true) :
    plainLexemes (c :: cs) d = .number (c :: cs) :: (beginLexeme d).2 := by
  have hc := h c List.mem_cons_self
  rw [plainLexemes, List.cons_append, List.map_cons, lexRun, lexStep, beginLexeme, not_isWordStart hc, if_neg Bool.false_ne_true, if_pos hc]
  simp only [put, List.nil_append]
  rw [lexRun_number cs [c] (fun e he => h e (List.mem_cons_of_mem _ he)) hd, List.singleton_append]

/-- What follows a digit, a number comes first. -/
theorem lexRun_number_head (d : Char) (hd : isDelimiter d = true) : ∀ (cs digits : List Char),
    ∃ digits' ts, (lexRun (.number digits) ((cs ++ [d]).map .code)).2 = .number digits' :: ts
  | [], digits => by
    have hread := lexRun_number [] digits nofun hd
    rw [List.append_nil] at hread
    exact ⟨digits, _, hread⟩
  | c :: cs, digits => by
    rw [List.cons_append, List.map_cons, lexRun, lexStep]
    split
    · exact lexRun_number_head d hd cs (digits ++ [c])
    · exact ⟨digits, _, rfl⟩

end Nix
