import Mathlib

/-!
# The lexical structure of Nix expressions

The lexer of the Nix language, one character at a time: which characters are code,
and which belong to the text of a string. URI literals are not told apart from the
code around them, and the text of an indented string is the one before its
indentation is stripped.
-/

namespace Nix

/-! ## The lexer -/

inductive Mode where
  | code
  /-- In an identifier, where a quote does not open a string. -/
  | word
  | slash
  | quote
  | dollar
  | lineComment
  | blockComment
  | blockStar
  | string
  | stringDollar
  | stringEscape
  | stringReturn
  | indented
  | indentedDollar
  | indentedQuote
  | indentedQuotes
  | indentedEscape
  deriving DecidableEq

/-- `outer` holds the modes to go back to at a closing brace, innermost first. -/
structure Lexer where
  mode : Mode
  outer : List Mode
  deriving DecidableEq

inductive Event where
  | code (c : Char)
  | text (c : Char)
  deriving DecidableEq

def isWordStart (c : Char) : Bool := c.isAlpha || c = '_'

def isWordChar (c : Char) : Bool := c.isAlphanum || c = '_' || c = '-' || c = '\''

def closeBrace : List Mode → Lexer
  | [] => ⟨.code, []⟩
  | mode :: outer => ⟨mode, outer⟩

/-- A character between tokens. -/
def codeStep (outer : List Mode) (c : Char) : Lexer × List Event :=
  if c = '"' then (⟨.string, outer⟩, [.code c])
  else if c = '{' then (⟨.code, .code :: outer⟩, [.code c])
  else if c = '}' then (closeBrace outer, [.code c])
  else if c = '#' then (⟨.lineComment, outer⟩, [])
  else if c = '/' then (⟨.slash, outer⟩, [])
  else if c = '$' then (⟨.dollar, outer⟩, [])
  else if c = '\'' then (⟨.quote, outer⟩, [])
  else if isWordStart c then (⟨.word, outer⟩, [.code c])
  else (⟨.code, outer⟩, [.code c])

/-- The character after a backslash. -/
def unescaped (c : Char) : Char :=
  if c = 'n' then '\n' else if c = 'r' then '\r' else if c = 't' then '\t' else c

/-- A character of a string. A carriage return, alone or before a line feed, is a line feed. -/
def stringStep (outer : List Mode) (c : Char) : Lexer × List Event :=
  if c = '"' then (⟨.code, outer⟩, [.code c])
  else if c = '\\' then (⟨.stringEscape, outer⟩, [])
  else if c = '$' then (⟨.stringDollar, outer⟩, [])
  else if c = '\r' then (⟨.stringReturn, outer⟩, [.text '\n'])
  else (⟨.string, outer⟩, [.text c])

def indentedStep (outer : List Mode) (c : Char) : Lexer × List Event :=
  if c = '\'' then (⟨.indentedQuote, outer⟩, [])
  else if c = '$' then (⟨.indentedDollar, outer⟩, [])
  else (⟨.indented, outer⟩, [.text c])

/-- Events that were held back until the next character was seen. -/
def after (held : List Event) (r : Lexer × List Event) : Lexer × List Event := (r.1, held ++ r.2)

def step (l : Lexer) (c : Char) : Lexer × List Event :=
  match l.mode with
  | .code => codeStep l.outer c
  | .word => if isWordChar c then (l, [.code c]) else codeStep l.outer c
  | .slash =>
    if c = '*' then (⟨.blockComment, l.outer⟩, [])
    else if c = '/' then (⟨.code, l.outer⟩, [.code '/', .code c])
    else after [.code '/'] (codeStep l.outer c)
  | .quote =>
    if c = '\'' then (⟨.indented, l.outer⟩, [.code '\'', .code c]) else after [.code '\''] (codeStep l.outer c)
  | .dollar =>
    if c = '{' then (⟨.code, .code :: l.outer⟩, [.code '$', .code c]) else after [.code '$'] (codeStep l.outer c)
  | .lineComment => (⟨if c = '\n' then .code else .lineComment, l.outer⟩, [])
  | .blockComment => (⟨if c = '*' then .blockStar else .blockComment, l.outer⟩, [])
  | .blockStar => (⟨if c = '/' then .code else if c = '*' then .blockStar else .blockComment, l.outer⟩, [])
  | .string => stringStep l.outer c
  | .stringDollar =>
    if c = '{' then (⟨.code, .string :: l.outer⟩, [.code '$', .code c])
    -- two dollars are text together, so the second one opens nothing
    else if c = '$' then (⟨.string, l.outer⟩, [.text '$', .text c])
    else after [.text '$'] (stringStep l.outer c)
  | .stringEscape => (⟨.string, l.outer⟩, [.text (unescaped c)])
  | .stringReturn => if c = '\n' then (⟨.string, l.outer⟩, []) else stringStep l.outer c
  | .indented => indentedStep l.outer c
  | .indentedDollar =>
    if c = '{' then (⟨.code, .indented :: l.outer⟩, [.code '$', .code c])
    else if c = '\'' then (⟨.indentedQuote, l.outer⟩, [.text '$'])
    else (⟨.indented, l.outer⟩, [.text '$', .text c])
  | .indentedQuote =>
    if c = '\'' then (⟨.indentedQuotes, l.outer⟩, [])
    else if c = '$' then (⟨.indentedDollar, l.outer⟩, [.text '\''])
    else (⟨.indented, l.outer⟩, [.text '\'', .text c])
  | .indentedQuotes =>
    if c = '$' then (⟨.indented, l.outer⟩, [.text c])
    else if c = '\'' then (⟨.indented, l.outer⟩, [.text '\'', .text c])
    else if c = '\\' then (⟨.indentedEscape, l.outer⟩, [])
    else after [.code '\'', .code '\''] (codeStep l.outer c)
  | .indentedEscape => (⟨.indented, l.outer⟩, [.text (unescaped c)])

def Lexer.start : Lexer := ⟨.code, []⟩

def run : Lexer → List Char → Lexer × List Event
  | l, [] => (l, [])
  | l, c :: cs => after (step l c).2 (run (step l c).1 cs)

@[simp] theorem after_nil (r : Lexer × List Event) : after [] r = r := rfl

@[simp] theorem after_after (e e' : List Event) (r : Lexer × List Event) : after e (after e' r) = after (e ++ e') r := by
  simp only [after, List.append_assoc]

theorem run_append (l : Lexer) (cs ds : List Char) : run l (cs ++ ds) = after (run l cs).2 (run (run l cs).1 ds) := by
  induction cs generalizing l with
  | nil => rfl
  | cons c cs ih => simp only [List.cons_append, run, ih, after, List.append_assoc]

/-! ## The text of a literal -/

/-- The body of a string literal with this text. -/
def escape : List Char → List Char
  | [] => []
  | '\\' :: cs => '\\' :: '\\' :: escape cs
  | '"' :: cs => '\\' :: '"' :: escape cs
  | '\n' :: cs => '\\' :: 'n' :: escape cs
  | '\t' :: cs => '\\' :: 't' :: escape cs
  | '$' :: '{' :: cs => '\\' :: '$' :: '{' :: escape cs
  | c :: cs => c :: escape cs

/-- What a closed literal amounts to. -/
def literalText (s : List Char) : List Event := s.map .text ++ [.code '"']

/-- What a string is read as that has its carriage returns as they stand. -/
def unreturned (s : List Char) : List Char := s.map fun c => if c = '\r' then '\n' else c

theorem unreturned_eq_self {s : List Char} : unreturned s = s ↔ '\r' ∉ s := by
  induction s with
  | nil => exact iff_of_true rfl List.not_mem_nil
  | cons c cs ih =>
    rw [unreturned, List.map_cons, List.cons.injEq, List.mem_cons, not_or]
    refine and_congr ?_ ih
    split_ifs with hc
    · exact iff_of_false (by rw [hc]; decide) fun hne => hne hc.symm
    · exact iff_of_true rfl fun hne => hc hne.symm

/-- From a string, after a dollar, and after a carriage return. -/
theorem run_escape_all (outer : List Mode) : ∀ (s : List Char),
    run ⟨.string, outer⟩ (escape s ++ ['"']) = (⟨.code, outer⟩, literalText (unreturned s)) ∧
    (s.head? ≠ some '{' → run ⟨.stringDollar, outer⟩ (escape s ++ ['"']) = (⟨.code, outer⟩, .text '$' :: literalText (unreturned s))) ∧
    run ⟨.stringReturn, outer⟩ (escape s ++ ['"']) = (⟨.code, outer⟩, literalText (unreturned s)) := by
  intro s
  induction s using escape.induct with
  | case1 => exact ⟨rfl, fun _ => rfl, rfl⟩
  | case2 cs ih =>
    obtain ⟨ih, -⟩ := ih
    simp [escape, run, step, stringStep, unescaped, ih, after, literalText, unreturned]
  | case3 cs ih =>
    obtain ⟨ih, -⟩ := ih
    simp [escape, run, step, stringStep, unescaped, ih, after, literalText, unreturned]
  | case4 cs ih =>
    obtain ⟨ih, -⟩ := ih
    simp [escape, run, step, stringStep, unescaped, ih, after, literalText, unreturned]
  | case5 cs ih =>
    obtain ⟨ih, -⟩ := ih
    simp [escape, run, step, stringStep, unescaped, ih, after, literalText, unreturned]
  | case6 cs ih =>
    obtain ⟨ih, -⟩ := ih
    simp [escape, run, step, stringStep, unescaped, ih, after, literalText, unreturned]
  | case7 c cs hslash hquote hline htab hdollar ih =>
    obtain ⟨ih, ihdollar, ihreturn⟩ := ih
    have hescape : escape (c :: cs) = c :: escape cs := by
      rw [escape] <;> assumption
    rw [hescape]
    by_cases hc' : c = '$'
    · subst hc'
      have hhead : cs.head? ≠ some '{' := by
        intro h
        obtain ⟨rest, rfl⟩ := List.head?_eq_some_iff.mp h
        exact hdollar rest rfl rfl
      have hfirst := ihdollar hhead
      simp [run, step, stringStep, ih, hfirst, after, literalText, unreturned]
    · by_cases hc : c = '\r'
      · subst hc
        simp [run, step, stringStep, ihreturn, after, literalText, unreturned]
      · have hplain : stringStep outer c = (⟨.string, outer⟩, [.text c]) := by
          unfold stringStep
          rw [if_neg hquote, if_neg hslash, if_neg hc', if_neg hc]
        have hbreak : ¬ c = '\n' := hline
        refine ⟨by simp [run, step, hplain, ih, after, literalText, unreturned, hc], fun hhead => ?_,
          by simp [run, step, hplain, ih, after, literalText, unreturned, hc, hbreak]⟩
        have hbrace : c ≠ '{' := fun h => hhead (h ▸ rfl)
        simp [run, step, hplain, ih, after, literalText, unreturned, hbrace, hc, hc']

theorem run_escape (outer : List Mode) {s : List Char} (h : '\r' ∉ s) :
    run ⟨.string, outer⟩ (escape s ++ ['"']) = (⟨.code, outer⟩, literalText s) := by
  rw [(run_escape_all outer s).1, unreturned_eq_self.mpr h]

/-! ## Frames below -/

def Lexer.over (l : Lexer) (rest : List Mode) : Lexer := ⟨l.mode, l.outer ++ rest⟩

/-- Code modes, where a closing brace goes back to the mode outside. -/
def Mode.pops : Mode → Bool
  | .code | .word | .slash | .quote | .dollar | .indentedQuotes => true
  | _ => false

/-- The text closes no brace that it has not opened. -/
def stays : Lexer → List Char → Bool
  | _, [] => true
  | l, c :: cs => !(c = '}' && l.outer = [] && l.mode.pops) && stays (step l c).1 cs

theorem codeStep_over {outer rest : List Mode} {c : Char} (h : c ≠ '}' ∨ outer ≠ []) :
    codeStep (outer ++ rest) c = ((codeStep outer c).1.over rest, (codeStep outer c).2) := by
  unfold codeStep
  by_cases hbrace : c = '}'
  · subst hbrace
    cases outer with
    | nil => exact (h.elim (fun h => h rfl) fun h => h rfl).elim
    | cons mode outer => rfl
  · simp only [if_neg hbrace]
    split_ifs <;> rfl

theorem stringStep_over (outer rest : List Mode) (c : Char) :
    stringStep (outer ++ rest) c = ((stringStep outer c).1.over rest, (stringStep outer c).2) := by
  unfold stringStep
  split_ifs <;> rfl

theorem step_over {l : Lexer} {c : Char} (rest : List Mode) (h : (c = '}' && l.outer = [] && l.mode.pops) = false) :
    step (l.over rest) c = ((step l c).1.over rest, (step l c).2) := by
  obtain ⟨mode, outer⟩ := l
  have hpop : mode.pops = true → codeStep (outer ++ rest) c = ((codeStep outer c).1.over rest, (codeStep outer c).2) := by
    intro hpops
    refine codeStep_over ?_
    dsimp only at h
    rw [hpops, Bool.and_true, Bool.and_eq_false_iff, decide_eq_false_iff_not, decide_eq_false_iff_not] at h
    exact h
  have hstring := stringStep_over outer rest c
  cases mode with
  | code => exact hpop rfl
  | word | slash | quote | dollar | indentedQuotes =>
    have hcode := hpop rfl
    simp only [step, Lexer.over, hcode, after]
    split_ifs <;> rfl
  | lineComment | blockComment | blockStar | stringEscape | indentedEscape => rfl
  | string => exact hstring
  | stringDollar | stringReturn =>
    simp only [step, Lexer.over, hstring, after]
    split_ifs <;> rfl
  | indented | indentedDollar | indentedQuote =>
    simp only [step, indentedStep, Lexer.over]
    split_ifs <;> rfl

theorem run_over (rest : List Mode) : ∀ (cs : List Char) (l : Lexer), stays l cs = true →
    run (l.over rest) cs = ((run l cs).1.over rest, (run l cs).2)
  | [], _, _ => rfl
  | c :: cs, l, h => by
    rw [stays, Bool.and_eq_true, Bool.not_eq_true'] at h
    rw [run, step_over rest h.1, run_over rest cs _ h.2]
    rfl

/-- The text leads from one state to another, whatever is open around them. -/
def passes (l : Lexer) (cs : List Char) (l' : Lexer) : Bool := stays l cs && (run l cs).1 = l'

theorem run_of_passes {l l' : Lexer} {cs : List Char} (h : passes l cs l' = true) (outer : List Mode) :
    (run (l.over outer) cs).1 = l'.over outer := by
  rw [passes, Bool.and_eq_true, decide_eq_true_eq] at h
  rw [run_over outer cs l h.1, h.2]

/-! ## Generated expressions -/

/-- A piece of a generated expression: code of its own, or a string that the text
before it has opened, with the closing quote. -/
inductive Segment where
  | code (cs : List Char)
  | user (s : List Char)

def Segment.render : Segment → List Char
  | .code cs => cs
  | .user s => escape s ++ ['"']

def render (segs : List Segment) : List Char := segs.flatMap Segment.render

/-- The expression as it is meant: each string is text. -/
def meaning : Lexer → List Segment → Lexer × List Event
  | l, [] => (l, [])
  | l, .code cs :: segs => after (run l cs).2 (meaning (run l cs).1 segs)
  | l, .user s :: segs => after (literalText s) (meaning ⟨.code, l.outer⟩ segs)

/-- Each string stands in an open literal. -/
def Placed : Lexer → List Segment → Prop
  | _, [] => True
  | l, .code cs :: segs => Placed (run l cs).1 segs
  | l, .user s :: segs => l.mode = .string ∧ '\r' ∉ s ∧ Placed ⟨.code, l.outer⟩ segs

theorem run_render : ∀ (segs : List Segment) (l : Lexer), Placed l segs → run l (render segs) = meaning l segs
  | [], _, _ => rfl
  | .code cs :: segs, l, h => by
    rw [meaning, ← run_render segs _ h, ← run_append]
    rfl
  | .user s :: segs, l, h => by
    obtain ⟨hmode, hreturn, h⟩ := h
    obtain ⟨mode, outer⟩ := l
    obtain rfl : mode = .string := hmode
    have hrender : render (.user s :: segs) = (escape s ++ ['"']) ++ render segs := rfl
    rw [hrender, run_append, run_escape outer hreturn, meaning, run_render segs _ h]

theorem meaning_append (l : Lexer) (segs segs' : List Segment) :
    meaning l (segs ++ segs') = after (meaning l segs).2 (meaning (meaning l segs).1 segs') := by
  induction segs generalizing l with
  | nil => rfl
  | cons seg segs ih =>
    cases seg with
    | code cs => simp only [List.cons_append, meaning, ih, after, List.append_assoc]
    | user s => simp only [List.cons_append, meaning, ih, after, List.append_assoc]

theorem placed_append {l : Lexer} {segs segs' : List Segment} :
    Placed l (segs ++ segs') ↔ Placed l segs ∧ Placed (meaning l segs).1 segs' := by
  induction segs generalizing l with
  | nil => simp [Placed, meaning]
  | cons seg segs ih =>
    cases seg with
    | code cs => simp only [List.cons_append, Placed, meaning, ih, after]
    | user s => simp only [List.cons_append, Placed, meaning, ih, after, and_assoc]

/-! ## The code of an expression -/

def codeOf (events : List Event) : List Char := events.filterMap fun
  | .code c => some c
  | .text _ => none

theorem codeOf_append (events events' : List Event) : codeOf (events ++ events') = codeOf events ++ codeOf events' := List.filterMap_append

theorem codeOf_literalText (s : List Char) : codeOf (literalText s) = ['"'] := by
  have htext : codeOf (s.map .text) = [] := by
    induction s with
    | nil => rfl
    | cons c s ih => exact ih
  rw [literalText, codeOf_append, htext]
  rfl

/-- The segment without its string. -/
def Segment.blank : Segment → Segment
  | .code cs => .code cs
  | .user _ => .user []

/-- The strings change nothing in the code. -/
theorem meaning_blank (segs : List Segment) (l : Lexer) : (meaning l (segs.map Segment.blank)).1 = (meaning l segs).1 ∧
    codeOf (meaning l (segs.map Segment.blank)).2 = codeOf (meaning l segs).2 := by
  induction segs generalizing l with
  | nil => exact ⟨rfl, rfl⟩
  | cons seg segs ih =>
    cases seg with
    | code cs =>
      obtain ⟨hstate, hcode⟩ := ih (run l cs).1
      simp only [List.map_cons, Segment.blank, meaning, after, codeOf_append, hstate, hcode, true_and]
    | user s =>
      obtain ⟨hstate, hcode⟩ := ih ⟨.code, l.outer⟩
      simp only [List.map_cons, Segment.blank, meaning, after, codeOf_append, codeOf_literalText, hstate, hcode, true_and]

/-! ## Leading from state to state -/

/-- From each of the states, whatever is open around it, the segments lead to one of
the states after them, and each string stands in an open literal. -/
def Leads (ls : List Lexer) (segs : List Segment) (ls' : List Lexer) : Prop :=
  ∀ l ∈ ls, ∀ outer, Placed (l.over outer) segs ∧ ∃ l' ∈ ls', (meaning (l.over outer) segs).1 = l'.over outer

theorem Leads.nil (ls : List Lexer) : Leads ls [] ls := fun l hl _ => ⟨trivial, l, hl, rfl⟩

theorem Leads.append {ls ls' ls'' : List Lexer} {segs segs' : List Segment} (h : Leads ls segs ls') (h' : Leads ls' segs' ls'') :
    Leads ls (segs ++ segs') ls'' := by
  intro l hl outer
  obtain ⟨hplaced, l', hl', hstate⟩ := h l hl outer
  obtain ⟨hplaced', l'', hl'', hstate'⟩ := h' l' hl' outer
  refine ⟨placed_append.mpr ⟨hplaced, hstate ▸ hplaced'⟩, l'', hl'', ?_⟩
  rw [meaning_append, hstate]
  exact hstate'

theorem Leads.code {ls ls' : List Lexer} {cs : List Char} (h : (ls.all fun l => ls'.any (passes l cs)) = true) :
    Leads ls [.code cs] ls' := by
  intro l hl outer
  obtain ⟨l', hl', hpasses⟩ := List.any_eq_true.mp (List.all_eq_true.mp h l hl)
  exact ⟨trivial, l', hl', run_of_passes hpasses outer⟩

/-- The characters of a literal of the source. -/
theorem Leads.literal {ls ls' : List Lexer} {s : String} {cs : List Char} (hs : String.ofList cs = s)
    (h : (ls.all fun l => ls'.any (passes l cs)) = true) : Leads ls [.code s.toList] ls' := by
  rw [← hs, String.toList_ofList]
  exact .code h

/-- What can be done in a frame can be done with more open around it. -/
theorem Leads.over {ls ls' : List Lexer} {segs : List Segment} (h : Leads ls segs ls') (outer : List Mode) :
    Leads (ls.map (·.over outer)) segs (ls'.map (·.over outer)) := by
  intro lifted hlifted outer'
  obtain ⟨l, hl, rfl⟩ := List.mem_map.mp hlifted
  obtain ⟨hplaced, l', hl', hstate⟩ := h l hl (outer ++ outer')
  have htwice : ∀ l : Lexer, (l.over outer).over outer' = l.over (outer ++ outer') := by
    intro l
    simp [Lexer.over]
  rw [htwice]
  exact ⟨hplaced, l'.over outer, List.mem_map_of_mem hl', by rw [htwice, hstate]⟩

/-- Between tokens or at the end of a word. -/
def inCode : List Lexer := [⟨.code, []⟩, ⟨.word, []⟩]

def Fits (segs : List Segment) : Prop := Leads inCode segs inCode

theorem Leads.user {s : List Char} (h : '\r' ∉ s) : Leads [⟨.string, []⟩] [.user s] inCode := by
  intro l hl outer
  obtain rfl := List.mem_singleton.mp hl
  exact ⟨⟨rfl, h, trivial⟩, _, List.mem_cons_self, rfl⟩

theorem Leads.intercalate {ls : List Lexer} {sep : List Segment} (hsep : Leads ls sep ls) :
    ∀ {parts : List (List Segment)}, (∀ part ∈ parts, Leads ls part ls) → Leads ls (sep.intercalate parts) ls
  | [], _ => .nil _
  | [part], h => by
    rw [List.intercalate_singleton]
    exact h part List.mem_cons_self
  | part :: part' :: parts, h => by
    rw [List.intercalate_cons_cons, List.append_assoc]
    exact (h part List.mem_cons_self).append (hsep.append (hsep.intercalate fun p hp => h p (List.mem_cons_of_mem _ hp)))

/-- A string literal. -/
def quoted (s : List Char) : List Segment := [.code ['"'], .user s]

theorem fits_quoted {s : List Char} (h : '\r' ∉ s) : Fits (quoted s) := by
  have hopen : Leads inCode [.code ['"']] [⟨.string, []⟩] := .code (by decide)
  exact hopen.append (.user h)

def isPlain (c : Char) : Bool := c.isAlphanum || c = '_' || c = '-' || c = '.'

theorem step_plain (outer : List Mode) {mode : Mode} {c : Char} (hmode : mode = .code ∨ mode = .word) (hc : isPlain c = true) :
    ∃ mode', (mode' = .code ∨ mode' = .word) ∧ step ⟨mode, outer⟩ c = (⟨mode', outer⟩, [.code c]) := by
  have hne : ∀ {d : Char}, isPlain d = false → c ≠ d := by
    rintro d hd rfl
    rw [hc] at hd
    cases hd
  have hcode : ∃ mode', (mode' = .code ∨ mode' = .word) ∧ codeStep outer c = (⟨mode', outer⟩, [.code c]) := by
    unfold codeStep
    rw [if_neg (hne (by decide)), if_neg (hne (by decide)), if_neg (hne (by decide)), if_neg (hne (by decide)),
      if_neg (hne (by decide)), if_neg (hne (by decide)), if_neg (hne (by decide))]
    split
    · exact ⟨.word, .inr rfl, rfl⟩
    · exact ⟨.code, .inl rfl, rfl⟩
  rcases hmode with rfl | rfl
  · exact hcode
  · unfold step
    dsimp only
    split
    · exact ⟨.word, .inr rfl, rfl⟩
    · exact hcode

theorem run_plain (outer : List Mode) : ∀ (cs : List Char) (mode : Mode), (mode = .code ∨ mode = .word) → (∀ c ∈ cs, isPlain c = true) →
    ∃ mode', (mode' = .code ∨ mode' = .word) ∧ run ⟨mode, outer⟩ cs = (⟨mode', outer⟩, cs.map .code)
  | [], mode, hmode, _ => ⟨mode, hmode, rfl⟩
  | c :: cs, mode, hmode, h => by
    obtain ⟨mode', hmode', hstep⟩ := step_plain outer hmode (h c List.mem_cons_self)
    obtain ⟨mode'', hmode'', hrun⟩ := run_plain outer cs mode' hmode' fun d hd => h d (List.mem_cons_of_mem _ hd)
    refine ⟨mode'', hmode'', ?_⟩
    rw [run, hstep, hrun]
    rfl

/-- Names and numbers. -/
theorem fits_plain {cs : List Char} (h : ∀ c ∈ cs, isPlain c = true) : Fits [.code cs] := by
  intro l hl outer
  have hmode : l = ⟨l.mode, []⟩ ∧ (l.mode = .code ∨ l.mode = .word) := by
    rcases List.mem_cons.mp hl with rfl | hl
    · exact ⟨rfl, .inl rfl⟩
    · obtain rfl := List.mem_singleton.mp hl
      exact ⟨rfl, .inr rfl⟩
  obtain ⟨mode', hmode', hrun⟩ := run_plain outer cs l.mode hmode.2 h
  rw [hmode.1]
  refine ⟨trivial, ⟨mode', []⟩, ?_, congrArg Prod.fst hrun⟩
  rcases hmode' with rfl | rfl <;> simp [inCode]

theorem Fits.run_render {segs : List Segment} (h : Fits segs) : run .start (render segs) = meaning .start segs :=
  Nix.run_render segs .start (h .start List.mem_cons_self []).1

end Nix
