import Ekapkgs.Lib.NixData
import Ekapkgs.Lib.NixRaw

/-!
# Nix functions and sets

A parser for functions, applications, attribute paths, sets, lists, relative paths and
strings with antiquotations. What it has read stands in what it builds, whatever
follows, so a string in an open literal is the text of that literal exactly when it
can stand there without escapes.
-/

namespace Nix

/-! ## Tokens -/

inductive Token where
  | word (cs : List Char)
  | path (cs : List Char)
  | symbol (c : Char)
  /-- A character of the text of a string. -/
  | text (c : Char)
  deriving DecidableEq

theorem word_ne_symbol (cs : List Char) (c : Char) : Token.word cs ≠ .symbol c := nofun

/-- What was read of the next token. -/
inductive Reading where
  | nothing
  | word (cs : List Char)
  | dot
  | path (cs : List Char)
  deriving DecidableEq

def Reading.tokens : Reading → List Token
  | .nothing => []
  | .word cs => [.word cs]
  | .dot => [.symbol '.']
  | .path cs => [.path cs]

def isPathChar (c : Char) : Bool := c.isAlphanum || c = '.' || c = '_' || c = '-' || c = '+'

/-- A character of code between tokens. -/
def beginToken (c : Char) : Reading × List Token :=
  if isWordStart c then (.word [c], [])
  else if c = '.' then (.dot, [])
  else if isSpace c then (.nothing, [])
  else (.nothing, [.symbol c])

def emit (ts : List Token) (r : Reading × List Token) : Reading × List Token := (r.1, ts ++ r.2)

def tokenStep : Reading → Event → Reading × List Token
  | .nothing, .code c => beginToken c
  | .word cs, .code c => if isWordChar c then (.word (cs ++ [c]), []) else emit [.word cs] (beginToken c)
  -- only paths below the directory of the file
  | .dot, .code c => if c = '/' then (.path ['.', '/'], []) else emit [.symbol '.'] (beginToken c)
  | .path cs, .code c => if isPathChar c then (.path (cs ++ [c]), []) else emit [.path cs] (beginToken c)
  | r, .text c => (.nothing, r.tokens ++ [.text c])

def tokenRun : Reading → List Event → Reading × List Token
  | r, [] => (r, [])
  | r, e :: es => emit (tokenStep r e).2 (tokenRun (tokenStep r e).1 es)

theorem tokenRun_append (r : Reading) (es es' : List Event) :
    tokenRun r (es ++ es') = emit (tokenRun r es).2 (tokenRun (tokenRun r es).1 es') := by
  induction es generalizing r with
  | nil => rfl
  | cons e es ih => simp only [List.cons_append, tokenRun, ih, emit, List.append_assoc]

theorem tokenRun_text : ∀ t : List Char, tokenRun .nothing (t.map .text) = (.nothing, t.map .text)
  | [] => rfl
  | c :: t => by
    rw [List.map_cons, tokenRun, tokenStep, tokenRun_text t]
    rfl

/-! ## Terms -/

def isName (cs : List Char) : Bool := cs.head?.any isWordStart && cs.all isWordChar && !keywords.contains cs

/-- A name that can stand after a dot. -/
abbrev Name := { cs : List Char // isName cs = true }

def toName (cs : List Char) : Option Name := if h : isName cs = true then some ⟨cs, h⟩ else none

def nameOf (s : String) (h : isName s.toList = true := by decide) : Name := ⟨s.toList, h⟩

theorem toName_val (n : Name) : toName n.val = some n := dif_pos n.property

mutual

inductive Term where
  /-- A name, and the attributes taken from it. -/
  | path (names : List Name)
  | file (cs : List Char)
  | string (parts : List Part)
  | list (items : List Term)
  | set (binds : List (Name × Term))
  | apply (f x : Term)
  | lambda (x : Name) (body : Term)
  | function (formals : List Name) (body : Term)

inductive Part where
  | char (c : Char)
  | antiquote (e : Term)

end

/-- A string without antiquotations. -/
def Term.literal (s : List Char) : Term := .string (s.map .char)

/-! ## The parser -/

/-- What is open around the term that is read. -/
inductive Open where
  | bind (attr : Name) (binds : List (Name × Term))
  | paren
  | lambda (x : Name)
  | body (formals : List Name)
  | antiquote (parts : List Part)
  | arg (f : Term)
  | item (items : List Term)

/-- What was read of the term, or what is expected. -/
inductive Cursor where
  | operand
  | term (e : Term)
  | path (names : List Name)
  | dotted (names : List Name)
  /-- After an opening brace, which may be of a set or of formals. -/
  | brace
  | braced (x : Name)
  | braces
  | formals (xs : List Name)
  | formal (xs : List Name)
  | closed (xs : List Name)
  | binds (binds : List (Name × Term))
  | attr (attr : Name) (binds : List (Name × Term))
  | items (items : List Term)
  | string (parts : List Part)
  | dollar (parts : List Part)

abbrev Parse := Cursor × List Open

/-- A term that is complete without its arguments. -/
def given (e : Term) : List Open → Parse
  | .arg f :: opens => (.term (.apply f e), opens)
  | .item items :: opens => (.items (items ++ [e]), opens)
  | opens => (.term e, opens)

/-- Functions end where the term around them does. -/
def closing : Term → List Open → Term × List Open
  | e, .lambda x :: opens => closing (.lambda x e) opens
  | e, .body xs :: opens => closing (.function xs e) opens
  | e, opens => (e, opens)

/-- A token where an argument may start. -/
def begins (t : Token) (opens : List Open) : Option Parse :=
  match t with
  | .word cs => if cs = ['o', 'r'] then none else (toName cs).map fun x => (.path [x], opens)
  | .path cs => if 2 < cs.length then some (given (.file cs) opens) else none
  | .symbol c =>
    if c = '\x7b' then some (.binds [], opens)
    else if c = '(' then some (.operand, .paren :: opens)
    else if c = '[' then some (.items [], opens)
    else if c = '"' then some (.string [], opens)
    else none
  | .text _ => none

/-- The end of the innermost term. -/
def ends (c : Char) : Term × List Open → Option Parse
  | (v, .bind attr binds :: opens) => if c = ';' then some (.binds (binds ++ [(attr, v)]), opens) else none
  | (v, .paren :: opens) => if c = ')' then some (given v opens) else none
  | (v, .antiquote parts :: opens) => if c = '\x7d' then some (.string (parts ++ [.antiquote v]), opens) else none
  | _ => none

/-- What was read is all there is of it. -/
def settled : Parse → Parse
  | (.path names, opens) => given (.path names) opens
  | (.braces, opens) => given (.set []) opens
  | st => st

/-- After a term or an item. -/
def continues : Parse → Token → Option Parse
  | (.term e, opens), t =>
    match t with
    | .symbol c => if c = ';' ∨ c = ')' ∨ c = '\x7d' then ends c (closing e opens) else begins t (.arg e :: opens)
    | _ => begins t (.arg e :: opens)
  | (.items items, opens), t => if t = .symbol ']' then some (given (.list items) opens) else begins t (.item items :: opens)
  | _, _ => none

/-- A parameter, where a function may stand. -/
def parameter (names : List Name) (opens : List Open) : Option Parse :=
  match names, opens with
  | _, .arg _ :: _ => none
  | _, .item _ :: _ => none
  | [x], opens => some (.operand, .lambda x :: opens)
  | _, _ => none

def named : Token → Option Name
  | .word cs => toName cs
  | _ => none

/-- In the text of a string. -/
def spells (parts : List Part) (opens : List Open) : Token → Option Parse
  | .text c => some (.string (parts ++ [.char c]), opens)
  | .symbol c => if c = '"' then some (given (.string parts) opens) else if c = '$' then some (.dollar parts, opens) else none
  | _ => none

def advance : Parse → Token → Option Parse
  | (.operand, opens), t => if t = .symbol '\x7b' then some (.brace, opens) else begins t opens
  | (.term e, opens), t => continues (.term e, opens) t
  | (.items items, opens), t => continues (.items items, opens) t
  | (.path names, opens), t =>
    if t = .symbol '.' then some (.dotted names, opens)
    else if t = .symbol ':' then parameter names opens
    else continues (settled (.path names, opens)) t
  | (.dotted names, opens), t => (named t).map fun x => (.path (names ++ [x]), opens)
  | (.brace, opens), t => if t = .symbol '\x7d' then some (.braces, opens) else (named t).map fun x => (.braced x, opens)
  | (.braced x, opens), t =>
    if t = .symbol '=' then some (.operand, .bind x [] :: opens)
    else if t = .symbol ',' then some (.formals [x], opens)
    else if t = .symbol '\x7d' then some (.closed [x], opens)
    else none
  | (.braces, opens), t => if t = .symbol ':' then some (.operand, .body [] :: opens) else continues (settled (.braces, opens)) t
  | (.formals xs, opens), t => if t = .symbol '\x7d' then some (.closed xs, opens) else (named t).map fun x => (.formal (xs ++ [x]), opens)
  | (.formal xs, opens), t =>
    if t = .symbol ',' then some (.formals xs, opens) else if t = .symbol '\x7d' then some (.closed xs, opens) else none
  | (.closed xs, opens), t => if t = .symbol ':' ∧ xs.Nodup then some (.operand, .body xs :: opens) else none
  | (.binds binds, opens), t =>
    if t = .symbol '\x7d' then if (binds.map Prod.fst).Nodup then some (given (.set binds) opens) else none
    else (named t).map fun x => (.attr x binds, opens)
  | (.attr attr binds, opens), t => if t = .symbol '=' then some (.operand, .bind attr binds :: opens) else none
  | (.string parts, opens), t => spells parts opens t
  | (.dollar parts, opens), t => if t = .symbol '\x7b' then some (.operand, .antiquote parts :: opens) else none

/-- The term of a whole text. -/
def whole (st : Parse) : Option Term :=
  match settled st with
  | (.term e, opens) =>
    match closing e opens with
    | (v, []) => some v
    | _ => none
  | _ => none

/-! ## Reading a text -/

structure Reader where
  lexer : Lexer
  reading : Reading
  parse : Parse

def Reader.start : Reader := ⟨.start, .nothing, .operand, []⟩

def Reader.feed (r : Reader) (cs : List Char) : Option Reader :=
  ((tokenRun r.reading (run r.lexer cs).2).2.foldlM advance r.parse).map
    fun st => ⟨(run r.lexer cs).1, (tokenRun r.reading (run r.lexer cs).2).1, st⟩

/-- At the end of a text nothing is open. -/
def Reader.finish (r : Reader) : Option Term :=
  if (r.lexer.mode = .code ∨ r.lexer.mode = .word ∨ r.lexer.mode = .lineComment) ∧ r.lexer.outer = [] then
    (r.reading.tokens.foldlM advance r.parse).bind whole
  else none

/-- The rest of a text, from what was read before it. -/
def Reader.complete (r : Reader) (cs : List Char) : Option Term := (r.feed cs).bind Reader.finish

def parseTerm (text : String) : Option Term := Reader.start.complete text.toList

theorem feed_append (r : Reader) (cs ds : List Char) : r.feed (cs ++ ds) = (r.feed cs).bind (·.feed ds) := by
  unfold Reader.feed
  rw [run_append]
  simp only [after, tokenRun_append, emit, List.foldlM_append]
  cases (tokenRun r.reading (run r.lexer cs).2).2.foldlM advance r.parse <;> rfl

theorem complete_append {r r' : Reader} {cs : List Char} (h : r.feed cs = some r') (ds : List Char) : r.complete (cs ++ ds) = r'.complete ds := by
  unfold Reader.complete
  rw [feed_append, h, Option.bind_some]

/-- Code has the same tokens in any term. -/
theorem feed_eq {l l' : Lexer} {p p' : Reading} {st st' : Parse} {cs : List Char} {ts : List Token}
    (htokens : (run l cs).1 = l' ∧ tokenRun p (run l cs).2 = (p', ts)) (hparse : ts.foldlM advance st = some st') :
    Reader.feed ⟨l, p, st⟩ cs = some ⟨l', p', st'⟩ := by
  unfold Reader.feed
  dsimp only
  rw [htokens.2, htokens.1]
  dsimp only
  rw [hparse]
  rfl

theorem foldlM_then {ts : List Token} {st st' : Parse} (h : ts.foldlM advance st = some st') (ts' : List Token) :
    (ts ++ ts').foldlM advance st = ts'.foldlM advance st' := by
  rw [List.foldlM_append, h]
  rfl

/-- The end of a set without duplicate attributes. -/
theorem foldlM_close {binds : List (Name × Term)} (h : (binds.map Prod.fst).Nodup) {opens : List Open} {token : Token} {st : Parse}
    (hnext : advance (given (.set binds) opens) token = some st) : [Token.symbol '\x7d', token].foldlM advance (.binds binds, opens) = some st := by
  rw [List.foldlM_cons, advance, if_pos rfl, if_pos h]
  exact congrArg (· >>= pure) hnext

/-! ## Names in code -/

theorem step_wordStart (outer : List Mode) {c : Char} (h : isWordStart c = true) : step ⟨.code, outer⟩ c = (⟨.word, outer⟩, [.code c]) := by
  have hne : ∀ {d : Char}, isWordStart d = false → c ≠ d := by
    rintro d hd rfl
    rw [h] at hd
    cases hd
  unfold step codeStep
  dsimp only
  rw [if_neg (hne (by decide)), if_neg (hne (by decide)), if_neg (hne (by decide)), if_neg (hne (by decide)),
    if_neg (hne (by decide)), if_neg (hne (by decide)), if_neg (hne (by decide)), if_pos h]

theorem run_wordChars (outer : List Mode) : ∀ cs : List Char, (∀ c ∈ cs, isWordChar c = true) →
    run ⟨.word, outer⟩ cs = (⟨.word, outer⟩, cs.map .code)
  | [], _ => rfl
  | c :: cs, h => by
    have hstep : step ⟨.word, outer⟩ c = (⟨.word, outer⟩, [.code c]) := by
      unfold step
      dsimp only
      rw [if_pos (h c List.mem_cons_self)]
    rw [run, hstep, run_wordChars outer cs fun d hd => h d (List.mem_cons_of_mem _ hd)]
    rfl

theorem tokenRun_wordChars : ∀ (cs w : List Char), (∀ c ∈ cs, isWordChar c = true) → tokenRun (.word w) (cs.map .code) = (.word (w ++ cs), [])
  | [], w, _ => by
    rw [List.append_nil]
    rfl
  | c :: cs, w, h => by
    rw [List.map_cons, tokenRun, tokenStep, if_pos (h c List.mem_cons_self)]
    dsimp only
    rw [tokenRun_wordChars cs (w ++ [c]) fun d hd => h d (List.mem_cons_of_mem _ hd), List.append_assoc]
    rfl

/-- A name that a comma or a semicolon ends, also after a dot. -/
theorem tokens_name (x : Name) (outer : List Mode) {p : Reading} (hp : p = .nothing ∨ p = .dot) {d : Char} (hd : d = ',' ∨ d = ';') :
    (run ⟨.code, outer⟩ (x.val ++ [d])).1 = ⟨.code, outer⟩ ∧
      tokenRun p (run ⟨.code, outer⟩ (x.val ++ [d])).2 = (.nothing, p.tokens ++ [.word x.val, .symbol d]) := by
  obtain ⟨cs, hname⟩ := x
  cases cs with
  | nil => cases hname
  | cons c cs =>
    obtain ⟨⟨hstart, hchars⟩, -⟩ : (isWordStart c = true ∧ ∀ d ∈ c :: cs, isWordChar d = true) ∧ keywords.contains (c :: cs) = false := by
      simpa only [isName, List.head?_cons, Option.any_some, Bool.and_eq_true, List.all_eq_true, Bool.not_eq_true'] using hname
    have hrest : ∀ d ∈ cs, isWordChar d = true := fun d hd => hchars d (List.mem_cons_of_mem _ hd)
    have hdelimiter : run ⟨.word, outer⟩ [d] = (⟨.code, outer⟩, [.code d]) := by rcases hd with rfl | rfl <;> rfl
    have hrun : run ⟨.code, outer⟩ ((c :: cs) ++ [d]) = (⟨.code, outer⟩, .code c :: (cs.map .code ++ [.code d])) := by
      rw [List.cons_append, run, step_wordStart outer hstart, run_append, run_wordChars outer cs hrest, hdelimiter]
      rfl
    have hbegin : beginToken c = (.word [c], []) := if_pos hstart
    have hslash : c ≠ '/' := by
      rintro rfl
      exact absurd hstart (by decide)
    have hfirst : tokenStep p (.code c) = (.word [c], p.tokens) := by
      rcases hp with rfl | rfl
      · rw [tokenStep, hbegin]
        rfl
      · rw [tokenStep, if_neg hslash, hbegin]
        rfl
    have hend : tokenRun (.word (c :: cs)) [.code d] = (.nothing, [.word (c :: cs), .symbol d]) := by rcases hd with rfl | rfl <;> rfl
    dsimp only
    rw [hrun]
    refine ⟨rfl, ?_⟩
    dsimp only
    rw [tokenRun, hfirst, tokenRun_append, tokenRun_wordChars cs [c] hrest]
    dsimp only
    rw [List.singleton_append, hend]
    rfl

/-! ## What stands in a term -/

/-- The term with arguments. -/
inductive Grown (e : Term) : Term → Prop where
  | refl : Grown e e
  | apply {v : Term} (x : Term) : Grown e v → Grown e (.apply v x)

theorem Grown.of_apply {e x v : Term} (h : Grown (.apply e x) v) : Grown e v := by
  induction h with
  | refl => exact .apply x .refl
  | apply y _ ih => exact .apply y ih

/-- In the whole term, the first one stands where these are open around it. -/
def Hole : List Open → Term → Term → Prop
  | [], v, t => v = t
  | .bind attr binds :: opens, v, t =>
    ∃ more w, ((binds ++ (attr, v) :: more).map Prod.fst).Nodup ∧ Grown (.set (binds ++ (attr, v) :: more)) w ∧ Hole opens w t
  | .paren :: opens, v, t => ∃ w, Grown v w ∧ Hole opens w t
  | .lambda x :: opens, v, t => Hole opens (.lambda x v) t
  | .body xs :: opens, v, t => Hole opens (.function xs v) t
  | .antiquote parts :: opens, v, t => ∃ more w, Grown (.string (parts ++ .antiquote v :: more)) w ∧ Hole opens w t
  | .arg f :: opens, v, t => ∃ w, Grown (.apply f v) w ∧ Hole opens w t
  | .item items :: opens, v, t => ∃ more w, Grown (.list (items ++ v :: more)) w ∧ Hole opens w t

/-- The whole term has what was read of it. -/
def Stands : Parse → Term → Prop
  | (.term e, opens), t => ∃ v, Grown e v ∧ Hole opens v t
  | (.binds binds, opens), t =>
    ∃ more v, ((binds ++ more).map Prod.fst).Nodup ∧ Grown (.set (binds ++ more)) v ∧ Hole opens v t
  | (.attr attr binds, opens), t => ∃ v, Hole (.bind attr binds :: opens) v t
  | (.items items, opens), t => ∃ more v, Grown (.list (items ++ more)) v ∧ Hole opens v t
  | (.string parts, opens), t => ∃ more v, Grown (.string (parts ++ more)) v ∧ Hole opens v t
  | (.dollar parts, opens), t => ∃ more v, Grown (.string (parts ++ more)) v ∧ Hole opens v t
  | (_, opens), t => ∃ v, Hole opens v t

theorem stands_given {e t : Term} {opens : List Open} (h : Stands (given e opens) t) : ∃ v, Grown e v ∧ Hole opens v t := by
  cases opens with
  | nil => exact h
  | cons top opens =>
    cases top with
    | arg f =>
      obtain ⟨w, hgrown, hhole⟩ := h
      exact ⟨e, .refl, w, hgrown, hhole⟩
    | item items =>
      obtain ⟨more, w, hgrown, hhole⟩ := h
      exact ⟨e, .refl, more, w, by rwa [List.append_assoc] at hgrown, hhole⟩
    | _ => exact h

theorem hole_closing {t : Term} : ∀ (opens : List Open) (e : Term), Hole (closing e opens).2 (closing e opens).1 t → Hole opens e t
  | [], _, h => h
  | .lambda x :: opens, e, h => hole_closing opens (.lambda x e) h
  | .body xs :: opens, e, h => hole_closing opens (.function xs e) h
  | .bind _ _ :: _, _, h => h
  | .paren :: _, _, h => h
  | .antiquote _ :: _, _, h => h
  | .arg _ :: _, _, h => h
  | .item _ :: _, _, h => h

/-- Something stands where a term is begun. -/
theorem stands_begins {t : Term} {token : Token} {opens : List Open} {st : Parse} (h : begins token opens = some st) (hstands : Stands st t) :
    ∃ v, Hole opens v t := by
  have hgiven : ∀ {e : Term}, Stands (given e opens) t → ∃ v, Hole opens v t := by
    intro e hstands
    obtain ⟨v, -, hhole⟩ := stands_given hstands
    exact ⟨v, hhole⟩
  cases token with
  | word cs =>
    rw [begins] at h
    split at h
    · cases h
    · obtain ⟨x, -, rfl⟩ := Option.map_eq_some_iff.mp h
      exact hstands
  | path cs =>
    rw [begins] at h
    split at h
    · cases h
      exact hgiven hstands
    · cases h
  | symbol c =>
    rw [begins] at h
    split_ifs at h <;> cases h
    · obtain ⟨_, v, -, -, hhole⟩ := hstands
      exact ⟨v, hhole⟩
    · obtain ⟨_, v, -, hhole⟩ := hstands
      exact ⟨v, hhole⟩
    · obtain ⟨_, v, -, hhole⟩ := hstands
      exact ⟨v, hhole⟩
    · obtain ⟨_, v, -, hhole⟩ := hstands
      exact ⟨v, hhole⟩
  | text c => cases h

theorem stands_ends {t : Term} {c : Char} : ∀ {r : Term × List Open} {st : Parse}, ends c r = some st → Stands st t → Hole r.2 r.1 t
  | (v, .bind attr binds :: opens), st, h, hstands => by
    rw [ends] at h
    split at h
    · cases h
      obtain ⟨more, w, hnodup, hgrown, hhole⟩ := hstands
      rw [List.append_assoc] at hnodup hgrown
      exact ⟨more, w, hnodup, hgrown, hhole⟩
    · cases h
  | (v, .paren :: opens), st, h, hstands => by
    rw [ends] at h
    split at h
    · cases h
      exact stands_given hstands
    · cases h
  | (v, .antiquote parts :: opens), st, h, hstands => by
    rw [ends] at h
    split at h
    · cases h
      obtain ⟨more, w, hgrown, hhole⟩ := hstands
      rw [List.append_assoc] at hgrown
      exact ⟨more, w, hgrown, hhole⟩
    · cases h
  | (_, []), _, h, _ => nomatch h
  | (_, .lambda _ :: _), _, h, _ => nomatch h
  | (_, .body _ :: _), _, h, _ => nomatch h
  | (_, .arg _ :: _), _, h, _ => nomatch h
  | (_, .item _ :: _), _, h, _ => nomatch h

theorem stands_settled {t : Term} {st : Parse} (h : Stands (settled st) t) : Stands st t := by
  obtain ⟨cursor, opens⟩ := st
  cases cursor with
  | path names | braces =>
    obtain ⟨v, -, hhole⟩ := stands_given h
    exact ⟨v, hhole⟩
  | _ => exact h

theorem stands_continues {t : Term} {st st' : Parse} {token : Token} (h : continues st token = some st') (hstands : Stands st' t) :
    Stands st t := by
  obtain ⟨cursor, opens⟩ := st
  cases cursor with
  | term e =>
    have harg : begins token (.arg e :: opens) = some st' → Stands (.term e, opens) t := by
      intro h
      obtain ⟨x, w, hgrown, hhole⟩ := stands_begins h hstands
      exact ⟨w, hgrown.of_apply, hhole⟩
    cases token with
    | symbol c =>
      rw [continues] at h
      split at h
      · exact ⟨e, .refl, hole_closing _ _ (stands_ends h hstands)⟩
      · exact harg h
    | _ => exact harg h
  | items items =>
    rw [continues] at h
    split at h
    · cases h
      obtain ⟨v, hgrown, hhole⟩ := stands_given hstands
      exact ⟨[], v, by rwa [List.append_nil], hhole⟩
    · obtain ⟨x, more, w, hgrown, hhole⟩ := stands_begins h hstands
      exact ⟨x :: more, w, hgrown, hhole⟩
  | _ => cases h

theorem stands_spells {t : Term} {parts : List Part} {opens : List Open} {token : Token} {st : Parse}
    (h : spells parts opens token = some st) (hstands : Stands st t) : Stands (.string parts, opens) t := by
  cases token with
  | text c =>
    cases h
    obtain ⟨more, v, hgrown, hhole⟩ := hstands
    exact ⟨.char c :: more, v, by rwa [List.append_assoc] at hgrown, hhole⟩
  | symbol c =>
    rw [spells] at h
    split_ifs at h <;> cases h
    · obtain ⟨v, hgrown, hhole⟩ := stands_given hstands
      exact ⟨[], v, by rwa [List.append_nil], hhole⟩
    · exact hstands
  | _ => cases h

theorem stands_parameter {t : Term} {names : List Name} {opens : List Open} {st : Parse} (h : parameter names opens = some st)
    (hstands : Stands st t) : ∃ v, Hole opens v t := by
  unfold parameter at h
  split at h
  · cases h
  · cases h
  · cases h
    obtain ⟨v, hhole⟩ := hstands
    exact ⟨_, hhole⟩
  · cases h

/-- A token takes nothing away. -/
theorem stands_advance {t : Term} {st st' : Parse} {token : Token} (h : advance st token = some st') (hstands : Stands st' t) :
    Stands st t := by
  obtain ⟨cursor, opens⟩ := st
  cases cursor with
  | operand =>
    rw [advance] at h
    split at h
    · cases h
      exact hstands
    · exact stands_begins h hstands
  | term e | items items => exact stands_continues h hstands
  | path names =>
    rw [advance] at h
    split_ifs at h
    · cases h
      exact hstands
    · exact stands_parameter h hstands
    · exact stands_settled (stands_continues h hstands)
  | dotted names =>
    obtain ⟨x, -, rfl⟩ := Option.map_eq_some_iff.mp h
    exact hstands
  | brace | formals xs =>
    rw [advance] at h
    split at h
    · cases h
      exact hstands
    · obtain ⟨x, -, rfl⟩ := Option.map_eq_some_iff.mp h
      exact hstands
  | braced x =>
    rw [advance] at h
    split_ifs at h <;> cases h
    · obtain ⟨v, more, w, -, -, hhole⟩ := hstands
      exact ⟨w, hhole⟩
    · exact hstands
    · exact hstands
  | braces =>
    rw [advance] at h
    split at h
    · cases h
      obtain ⟨v, hhole⟩ := hstands
      exact ⟨_, hhole⟩
    · exact stands_settled (stands_continues h hstands)
  | formal xs =>
    rw [advance] at h
    split_ifs at h <;> cases h
    · exact hstands
    · exact hstands
  | closed xs =>
    rw [advance] at h
    split at h
    · cases h
      obtain ⟨v, hhole⟩ := hstands
      exact ⟨_, hhole⟩
    · cases h
  | binds binds =>
    rw [advance] at h
    split_ifs at h with hbrace hnodup
    · cases h
      obtain ⟨v, hgrown, hhole⟩ := stands_given hstands
      exact ⟨[], v, by rwa [List.append_nil], by rwa [List.append_nil], hhole⟩
    · obtain ⟨x, -, rfl⟩ := Option.map_eq_some_iff.mp h
      obtain ⟨v, more, w, hnodup, hgrown, hhole⟩ := hstands
      exact ⟨_, w, hnodup, hgrown, hhole⟩
  | attr attr binds =>
    rw [advance] at h
    split at h
    · cases h
      exact hstands
    · cases h
  | string parts => exact stands_spells h hstands
  | dollar parts =>
    rw [advance] at h
    split at h
    · cases h
      obtain ⟨v, more, w, hgrown, hhole⟩ := hstands
      exact ⟨_, w, hgrown, hhole⟩
    · cases h

theorem stands_foldlM {t : Term} : ∀ {ts : List Token} {st st' : Parse}, ts.foldlM advance st = some st' → Stands st' t → Stands st t
  | [], _, _, h, hstands => by
    cases h
    exact hstands
  | token :: ts, st, st', h, hstands => by
    rw [List.foldlM_cons] at h
    obtain ⟨st'', hstep, h⟩ := Option.bind_eq_some_iff.mp h
    exact stands_advance hstep (stands_foldlM h hstands)

theorem stands_whole {t : Term} {st : Parse} (h : whole st = some t) : Stands st t := by
  refine stands_settled ?_
  unfold whole at h
  split at h
  · next e opens heq =>
    rw [heq]
    split at h
    · next v hclosing =>
      cases h
      exact ⟨e, .refl, hole_closing _ _ (by rw [hclosing]; rfl)⟩
    · cases h
  · cases h

/-- What was read stands in the whole term. -/
theorem stands_complete {t : Term} {r : Reader} {cs : List Char} (h : r.complete cs = some t) : Stands r.parse t := by
  obtain ⟨r', hfeed, hfinish⟩ := Option.bind_eq_some_iff.mp h
  obtain ⟨st, hparse, rfl⟩ := Option.map_eq_some_iff.mp hfeed
  unfold Reader.finish at hfinish
  split at hfinish
  · obtain ⟨st', htokens, hwhole⟩ := Option.bind_eq_some_iff.mp hfinish
    exact stands_foldlM hparse (stands_foldlM htokens (stands_whole hwhole))
  · cases hfinish

/-! ## Strings in open literals -/

theorem Grown.eq_of_string {parts : List Part} {s : List Char} (h : Grown (.string parts) (.literal s)) : parts = s.map .char := by
  cases h with
  | refl => rfl

theorem map_char_inj {s t : List Char} (h : s.map Part.char = t.map Part.char) : s = t :=
  List.map_injective_iff.mpr (fun _ _ heq => Part.char.inj heq) h

theorem foldlM_text (opens : List Open) : ∀ (t : List Char) (parts : List Part),
    (t.map Token.text).foldlM advance (.string parts, opens) = some (.string (parts ++ t.map .char), opens)
  | [], parts => by
    rw [List.map_nil, List.map_nil, List.append_nil]
    rfl
  | c :: t, parts => by
    rw [List.map_cons, List.foldlM_cons, List.map_cons, List.append_cons]
    exact foldlM_text opens t (parts ++ [.char c])

/-- In the text of a literal with this much of it read. -/
def Reader.spelling (m : Mode) (outer : List Mode) (opens : List Open) (s : List Char) : Reader :=
  ⟨⟨m, outer⟩, .nothing, .string (s.map .char), opens⟩

theorem feed_text {m m' : Mode} {outer : List Mode} {c : Char} {t : List Char} (hstep : step ⟨m, outer⟩ c = (⟨m', outer⟩, t.map .text))
    (opens : List Open) (s : List Char) : (Reader.spelling m outer opens s).feed [c] = some (.spelling m' outer opens (s ++ t)) := by
  have hparse := foldlM_text opens t (s.map .char)
  rw [← List.map_append] at hparse
  refine feed_eq ⟨?_, ?_⟩ hparse
  · rw [run, hstep]
    rfl
  · rw [run, hstep]
    simp only [after, run, List.append_nil]
    exact tokenRun_text t

theorem tokenRun_literalText (t : List Char) : tokenRun .nothing (literalText t) = (.nothing, t.map Token.text ++ [Token.symbol '"']) := by
  rw [literalText, tokenRun_append, tokenRun_text]
  rfl

theorem foldlM_closed (opens : List Open) (s t : List Char) :
    (t.map Token.text ++ [Token.symbol '"']).foldlM advance (.string (s.map .char), opens) = some (given (.literal (s ++ t)) opens) := by
  have hquote : ∀ parts, [Token.symbol '"'].foldlM advance (.string parts, opens) = some (given (.string parts) opens) := fun _ => rfl
  rw [List.foldlM_append, foldlM_text, ← List.map_append]
  exact hquote _

theorem feed_closed {m : Mode} {outer : List Mode} {c : Char} {t : List Char} (hstep : step ⟨m, outer⟩ c = (⟨.code, outer⟩, literalText t))
    (opens : List Open) (s : List Char) :
    (Reader.spelling m outer opens s).feed [c] = some ⟨⟨.code, outer⟩, .nothing, given (.literal (s ++ t)) opens⟩ := by
  refine feed_eq ⟨?_, ?_⟩ (foldlM_closed opens s t)
  · rw [run, hstep]
    rfl
  · rw [run, hstep]
    simp only [after, run, List.append_nil]
    exact tokenRun_literalText t

/-- If what stands there in the end is this text, the literal closes with it. -/
theorem closes_of_complete {t : Term} {outer : List Mode} {opens : List Open} {full : List Char} (hforced : ∀ v, Hole opens v t → v = .literal full) :
    ∀ (cs : List Char) {m : Mode} {read s : List Char}, m.isLiteral = true → full = read ++ s →
      (Reader.spelling m outer opens read).complete cs = some t → ∃ u rest, cs = u ++ '"' :: rest ∧ Closes outer m u s
  | [], m, read, s, hm, _, h => by
    obtain ⟨r', hfeed, hfinish⟩ := Option.bind_eq_some_iff.mp h
    cases hfeed
    unfold Reader.finish at hfinish
    split at hfinish
    · next hend =>
      obtain ⟨hmode, -⟩ := hend
      have hmode : m = .code ∨ m = .word ∨ m = .lineComment := hmode
      rcases hmode with rfl | rfl | rfl <;> cases hm
    · cases hfinish
  | c :: cs, m, read, s, hm, hfull, h => by
    have hsplit : c :: cs = [c] ++ cs := rfl
    rcases literal_step hm outer c with ⟨m', text, hm', hstep, hlength, hcount⟩ | ⟨rfl, text, hstep, hlength⟩ | hstep
    · rw [hsplit, complete_append (feed_text hstep opens read)] at h
      obtain ⟨more, v, hgrown, hhole⟩ := stands_complete h
      obtain rfl := hforced v hhole
      have hparts := hgrown.eq_of_string
      rw [hfull, List.map_append, List.map_append, List.append_assoc] at hparts
      obtain ⟨text', s', rfl, htext, -⟩ := List.map_eq_append_iff.mp (List.append_cancel_left hparts).symm
      obtain rfl := map_char_inj htext
      obtain ⟨u, rest, rfl, hcloses⟩ := closes_of_complete hforced cs hm' (by rw [hfull, List.append_assoc]) h
      exact ⟨c :: u, rest, rfl, .text hstep hlength hcount hcloses⟩
    · rw [hsplit, complete_append (feed_closed hstep opens read)] at h
      obtain ⟨v, hgrown, hhole⟩ := stands_given (stands_complete h)
      obtain rfl := hforced v hhole
      have htext := map_char_inj hgrown.eq_of_string
      rw [hfull] at htext
      obtain rfl := List.append_cancel_left htext
      exact ⟨[], cs, rfl, .quote hstep hlength⟩
    · have hfeed : (Reader.spelling m outer opens read).feed [c] =
          some ⟨⟨.code, .string :: outer⟩, .nothing, .operand, .antiquote (read.map .char) :: opens⟩ := by
        have hparse : [Token.symbol '$', .symbol '\x7b'].foldlM advance (.string (read.map .char), opens) =
            some (.operand, .antiquote (read.map .char) :: opens) := rfl
        refine feed_eq ⟨?_, ?_⟩ hparse
        · rw [run, hstep]
          rfl
        · rw [run, hstep]
          rfl
      rw [hsplit, complete_append hfeed] at h
      obtain ⟨e, more, v, hgrown, hhole⟩ := stands_complete h
      obtain rfl := hforced v hhole
      have hmem : Part.antiquote e ∈ full.map Part.char := by
        rw [← hgrown.eq_of_string]
        exact List.mem_append_right _ List.mem_cons_self
      obtain ⟨d, -, hd⟩ := List.mem_map.mp hmem
      cases hd

/-- A text that stands in the whole term needs no escapes. -/
theorem raw_of_complete {t : Term} {outer : List Mode} {opens : List Open} {s rest : List Char} (hforced : ∀ v, Hole opens v t → v = .literal s)
    (h : (Reader.spelling .string outer opens []).complete (s ++ '"' :: rest) = some t) : isRaw s = true := by
  obtain ⟨u, rest', heq, hcloses⟩ := closes_of_complete hforced _ rfl rfl h
  obtain rfl := hcloses.eq heq
  exact isRaw_of_closes u hcloses

theorem feed_raw {s : List Char} (h : isRaw s = true) (outer : List Mode) (opens : List Open) :
    (Reader.spelling .string outer opens []).feed (s ++ ['"']) = some ⟨⟨.code, outer⟩, .nothing, given (.literal s) opens⟩ := by
  refine feed_eq ⟨?_, ?_⟩ (foldlM_closed opens [] s)
  · rw [run_raw outer s h]
  · rw [run_raw outer s h]
    exact tokenRun_literalText s

/-! ## Texts with strings put into them -/

/-- What has been read before the text and after it, if each of these strings, put
where so much is open, is the text of a literal. -/
inductive Reads : Reader → List Char → Reader → List (List Open × List Char) → Prop where
  | code {r r' : Reader} {cs : List Char} : r.feed cs = some r' → Reads r cs r' []
  | user (s : List Char) (outer : List Mode) (opens : List Open) :
    Reads (.spelling .string outer opens []) (s ++ ['"']) ⟨⟨.code, outer⟩, .nothing, given (.literal s) opens⟩ [(opens, s)]
  | append {r r' r'' : Reader} {cs ds : List Char} {holes holes' : List (List Open × List Char)} :
    Reads r cs r' holes → Reads r' ds r'' holes' → Reads r (cs ++ ds) r'' (holes ++ holes')

theorem Reads.feed {r r' : Reader} {cs : List Char} {holes : List (List Open × List Char)} (h : Reads r cs r' holes)
    (hraw : ∀ hole ∈ holes, isRaw hole.2 = true) : r.feed cs = some r' := by
  induction h with
  | code h => exact h
  | user s outer opens => exact feed_raw (hraw (opens, s) List.mem_cons_self) outer opens
  | append _ _ ih ih' =>
    rw [feed_append, ih fun hole hmem => hraw hole (List.mem_append_left _ hmem), Option.bind_some]
    exact ih' fun hole hmem => hraw hole (List.mem_append_right _ hmem)

/-- Strings that stand in the whole term need no escapes. -/
theorem Reads.raw {t : Term} {r r' : Reader} {cs : List Char} {holes : List (List Open × List Char)} (h : Reads r cs r' holes)
    (hforced : ∀ hole ∈ holes, isRaw hole.2 = true ∨ ∀ v, Hole hole.1 v t → v = .literal hole.2) :
    ∀ {rest : List Char}, r.complete (cs ++ rest) = some t → ∀ hole ∈ holes, isRaw hole.2 = true := by
  induction h with
  | code _ => exact fun _ _ hmem => nomatch hmem
  | user s outer opens =>
    intro rest hcomplete hole hmem
    rcases hforced hole hmem with hraw | hforced
    · exact hraw
    · obtain rfl := List.mem_singleton.mp hmem
      rw [List.append_assoc] at hcomplete
      exact raw_of_complete hforced hcomplete
  | append hreads _ ih ih' =>
    intro rest hcomplete
    rw [List.append_assoc] at hcomplete
    have hleft := ih (fun hole hmem => hforced hole (List.mem_append_left _ hmem)) hcomplete
    rw [complete_append (hreads.feed hleft)] at hcomplete
    have hright := ih' (fun hole hmem => hforced hole (List.mem_append_right _ hmem)) hcomplete
    intro hole hmem
    rcases List.mem_append.mp hmem with hmem | hmem
    · exact hleft hole hmem
    · exact hright hole hmem

/-- Code between strings. -/
theorem Reads.tokens {l l' : Lexer} {p p' : Reading} {st st' : Parse} {cs : List Char} (ts : List Token)
    (htokens : (run l cs).1 = l' ∧ tokenRun p (run l cs).2 = (p', ts)) (hparse : ts.foldlM advance st = some st') :
    Reads ⟨l, p, st⟩ cs ⟨l', p', st'⟩ [] := .code (feed_eq htokens hparse)

theorem Reads.name {outer : List Mode} {p : Reading} (hp : p = .nothing ∨ p = .dot) (x : Name) {d : Char} (hd : d = ',' ∨ d = ';')
    {st st' : Parse} (hparse : (p.tokens ++ [Token.word x.val, Token.symbol d]).foldlM advance st = some st') :
    Reads ⟨⟨.code, outer⟩, p, st⟩ (x.val ++ [d]) ⟨⟨.code, outer⟩, .nothing, st'⟩ [] := .tokens _ (tokens_name x outer hp hd) hparse

/-- A list of formals, each after a blank and before a comma. -/
theorem Reads.formals {outer : List Mode} {opens : List Open} {blank : List Char}
    (hblank : (run ⟨.code, outer⟩ blank).1 = ⟨.code, outer⟩ ∧ tokenRun .nothing (run ⟨.code, outer⟩ blank).2 = (.nothing, [])) :
    ∀ xs done : List Name, Reads ⟨⟨.code, outer⟩, .nothing, .formals done, opens⟩ (xs.flatMap fun x => blank ++ (x.val ++ [',']))
      ⟨⟨.code, outer⟩, .nothing, .formals (done ++ xs), opens⟩ []
  | [], done => by
    rw [List.append_nil]
    exact .tokens [] ⟨rfl, rfl⟩ rfl
  | x :: xs, done => by
    have hdone : done ++ x :: xs = done ++ [x] ++ xs := List.append_cons done x xs
    rw [List.flatMap_cons, hdone]
    have hname : [Token.word x.val, .symbol ','].foldlM advance (.formals done, opens) = some (.formals (done ++ [x]), opens) := by
      rw [List.foldlM_cons, advance, if_neg (word_ne_symbol _ _), named, toName_val]
      rfl
    have hspace : Reads ⟨⟨.code, outer⟩, .nothing, .formals done, opens⟩ blank ⟨⟨.code, outer⟩, .nothing, .formals done, opens⟩ [] :=
      .tokens [] hblank rfl
    exact (hspace.append (.name (.inl rfl) x (.inl rfl) hname)).append (Reads.formals hblank xs (done ++ [x]))

end Nix
