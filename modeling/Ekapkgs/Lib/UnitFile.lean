import Mathlib

/-!
# Unit files

The grammar of a unit file: a line that ends in a backslash goes on in the next one
that is not a comment, and the lines so joined are section headers and assignments.
A header that is not closed refuses the file.
-/

namespace UnitFile

/-! ## The reader -/

def isBlank (c : Char) : Bool := c = ' ' || c = '\t'

def dropBlank (l : List Char) : List Char := l.dropWhile isBlank

def dropBlankEnd (l : List Char) : List Char := (dropBlank l.reverse).reverse

def strip (l : List Char) : List Char := dropBlankEnd (dropBlank l)

def isComment (l : List Char) : Bool := l.head? = some '#' || l.head? = some ';'

/-- The last backslash of the line is not escaped by one before it. -/
def continues (l : List Char) : Bool := (l.reverse.takeWhile fun c => c = '\\').length % 2 = 1

/-- What is held goes before the next line, a blank in place of its backslash. -/
def joinLines : Option (List Char) → List (List Char) → List (List Char)
  | held, [] => held.toList
  | held, l :: ls =>
    if isComment (dropBlank l) then joinLines held ls
    else
      let joined := held.getD [] ++ dropBlank l
      if continues joined then joinLines (some (joined.dropLast ++ [' '])) ls else joined :: joinLines none ls

structure Assignment where
  inSection : String
  key : String
  value : String
  deriving DecidableEq

structure Reader where
  current : Option String
  said : List Assignment
  deriving DecidableEq

/-- A line that is no unit file's, and what was said before it. -/
structure Refused where
  line : String
  said : List Assignment
  deriving DecidableEq

/-- A line without an equals sign, or outside of the sections, is passed over. -/
def assign (r : Reader) (l : List Char) : Reader :=
  match l.dropWhile (· ≠ '='), r.current with
  | _ :: value, some current =>
    { r with said := r.said ++ [⟨current, String.ofList (dropBlankEnd (l.takeWhile (· ≠ '='))), String.ofList (strip value)⟩] }
  | _, _ => r

def readLine (r : Reader) (line : List Char) : Except Refused Reader :=
  let l := dropBlank line
  if l = [] || isComment l then .ok r
  else if l.head? = some '[' then
    let header := dropBlankEnd l
    if header.getLast? = some ']' then .ok { r with current := some (String.ofList (header.drop 1).dropLast) }
    else .error ⟨String.ofList header, r.said⟩
  else .ok (assign r l)

def readLines (ls : List (List Char)) : Except Refused Reader := (joinLines none ls).foldlM readLine ⟨none, []⟩

def read (text : String) : Except Refused (List Assignment) := (readLines (text.toList.splitOn '\n')).map Reader.said

/-! ## Lines -/

theorem continues_concat_slash (l : List Char) : continues (l ++ ['\\']) = !continues l := by
  unfold continues
  rw [List.reverse_append, List.reverse_singleton, List.singleton_append, List.takeWhile_cons_of_pos (by simp), List.length_cons,
    ← decide_not, decide_eq_decide]
  omega

theorem continues_of_getLast? {l : List Char} (h : l.getLast? ≠ some '\\') : continues l = false := by
  unfold continues
  rw [← List.head?_reverse] at h
  cases hl : l.reverse with
  | nil => rfl
  | cons c cs =>
    rw [hl] at h
    have hc : c ≠ '\\' := by simpa using h
    simp [hc]

theorem continues_append_cons {c : Char} (l : List Char) (hc : c ≠ '\\') {m : List Char} (h : m.getLast? ≠ some '\\') :
    continues (l ++ c :: m) = false := by
  refine continues_of_getLast? ?_
  rw [List.getLast?_append, List.getLast?_cons]
  cases hlast : m.getLast? with
  | none => simpa using hc
  | some d => simpa [hlast] using h

/-- What is held ends in a blank. -/
def Held (held : Option (List Char)) : Prop := ∀ l ∈ held, continues l = false

theorem held_none : Held none := nofun

theorem held_dropLast (l : List Char) : Held (some (l.dropLast ++ [' '])) := by
  intro l' hl'
  obtain rfl := Option.some.inj hl'
  exact continues_append_cons _ (by decide) nofun

/-- An empty line ends what is held. -/
theorem joinLines_cut (ms : List (List Char)) : ∀ (ls : List (List Char)) {held : Option (List Char)}, Held held →
    joinLines held (ls ++ [] :: ms) = joinLines held (ls ++ [[]]) ++ joinLines none ms
  | [], held, hheld => by
    have hends : continues (held.getD [] ++ dropBlank []) = false := by
      rw [dropBlank, List.dropWhile_nil, List.append_nil]
      cases held with
      | none => rfl
      | some l => exact hheld l rfl
    have hcomment : ¬ isComment (dropBlank []) = true := by decide
    simp only [List.nil_append, joinLines, if_neg hcomment, hends, Bool.false_eq_true, if_false, Option.toList_none, List.cons_append]
  | l :: ls, held, hheld => by
    simp only [List.cons_append, joinLines]
    split_ifs
    · exact joinLines_cut ms ls hheld
    · exact joinLines_cut ms ls (held_dropLast _)
    · rw [joinLines_cut ms ls held_none, List.cons_append]

theorem joinLines_line {l : List Char} (hdrop : dropBlank l = l) (hcomment : isComment l = false) (hends : continues l = false)
    (ls : List (List Char)) : joinLines none (l :: ls) = l :: joinLines none ls := by
  simp [joinLines, hdrop, hcomment, hends]

/-- A line that goes on in the next one. -/
theorem joinLines_held {l m : List Char} (hcomment : isComment (dropBlank (l ++ ['\\'])) = false) (hdrop : dropBlank (l ++ ['\\']) = l ++ ['\\'])
    (hends : continues l = false) (hm : isComment (dropBlank m) = false) (hlast : continues (l ++ [' '] ++ dropBlank m) = false)
    (ls : List (List Char)) : joinLines none ((l ++ ['\\']) :: m :: ls) = (l ++ [' '] ++ dropBlank m) :: joinLines none ls := by
  have hgoes : continues (l ++ ['\\']) = true := by rw [continues_concat_slash, hends]; rfl
  rw [hdrop] at hcomment
  simp only [joinLines, hdrop, hcomment, hm, Option.getD_none, Option.getD_some, List.nil_append, hgoes, List.dropLast_concat, hlast,
    Bool.false_eq_true, if_false, if_true]

/-! ## Assignments -/

/-- A key that stands at the start of its line. -/
def isKey (key : List Char) : Bool :=
  key ≠ [] && dropBlank key = key && dropBlankEnd key = key && !isComment key && key.head? ≠ some '[' && !key.contains '='

theorem dropBlank_key {key : List Char} (hkey : isKey key = true) (rest : List Char) : dropBlank (key ++ rest) = key ++ rest := by
  cases key with
  | nil => cases hkey
  | cons c key =>
    simp only [isKey, Bool.and_eq_true, decide_eq_true_eq] at hkey
    obtain ⟨⟨⟨⟨⟨-, hdrop⟩, -⟩, -⟩, -⟩, -⟩ := hkey
    have hblank : isBlank c = false := by
      by_contra h
      rw [dropBlank, List.dropWhile_cons_of_pos (by simpa using h)] at hdrop
      have hlength : (key.dropWhile isBlank).length ≤ key.length := (List.dropWhile_suffix isBlank).length_le
      rw [hdrop] at hlength
      simp at hlength
    rw [dropBlank, List.cons_append, List.dropWhile_cons_of_neg (by simp [hblank])]

theorem isComment_key {key : List Char} (hkey : isKey key = true) (rest : List Char) : isComment (key ++ rest) = false := by
  cases key with
  | nil => cases hkey
  | cons c key =>
    simp only [isKey, Bool.and_eq_true, Bool.not_eq_true'] at hkey
    exact hkey.1.1.2

theorem readLine_assign {key : List Char} (hkey : isKey key = true) (current : String) (said : List Assignment) (value : List Char) :
    readLine ⟨some current, said⟩ (key ++ '=' :: value) =
      .ok ⟨some current, said ++ [⟨current, String.ofList key, String.ofList (strip value)⟩]⟩ := by
  have hline := dropBlank_key hkey ('=' :: value)
  have hcomment := isComment_key hkey ('=' :: value)
  simp only [isKey, Bool.and_eq_true, decide_eq_true_eq, Bool.not_eq_true', List.contains_eq_mem, decide_eq_false_iff_not] at hkey
  obtain ⟨⟨⟨⟨⟨hne, -⟩, hend⟩, -⟩, hopen⟩, hequals⟩ := hkey
  have hall : ∀ d ∈ key, (decide (d ≠ '=')) = true := by
    intro d hd
    simp only [decide_eq_true_eq]
    rintro rfl
    exact hequals hd
  have htake : (key ++ '=' :: value).takeWhile (· ≠ '=') = key := by
    rw [List.takeWhile_append_of_pos hall, List.takeWhile_cons_of_neg (by simp), List.append_nil]
  have hrest : (key ++ '=' :: value).dropWhile (· ≠ '=') = '=' :: value := by
    rw [List.dropWhile_append_of_pos hall, List.dropWhile_cons_of_neg (by simp)]
  have hhead : (key ++ '=' :: value).head? ≠ some '[' := by
    cases key with
    | nil => exact absurd rfl hne
    | cons c key => exact hopen
  unfold readLine assign
  simp only [hline, htake, hrest, hend, hcomment, hhead, if_false]
  simp

theorem joinLines_assign {key value : List Char} (hkey : isKey key = true) (hvalue : value.getLast? ≠ some '\\') (ls : List (List Char)) :
    joinLines none ((key ++ '=' :: value) :: ls) = (key ++ '=' :: value) :: joinLines none ls :=
  joinLines_line (dropBlank_key hkey _) (isComment_key hkey _) (continues_append_cons key (by decide) hvalue) ls

/-- The next line becomes part of the value. -/
theorem joinLines_assign_held {key value m : List Char} (hkey : isKey key = true) (hvalue : value.getLast? ≠ some '\\')
    (hm : isComment (dropBlank m) = false) (hslash : (dropBlank m).getLast? ≠ some '\\') (ls : List (List Char)) :
    joinLines none ((key ++ '=' :: (value ++ ['\\'])) :: m :: ls) = (key ++ '=' :: (value ++ ' ' :: dropBlank m)) :: joinLines none ls := by
  have hcomment := isComment_key hkey ('=' :: (value ++ ['\\']))
  have hline := dropBlank_key hkey ('=' :: (value ++ ['\\']))
  have hends : continues (key ++ '=' :: value) = false := continues_append_cons key (by decide) hvalue
  have hlast : continues (key ++ '=' :: value ++ [' '] ++ dropBlank m) = false := by
    rw [List.append_assoc]
    exact continues_append_cons _ (by decide) hslash
  have hassoc : key ++ '=' :: (value ++ ['\\']) = (key ++ '=' :: value) ++ ['\\'] := by simp
  rw [hassoc] at hcomment hline ⊢
  rw [joinLines_held (by rw [hline]; exact hcomment) hline hends hm hlast]
  simp

end UnitFile
