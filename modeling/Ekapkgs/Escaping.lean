import Ekapkgs.Text

/-!
# Replacing characters and substrings

`str::replace`, which the writers of generated text escape with.
-/

namespace Ekapkgs

/-- `s.replace(c, by)` for a character. -/
def replaceChar (c : Char) (replacement s : String) : String :=
  String.ofList (s.toList.flatMap fun x => if x = c then replacement.toList else [x])

/-- The matches of a pattern from left to right; `skip` counts what is left of one. -/
def replaceFrom (pattern replacement : List Char) : Nat → List Char → List Char
  | _, [] => []
  | skip + 1, _ :: cs => replaceFrom pattern replacement skip cs
  | 0, c :: cs =>
    if pattern.isPrefixOf (c :: cs) then replacement ++ replaceFrom pattern replacement (pattern.length - 1) cs
    else c :: replaceFrom pattern replacement 0 cs

/-- `s.replace(pattern, by)` for a pattern that is not empty. -/
def replaceStr (pattern replacement s : String) : String :=
  String.ofList (replaceFrom pattern.toList replacement.toList 0 s.toList)

theorem toList_replaceChar (c : Char) (replacement s : String) :
    (replaceChar c replacement s).toList = s.toList.flatMap fun x => if x = c then replacement.toList else [x] := by
  rw [replaceChar, String.toList_ofList]

/-- The characters of a literal, without decoding it. -/
theorem toList_literal {s : String} {cs : List Char} (h : String.ofList cs = s) : s.toList = cs := by
  rw [← h, String.toList_ofList]

end Ekapkgs
