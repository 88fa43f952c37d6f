import Ekapkgs.NarInfo

/-!
# What an upload may store

`api/upload.rs` and `signing.rs`: the checks on the names of an upload, and the
narinfo that is stored once the server has signed it.
-/

namespace Ekapkgs

/-- Only lowercase letters and digits of ASCII. -/
def isValidNixHash (s : String) : Bool := s ≠ "" && s.toList.all fun c => c.isLower || c.isDigit

/-- `{hash}.nar`, `{hash}.nar.xz` or `{hash}.nar.zst`. -/
def isValidNarFilename (s : String) : Bool :=
  if s.toList.contains '/' || s.toList.contains '\\' || containsStr ".." s then false
  else
    match (stripSuffix ".nar.xz" s).or ((stripSuffix ".nar.zst" s).or (stripSuffix ".nar" s)) with
    | some hash => isValidNixHash hash
    | none => false

/-- `nar/{hash}.nar[.{ext}]`. -/
def isValidNarUrl (s : String) : Bool :=
  "nar/".toList.isPrefixOf s.toList && isValidNarFilename (String.ofList (s.toList.drop 4))

def fingerprint (storePath narHash : String) (narSize : Nat) (references : List String) : String :=
  "1;" ++ storePath ++ ";" ++ narHash ++ ";" ++ toString narSize ++ ";" ++ join ',' references

/-- With the server's signature, once. -/
def NarInfo.signed (sign : String → String) (ni : NarInfo) : NarInfo :=
  let sig := sign (fingerprint ni.storePath ni.narHash ni.narSize ni.references)
  if ni.signatures.contains sig then ni else { ni with signatures := ni.signatures ++ [sig] }

/-- The text that `PUT /{hash}.narinfo` stores, unless it refuses. -/
def acceptNarinfo (sign : String → String) (hash : String) (body : Bytes) : Option String :=
  if !isValidNixHash hash then none
  else do
    let content ← fromUtf8 body
    let ni ← NarInfo.parse content
    if ni.storePathHash = hash ∧ isValidNarUrl ni.url then some (ni.signed sign).toNarinfoString else none

/-- The file that `PUT /nar/{file}` stores, unless it refuses. -/
def acceptNar (file : String) : Option String := if isValidNarFilename file then some ("nar/" ++ file) else none

/-- A NAR is not stored under the name of a narinfo. -/
theorem suffix_of_acceptNar {file path : String} (h : acceptNar file = some path) :
    ".nar.xz".toList <:+ path.toList ∨ ".nar.zst".toList <:+ path.toList ∨ ".nar".toList <:+ path.toList := by
  obtain ⟨hvalid, heq⟩ := Option.ite_none_right_eq_some.mp h
  obtain rfl := Option.some.inj heq
  have hfile : ".nar.xz".toList <:+ file.toList ∨ ".nar.zst".toList <:+ file.toList ∨ ".nar".toList <:+ file.toList := by
    unfold isValidNarFilename at hvalid
    split_ifs at hvalid
    cases h₁ : stripSuffix ".nar.xz" file with
    | some hash => exact .inl (stripSuffix_isSome (by rw [h₁]; rfl))
    | none =>
      cases h₂ : stripSuffix ".nar.zst" file with
      | some hash => exact .inr (.inl (stripSuffix_isSome (by rw [h₂]; rfl)))
      | none =>
        cases h₃ : stripSuffix ".nar" file with
        | some hash => exact .inr (.inr (stripSuffix_isSome (by rw [h₃]; rfl)))
        | none => rw [h₁, h₂, h₃] at hvalid; cases hvalid
  have happend : file.toList <:+ ("nar/" ++ file).toList := by
    rw [String.toList_append]; exact List.suffix_append ..
  exact hfile.imp (·.trans happend) (·.imp (·.trans happend) (·.trans happend))

end Ekapkgs
