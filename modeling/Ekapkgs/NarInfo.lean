import Ekapkgs.Text

/-!
# Narinfo files

`storage/mod.rs`: the metadata of a store path, its text form, and the parser.
-/

namespace Ekapkgs

structure NarInfo where
  storePath : String
  url : String
  compression : String
  fileHash : String
  fileSize : Nat
  narHash : String
  narSize : Nat
  references : List String
  deriver : Option String
  signatures : List String
  ca : Option String
  deriving DecidableEq

/-! ## Printing -/

/-- References are basenames, not full paths. -/
def basenames (references : List String) : List String := references.map (rsplitNext '/')

def line (key value : String) : String := key ++ ": " ++ value ++ "\n"

def NarInfo.toNarinfoString (ni : NarInfo) : String :=
  line "StorePath" ni.storePath ++ line "URL" ni.url ++ line "Compression" ni.compression ++
  (if ni.fileHash = "" then "" else line "FileHash" ni.fileHash) ++
  (if ni.fileSize > 0 then line "FileSize" (toString ni.fileSize) else "") ++
  line "NarHash" ni.narHash ++ line "NarSize" (toString ni.narSize) ++
  (if ni.references = [] then "" else line "References" (join ' ' (basenames ni.references))) ++
  (match ni.deriver with
    | some deriver => line "Deriver" deriver
    | none => "") ++
  String.join (ni.signatures.map (line "Sig")) ++
  (match ni.ca with
    | some ca => line "CA" ca
    | none => "")

/-! ## Parsing -/

/-- What the loop over the lines has assigned so far. -/
structure NarInfoFields where
  storePath : Option String
  url : Option String
  compression : Option String
  fileHash : Option String
  fileSize : Option Nat
  narHash : Option String
  narSize : Option Nat
  references : List String
  deriver : Option String
  signatures : List String
  ca : Option String

def NarInfoFields.none : NarInfoFields :=
  ⟨.none, .none, .none, .none, .none, .none, .none, [], .none, [], .none⟩

def NarInfoFields.set (f : NarInfoFields) (key value : String) : Option NarInfoFields :=
  if key = "StorePath" then some { f with storePath := some value }
  else if key = "URL" then some { f with url := some value }
  else if key = "Compression" then some { f with compression := some value }
  else if key = "FileHash" then some { f with fileHash := some value }
  else if key = "FileSize" then (parseU64 value).map fun n => { f with fileSize := some n }
  else if key = "NarHash" then some { f with narHash := some value }
  else if key = "NarSize" then (parseU64 value).map fun n => { f with narSize := some n }
  else if key = "References" then some { f with references := splitWhitespace value }
  else if key = "Deriver" then some { f with deriver := some value }
  else if key = "Sig" then some { f with signatures := f.signatures ++ [value] }
  else if key = "CA" then some { f with ca := some value }
  else some f

def NarInfoFields.setLines : List String → NarInfoFields → Option NarInfoFields
  | [], f => some f
  | line :: lines, f => do
    let (key, value) ← splitOnce ": " line
    setLines lines (← f.set key value)

def NarInfo.parse (text : String) : Option NarInfo := do
  let f ← NarInfoFields.setLines (lines text) .none
  some {
    storePath := ← f.storePath
    url := ← f.url
    compression := f.compression.getD "none"
    fileHash := f.fileHash.getD ""
    fileSize := f.fileSize.getD 0
    narHash := ← f.narHash
    narSize := ← f.narSize
    references := f.references
    deriver := f.deriver
    signatures := f.signatures
    ca := f.ca }

/-- `/nix/store/{hash}-{name}` or `{hash}-{name}` to `{hash}`. -/
def hashPart (path : String) : String := splitNext '-' (rsplitNext '/' path)

/-- The hash portion of the store path. -/
def NarInfo.storePathHash (ni : NarInfo) : String := hashPart ni.storePath

end Ekapkgs
