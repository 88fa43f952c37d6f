import Ekapkgs.Templates

/-!
# Faithful package expressions

The text that a template writes is a package with the strings it was given exactly
when each string can stand between quotes without escapes and the license is a name.
The tag of the source is then the version, after a `v` if the tag had one, and this is
the tag that was read unless it had two.
-/

namespace Ekapkgs
open Nix

/-! ## What is meant -/

def forgeAttributes (domainAttr owner repo : String) (domain : Option String) (info : ExpressionInfo) : List (List String × String) :=
  [(["src", "owner"], owner), (["src", "repo"], repo)] ++ (domain.map fun d => (["src", domainAttr], d)).toList ++ [(["src", "hash"], info.srcHash)]

def fetchAttributes (info : ExpressionInfo) : List (List String × String) :=
  match info.fetcher with
  | .gitHub owner repo domain => forgeAttributes "githubBase" owner repo domain info
  | .gitLab owner repo domain => forgeAttributes "domain" owner repo domain info
  | .localSource => []

def lineAttributes (info : ExpressionInfo) : List (List String × String) :=
  match info.kind with
  | .rust => [(["cargoHash"], info.cargoHash)]
  | .go => [(["vendorHash"], info.vendorHash)]
  | _ => []

def homepageAttributes (info : ExpressionInfo) : List (List String × String) :=
  if info.kind ≠ .python && !info.homepage.isEmpty then [(["meta", "homepage"], info.homepage)] else []

def programAttributes (info : ExpressionInfo) : List (List String × String) :=
  if info.kind = .rust ∨ info.kind = .go then [(["meta", "mainProgram"], info.pname)] else []

/-- The strings of the expression by their attributes. -/
def ExpressionInfo.attributes (info : ExpressionInfo) : List (List String × String) :=
  [(["pname"], info.pname), (["version"], info.version)] ++ fetchAttributes info ++ lineAttributes info ++
    [(["meta", "description"], info.description)] ++ homepageAttributes info ++ programAttributes info

/-- The names that stand for themselves. -/
def constants : List Name := [nameOf "true", nameOf "false", nameOf "null"]

/-- The attribute is a string without antiquotations, with this text. -/
def HasString (pkg : Term) (entry : List String × String) : Prop :=
  pkg.at (entry.1.map String.toList) = some (.literal entry.2.toList)

/-- The generated text is a package with all these attributes, closed under the constants. -/
structure ExpressionInfo.Written (info : ExpressionInfo) (t : Term) (fixpoint : Name) (pkg : Term) : Prop where
  parses : parseTerm (generate info) = some t
  closed : t.scoped constants = true
  package : t.package = some (fixpoint, pkg)
  strings : ∀ entry ∈ info.attributes, HasString pkg entry
  license : ∃ x : Name, x.val = info.license.toList ∧ pkg.at ["meta".toList, "license".toList] = some (.path [nameOf "lib", nameOf "licenses", x])

def ExpressionInfo.Faithful (info : ExpressionInfo) : Prop := ∃ t self pkg, info.Written t self pkg

/-- Each string can stand between quotes as it is, and the license is a name. -/
def ExpressionInfo.Plain (info : ExpressionInfo) : Prop :=
  (∀ entry ∈ info.attributes, isRaw entry.2.toList = true) ∧ isName info.license.toList = true

/-! ## The term -/

def finalAttrs : Name := nameOf "finalAttrs"

def builderTerm : TemplateKind → Term
  | .stdenv | .cmake | .meson => .path [nameOf "stdenv", nameOf "mkDerivation"]
  | .rust => .path [nameOf "rustPlatform", nameOf "buildRustPackage"]
  | .go => .path [nameOf "buildGoModule"]
  | .python => .path [nameOf "buildPythonPackage"]

def fetchFormals : Fetcher → List Name
  | .gitHub _ _ _ => [nameOf "fetchFromGitHub"]
  | .gitLab _ _ _ => [nameOf "fetchFromGitLab"]
  | .localSource => []

def expressionFormals (info : ExpressionInfo) : List Name :=
  match info.kind with
  | .stdenv => [nameOf "lib", nameOf "stdenv"] ++ fetchFormals info.fetcher
  | .cmake => [nameOf "lib", nameOf "stdenv"] ++ fetchFormals info.fetcher ++ [nameOf "cmake"]
  | .meson => [nameOf "lib", nameOf "stdenv"] ++ fetchFormals info.fetcher ++ [nameOf "meson", nameOf "ninja", nameOf "pkg-config"]
  | .rust => [nameOf "lib", nameOf "rustPlatform"] ++ fetchFormals info.fetcher
  | .go => [nameOf "lib", nameOf "buildGoModule"] ++ fetchFormals info.fetcher
  | .python => [nameOf "lib", nameOf "buildPythonPackage"] ++ fetchFormals info.fetcher ++ [nameOf "setuptools"]

def tagTerm (info : ExpressionInfo) : Term :=
  .string ((if info.versionHasVPrefix then ['v'] else []).map .char ++ [.antiquote (.path [finalAttrs, nameOf "version"])])

def forgeTerm (function domainAttr : Name) (owner repo : String) (domain : Option String) (info : ExpressionInfo) : Term :=
  .apply (.path [function]) (.set ([(nameOf "owner", .literal owner.toList), (nameOf "repo", .literal repo.toList)] ++
    (domain.map fun d => (domainAttr, Term.literal d.toList)).toList ++
    [(nameOf "tag", tagTerm info), (nameOf "hash", .literal info.srcHash.toList)]))

def srcTerm (info : ExpressionInfo) : Term :=
  match info.fetcher with
  | .gitHub owner repo domain => forgeTerm (nameOf "fetchFromGitHub") (nameOf "githubBase") owner repo domain info
  | .gitLab owner repo domain => forgeTerm (nameOf "fetchFromGitLab") (nameOf "domain") owner repo domain info
  | .localSource => .file "./.".toList

def flagBinds : TemplateKind → List (Name × Term)
  | .python => [(nameOf "pyproject", .path [nameOf "true"])]
  | _ => []

def importName (info : ExpressionInfo) : List Char := (replaceChar '-' "_" info.pname).toList

def lineBinds (info : ExpressionInfo) : List (Name × Term) :=
  match info.kind with
  | .stdenv => []
  | .cmake => [(nameOf "nativeBuildInputs", .list [.path [nameOf "cmake"], .path [nameOf "cmake", nameOf "configurePhaseHook"]]),
      (nameOf "cmakeEntries", .set [])]
  | .meson => [(nameOf "nativeBuildInputs", .list [.path [nameOf "meson"], .path [nameOf "meson", nameOf "configurePhaseHook"],
      .path [nameOf "ninja"], .path [nameOf "pkg-config"]]), (nameOf "mesonEntries", .set [])]
  | .rust => [(nameOf "cargoHash", .literal info.cargoHash.toList)]
  | .go => [(nameOf "vendorHash", .literal info.vendorHash.toList)]
  | .python => [(nameOf "build-system", .list [.path [nameOf "setuptools"]]),
      (nameOf "pythonImportsCheck", .list [.literal (importName info)])]

def homepageBinds (info : ExpressionInfo) : List (Name × Term) :=
  if info.kind ≠ .python && !info.homepage.isEmpty then [(nameOf "homepage", .literal info.homepage.toList)] else []

def programBinds (info : ExpressionInfo) : List (Name × Term) :=
  if info.kind = .rust ∨ info.kind = .go then [(nameOf "mainProgram", .literal info.pname.toList)] else []

def metaBinds (info : ExpressionInfo) (license : Name) : List (Name × Term) :=
  [(nameOf "description", .literal info.description.toList)] ++ homepageBinds info ++
    [(nameOf "license", .path [nameOf "lib", nameOf "licenses", license])] ++ programBinds info ++
    [(nameOf "platforms", .path [nameOf "lib", nameOf "platforms", nameOf "linux"])]

def headBinds (info : ExpressionInfo) : List (Name × Term) :=
  [(nameOf "pname", .literal info.pname.toList), (nameOf "version", .literal info.version.toList)] ++ flagBinds info.kind

def packageBinds (info : ExpressionInfo) (license : Name) : List (Name × Term) :=
  headBinds info ++ [(nameOf "src", srcTerm info)] ++ lineBinds info ++ [(nameOf "meta", .set (metaBinds info license))]

def expressionTerm (info : ExpressionInfo) (license : Name) : Term :=
  .function (expressionFormals info) (.apply (builderTerm info.kind) (.lambda finalAttrs (.set (packageBinds info license))))

/-! ## Formals -/

def formalText (x : Name) : List Char := "\n  ".toList ++ (x.val ++ [','])

theorem intercalate_formals : ∀ (x : Name) (xs : List Name),
    "\n  ".toList ++ (",\n  ".toList.intercalate ((x :: xs).map Subtype.val) ++ [',']) = (x :: xs).flatMap formalText
  | x, [] => by
    rw [List.map_singleton, List.intercalate_singleton, List.flatMap_singleton]
    rfl
  | x, y :: xs => by
    have hsep : ",\n  ".toList = ',' :: "\n  ".toList := rfl
    rw [List.map_cons, List.map_cons, List.intercalate_cons_cons, ← List.map_cons, List.flatMap_cons, ← intercalate_formals y xs, hsep]
    simp only [formalText, List.append_assoc, List.cons_append, List.nil_append]

theorem reads_inputs {x : Name} {xs : List Name} (hnodup : (x :: xs).Nodup) :
    Reads .start (['\x7b'] ++ ((x :: xs).flatMap formalText ++ "\n\x7d:\n\n".toList)) ⟨⟨.code, []⟩, .nothing, .operand, [.body (x :: xs)]⟩ [] := by
  have hopen : Reads .start ['\x7b'] ⟨⟨.code, [.code]⟩, .nothing, .brace, []⟩ [] := .tokens [.symbol '\x7b'] ⟨rfl, rfl⟩ rfl
  have hblank : Reads ⟨⟨.code, [.code]⟩, .nothing, .brace, []⟩ "\n  ".toList ⟨⟨.code, [.code]⟩, .nothing, .brace, []⟩ [] :=
    .tokens [] (by decide) rfl
  have hfirst : [Token.word x.val, .symbol ','].foldlM advance (.brace, []) = some (.formals [x], []) := by
    rw [List.foldlM_cons, advance, if_neg (word_ne_symbol _ _), named, toName_val]
    rfl
  have hclose : [Token.symbol '\x7d', .symbol ':'].foldlM advance (.formals (x :: xs), []) = some (.operand, [.body (x :: xs)]) := by
    have hcolon : advance (.closed (x :: xs), []) (.symbol ':') = some (.operand, [.body (x :: xs)]) := if_pos ⟨rfl, hnodup⟩
    rw [List.foldlM_cons, advance, if_pos rfl]
    exact congrArg (· >>= pure) hcolon
  have hrest : Reads ⟨⟨.code, [.code]⟩, .nothing, .formals [x], []⟩ (xs.flatMap formalText) ⟨⟨.code, [.code]⟩, .nothing, .formals (x :: xs), []⟩ [] :=
    Reads.formals (by decide) xs [x]
  have hend : Reads ⟨⟨.code, [.code]⟩, .nothing, .formals (x :: xs), []⟩ "\n\x7d:\n\n".toList ⟨⟨.code, []⟩, .nothing, .operand, [.body (x :: xs)]⟩ [] :=
    .tokens _ (by decide) hclose
  rw [List.flatMap_cons, List.append_assoc]
  exact hopen.append ((hblank.append (.name (.inl rfl) x (.inl rfl) hfirst)).append (hrest.append hend))

/-! ## The source -/

/-- Between the attributes of a set. -/
def atBinds (outer : List Mode) (opens : List Open) (binds : List (Name × Term)) : Reader := ⟨⟨.code, outer⟩, .nothing, .binds binds, opens⟩

/-- After the string of an attribute. -/
def afterString (outer : List Mode) (opens : List Open) (binds : List (Name × Term)) (a : Name) (s : String) : Reader :=
  ⟨⟨.code, outer⟩, .nothing, given (.literal s.toList) (.bind a binds :: opens)⟩

theorem block_string {t : Term} {outer : List Mode} {opens : List Open} {binds : List (Name × Term)} {a : Name} {s : String}
    (h : Pinned t (.bind a binds :: opens, s.toList)) :
    Block t (.spelling .string outer (.bind a binds :: opens) []) (s.toList ++ "\"".toList) (afterString outer opens binds a s) [s.toList] :=
  .user h

section
variable {t pkg : Term} {self : Name} {info : ExpressionInfo} {outer : List Mode} {opens : List Open} {binds : List (Name × Term)}
  {builder : Term} {formals : List Name}

/-- The tokens of the tag, and of the attribute after it. -/
def tagTokens (info : ExpressionInfo) : List Token :=
  [.symbol ';', .word "tag".toList, .symbol '=', .symbol '"'] ++ (if info.versionHasVPrefix then [.text 'v'] else []) ++
    [.symbol '$', .symbol '\x7b', .word "finalAttrs".toList, .symbol '.', .word "version".toList, .symbol '\x7d', .symbol '"',
      .symbol ';', .word "hash".toList, .symbol '=', .symbol '"']

def inSet : List Mode := [.code, .code]

/-- From the last string before the tag. -/
theorem block_tag (a : Name) (s : String) :
    Block t (afterString inSet opens binds a s) (";".toList ++ ("\n    tag = \"".toList ++ ((tagValue info).toList ++ ("\"".toList ++
      ";\n    hash = \"".toList)))) (.spelling .string inSet
        (.bind (nameOf "hash") (binds ++ [(a, .literal s.toList)] ++ [(nameOf "tag", tagTerm info)]) :: opens) []) [] := by
  unfold tagValue tagTerm
  refine .tokens (tagTokens info) ?_ ?_
  · unfold tagTokens
    split_ifs
    · decide +kernel
    · decide +kernel
  · unfold tagTokens
    split_ifs
    · rfl
    · rfl

/-- The set of a forge's function, as far as the tag. -/
def forgeBinds (domainAttr : Name) (owner repo : String) (domain : Option String) : List (Name × Term) :=
  [(nameOf "owner", .literal owner.toList), (nameOf "repo", .literal repo.toList)] ++
    (domain.map fun d => (domainAttr, Term.literal d.toList)).toList

theorem forgeTerm_eq (function domainAttr : Name) (owner repo : String) (domain : Option String) (info : ExpressionInfo) :
    forgeTerm function domainAttr owner repo domain info =
      .apply (.path [function]) (.set (forgeBinds domainAttr owner repo domain ++ [(nameOf "tag", tagTerm info)] ++
        [(nameOf "hash", .literal info.srcHash.toList)])) := by
  cases domain <;> rfl

def forgeStrings (owner repo : String) (domain : Option String) (info : ExpressionInfo) : List (List Char) :=
  [owner.toList, repo.toList] ++ (domain.map String.toList).toList ++ [info.srcHash.toList]

theorem block_forge {function domainAttr : String} {f d : Name} (hd : d.val = domainAttr.toList)
    (hopen : Block t (atBinds [.code] (packageOpens finalAttrs builder formals) binds)
      ("  src = ".toList ++ (function.toList ++ " \x7b\n    owner = \"".toList))
      (.spelling .string inSet (.bind (nameOf "owner") [] :: .arg (.path [f]) :: .bind (nameOf "src") binds :: packageOpens finalAttrs builder formals) []) [])
    (hdomain : ∀ {opens binds} (s : String), Block t (afterString inSet opens binds (nameOf "repo") s) (";".toList ++ ("\n    ".toList ++ (domainAttr.toList ++
      " = \"".toList))) (.spelling .string inSet (.bind d (binds ++ [(nameOf "repo", .literal s.toList)]) :: opens) []) [])
    (hkeys : ([nameOf "owner", nameOf "repo", d, nameOf "tag", nameOf "hash"]).Nodup) (owner repo : String) (domain : Option String)
    (hpackage : t.package = some (self, pkg)) (hstrings : ∀ entry ∈ forgeAttributes domainAttr owner repo domain info, HasString pkg entry) :
    Block t (atBinds [.code] (packageOpens finalAttrs builder formals) binds) (forgeBlock function domainAttr owner repo domain info).toList
      (atBinds [.code] (packageOpens finalAttrs builder formals) (binds ++ [(nameOf "src", forgeTerm f d owner repo domain info)]))
      (forgeStrings owner repo domain info) := by
  have howner : ∀ binds', Pinned t (.bind (nameOf "owner") binds' :: .arg (.path [f]) :: .bind (nameOf "src") binds ::
      packageOpens finalAttrs builder formals, owner.toList) :=
    fun _ => pinned_call hpackage (hstrings (["src", "owner"], owner) (by simp [forgeAttributes]))
  have hrepo : ∀ binds', Pinned t (.bind (nameOf "repo") binds' :: .arg (.path [f]) :: .bind (nameOf "src") binds ::
      packageOpens finalAttrs builder formals, repo.toList) :=
    fun _ => pinned_call hpackage (hstrings (["src", "repo"], repo) (by simp [forgeAttributes]))
  have hdom : ∀ dom, domain = some dom → ∀ binds', Pinned t (.bind d binds' :: .arg (.path [f]) :: .bind (nameOf "src") binds ::
      packageOpens finalAttrs builder formals, dom.toList) := by
    rintro dom rfl _
    have hat := hstrings (["src", domainAttr], dom) (by simp [forgeAttributes])
    refine pinned_call hpackage (hd ▸ hat)
  have hhash : ∀ binds', Pinned t (.bind (nameOf "hash") binds' :: .arg (.path [f]) :: .bind (nameOf "src") binds ::
      packageOpens finalAttrs builder formals, info.srcHash.toList) :=
    fun _ => pinned_call hpackage (hstrings (["src", "hash"], info.srcHash) (by simp [forgeAttributes]))
  generalize packageOpens finalAttrs builder formals = opens at *
  have hrepoAttr : Block t (afterString inSet (.arg (.path [f]) :: .bind (nameOf "src") binds :: opens) [] (nameOf "owner") owner)
      ";\n    repo = \"".toList (.spelling .string inSet (.bind (nameOf "repo") [(nameOf "owner", .literal owner.toList)] ::
        .arg (.path [f]) :: .bind (nameOf "src") binds :: opens) []) [] :=
    .tokens [.symbol ';', .word "repo".toList, .symbol '=', .symbol '"'] (by decide +kernel) rfl
  have hstart := hopen.append ((block_string (howner [])).append (hrepoAttr.append (block_string (hrepo [(nameOf "owner", .literal owner.toList)]))))
  have hend : ∀ {attrs : List (Name × Term)}, ((attrs ++ [(nameOf "hash", Term.literal info.srcHash.toList)]).map Prod.fst).Nodup →
      Block t (afterString inSet (.arg (.path [f]) :: .bind (nameOf "src") binds :: opens) attrs (nameOf "hash") info.srcHash) ";\n  \x7d;".toList
        (atBinds [.code] opens (binds ++ [(nameOf "src", .apply (.path [f]) (.set (attrs ++ [(nameOf "hash", .literal info.srcHash.toList)])))])) [] := by
    intro attrs hnodup
    refine .tokens [.symbol ';', .symbol '\x7d', .symbol ';'] (by decide +kernel) ?_
    have hsemicolon : [Token.symbol ';'].foldlM advance
        (given (.literal info.srcHash.toList) (.bind (nameOf "hash") attrs :: .arg (.path [f]) :: .bind (nameOf "src") binds :: opens)) = some (.binds (attrs ++ [(nameOf "hash", .literal info.srcHash.toList)]), .arg (.path [f]) :: .bind (nameOf "src") binds :: opens) := rfl
    have hset : advance (given (.set (attrs ++ [(nameOf "hash", .literal info.srcHash.toList)])) (.arg (.path [f]) :: .bind (nameOf "src") binds :: opens))
        (.symbol ';') = some (.binds (binds ++ [(nameOf "src", .apply (.path [f]) (.set (attrs ++ [(nameOf "hash", .literal info.srcHash.toList)])))]), opens) := rfl
    exact (foldlM_then hsemicolon _).trans (foldlM_close hnodup hset)
  rw [forgeTerm_eq]
  cases domain with
  | none =>
    have hnodup : ((forgeBinds d owner repo none ++ [(nameOf "tag", tagTerm info)] ++ [(nameOf "hash", Term.literal info.srcHash.toList)]).map Prod.fst).Nodup :=
      hkeys.sublist ((List.Sublist.refl _).cons _ |>.cons_cons _ |>.cons_cons _)
    have hlast := (block_string (hhash (forgeBinds d owner repo none ++ [(nameOf "tag", tagTerm info)]))).append (hend hnodup)
    have hall := hstart.append ((block_tag (nameOf "repo") repo).append hlast)
    refine hall.of_eq ?_ rfl
    unfold forgeBlock
    dsimp only
    simp only [String.toList_append, String.toList_empty, List.append_assoc, List.nil_append]
  | some dom =>
    have hlast := (block_string (hhash (forgeBinds d owner repo (some dom) ++ [(nameOf "tag", tagTerm info)]))).append (hend hkeys)
    have hall := hstart.append ((hdomain repo).append ((block_string (hdom dom rfl _)).append ((block_tag d dom).append hlast)))
    refine hall.of_eq ?_ rfl
    unfold forgeBlock
    dsimp only
    simp only [String.toList_append, List.append_assoc]

theorem forgeStrings_eq (domainAttr owner repo : String) (domain : Option String) :
    forgeStrings owner repo domain info = (forgeAttributes domainAttr owner repo domain info).map fun entry => entry.2.toList := by
  cases domain <;> rfl

theorem block_fetch (hpackage : t.package = some (self, pkg)) (hstrings : ∀ entry ∈ fetchAttributes info, HasString pkg entry) :
    Block t (atBinds [.code] (packageOpens finalAttrs builder formals) binds) (renderFetchBlock info).2.toList
      (atBinds [.code] (packageOpens finalAttrs builder formals) (binds ++ [(nameOf "src", srcTerm info)]))
      ((fetchAttributes info).map fun entry => entry.2.toList) := by
  unfold renderFetchBlock srcTerm
  unfold fetchAttributes at hstrings ⊢
  cases hfetcher : info.fetcher with
  | gitHub owner repo domain =>
    rw [hfetcher] at hstrings
    dsimp only
    rw [← forgeStrings_eq]
    refine block_forge rfl ?_ (fun s => ?_) (by decide) owner repo domain hpackage hstrings
    · exact .tokens [.word "src".toList, .symbol '=', .word "fetchFromGitHub".toList, .symbol '\x7b', .word "owner".toList, .symbol '=', .symbol '"']
        (by decide +kernel) rfl
    · exact .tokens [.symbol ';', .word "githubBase".toList, .symbol '=', .symbol '"'] (by decide +kernel) rfl
  | gitLab owner repo domain =>
    rw [hfetcher] at hstrings
    dsimp only
    rw [← forgeStrings_eq]
    refine block_forge rfl ?_ (fun s => ?_) (by decide) owner repo domain hpackage hstrings
    · exact .tokens [.word "src".toList, .symbol '=', .word "fetchFromGitLab".toList, .symbol '\x7b', .word "owner".toList, .symbol '=', .symbol '"']
        (by decide +kernel) rfl
    · exact .tokens [.symbol ';', .word "domain".toList, .symbol '=', .symbol '"'] (by decide +kernel) rfl
  | localSource =>
    dsimp only
    exact .tokens [.word "src".toList, .symbol '=', .path "./.".toList, .symbol ';'] (by decide +kernel) rfl

/-! ## The metadata -/

/-- The license, after the last string before it. -/
theorem block_license (license : Name) (a : Name) (s : String) :
    Block t (afterString inSet opens binds a s) (";".toList ++ ("\n".toList ++ ("    license = lib.licenses.".toList ++ (license.val ++ ";".toList))))
      (atBinds inSet opens (binds ++ [(a, .literal s.toList)] ++ [(nameOf "license", .path [nameOf "lib", nameOf "licenses", license])])) [] := by
  have hpath : Block t (afterString inSet opens binds a s) (";".toList ++ ("\n".toList ++ "    license = lib.licenses.".toList))
      ⟨⟨.code, inSet⟩, .dot, .path [nameOf "lib", nameOf "licenses"], .bind (nameOf "license") (binds ++ [(a, .literal s.toList)]) :: opens⟩ [] :=
    .tokens [.symbol ';', .word "license".toList, .symbol '=', .word "lib".toList, .symbol '.', .word "licenses".toList] (by decide +kernel) rfl
  have hname : (Reading.dot.tokens ++ [Token.word license.val, .symbol ';']).foldlM advance
      (.path [nameOf "lib", nameOf "licenses"], .bind (nameOf "license") (binds ++ [(a, .literal s.toList)]) :: opens) =
      some (.binds (binds ++ [(a, .literal s.toList)] ++ [(nameOf "license", .path [nameOf "lib", nameOf "licenses", license])]), opens) := by
    have hdotted : advance (.dotted [nameOf "lib", nameOf "licenses"], .bind (nameOf "license") (binds ++ [(a, .literal s.toList)]) :: opens)
        (.word license.val) = some (.path [nameOf "lib", nameOf "licenses", license],
          .bind (nameOf "license") (binds ++ [(a, .literal s.toList)]) :: opens) := by
      rw [advance, named, toName_val]
      rfl
    have hdot : [Token.symbol '.'].foldlM advance (.path [nameOf "lib", nameOf "licenses"], .bind (nameOf "license") (binds ++ [(a, .literal s.toList)]) :: opens) =
        some (.dotted [nameOf "lib", nameOf "licenses"], .bind (nameOf "license") (binds ++ [(a, .literal s.toList)]) :: opens) := rfl
    refine (foldlM_then hdot _).trans ?_
    rw [List.foldlM_cons, hdotted]
    rfl
  have hword : Block t ⟨⟨.code, inSet⟩, .dot, .path [nameOf "lib", nameOf "licenses"], .bind (nameOf "license") (binds ++ [(a, .literal s.toList)]) :: opens⟩
      (license.val ++ ";".toList)
      (atBinds inSet opens (binds ++ [(a, .literal s.toList)] ++ [(nameOf "license", .path [nameOf "lib", nameOf "licenses", license])])) [] :=
    .tokens _ (tokens_name license inSet (.inr rfl) (.inr rfl)) hname
  refine (hpath.append hword).of_eq ?_ rfl
  simp only [List.append_assoc]

def hasHomepage (info : ExpressionInfo) : Bool := info.kind ≠ .python && !info.homepage.isEmpty

def mainProgram (info : ExpressionInfo) : Option String := if info.kind = .rust ∨ info.kind = .go then some info.pname else none

def homepageText (info : ExpressionInfo) : List Char :=
  if hasHomepage info then ";".toList ++ ("\n".toList ++ ("    homepage = \"".toList ++ (info.homepage.toList ++ "\"".toList))) else []

def programText (info : ExpressionInfo) : List Char :=
  match mainProgram info with
  | some prog => "\n".toList ++ ("    mainProgram = \"".toList ++ ((prog.toList ++ "\"".toList) ++ ";".toList))
  | none => []

theorem toList_renderMeta (info : ExpressionInfo) : (renderMeta info (decide (info.kind ≠ .python)) (mainProgram info)).toList =
    ("  meta = \x7b\n".toList ++ ("    description = \"".toList ++ (info.description.toList ++ "\"".toList))) ++ (homepageText info ++
      ((";".toList ++ ("\n".toList ++ ("    license = lib.licenses.".toList ++ (info.license.toList ++ ";".toList)))) ++
        (programText info ++ ("\n".toList ++ ("    platforms = lib.platforms.linux;".toList ++ "\n  \x7d;".toList))))) := by
  have hline : ∀ (s s' : String) (lines : List String),
      ("\n".intercalate (s :: s' :: lines)).toList = s.toList ++ ("\n".toList ++ ("\n".intercalate (s' :: lines)).toList) := by
    intro s s' lines
    rw [String.intercalate_cons_cons, String.toList_append, String.toList_append, List.append_assoc]
  unfold renderMeta metaLines homepageText programText hasHomepage
  cases (decide (info.kind ≠ .python) && !info.homepage.isEmpty) <;> cases mainProgram info
  all_goals
    dsimp only
    simp only [Bool.false_eq_true, if_true, if_false, List.cons_append, List.nil_append]
    rw [String.toList_append, String.toList_append]
    simp only [hline, String.intercalate_singleton]
    simp only [String.toList_append, List.append_assoc]

theorem block_description (hpackage : t.package = some (self, pkg)) (h : HasString pkg (["meta", "description"], info.description)) :
    Block t (atBinds [.code] (packageOpens finalAttrs builder formals) binds)
      ("  meta = \x7b\n".toList ++ ("    description = \"".toList ++ (info.description.toList ++ "\"".toList)))
      (afterString inSet (.bind (nameOf "meta") binds :: packageOpens finalAttrs builder formals) [] (nameOf "description") info.description)
      [info.description.toList] := by
  have hopen : Block t (atBinds [.code] (packageOpens finalAttrs builder formals) binds) ("  meta = \x7b\n".toList ++ "    description = \"".toList)
      (.spelling .string inSet (.bind (nameOf "description") [] :: .bind (nameOf "meta") binds :: packageOpens finalAttrs builder formals) []) [] :=
    .tokens [.word "meta".toList, .symbol '=', .symbol '\x7b', .word "description".toList, .symbol '=', .symbol '"'] (by decide +kernel) rfl
  have hpinned : Pinned t (.bind (nameOf "description") [] :: .bind (nameOf "meta") binds :: packageOpens finalAttrs builder formals,
      info.description.toList) := pinned_inner hpackage h
  refine (hopen.append (block_string hpinned)).of_eq ?_ rfl
  simp only [List.append_assoc]

theorem block_homepage (binds : List (Name × Term)) (builder : Term) (formals : List Name) (hpackage : t.package = some (self, pkg)) (h : ∀ entry ∈ homepageAttributes info, HasString pkg entry) :
    ∃ a s attrs, Block t (afterString inSet (.bind (nameOf "meta") binds :: packageOpens finalAttrs builder formals) [] (nameOf "description") info.description)
        (homepageText info) (afterString inSet (.bind (nameOf "meta") binds :: packageOpens finalAttrs builder formals) attrs a s)
        ((homepageAttributes info).map fun entry => entry.2.toList) ∧
      attrs ++ [(a, .literal s.toList)] = [(nameOf "description", .literal info.description.toList)] ++ homepageBinds info := by
  unfold homepageText homepageBinds
  unfold homepageAttributes at h ⊢
  unfold hasHomepage
  split
  · next hhome =>
    rw [if_pos hhome] at h
    have hpinned : Pinned t (.bind (nameOf "homepage") [(nameOf "description", .literal info.description.toList)] :: .bind (nameOf "meta") binds ::
        packageOpens finalAttrs builder formals, info.homepage.toList) := pinned_inner hpackage (h _ List.mem_cons_self)
    have hopen : Block t (afterString inSet (.bind (nameOf "meta") binds :: packageOpens finalAttrs builder formals) [] (nameOf "description") info.description)
        (";".toList ++ ("\n".toList ++ "    homepage = \"".toList)) (.spelling .string inSet
          (.bind (nameOf "homepage") [(nameOf "description", .literal info.description.toList)] :: .bind (nameOf "meta") binds ::
            packageOpens finalAttrs builder formals) []) [] :=
      .tokens [.symbol ';', .word "homepage".toList, .symbol '=', .symbol '"'] (by decide +kernel) rfl
    refine ⟨_, _, _, (hopen.append (block_string hpinned)).of_eq ?_ rfl, rfl⟩
    simp only [List.append_assoc]
  · exact ⟨_, _, _, .tokens [] ⟨rfl, rfl⟩ rfl, rfl⟩

theorem block_program (hpackage : t.package = some (self, pkg)) (h : ∀ entry ∈ programAttributes info, HasString pkg entry)
    (attrs : List (Name × Term)) :
    Block t (atBinds inSet (.bind (nameOf "meta") binds :: packageOpens finalAttrs builder formals) attrs) (programText info)
      (atBinds inSet (.bind (nameOf "meta") binds :: packageOpens finalAttrs builder formals) (attrs ++ programBinds info))
      ((programAttributes info).map fun entry => entry.2.toList) := by
  unfold programText mainProgram programBinds
  unfold programAttributes at h ⊢
  split_ifs with hkind
  · rw [if_pos hkind] at h
    have hpinned : Pinned t (.bind (nameOf "mainProgram") attrs :: .bind (nameOf "meta") binds :: packageOpens finalAttrs builder formals,
      info.pname.toList) := pinned_inner hpackage (h _ List.mem_cons_self)
    have hopen : Block t (atBinds inSet (.bind (nameOf "meta") binds :: packageOpens finalAttrs builder formals) attrs)
        ("\n".toList ++ "    mainProgram = \"".toList) (.spelling .string inSet
          (.bind (nameOf "mainProgram") attrs :: .bind (nameOf "meta") binds :: packageOpens finalAttrs builder formals) []) [] :=
      .tokens [.word "mainProgram".toList, .symbol '=', .symbol '"'] (by decide +kernel) rfl
    have hclose : Block t (afterString inSet (.bind (nameOf "meta") binds :: packageOpens finalAttrs builder formals) attrs (nameOf "mainProgram") info.pname)
        ";".toList (atBinds inSet (.bind (nameOf "meta") binds :: packageOpens finalAttrs builder formals)
          (attrs ++ [(nameOf "mainProgram", .literal info.pname.toList)])) [] := .tokens [.symbol ';'] (by decide +kernel) rfl
    refine (hopen.append ((block_string hpinned).append hclose)).of_eq ?_ rfl
    simp only [List.append_assoc]
  · rw [List.append_nil]
    exact .tokens [] ⟨rfl, rfl⟩ rfl

def platformsTerm : Term := .path [nameOf "lib", nameOf "platforms", nameOf "linux"]

theorem block_platforms (attrs : List (Name × Term)) (hnodup : ((attrs ++ [(nameOf "platforms", platformsTerm)]).map Prod.fst).Nodup) :
    Block t (atBinds inSet (.bind (nameOf "meta") binds :: opens) attrs)
      ("\n".toList ++ ("    platforms = lib.platforms.linux;".toList ++ "\n  \x7d;".toList))
      (atBinds [.code] opens (binds ++ [(nameOf "meta", .set (attrs ++ [(nameOf "platforms", platformsTerm)]))])) [] := by
  have hplatforms : [Token.word "platforms".toList, .symbol '=', .word "lib".toList, .symbol '.', .word "platforms".toList, .symbol '.',
      .word "linux".toList, .symbol ';'].foldlM advance (.binds attrs, .bind (nameOf "meta") binds :: opens) =
      some (.binds (attrs ++ [(nameOf "platforms", platformsTerm)]), .bind (nameOf "meta") binds :: opens) := rfl
  have hset : advance (given (.set (attrs ++ [(nameOf "platforms", platformsTerm)])) (.bind (nameOf "meta") binds :: opens)) (.symbol ';') =
      some (.binds (binds ++ [(nameOf "meta", .set (attrs ++ [(nameOf "platforms", platformsTerm)]))]), opens) := rfl
  exact .tokens ([.word "platforms".toList, .symbol '=', .word "lib".toList, .symbol '.', .word "platforms".toList, .symbol '.',
      .word "linux".toList, .symbol ';'] ++ [.symbol '\x7d', .symbol ';']) (by decide +kernel) ((foldlM_then hplatforms _).trans (foldlM_close hnodup hset))

theorem metaBinds_nodup (info : ExpressionInfo) (license : Name) : ((metaBinds info license).map Prod.fst).Nodup := by
  have hkeys : [nameOf "description", nameOf "homepage", nameOf "license", nameOf "mainProgram", nameOf "platforms"].Nodup := by decide
  refine hkeys.sublist ?_
  unfold metaBinds homepageBinds programBinds
  split_ifs
  · exact .refl _
  · exact ((((List.Sublist.refl _).cons _).cons_cons _).cons_cons _).cons_cons _
  · exact ((List.Sublist.refl _).cons _).cons_cons _
  · exact ((((List.Sublist.refl _).cons _).cons_cons _).cons _).cons_cons _

theorem block_meta (hpackage : t.package = some (self, pkg)) (hdescription : HasString pkg (["meta", "description"], info.description))
    (hhomepage : ∀ entry ∈ homepageAttributes info, HasString pkg entry) (hprogram : ∀ entry ∈ programAttributes info, HasString pkg entry)
    {license : Name} (hlicense : license.val = info.license.toList) :
    Block t (atBinds [.code] (packageOpens finalAttrs builder formals) binds) (renderMeta info (decide (info.kind ≠ .python)) (mainProgram info)).toList
      (atBinds [.code] (packageOpens finalAttrs builder formals) (binds ++ [(nameOf "meta", .set (metaBinds info license))]))
      ([info.description.toList] ++ ((homepageAttributes info).map (fun entry => entry.2.toList) ++ ((programAttributes info).map fun entry => entry.2.toList))) := by
  rw [toList_renderMeta, ← hlicense]
  obtain ⟨a, s, attrs, hhome, heq⟩ := block_homepage binds builder formals hpackage hhomepage
  have hlic : Block t (afterString inSet (.bind (nameOf "meta") binds :: packageOpens finalAttrs builder formals) attrs a s) _ _ [] :=
    block_license license a s
  rw [heq] at hlic
  have hplat : Block t (atBinds inSet (.bind (nameOf "meta") binds :: packageOpens finalAttrs builder formals) _) _ _ [] :=
    block_platforms _ (metaBinds_nodup info license)
  have hall := (block_description hpackage hdescription).append (hhome.append (hlic.append ((block_program hpackage hprogram _).append hplat)))
  refine hall.of_eq rfl ?_
  simp only [List.append_nil, List.nil_append]

/-! ## The lines of a kind -/

def lineText (info : ExpressionInfo) : String :=
  match info.kind with
  | .stdenv => ""
  | .cmake => "  nativeBuildInputs = [\n    cmake\n    cmake.configurePhaseHook\n  ];\n\n  cmakeEntries = \x7b\n  \x7d;\n\n"
  | .meson =>
    "  nativeBuildInputs = [\n    meson\n    meson.configurePhaseHook\n    ninja\n    pkg-config\n  ];\n\n  mesonEntries = \x7b\n  \x7d;\n\n"
  | .rust => "  cargoHash = \"" ++ info.cargoHash ++ "\"" ++ ";\n\n"
  | .go => "  vendorHash = \"" ++ info.vendorHash ++ "\"" ++ ";\n\n"
  | .python => "  build-system = [ setuptools ];\n\n  pythonImportsCheck = [ \"" ++ replaceChar '-' "_" info.pname ++ "\"" ++ " ];\n\n"

def lineStrings (info : ExpressionInfo) : List (List Char) :=
  match info.kind with
  | .rust => [info.cargoHash.toList]
  | .go => [info.vendorHash.toList]
  | .python => [importName info]
  | _ => []

theorem head_import {d : Char} (hd : d ≠ '_') : ∀ {cs rest : List Char},
    cs.flatMap (fun x => if x = '-' then ['_'] else [x]) = d :: rest → ∃ rest', cs = d :: rest'
  | [], _, h => nomatch h
  | c :: cs, rest, h => by
    rw [List.flatMap_cons] at h
    split_ifs at h with hc
    · exact absurd (List.cons.inj h).1.symm hd
    · exact ⟨cs, by rw [(List.cons.inj h).1]⟩

/-- Another separator needs no escapes either. -/
theorem isRaw_import (info : ExpressionInfo) : isRaw (importName info) = isRaw info.pname.toList := by
  rw [importName, toList_replaceChar]
  generalize info.pname.toList = s
  have hunderscore : "_".toList = ['_'] := rfl
  rw [hunderscore]
  induction s using isRaw.induct with
  | case1 => rfl
  | case2 cs => rfl
  | case3 cs ih => exact ih
  | case4 c cs hbrace hdollar ih =>
    by_cases hc : c = '-'
    · rw [hc]
      exact ih
    · rw [List.flatMap_cons, if_neg hc, List.singleton_append, Bool.eq_iff_iff, isRaw_cons hbrace hdollar, isRaw_cons, ih]
      · intro rest hc hrest
        obtain ⟨rest', rfl⟩ := head_import (by decide) hrest
        exact hbrace rest' hc rfl
      · intro rest hc hrest
        obtain ⟨rest', rfl⟩ := head_import (by decide) hrest
        exact hdollar rest' hc rfl

/-- The attribute of a hash. -/
theorem block_hash {hash : String} (a : Name) (hpinned : Pinned t (.bind a binds :: packageOpens finalAttrs builder formals, hash.toList)) {text : String}
    (hopen : Block t (atBinds [.code] (packageOpens finalAttrs builder formals) binds) text.toList
      (.spelling .string [.code] (.bind a binds :: packageOpens finalAttrs builder formals) []) []) :
    Block t (atBinds [.code] (packageOpens finalAttrs builder formals) binds) (text ++ hash ++ "\"" ++ ";\n\n").toList
      (atBinds [.code] (packageOpens finalAttrs builder formals) (binds ++ [(a, .literal hash.toList)])) [hash.toList] := by
  have hclose : Block t (afterString [.code] (packageOpens finalAttrs builder formals) binds a hash) ";\n\n".toList
    (atBinds [.code] (packageOpens finalAttrs builder formals) (binds ++ [(a, .literal hash.toList)])) [] := .tokens [.symbol ';'] (by decide +kernel) rfl
  refine (hopen.append ((block_string hpinned).append hclose)).of_eq ?_ rfl
  simp only [String.toList_append]
  simp only [List.append_assoc]

theorem block_lines (hpackage : t.package = some (self, pkg)) (h : ∀ entry ∈ lineAttributes info, HasString pkg entry)
    (hraw : isRaw info.pname.toList = true) :
    Block t (atBinds [.code] (packageOpens finalAttrs builder formals) binds) (lineText info).toList
      (atBinds [.code] (packageOpens finalAttrs builder formals) (binds ++ lineBinds info)) (lineStrings info) := by
  unfold lineText lineBinds lineStrings
  unfold lineAttributes at h
  cases hkind : info.kind with
  | stdenv =>
    dsimp only
    rw [List.append_nil]
    exact .tokens [] ⟨rfl, rfl⟩ rfl
  | cmake =>
    dsimp only
    rw [List.append_cons]
    exact .tokens [.word "nativeBuildInputs".toList, .symbol '=', .symbol '[', .word "cmake".toList, .word "cmake".toList, .symbol '.',
      .word "configurePhaseHook".toList, .symbol ']', .symbol ';', .word "cmakeEntries".toList, .symbol '=', .symbol '\x7b', .symbol '\x7d',
      .symbol ';'] (by decide +kernel) rfl
  | meson =>
    dsimp only
    rw [List.append_cons]
    exact .tokens [.word "nativeBuildInputs".toList, .symbol '=', .symbol '[', .word "meson".toList, .word "meson".toList, .symbol '.',
      .word "configurePhaseHook".toList, .word "ninja".toList, .word "pkg-config".toList, .symbol ']', .symbol ';', .word "mesonEntries".toList,
      .symbol '=', .symbol '\x7b', .symbol '\x7d', .symbol ';'] (by decide +kernel) rfl
  | rust =>
    rw [hkind] at h
    dsimp only
    exact block_hash (nameOf "cargoHash") (pinned_attr hpackage (h (["cargoHash"], info.cargoHash) List.mem_cons_self))
      (.tokens [.word "cargoHash".toList, .symbol '=', .symbol '"'] (by decide +kernel) rfl)
  | go =>
    rw [hkind] at h
    dsimp only
    exact block_hash (nameOf "vendorHash") (pinned_attr hpackage (h (["vendorHash"], info.vendorHash) List.mem_cons_self))
      (.tokens [.word "vendorHash".toList, .symbol '=', .symbol '"'] (by decide +kernel) rfl)
  | python =>
    dsimp only
    have hpinned : Pinned t (.item [] :: .bind (nameOf "pythonImportsCheck") (binds ++ [(nameOf "build-system", .list [.path [nameOf "setuptools"]])]) ::
        packageOpens finalAttrs builder formals, importName info) := .inl ((isRaw_import info).trans hraw)
    have hopen : Block t (atBinds [.code] (packageOpens finalAttrs builder formals) binds)
        "  build-system = [ setuptools ];\n\n  pythonImportsCheck = [ \"".toList (.spelling .string [.code] (.item [] ::
          .bind (nameOf "pythonImportsCheck") (binds ++ [(nameOf "build-system", .list [.path [nameOf "setuptools"]])]) ::
            packageOpens finalAttrs builder formals) []) [] :=
      .tokens [.word "build-system".toList, .symbol '=', .symbol '[', .word "setuptools".toList, .symbol ']', .symbol ';',
        .word "pythonImportsCheck".toList, .symbol '=', .symbol '[', .symbol '"'] (by decide +kernel) rfl
    have hclose : Block t ⟨⟨.code, [.code]⟩, .nothing, given (.literal (importName info)) (.item [] ::
          .bind (nameOf "pythonImportsCheck") (binds ++ [(nameOf "build-system", .list [.path [nameOf "setuptools"]])]) ::
            packageOpens finalAttrs builder formals)⟩ " ];\n\n".toList
        (atBinds [.code] (packageOpens finalAttrs builder formals) (binds ++ [(nameOf "build-system", .list [.path [nameOf "setuptools"]])] ++
          [(nameOf "pythonImportsCheck", .list [.literal (importName info)])])) [] :=
      .tokens [.symbol ']', .symbol ';'] (by decide +kernel) rfl
    rw [List.append_cons]
    refine (hopen.append ((Block.user hpinned).append hclose)).of_eq ?_ rfl
    simp only [String.toList_append]
    simp only [List.append_assoc]
    rfl

/-! ## The whole expression -/

def builderText : TemplateKind → String
  | .stdenv | .cmake | .meson => "stdenv.mkDerivation"
  | .rust => "rustPlatform.buildRustPackage"
  | .go => "buildGoModule"
  | .python => "buildPythonPackage"

def inputsBefore : TemplateKind → List String
  | .stdenv | .cmake | .meson => ["lib", "stdenv"]
  | .rust => ["lib", "rustPlatform"]
  | .go => ["lib", "buildGoModule"]
  | .python => ["lib", "buildPythonPackage"]

def inputsAfter : TemplateKind → List String
  | .cmake => ["cmake"]
  | .meson => ["meson", "ninja", "pkg-config"]
  | .python => ["setuptools"]
  | _ => []

def flagText : TemplateKind → String
  | .python => "  pyproject = true;\n"
  | _ => ""

theorem generate_eq (info : ExpressionInfo) : generate info = renderExpression info (builderText info.kind) (inputsBefore info.kind)
    (inputsAfter info.kind) (flagText info.kind) (lineText info) (renderMeta info (decide (info.kind ≠ .python)) (mainProgram info)) := by
  obtain ⟨kind, pname, version, description, license, homepage, fetcher, srcHash, cargoHash, vendorHash, versionHasVPrefix⟩ := info
  cases kind <;> rfl

theorem inputs_eq (info : ExpressionInfo) : (inputsBefore info.kind ++ (renderFetchBlock info).1 ++ inputsAfter info.kind).map String.toList =
    (expressionFormals info).map Subtype.val := by
  unfold inputsBefore inputsAfter renderFetchBlock expressionFormals
  cases info.kind <;> cases info.fetcher <;> rfl

theorem formals_nodup (info : ExpressionInfo) : ∃ xs, expressionFormals info = nameOf "lib" :: xs ∧ (nameOf "lib" :: xs).Nodup := by
  have hfetch : fetchFormals info.fetcher = [nameOf "fetchFromGitHub"] ∨ fetchFormals info.fetcher = [nameOf "fetchFromGitLab"] ∨
      fetchFormals info.fetcher = [] := by
    cases info.fetcher with
    | gitHub _ _ _ => exact .inl rfl
    | gitLab _ _ _ => exact .inr (.inl rfl)
    | localSource => exact .inr (.inr rfl)
  unfold expressionFormals
  rcases hfetch with hfetch | hfetch | hfetch <;> rw [hfetch] <;> cases info.kind <;> exact ⟨_, rfl, by decide⟩

theorem block_inputs (info : ExpressionInfo) : Block t .start ("\x7b\n  ".toList ++ ((String.intercalate ",\n  " (inputsBefore info.kind ++
    (renderFetchBlock info).1 ++ inputsAfter info.kind)).toList ++ ",\n\x7d:\n\n".toList)) ⟨⟨.code, []⟩, .nothing, .operand, [.body (expressionFormals info)]⟩ [] := by
  obtain ⟨xs, hformals, hnodup⟩ := formals_nodup info
  have hopen : "\x7b\n  ".toList = ['\x7b'] ++ "\n  ".toList := rfl
  have hclose : ",\n\x7d:\n\n".toList = [','] ++ "\n\x7d:\n\n".toList := rfl
  have hreads := reads_inputs hnodup
  rw [← intercalate_formals, List.append_assoc, List.append_assoc] at hreads
  rw [String.toList_intercalate, inputs_eq, hformals, hopen, hclose, List.append_assoc]
  exact ⟨[], hreads, rfl, nofun⟩

theorem block_builder (kind : TemplateKind) (formals : List Name) : Block t ⟨⟨.code, []⟩, .nothing, .operand, [.body formals]⟩
    ((builderText kind).toList ++ " (finalAttrs: \x7b\n  pname = \"".toList)
    (.spelling .string [.code] (.bind (nameOf "pname") [] :: packageOpens finalAttrs (builderTerm kind) formals) []) [] := by
  unfold builderText builderTerm
  cases kind with
  | stdenv | cmake | meson =>
    exact .tokens [.word "stdenv".toList, .symbol '.', .word "mkDerivation".toList, .symbol '(', .word "finalAttrs".toList, .symbol ':',
      .symbol '\x7b', .word "pname".toList, .symbol '=', .symbol '"'] (by decide +kernel) rfl
  | rust =>
    exact .tokens [.word "rustPlatform".toList, .symbol '.', .word "buildRustPackage".toList, .symbol '(', .word "finalAttrs".toList, .symbol ':',
      .symbol '\x7b', .word "pname".toList, .symbol '=', .symbol '"'] (by decide +kernel) rfl
  | go =>
    exact .tokens [.word "buildGoModule".toList, .symbol '(', .word "finalAttrs".toList, .symbol ':', .symbol '\x7b', .word "pname".toList,
      .symbol '=', .symbol '"'] (by decide +kernel) rfl
  | python =>
    exact .tokens [.word "buildPythonPackage".toList, .symbol '(', .word "finalAttrs".toList, .symbol ':', .symbol '\x7b', .word "pname".toList,
      .symbol '=', .symbol '"'] (by decide +kernel) rfl

theorem block_flags (kind : TemplateKind) (a : Name) (s : String) :
    Block t (afterString [.code] opens binds a s) (";\n".toList ++ ((flagText kind).toList ++ "\n".toList))
      (atBinds [.code] opens (binds ++ [(a, .literal s.toList)] ++ flagBinds kind)) [] := by
  unfold flagText flagBinds
  cases kind with
  | python =>
    exact .tokens [.symbol ';', .word "pyproject".toList, .symbol '=', .word "true".toList, .symbol ';'] (by decide +kernel) rfl
  | _ =>
    dsimp only
    rw [List.append_nil]
    exact .tokens [.symbol ';'] (by decide +kernel) rfl

/-- As far as the source. -/
def headText (info : ExpressionInfo) : List Char :=
  ("\x7b\n  ".toList ++ ((String.intercalate ",\n  " (inputsBefore info.kind ++ (renderFetchBlock info).1 ++ inputsAfter info.kind)).toList ++
    ",\n\x7d:\n\n".toList)) ++ (((builderText info.kind).toList ++ " (finalAttrs: \x7b\n  pname = \"".toList) ++
    ((info.pname.toList ++ "\"".toList) ++ (";\n  version = \"".toList ++ ((info.version.toList ++ "\"".toList) ++
      (";\n".toList ++ ((flagText info.kind).toList ++ "\n".toList))))))

theorem block_head (hpackage : t.package = some (self, pkg)) (hpname : HasString pkg (["pname"], info.pname))
    (hversion : HasString pkg (["version"], info.version)) :
    Block t .start (headText info) (atBinds [.code] (packageOpens finalAttrs (builderTerm info.kind) (expressionFormals info)) (headBinds info))
      [info.pname.toList, info.version.toList] := by
  have hname : Pinned t (.bind (nameOf "pname") [] :: packageOpens finalAttrs (builderTerm info.kind) (expressionFormals info), info.pname.toList) :=
    pinned_attr hpackage hpname
  have hvers : Pinned t (.bind (nameOf "version") [(nameOf "pname", .literal info.pname.toList)] ::
      packageOpens finalAttrs (builderTerm info.kind) (expressionFormals info), info.version.toList) := pinned_attr hpackage hversion
  have hnext : Block t (afterString [.code] (packageOpens finalAttrs (builderTerm info.kind) (expressionFormals info)) [] (nameOf "pname") info.pname)
      ";\n  version = \"".toList (.spelling .string [.code] (.bind (nameOf "version") [(nameOf "pname", .literal info.pname.toList)] ::
        packageOpens finalAttrs (builderTerm info.kind) (expressionFormals info)) []) [] :=
    .tokens [.symbol ';', .word "version".toList, .symbol '=', .symbol '"'] (by decide +kernel) rfl
  exact (block_inputs info).append ((block_builder info.kind _).append ((block_string hname).append (hnext.append
    ((block_string hvers).append (block_flags info.kind _ _)))))

def tailText (info : ExpressionInfo) : List Char :=
  (renderFetchBlock info).2.toList ++ ("\n\n".toList ++ ((lineText info).toList ++
    ((renderMeta info (decide (info.kind ≠ .python)) (mainProgram info)).toList ++ "\n\x7d)\n".toList)))

theorem toList_generate (info : ExpressionInfo) : (generate info).toList = headText info ++ tailText info := by
  rw [generate_eq]
  unfold renderExpression headText tailText
  simp only [String.toList_append]
  simp only [List.append_assoc]

theorem packageBinds_nodup (info : ExpressionInfo) (license : Name) : ((packageBinds info license).map Prod.fst).Nodup := by
  obtain ⟨kind, pname, version, description, license', homepage, fetcher, srcHash, cargoHash, vendorHash, versionHasVPrefix⟩ := info
  cases kind with
  | stdenv => exact (by decide : [nameOf "pname", nameOf "version", nameOf "src", nameOf "meta"].Nodup)
  | cmake =>
    exact (by decide : [nameOf "pname", nameOf "version", nameOf "src", nameOf "nativeBuildInputs", nameOf "cmakeEntries", nameOf "meta"].Nodup)
  | meson =>
    exact (by decide : [nameOf "pname", nameOf "version", nameOf "src", nameOf "nativeBuildInputs", nameOf "mesonEntries", nameOf "meta"].Nodup)
  | rust => exact (by decide : [nameOf "pname", nameOf "version", nameOf "src", nameOf "cargoHash", nameOf "meta"].Nodup)
  | go => exact (by decide : [nameOf "pname", nameOf "version", nameOf "src", nameOf "vendorHash", nameOf "meta"].Nodup)
  | python =>
    exact (by decide : [nameOf "pname", nameOf "version", nameOf "pyproject", nameOf "src", nameOf "build-system", nameOf "pythonImportsCheck",
      nameOf "meta"].Nodup)

theorem hasStrings (h : ∀ entry ∈ info.attributes, HasString pkg entry) : HasString pkg (["pname"], info.pname) ∧
    HasString pkg (["version"], info.version) ∧ (∀ entry ∈ fetchAttributes info, HasString pkg entry) ∧
    (∀ entry ∈ lineAttributes info, HasString pkg entry) ∧ HasString pkg (["meta", "description"], info.description) ∧
    (∀ entry ∈ homepageAttributes info, HasString pkg entry) ∧ ∀ entry ∈ programAttributes info, HasString pkg entry := by
  unfold ExpressionInfo.attributes at h
  refine ⟨h _ (by simp), h _ (by simp), fun _ hmem => h _ (by simp [hmem]), fun _ hmem => h _ (by simp [hmem]), h _ (by simp),
    fun _ hmem => h _ (by simp [hmem]), fun _ hmem => h _ (by simp [hmem])⟩

/-- The strings after the version. -/
def tailStrings (info : ExpressionInfo) : List (List Char) :=
  (fetchAttributes info).map (fun entry => entry.2.toList) ++ (lineStrings info ++ ([info.description.toList] ++
    ((homepageAttributes info).map (fun entry => entry.2.toList) ++ ((programAttributes info).map fun entry => entry.2.toList))))

theorem block_tail (hpackage : t.package = some (self, pkg)) (hstrings : ∀ entry ∈ info.attributes, HasString pkg entry)
    (hraw : isRaw info.pname.toList = true) {license : Name} (hlicense : license.val = info.license.toList) :
    Block t (atBinds [.code] (packageOpens finalAttrs (builderTerm info.kind) (expressionFormals info)) (headBinds info)) (tailText info)
      ⟨⟨.code, []⟩, .nothing, .term (.apply (builderTerm info.kind) (.lambda finalAttrs (.set (packageBinds info license)))),
        [.body (expressionFormals info)]⟩ (tailStrings info) := by
  obtain ⟨-, -, hfetch, hline, hdescription, hhomepage, hprogram⟩ := hasStrings hstrings
  have hblank : ∀ {binds : List (Name × Term)}, Block t (atBinds [.code] (packageOpens finalAttrs (builderTerm info.kind) (expressionFormals info)) binds)
      "\n\n".toList (atBinds [.code] (packageOpens finalAttrs (builderTerm info.kind) (expressionFormals info)) binds) [] :=
    .tokens [] (by decide +kernel) rfl
  have hend : Block t (atBinds [.code] (packageOpens finalAttrs (builderTerm info.kind) (expressionFormals info)) (packageBinds info license))
      "\n\x7d)\n".toList ⟨⟨.code, []⟩, .nothing, .term (.apply (builderTerm info.kind) (.lambda finalAttrs (.set (packageBinds info license)))),
        [.body (expressionFormals info)]⟩ [] := .tokens [.symbol '\x7d', .symbol ')'] (by decide +kernel) (foldlM_close (packageBinds_nodup info license) rfl)
  have hall := (block_fetch hpackage hfetch).append (hblank.append ((block_lines hpackage hline hraw).append
    ((block_meta hpackage hdescription hhomepage hprogram hlicense).append hend)))
  refine hall.of_eq rfl ?_
  unfold tailStrings
  simp only [List.append_nil, List.nil_append]

end

/-! ## The attributes of the term -/

theorem package_expressionTerm (info : ExpressionInfo) (license : Name) :
    (expressionTerm info license).package = some (finalAttrs, .set (packageBinds info license)) := by
  unfold expressionTerm builderTerm
  cases info.kind <;> rfl

theorem forgeBinds_nodup {d : Name} (h : [nameOf "owner", nameOf "repo", d, nameOf "tag", nameOf "hash"].Nodup) (owner repo : String)
    (domain : Option String) (info : ExpressionInfo) :
    ((forgeBinds d owner repo domain ++ [(nameOf "tag", tagTerm info)] ++ [(nameOf "hash", Term.literal info.srcHash.toList)]).map Prod.fst).Nodup := by
  cases domain with
  | none => exact h.sublist ((List.Sublist.refl _).cons _ |>.cons_cons _ |>.cons_cons _)
  | some dom => exact h

section
variable (info : ExpressionInfo) (license : Name)

theorem attr_package {a : Name} {v : Term} (hmem : (a, v) ∈ packageBinds info license) :
    (Term.set (packageBinds info license)).attr a.val = some v := attr_of_mem (packageBinds_nodup info license) hmem

theorem at_package {a : Name} {v e : Term} (hmem : (a, v) ∈ packageBinds info license) {as : List (List Char)} (h : v.at as = some e) :
    (Term.set (packageBinds info license)).at (a.val :: as) = some e := by
  rw [Term.at, attr_package info license hmem]
  exact h

theorem at_meta {a : Name} {v : Term} (hmem : (a, v) ∈ metaBinds info license) :
    (Term.set (packageBinds info license)).at ["meta".toList, a.val] = some v := by
  refine at_package info license (a := nameOf "meta") (v := .set (metaBinds info license)) (by simp [packageBinds]) ?_
  rw [Term.at, attr_of_mem (metaBinds_nodup info license) hmem]
  rfl

theorem hasString_forge {function d : Name} {domainAttr : String} (hd : d.val = domainAttr.toList)
    (hkeys : [nameOf "owner", nameOf "repo", d, nameOf "tag", nameOf "hash"].Nodup) {owner repo : String} {domain : Option String}
    (hsrc : srcTerm info = forgeTerm function d owner repo domain info) :
    (∀ entry ∈ forgeAttributes domainAttr owner repo domain info, HasString (.set (packageBinds info license)) entry) ∧
      (Term.set (packageBinds info license)).at ["src".toList, "tag".toList] = some (tagTerm info) := by
  have hattr : ∀ {a : Name} {v : Term}, (a, v) ∈ forgeBinds d owner repo domain ++ [(nameOf "tag", tagTerm info)] ++
      [(nameOf "hash", Term.literal info.srcHash.toList)] → (Term.set (packageBinds info license)).at ["src".toList, a.val] = some v := by
    intro a v hmem
    refine at_package info license (a := nameOf "src") (v := srcTerm info) (by simp [packageBinds]) ?_
    have hset := attr_of_mem (forgeBinds_nodup hkeys owner repo domain info) hmem
    rw [hsrc, forgeTerm_eq, Term.at]
    exact (congrArg (·.bind fun e => some e) hset).trans rfl
  refine ⟨fun entry hmem => ?_, hattr (a := nameOf "tag") (by simp)⟩
  unfold forgeAttributes at hmem
  rw [List.mem_append, List.mem_append] at hmem
  rcases hmem with (hmem | hmem) | hmem
  · rcases List.mem_cons.mp hmem with rfl | hmem
    · exact hattr (a := nameOf "owner") (by simp [forgeBinds])
    · obtain rfl := List.mem_singleton.mp hmem
      exact hattr (a := nameOf "repo") (by simp [forgeBinds])
  · cases domain with
    | none => cases hmem
    | some dom =>
      obtain rfl := List.mem_singleton.mp hmem
      have hdomain := hattr (a := d) (v := .literal dom.toList) (by simp [forgeBinds])
      rw [hd] at hdomain
      exact hdomain
  · obtain rfl := List.mem_singleton.mp hmem
    exact hattr (a := nameOf "hash") (by simp)

theorem hasString_fetch : (∀ entry ∈ fetchAttributes info, HasString (.set (packageBinds info license)) entry) ∧
    (info.fetcher ≠ .localSource → (Term.set (packageBinds info license)).at ["src".toList, "tag".toList] = some (tagTerm info)) := by
  unfold fetchAttributes
  cases hfetcher : info.fetcher with
  | gitHub owner repo domain =>
    have hd : (nameOf "githubBase").val = "githubBase".toList := rfl
    have hsrc : srcTerm info = forgeTerm (nameOf "fetchFromGitHub") (nameOf "githubBase") owner repo domain info := by rw [srcTerm, hfetcher]
    obtain ⟨hstrings, htag⟩ := hasString_forge info license hd (by decide) hsrc
    exact ⟨hstrings, fun _ => htag⟩
  | gitLab owner repo domain =>
    have hd : (nameOf "domain").val = "domain".toList := rfl
    have hsrc : srcTerm info = forgeTerm (nameOf "fetchFromGitLab") (nameOf "domain") owner repo domain info := by rw [srcTerm, hfetcher]
    obtain ⟨hstrings, htag⟩ := hasString_forge info license hd (by decide) hsrc
    exact ⟨hstrings, fun _ => htag⟩
  | localSource => exact ⟨nofun, fun hne => absurd rfl hne⟩

/-- Every string is where it is meant to be. -/
theorem hasString_package : ∀ entry ∈ info.attributes, HasString (.set (packageBinds info license)) entry := by
  intro entry hmem
  unfold ExpressionInfo.attributes at hmem
  rw [List.mem_append, List.mem_append, List.mem_append, List.mem_append, List.mem_append] at hmem
  rcases hmem with ((((hmem | hmem) | hmem) | hmem) | hmem) | hmem
  · rcases List.mem_cons.mp hmem with rfl | hmem
    · exact at_package info license (a := nameOf "pname") (v := .literal info.pname.toList) (by simp [packageBinds, headBinds]) rfl
    · obtain rfl := List.mem_singleton.mp hmem
      exact at_package info license (a := nameOf "version") (v := .literal info.version.toList) (by simp [packageBinds, headBinds]) rfl
  · exact (hasString_fetch info license).1 entry hmem
  · unfold lineAttributes at hmem
    cases hkind : info.kind with
    | rust =>
      rw [hkind] at hmem
      obtain rfl := List.mem_singleton.mp hmem
      exact at_package info license (a := nameOf "cargoHash") (v := .literal info.cargoHash.toList) (by simp [packageBinds, lineBinds, hkind]) rfl
    | go =>
      rw [hkind] at hmem
      obtain rfl := List.mem_singleton.mp hmem
      exact at_package info license (a := nameOf "vendorHash") (v := .literal info.vendorHash.toList) (by simp [packageBinds, lineBinds, hkind]) rfl
    | _ =>
      rw [hkind] at hmem
      cases hmem
  · obtain rfl := List.mem_singleton.mp hmem
    exact at_meta info license (a := nameOf "description") (by simp [metaBinds])
  · unfold homepageAttributes at hmem
    split at hmem
    · next hhome =>
      obtain rfl := List.mem_singleton.mp hmem
      exact at_meta info license (a := nameOf "homepage") (by simp only [metaBinds, homepageBinds, if_pos hhome]; simp)
    · cases hmem
  · unfold programAttributes at hmem
    split at hmem
    · next hkind =>
      obtain rfl := List.mem_singleton.mp hmem
      exact at_meta info license (a := nameOf "mainProgram") (by simp only [metaBinds, programBinds, if_pos hkind]; simp)
    · cases hmem

theorem license_package : (Term.set (packageBinds info license)).at ["meta".toList, "license".toList] =
    some (.path [nameOf "lib", nameOf "licenses", license]) :=
  at_meta info license (a := nameOf "license") (by simp [metaBinds])

/-! ## Its names -/

theorem scoped_src {scope : List Name} (hself : finalAttrs ∈ scope) (hfetch : ∀ x ∈ fetchFormals info.fetcher, x ∈ scope) :
    (srcTerm info).scoped scope = true := by
  have htag : (tagTerm info).scoped scope = true := by
    unfold tagTerm
    split <;> simp [Term.scoped, Part.allScoped, hself]
  have hforge : ∀ {f d : Name} {owner repo : String} {domain : Option String}, f ∈ scope → (forgeTerm f d owner repo domain info).scoped scope = true := by
    intro f d owner repo domain hf
    rw [forgeTerm_eq]
    cases domain <;> simp [forgeBinds, Term.scoped, Term.bindsScoped, scoped_literal, htag, hf]
  unfold srcTerm
  cases hfetcher : info.fetcher with
  | gitHub owner repo domain => exact hforge (hfetch _ (by rw [hfetcher]; exact List.mem_cons_self))
  | gitLab owner repo domain => exact hforge (hfetch _ (by rw [hfetcher]; exact List.mem_cons_self))
  | localSource => rfl

theorem scoped_meta {scope : List Name} (hlib : nameOf "lib" ∈ scope) : Term.bindsScoped scope (metaBinds info license) = true := by
  unfold metaBinds homepageBinds programBinds
  split_ifs <;> simp [Term.scoped, Term.bindsScoped, scoped_literal, hlib]

theorem scoped_lines {scope : List Name} (h : ∀ x ∈ expressionFormals info, x ∈ scope) : Term.bindsScoped scope (lineBinds info) = true := by
  unfold expressionFormals at h
  unfold lineBinds
  cases hkind : info.kind with
  | stdenv => rfl
  | cmake =>
    have hcmake : nameOf "cmake" ∈ scope := h _ (by rw [hkind]; simp)
    simp [Term.scoped, Term.bindsScoped, Term.allScoped, hcmake]
  | meson =>
    have hmeson : nameOf "meson" ∈ scope := h _ (by rw [hkind]; simp)
    have hninja : nameOf "ninja" ∈ scope := h _ (by rw [hkind]; simp)
    have hpkg : nameOf "pkg-config" ∈ scope := h _ (by rw [hkind]; simp)
    simp [Term.scoped, Term.bindsScoped, Term.allScoped, hmeson, hninja, hpkg]
  | rust | go => simp [Term.bindsScoped, scoped_literal]
  | python =>
    have hsetuptools : nameOf "setuptools" ∈ scope := h _ (by rw [hkind]; simp)
    simp [Term.scoped, Term.bindsScoped, Term.allScoped, scoped_literal, hsetuptools]

theorem scoped_expressionTerm : (expressionTerm info license).scoped constants = true := by
  have hformals : ∀ x ∈ expressionFormals info, x ∈ finalAttrs :: (expressionFormals info ++ constants) :=
    fun x hmem => List.mem_cons_of_mem _ (List.mem_append_left _ hmem)
  have hlib : nameOf "lib" ∈ expressionFormals info := by
    obtain ⟨xs, heq, -⟩ := formals_nodup info
    rw [heq]
    exact List.mem_cons_self
  have hfetch : ∀ x ∈ fetchFormals info.fetcher, x ∈ expressionFormals info := by
    intro x hmem
    unfold expressionFormals
    cases info.kind <;> simp [hmem]
  have hbuilder : (builderTerm info.kind).scoped (expressionFormals info ++ constants) = true := by
    unfold builderTerm expressionFormals
    cases info.kind <;> simp [Term.scoped]
  have hhead : Term.bindsScoped (finalAttrs :: (expressionFormals info ++ constants)) (headBinds info) = true := by
    have htrue : nameOf "true" ∈ finalAttrs :: (expressionFormals info ++ constants) :=
      List.mem_cons_of_mem _ (List.mem_append_right _ List.mem_cons_self)
    unfold headBinds flagBinds
    cases info.kind <;> simp [Term.bindsScoped, Term.scoped, scoped_literal, htrue]
  have hsrc := scoped_src info List.mem_cons_self fun x hmem => hformals x (hfetch x hmem)
  have hmeta := scoped_meta info license (hformals _ hlib)
  have hlines := scoped_lines info hformals
  rw [expressionTerm, Term.scoped, Term.scoped, Term.scoped, Term.scoped, hbuilder, packageBinds, bindsScoped_append, bindsScoped_append,
    bindsScoped_append, hhead, hlines]
  simp [Term.bindsScoped, Term.scoped, hsrc, hmeta]

end

/-! ## Faithful expressions -/

theorem attributes_strings (info : ExpressionInfo) : ∀ entry ∈ info.attributes,
    entry.2.toList ∈ [info.pname.toList, info.version.toList] ++ tailStrings info := by
  have hline : ∀ entry ∈ lineAttributes info, entry.2.toList ∈ lineStrings info := by
    unfold lineAttributes lineStrings
    cases info.kind with
    | rust | go => exact fun entry hmem => List.mem_singleton.mp hmem ▸ List.mem_cons_self
    | _ => exact nofun
  have hmap : ∀ {entry : List String × String} {entries : List (List String × String)}, entry ∈ entries →
      entry.2.toList ∈ entries.map fun entry => entry.2.toList := fun hmem => List.mem_map_of_mem hmem
  intro entry hmem
  unfold ExpressionInfo.attributes at hmem
  unfold tailStrings
  simp only [List.mem_append] at hmem ⊢
  rcases hmem with ((((hmem | hmem) | hmem) | hmem) | hmem) | hmem
  · rcases List.mem_cons.mp hmem with rfl | hmem
    · exact .inl List.mem_cons_self
    · obtain rfl := List.mem_singleton.mp hmem
      exact .inl (List.mem_cons_of_mem _ List.mem_cons_self)
  · exact .inr (.inl (hmap hmem))
  · exact .inr (.inr (.inl (hline entry hmem)))
  · obtain rfl := List.mem_singleton.mp hmem
    exact .inr (.inr (.inr (.inl List.mem_cons_self)))
  · exact .inr (.inr (.inr (.inr (.inl (hmap hmem)))))
  · exact .inr (.inr (.inr (.inr (.inr (hmap hmem)))))

theorem raw_strings {info : ExpressionInfo} (h : ∀ entry ∈ info.attributes, isRaw entry.2.toList = true) :
    ∀ s ∈ [info.pname.toList, info.version.toList] ++ tailStrings info, isRaw s = true := by
  have hname : isRaw info.pname.toList = true := h (["pname"], info.pname) (by simp [ExpressionInfo.attributes])
  have hversion : isRaw info.version.toList = true := h (["version"], info.version) (by simp [ExpressionInfo.attributes])
  have hdescription : isRaw info.description.toList = true := h (["meta", "description"], info.description) (by simp [ExpressionInfo.attributes])
  have hline : ∀ s ∈ lineStrings info, isRaw s = true := by
    have hattrs : ∀ entry ∈ lineAttributes info, isRaw entry.2.toList = true := fun entry hmem => h entry (by simp [ExpressionInfo.attributes, hmem])
    unfold lineStrings
    unfold lineAttributes at hattrs
    cases hkind : info.kind with
    | rust | go =>
      rw [hkind] at hattrs
      exact fun s hmem => List.mem_singleton.mp hmem ▸ hattrs _ List.mem_cons_self
    | python => exact fun s hmem => List.mem_singleton.mp hmem ▸ (isRaw_import info).trans hname
    | _ => exact nofun
  intro s hmem
  unfold tailStrings at hmem
  simp only [List.mem_append, List.mem_map, List.mem_cons, List.not_mem_nil, or_false] at hmem
  rcases hmem with (rfl | rfl) | ⟨entry, hmem, rfl⟩ | hmem | rfl | ⟨entry, hmem, rfl⟩ | ⟨entry, hmem, rfl⟩
  · exact hname
  · exact hversion
  · exact h entry (by simp [ExpressionInfo.attributes, hmem])
  · exact hline s hmem
  · exact hdescription
  · exact h entry (by simp [ExpressionInfo.attributes, hmem])
  · exact h entry (by simp [ExpressionInfo.attributes, hmem])

theorem written_of_plain {info : ExpressionInfo} (h : info.Plain) : ∃ license : Name,
    info.Written (expressionTerm info license) finalAttrs (.set (packageBinds info license)) := by
  obtain ⟨hraw, hname⟩ := h
  let license : Name := ⟨info.license.toList, hname⟩
  have hpackage := package_expressionTerm info license
  have hstrings := hasString_package info license
  obtain ⟨hpname, hversion, -⟩ := hasStrings hstrings
  have hpnameRaw : isRaw info.pname.toList = true := hraw (["pname"], info.pname) (by simp [ExpressionInfo.attributes])
  have htail := block_tail hpackage hstrings hpnameRaw (rfl : license.val = info.license.toList)
  have hblock := (block_head hpackage hpname hversion).append htail
  have hfeed := hblock.feed (raw_strings hraw)
  refine ⟨license, ?_, scoped_expressionTerm info license, hpackage, hstrings, license, rfl, license_package info license⟩
  rw [parseTerm, toList_generate, Reader.complete, hfeed]
  rfl

theorem plain_of_written {info : ExpressionInfo} {t pkg : Term} {self : Name} (h : info.Written t self pkg) : info.Plain := by
  obtain ⟨hparses, -, hpackage, hstrings, license, hlicense, -⟩ := h
  obtain ⟨hpname, hversion, -⟩ := hasStrings hstrings
  rw [parseTerm, toList_generate] at hparses
  have hhead := block_head hpackage hpname hversion
  have hpnameRaw := hhead.raw hparses info.pname.toList List.mem_cons_self
  have hall := hhead.append (block_tail hpackage hstrings hpnameRaw hlicense)
  rw [← List.append_nil (headText info ++ tailText info)] at hparses
  have hraw := hall.raw hparses
  exact ⟨fun entry hmem => hraw _ (attributes_strings info entry hmem), hlicense ▸ license.property⟩

theorem faithful_iff (info : ExpressionInfo) : info.Faithful ↔ info.Plain := by
  constructor
  · rintro ⟨t, self, pkg, h⟩
    exact plain_of_written h
  · intro h
    obtain ⟨license, hwritten⟩ := written_of_plain h
    exact ⟨_, _, _, hwritten⟩

/-! ## Tags -/

/-- The tag of the source in the generated text. -/
def ExpressionInfo.HasTag (info : ExpressionInfo) (tag : String) : Prop :=
  ∃ t self pkg e, info.Written t self pkg ∧ pkg.at ["src".toList, "tag".toList] = some e ∧ Term.Evaluates self pkg e tag.toList

theorem hasTag_iff {info : ExpressionInfo} (h : info.Plain) (hremote : info.fetcher ≠ .localSource) (tag : String) :
    info.HasTag tag ↔ tag.toList = (if info.versionHasVPrefix then ['v'] else []) ++ info.version.toList := by
  obtain ⟨license, hwritten⟩ := written_of_plain h
  have htag := (hasString_fetch info license).2 hremote
  have hversion : (Term.set (packageBinds info license)).attr (nameOf "version").val = some (.literal info.version.toList) :=
    attr_package info license (by simp [packageBinds, headBinds])
  have hevaluates := evaluates_attr finalAttrs hversion (if info.versionHasVPrefix then ['v'] else []) tag.toList
  rw [← hevaluates]
  constructor
  · rintro ⟨t, self, pkg, e, hwritten', hat, heval⟩
    obtain rfl := Option.some.inj (hwritten.parses.symm.trans hwritten'.parses)
    obtain ⟨rfl, rfl⟩ := Prod.mk.inj (Option.some.inj (hwritten.package.symm.trans hwritten'.package))
    rw [htag] at hat
    cases hat
    exact heval
  · exact fun heval => ⟨_, _, _, _, hwritten, htag, heval⟩

/-- Two `v`s are read as one. -/
theorem trimmed_iff : ∀ cs : List Char, cs = (if cs.head? = some 'v' then ['v'] else []) ++ cs.dropWhile (fun c => decide (c = 'v')) ↔
    ¬ ['v', 'v'] <+: cs
  | [] => iff_of_true rfl (by simp)
  | [c] => by
    by_cases hc : c = 'v'
    · subst hc
      exact iff_of_true rfl (by simp)
    · refine iff_of_true ?_ (by simp)
      rw [List.head?_cons, if_neg fun h => hc (Option.some.inj h), List.dropWhile_cons_of_neg (by simpa using hc)]
      rfl
  | c :: d :: cs => by
    by_cases hc : c = 'v'
    · subst hc
      by_cases hd : d = 'v'
      · subst hd
        refine iff_of_false (fun h => ?_) fun h => h ⟨cs, rfl⟩
        have hlength := congrArg List.length h
        have hle : (cs.dropWhile fun c => decide (c = 'v')).length ≤ cs.length := (List.dropWhile_suffix _).length_le
        rw [List.dropWhile_cons_of_pos (by decide), List.dropWhile_cons_of_pos (by decide)] at hlength
        simp at hlength
        omega
      · refine iff_of_true ?_ (by simpa using fun h => hd h.symm)
        rw [List.dropWhile_cons_of_pos (by decide), List.dropWhile_cons_of_neg (by simpa using hd)]
        rfl
    · refine iff_of_true ?_ (by simp [Ne.symm hc])
      rw [List.head?_cons, if_neg fun h => hc (Option.some.inj h), List.dropWhile_cons_of_neg (by simpa using hc)]
      rfl

/-- From information with this fetcher, and with the version of the last tag. -/
structure Filled.OfLast (fetcher : Fetcher) (filled : Filled) : Prop where
  fetcher : filled.info.fetcher = fetcher
  last : ∀ tag ∈ filled.tags.getLast?, filled.info.versionHasVPrefix = decide (tag.toList.head? = some 'v') ∧
    filled.info.version.toList = tag.toList.dropWhile fun c => decide (c = 'v')

theorem ofLast_readTag? (tag : Option String) {fetcher : Fetcher} {filled : Filled} (h : filled.OfLast fetcher) : (readTag? tag filled).OfLast fetcher := by
  cases tag with
  | none => exact h
  | some tag =>
    refine ⟨h.fetcher, fun last hlast => ?_⟩
    rw [readTag?, readTag, List.getLast?_concat] at hlast
    obtain rfl := Option.some.inj hlast
    exact ⟨rfl, String.toList_ofList⟩

theorem ofLast_new (info : ExpressionInfo) : (⟨info, []⟩ : Filled).OfLast info.fetcher := ⟨rfl, nofun⟩

theorem ofLast_readGithubVersion (forge : Forge) (info : ExpressionInfo) : (readGithubVersion forge info).OfLast info.fetcher := by
  have hrelease := ofLast_readTag? forge.latestRelease (ofLast_new info)
  unfold readGithubVersion
  dsimp only
  split_ifs
  · exact ofLast_readTag? _ hrelease
  · exact hrelease
  · exact ofLast_new info

theorem ofLast_readGitlabVersion (forge : Forge) (info : ExpressionInfo) : (readGitlabVersion forge info).OfLast info.fetcher := by
  unfold readGitlabVersion
  split_ifs
  · exact ofLast_readTag? _ (ofLast_new info)
  · exact ofLast_new info

@[simp] theorem fetcher_fillPname (name : Option String) (info : ExpressionInfo) : (fillPname name info).fetcher = info.fetcher := by
  unfold fillPname
  split_ifs <;> rfl

@[simp] theorem fetcher_fillDescription (desc : Option String) (info : ExpressionInfo) : (fillDescription desc info).fetcher = info.fetcher := by
  unfold fillDescription
  split_ifs <;> rfl

@[simp] theorem fetcher_fillHomepage (url : Option String) (info : ExpressionInfo) : (fillHomepage url info).fetcher = info.fetcher := by
  unfold fillHomepage
  split_ifs <;> rfl

@[simp] theorem fetcher_fillLicense (license : Option String) (info : ExpressionInfo) : (fillLicense license info).fetcher = info.fetcher := by
  unfold fillLicense
  split_ifs <;> rfl

theorem fetchMetadata_ofLast (forge : Forge) (info : ExpressionInfo) : (fetchMetadata forge info).OfLast info.fetcher := by
  unfold fetchMetadata
  split
  · next owner repo domain _ =>
    unfold fetchGithubMetadata
    split_ifs
    · exact ofLast_new info
    · split
      · exact ofLast_new info
      · have h := ofLast_readGithubVersion forge (fillLicense (forge.spdxId.bind githubLicenseToNix) (fillHomepage
          (some ("https://github.com/" ++ owner ++ "/" ++ repo)) (fillDescription forge.description (fillPname ‹_› info))))
        simpa using h
  · unfold fetchGitlabMetadata
    split
    · exact ofLast_new info
    · have h := ofLast_readGitlabVersion forge (fillHomepage forge.webUrl (fillDescription (forge.description.filter fun desc => !desc.isEmpty)
        (fillPname ‹_› info)))
      simpa using h
  · exact ofLast_new info

/-- No tag is read for a local source. -/
theorem fetchMetadata_local {forge : Forge} {info : ExpressionInfo} (h : info.fetcher = .localSource) : (fetchMetadata forge info).tags = [] := by
  unfold fetchMetadata
  rw [h]

/-- The generated package has every string it was given exactly when each can stand
between quotes and the license is a name; and it has all release tags that were read
when they are the same one, without a second `v` before the version. -/
theorem expressions_faithful (info : ExpressionInfo) (forge : Forge) :
    (info.Faithful ↔ info.Plain) ∧
    (((fetchMetadata forge info).info.Faithful ∧ ∀ tag ∈ (fetchMetadata forge info).tags, (fetchMetadata forge info).info.HasTag tag) ↔
      (fetchMetadata forge info).info.Plain ∧ (∀ tag ∈ (fetchMetadata forge info).tags, ¬ ['v', 'v'] <+: tag.toList) ∧
        ∀ tag ∈ (fetchMetadata forge info).tags, ∀ tag' ∈ (fetchMetadata forge info).tags, tag = tag') := by
  refine ⟨faithful_iff info, ?_⟩
  obtain ⟨hfetcher, hlast⟩ := fetchMetadata_ofLast forge info
  rw [faithful_iff]
  refine and_congr_right fun hplain => ?_
  rcases List.eq_nil_or_concat (fetchMetadata forge info).tags with hnil | ⟨init, last, hconcat⟩
  · rw [hnil]
    exact iff_of_true nofun ⟨nofun, nofun⟩
  · have hremote : (fetchMetadata forge info).info.fetcher ≠ .localSource := by
      rw [hfetcher]
      intro hlocal
      rw [fetchMetadata_local hlocal] at hconcat
      exact absurd hconcat.symm (by simp)
    obtain ⟨hflag, hversion⟩ := hlast last (by rw [hconcat, List.concat_eq_append, List.getLast?_concat]; rfl)
    have hmem : last ∈ (fetchMetadata forge info).tags := by
      rw [hconcat, List.concat_eq_append]
      exact List.mem_append_right _ List.mem_cons_self
    have htag := hasTag_iff hplain hremote
    rw [hflag, hversion] at htag
    simp only [decide_eq_true_eq] at htag
    constructor
    · intro h
      have hall : ∀ tag ∈ (fetchMetadata forge info).tags, tag = last := by
        intro tag htags
        exact String.toList_inj.mp (((htag tag).mp (h tag htags)).trans ((htag last).mp (h last hmem)).symm)
      refine ⟨fun tag htags => ?_, fun tag htags tag' htags' => (hall tag htags).trans (hall tag' htags').symm⟩
      rw [hall tag htags]
      exact (trimmed_iff last.toList).mp ((htag last).mp (h last hmem))
    · rintro ⟨hdouble, hsame⟩ tag htags
      rw [hsame tag htags last hmem]
      exact (htag last).mpr ((trimmed_iff last.toList).mpr (hdouble last hmem))

/-- A forge where the latest release has two `v`s and the description has quotes. -/
def quotingForge : Forge := ⟨some (some "tool"), some "the \"best\" tool", none, some "MIT", some "vv1", none⟩

theorem quotes_unfaithful : ¬(fetchMetadata quotingForge (.withDefaults .rust)).info.Faithful ∧
    ¬(fetchMetadata { quotingForge with description := some "a tool" } (.withDefaults .rust)).info.HasTag "vv1" := by
  constructor
  · intro h
    have hraw := ((faithful_iff _).mp h).1 (["meta", "description"], "the \"best\" tool") (by decide)
    exact absurd hraw (by decide)
  · intro h
    have hplain : (fetchMetadata { quotingForge with description := some "a tool" } (.withDefaults .rust)).info.Plain := by
      unfold ExpressionInfo.Plain
      decide
    have htag := (hasTag_iff hplain (by decide) "vv1").mp h
    exact absurd htag (by decide)

end Ekapkgs
