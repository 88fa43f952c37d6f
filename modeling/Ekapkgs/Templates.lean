import Ekapkgs.Escaping
import Ekapkgs.Lib.NixAttrs

/-!
# Package templates

`commands/template/expression.rs`, which writes a package expression for the
information about a project, and the metadata of a forge that `url.rs` fills in. Every
string stands between its quotes as it is.
-/

namespace Ekapkgs
open Nix

/-! ## Package information -/

inductive TemplateKind where
  | stdenv
  | cmake
  | meson
  | rust
  | go
  | python
  deriving DecidableEq

inductive Fetcher where
  | gitHub (owner repo : String) (domain : Option String)
  | gitLab (owner repo : String) (domain : Option String)
  | localSource
  deriving DecidableEq

structure ExpressionInfo where
  kind : TemplateKind
  pname : String
  version : String
  description : String
  license : String
  homepage : String
  fetcher : Fetcher
  srcHash : String
  cargoHash : String
  vendorHash : String
  versionHasVPrefix : Bool
  deriving DecidableEq

def FAKE_HASH : String := "sha256-AAAAAAAAAAAAAAAAAAAAAAAAAAAAAAAAAAAAAAAAAAA="

def ExpressionInfo.withDefaults (kind : TemplateKind) : ExpressionInfo where
  kind := kind
  pname := "CHANGEME"
  version := "0.0.1"
  description := "CHANGEME"
  license := "unfree"
  homepage := ""
  fetcher := .gitHub "CHANGEME" "CHANGEME" none
  srcHash := FAKE_HASH
  cargoHash := FAKE_HASH
  vendorHash := FAKE_HASH
  versionHasVPrefix := true

/-! ## Expressions -/

def tagValue (info : ExpressionInfo) : String :=
  if info.versionHasVPrefix then "v$\x7bfinalAttrs.version\x7d" else "$\x7bfinalAttrs.version\x7d"

/-- The block of a forge, by its function and the attribute for its domain. -/
def forgeBlock (function domainAttr owner repo : String) (domain : Option String) (info : ExpressionInfo) : String :=
  "  src = " ++ function ++ " \x7b\n    owner = \"" ++ owner ++ "\"" ++ ";\n    repo = \"" ++ repo ++ "\"" ++ ";" ++
    (match domain with
      | some d => "\n    " ++ domainAttr ++ " = \"" ++ d ++ "\"" ++ ";"
      | none => "") ++
    "\n    tag = \"" ++ tagValue info ++ "\"" ++ ";\n    hash = \"" ++ info.srcHash ++ "\"" ++ ";\n  \x7d;"

def renderFetchBlock (info : ExpressionInfo) : List String × String :=
  match info.fetcher with
  | .gitHub owner repo domain => (["fetchFromGitHub"], forgeBlock "fetchFromGitHub" "githubBase" owner repo domain info)
  | .gitLab owner repo domain => (["fetchFromGitLab"], forgeBlock "fetchFromGitLab" "domain" owner repo domain info)
  | .localSource => ([], "  src = ./.;")

def metaLines (info : ExpressionInfo) (includeHomepage : Bool) (mainProgram : Option String) : List String :=
  ["    description = \"" ++ info.description ++ "\"" ++ ";"] ++
    (if includeHomepage && !info.homepage.isEmpty then ["    homepage = \"" ++ info.homepage ++ "\"" ++ ";"] else []) ++
    ["    license = lib.licenses." ++ info.license ++ ";"] ++
    (match mainProgram with
      | some prog => ["    mainProgram = \"" ++ prog ++ "\"" ++ ";"]
      | none => []) ++
    ["    platforms = lib.platforms.linux;"]

def renderMeta (info : ExpressionInfo) (includeHomepage : Bool) (mainProgram : Option String) : String :=
  "  meta = \x7b\n" ++ String.intercalate "\n" (metaLines info includeHomepage mainProgram) ++ "\n  \x7d;"

/-- The expression of a builder, with lines of its own after the version and before the metadata. -/
def renderExpression (info : ExpressionInfo) (builder : String) (before after : List String) (flags lines metadata : String) : String :=
  "\x7b\n  " ++ String.intercalate ",\n  " (before ++ (renderFetchBlock info).1 ++ after) ++ ",\n\x7d:\n\n" ++ builder ++
    " (finalAttrs: \x7b\n  pname = \"" ++ info.pname ++ "\"" ++ ";\n  version = \"" ++ info.version ++ "\"" ++ ";\n" ++ flags ++ "\n" ++
    (renderFetchBlock info).2 ++ "\n\n" ++ lines ++ metadata ++ "\n\x7d)\n"

def generateStdenv (info : ExpressionInfo) : String :=
  renderExpression info "stdenv.mkDerivation" ["lib", "stdenv"] [] "" "" (renderMeta info true none)

def generateCmake (info : ExpressionInfo) : String :=
  renderExpression info "stdenv.mkDerivation" ["lib", "stdenv"] ["cmake"] ""
    "  nativeBuildInputs = [\n    cmake\n    cmake.configurePhaseHook\n  ];\n\n  cmakeEntries = \x7b\n  \x7d;\n\n" (renderMeta info true none)

def generateMeson (info : ExpressionInfo) : String :=
  renderExpression info "stdenv.mkDerivation" ["lib", "stdenv"] ["meson", "ninja", "pkg-config"] ""
    "  nativeBuildInputs = [\n    meson\n    meson.configurePhaseHook\n    ninja\n    pkg-config\n  ];\n\n  mesonEntries = \x7b\n  \x7d;\n\n"
    (renderMeta info true none)

def generateRust (info : ExpressionInfo) : String :=
  renderExpression info "rustPlatform.buildRustPackage" ["lib", "rustPlatform"] [] ""
    ("  cargoHash = \"" ++ info.cargoHash ++ "\"" ++ ";\n\n") (renderMeta info true (some info.pname))

def generateGo (info : ExpressionInfo) : String :=
  renderExpression info "buildGoModule" ["lib", "buildGoModule"] [] ""
    ("  vendorHash = \"" ++ info.vendorHash ++ "\"" ++ ";\n\n") (renderMeta info true (some info.pname))

def generatePython (info : ExpressionInfo) : String :=
  renderExpression info "buildPythonPackage" ["lib", "buildPythonPackage"] ["setuptools"] "  pyproject = true;\n"
    ("  build-system = [ setuptools ];\n\n  pythonImportsCheck = [ \"" ++ replaceChar '-' "_" info.pname ++ "\"" ++ " ];\n\n")
    (renderMeta info false none)

def generate (info : ExpressionInfo) : String :=
  match info.kind with
  | .stdenv => generateStdenv info
  | .cmake => generateCmake info
  | .meson => generateMeson info
  | .rust => generateRust info
  | .go => generateGo info
  | .python => generatePython info

/-! ## Metadata of a forge -/

/-- The attributes of license texts. -/
def githubLicenseToNix (spdxId : String) : Option String :=
  if spdxId = "MIT" then some "mit"
  else if spdxId = "Apache-2.0" then some "asl20"
  else if spdxId = "GPL-2.0" ∨ spdxId = "GPL-2.0-only" then some "gpl2Only"
  else if spdxId = "GPL-2.0-or-later" then some "gpl2Plus"
  else if spdxId = "GPL-3.0" ∨ spdxId = "GPL-3.0-only" then some "gpl3Only"
  else if spdxId = "GPL-3.0-or-later" then some "gpl3Plus"
  else if spdxId = "LGPL-2.1" ∨ spdxId = "LGPL-2.1-only" then some "lgpl21Only"
  else if spdxId = "LGPL-2.1-or-later" then some "lgpl21Plus"
  else if spdxId = "LGPL-3.0" ∨ spdxId = "LGPL-3.0-only" then some "lgpl3Only"
  else if spdxId = "LGPL-3.0-or-later" then some "lgpl3Plus"
  else if spdxId = "BSD-2-Clause" then some "bsd2"
  else if spdxId = "BSD-3-Clause" then some "bsd3"
  else if spdxId = "ISC" then some "isc"
  else if spdxId = "MPL-2.0" then some "mpl20"
  else if spdxId = "Unlicense" then some "unlicense"
  else if spdxId = "AGPL-3.0" ∨ spdxId = "AGPL-3.0-only" then some "agpl3Only"
  else if spdxId = "AGPL-3.0-or-later" then some "agpl3Plus"
  else if spdxId = "Zlib" then some "zlib"
  else if spdxId = "BSL-1.0" then some "boost"
  else if spdxId = "CC0-1.0" then some "cc0"
  else none

/-- What the answers of a forge's API say: the project, unless the request fails, the
latest release and the first tag, where there are any. -/
structure Forge where
  /-- GitHub's `name`, GitLab's `path`. -/
  project : Option (Option String)
  description : Option String
  webUrl : Option String
  spdxId : Option String
  latestRelease : Option String
  firstTag : Option String

/-- The information filled in, and the release tags that were read. -/
structure Filled where
  info : ExpressionInfo
  tags : List String

def readTag (tag : String) (filled : Filled) : Filled :=
  ⟨{ filled.info with
      versionHasVPrefix := tag.toList.head? = some 'v'
      version := String.ofList (tag.toList.dropWhile fun c => c = 'v') }, filled.tags ++ [tag]⟩

def readTag? (tag : Option String) (filled : Filled) : Filled :=
  match tag with
  | some tag => readTag tag filled
  | none => filled

def fillPname (name : Option String) (info : ExpressionInfo) : ExpressionInfo :=
  if info.pname = "CHANGEME" then { info with pname := name.getD info.pname } else info

def fillDescription (desc : Option String) (info : ExpressionInfo) : ExpressionInfo :=
  if info.description = "CHANGEME" then { info with description := desc.getD info.description } else info

def fillHomepage (url : Option String) (info : ExpressionInfo) : ExpressionInfo :=
  if info.homepage.isEmpty then { info with homepage := url.getD info.homepage } else info

def fillLicense (license : Option String) (info : ExpressionInfo) : ExpressionInfo :=
  if info.license = "unfree" then { info with license := license.getD info.license } else info

/-- The first tag stands in for a release of the placeholder version. -/
def readGithubVersion (forge : Forge) (info : ExpressionInfo) : Filled :=
  if info.version = "0.0.1" then
    let filled := readTag? forge.latestRelease ⟨info, []⟩
    if filled.info.version = "0.0.1" then readTag? forge.firstTag filled else filled
  else ⟨info, []⟩

def fetchGithubMetadata (owner repo : String) (domain : Option String) (forge : Forge) (info : ExpressionInfo) : Filled :=
  -- only the public API
  if domain.isSome then ⟨info, []⟩
  else
    match forge.project with
    | none => ⟨info, []⟩
    | some name =>
      let info := fillDescription forge.description (fillPname name info)
      let info := fillHomepage (some ("https://github.com/" ++ owner ++ "/" ++ repo)) info
      readGithubVersion forge (fillLicense (forge.spdxId.bind githubLicenseToNix) info)

def readGitlabVersion (forge : Forge) (info : ExpressionInfo) : Filled :=
  if info.version = "0.0.1" then readTag? forge.firstTag ⟨info, []⟩ else ⟨info, []⟩

/-- Also for self-hosted instances. -/
def fetchGitlabMetadata (forge : Forge) (info : ExpressionInfo) : Filled :=
  match forge.project with
  | none => ⟨info, []⟩
  | some name =>
    let info := fillDescription (forge.description.filter fun desc => !desc.isEmpty) (fillPname name info)
    readGitlabVersion forge (fillHomepage forge.webUrl info)

/-- As `execute` calls them. -/
def fetchMetadata (forge : Forge) (info : ExpressionInfo) : Filled :=
  match info.fetcher with
  | .gitHub owner repo domain => fetchGithubMetadata owner repo domain forge info
  | .gitLab _ _ _ => fetchGitlabMetadata forge info
  | .localSource => ⟨info, []⟩

end Ekapkgs
