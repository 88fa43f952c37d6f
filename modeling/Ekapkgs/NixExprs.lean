import Ekapkgs.Escaping
import Ekapkgs.Lib.NixLexer

/-!
# Generated Nix expressions

`build_docker_expr` of `commands/docker.rs` and `build_services_nix_expr` of
`commands/home.rs`. Every string of a user is the text of a literal, except the
attribute path of an installable, which is code.
-/

namespace Ekapkgs
open Nix

/-! ## Escaping -/

/-- Escape a string for use inside nix double quotes. -/
def escapeNixString (s : String) : String :=
  replaceStr "$\x7b" "\\$\x7b" (replaceChar '\t' "\\t" (replaceChar '\n' "\\n" (replaceChar '"' "\\\"" (replaceChar '\\' "\\\\" s))))

/-- What the four replacements of a character make of it. -/
def escapedChar (c : Char) : List Char :=
  if c = '\\' then ['\\', '\\'] else if c = '"' then ['\\', '"'] else if c = '\n' then ['\\', 'n']
  else if c = '\t' then ['\\', 't'] else [c]

theorem replaced_chars (s : String) :
    (replaceChar '\t' "\\t" (replaceChar '\n' "\\n" (replaceChar '"' "\\\"" (replaceChar '\\' "\\\\" s)))).toList =
      s.toList.flatMap escapedChar := by
  have hstep : ∀ c : Char, ((((if c = '\\' then ['\\', '\\'] else [c]).flatMap fun c => if c = '"' then ['\\', '"'] else [c]).flatMap
      fun c => if c = '\n' then ['\\', 'n'] else [c]).flatMap fun c => if c = '\t' then ['\\', 't'] else [c]) = escapedChar c := by
    intro c
    unfold escapedChar
    by_cases hslash : c = '\\'
    · subst hslash; rfl
    · by_cases hquote : c = '"'
      · subst hquote; rfl
      · by_cases hline : c = '\n'
        · subst hline; rfl
        · simp [hslash, hquote, hline]
  rw [toList_replaceChar, toList_replaceChar, toList_replaceChar, toList_replaceChar]
  simp only [List.flatMap_assoc]
  refine List.flatMap_congr fun c _ => ?_
  rw [← hstep c]
  simp only [List.flatMap_assoc]
  rfl

theorem head_escapedChar {c : Char} {rest : List Char} (h : escapedChar c = '{' :: rest) : c = '{' := by
  unfold escapedChar at h
  split_ifs at h <;> cases h
  rfl

theorem replaceFrom_antiquotation : ∀ s : List Char,
    replaceFrom ['$', '{'] ['\\', '$', '{'] 0 (s.flatMap escapedChar) = escape s := by
  intro s
  induction s using escape.induct with
  | case1 => rfl
  | case2 cs ih => simp [escapedChar, escape, replaceFrom, ih]
  | case3 cs ih => simp [escapedChar, escape, replaceFrom, ih]
  | case4 cs ih => simp [escapedChar, escape, replaceFrom, ih]
  | case5 cs ih => simp [escapedChar, escape, replaceFrom, ih]
  | case6 cs ih => simp [escapedChar, escape, replaceFrom, ih]
  | case7 c cs hslash hquote hline htab hdollar ih =>
    have hchar : escapedChar c = [c] := by
      unfold escapedChar
      rw [if_neg hslash, if_neg hquote, if_neg hline, if_neg htab]
    have hescape : escape (c :: cs) = c :: escape cs := by
      rw [escape] <;> assumption
    have hplain : (['$', '{'].isPrefixOf (c :: cs.flatMap escapedChar)) = false := by
      refine Bool.eq_false_iff.mpr fun hprefix => ?_
      obtain ⟨rest, heq⟩ := List.isPrefixOf_iff_prefix.mp hprefix
      cases cs with
      | nil => cases heq
      | cons d cs =>
        rw [List.flatMap_cons] at heq
        obtain ⟨hc, heq⟩ := List.cons.inj heq
        cases hd : escapedChar d with
        | nil =>
          unfold escapedChar at hd
          split_ifs at hd
        | cons e es =>
          rw [hd] at heq
          obtain rfl : '{' = e := (List.cons.inj heq).1
          exact hdollar cs hc.symm (by rw [head_escapedChar hd])
    rw [hescape, List.flatMap_cons, hchar, List.singleton_append, replaceFrom, hplain, if_neg (by decide), ih]

theorem toList_escapeNixString (s : String) : (escapeNixString s).toList = escape s.toList := by
  rw [escapeNixString, replaceStr, String.toList_ofList, replaced_chars]
  exact replaceFrom_antiquotation s.toList

/-- `"\"{}\""` of an escaped string. -/
def quoteNix (s : String) : String := "\"" ++ escapeNixString s ++ "\""

/-! ## Docker images -/

def isLocalFlake (flake : String) : Bool := flake = "." || (stripPrefix "./" flake).isSome || (stripPrefix "/" flake).isSome

/-- The flake reference and the attribute path of an installable. -/
def splitInstallable (installable : String) : String × String := (splitOnce "#" installable).getD ("nixpkgs", installable)

def installableToNixExpr (installable : String) : String × String :=
  let (flakeRef, attr) := splitInstallable installable
  let escapedFlakeRef := escapeNixString flakeRef
  let flakeExpr :=
    if isLocalFlake flakeRef then "builtins.getFlake \"path:" ++ escapedFlakeRef ++ "\""
    else "builtins.getFlake " ++ quoteNix flakeRef
  let pkgExpr :=
    if attr.toList.contains '.' then "(" ++ flakeExpr ++ ")." ++ attr
    else "(" ++ flakeExpr ++ ").legacyPackages.$\x7bbuiltins.currentSystem\x7d." ++ attr
  let nixpkgsExpr :=
    if flakeRef = "nixpkgs" then "(" ++ flakeExpr ++ ").legacyPackages.$\x7bbuiltins.currentSystem\x7d"
    else "(builtins.getFlake \"nixpkgs\").legacyPackages.$\x7bbuiltins.currentSystem\x7d"
  (pkgExpr, nixpkgsExpr)

def entrypointNix : Option String → String
  | some ep =>
    if ep.toList.contains '/' then "  config.Entrypoint = [ " ++ quoteNix ep ++ " ];\n"
    else "  config.Entrypoint = [ \"$\x7bpkg\x7d/bin/" ++ escapeNixString ep ++ "\" ];\n"
  | none => ""

def cmdNix : Option (List String) → String
  | some args => if args = [] then "" else "  config.Cmd = [ " ++ join ' ' (args.map quoteNix) ++ " ];\n"
  | none => ""

def buildDockerExpr (installable name tag : String) (entrypoint : Option String) (cmd : Option (List String)) : String :=
  let (pkgExpr, nixpkgsExpr) := installableToNixExpr installable
  "\nlet\n  pkgs = " ++ nixpkgsExpr ++ ";\n  pkg = " ++ pkgExpr ++
    ";\nin pkgs.dockerTools.streamLayeredImage \x7b\n  name = " ++ quoteNix name ++ ";\n  tag = " ++ quoteNix tag ++
    ";\n  contents = [ pkg ];\n" ++ entrypointNix entrypoint ++ cmdNix cmd ++ "\x7d\n"

/-! ## Home services -/

/-- What `Display` writes for a float. -/
structure FloatText where
  text : String
  plain : ∀ c ∈ text.toList, isPlain c = true

/-- What `Display` writes for a date or a time. -/
structure DatetimeText where
  text : String
  plain : ∀ c ∈ text.toList, isPlain c = true ∨ c = ':' ∨ c = '+'

/-- `toml::Value`. -/
inductive Setting where
  | string (s : String)
  | integer (n : Int)
  | float (f : FloatText)
  | boolean (b : Bool)
  | array (items : List Setting)
  | table (entries : List (String × Setting))
  | datetime (dt : DatetimeText)

/-- Escape a nix attribute key (quote if it contains special characters). -/
def escapeNixKey (key : String) : String :=
  if key.toList.all fun c => c.isAlphanum || c = '_' || c = '-' then key else quoteNix key

def floatNix (s : String) : String := if s.toList.contains '.' then s else s ++ ".0"

mutual

def tomlValueToNix : Setting → String
  | .string s => quoteNix s
  | .integer n => toString n
  | .float f => floatNix f.text
  | .boolean b => toString b
  | .array items => "[ " ++ join ' ' (tomlValuesToNix items) ++ " ]"
  | .table entries => "\x7b " ++ join ' ' (tomlEntriesToNix entries) ++ " \x7d"
  | .datetime dt => "\"" ++ dt.text ++ "\""

def tomlValuesToNix : List Setting → List String
  | [] => []
  | value :: values => tomlValueToNix value :: tomlValuesToNix values

def tomlEntriesToNix : List (String × Setting) → List String
  | [] => []
  | (key, value) :: entries => (escapeNixKey key ++ " = " ++ tomlValueToNix value ++ ";") :: tomlEntriesToNix entries

end

def tomlTableToNix (table : List (String × Setting)) : String := join ' ' (tomlEntriesToNix table)

/-- An entry of the services manifest. -/
structure ServiceEntry where
  name : String
  enable : Bool
  flake : Option String
  config : List (String × Setting)

structure ServiceManifest where
  flake : String
  services : List ServiceEntry

def ServiceEntry.definition (entry : ServiceEntry) : String :=
  "    " ++ quoteNix entry.name ++ " = \x7b enable = true; " ++ tomlTableToNix entry.config ++ " \x7d;"

def ServiceEntry.copyCommand (entry : ServiceEntry) : String :=
  "    for f in $\x7bunits." ++ quoteNix entry.name ++ "\x7d/*; do\n      case \"$f\" in\n" ++
    "        *.service|*.socket|*.timer) cp \"$f\" \"$out/$(basename \"$f\")\" ;;\n      esac\n    done"

def ServiceManifest.enabled (manifest : ServiceManifest) : List ServiceEntry := manifest.services.filter (·.enable)

/-- The flake override of the first enabled entry that has one. -/
def ServiceManifest.infraFlake (manifest : ServiceManifest) : String :=
  (manifest.enabled.findSome? (·.flake)).getD manifest.flake

/-- `resolve` is `resolve_flake_ref`, which asks for the working directory and for real paths. -/
def buildServicesNixExpr (resolve : String → Option String) (manifest : ServiceManifest) : Option String := do
  let flakeRef ← resolve manifest.infraFlake
  let servicesAttrset := join '\n' (manifest.enabled.map ServiceEntry.definition)
  let copyCommands := join '\n' (manifest.enabled.map ServiceEntry.copyCommand)
  some ("\nlet\n  flake = builtins.getFlake " ++ quoteNix flakeRef ++ ";\n  system = builtins.currentSystem;\n" ++
    "  pkgs = flake.legacyPackages.$\x7bsystem\x7d\n         or flake.pkgs.$\x7bsystem\x7d\n         or (import <nixpkgs> \x7b\x7d);\n" ++
    "  services = import (flake.outPath + \"/services/default.nix\") \x7b inherit pkgs; \x7d;\n\n  serviceConfig = \x7b\n" ++
    servicesAttrset ++ "\n  \x7d;\n\n  units = services.buildSystemdUserServices serviceConfig;\n\n" ++
    "  # Merge all unit file derivations into a single output directory\n" ++
    "  merged = pkgs.runCommand \"ekapkgs-user-services\" \x7b\x7d ''\n    mkdir -p $out\n    " ++ copyCommands ++
    "\n  '';\nin merged\n")

/-! ## The strings in an expression -/

def lit (s : String) : Segment := .code s.toList

def quotedText (s : String) : List Segment := quoted s.toList

def flakeSegments (flakeRef : String) : List Segment :=
  if isLocalFlake flakeRef then [lit "builtins.getFlake \"path:", .user flakeRef.toList]
  else [lit "builtins.getFlake "] ++ quotedText flakeRef

def pkgSegments (flakeRef attr : String) : List Segment :=
  [lit "("] ++ flakeSegments flakeRef ++
    [lit (if attr.toList.contains '.' then ")." else ").legacyPackages.$\x7bbuiltins.currentSystem\x7d."), .code attr.toList]

def nixpkgsSegments (flakeRef : String) : List Segment :=
  if flakeRef = "nixpkgs" then [lit "("] ++ flakeSegments flakeRef ++ [lit ").legacyPackages.$\x7bbuiltins.currentSystem\x7d"]
  else [lit "(builtins.getFlake \"nixpkgs\").legacyPackages.$\x7bbuiltins.currentSystem\x7d"]

def entrypointSegments : Option String → List Segment
  | some ep =>
    if ep.toList.contains '/' then [lit "  config.Entrypoint = [ "] ++ quotedText ep ++ [lit " ];\n"]
    else [lit "  config.Entrypoint = [ \"$\x7bpkg\x7d/bin/", .user ep.toList, lit " ];\n"]
  | none => []

def cmdSegments : Option (List String) → List Segment
  | some args => if args = [] then [] else [lit "  config.Cmd = [ "] ++ [lit " "].intercalate (args.map quotedText) ++ [lit " ];\n"]
  | none => []

def dockerSegments (installable name tag : String) (entrypoint : Option String) (cmd : Option (List String)) : List Segment :=
  let (flakeRef, attr) := splitInstallable installable
  [lit "\nlet\n  pkgs = "] ++ nixpkgsSegments flakeRef ++ [lit ";\n  pkg = "] ++ pkgSegments flakeRef attr ++
    [lit ";\nin pkgs.dockerTools.streamLayeredImage \x7b\n  name = "] ++ quotedText name ++ [lit ";\n  tag = "] ++ quotedText tag ++
    [lit ";\n  contents = [ pkg ];\n"] ++ entrypointSegments entrypoint ++ cmdSegments cmd ++ [lit "\x7d\n"]

def keySegments (key : String) : List Segment :=
  if key.toList.all fun c => c.isAlphanum || c = '_' || c = '-' then [.code key.toList] else quotedText key

mutual

def settingSegments : Setting → List Segment
  | .string s => quotedText s
  | .integer n => [.code (toString n).toList]
  | .float f => [.code (floatNix f.text).toList]
  | .boolean b => [.code (toString b).toList]
  | .array items => [lit "[ "] ++ [lit " "].intercalate (settingsSegments items) ++ [lit " ]"]
  | .table entries => [lit "\x7b "] ++ [lit " "].intercalate (entriesSegments entries) ++ [lit " \x7d"]
  | .datetime dt => quotedText dt.text

def settingsSegments : List Setting → List (List Segment)
  | [] => []
  | value :: values => settingSegments value :: settingsSegments values

def entriesSegments : List (String × Setting) → List (List Segment)
  | [] => []
  | (key, value) :: entries => (keySegments key ++ [lit " = "] ++ settingSegments value ++ [lit ";"]) :: entriesSegments entries

end

def ServiceEntry.segments (entry : ServiceEntry) : List Segment :=
  [lit "    "] ++ quotedText entry.name ++ [lit " = \x7b enable = true; "] ++ [lit " "].intercalate (entriesSegments entry.config) ++
    [lit " \x7d;"]

def ServiceEntry.copySegments (entry : ServiceEntry) : List Segment :=
  [lit "    for f in $\x7bunits."] ++ quotedText entry.name ++ [lit "\x7d/*; do\n      case \"$f\" in\n",
    lit "        *.service|*.socket|*.timer) cp \"$f\" \"$out/$(basename \"$f\")\" ;;\n      esac\n    done"]

def ServiceManifest.segments (manifest : ServiceManifest) (flakeRef : String) : List Segment :=
  [lit "\nlet\n  flake = builtins.getFlake "] ++ quotedText flakeRef ++
    [lit ";\n  system = builtins.currentSystem;\n",
      lit "  pkgs = flake.legacyPackages.$\x7bsystem\x7d\n         or flake.pkgs.$\x7bsystem\x7d\n         or (import <nixpkgs> \x7b\x7d);\n",
      lit "  services = import (flake.outPath + \"/services/default.nix\") \x7b inherit pkgs; \x7d;\n\n  serviceConfig = \x7b\n"] ++
    [lit "\n"].intercalate (manifest.enabled.map ServiceEntry.segments) ++
    [lit "\n  \x7d;\n\n  units = services.buildSystemdUserServices serviceConfig;\n\n",
      lit "  # Merge all unit file derivations into a single output directory\n",
      lit "  merged = pkgs.runCommand \"ekapkgs-user-services\" \x7b\x7d ''\n    mkdir -p $out\n    "] ++
    [lit "\n"].intercalate (manifest.enabled.map ServiceEntry.copySegments) ++ [lit "\n  '';\nin merged\n"]

/-! ## What the segments render -/

theorem render_append (segs segs' : List Segment) : render (segs ++ segs') = render segs ++ render segs' := List.flatMap_append

theorem render_cons (seg : Segment) (segs : List Segment) : render (seg :: segs) = seg.render ++ render segs := List.flatMap_cons

theorem render_nil : render [] = [] := rfl

theorem render_lit (s : String) : render [lit s] = s.toList := List.append_nil _

theorem toList_quoteNix (s : String) : (quoteNix s).toList = render (quotedText s) := by
  unfold quoteNix quotedText quoted
  rw [String.toList_append, String.toList_append, toList_escapeNixString]
  simp [render, Segment.render]

theorem render_intercalate (sep : List Segment) : ∀ parts : List (List Segment),
    render (sep.intercalate parts) = (render sep).intercalate (parts.map render)
  | [] => rfl
  | [part] => by simp
  | part :: part' :: parts => by
    rw [List.intercalate_cons_cons, render_append, render_append, render_intercalate sep (part' :: parts), List.map_cons,
      List.map_cons, List.map_cons, List.intercalate_cons_cons]

theorem toList_join (c : Char) (parts : List String) : (join c parts).toList = [c].intercalate (parts.map String.toList) := by
  rw [join, String.toList_ofList]

theorem toList_join_render {α : Type} {c : Char} {sep : String} (hsep : sep.toList = [c]) {f : α → String} {g : α → List Segment}
    {xs : List α} (h : ∀ x ∈ xs, (f x).toList = render (g x)) : (join c (xs.map f)).toList = render ([lit sep].intercalate (xs.map g)) := by
  rw [toList_join, render_intercalate, render_lit, hsep, List.map_map, List.map_map]
  congr 1
  exact List.map_congr_left h

theorem toList_flakeExpr (flakeRef : String) :
    (if isLocalFlake flakeRef then "builtins.getFlake \"path:" ++ escapeNixString flakeRef ++ "\""
      else "builtins.getFlake " ++ quoteNix flakeRef).toList = render (flakeSegments flakeRef) := by
  have hclose : "\"".toList = ['"'] := toList_literal rfl
  unfold flakeSegments
  split
  · rw [String.toList_append, String.toList_append, toList_escapeNixString, hclose, List.append_assoc]
    simp only [render, lit, Segment.render, List.flatMap_cons, List.flatMap_nil, List.append_nil]
  · rw [String.toList_append, toList_quoteNix, render_append, render_lit]

theorem toList_pkgExpr (installable : String) : (installableToNixExpr installable).1.toList =
    render (pkgSegments (splitInstallable installable).1 (splitInstallable installable).2) := by
  unfold pkgSegments installableToNixExpr
  dsimp only
  rw [render_append, render_append, render_lit, ← toList_flakeExpr]
  split
  · simp only [render, lit, Segment.render, List.flatMap_cons, List.flatMap_nil, List.append_nil, String.toList_append, List.append_assoc]
  · simp only [render, lit, Segment.render, List.flatMap_cons, List.flatMap_nil, List.append_nil, String.toList_append, List.append_assoc]

theorem toList_nixpkgsExpr (installable : String) : (installableToNixExpr installable).2.toList =
    render (nixpkgsSegments (splitInstallable installable).1) := by
  unfold nixpkgsSegments installableToNixExpr
  dsimp only
  split
  · rw [render_append, render_append, render_lit, render_lit, ← toList_flakeExpr, String.toList_append, String.toList_append]
  · rw [render_lit]

theorem toList_entrypointNix (entrypoint : Option String) : (entrypointNix entrypoint).toList = render (entrypointSegments entrypoint) := by
  cases entrypoint with
  | none => rfl
  | some ep =>
    have hclose : "\" ];\n".toList = '"' :: " ];\n".toList := by
      rw [toList_literal rfl, toList_literal rfl]
    unfold entrypointNix entrypointSegments
    dsimp only
    split
    · rw [render_append, render_append, render_lit, render_lit, String.toList_append, String.toList_append, toList_quoteNix]
    · rw [String.toList_append, String.toList_append, toList_escapeNixString, hclose]
      simp only [render, lit, Segment.render, List.flatMap_cons, List.flatMap_nil, List.append_nil, List.append_assoc, List.singleton_append]

theorem toList_cmdNix (cmd : Option (List String)) : (cmdNix cmd).toList = render (cmdSegments cmd) := by
  cases cmd with
  | none => rfl
  | some args =>
    unfold cmdNix cmdSegments
    dsimp only
    split
    · rfl
    · rw [render_append, render_append, render_lit, render_lit, String.toList_append, String.toList_append,
        toList_join_render (toList_literal rfl) fun arg _ => toList_quoteNix arg]

theorem toList_buildDockerExpr (installable name tag : String) (entrypoint : Option String) (cmd : Option (List String)) :
    (buildDockerExpr installable name tag entrypoint cmd).toList = render (dockerSegments installable name tag entrypoint cmd) := by
  unfold buildDockerExpr dockerSegments
  dsimp only
  simp only [render_append, render_lit, String.toList_append, toList_quoteNix, ← toList_pkgExpr, ← toList_nixpkgsExpr,
    ← toList_entrypointNix, ← toList_cmdNix]

theorem toList_escapeNixKey (key : String) : (escapeNixKey key).toList = render (keySegments key) := by
  unfold escapeNixKey keySegments
  split
  · exact (List.append_nil _).symm
  · exact toList_quoteNix key

theorem escape_plain {cs : List Char} (h : ∀ c ∈ cs, isPlain c = true ∨ c = ':' ∨ c = '+') : escape cs = cs := by
  induction cs with
  | nil => rfl
  | cons c cs ih =>
    have hne : ∀ {d : Char}, isPlain d = false → d ≠ ':' → d ≠ '+' → c ≠ d := by
      rintro d hd hcolon hplus rfl
      rcases h c List.mem_cons_self with hc | hc | hc
      · rw [hd] at hc
        cases hc
      · exact hcolon hc
      · exact hplus hc
    rw [escape, ih fun d hd => h d (List.mem_cons_of_mem _ hd)]
    · exact hne (by decide) (by decide) (by decide)
    · exact hne (by decide) (by decide) (by decide)
    · exact hne (by decide) (by decide) (by decide)
    · exact hne (by decide) (by decide) (by decide)
    · exact fun _ hc _ => hne (by decide) (by decide) (by decide) hc

mutual

theorem toList_tomlValueToNix : ∀ value : Setting, (tomlValueToNix value).toList = render (settingSegments value)
  | .string s => toList_quoteNix s
  | .integer n => (List.append_nil _).symm
  | .float f => (List.append_nil _).symm
  | .boolean b => (List.append_nil _).symm
  | .array items => by
    rw [tomlValueToNix, settingSegments, render_append, render_append, render_lit, render_lit, String.toList_append,
      String.toList_append, toList_join, render_intercalate, toList_tomlValuesToNix items, render_lit]
    rfl
  | .table entries => by
    rw [tomlValueToNix, settingSegments, render_append, render_append, render_lit, render_lit, String.toList_append,
      String.toList_append, toList_join, render_intercalate, toList_tomlEntriesToNix entries, render_lit]
    rfl
  | .datetime dt => by
    have htext : (quoteNix dt.text).toList = ("\"" ++ dt.text ++ "\"").toList := by
      unfold quoteNix
      rw [String.toList_append, String.toList_append, toList_escapeNixString, escape_plain dt.plain, String.toList_append,
        String.toList_append]
    rw [tomlValueToNix, settingSegments, ← toList_quoteNix, htext]

theorem toList_tomlValuesToNix : ∀ values : List Setting, (tomlValuesToNix values).map String.toList = (settingsSegments values).map render
  | [] => rfl
  | value :: values => by
    rw [tomlValuesToNix, settingsSegments, List.map_cons, List.map_cons, toList_tomlValueToNix value, toList_tomlValuesToNix values]

theorem toList_tomlEntriesToNix : ∀ entries : List (String × Setting),
    (tomlEntriesToNix entries).map String.toList = (entriesSegments entries).map render
  | [] => rfl
  | (key, value) :: entries => by
    rw [tomlEntriesToNix, entriesSegments, List.map_cons, List.map_cons, toList_tomlEntriesToNix entries, render_append,
      render_append, render_append, render_lit, render_lit, String.toList_append, String.toList_append, String.toList_append,
      toList_escapeNixKey, toList_tomlValueToNix value]

end

theorem toList_definition (entry : ServiceEntry) : entry.definition.toList = render entry.segments := by
  unfold ServiceEntry.definition ServiceEntry.segments tomlTableToNix
  rw [String.toList_append, String.toList_append, String.toList_append, String.toList_append, toList_join, toList_tomlEntriesToNix,
    toList_quoteNix]
  simp only [render_append, render_lit, render_intercalate]
  rfl

theorem toList_copyCommand (entry : ServiceEntry) : entry.copyCommand.toList = render entry.copySegments := by
  unfold ServiceEntry.copyCommand ServiceEntry.copySegments
  simp only [String.toList_append, toList_quoteNix, render_append, render_cons, render_nil, lit, Segment.render, List.append_assoc,
    List.append_nil]

theorem toList_buildServicesNixExpr {resolve : String → Option String} {manifest : ServiceManifest} {expr : String}
    (h : buildServicesNixExpr resolve manifest = some expr) :
    ∃ flakeRef, resolve manifest.infraFlake = some flakeRef ∧ expr.toList = render (manifest.segments flakeRef) := by
  obtain ⟨flakeRef, hflake, h⟩ := Option.bind_eq_some_iff.mp h
  refine ⟨flakeRef, hflake, ?_⟩
  obtain rfl := Option.some.inj h
  unfold ServiceManifest.segments
  simp only [String.toList_append, toList_quoteNix, render_append, render_cons, render_nil, lit, Segment.render, List.append_assoc,
    List.append_nil, toList_join_render (toList_literal rfl) fun entry _ => toList_definition entry,
    toList_join_render (toList_literal rfl) fun entry _ => toList_copyCommand entry]

/-! ## Each string is text -/

mutual

def Setting.strings : Setting → List String
  | .string s => [s]
  | .array items => Setting.stringsOf items
  | .table entries => Setting.entryStrings entries
  | .integer _ | .float _ | .boolean _ | .datetime _ => []

def Setting.stringsOf : List Setting → List String
  | [] => []
  | value :: values => value.strings ++ Setting.stringsOf values

/-- The keys and the strings of the values. -/
def Setting.entryStrings : List (String × Setting) → List String
  | [] => []
  | (key, value) :: entries => key :: (value.strings ++ Setting.entryStrings entries)

end

def NoReturns (strings : List String) : Prop := ∀ s ∈ strings, '\r' ∉ s.toList

theorem NoReturns.left {ss ts : List String} (h : NoReturns (ss ++ ts)) : NoReturns ss := fun s hs => h s (List.mem_append_left _ hs)

theorem NoReturns.right {ss ts : List String} (h : NoReturns (ss ++ ts)) : NoReturns ts := fun s hs => h s (List.mem_append_right _ hs)

/-- Inside one brace. -/
def inBraces : List Lexer := inCode.map (·.over [.code])

def inShell : List Lexer := [⟨.indented, []⟩]

theorem inBraces_of_fits {segs : List Segment} (h : Fits segs) : Leads inBraces segs inBraces := h.over [.code]

theorem fits_key {key : String} (h : '\r' ∉ key.toList) : Fits (keySegments key) := by
  unfold keySegments
  split
  · rename_i hplain
    refine fits_plain fun c hc => ?_
    have := List.all_eq_true.mp hplain c hc
    unfold isPlain
    rw [this, Bool.true_or]
  · exact fits_quoted h

theorem plain_floatNix {s : String} (h : ∀ c ∈ s.toList, isPlain c = true) : ∀ c ∈ (floatNix s).toList, isPlain c = true := by
  unfold floatNix
  split
  · exact h
  · intro c hc
    rw [String.toList_append, List.mem_append] at hc
    rcases hc with hc | hc
    · exact h c hc
    · have hall : (['.', '0'].all isPlain) = true := by decide
      rw [toList_literal (s := ".0") rfl] at hc
      exact List.all_eq_true.mp hall c hc

theorem plain_toString (n : Int) : ∀ c ∈ (toString n).toList, isPlain c = true := by
  have hdigits : ∀ (m : Nat), ∀ c ∈ (toString m).toList, isPlain c = true := by
    intro m c hc
    rw [Nat.toString_eq_repr, Nat.toList_repr] at hc
    have hdigit : c.isDigit = true := Nat.isDigit_of_mem_toDigits (by decide) (by decide) hc
    unfold isPlain Char.isAlphanum
    rw [hdigit]
    simp
  cases n with
  | ofNat m => exact hdigits m
  | negSucc m =>
    intro c hc
    have hlist : (toString (Int.negSucc m)).toList = '-' :: (toString (m + 1)).toList := by
      have hsign : toString (Int.negSucc m) = "-" ++ toString (m + 1) := rfl
      rw [hsign, String.toList_append, toList_literal (s := "-") rfl, List.singleton_append]
    rw [hlist] at hc
    rcases List.mem_cons.mp hc with rfl | hc
    · decide
    · exact hdigits _ c hc

theorem plain_bool (b : Bool) : ∀ c ∈ (toString b).toList, isPlain c = true := by
  have hplain : (['t', 'r', 'u', 'e', 'f', 'a', 'l', 's', 'e'].all isPlain) = true := by decide
  have htrue : "true".toList = ['t', 'r', 'u', 'e'] := toList_literal rfl
  have hfalse : "false".toList = ['f', 'a', 'l', 's', 'e'] := toList_literal rfl
  intro c hc
  refine List.all_eq_true.mp hplain c ?_
  cases b with
  | true =>
    have hc : c ∈ "true".toList := hc
    rw [htrue] at hc
    exact List.mem_append_left ['f', 'a', 'l', 's', 'e'] hc
  | false =>
    have hc : c ∈ "false".toList := hc
    rw [hfalse] at hc
    exact List.mem_append_right ['t', 'r', 'u', 'e'] hc

mutual

theorem fits_setting : ∀ value : Setting, NoReturns value.strings → Fits (settingSegments value)
  | .string s, h => fits_quoted (h s List.mem_cons_self)
  | .integer n, _ => fits_plain (plain_toString n)
  | .float f, _ => fits_plain (plain_floatNix f.plain)
  | .boolean b, _ => fits_plain (plain_bool b)
  | .array items, h => by
    have hopen : Fits [lit "[ "] := .literal rfl (by decide)
    have hsep : Fits [lit " "] := .literal rfl (by decide)
    have hclose : Fits [lit " ]"] := .literal rfl (by decide)
    exact (hopen.append (hsep.intercalate (fits_settings items h))).append hclose
  | .table entries, h => by
    have hopen : Leads inCode [lit "\x7b "] inBraces := .literal rfl (by decide)
    have hsep : Fits [lit " "] := .literal rfl (by decide)
    have hclose : Leads inBraces [lit " \x7d"] inCode := .literal rfl (by decide)
    have hentries : Fits ([lit " "].intercalate (entriesSegments entries)) := hsep.intercalate (fits_entries entries h)
    exact (hopen.append (inBraces_of_fits hentries)).append hclose
  | .datetime dt, _ => by
    refine fits_quoted fun hmem => ?_
    rcases dt.plain _ hmem with h | h | h <;> exact absurd h (by decide)

theorem fits_settings : ∀ values : List Setting, NoReturns (Setting.stringsOf values) → ∀ part ∈ settingsSegments values, Fits part
  | [], _ => by
    intro part hpart
    cases hpart
  | value :: values, h => by
    intro part hpart
    rcases List.mem_cons.mp hpart with rfl | hpart
    · exact fits_setting value h.left
    · exact fits_settings values h.right part hpart

theorem fits_entries : ∀ entries : List (String × Setting), NoReturns (Setting.entryStrings entries) → ∀ part ∈ entriesSegments entries, Fits part
  | [], _ => by
    intro part hpart
    cases hpart
  | (key, value) :: entries, h => by
    have hequals : Fits [lit " = "] := .literal rfl (by decide)
    have hend : Fits [lit ";"] := .literal rfl (by decide)
    have hvalues : NoReturns (value.strings ++ Setting.entryStrings entries) := fun s hs => h s (List.mem_cons_of_mem _ hs)
    intro part hpart
    rcases List.mem_cons.mp hpart with rfl | hpart
    · exact (((fits_key (h key List.mem_cons_self)).append hequals).append (fits_setting value hvalues.left)).append hend
    · exact fits_entries entries hvalues.right part hpart

end

theorem fits_serviceEntry {entry : ServiceEntry} (hname : '\r' ∉ entry.name.toList) (hconfig : NoReturns (Setting.entryStrings entry.config)) :
    Leads inBraces entry.segments inBraces := by
  have hindent : Fits [lit "    "] := .literal rfl (by decide)
  have hopen : Leads inCode [lit " = \x7b enable = true; "] inBraces := .literal rfl (by decide)
  have hsep : Fits [lit " "] := .literal rfl (by decide)
  have hclose : Leads inBraces [lit " \x7d;"] inCode := .literal rfl (by decide)
  have hentries : Fits ([lit " "].intercalate (entriesSegments entry.config)) := hsep.intercalate (fits_entries entry.config hconfig)
  have hentry : Fits entry.segments :=
    (((hindent.append (fits_quoted hname)).append hopen).append (inBraces_of_fits hentries)).append hclose
  exact inBraces_of_fits hentry

theorem copySegments_leads {entry : ServiceEntry} (hname : '\r' ∉ entry.name.toList) : Leads inShell entry.copySegments inShell := by
  have hopen : Leads inShell [lit "    for f in $\x7bunits."] (inCode.map (·.over [.indented])) := .literal rfl (by decide)
  have hcase : Leads (inCode.map (·.over [.indented])) [lit "\x7d/*; do\n      case \"$f\" in\n"] inShell := .literal rfl (by decide)
  have hcopy : Leads inShell [lit "        *.service|*.socket|*.timer) cp \"$f\" \"$out/$(basename \"$f\")\" ;;\n      esac\n    done"] inShell :=
    .literal rfl (by decide +kernel)
  exact (hopen.append ((fits_quoted hname).over [.indented])).append (hcase.append hcopy)

/-- The strings of a manifest that the expression holds. -/
def ServiceManifest.strings (manifest : ServiceManifest) : List String :=
  manifest.enabled.flatMap fun entry => entry.name :: Setting.entryStrings entry.config

theorem fits_services {manifest : ServiceManifest} {flakeRef : String} (hflake : '\r' ∉ flakeRef.toList) (h : NoReturns manifest.strings) :
    Fits (manifest.segments flakeRef) := by
  have hentry : ∀ entry ∈ manifest.enabled, NoReturns (entry.name :: Setting.entryStrings entry.config) := fun entry hentry s hs =>
    h s (List.mem_flatMap.mpr ⟨entry, hentry, hs⟩)
  have hstart : Fits [lit "\nlet\n  flake = builtins.getFlake "] := .literal rfl (by decide)
  have hsystem : Fits [lit ";\n  system = builtins.currentSystem;\n"] := .literal rfl (by decide)
  have hpkgs : Fits [lit
      "  pkgs = flake.legacyPackages.$\x7bsystem\x7d\n         or flake.pkgs.$\x7bsystem\x7d\n         or (import <nixpkgs> \x7b\x7d);\n"] :=
    .literal rfl (by decide)
  have hservices : Leads inCode [lit
      "  services = import (flake.outPath + \"/services/default.nix\") \x7b inherit pkgs; \x7d;\n\n  serviceConfig = \x7b\n"] inBraces :=
    .literal rfl (by decide +kernel)
  have hline : Leads inBraces [lit "\n"] inBraces := .literal rfl (by decide)
  have hentries : Leads inBraces ([lit "\n"].intercalate (manifest.enabled.map ServiceEntry.segments)) inBraces := by
    refine hline.intercalate fun part hpart => ?_
    obtain ⟨entry, hmem, rfl⟩ := List.mem_map.mp hpart
    exact fits_serviceEntry (hentry entry hmem _ List.mem_cons_self) fun s hs => hentry entry hmem s (List.mem_cons_of_mem _ hs)
  have hunits : Leads inBraces [lit "\n  \x7d;\n\n  units = services.buildSystemdUserServices serviceConfig;\n\n"] inCode :=
    .literal rfl (by decide +kernel)
  have hcomment : Fits [lit "  # Merge all unit file derivations into a single output directory\n"] := .literal rfl (by decide +kernel)
  have hmerged : Leads inCode [lit "  merged = pkgs.runCommand \"ekapkgs-user-services\" \x7b\x7d ''\n    mkdir -p $out\n    "] inShell :=
    .literal rfl (by decide +kernel)
  have hshellLine : Leads inShell [lit "\n"] inShell := .literal rfl (by decide)
  have hcopies : Leads inShell ([lit "\n"].intercalate (manifest.enabled.map ServiceEntry.copySegments)) inShell := by
    refine hshellLine.intercalate fun part hpart => ?_
    obtain ⟨entry, hmem, rfl⟩ := List.mem_map.mp hpart
    exact copySegments_leads (hentry entry hmem _ List.mem_cons_self)
  have hend : Leads inShell [lit "\n  '';\nin merged\n"] inCode := .literal rfl (by decide)
  have hhead := (hstart.append (fits_quoted hflake)).append ((hsystem.append hpkgs).append hservices)
  exact (((hhead.append hentries).append (hunits.append (hcomment.append hmerged))).append hcopies).append hend

/-- The attribute path of an installable is code: read between tokens, it leaves the
lexer between tokens, with nothing opened and nothing closed. -/
def AttrCode (attr : String) : Prop := Leads [⟨.code, []⟩] [.code attr.toList] inCode

theorem attrCode_of_plain {attr : String} (h : ∀ c ∈ attr.toList, isPlain c = true) : AttrCode attr := fun l hl outer =>
  fits_plain h l (by rw [List.mem_singleton.mp hl]; exact List.mem_cons_self) outer

theorem fits_flake {flakeRef : String} (h : '\r' ∉ flakeRef.toList) : Fits (flakeSegments flakeRef) := by
  unfold flakeSegments
  split
  · have hopen : Leads inCode [lit "builtins.getFlake \"path:"] [⟨.string, []⟩] := .literal rfl (by decide)
    exact hopen.append (.user h)
  · have hopen : Fits [lit "builtins.getFlake "] := .literal rfl (by decide)
    exact hopen.append (fits_quoted h)

theorem fits_nixpkgs {flakeRef : String} (h : '\r' ∉ flakeRef.toList) : Fits (nixpkgsSegments flakeRef) := by
  have hparen : Fits [lit "("] := .literal rfl (by decide)
  have hsystem : Fits [lit ").legacyPackages.$\x7bbuiltins.currentSystem\x7d"] := .literal rfl (by decide)
  unfold nixpkgsSegments
  split
  · exact (hparen.append (fits_flake h)).append hsystem
  · exact .literal rfl (by decide +kernel)

/-- The package up to the attribute path. -/
theorem leads_pkg {flakeRef : String} (h : '\r' ∉ flakeRef.toList) (dotted : Bool) :
    Leads inCode ([lit "("] ++ flakeSegments flakeRef ++
      [lit (if dotted then ")." else ").legacyPackages.$\x7bbuiltins.currentSystem\x7d.")]) [⟨.code, []⟩] := by
  have hparen : Fits [lit "("] := .literal rfl (by decide)
  refine (hparen.append (fits_flake h)).append ?_
  cases dotted with
  | true => exact .literal rfl (by decide)
  | false => exact .literal rfl (by decide)

theorem fits_pkg {flakeRef attr : String} (h : '\r' ∉ flakeRef.toList) (hattr : AttrCode attr) : Fits (pkgSegments flakeRef attr) := by
  have hpkg := (leads_pkg h (attr.toList.contains '.')).append hattr
  rw [List.append_assoc] at hpkg
  exact hpkg

theorem fits_entrypoint {entrypoint : Option String} (h : NoReturns entrypoint.toList) : Fits (entrypointSegments entrypoint) := by
  have hend : Fits [lit " ];\n"] := .literal rfl (by decide)
  cases entrypoint with
  | none => exact .nil _
  | some ep =>
    have hep := h ep List.mem_cons_self
    unfold entrypointSegments
    dsimp only
    split
    · have hopen : Fits [lit "  config.Entrypoint = [ "] := .literal rfl (by decide)
      exact (hopen.append (fits_quoted hep)).append hend
    · have hopen : Leads inCode [lit "  config.Entrypoint = [ \"$\x7bpkg\x7d/bin/"] [⟨.string, []⟩] := .literal rfl (by decide)
      exact hopen.append ((Leads.user hep).append hend)

theorem fits_cmd {cmd : Option (List String)} (h : NoReturns (cmd.getD [])) : Fits (cmdSegments cmd) := by
  cases cmd with
  | none => exact .nil _
  | some args =>
    unfold cmdSegments
    dsimp only
    split
    · exact .nil _
    · have hopen : Fits [lit "  config.Cmd = [ "] := .literal rfl (by decide)
      have hsep : Fits [lit " "] := .literal rfl (by decide)
      have hend : Fits [lit " ];\n"] := .literal rfl (by decide)
      refine (hopen.append (hsep.intercalate fun part hpart => ?_)).append hend
      obtain ⟨arg, harg, rfl⟩ := List.mem_map.mp hpart
      exact fits_quoted (h arg harg)

def dockerStrings (installable name tag : String) (entrypoint : Option String) (cmd : Option (List String)) : List String :=
  [(splitInstallable installable).1, name, tag] ++ (entrypoint.toList ++ cmd.getD [])

theorem fits_docker {installable name tag : String} {entrypoint : Option String} {cmd : Option (List String)}
    (h : NoReturns (dockerStrings installable name tag entrypoint cmd)) (hattr : AttrCode (splitInstallable installable).2) :
    Fits (dockerSegments installable name tag entrypoint cmd) := by
  have hstrings := h.left
  have hflake := hstrings _ List.mem_cons_self
  have hname : '\r' ∉ name.toList := hstrings _ (by simp)
  have htag : '\r' ∉ tag.toList := hstrings _ (by simp)
  have hlet : Fits [lit "\nlet\n  pkgs = "] := .literal rfl (by decide)
  have hpkg : Fits [lit ";\n  pkg = "] := .literal rfl (by decide)
  have himage : Leads inCode [lit ";\nin pkgs.dockerTools.streamLayeredImage \x7b\n  name = "] inBraces := .literal rfl (by decide)
  have htagKey : Fits [lit ";\n  tag = "] := .literal rfl (by decide)
  have hcontents : Fits [lit ";\n  contents = [ pkg ];\n"] := .literal rfl (by decide)
  have hend : Leads inBraces [lit "\x7d\n"] inCode := .literal rfl (by decide)
  have hhead := ((hlet.append (fits_nixpkgs hflake)).append hpkg).append (fits_pkg hflake hattr)
  have hsettings := ((((fits_quoted hname).append htagKey).append (fits_quoted htag)).append hcontents).append
    ((fits_entrypoint h.right.left).append (fits_cmd h.right.right))
  have hall := ((hhead.append himage).append (inBraces_of_fits hsettings)).append hend
  unfold dockerSegments
  simp only [List.append_assoc] at hall ⊢
  exact hall

/-! ## No code comes from a string -/

theorem read_quoteNix {s : String} (h : '\r' ∉ s.toList) (outer : List Mode) :
    run ⟨.code, outer⟩ (quoteNix s).toList = (⟨.code, outer⟩, .code '"' :: (s.toList.map .text ++ [.code '"'])) := by
  have hplaced := (fits_quoted h ⟨.code, []⟩ List.mem_cons_self outer).1
  have hread := run_render (quoted s.toList) _ hplaced
  rw [toList_quoteNix]
  refine hread.trans ?_
  simp [quoted, meaning, after, literalText, run, step, codeStep, Lexer.over]

/-- The text is read as the segments mean it, and its code is that of the segments
with every string of a user empty. -/
def ReadsAs (text : String) (segs : List Segment) : Prop :=
  run .start text.toList = meaning .start segs ∧
    codeOf (run .start text.toList).2 = codeOf (meaning .start (segs.map Segment.blank)).2

theorem readsAs_of_fits {text : String} {segs : List Segment} (htext : text.toList = render segs) (h : Fits segs) : ReadsAs text segs := by
  have hread : run .start text.toList = meaning .start segs := by
    rw [htext]
    exact h.run_render
  exact ⟨hread, by rw [hread, (meaning_blank segs .start).2]⟩

/-- A literal of a user's string is read as that string. In the expression for an
image every such string is text when the attribute path is code of its own, and
in the expression for the services always. -/
theorem user_strings_are_text :
    (∀ (s : String) (outer : List Mode), '\r' ∉ s.toList →
      run ⟨.code, outer⟩ (quoteNix s).toList = (⟨.code, outer⟩, .code '"' :: (s.toList.map .text ++ [.code '"']))) ∧
    (∀ (installable name tag : String) (entrypoint : Option String) (cmd : Option (List String)),
      NoReturns (dockerStrings installable name tag entrypoint cmd) → AttrCode (splitInstallable installable).2 →
      ReadsAs (buildDockerExpr installable name tag entrypoint cmd) (dockerSegments installable name tag entrypoint cmd)) ∧
    (∀ (resolve : String → Option String) (manifest : ServiceManifest) (flakeRef expr : String),
      resolve manifest.infraFlake = some flakeRef → buildServicesNixExpr resolve manifest = some expr →
      NoReturns (flakeRef :: manifest.strings) → ReadsAs expr (manifest.segments flakeRef)) := by
  refine ⟨fun s outer h => read_quoteNix h outer, fun installable name tag entrypoint cmd h hattr => ?_, ?_⟩
  · exact readsAs_of_fits (toList_buildDockerExpr installable name tag entrypoint cmd) (fits_docker h hattr)
  · intro resolve manifest flakeRef expr hflake hexpr h
    obtain ⟨flakeRef', hflake', htext⟩ := toList_buildServicesNixExpr hexpr
    obtain rfl := Option.some.inj (hflake.symm.trans hflake')
    exact readsAs_of_fits htext (fits_services (h _ List.mem_cons_self) fun s hs => h s (List.mem_cons_of_mem _ hs))

theorem splitInstallable_nginx : splitInstallable "nixpkgs#nginx" = ("nixpkgs", "nginx") := by decide

theorem user_strings_are_text_nginx : ReadsAs (buildDockerExpr "nixpkgs#nginx" "web" "v1" none none)
    (dockerSegments "nixpkgs#nginx" "web" "v1" none none) := by
  refine user_strings_are_text.2.1 "nixpkgs#nginx" "web" "v1" none none ?_ ?_
  · unfold NoReturns dockerStrings
    rw [splitInstallable_nginx]
    decide
  · have hplain : (['n', 'g', 'i', 'n', 'x'].all isPlain) = true := by decide
    have hattr : "nginx".toList = ['n', 'g', 'i', 'n', 'x'] := toList_literal rfl
    rw [splitInstallable_nginx]
    refine attrCode_of_plain fun c hc => List.all_eq_true.mp hplain c ?_
    rw [← hattr]
    exact hc

/-! ## An attribute path that is no code of its own -/

theorem splitInstallable_quote : splitInstallable "nixpkgs#\"" = ("nixpkgs", "\"") := by decide

/-- The expression for the installable up to the name. -/
def beforeName : List Segment :=
  [lit "\nlet\n  pkgs = "] ++ nixpkgsSegments "nixpkgs" ++ [lit ";\n  pkg = "] ++
    ([lit "("] ++ flakeSegments "nixpkgs" ++ [lit ").legacyPackages.$\x7bbuiltins.currentSystem\x7d."]) ++
    [.code ['"'], lit ";\nin pkgs.dockerTools.streamLayeredImage \x7b\n  name = ", .code ['"']]

theorem beforeName_code : Leads inCode beforeName [⟨.code, []⟩] := by
  have hflake : '\r' ∉ "nixpkgs".toList := by decide
  have hlet : Fits [lit "\nlet\n  pkgs = "] := .literal rfl (by decide)
  have hpkg : Fits [lit ";\n  pkg = "] := .literal rfl (by decide)
  have hattr : Leads [⟨.code, []⟩] [.code ['"']] [⟨.string, []⟩] := .code (by decide)
  have himage : Leads [⟨.string, []⟩] [lit ";\nin pkgs.dockerTools.streamLayeredImage \x7b\n  name = "] [⟨.string, []⟩] :=
    .literal rfl (by decide +kernel)
  have hquote : Leads [⟨.string, []⟩] [.code ['"']] [⟨.code, []⟩] := .code (by decide)
  exact (((hlet.append (fits_nixpkgs hflake)).append hpkg).append (leads_pkg hflake false)).append (hattr.append (himage.append hquote))

theorem buildDockerExpr_quote (name : String) : ∃ rest,
    (buildDockerExpr "nixpkgs#\"" name "" none none).toList = render beforeName ++ (escape name.toList ++ '"' :: rest) := by
  have hdot : ("\"".toList.contains '.') = false := by decide
  have hquote : "\"".toList = ['"'] := toList_literal rfl
  refine ⟨render ([lit ";\n  tag = "] ++ quotedText "" ++ [lit ";\n  contents = [ pkg ];\n"] ++ [lit "\x7d\n"]), ?_⟩
  rw [toList_buildDockerExpr]
  unfold dockerSegments pkgSegments beforeName entrypointSegments cmdSegments quotedText quoted
  rw [splitInstallable_quote]
  dsimp only
  rw [hdot, hquote]
  simp only [render_append, render_cons, Segment.render, List.append_assoc, List.nil_append, List.cons_append, List.append_nil]
  rfl

/-- A quote in the attribute path turns the name into code. -/
theorem name_is_code : ¬ ∀ (installable name tag : String) (entrypoint : Option String) (cmd : Option (List String)),
    NoReturns (dockerStrings installable name tag entrypoint cmd) →
    ReadsAs (buildDockerExpr installable name tag entrypoint cmd) (dockerSegments installable name tag entrypoint cmd) := by
  intro hreads
  have hcode : ∀ name : String, name = "x" ∨ name = "" → 
      codeOf (run .start (buildDockerExpr "nixpkgs#\"" name "" none none).toList).2 =
        codeOf (meaning .start ((dockerSegments "nixpkgs#\"" name "" none none).map Segment.blank)).2 := by
    intro name hname
    refine (hreads "nixpkgs#\"" name "" none none ?_).2
    unfold NoReturns dockerStrings
    rw [splitInstallable_quote]
    rcases hname with rfl | rfl <;> decide
  have hsame : (dockerSegments "nixpkgs#\"" "x" "" none none).map Segment.blank =
      (dockerSegments "nixpkgs#\"" "" "" none none).map Segment.blank := by
    unfold dockerSegments quotedText quoted
    simp only [List.map_append, List.map_cons, Segment.blank]
  have hstate : (run .start (render beforeName)).1 = ⟨.code, []⟩ := by
    obtain ⟨hplaced, l', hl', hmeaning⟩ := beforeName_code .start List.mem_cons_self []
    have hread : run .start (render beforeName) = meaning .start beforeName := run_render beforeName .start hplaced
    obtain rfl := List.mem_singleton.mp hl'
    rw [hread]
    exact hmeaning
  obtain ⟨restX, hX⟩ := buildDockerExpr_quote "x"
  obtain ⟨restE, hE⟩ := buildDockerExpr_quote ""
  have hescape : escape "x".toList = ['x'] := by
    rw [toList_literal (s := "x") rfl]
    rfl
  have heq := (hcode "x" (.inl rfl)).trans (hsame ▸ (hcode "" (.inr rfl)).symm)
  rw [hX, hE, run_append .start (render beforeName), run_append .start (render beforeName), hstate, hescape] at heq
  unfold after at heq
  rw [codeOf_append, codeOf_append] at heq
  have hrest := List.append_cancel_left heq
  -- the name starts with a letter, and the empty one with the quote that closes it
  have hx : codeStep [] 'x' = (⟨.word, []⟩, [.code 'x']) := by decide
  have hquote : codeStep [] '"' = (⟨.string, []⟩, [.code '"']) := by decide
  simp [run, step, hx, hquote, after, codeOf, escape] at hrest

end Ekapkgs
