import Ekapkgs.Escaping
import Ekapkgs.Lib.Toml

/-!
# The client configuration

`save_config` of `commands/cache.rs` writes TOML by hand, and `ClientConfig::load` of
`config.rs` reads it with a deserializer. The writer leaves out three settings and
escapes strings as Rust does, so not every configuration is read back.
-/

namespace Ekapkgs
open Toml

/-! ## The configuration -/

structure Defaults where
  maxParallelDownloads : UInt64
  channelInput : Option String
  channelUrl : Option String
  indexUrl : Option String
  deriving DecidableEq

inductive CacheProtocol where
  | auto | legacy | grpc
  deriving DecidableEq

structure CacheConfig where
  name : String
  url : String
  trustedKey : Option String
  trustRoot : Option String
  token : Option String
  priority : UInt32
  protocol : CacheProtocol
  deriving DecidableEq

structure ClientConfig where
  defaults : Defaults
  caches : List CacheConfig
  deriving DecidableEq

def defaultParallel : UInt64 := 8

def defaultPriority : UInt32 := 10

instance : Inhabited Defaults := ⟨⟨defaultParallel, none, none, none⟩⟩

/-! ## Loading -/

abbrev Entries := List (String × Scalar)

def Entries.get? (entries : Entries) (key : String) : Option Scalar := (entries.find? fun e => e.1 = key).map Prod.snd

/-- An optional string: absent, present, or of a wrong type. -/
def optionalString (entries : Entries) (key : String) : Option (Option String) :=
  match Entries.get? entries key with
  | none => some none
  | some (.string s) => some (some s)
  | some (.integer _) => none

def requiredString (entries : Entries) (key : String) : Option String := (optionalString entries key).join

/-- An unsigned number below the bound, or the default. -/
def numberOr (entries : Entries) (key : String) (bound default : Nat) : Option Nat :=
  match Entries.get? entries key with
  | none => some default
  | some (.integer n) => if n < bound then some n else none
  | some (.string _) => none

def CacheProtocol.ofName (name : String) : Option CacheProtocol :=
  if name = "auto" then some .auto else if name = "legacy" then some .legacy else if name = "grpc" then some .grpc else none

def Defaults.ofEntries (entries : Entries) : Option Defaults := do
  let maxParallelDownloads ← numberOr entries "max_parallel_downloads" (2 ^ 64) defaultParallel.toNat
  let channelInput ← optionalString entries "channel_input"
  let channelUrl ← optionalString entries "channel_url"
  let indexUrl ← optionalString entries "index_url"
  some ⟨.ofNat maxParallelDownloads, channelInput, channelUrl, indexUrl⟩

def CacheConfig.ofEntries (entries : Entries) : Option CacheConfig := do
  let name ← requiredString entries "name"
  let url ← requiredString entries "url"
  let trustedKey ← optionalString entries "trusted_key"
  let trustRoot ← optionalString entries "trust_root"
  let token ← optionalString entries "token"
  let priority ← numberOr entries "priority" (2 ^ 32) defaultPriority.toNat
  let protocol ← match ← optionalString entries "protocol" with
    | none => some .auto
    | some protocol => CacheProtocol.ofName protocol
  some ⟨name, url, trustedKey, trustRoot, token, .ofNat priority, protocol⟩

/-- A table where an array of tables is expected is an error, and the other way round. -/
def ClientConfig.ofSections (sections : List Toml.Section) : Option ClientConfig :=
  if sections.any fun s => (s.name = "defaults" ∧ s.isElement = true) ∨ (s.name = "caches" ∧ s.isElement = false) then none
  else do
    let defaults ← match sections.find? fun s => s.name = "defaults" with
      | some s => Defaults.ofEntries s.entries
      | none => some default
    let caches ← (sections.filter fun s => s.name = "caches").mapM fun s => CacheConfig.ofEntries s.entries
    some ⟨defaults, caches⟩

def ClientConfig.load (contents : String) : Option ClientConfig := (readDocument contents).bind ClientConfig.ofSections

/-! ## Saving -/

/-- What `char::escape_debug` prints as it is: all of ASCII that is no control
character, and the part of Unicode that is printable and extends no grapheme. -/
structure DebugTable where
  plain : Char → Bool
  ascii : ∀ c : Char, 0x20 ≤ c.val → c.val < 0x7f → plain c = true
  control : ∀ c : Char, c.val < 0x20 ∨ c.val = 0x7f → plain c = false

variable (t : DebugTable)

def escapeDebug (c : Char) : List Char :=
  if c = Char.ofNat 0 then ['\\', '0'] else if c = '\t' then ['\\', 't'] else if c = '\r' then ['\\', 'r']
  else if c = '\n' then ['\\', 'n'] else if c = '"' ∨ c = '\\' then ['\\', c]
  else if t.plain c then [c] else ['\\', 'u', '{'] ++ Nat.toDigits 16 c.toNat ++ ['}']

/-- `format!("{:?}", s)`. -/
def debugString (s : String) : String := String.ofList ('"' :: (s.toList.flatMap (escapeDebug t) ++ ['"']))

/-- A `key = value` line. -/
inductive WrittenSetting where
  | number (key : String) (n : Nat)
  | string (key s : String)

def WrittenSetting.text : WrittenSetting → String
  | .number key n => key ++ " = " ++ toString n
  | .string key s => key ++ " = " ++ debugString t s

/-- A header, the settings below it and an empty line. -/
structure WrittenSection where
  isElement : Bool
  name : String
  settings : List WrittenSetting

def WrittenSection.lines (s : WrittenSection) : List String :=
  [if s.isElement then "[[" ++ s.name ++ "]]" else "[" ++ s.name ++ "]"] ++ s.settings.map (·.text t) ++ [""]

def CacheProtocol.name : CacheProtocol → String
  | .auto => "auto"
  | .legacy => "legacy"
  | .grpc => "grpc"

def optionalSetting (key : String) (value : Option String) : List WrittenSetting := value.toList.map (.string key)

def CacheConfig.written (cache : CacheConfig) : WrittenSection where
  isElement := true
  name := "caches"
  settings := [.string "name" cache.name, .string "url" cache.url] ++ optionalSetting "trusted_key" cache.trustedKey ++
    optionalSetting "trust_root" cache.trustRoot ++ optionalSetting "token" cache.token ++
    [.number "priority" cache.priority.toNat, .string "protocol" cache.protocol.name]

def Defaults.written (defaults : Defaults) : WrittenSection where
  isElement := false
  name := "defaults"
  settings := [.number "max_parallel_downloads" defaults.maxParallelDownloads.toNat]

def ClientConfig.written (config : ClientConfig) : List WrittenSection := config.defaults.written :: config.caches.map CacheConfig.written

/-- The contents of the file. -/
def saveConfig (config : ClientConfig) : String := String.join ((config.written.flatMap (·.lines t)).map (· ++ "\n"))

/-! ## What a written string reads as -/

/-- The characters whose escapes are those of TOML. -/
def keepsChar (c : Char) : Bool := t.plain c || c = '\t' || c = '\r' || c = '\n' || c = '"' || c = '\\'

def keepsString (s : String) : Bool := s.toList.all (keepsChar t)

variable {t}

theorem not_isControl {c : Char} (h : t.plain c = true) : isControl c = false := by
  refine Bool.eq_false_iff.mpr fun hcontrol => ?_
  unfold isControl at hcontrol
  rw [Bool.or_eq_true, Bool.and_eq_true, decide_eq_true_eq, decide_eq_true_eq] at hcontrol
  have hplain := t.control c (hcontrol.imp And.left of_decide_eq_true)
  rw [h] at hplain
  cases hplain

theorem readBasic_escaped {letter c : Char} (h : simpleEscape letter = some c) (cs : List Char) :
    readBasic .text ('\\' :: letter :: cs) = (readBasic .text cs).map fun r => (c :: r.1, r.2) := by
  rw [readBasic, if_neg (by decide), if_pos rfl, readBasic, h]

theorem readBasic_escapeDebug (c : Char) (cs : List Char) : readBasic .text (escapeDebug t c ++ cs) =
    if keepsChar t c then (readBasic .text cs).map fun r => (c :: r.1, r.2) else none := by
  by_cases hnul : c = Char.ofNat 0
  · subst hnul
    have hplain : t.plain (Char.ofNat 0) = false := t.control _ (.inl (by decide))
    have hkeeps : keepsChar t (Char.ofNat 0) = false := by
      unfold keepsChar
      rw [hplain]
      decide
    rw [hkeeps, if_neg (by decide), escapeDebug, if_pos rfl]
    rfl
  by_cases htab : c = '\t'
  · subst htab
    rw [if_pos (by simp [keepsChar])]
    exact readBasic_escaped rfl cs
  by_cases hreturn : c = '\r'
  · subst hreturn
    rw [if_pos (by simp [keepsChar])]
    exact readBasic_escaped rfl cs
  by_cases hline : c = '\n'
  · subst hline
    rw [if_pos (by simp [keepsChar])]
    exact readBasic_escaped rfl cs
  by_cases hquote : c = '"' ∨ c = '\\'
  · rw [if_pos (by rcases hquote with rfl | rfl <;> simp [keepsChar]), escapeDebug, if_neg hnul, if_neg htab, if_neg hreturn, if_neg hline,
      if_pos hquote]
    refine readBasic_escaped ?_ cs
    rcases hquote with rfl | rfl <;> rfl
  · obtain ⟨hq, hb⟩ := not_or.mp hquote
    have hkeeps : keepsChar t c = t.plain c := by
      unfold keepsChar
      rw [decide_eq_false htab, decide_eq_false hreturn, decide_eq_false hline, decide_eq_false hq, decide_eq_false hb]
      simp
    rw [hkeeps, escapeDebug, if_neg hnul, if_neg htab, if_neg hreturn, if_neg hline, if_neg hquote]
    by_cases hplain : t.plain c = true
    · rw [if_pos hplain, if_pos hplain, List.singleton_append, readBasic, if_neg hq, if_neg hb, not_isControl hplain, if_neg (by decide)]
    · rw [if_neg hplain, if_neg hplain]
      rfl

theorem readBasic_debug (rest : List Char) : ∀ s : List Char,
    readBasic .text (s.flatMap (escapeDebug t) ++ '"' :: rest) = if s.all (keepsChar t) then some (s, rest) else none
  | [] => rfl
  | c :: s => by
    rw [List.flatMap_cons, List.append_assoc, readBasic_escapeDebug, readBasic_debug rest s, List.all_cons]
    by_cases hc : keepsChar t c = true
    · rw [hc, if_pos rfl, Bool.true_and]
      split <;> rfl
    · rw [Bool.not_eq_true] at hc
      rw [hc, if_neg (by decide), Bool.false_and, if_neg (by decide)]

theorem readValue_debugString (s : String) : readValue (debugString t s).toList = if keepsString t s then some (.string s) else none := by
  unfold readValue debugString keepsString
  rw [String.toList_ofList, List.head?_cons, if_pos rfl, List.tail_cons, readBasic_debug [] s.toList]
  split
  · rw [Option.bind_some, String.ofList_toList]
    rfl
  · rfl

/-! ## What a written line reads as -/

def WrittenSetting.key : WrittenSetting → String
  | .number key _ => key
  | .string key _ => key

def WrittenSetting.value : WrittenSetting → Scalar
  | .number _ n => .integer n
  | .string _ s => .string s

/-- The value comes back as it was. -/
def WrittenSetting.kept (t : DebugTable) : WrittenSetting → Bool
  | .number _ n => n < 2 ^ 63
  | .string _ s => keepsString t s

def IsKey (key : String) : Prop := key ≠ "" ∧ ∀ c ∈ key.toList, isBareKey c = true

theorem readLine_setting {w : WrittenSetting} (h : IsKey w.key) :
    readLine (w.text t).toList = if w.kept t then some (.entry w.key w.value) else none := by
  have hsep : " = ".toList = [' ', '=', ' '] := toList_literal rfl
  have hne : w.key.toList ≠ [] := fun heq => h.1 (String.toList_inj.mp heq)
  cases w with
  | number key n =>
    have hhead : ∀ c ∈ (toString n).toList.head?, isBlank c = false := by
      intro c hc
      rw [Nat.toString_eq_repr, Nat.toList_repr] at hc
      have hdigit := Nat.isDigit_of_mem_toDigits (by decide) (by decide) (List.mem_of_mem_head? hc)
      refine Bool.eq_false_iff.mpr fun hblank => ?_
      have hspace : c = ' ' ∨ c = '\t' := by simpa [isBlank] using hblank
      rcases hspace with rfl | rfl <;> exact absurd hdigit (by decide)
    have hline := readLine_entry hne h.2 hhead
    unfold WrittenSetting.text
    rw [String.toList_append, String.toList_append, hsep, List.append_assoc]
    refine hline.trans ?_
    rw [readValue_toString, String.ofList_toList]
    have hkept : (WrittenSetting.number key n).kept t = decide (n < 2 ^ 63) := rfl
    rw [hkept]
    by_cases hn : n < 2 ^ 63
    · rw [if_pos hn, decide_eq_true hn]
      rfl
    · rw [if_neg hn, decide_eq_false hn]
      rfl
  | string key s =>
    have hhead : ∀ c ∈ (debugString t s).toList.head?, isBlank c = false := by
      intro c hc
      unfold debugString at hc
      rw [String.toList_ofList] at hc
      obtain rfl := Option.some.inj hc
      decide
    have hline := readLine_entry hne h.2 hhead
    unfold WrittenSetting.text
    rw [String.toList_append, String.toList_append, hsep, List.append_assoc]
    refine hline.trans ?_
    rw [readValue_debugString, String.ofList_toList]
    unfold WrittenSetting.kept
    dsimp only
    split <;> rfl

theorem newline_not_mem_toDigits (n : Nat) : '\n' ∉ Nat.toDigits 16 n := by
  have hdigit : ∀ m : Fin 16, m.val.digitChar ≠ '\n' := by decide
  induction n using Nat.strong_induction_on with
  | _ n ih =>
    by_cases hn : n < 16
    · rw [Nat.toDigits_of_lt_base hn]
      exact fun hmem => hdigit ⟨n, hn⟩ (List.mem_singleton.mp hmem).symm
    · have hle : 16 ≤ n := Nat.le_of_not_lt hn
      rw [Nat.toDigits_of_base_le (by decide) hle, List.mem_append, not_or]
      exact ⟨ih (n / 16) (Nat.div_lt_self (by omega) (by decide)),
        fun hmem => hdigit ⟨n % 16, Nat.mod_lt n (by decide)⟩ (List.mem_singleton.mp hmem).symm⟩

theorem newline_not_mem_escapeDebug (c : Char) : '\n' ∉ escapeDebug t c := by
  unfold escapeDebug
  split_ifs with hnul htab hreturn hline hquote hplain
  · decide
  · decide
  · decide
  · decide
  · rcases hquote with rfl | rfl <;> decide
  · exact fun hmem => hline (List.mem_singleton.mp hmem).symm
  · rw [List.mem_append, List.mem_append, not_or, not_or]
    exact ⟨⟨by decide, newline_not_mem_toDigits _⟩, by decide⟩

theorem newline_not_mem_key {key : String} (h : IsKey key) : '\n' ∉ key.toList := fun hmem => absurd (h.2 _ hmem) (by decide)

theorem newline_not_mem_text {w : WrittenSetting} (h : IsKey w.key) : '\n' ∉ (w.text t).toList := by
  have hsep : " = ".toList = [' ', '=', ' '] := toList_literal rfl
  cases w with
  | number key n =>
    unfold WrittenSetting.text
    rw [String.toList_append, String.toList_append, hsep, List.mem_append, List.mem_append, not_or, not_or]
    refine ⟨⟨newline_not_mem_key h, by decide⟩, fun hmem => ?_⟩
    rw [Nat.toString_eq_repr, Nat.toList_repr] at hmem
    exact absurd (Nat.isDigit_of_mem_toDigits (by decide) (by decide) hmem) (by decide)
  | string key s =>
    unfold WrittenSetting.text debugString
    rw [String.toList_append, String.toList_append, hsep, List.mem_append, List.mem_append, not_or, not_or, String.toList_ofList]
    refine ⟨⟨newline_not_mem_key h, by decide⟩, ?_⟩
    rw [List.mem_cons, List.mem_append, not_or, not_or]
    refine ⟨by decide, fun hmem => ?_, by decide⟩
    obtain ⟨c, -, hc⟩ := List.mem_flatMap.mp hmem
    exact newline_not_mem_escapeDebug c hc

/-! ## What a written file reads as -/

/-- A section as it is meant. -/
def WrittenSetting.entry (w : WrittenSetting) : String × Scalar := (w.key, w.value)

def WrittenSection.section (s : WrittenSection) : Toml.Section := ⟨s.isElement, s.name, s.settings.map WrittenSetting.entry⟩

def WrittenSection.kept (t : DebugTable) (s : WrittenSection) : Bool := s.settings.all (·.kept t)

structure WrittenSection.WellFormed (s : WrittenSection) : Prop where
  name : IsKey s.name
  keys : ∀ w ∈ s.settings, IsKey w.key
  nodup : (s.settings.map WrittenSetting.key).Nodup

def WrittenSection.readings (s : WrittenSection) : List Line :=
  [if s.isElement then .element s.name else .table s.name] ++ s.settings.map (fun w => .entry w.key w.value) ++ [.blank]

theorem mapM_settings : ∀ {ws : List WrittenSetting}, (∀ w ∈ ws, IsKey w.key) →
    (ws.map fun w => (w.text t).toList).mapM readLine =
      if ws.all (·.kept t) then some (ws.map fun w => .entry w.key w.value) else none
  | [], _ => rfl
  | w :: ws, h => by
    have ih : (ws.map fun w => (w.text t).toList).mapM readLine = _ := mapM_settings fun w' hw' => h w' (List.mem_cons_of_mem _ hw')
    rw [List.map_cons, List.mapM_cons, readLine_setting (h w List.mem_cons_self), ih, List.all_cons]
    cases w.kept t with
    | true =>
      rw [if_pos rfl, Bool.true_and]
      split <;> rfl
    | false => rfl

theorem readLine_opening {s : WrittenSection} (h : IsKey s.name) :
    readLine (if s.isElement then "[[" ++ s.name ++ "]]" else "[" ++ s.name ++ "]").toList =
      some (if s.isElement then .element s.name else .table s.name) := by
  have hne : s.name.toList ≠ [] := fun heq => h.1 (String.toList_inj.mp heq)
  have hopen₂ : "[[".toList = ['[', '['] := toList_literal rfl
  have hclose₂ : "]]".toList = [']', ']'] := toList_literal rfl
  have hopen : "[".toList = ['['] := toList_literal rfl
  have hclose : "]".toList = [']'] := toList_literal rfl
  split
  · rw [String.toList_append, String.toList_append, hopen₂, hclose₂]
    have hline := readLine_element hne h.2
    rw [String.ofList_toList] at hline
    exact hline
  · rw [String.toList_append, String.toList_append, hopen, hclose]
    have hline := readLine_table hne h.2
    rw [String.ofList_toList] at hline
    exact hline

theorem mapM_lines {s : WrittenSection} (h : s.WellFormed) :
    ((s.lines t).map String.toList).mapM readLine = if s.kept t then some s.readings else none := by
  have hempty : "".toList = [] := rfl
  have hsettings : (s.settings.map fun w => (w.text t).toList).mapM readLine = _ := mapM_settings h.keys
  have hmap : (s.settings.map (·.text t)).map String.toList = s.settings.map fun w => (w.text t).toList := List.map_map
  unfold WrittenSection.lines WrittenSection.readings WrittenSection.kept
  rw [List.map_append, List.map_append, hmap, List.mapM_append, List.mapM_append, hsettings, List.map_cons, List.map_nil, List.mapM_cons,
    readLine_opening h.name, List.map_cons, List.map_nil, hempty]
  cases s.settings.all (·.kept t) with
  | true => rfl
  | false => rfl

theorem foldlM_readings {s : WrittenSection} (h : s.WellFormed) {sections : List Toml.Section}
    (hopen : addLine sections (if s.isElement then .element s.name else .table s.name) = some (⟨s.isElement, s.name, []⟩ :: sections)) :
    s.readings.foldlM addLine sections = some (s.section :: sections) := by
  have hkeys : (s.settings.map WrittenSetting.entry).map Prod.fst = s.settings.map WrittenSetting.key := List.map_map
  have hlines : (s.settings.map WrittenSetting.entry).map (fun e => Line.entry e.1 e.2) =
      s.settings.map fun w => .entry w.key w.value := List.map_map
  have hnodup : (([] ++ s.settings.map WrittenSetting.entry).map Prod.fst).Nodup := by
    rw [List.nil_append, hkeys]
    exact h.nodup
  have hentries : (s.settings.map fun w => Line.entry w.key w.value).foldlM addLine (⟨s.isElement, s.name, []⟩ :: sections) =
      some (s.section :: sections) := by
    rw [← hlines]
    exact foldlM_entries (s.settings.map WrittenSetting.entry) ⟨s.isElement, s.name, []⟩ hnodup
  unfold WrittenSection.readings
  rw [List.foldlM_append, List.foldlM_append, List.foldlM_cons, hopen]
  exact (congrArg (fun r => r >>= fun acc => [Line.blank].foldlM addLine acc) hentries).trans rfl

theorem splitOn_lines : ∀ {lines : List (List Char)}, (∀ l ∈ lines, '\n' ∉ l) →
    (lines.flatMap (· ++ ['\n'])).splitOn '\n' = lines ++ [[]] := by
  intro lines h
  have hjoin : lines.flatMap (· ++ ['\n']) = ['\n'].intercalate (lines ++ [[]]) := by
    clear h
    induction lines with
    | nil => rfl
    | cons l lines ih =>
      obtain ⟨l', lines', heq⟩ := List.exists_cons_of_ne_nil (List.append_ne_nil_of_right_ne_nil lines (List.cons_ne_nil [] []))
      rw [List.flatMap_cons, ih, List.cons_append, heq, List.intercalate_cons_cons]
  rw [hjoin]
  refine List.splitOn_intercalate '\n' (fun l hl => ?_) (by simp)
  rcases List.mem_append.mp hl with hl | hl
  · exact h l hl
  · rw [List.mem_singleton.mp hl]
    exact List.not_mem_nil

theorem newline_not_mem_line {s : WrittenSection} (h : s.WellFormed) {line : String} (hline : line ∈ s.lines t) : '\n' ∉ line.toList := by
  unfold WrittenSection.lines at hline
  rcases List.mem_append.mp hline with hline | hline
  · rcases List.mem_append.mp hline with hline | hline
    · obtain rfl := List.mem_singleton.mp hline
      have hbracket : ∀ {name : List Char}, '\n' ∉ name → '\n' ∉ '[' :: (name ++ [']']) := by
        intro name hname
        simp [hname]
      split
      · rw [String.toList_append, String.toList_append, toList_literal (s := "[[") rfl, toList_literal (s := "]]") rfl]
        have hinner := hbracket (hbracket (newline_not_mem_key h.name))
        simpa using hinner
      · rw [String.toList_append, String.toList_append, toList_literal (s := "[") rfl, toList_literal (s := "]") rfl]
        exact hbracket (newline_not_mem_key h.name)
    · obtain ⟨w, hw, rfl⟩ := List.mem_map.mp hline
      exact newline_not_mem_text (h.keys w hw)
  · obtain rfl := List.mem_singleton.mp hline
    exact List.not_mem_nil

theorem mapM_sections : ∀ {sections : List WrittenSection}, (∀ s ∈ sections, s.WellFormed) →
    ((sections.flatMap (·.lines t)).map String.toList).mapM readLine =
      if sections.all (·.kept t) then some (sections.flatMap WrittenSection.readings) else none
  | [], _ => rfl
  | s :: sections, h => by
    have ih : ((sections.flatMap (·.lines t)).map String.toList).mapM readLine = _ :=
      mapM_sections fun s' hs' => h s' (List.mem_cons_of_mem _ hs')
    rw [List.flatMap_cons, List.map_append, List.mapM_append, mapM_lines (h s List.mem_cons_self), ih, List.all_cons]
    cases s.kept t with
    | true =>
      rw [if_pos rfl, Bool.true_and]
      split <;> rfl
    | false => rfl

/-- The lines of the file, when every string and number comes back. -/
theorem readDocument_saved {sections : List WrittenSection} (h : ∀ s ∈ sections, s.WellFormed) :
    readDocument (String.join ((sections.flatMap (·.lines t)).map (· ++ "\n"))) =
      if sections.all (·.kept t) then ((sections.flatMap WrittenSection.readings ++ [Line.blank]).foldlM addLine []).map List.reverse
      else none := by
  have hnewline : "\n".toList = ['\n'] := toList_literal rfl
  have htext : (String.join ((sections.flatMap (·.lines t)).map (· ++ "\n"))).toList =
      ((sections.flatMap (·.lines t)).map String.toList).flatMap (· ++ ['\n']) := by
    rw [String.toList_join, List.flatMap_map, List.flatMap_map]
    refine List.flatMap_congr fun line _ => ?_
    rw [String.toList_append, hnewline]
  have hlines : ∀ l ∈ (sections.flatMap (·.lines t)).map String.toList, '\n' ∉ l := by
    intro l hl
    obtain ⟨line, hline, rfl⟩ := List.mem_map.mp hl
    obtain ⟨s, hs, hline⟩ := List.mem_flatMap.mp hline
    exact newline_not_mem_line (h s hs) hline
  unfold readDocument
  rw [htext, splitOn_lines hlines, List.mapM_append, mapM_sections h]
  split
  · cases hfold : (sections.flatMap WrittenSection.readings ++ [Line.blank]).foldlM addLine [] with
    | none => exact (congrArg (fun r => r >>= fun acc => some acc.reverse) hfold).trans rfl
    | some acc => exact (congrArg (fun r => r >>= fun acc => some acc.reverse) hfold).trans rfl
  · rfl

/-! ## What a saved configuration loads as -/

theorem isKey_literal {key : String} (h : (key ≠ "" && key.toList.all isBareKey) = true) : IsKey key := by
  rw [Bool.and_eq_true, decide_eq_true_eq] at h
  exact ⟨h.1, List.all_eq_true.mp h.2⟩

theorem isKey_defaults : IsKey "defaults" := isKey_literal (by decide)

theorem isKey_maxParallelDownloads : IsKey "max_parallel_downloads" := isKey_literal (by decide)

theorem isKey_caches : IsKey "caches" := isKey_literal (by decide)

theorem defaults_wellFormed (defaults : Defaults) : defaults.written.WellFormed where
  name := isKey_defaults
  keys w hw := by
    obtain rfl := List.mem_singleton.mp hw
    exact isKey_maxParallelDownloads
  nodup := List.nodup_singleton _

/-- The keys of a cache, with those of its optional settings. -/
def cacheKeys : List String := ["name", "url", "trusted_key", "trust_root", "token", "priority", "protocol"]

theorem keys_sublist (cache : CacheConfig) : (cache.written.settings.map WrittenSetting.key).Sublist cacheKeys := by
  have hoptional : ∀ (key : String) (value : Option String),
      ((optionalSetting key value).map WrittenSetting.key).Sublist [key] := by
    intro key value
    cases value with
    | none => exact List.nil_sublist _
    | some s => exact List.Sublist.refl _
  unfold CacheConfig.written cacheKeys
  simp only [List.map_append]
  exact ((((List.Sublist.refl ["name", "url"]).append (hoptional _ _)).append (hoptional _ _)).append (hoptional _ _)).append
    (List.Sublist.refl ["priority", "protocol"])

theorem cache_wellFormed (cache : CacheConfig) : cache.written.WellFormed where
  name := isKey_caches
  keys w hw := by
    have hall : ∀ key ∈ cacheKeys, (key ≠ "" && key.toList.all isBareKey) = true := by decide
    exact isKey_literal (hall _ ((keys_sublist cache).subset (List.mem_map_of_mem hw)))
  nodup := (keys_sublist cache).nodup (by decide)

theorem wellFormed_written (config : ClientConfig) : ∀ s ∈ config.written, s.WellFormed := by
  intro s hs
  rcases List.mem_cons.mp hs with rfl | hs
  · exact defaults_wellFormed config.defaults
  · obtain ⟨cache, -, rfl⟩ := List.mem_map.mp hs
    exact cache_wellFormed cache

theorem foldlM_caches : ∀ {caches : List CacheConfig} {sections : List Toml.Section},
    (sections.any fun s => s.name = "caches" ∧ s.isElement = false) = false →
    ((caches.map CacheConfig.written).flatMap WrittenSection.readings).foldlM addLine sections =
      some ((caches.map fun cache => cache.written.section).reverse ++ sections)
  | [], _, _ => rfl
  | cache :: caches, sections, h => by
    have hopen : addLine sections (.element "caches") = some (⟨true, "caches", []⟩ :: sections) := by
      unfold addLine
      dsimp only
      rw [h, if_neg (by decide)]
    have hrest : ((cache.written.section :: sections).any fun s => s.name = "caches" ∧ s.isElement = false) = false := by
      rw [List.any_cons, h]
      rfl
    rw [List.map_cons, List.flatMap_cons, List.foldlM_append, foldlM_readings (cache_wellFormed cache) hopen, Option.bind_eq_bind,
      Option.bind_some, foldlM_caches hrest, List.map_cons, List.reverse_cons, List.append_assoc]
    rfl

theorem foldlM_written (config : ClientConfig) : (config.written.flatMap WrittenSection.readings ++ [Line.blank]).foldlM addLine [] =
    some (config.written.map WrittenSection.section).reverse := by
  have hopen : addLine [] (.table "defaults") = some [⟨false, "defaults", []⟩] := rfl
  have hcaches : (([config.defaults.written.section] : List Toml.Section).any fun s => s.name = "caches" ∧ s.isElement = false) = false :=
    rfl
  unfold ClientConfig.written
  rw [List.flatMap_cons, List.append_assoc, List.foldlM_append, foldlM_readings (defaults_wellFormed config.defaults) hopen,
    Option.bind_eq_bind, Option.bind_some, List.foldlM_append, foldlM_caches hcaches, List.map_cons, List.map_map, List.reverse_cons]
  rfl

/-- A loaded cache is the one that was saved. -/
theorem ofEntries_cache (cache : CacheConfig) : CacheConfig.ofEntries cache.written.section.entries = some cache := by
  obtain ⟨name, url, trustedKey, trustRoot, token, priority, protocol⟩ := cache
  have hpriority : priority.toNat < 4294967296 := priority.toNat_lt
  have hback : UInt32.ofNat priority.toNat = priority := UInt32.ofNat_toNat
  have hprotocol : CacheProtocol.ofName protocol.name = some protocol := by
    cases protocol <;> rfl
  cases trustedKey <;> cases trustRoot <;> cases token <;>
    simp [CacheConfig.ofEntries, CacheConfig.written, WrittenSection.section, WrittenSetting.entry, WrittenSetting.key,
      WrittenSetting.value, optionalSetting, requiredString, optionalString, numberOr, Entries.get?, List.find?, hpriority, hback, hprotocol]

/-- What is left of a configuration. -/
def ClientConfig.saved (config : ClientConfig) : ClientConfig :=
  { config with defaults := ⟨config.defaults.maxParallelDownloads, none, none, none⟩ }

theorem ofSections_written (config : ClientConfig) : ClientConfig.ofSections (config.written.map WrittenSection.section) = some config.saved := by
  have hmap : config.written.map WrittenSection.section =
      config.defaults.written.section :: config.caches.map fun cache => cache.written.section := by
    unfold ClientConfig.written
    rw [List.map_cons, List.map_map]
    rfl
  have hkinds : (config.written.map WrittenSection.section).any (fun s =>
      (s.name = "defaults" ∧ s.isElement = true) ∨ (s.name = "caches" ∧ s.isElement = false)) = false := by
    rw [hmap]
    refine List.any_eq_false.mpr fun s hs => ?_
    rcases List.mem_cons.mp hs with rfl | hs
    · simp [Defaults.written, WrittenSection.section]
    · obtain ⟨cache, -, rfl⟩ := List.mem_map.mp hs
      simp [CacheConfig.written, WrittenSection.section]
  have hdefaults : Defaults.ofEntries config.defaults.written.section.entries =
      some ⟨config.defaults.maxParallelDownloads, none, none, none⟩ := by
    have hbound : config.defaults.maxParallelDownloads.toNat < 18446744073709551616 :=
      config.defaults.maxParallelDownloads.toNat_lt
    have hback : UInt64.ofNat config.defaults.maxParallelDownloads.toNat = config.defaults.maxParallelDownloads := UInt64.ofNat_toNat
    simp [Defaults.ofEntries, Defaults.written, WrittenSection.section, WrittenSetting.entry, WrittenSetting.key,
      WrittenSetting.value, optionalString, numberOr, Entries.get?, hbound, hback]
  have hfilter : (config.written.map WrittenSection.section).filter (fun s => s.name = "caches") =
      config.caches.map fun cache => cache.written.section := by
    rw [hmap, List.filter_cons_of_neg (by simp [Defaults.written, WrittenSection.section])]
    refine List.filter_eq_self.mpr fun s hs => ?_
    obtain ⟨cache, -, rfl⟩ := List.mem_map.mp hs
    rfl
  have hcaches : (config.caches.map fun cache => cache.written.section).mapM (fun s => CacheConfig.ofEntries s.entries) =
      some config.caches := by
    induction config.caches with
    | nil => rfl
    | cons cache caches ih => rw [List.map_cons, List.mapM_cons, ofEntries_cache, ih]; rfl
  have hfind : (config.written.map WrittenSection.section).find? (fun s => s.name = "defaults") = some config.defaults.written.section := by
    rw [hmap]
    exact List.find?_cons_of_pos (decide_eq_true rfl)
  unfold ClientConfig.ofSections
  rw [hkinds, if_neg (by decide), hfind, hfilter, hcaches]
  dsimp only
  rw [hdefaults]
  rfl

theorem load_saveConfig (config : ClientConfig) :
    ClientConfig.load (saveConfig t config) = if config.written.all (·.kept t) then some config.saved else none := by
  unfold ClientConfig.load saveConfig
  rw [readDocument_saved (wellFormed_written config), foldlM_written, Option.map_some, List.reverse_reverse]
  split
  · exact ofSections_written config
  · rfl

/-- What the file holds comes back. -/
def ClientConfig.Kept (t : DebugTable) (config : ClientConfig) : Prop :=
  config.defaults.channelInput = none ∧ config.defaults.channelUrl = none ∧ config.defaults.indexUrl = none ∧
    config.defaults.maxParallelDownloads.toNat < 2 ^ 63 ∧
    ∀ cache ∈ config.caches, keepsString t cache.name = true ∧ keepsString t cache.url = true ∧
      ∀ s ∈ cache.trustedKey.toList ++ cache.trustRoot.toList ++ cache.token.toList, keepsString t s = true

theorem kept_string (key s : String) : (WrittenSetting.string key s).kept t = keepsString t s := rfl

theorem kept_number (key : String) (n : Nat) : (WrittenSetting.number key n).kept t = decide (n < 2 ^ 63) := rfl

def isPrintableAscii (c : Char) : Bool := 0x20 ≤ c.val && c.val < 0x7f

theorem keepsString_ascii {s : String} (h : s.toList.all isPrintableAscii = true) : keepsString t s = true := by
  refine List.all_eq_true.mpr fun c hc => ?_
  have hascii := List.all_eq_true.mp h c hc
  unfold isPrintableAscii at hascii
  rw [Bool.and_eq_true, decide_eq_true_eq, decide_eq_true_eq] at hascii
  unfold keepsChar
  rw [t.ascii c hascii.1 hascii.2]
  simp

theorem kept_cache (cache : CacheConfig) : cache.written.kept t = true ↔ keepsString t cache.name = true ∧ keepsString t cache.url = true ∧
    ∀ s ∈ cache.trustedKey.toList ++ cache.trustRoot.toList ++ cache.token.toList, keepsString t s = true := by
  have hprotocol : keepsString t cache.protocol.name = true := by
    cases cache.protocol with
    | auto => exact keepsString_ascii (by decide)
    | legacy => exact keepsString_ascii (by decide)
    | grpc => exact keepsString_ascii (by decide)
  have hpriority : cache.priority.toNat < 2 ^ 63 := Nat.lt_trans cache.priority.toNat_lt (by decide)
  have hoptional : ∀ (key : String) (value : Option String),
      (optionalSetting key value).all (·.kept t) = true ↔ ∀ s ∈ value.toList, keepsString t s = true := by
    intro key value
    cases value with
    | none => simp [optionalSetting]
    | some s => simp [optionalSetting, kept_string]
  unfold WrittenSection.kept CacheConfig.written
  simp only [List.all_append, List.all_cons, List.all_nil, Bool.and_true, Bool.and_eq_true, hoptional, kept_string, kept_number,
    hprotocol, decide_eq_true_eq, hpriority, and_true, List.mem_append, or_imp, forall_and, and_assoc]

theorem kept_written (config : ClientConfig) : config.written.all (·.kept t) = true ↔
    config.defaults.maxParallelDownloads.toNat < 2 ^ 63 ∧ ∀ cache ∈ config.caches, cache.written.kept t = true := by
  unfold ClientConfig.written
  rw [List.all_cons, Bool.and_eq_true, List.all_map, List.all_eq_true]
  simp [WrittenSection.kept, Defaults.written, kept_number]

/-- A saved configuration loads as itself exactly when the settings that are not
written are absent, the number fits and Rust escapes every string as TOML does. -/
theorem load_saveConfig_iff (t : DebugTable) (config : ClientConfig) :
    ClientConfig.load (saveConfig t config) = some config ↔ config.Kept t := by
  have hsaved : config.saved = config ↔
      config.defaults.channelInput = none ∧ config.defaults.channelUrl = none ∧ config.defaults.indexUrl = none := by
    obtain ⟨⟨n, channelInput, channelUrl, indexUrl⟩, caches⟩ := config
    simp [ClientConfig.saved, eq_comm]
  have hkept : config.written.all (·.kept t) = true ∧ config.saved = config ↔ config.Kept t := by
    rw [kept_written, hsaved]
    unfold ClientConfig.Kept
    simp only [kept_cache]
    constructor
    · rintro ⟨⟨hn, hcaches⟩, hinput, hurl, hindex⟩
      exact ⟨hinput, hurl, hindex, hn, hcaches⟩
    · rintro ⟨hinput, hurl, hindex, hn, hcaches⟩
      exact ⟨⟨hn, hcaches⟩, hinput, hurl, hindex⟩
  rw [load_saveConfig, ← hkept]
  by_cases hall : config.written.all (·.kept t) = true
  · rw [if_pos hall, Option.some.injEq]
    exact ⟨fun h => ⟨hall, h⟩, fun h => h.2⟩
  · rw [if_neg hall]
    exact ⟨fun h => (by cases h), fun h => absurd h.1 hall⟩

/-- What the table says of ASCII alone. -/
def asciiTable : DebugTable where
  plain := isPrintableAscii
  ascii c h h' := by
    unfold isPrintableAscii
    rw [decide_eq_true h, decide_eq_true h']
    rfl
  control c h := by
    unfold isPrintableAscii
    rcases h with h | h
    · rw [decide_eq_false (UInt32.not_le.mpr h)]
      rfl
    · rw [h]
      rfl

def indexedConfig : ClientConfig := ⟨⟨defaultParallel, none, none, some "https://example.org/index"⟩, []⟩

/-- A configured search index is gone after the next change. -/
theorem index_url_lost : ¬ ∀ (t : DebugTable) (config : ClientConfig), ClientConfig.load (saveConfig t config) = some config := by
  intro h
  have hload := h asciiTable indexedConfig
  rw [load_saveConfig] at hload
  split at hload
  · have hindex := congrArg (fun c => c.defaults.indexUrl) (Option.some.inj hload)
    cases hindex
  · cases hload

end Ekapkgs
