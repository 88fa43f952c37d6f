import Ekapkgs.Serve
import Ekapkgs.Lib.Utf8Cut

/-!
# Requests that cut text and data

`get_log` of `api/logs.rs`, which splits the name of a log after two bytes, and
`get_nar_buffered` of `api/compat.rs`, which cuts the range out of a NAR that the
request asks for.
-/

namespace Ekapkgs
open Utf8Cut Links

structure HttpAnswer where
  status : Nat
  headers : List (String × String)
  body : Bytes

def notFoundAnswer : HttpAnswer :=
  ⟨404, [("cache-control", "no-store"), ("content-type", "text/plain; charset=utf-8")], asBytes "not found"⟩

/-! ## Logs -/

/-- The first part that names the encoding decides. -/
def acceptsEncodingIn (encoding : String) : List String → Bool
  | [] => false
  | part :: parts =>
    let (name, params) := (splitOnce ";" (trim part)).getD (trim part, "")
    if eqIgnoreAsciiCase (trim name) encoding then
      match (stripPrefix "q=" (trim params)).or (stripPrefix "Q=" (trim params)) with
      | some q => !(["0", "0.0", "0.00"].contains (trim q))
      | none => true
    else acceptsEncodingIn encoding parts

def acceptsEncoding (header encoding : String) : Bool := acceptsEncodingIn encoding (split ',' header)

structure LogFiles where
  /-- `path.exists()`. -/
  present : String → Bool
  read : String → Option Bytes
  decompress : Bytes → Option Bytes

structure LogRun where
  answer : HttpAnswer
  opened : List String

def LOG_DIR : String := "/nix/var/log/nix/drvs"

def logAnswer (encoding : List (String × String)) (data : Bytes) : HttpAnswer :=
  ⟨200, ("content-type", "text/plain; charset=utf-8") :: encoding ++ [("cache-control", "max-age=31536000"),
    ("content-length", toString data.length)], data⟩

def serveLog (files : LogFiles) (acceptsBzip2 : Bool) (bz2Path plainPath : String) : LogRun :=
  if files.present bz2Path then
    match files.read bz2Path with
    | none => ⟨notFoundAnswer, [bz2Path]⟩
    | some data =>
      if acceptsBzip2 then ⟨logAnswer [("content-encoding", "bzip2")] data, [bz2Path]⟩
      else match files.decompress data with
        | none => ⟨⟨500, [], asBytes "decompression error"⟩, [bz2Path]⟩
        | some decompressed => ⟨logAnswer [] decompressed, [bz2Path]⟩
  else if files.present plainPath then
    match files.read plainPath with
    | none => ⟨notFoundAnswer, [plainPath]⟩
    | some data => ⟨logAnswer [] data, [plainPath]⟩
  else ⟨notFoundAnswer, []⟩

def refusedLog (drv : String) : Bool :=
  drv.toList.contains '/' || drv.toList.contains '\\' || containsStr ".." drv || drv.toList.contains (Char.ofNat 0)

def logName (drv : String) : String := ((stripSuffix ".drv" drv).or (stripSuffix ".drv.bz2" drv)).getD drv

/-- Nothing when the handler panics. -/
def getLog (files : LogFiles) (acceptEncoding : Option String) (drv : String) : Option LogRun :=
  if refusedLog drv then some ⟨notFoundAnswer, []⟩
  else if utf8Len (logName drv).toList < 2 then some ⟨notFoundAnswer, []⟩
  else (cut? 2 (logName drv).toList).map fun (start, rest) =>
    let logDir := joinPath LOG_DIR (String.ofList start)
    let bz2Path := joinPath logDir (String.ofList rest ++ ".drv.bz2")
    let plainPath := joinPath logDir (String.ofList rest ++ ".drv")
    let acceptsBzip2 := acceptEncoding.any fun s => acceptsEncoding s "bzip2"
    serveLog files acceptsBzip2 bz2Path plainPath

/-! ## Ranges -/

/-- A `usize` is a `u64`. -/
def parseRangeHeader (header : String) (total : Nat) : Option (Nat × Nat) := do
  let range ← stripPrefix "bytes=" header
  let (startStr, endStr) ← splitOnce "-" range
  let start ← parseU64 startStr
  let stop ← (if endStr = "" then some (total - 1) else parseU64 endStr)
  if total ≤ start ∨ total ≤ stop ∨ stop < start then none else some (start, stop)

/-- `data[start..=end]`. -/
def sliceInclusive (data : Bytes) (start stop : Nat) : Option Bytes :=
  if start ≤ stop + 1 ∧ stop < data.length then some ((data.take (stop + 1)).drop start) else none

/-- Nothing when the handler panics. -/
def getNarBuffered (getNar : String → Except Unit (Option Bytes)) (range : Option String) (narPath contentType : String) :
    Option HttpAnswer :=
  match getNar narPath with
  | .ok (some data) =>
    match range.bind fun s => parseRangeHeader s data.length with
    | some (start, stop) => (sliceInclusive data start stop).map fun slice =>
      ⟨206, [("content-type", contentType), ("content-length", toString slice.length),
        ("content-range", s!"bytes {start}-{stop}/{data.length}"), ("accept-ranges", "bytes"), ("cache-control", "max-age=31536000")], slice⟩
    | none => some ⟨200, [("content-type", contentType), ("content-length", toString data.length), ("accept-ranges", "bytes"),
        ("cache-control", "max-age=31536000")], data⟩
  | .ok none => some notFoundAnswer
  | .error () => some ⟨500, [], asBytes "internal error"⟩

/-- The answer has the whole NAR, or the range that its header names. -/
def HttpAnswer.Ranged (answer : HttpAnswer) (data : Bytes) : Prop :=
  answer.status = 200 ∧ answer.body = data ∨
    ∃ start stop, start ≤ stop ∧ stop < data.length ∧ answer.status = 206 ∧ answer.body = (data.drop start).take (stop + 1 - start) ∧
      ("content-range", s!"bytes {start}-{stop}/{data.length}") ∈ answer.headers

theorem parseRangeHeader_bounds {header : String} {total start stop : Nat} (h : parseRangeHeader header total = some (start, stop)) :
    start ≤ stop ∧ stop < total := by
  unfold parseRangeHeader at h
  simp only [Option.bind_eq_bind, Option.bind_eq_some_iff] at h
  obtain ⟨range, -, ⟨startStr, endStr⟩, -, start', -, stop', -, h⟩ := h
  split_ifs at h with hbounds
  cases h
  omega

theorem getNarBuffered_ranged (getNar : String → Except Unit (Option Bytes)) (range : Option String) (narPath contentType : String) :
    ∃ answer, getNarBuffered getNar range narPath contentType = some answer ∧
      ∀ data, getNar narPath = .ok (some data) → answer.Ranged data := by
  unfold getNarBuffered
  cases hnar : getNar narPath with
  | error e => exact ⟨_, rfl, nofun⟩
  | ok found =>
    cases found with
    | none => exact ⟨_, rfl, nofun⟩
    | some data =>
      dsimp only
      cases hrange : range.bind fun s => parseRangeHeader s data.length with
      | none =>
        refine ⟨_, rfl, fun data' h => ?_⟩
        cases h
        exact .inl ⟨rfl, rfl⟩
      | some bounds =>
        obtain ⟨start, stop⟩ := bounds
        obtain ⟨header, -, hparse⟩ := Option.bind_eq_some_iff.mp hrange
        obtain ⟨hle, hlt⟩ := parseRangeHeader_bounds hparse
        dsimp only
        rw [sliceInclusive, if_pos ⟨by omega, hlt⟩]
        refine ⟨_, rfl, fun data' h => ?_⟩
        cases h
        refine .inr ⟨start, stop, hle, hlt, rfl, List.drop_take .., ?_⟩
        exact List.mem_cons_of_mem _ (List.mem_cons_of_mem _ List.mem_cons_self)

/-! ## Where a log is read -/

/-- The path of a file in a directory of the log directory. -/
def TwoBelow (path : String) : Prop :=
  ∃ dir file, ValidName dir ∧ ValidName file ∧ pathComponents path = pathComponents LOG_DIR ++ [.normal dir, .normal file]

/-- The first two bytes are whole characters. -/
def twoByteStart : List Char → Bool
  | [] => false
  | [c] => c.utf8Size = 2
  | c :: d :: _ => c.utf8Size = 2 || c.utf8Size = 1 && d.utf8Size = 1

def LogNameFits (drv : String) : Prop :=
  refusedLog drv = true ∨ utf8Len (logName drv).toList < 2 ∨ twoByteStart (logName drv).toList = true

theorem cut?_two_isSome (name : List Char) : (cut? 2 name).isSome = true ↔ twoByteStart name = true := by
  rcases name with _ | ⟨c, _ | ⟨d, name⟩⟩
  · simp [cut?, twoByteStart]
  · have hpos := c.utf8Size_pos
    rcases (by omega : c.utf8Size = 1 ∨ c.utf8Size = 2 ∨ 2 < c.utf8Size) with h | h | h
    · simp [cut?, twoByteStart, h]
    · simp [cut?, twoByteStart, h]
    · simp [cut?, twoByteStart, Nat.not_le.mpr h, Nat.ne_of_gt h]
  · have hpos := c.utf8Size_pos
    have hpos' := d.utf8Size_pos
    rcases (by omega : c.utf8Size = 1 ∨ c.utf8Size = 2 ∨ 2 < c.utf8Size) with h | h | h
    · rcases (by omega : d.utf8Size = 1 ∨ 1 < d.utf8Size) with h' | h'
      · simp [cut?, twoByteStart, h, h']
      · simp [cut?, twoByteStart, h, Nat.not_le.mpr h', Nat.ne_of_gt h']
    · simp [cut?, twoByteStart, h]
    · simp [cut?, twoByteStart, Nat.not_le.mpr h, Nat.ne_of_gt h, Nat.ne_of_gt (Nat.lt_trans (by decide : 1 < 2) h)]

theorem logName_prefix (drv : String) : (logName drv).toList <+: drv.toList := by
  have hstrip : ∀ {suffix name : String}, stripSuffix suffix drv = some name → name.toList <+: drv.toList := by
    intro suffix name h
    rw [eq_of_stripSuffix h, String.toList_append]
    exact List.prefix_append ..
  unfold logName
  cases hplain : stripSuffix ".drv" drv with
  | some name => exact hstrip hplain
  | none =>
    cases hbz2 : stripSuffix ".drv.bz2" drv with
    | some name => exact hstrip hbz2
    | none => exact List.prefix_refl _

theorem join_components {names : List String} (hnames : ∀ name ∈ names, ValidName name) :
    pathComponents (join '/' (["", "nix", "var", "log", "nix", "drvs"] ++ names)) = pathComponents LOG_DIR ++ names.map .normal := by
  have hroot : ∀ name ∈ ["", "nix", "var", "log", "nix", "drvs"], '/' ∉ name.toList := by decide
  have hdir : pathComponents LOG_DIR = ["", "nix", "var", "log", "nix", "drvs"].map Component.ofSegment := by decide
  rw [pathComponents, split_join (by simp) fun name hmem => (List.mem_append.mp hmem).elim (hroot name) fun h => (hnames name h).2.1,
    List.map_append, hdir]
  exact congrArg _ (List.map_congr_left fun name hmem => (hnames name hmem).1)

theorem getLast?_ne_slash {base name : String} (hne : name ≠ "") (h : '/' ∉ name.toList) : (base ++ name).toList.getLast? ≠ some '/' := by
  intro hlast
  rw [String.toList_append, List.getLast?_append_of_ne_nil _ (fun hnil => hne (String.toList_inj.mp hnil))] at hlast
  exact h (List.mem_of_getLast? hlast)

theorem joinPath_of_name {base name : String} (hbase : base ≠ "") (hlast : base.toList.getLast? ≠ some '/') (h : '/' ∉ name.toList) :
    joinPath base name = base ++ "/" ++ name := by
  have hrelative : isAbsolutePath name = false := by
    refine decide_eq_false fun hhead => h (List.mem_of_mem_head? hhead)
  unfold joinPath
  rw [hrelative, if_neg (by decide), if_neg (by rintro (h | h) <;> contradiction)]

/-- The two names that a log name is cut into. -/
theorem logPath_twoBelow {start file : String} (hstart : ValidName start) (hfile : ValidName file) :
    TwoBelow (joinPath (joinPath LOG_DIR start) file) := by
  have hne : start ≠ "" := by
    rintro rfl
    exact absurd hstart.1 (by decide)
  have hdir : joinPath LOG_DIR start = LOG_DIR ++ "/" ++ start := joinPath_of_name (by decide) (by decide) hstart.2.1
  have hpath : joinPath (joinPath LOG_DIR start) file = join '/' (["", "nix", "var", "log", "nix", "drvs"] ++ [start, file]) := by
    rw [hdir, joinPath_of_name (by simp [LOG_DIR]) (getLast?_ne_slash hne hstart.2.1) hfile.2.1]
    refine String.toList_inj.mp ?_
    simp [join, LOG_DIR, List.intercalate]
  refine ⟨start, file, hstart, hfile, ?_⟩
  rw [hpath, join_components]
  · rfl
  · intro name hmem
    rcases List.mem_cons.mp hmem with rfl | hmem
    · exact hstart
    · rw [List.mem_singleton.mp hmem]
      exact hfile

theorem validName_of {name : String} (h : 2 ≤ name.toList.length ∨ utf8Len name.toList = 2) (hslash : '/' ∉ name.toList)
    (hnul : Char.ofNat 0 ∉ name.toList) (hdots : name ≠ "..") : ValidName name := by
  have hne : name ≠ "" := by rintro rfl; revert h; decide
  have hdot : name ≠ "." := by rintro rfl; revert h; decide
  refine ⟨?_, hslash, hnul⟩
  rw [Component.ofSegment, if_neg (by simp [hne, hdot]), if_neg hdots]

theorem serveLog_opened (files : LogFiles) (acceptsBzip2 : Bool) (bz2Path plainPath : String) :
    (∀ path ∈ (serveLog files acceptsBzip2 bz2Path plainPath).opened, path = bz2Path ∨ path = plainPath) ∧
      ((serveLog files acceptsBzip2 bz2Path plainPath).opened = [] → (serveLog files acceptsBzip2 bz2Path plainPath).answer.status = 404) := by
  unfold serveLog
  split_ifs
  · cases files.read bz2Path <;> dsimp only
    · simp
    · simp
  · cases files.read bz2Path <;> dsimp only
    · simp
    · next data => cases files.decompress data <;> simp
  · cases files.read plainPath <;> simp
  · simp [notFoundAnswer]

/-- What is cut out of a name that is not refused are names. -/
theorem validName_cut {drv : String} {start rest : List Char} (hrefused : ¬refusedLog drv = true) (hcut : cut? 2 (logName drv).toList = some (start, rest))
    (suffix : String) (hlong : 2 ≤ suffix.toList.length) (hdots : '.' ≠ (suffix.toList.getLast?.getD '.')) (hslash : '/' ∉ suffix.toList)
    (hnul : Char.ofNat 0 ∉ suffix.toList) : ValidName (String.ofList start) ∧ ValidName (String.ofList rest ++ suffix) := by
  obtain ⟨hname, hlen⟩ := cut?_eq_some.mp hcut
  have hprefix := logName_prefix drv
  have hmem : ∀ c ∈ start ++ rest, c ∈ drv.toList := by
    intro c hc
    rw [← hname] at hc
    exact hprefix.subset hc
  simp only [refusedLog, Bool.or_eq_true, List.contains_iff_mem, not_or] at hrefused
  obtain ⟨⟨⟨hdrv, -⟩, hparent⟩, hdrvNul⟩ := hrefused
  refine ⟨validName_of (.inr (by rw [String.toList_ofList, hlen])) ?_ ?_ ?_, validName_of (.inl ?_) ?_ ?_ ?_⟩
  · rw [String.toList_ofList]
    exact fun h => hdrv (hmem _ (List.mem_append_left _ h))
  · rw [String.toList_ofList]
    exact fun h => hdrvNul (hmem _ (List.mem_append_left _ h))
  · intro hdotdot
    refine hparent (List.any_eq_true.mpr ⟨drv.toList, by simp, List.isPrefixOf_iff_prefix.mpr ?_⟩)
    rw [← hdotdot, String.toList_ofList]
    exact ((hname ▸ List.prefix_append start rest : start <+: (logName drv).toList)).trans hprefix
  · rw [String.toList_append, List.length_append]
    omega
  · rw [String.toList_append, String.toList_ofList]
    exact fun h => (List.mem_append.mp h).elim (fun h => hdrv (hmem _ (List.mem_append_right _ h))) hslash
  · rw [String.toList_append, String.toList_ofList]
    exact fun h => (List.mem_append.mp h).elim (fun h => hdrvNul (hmem _ (List.mem_append_right _ h))) hnul
  · intro hdotdot
    have hlast := congrArg (fun s => s.toList.getLast?.getD '.') hdotdot
    rw [String.toList_append, List.getLast?_append_of_ne_nil _ (List.ne_nil_of_length_pos (by omega))] at hlast
    exact hdots hlast.symm

theorem getLog_iff (files : LogFiles) (acceptEncoding : Option String) (drv : String) :
    (∃ run, getLog files acceptEncoding drv = some run ∧ (∀ path ∈ run.opened, TwoBelow path) ∧ (run.opened = [] → run.answer.status = 404)) ↔
      LogNameFits drv := by
  unfold getLog LogNameFits
  by_cases hrefused : refusedLog drv = true
  · rw [if_pos hrefused]
    exact ⟨fun _ => .inl hrefused, fun _ => ⟨_, rfl, nofun, fun _ => rfl⟩⟩
  rw [if_neg hrefused]
  by_cases hshort : utf8Len (logName drv).toList < 2
  · rw [if_pos hshort]
    exact ⟨fun _ => .inr (.inl hshort), fun _ => ⟨_, rfl, nofun, fun _ => rfl⟩⟩
  rw [if_neg hshort, ← cut?_two_isSome]
  refine ⟨fun ⟨run, hrun, _⟩ => ?_, fun hfits => ?_⟩
  · obtain ⟨cut, hcut, -⟩ := Option.map_eq_some_iff.mp hrun
    exact .inr (.inr (by rw [hcut]; rfl))
  · obtain ⟨⟨start, rest⟩, hcut⟩ := Option.isSome_iff_exists.mp ((hfits.resolve_left hrefused).resolve_left hshort)
    rw [hcut, Option.map_some]
    obtain ⟨hopened, hnone⟩ := serveLog_opened files (acceptEncoding.any fun s => acceptsEncoding s "bzip2")
      (joinPath (joinPath LOG_DIR (String.ofList start)) (String.ofList rest ++ ".drv.bz2"))
      (joinPath (joinPath LOG_DIR (String.ofList start)) (String.ofList rest ++ ".drv"))
    refine ⟨_, rfl, fun path hmem => ?_, hnone⟩
    rcases hopened path hmem with rfl | rfl
    · obtain ⟨hstart, hfile⟩ := validName_cut hrefused hcut ".drv.bz2" (by decide) (by decide) (by decide) (by decide)
      exact logPath_twoBelow hstart hfile
    · obtain ⟨hstart, hfile⟩ := validName_cut hrefused hcut ".drv" (by decide) (by decide) (by decide) (by decide)
      exact logPath_twoBelow hstart hfile

/-- A log name is answered without a panic, out of the log directory, exactly if it
is refused, or too short, or its first two bytes are whole characters; a range is
always cut within the NAR. -/
theorem request_text_cut (files acceptEncoding drv getNar range narPath contentType) :
    ((∃ run, getLog files acceptEncoding drv = some run ∧ (∀ path ∈ run.opened, TwoBelow path) ∧
      (run.opened = [] → run.answer.status = 404)) ↔ LogNameFits drv) ∧
    ∃ answer, getNarBuffered getNar range narPath contentType = some answer ∧
      ∀ data, getNar narPath = .ok (some data) → answer.Ranged data :=
  ⟨getLog_iff files acceptEncoding drv, getNarBuffered_ranged getNar range narPath contentType⟩

/-- The euro sign has three bytes. -/
theorem getLog_euro : getLog ⟨fun _ => false, fun _ => none, fun _ => none⟩ none "€.drv" = none := by decide

end Ekapkgs
