import Ekapkgs.StreamNars
import Ekapkgs.PushText
import Ekapkgs.Lib.Links

/-!
# Files served out of store paths

`get_serve` of `api/serve.rs`, over the file system as it stands while a request is
answered. Where a path leads is tested against the whole store, so an answer can
hold a file of any store path.
-/

namespace Ekapkgs
open Links

/-! ## Paths -/

/-- What is no directory; devices and sockets are not regular. -/
structure FileContents where
  regular : Bool
  readable : Bool
  data : Bytes

abbrev ServedFiles := FileSystem FileContents

def MAX_LINKS : Nat := 40

def pathComponents (path : String) : List Component := (split '/' path).map Component.ofSegment

def isAbsolutePath (path : String) : Bool := path.toList.head? = some '/'

/-- `fs::canonicalize`; an empty path and one with a NUL are refused. -/
def canonicalize (fs : ServedFiles) (cwd : Location) (path : String) : Option Location :=
  if path = "" ∨ Char.ofNat 0 ∈ path.toList then none
  else fs.resolve MAX_LINKS (if isAbsolutePath path then [] else cwd) (pathComponents path)

/-- `PathBuf::join`: an absolute path replaces the base. -/
def joinPath (base path : String) : String :=
  if isAbsolutePath path then path
  else if base = "" ∨ base.toList.getLast? = some '/' then base ++ path
  else base ++ "/" ++ path

/-- `Path::extension`. -/
def fileExtension (name : String) : Option String :=
  if name = ".." ∨ name.length ≤ (rsplitNext '.' name).length + 1 then none else some (rsplitNext '.' name)

/-- `fs::metadata` of a location: what it leads to. -/
def metadata (fs : ServedFiles) (path : Location) : Option (Location × Entry FileContents) :=
  (fs.resolve MAX_LINKS [] (path.reverse.map .normal)).bind fun loc => (fs.entry loc).map fun e => (loc, e)

/-! ## The endpoint -/

inductive ServeResponse where
  | notFound
  | internalError
  | payloadTooLarge
  | listing (directory : Location) (hash tail : String)
  /-- `source` is where the bytes were read, with every link resolved. -/
  | file (source : Location) (mime : String) (data : Bytes)

def MAX_SERVE_FILE_SIZE : Nat := 256 * 1024 * 1024

def mimeFromExtension (ext : String) : String :=
  if ext ∈ ["html", "htm"] then "text/html; charset=utf-8"
  else if ext = "css" then "text/css"
  else if ext ∈ ["js", "mjs"] then "application/javascript"
  else if ext = "json" then "application/json"
  else if ext = "xml" then "application/xml"
  else if ext ∈ ["txt", "log"] then "text/plain; charset=utf-8"
  else if ext = "png" then "image/png"
  else if ext ∈ ["jpg", "jpeg"] then "image/jpeg"
  else if ext = "gif" then "image/gif"
  else if ext = "svg" then "image/svg+xml"
  else if ext = "woff" then "font/woff"
  else if ext = "woff2" then "font/woff2"
  else if ext = "pdf" then "application/pdf"
  else if ext ∈ ["gz", "tgz"] then "application/gzip"
  else if ext = "xz" then "application/x-xz"
  else if ext = "zst" then "application/zstd"
  else if ext = "tar" then "application/x-tar"
  else if ext = "zip" then "application/zip"
  else if ext = "wasm" then "application/wasm"
  else "application/octet-stream"

def serveFile (fs : ServedFiles) (path : Location) : ServeResponse :=
  match metadata fs path with
  | some (source, .file contents) =>
    if MAX_SERVE_FILE_SIZE < contents.data.length then .payloadTooLarge
    else if contents.readable then
      let mime := ((path.head?.bind fileExtension).map mimeFromExtension).getD "application/octet-stream"
      .file source mime contents.data
    else .notFound
  | _ => .notFound

def isRegularFile (fs : ServedFiles) (path : Location) : Bool :=
  match metadata fs path with
  | some (_, .file contents) => contents.regular
  | _ => false

/-- The answer for a resolved path: the file, or the index or the listing of the directory. -/
def serveTarget (fs : ServedFiles) (canonical : Location) (hash tail : String) : ServeResponse :=
  match metadata fs canonical with
  | some (_, .file contents) => if contents.regular then serveFile fs canonical else .notFound
  | some (_, .directory) =>
    if isRegularFile fs ("index.html" :: canonical) then serveFile fs ("index.html" :: canonical)
    else .listing canonical hash tail
  | _ => .notFound

def getServe (storage : Storage) (fs : ServedFiles) (cwd : Location) (hash tail : String) : ServeResponse :=
  if !isValidStoreHash hash then .notFound
  else
    match storage.getNarinfo hash with
    | .error () => .internalError
    | .ok none => .notFound
    | .ok (some ni) =>
      match canonicalize fs cwd "/nix/store", canonicalize fs cwd (joinPath ni.storePath tail) with
      | some store, some canonical =>
        if !store.isSuffixOf canonical || canonical = store then .notFound
        else serveTarget fs canonical hash tail
      | _, _ => .notFound

/-! ## What can be served -/

section
variable {fs : ServedFiles}

/-- A file that `serve_file` hands out. -/
def Servable (fs : ServedFiles) (loc : Location) : Prop :=
  ∃ contents, fs.entry loc = some (.file contents) ∧ contents.regular = true ∧ contents.readable = true ∧
    contents.data.length ≤ MAX_SERVE_FILE_SIZE

/-- The file that a resolved path stands for: itself, or the index of a directory. -/
inductive StandsFor (fs : ServedFiles) : Location → Location → Prop where
  | file {loc : Location} (h : Servable fs loc) : StandsFor fs loc loc
  | index {dir loc : Location} (hdir : fs.entry dir = some .directory)
      (hloc : fs.resolve MAX_LINKS [] (("index.html" :: dir).reverse.map .normal) = some loc) (h : Servable fs loc) : StandsFor fs dir loc

theorem StandsFor.real {loc source : Location} (h : StandsFor fs loc source) : fs.Real loc := by
  cases h with
  | file h => obtain ⟨contents, hentry, -⟩ := h; exact ⟨_, hentry, rfl⟩
  | index hdir _ _ => exact FileSystem.real_of_directory hdir

theorem metadata_real {loc : Location} {e : Entry FileContents} (hentry : fs.entry loc = some e) (hlink : e.isSymlink = false) :
    metadata fs loc = some (loc, e) := by
  unfold metadata
  rw [FileSystem.resolve_names ⟨e, hentry, hlink⟩, Option.bind_some, hentry]
  rfl

theorem metadata_eq {path loc : Location} {e : Entry FileContents} (h : metadata fs path = some (loc, e)) :
    fs.resolve MAX_LINKS [] (path.reverse.map .normal) = some loc ∧ fs.entry loc = some e := by
  obtain ⟨loc', hloc, h⟩ := Option.bind_eq_some_iff.mp h
  obtain ⟨e', he, h⟩ := Option.map_eq_some_iff.mp h
  cases h
  exact ⟨hloc, he⟩

theorem serveFile_file {path source : Location} {mime : String} {data : Bytes} (h : serveFile fs path = .file source mime data) :
    ∃ contents, metadata fs path = some (source, .file contents) ∧ contents.readable = true ∧
      contents.data.length ≤ MAX_SERVE_FILE_SIZE := by
  unfold serveFile at h
  split at h
  · rename_i source' contents hmeta
    split at h
    · cases h
    · rename_i hsize
      split at h
      · rename_i hreadable
        cases h
        exact ⟨contents, hmeta, hreadable, Nat.le_of_not_lt hsize⟩
      · cases h
  · cases h

theorem serveFile_servable {path loc : Location} (hloc : fs.resolve MAX_LINKS [] (path.reverse.map .normal) = some loc)
    (h : Servable fs loc) : ∃ mime data, serveFile fs path = .file loc mime data := by
  obtain ⟨contents, hentry, -, hreadable, hsize⟩ := h
  have hmeta : metadata fs path = some (loc, .file contents) := by
    unfold metadata
    rw [hloc, Option.bind_some, hentry]
    rfl
  unfold serveFile
  rw [hmeta]
  dsimp only
  rw [if_neg (Nat.not_lt.mpr hsize), if_pos hreadable]
  exact ⟨_, _, rfl⟩

theorem isRegularFile_servable {path loc : Location} (hloc : fs.resolve MAX_LINKS [] (path.reverse.map .normal) = some loc)
    (h : Servable fs loc) : isRegularFile fs path = true := by
  obtain ⟨contents, hentry, hregular, -⟩ := h
  have hmeta : metadata fs path = some (loc, .file contents) := by
    unfold metadata
    rw [hloc, Option.bind_some, hentry]
    rfl
  unfold isRegularFile
  rw [hmeta]
  exact hregular

/-- A resolved path is answered with the file it stands for. -/
theorem serveTarget_file_iff {canonical source : Location} {hash tail : String} (hreal : fs.Real canonical) :
    (∃ mime data, serveTarget fs canonical hash tail = .file source mime data) ↔ StandsFor fs canonical source := by
  constructor
  · rintro ⟨mime, data, h⟩
    unfold serveTarget at h
    split at h
    · rename_i loc contents hmeta
      split at h
      · rename_i hregular
        obtain ⟨hself, hentry⟩ := metadata_eq hmeta
        obtain ⟨contents', hmeta', hreadable, hsize⟩ := serveFile_file h
        obtain rfl : canonical = loc := Option.some.inj ((FileSystem.resolve_names hreal).symm.trans hself)
        rw [hmeta, Option.some.injEq, Prod.mk.injEq, Entry.file.injEq] at hmeta'
        obtain ⟨rfl, rfl⟩ := hmeta'
        exact .file ⟨contents, hentry, hregular, hreadable, hsize⟩
      · cases h
    · rename_i loc hmeta
      split at h
      · rename_i hindex
        obtain ⟨hself, hentry⟩ := metadata_eq hmeta
        obtain ⟨contents, hmeta', hreadable, hsize⟩ := serveFile_file h
        obtain rfl : canonical = loc := Option.some.inj ((FileSystem.resolve_names hreal).symm.trans hself)
        obtain ⟨hloc, hentry'⟩ := metadata_eq hmeta'
        unfold isRegularFile at hindex
        rw [hmeta'] at hindex
        exact .index hentry hloc ⟨contents, hentry', hindex, hreadable, hsize⟩
      · cases h
    · cases h
  · intro h
    unfold serveTarget
    cases h with
    | file h =>
      obtain ⟨contents, hentry, hregular, hrest⟩ := h
      rw [metadata_real hentry rfl]
      dsimp only
      rw [if_pos hregular]
      exact serveFile_servable (FileSystem.resolve_names hreal) ⟨contents, hentry, hregular, hrest⟩
    | index hdir hloc h =>
      rw [metadata_real hdir rfl]
      dsimp only
      rw [if_pos (isRegularFile_servable hloc h)]
      exact serveFile_servable hloc h

theorem canonicalize_real {cwd loc : Location} {path : String} (hcwd : fs.Real cwd) (h : canonicalize fs cwd path = some loc) :
    fs.Real loc := by
  unfold canonicalize at h
  split at h
  · cases h
  · refine FileSystem.resolve_real _ _ _ loc ?_ h
    split
    · exact FileSystem.real_root
    · exact hcwd

end

/-! ## What an answer holds -/

/-- The working directory of the server is a directory. -/
structure ServeState where
  storage : Storage
  fs : ServedFiles
  cwd : Location
  cwd_directory : fs.entry cwd = some .directory

section
variable (s : ServeState)

def ServeState.get (hash tail : String) : ServeResponse := getServe s.storage s.fs s.cwd hash tail

def ServeState.Inside (ni : NarInfo) (loc : Location) : Prop :=
  ∃ base, canonicalize s.fs s.cwd ni.storePath = some base ∧ base <:+ loc

/-- A file that is answered lies in the store path that the narinfo of the hash names. -/
def ServeState.Confined (hash tail : String) : Prop :=
  ∀ source mime data, s.get hash tail = .file source mime data →
    ∃ ni, s.storage.getNarinfo hash = .ok (some ni) ∧ s.Inside ni source

/-- The location passes the test of `get_serve`. -/
def ServeState.InStore (loc : Location) : Prop :=
  ∃ store, canonicalize s.fs s.cwd "/nix/store" = some store ∧ store <:+ loc ∧ loc ≠ store

variable {s}

theorem ServeState.get_file_iff {hash tail : String} {source : Location} :
    (∃ mime data, s.get hash tail = .file source mime data) ↔
      isValidStoreHash hash = true ∧ ∃ ni, s.storage.getNarinfo hash = .ok (some ni) ∧
        ∃ loc, canonicalize s.fs s.cwd (joinPath ni.storePath tail) = some loc ∧ s.InStore loc ∧ StandsFor s.fs loc source := by
  have hcwd : s.fs.Real s.cwd := FileSystem.real_of_directory s.cwd_directory
  unfold ServeState.get getServe
  constructor
  · rintro ⟨mime, data, h⟩
    split at h
    · cases h
    · rename_i hvalid
      split at h
      · cases h
      · cases h
      · rename_i ni hni
        split at h
        · rename_i store loc hstore hloc
          split at h
          · cases h
          · rename_i htest
            rw [Bool.or_eq_true, not_or, Bool.not_eq_true', Bool.not_eq_false, decide_eq_true_eq] at htest
            exact ⟨by simpa using hvalid, ni, hni, loc, hloc, ⟨store, hstore, List.isSuffixOf_iff_suffix.mp htest.1, htest.2⟩,
              (serveTarget_file_iff (canonicalize_real hcwd hloc)).mp ⟨mime, data, h⟩⟩
        · cases h
  · rintro ⟨hvalid, ni, hni, loc, hloc, ⟨store, hstore, hin, hne⟩, hstands⟩
    have htest : ¬ (!store.isSuffixOf loc || decide (loc = store)) = true := by
      rw [List.isSuffixOf_iff_suffix.mpr hin, decide_eq_false hne]
      decide
    rw [hvalid, hni]
    dsimp only
    rw [hstore, hloc]
    dsimp only
    rw [if_neg (by decide), if_neg htest]
    exact (serveTarget_file_iff (canonicalize_real hcwd hloc)).mpr hstands

/-- The absolute path of a location. -/
def absolutePath (loc : Location) : String := join '/' ("" :: loc.reverse)

theorem canonicalize_absolutePath {fs : ServedFiles} {cwd loc : Location} (hreal : fs.Real loc) (hne : loc ≠ []) :
    isAbsolutePath (absolutePath loc) = true ∧ canonicalize fs cwd (absolutePath loc) = some loc := by
  have hvalid := FileSystem.valid_of_real hreal
  have habsolute : ∃ rest, (absolutePath loc).toList = '/' :: rest := by
    obtain ⟨name, names, heq⟩ := List.exists_cons_of_ne_nil fun hnil => hne (List.reverse_eq_nil_iff.mp hnil)
    unfold absolutePath join
    rw [heq, String.toList_ofList]
    exact ⟨_, rfl⟩
  obtain ⟨rest, hrest⟩ := habsolute
  have hhead : isAbsolutePath (absolutePath loc) = true := by
    unfold isAbsolutePath
    rw [hrest]
    exact decide_eq_true rfl
  have hnul : ¬ (absolutePath loc = "" ∨ Char.ofNat 0 ∈ (absolutePath loc).toList) := by
    rintro (hempty | hmem)
    · rw [hempty] at hrest
      cases hrest
    · obtain ⟨name, hname, hmem⟩ := (mem_join (by decide) _).mp hmem
      rcases List.mem_cons.mp hname with rfl | hname
      · cases hmem
      · exact (hvalid name (List.mem_reverse.mp hname)).2.2 hmem
  have hsplit : split '/' (absolutePath loc) = "" :: loc.reverse := by
    refine split_join (by simp) fun name hname => ?_
    rcases List.mem_cons.mp hname with rfl | hname
    · exact List.not_mem_nil
    · exact (hvalid name (List.mem_reverse.mp hname)).2.1
  have hnames : loc.reverse.map Component.ofSegment = loc.reverse.map .normal :=
    List.map_congr_left fun name hname => (hvalid name (List.mem_reverse.mp hname)).1
  refine ⟨hhead, ?_⟩
  unfold canonicalize pathComponents
  rw [if_neg hnul, hhead, if_pos rfl, hsplit, List.map_cons, hnames]
  exact FileSystem.resolve_curDir_names hreal

theorem joinPath_absolute {base path : String} (h : isAbsolutePath path = true) : joinPath base path = path := by
  unfold joinPath
  rw [if_pos h]

/-- No file of the store lies outside the store path, whatever stands for it. -/
def ServeState.OnlyInside (s : ServeState) (ni : NarInfo) : Prop :=
  ∀ loc source, s.InStore loc → StandsFor s.fs loc source → s.Inside ni source

/-- Where the tail leads is no file, or one inside the store path. -/
def ServeState.LeadsInside (s : ServeState) (ni : NarInfo) (tail : String) : Prop :=
  ∀ loc source, canonicalize s.fs s.cwd (joinPath ni.storePath tail) = some loc → s.InStore loc →
    StandsFor s.fs loc source → s.Inside ni source

theorem ServeState.confined_iff {hash tail : String} : s.Confined hash tail ↔
    ∀ ni, isValidStoreHash hash = true → s.storage.getNarinfo hash = .ok (some ni) → s.LeadsInside ni tail := by
  constructor
  · intro hconfined ni hvalid hni loc source hloc hin hstands
    obtain ⟨mime, data, h⟩ := get_file_iff.mpr ⟨hvalid, ni, hni, loc, hloc, hin, hstands⟩
    obtain ⟨ni', hni', hinside⟩ := hconfined source mime data h
    rw [hni, Except.ok.injEq, Option.some.injEq] at hni'
    exact hni' ▸ hinside
  · intro hleads source mime data h
    obtain ⟨hvalid, ni, hni, loc, hloc, hin, hstands⟩ := get_file_iff.mp ⟨mime, data, h⟩
    exact ⟨ni, hni, hleads ni hvalid hni loc source hloc hin hstands⟩

theorem ServeState.inStore_ne_root {loc : Location} (h : s.InStore loc) : loc ≠ [] := by
  rintro rfl
  obtain ⟨store, -, hin, hne⟩ := h
  exact hne (List.suffix_nil.mp hin).symm

/-- An absolute tail leads anywhere in the store. -/
theorem ServeState.leadsInside_all {ni : NarInfo} : (∀ tail, s.LeadsInside ni tail) ↔ s.OnlyInside ni := by
  constructor
  · intro hleads loc source hin hstands
    obtain ⟨habsolute, hloc⟩ := canonicalize_absolutePath hstands.real (inStore_ne_root hin)
    refine hleads (absolutePath loc) loc source ?_ hin hstands
    rw [joinPath_absolute habsolute]
    exact hloc
  · intro honly tail loc source _ hin hstands
    exact honly loc source hin hstands

/-- An answer stays in the store path exactly when the tail leads to no file of the
store outside of it; for every tail of a hash, exactly when the store has none. -/
theorem serve_confined_iff (s : ServeState) (hash : String) :
    (∀ tail, s.Confined hash tail ↔
      ∀ ni, isValidStoreHash hash = true → s.storage.getNarinfo hash = .ok (some ni) → s.LeadsInside ni tail) ∧
    ((∀ tail, s.Confined hash tail) ↔
      ∀ ni, isValidStoreHash hash = true → s.storage.getNarinfo hash = .ok (some ni) → s.OnlyInside ni) := by
  refine ⟨fun tail => ServeState.confined_iff, ?_⟩
  constructor
  · intro hconfined ni hvalid hni
    exact ServeState.leadsInside_all.mp fun tail => ServeState.confined_iff.mp (hconfined tail) ni hvalid hni
  · intro honly tail
    exact ServeState.confined_iff.mpr fun ni hvalid hni => ServeState.leadsInside_all.mpr (honly ni hvalid hni) tail

end

/-! ## A file of another store path -/

def requestedName : String := "00000000000000000000000000000000-site"

def otherName : String := "11111111111111111111111111111111-key"

def neighbourEntry (loc : Location) : Option (Entry FileContents) :=
  if loc ∈ [[], ["nix"], ["store", "nix"], [requestedName, "store", "nix"]] then some .directory
  else if loc = [otherName, "store", "nix"] then some (.file ⟨true, true, [1]⟩)
  else none

theorem neighbourEntry_isSome {loc : Location} (h : (neighbourEntry loc).isSome = true) :
    loc ∈ [[], ["nix"], ["store", "nix"], [requestedName, "store", "nix"], [otherName, "store", "nix"]] := by
  unfold neighbourEntry at h
  split at h
  · rename_i hmem
    exact List.mem_append_left [_] hmem
  · split at h
    · rename_i heq
      rw [heq]
      simp
    · cases h

theorem neighbourName {name : String} {loc : Location} (h : (neighbourEntry (name :: loc)).isSome = true) :
    neighbourEntry loc = some .directory ∧ name ∈ ["nix", "store", requestedName, otherName] := by
  have hmem := neighbourEntry_isSome h
  simp only [List.mem_cons, List.cons.injEq, List.not_mem_nil, or_false, reduceCtorEq, false_or] at hmem
  rcases hmem with ⟨rfl, rfl⟩ | ⟨rfl, rfl⟩ | ⟨rfl, rfl⟩ | ⟨rfl, rfl⟩ <;> exact ⟨rfl, by simp⟩

/-- Two store paths, each with one entry. -/
def neighbours : ServedFiles where
  entry := neighbourEntry
  root := rfl
  parent _ _ h := (neighbourName h).1
  valid name loc h := by
    have hvalid : ∀ name ∈ ["nix", "store", requestedName, otherName], ValidName name := by
      unfold ValidName
      decide
    exact hvalid name (neighbourName h).2

def siteInfo : NarInfo where
  storePath := "/nix/store/" ++ requestedName
  url := "nar/00000000000000000000000000000000.nar"
  compression := "none"
  fileHash := "sha256:00"
  fileSize := 1
  narHash := "sha256:00"
  narSize := 1
  references := []
  deriver := none
  signatures := []
  ca := none

def siteHash : String := "00000000000000000000000000000000"

def siteStorage : Storage where
  getNarinfo hash := .ok (if hash = siteHash then some siteInfo else none)
  hasNarinfo hash := .ok (hash = siteHash)
  writeNarTo _ := ⟨[], .ok false⟩

def siteServer : ServeState where
  storage := siteStorage
  fs := neighbours
  cwd := []
  cwd_directory := rfl

theorem canonicalize_neighbour {loc : Location} {path : String} (hentry : neighbours.entry loc = some .directory) (hne : loc ≠ [])
    (hpath : absolutePath loc = path) : canonicalize neighbours [] path = some loc :=
  hpath ▸ (canonicalize_absolutePath (FileSystem.real_of_directory hentry) hne).2

theorem dotdot_leads_out : canonicalize neighbours [] (joinPath siteInfo.storePath ("../" ++ otherName)) =
    some [otherName, "store", "nix"] := by
  have hjoin : joinPath siteInfo.storePath ("../" ++ otherName) = join '/' ["", "nix", "store", requestedName, "..", otherName] := by
    decide
  have hsplit : split '/' (join '/' ["", "nix", "store", requestedName, "..", otherName]) =
      ["", "nix", "store", requestedName, "..", otherName] := split_join (by simp) (by decide)
  have hplain : ¬ (join '/' ["", "nix", "store", requestedName, "..", otherName] = "" ∨
      Char.ofNat 0 ∈ (join '/' ["", "nix", "store", requestedName, "..", otherName]).toList) := by
    decide
  unfold canonicalize pathComponents
  rw [hjoin, if_neg hplain, hsplit]
  rfl

/-- One dot-dot leads from the requested path into the other one. -/
theorem other_path_served : ¬ ∀ (s : ServeState) (hash tail : String), s.Confined hash tail := by
  intro hconfined
  have hleads := ServeState.confined_iff.mp (hconfined siteServer siteHash ("../" ++ otherName)) siteInfo (by decide) rfl
  have hstore : canonicalize neighbours [] "/nix/store" = some ["store", "nix"] := canonicalize_neighbour rfl (by simp) (by decide)
  have hbase : canonicalize neighbours [] siteInfo.storePath = some [requestedName, "store", "nix"] :=
    canonicalize_neighbour rfl (by simp) (by decide)
  have hin : siteServer.InStore [otherName, "store", "nix"] := ⟨_, hstore, List.suffix_cons .., by simp⟩
  have hserved : StandsFor neighbours [otherName, "store", "nix"] [otherName, "store", "nix"] :=
    .file ⟨_, rfl, rfl, rfl, by decide⟩
  obtain ⟨base, hbase', hinside⟩ := hleads _ _ dotdot_leads_out hin hserved
  obtain rfl := Option.some.inj (hbase.symm.trans hbase')
  revert hinside
  decide

end Ekapkgs
