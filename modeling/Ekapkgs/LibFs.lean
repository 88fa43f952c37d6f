import Ekapkgs.LibDir
import Ekapkgs.Serve

/-!
# The library filesystem

The calls of `LibFs` in `fuse.rs` on the files for the sonames, over a disk where
files appear with downloads and stay as they are. The kernel keeps an attribute for
`TTL` seconds; a run is a list of calls with the seconds before each.
-/

namespace Ekapkgs
open Keyed

def TTL : Nat := 300

def ENOENT : Nat := 2
def EIO : Nat := 5
def EBADF : Nat := 9

structure FileAttr where
  ino : Nat
  size : Nat
  blocks : Nat
  kind : FileType
  perm : Nat
  nlink : Nat
  deriving DecidableEq

/-- `ino` is what it was opened for. -/
structure OpenFile where
  ino : Nat
  data : Bytes

structure LibFs where
  index : SonameIndex
  disk : String → Option Bytes
  resolved : Table Nat String
  openFiles : Table Nat OpenFile
  nextFh : Nat

/-- What a download of a package leaves on the disk, and whether it succeeds. -/
structure Download where
  added : String → Option Bytes
  succeeded : Bool

def Download.onto (download : Download) (disk : String → Option Bytes) (path : String) : Option Bytes :=
  (disk path).or (download.added path)

inductive FsReply where
  | error (errno : Nat)
  /-- Of `lookup` and `getattr`, together with `TTL`. -/
  | attr (attr : FileAttr)
  /-- `data` is what the file behind the handle holds. -/
  | opened (ino fh : Nat) (data : Bytes)
  | data (ino offset size : Nat) (bytes : Bytes)
  | ok

def SonameEntry.realPath (entry : SonameEntry) : String := joinPath entry.storePath entry.filePath

namespace LibFs
variable (fs : LibFs)

def rootAttr : FileAttr := ⟨ROOT_INO, 0, 0, .directory, 0o555, 2 + fs.index.inoToSoname.rows.length⟩

def placeholderAttr (ino : Nat) : FileAttr := ⟨ino, 0, 0, .regularFile, 0o444, 1⟩

def realAttr (ino : Nat) (path : String) : FileAttr :=
  match fs.disk path with
  | some data => ⟨ino, data.length, (data.length + 511) / 512, .regularFile, 0o444, 1⟩
  | none => placeholderAttr ino

def attrForIno (ino : Nat) : FileAttr :=
  if ino = ROOT_INO then fs.rootAttr
  else
    match fs.resolved.get? ino with
    | some path => fs.realAttr ino path
    | none => placeholderAttr ino

/-- A name that is no UTF-8 is none. -/
def lookup (parent : Nat) (name : Option String) : FsReply :=
  if parent ≠ ROOT_INO then .error ENOENT
  else
    match name.bind fs.index.sonameToIno.get? with
    | some ino => .attr (fs.attrForIno ino)
    | none => .error ENOENT

def getattr (ino : Nat) : FsReply :=
  if ino = ROOT_INO ∨ fs.index.inoToSoname.contains ino then .attr (fs.attrForIno ino) else .error ENOENT

def ensureAvailable (entry : SonameEntry) (download : Download) : Except Nat String × LibFs :=
  if (fs.disk entry.realPath).isSome then (.ok entry.realPath, fs)
  else
    let fs := { fs with disk := download.onto fs.disk }
    if download.succeeded then
      if (fs.disk entry.realPath).isSome then (.ok entry.realPath, fs) else (.error ENOENT, fs)
    else (.error EIO, fs)

/-- `open`; `fails` is for the call on the real file. -/
def openFile (ino : Nat) (download : Download) (fails : Bool) : FsReply × LibFs :=
  match fs.index.inoToSoname.get? ino with
  | none => (.error ENOENT, fs)
  | some soname =>
    match fs.index.lookup soname with
    | none => (.error ENOENT, fs)
    | some entry =>
      match fs.ensureAvailable entry download with
      | (.error errno, fs) => (.error errno, fs)
      | (.ok path, fs) =>
        match if fails then none else fs.disk path with
        | none => (.error EIO, fs)
        | some data =>
          (.opened ino fs.nextFh data, { fs with
            openFiles := fs.openFiles.insertOrReplace fs.nextFh ⟨ino, data⟩
            resolved := fs.resolved.insertOrReplace ino path
            nextFh := fs.nextFh + 1 })

/-- `read`: up to the end of the file. -/
def readFile (fh offset size : Nat) (fails : Bool) : FsReply :=
  match fs.openFiles.get? fh with
  | none => .error EBADF
  | some file => if fails then .error EIO else .data file.ino offset size ((file.data.drop offset).take size)

def release (fh : Nat) : LibFs := { fs with openFiles := fs.openFiles.delete fh }

end LibFs

/-! ## Runs -/

inductive FsCall where
  | lookup (parent : Nat) (name : Option String)
  | getattr (ino : Nat)
  | openFile (ino : Nat) (download : Download) (fails : Bool)
  | readFile (fh offset size : Nat) (fails : Bool)
  | release (fh : Nat)

def LibFs.handle (fs : LibFs) : FsCall → FsReply × LibFs
  | .lookup parent name => (fs.lookup parent name, fs)
  | .getattr ino => (fs.getattr ino, fs)
  | .openFile ino download fails => fs.openFile ino download fails
  | .readFile fh offset size fails => (fs.readFile fh offset size fails, fs)
  | .release fh => (.ok, fs.release fh)

/-- A mounted filesystem with the time and with its replies so far. -/
structure Mounted where
  fs : LibFs
  now : Nat
  history : List (Nat × FsReply)

/-- `cmd_mount`. -/
def mount (index : SonameIndex) (disk : String → Option Bytes) : Mounted := ⟨⟨index, disk, .empty, .empty, 1⟩, 0, []⟩

/-- A call after so many seconds. -/
def Mounted.step (m : Mounted) (timed : Nat × FsCall) : Mounted where
  fs := (m.fs.handle timed.2).2
  now := m.now + timed.1
  history := m.history ++ [(m.now + timed.1, (m.fs.handle timed.2).1)]

def Mounted.run (m : Mounted) (calls : List (Nat × FsCall)) : Mounted := calls.foldl Mounted.step m

/-! ## Coherence -/

/-- A reply that delivers data delivers what the attribute says. -/
def FileAttr.Fits (attr : FileAttr) : FsReply → Prop
  | .opened ino _ data => ino = attr.ino → data.length = attr.size
  | .data ino offset size bytes => ino = attr.ino → bytes.length = min size (attr.size - offset)
  | _ => True

def Agree (earlier later : Nat × FsReply) : Prop :=
  match earlier.2 with
  | .attr attr => later.1 < earlier.1 + TTL → attr.Fits later.2
  | _ => True

/-- Within the lifetime of an attribute nothing else is delivered. -/
def Coherent (history : List (Nat × FsReply)) : Prop := history.Pairwise Agree

def LibFs.entryFor (fs : LibFs) (ino : Nat) : Option SonameEntry := (fs.index.inoToSoname.get? ino).bind fs.index.lookup

/-- The file that an open finds on the disk or with its download. -/
def LibFs.found (fs : LibFs) (ino : Nat) (download : Download) (fails : Bool) : Option Bytes :=
  if fails then none
  else (fs.entryFor ino).bind fun entry =>
    (fs.disk entry.realPath).or (if download.succeeded then download.added entry.realPath else none)

/-- The first open of an inode finds an empty file, or comes after the lifetimes of
all attributes replied for the inode. -/
def FirstOpenLate (m : Mounted) : Nat × FsCall → Prop
  | (wait, .openFile ino download fails) =>
    m.fs.resolved.get? ino = none → ∀ data, m.fs.found ino download fails = some data →
      data = [] ∨ ∀ t attr, (t, .attr attr) ∈ m.history → attr.ino = ino → t + TTL ≤ m.now + wait
  | _ => True

/-! ## One call -/

variable {fs : LibFs} {m : Mounted}

/-- Files stay as they are. -/
def DiskGrown (disk disk' : String → Option Bytes) : Prop := ∀ path data, disk path = some data → disk' path = some data

theorem ensureAvailable_cases (fs : LibFs) (entry : SonameEntry) (download : Download) : ∃ result disk',
    fs.ensureAvailable entry download = (result, { fs with disk := disk' }) ∧ DiskGrown fs.disk disk' ∧
      match (fs.disk entry.realPath).or (if download.succeeded then download.added entry.realPath else none) with
      | some data => result = .ok entry.realPath ∧ disk' entry.realPath = some data
      | none => ∃ errno, result = .error errno := by
  unfold LibFs.ensureAvailable
  cases hdisk : fs.disk entry.realPath with
  | some data => exact ⟨_, fs.disk, rfl, fun _ _ h => h, rfl, hdisk⟩
  | none =>
    have hgrown : DiskGrown fs.disk (download.onto fs.disk) := fun path data h => by rw [Download.onto, h, Option.some_or]
    have hpath : download.onto fs.disk entry.realPath = download.added entry.realPath := by rw [Download.onto, hdisk, Option.none_or]
    dsimp only
    rw [if_neg (by decide), Option.none_or]
    cases hsucceeded : download.succeeded with
    | false => exact ⟨_, _, rfl, hgrown, EIO, rfl⟩
    | true =>
      rw [if_pos rfl, if_pos rfl]
      cases hadded : download.added entry.realPath with
      | some data =>
        rw [hadded] at hpath
        exact ⟨_, _, if_pos (by rw [hpath]; rfl), hgrown, rfl, hpath⟩
      | none =>
        rw [hadded] at hpath
        exact ⟨_, _, if_neg (by rw [hpath]; decide), hgrown, ENOENT, rfl⟩

/-- An open that finds a file resolves the inode to it; another one changes nothing
but the disk. -/
theorem openFile_cases (fs : LibFs) (ino : Nat) (download : Download) (fails : Bool) :
    (∃ data entry disk', fs.found ino download fails = some data ∧ fs.entryFor ino = some entry ∧ DiskGrown fs.disk disk' ∧
      disk' entry.realPath = some data ∧ fs.openFile ino download fails = (.opened ino fs.nextFh data,
        { fs with disk := disk', openFiles := fs.openFiles.insertOrReplace fs.nextFh ⟨ino, data⟩,
                  resolved := fs.resolved.insertOrReplace ino entry.realPath, nextFh := fs.nextFh + 1 })) ∨
    (fs.found ino download fails = none ∧ ∃ errno disk', DiskGrown fs.disk disk' ∧
      fs.openFile ino download fails = (.error errno, { fs with disk := disk' })) := by
  have hsame : DiskGrown fs.disk fs.disk := fun _ _ h => h
  have hnone : ∀ {found : Option Bytes}, found = none → (if fails then none else found) = none := by
    rintro _ rfl
    exact ite_self _
  unfold LibFs.openFile LibFs.found LibFs.entryFor
  cases hino : fs.index.inoToSoname.get? ino with
  | none => exact .inr ⟨hnone rfl, ENOENT, fs.disk, hsame, rfl⟩
  | some soname =>
    rw [Option.bind_some]
    dsimp only
    cases hlookup : fs.index.lookup soname with
    | none => exact .inr ⟨hnone rfl, ENOENT, fs.disk, hsame, rfl⟩
    | some entry =>
      rw [Option.bind_some]
      obtain ⟨result, disk', heq, hgrown, hresult⟩ := ensureAvailable_cases fs entry download
      dsimp only
      rw [heq]
      cases hfound : (fs.disk entry.realPath).or (if download.succeeded then download.added entry.realPath else none) with
      | none =>
        rw [hfound] at hresult
        obtain ⟨errno, rfl⟩ := hresult
        exact .inr ⟨hnone rfl, errno, disk', hgrown, rfl⟩
      | some data =>
        rw [hfound] at hresult
        obtain ⟨rfl, hdata⟩ := hresult
        cases fails with
        | true => exact .inr ⟨rfl, EIO, disk', hgrown, rfl⟩
        | false =>
          refine .inl ⟨data, entry, disk', rfl, rfl, hgrown, hdata, ?_⟩
          dsimp only
          rw [if_neg (by decide), hdata]

/-- What a call can reply and do. -/
inductive CallOutcome (fs : LibFs) : FsCall → FsReply → LibFs → Prop
  | failed (call : FsCall) (errno : Nat) {disk' : String → Option Bytes} (hdisk : DiskGrown fs.disk disk') :
    CallOutcome fs call (.error errno) { fs with disk := disk' }
  | attr (call : FsCall) (ino : Nat) : CallOutcome fs call (.attr (fs.attrForIno ino)) fs
  | opened {ino : Nat} {download : Download} {fails : Bool} {data : Bytes} {entry : SonameEntry} {disk' : String → Option Bytes}
    (hfound : fs.found ino download fails = some data) (hentry : fs.entryFor ino = some entry) (hdisk : DiskGrown fs.disk disk')
    (hdata : disk' entry.realPath = some data) : CallOutcome fs (.openFile ino download fails) (.opened ino fs.nextFh data)
      { fs with disk := disk', openFiles := fs.openFiles.insertOrReplace fs.nextFh ⟨ino, data⟩,
                resolved := fs.resolved.insertOrReplace ino entry.realPath, nextFh := fs.nextFh + 1 }
  | data (call : FsCall) {fh : Nat} {file : OpenFile} (offset size : Nat) (hfile : fs.openFiles.get? fh = some file) :
    CallOutcome fs call (.data file.ino offset size ((file.data.drop offset).take size)) fs
  | released (call : FsCall) (fh : Nat) : CallOutcome fs call .ok (fs.release fh)

theorem handle_outcome (fs : LibFs) (call : FsCall) : CallOutcome fs call (fs.handle call).1 (fs.handle call).2 := by
  have herror : ∀ errno, CallOutcome fs call (.error errno) fs := fun errno => .failed call errno (fun _ _ h => h)
  cases call with
  | lookup parent name =>
    show CallOutcome fs _ (fs.lookup parent name) fs
    unfold LibFs.lookup
    split
    · exact herror ENOENT
    · cases name.bind fs.index.sonameToIno.get? with
      | none => exact herror ENOENT
      | some ino => exact .attr _ ino
  | getattr ino =>
    show CallOutcome fs _ (fs.getattr ino) fs
    unfold LibFs.getattr
    split
    · exact .attr _ ino
    · exact herror ENOENT
  | openFile ino download fails =>
    show CallOutcome fs _ (fs.openFile ino download fails).1 (fs.openFile ino download fails).2
    rcases openFile_cases fs ino download fails with ⟨data, entry, disk', hfound, hentry, hgrown, hdata, heq⟩ | ⟨-, errno, disk', hgrown, heq⟩
    · rw [heq]
      exact .opened hfound hentry hgrown hdata
    · rw [heq]
      exact .failed _ errno hgrown
  | readFile fh offset size fails =>
    show CallOutcome fs _ (fs.readFile fh offset size fails) fs
    unfold LibFs.readFile
    cases hfile : fs.openFiles.get? fh with
    | none => exact herror EBADF
    | some file =>
      cases fails with
      | true => exact herror EIO
      | false => exact .data _ offset size hfile
  | release fh => exact .released _ fh

/-! ## What a run keeps -/

/-- An inode is resolved to its entry's file, an open file belongs to a resolved
inode, and before that its attributes are placeholders. -/
structure Mounted.Sound (m : Mounted) : Prop where
  root : m.fs.entryFor ROOT_INO = none
  resolved : ∀ ino path, m.fs.resolved.get? ino = some path →
    ∃ entry data, m.fs.entryFor ino = some entry ∧ path = entry.realPath ∧ m.fs.disk path = some data
  handles : ∀ fh file, m.fs.openFiles.get? fh = some file →
    ∃ path, m.fs.resolved.get? file.ino = some path ∧ m.fs.disk path = some file.data
  placeholders : ∀ t attr, (t, .attr attr) ∈ m.history → m.fs.resolved.get? attr.ino = none → attr.size = 0

/-- An attribute of a resolved inode has the size of its file, or is out of date. -/
def Mounted.Fresh (m : Mounted) : Prop :=
  ∀ t attr path data, (t, .attr attr) ∈ m.history → m.fs.resolved.get? attr.ino = some path → m.fs.disk path = some data →
    attr.size = data.length ∨ t + TTL ≤ m.now

theorem attrForIno_ino (ino : Nat) : (fs.attrForIno ino).ino = ino := by
  unfold LibFs.attrForIno LibFs.rootAttr LibFs.realAttr LibFs.placeholderAttr
  split_ifs with hroot
  · exact hroot.symm
  · split
    · split <;> rfl
    · rfl

theorem attrForIno_unresolved {ino : Nat} (h : fs.resolved.get? ino = none) : (fs.attrForIno ino).size = 0 := by
  unfold LibFs.attrForIno
  rw [h]
  split_ifs <;> rfl

theorem attrForIno_resolved {ino : Nat} {path : String} {data : Bytes} (hne : ino ≠ ROOT_INO) (h : fs.resolved.get? ino = some path)
    (hdata : fs.disk path = some data) : (fs.attrForIno ino).size = data.length := by
  unfold LibFs.attrForIno LibFs.realAttr
  rw [if_neg hne, h]
  dsimp only
  rw [hdata]

theorem Mounted.Sound.resolved_ne_root (h : m.Sound) {ino : Nat} {path : String} (hget : m.fs.resolved.get? ino = some path) :
    ino ≠ ROOT_INO := by
  rintro rfl
  obtain ⟨entry, -, hentry, -⟩ := h.resolved _ _ hget
  rw [h.root] at hentry
  cases hentry

/-- What a history has after another reply. -/
theorem mem_history {history : List (Nat × FsReply)} {now t : Nat} {reply : FsReply} {attr : FileAttr}
    (hmem : (t, .attr attr) ∈ history ++ [(now, reply)]) : (t, .attr attr) ∈ history ∨ t = now ∧ reply = .attr attr := by
  rcases List.mem_append.mp hmem with hmem | hmem
  · exact .inl hmem
  · cases List.mem_singleton.mp hmem
    exact .inr ⟨rfl, rfl⟩

theorem sound_step (h : m.Sound) (timed : Nat × FsCall) : (m.step timed).Sound := by
  obtain ⟨wait, call⟩ := timed
  have houtcome := handle_outcome m.fs call
  unfold Mounted.step
  dsimp only
  generalize (m.fs.handle call).1 = reply at houtcome ⊢
  generalize (m.fs.handle call).2 = fs' at houtcome ⊢
  cases houtcome with
  | failed _ errno hdisk =>
    refine ⟨h.root, fun ino path hget => ?_, fun fh file hget => ?_, fun t attr hmem hnone => ?_⟩
    · obtain ⟨entry, data, hentry, hpath, hdata⟩ := h.resolved ino path hget
      exact ⟨entry, data, hentry, hpath, hdisk _ _ hdata⟩
    · obtain ⟨path, hpath, hdata⟩ := h.handles fh file hget
      exact ⟨path, hpath, hdisk _ _ hdata⟩
    · rcases mem_history hmem with hmem | ⟨-, heq⟩
      · exact h.placeholders t attr hmem hnone
      · cases heq
  | attr _ ino =>
    refine ⟨h.root, h.resolved, h.handles, fun t attr hmem hnone => ?_⟩
    rcases mem_history hmem with hmem | ⟨-, heq⟩
    · exact h.placeholders t attr hmem hnone
    · cases heq
      rw [attrForIno_ino] at hnone
      exact attrForIno_unresolved hnone
  | @opened ino download fails data entry disk' hfound hentry hdisk hdata =>
    refine ⟨h.root, fun ino' path hget => ?_, fun fh file hget => ?_, fun t attr hmem hnone => ?_⟩
    · dsimp only at hget ⊢
      rw [Table.get?_insertOrReplace] at hget
      split at hget
      next heq =>
        cases hget
        exact ⟨entry, data, heq ▸ hentry, rfl, hdata⟩
      next =>
        obtain ⟨entry', data', hentry', hpath, hdata'⟩ := h.resolved ino' path hget
        exact ⟨entry', data', hentry', hpath, hdisk _ _ hdata'⟩
    · dsimp only at hget ⊢
      rw [Table.get?_insertOrReplace] at hget
      rw [Table.get?_insertOrReplace]
      split at hget
      next =>
        cases hget
        exact ⟨entry.realPath, if_pos rfl, hdata⟩
      next =>
        obtain ⟨path, hpath, hdata'⟩ := h.handles fh file hget
        by_cases heq : file.ino = ino
        · -- resolved to the same file again
          obtain ⟨entry', data', hentry', rfl, -⟩ := h.resolved _ _ hpath
          rw [heq, hentry] at hentry'
          cases hentry'
          exact ⟨entry.realPath, if_pos heq, hdisk _ _ hdata'⟩
        · exact ⟨path, by rw [if_neg heq, hpath], hdisk _ _ hdata'⟩
    · rcases mem_history hmem with hmem | ⟨-, heq⟩
      · refine h.placeholders t attr hmem ?_
        rw [Table.get?_insertOrReplace] at hnone
        split at hnone
        next => cases hnone
        next => exact hnone
      · cases heq
  | data _ offset size hfile =>
    refine ⟨h.root, h.resolved, h.handles, fun t attr hmem hnone => ?_⟩
    rcases mem_history hmem with hmem | ⟨-, heq⟩
    · exact h.placeholders t attr hmem hnone
    · cases heq
  | released _ fh =>
    refine ⟨h.root, h.resolved, fun fh' file hget => ?_, fun t attr hmem hnone => ?_⟩
    · have hget' : (m.fs.openFiles.delete fh).get? fh' = some file := hget
      rw [Table.get?_delete] at hget'
      split at hget'
      next => cases hget'
      next => exact h.handles fh' file hget'
    · rcases mem_history hmem with hmem | ⟨-, heq⟩
      · exact h.placeholders t attr hmem hnone
      · cases heq

/-- The attributes that an open finds are right or out of date. -/
theorem opened_size (h : m.Sound) (hfresh : m.Fresh) {wait ino : Nat} {download : Download} {fails : Bool} {data : Bytes}
    {entry : SonameEntry} {disk' : String → Option Bytes} (hlate : FirstOpenLate m (wait, .openFile ino download fails))
    (hfound : m.fs.found ino download fails = some data) (hentry : m.fs.entryFor ino = some entry) (hdisk : DiskGrown m.fs.disk disk')
    (hdata : disk' entry.realPath = some data) {t : Nat} {attr : FileAttr} (hmem : (t, .attr attr) ∈ m.history) (hino : attr.ino = ino) :
    attr.size = data.length ∨ t + TTL ≤ m.now + wait := by
  cases hget : m.fs.resolved.get? ino with
  | some path =>
    obtain ⟨entry', data', hentry', rfl, hdata'⟩ := h.resolved ino path hget
    obtain rfl : entry = entry' := Option.some.inj (hentry.symm.trans hentry')
    obtain rfl : data' = data := Option.some.inj ((hdisk _ _ hdata').symm.trans hdata)
    rcases hfresh t attr _ _ hmem (hino ▸ hget) hdata' with hsize | hle
    · exact .inl hsize
    · exact .inr (by omega)
  | none =>
    rcases hlate hget data hfound with rfl | hexpired
    · exact .inl (h.placeholders t attr hmem (hino ▸ hget))
    · exact .inr (hexpired t attr hmem hino)

theorem fresh_step (h : m.Sound) (hfresh : m.Fresh) {timed : Nat × FsCall} (hlate : FirstOpenLate m timed) : (m.step timed).Fresh := by
  obtain ⟨wait, call⟩ := timed
  have houtcome := handle_outcome m.fs call
  unfold Mounted.step
  dsimp only
  generalize (m.fs.handle call).1 = reply at houtcome ⊢
  generalize (m.fs.handle call).2 = fs' at houtcome ⊢
  have hold : ∀ {disk' : String → Option Bytes} {t : Nat} {attr : FileAttr} {path : String} {data : Bytes}, DiskGrown m.fs.disk disk' →
      (t, .attr attr) ∈ m.history → m.fs.resolved.get? attr.ino = some path → disk' path = some data →
        attr.size = data.length ∨ t + TTL ≤ m.now + wait := by
    intro disk' t attr path data hdisk hmem hget hdata
    obtain ⟨-, data', -, -, hdata'⟩ := h.resolved _ _ hget
    obtain rfl : data' = data := Option.some.inj ((hdisk _ _ hdata').symm.trans hdata)
    exact (hfresh t attr path data' hmem hget hdata').imp id fun hle => by omega
  have hsame : DiskGrown m.fs.disk m.fs.disk := fun _ _ h => h
  intro t attr path data hmem hget hdata
  cases houtcome with
  | failed _ errno hdisk =>
    rcases mem_history hmem with hmem | ⟨-, heq⟩
    · exact hold hdisk hmem hget hdata
    · cases heq
  | attr _ ino =>
    rcases mem_history hmem with hmem | ⟨-, heq⟩
    · exact hold hsame hmem hget hdata
    · cases heq
      rw [attrForIno_ino] at hget
      exact .inl (attrForIno_resolved (h.resolved_ne_root hget) hget hdata)
  | opened hfound hentry hdisk hdata' =>
    rcases mem_history hmem with hmem | ⟨-, heq⟩
    · dsimp only at hget hdata
      rw [Table.get?_insertOrReplace] at hget
      split at hget
      next hino =>
        cases hget
        obtain rfl := Option.some.inj (hdata'.symm.trans hdata)
        exact opened_size h hfresh hlate hfound hentry hdisk hdata' hmem hino
      next => exact hold hdisk hmem hget hdata
    · cases heq
  | data _ offset size hfile =>
    rcases mem_history hmem with hmem | ⟨-, heq⟩
    · exact hold hsame hmem hget hdata
    · cases heq
  | released _ fh =>
    rcases mem_history hmem with hmem | ⟨-, heq⟩
    · exact hold hsame hmem hget hdata
    · cases heq

theorem coherent_append {history : List (Nat × FsReply)} {now : Nat} {reply : FsReply} :
    Coherent (history ++ [(now, reply)]) ↔ Coherent history ∧
      ∀ t attr, (t, .attr attr) ∈ history → now < t + TTL → attr.Fits reply := by
  unfold Coherent
  rw [List.pairwise_append]
  refine and_congr_right fun _ => ⟨fun ⟨_, hagree⟩ t attr hmem hlt => ?_, fun hfits => ⟨List.pairwise_singleton _ _, ?_⟩⟩
  · exact hagree _ hmem _ (List.mem_singleton_self _) hlt
  · rintro ⟨t, earlier⟩ hmem later hlater
    cases List.mem_singleton.mp hlater
    cases earlier with
    | attr attr => exact hfits t attr hmem
    | _ => trivial

theorem coherent_step (h : m.Sound) (hfresh : m.Fresh) (hcoherent : Coherent m.history) {timed : Nat × FsCall}
    (hlate : FirstOpenLate m timed) : Coherent (m.step timed).history := by
  obtain ⟨wait, call⟩ := timed
  have houtcome := handle_outcome m.fs call
  refine coherent_append.mpr ⟨hcoherent, fun t attr hmem hlt => ?_⟩
  generalize (m.fs.handle call).1 = reply at houtcome ⊢
  generalize (m.fs.handle call).2 = fs' at houtcome
  cases houtcome with
  | failed => trivial
  | attr => trivial
  | released => trivial
  | opened hfound hentry hdisk hdata =>
    intro hino
    rcases opened_size h hfresh hlate hfound hentry hdisk hdata hmem hino.symm with hsize | hle
    · exact hsize.symm
    · omega
  | data _ offset size hfile =>
    intro hino
    obtain ⟨path, hget, hdata⟩ := h.handles _ _ hfile
    rcases hfresh t attr path _ hmem (hino ▸ hget) hdata with hsize | hle
    · rw [hsize, List.length_take, List.length_drop]
    · omega

/-- A coherent history has no attribute alive that a first open contradicts. -/
theorem firstOpenLate_of_coherent (h : m.Sound) {timed : Nat × FsCall} (hcoherent : Coherent (m.step timed).history) :
    FirstOpenLate m timed := by
  obtain ⟨wait, call⟩ := timed
  cases call with
  | openFile ino download fails =>
    intro hget data hfound
    obtain ⟨-, hfits⟩ := coherent_append.mp hcoherent
    rcases openFile_cases m.fs ino download fails with ⟨data', entry, disk', hfound', -, -, -, heq⟩ | ⟨hnone, -⟩
    · obtain rfl : data = data' := Option.some.inj (hfound.symm.trans hfound')
      by_cases hempty : data = []
      · exact .inl hempty
      refine .inr fun t attr hmem hino => Nat.le_of_not_lt fun hlt => hempty (List.eq_nil_of_length_eq_zero ?_)
      have hreply : attr.Fits (m.fs.openFile ino download fails).1 := hfits t attr hmem hlt
      rw [heq] at hreply
      rw [hreply hino.symm]
      exact h.placeholders t attr hmem (hino ▸ hget)
    · rw [hnone] at hfound
      cases hfound
  | _ => trivial

/-! ## Runs from the mount on -/

theorem run_append (m : Mounted) (calls : List (Nat × FsCall)) (timed : Nat × FsCall) :
    m.run (calls ++ [timed]) = (m.run calls).step timed := by
  unfold Mounted.run
  rw [List.foldl_append]
  rfl

theorem entryFor_root (raw : List SonameEntry) (disk : String → Option Bytes) :
    (mount (.fromEntries raw) disk).fs.entryFor ROOT_INO = none := by
  have hnone : (SonameIndex.fromEntries raw).inoToSoname.get? ROOT_INO = none := by
    rw [Option.eq_none_iff_forall_ne_some]
    intro soname hget
    obtain ⟨i, -, heq⟩ := inoToSoname_iff.mp hget
    exact absurd heq (by unfold ROOT_INO; omega)
  show ((SonameIndex.fromEntries raw).inoToSoname.get? ROOT_INO).bind _ = none
  rw [hnone]
  rfl

theorem sound_run (raw : List SonameEntry) (disk : String → Option Bytes) (calls : List (Nat × FsCall)) :
    ((mount (.fromEntries raw) disk).run calls).Sound := by
  induction calls using List.reverseRecOn with
  | nil => exact ⟨entryFor_root raw disk, nofun, nofun, nofun⟩
  | append_singleton calls timed ih =>
    rw [run_append]
    exact sound_step ih timed

/-- Every call of the run meets the condition in the state before it. -/
def OpensLate (m : Mounted) (calls : List (Nat × FsCall)) : Prop :=
  ∀ before timed after, calls = before ++ timed :: after → FirstOpenLate (m.run before) timed

theorem opensLate_append {calls : List (Nat × FsCall)} {timed : Nat × FsCall} :
    OpensLate m (calls ++ [timed]) ↔ OpensLate m calls ∧ FirstOpenLate (m.run calls) timed := by
  refine ⟨fun h => ⟨fun before timed' after heq => h before timed' (after ++ [timed]) (by rw [heq]; simp), h calls timed [] rfl⟩, ?_⟩
  rintro ⟨hbefore, hlast⟩ before timed' after heq
  rcases List.eq_nil_or_concat after with rfl | ⟨after, last, rfl⟩
  · obtain ⟨rfl, hsingle⟩ := List.append_inj' heq rfl
    cases hsingle
    exact hlast
  · rw [List.concat_eq_append, ← List.cons_append, ← List.append_assoc] at heq
    exact hbefore before timed' after (List.append_inj' heq rfl).1

/-- The sizes that are replied are those that are read exactly if no inode is opened
for the first time while an attribute for it is alive. -/
theorem sizes_coherent (raw : List SonameEntry) (disk : String → Option Bytes) (calls : List (Nat × FsCall)) :
    Coherent ((mount (.fromEntries raw) disk).run calls).history ↔ OpensLate (mount (.fromEntries raw) disk) calls := by
  refine ⟨fun hcoherent => ?_, fun hlate => ?_⟩
  · induction calls using List.reverseRecOn with
    | nil => exact fun before timed after heq => absurd heq (by simp)
    | append_singleton calls timed ih =>
      rw [run_append] at hcoherent
      exact opensLate_append.mpr ⟨ih (coherent_append.mp hcoherent).1, firstOpenLate_of_coherent (sound_run raw disk calls) hcoherent⟩
  · refine (?_ : Coherent _ ∧ ((mount (.fromEntries raw) disk).run calls).Fresh).1
    induction calls using List.reverseRecOn with
    | nil => exact ⟨List.Pairwise.nil, nofun⟩
    | append_singleton calls timed ih =>
      obtain ⟨hbefore, hlast⟩ := opensLate_append.mp hlate
      obtain ⟨hcoherent, hfresh⟩ := ih hbefore
      have hsound := sound_run raw disk calls
      rw [run_append]
      exact ⟨coherent_step hsound hfresh hcoherent hlast, fresh_step hsound hfresh hlast⟩

def zlibDisk (path : String) : Option Bytes := if path = "/nix/store/b-zlib-ng/lib/libz.so.1" then some [1, 2, 3] else none

/-- Looked up, opened and read at once: the file has no bytes, and delivers three. -/
theorem sizes_incoherent : ¬Coherent ((mount (.fromEntries zlibSonames) zlibDisk).run
    [(0, .lookup ROOT_INO (some "libz.so.1")), (0, .openFile 2 ⟨fun _ => none, false⟩ false), (0, .readFile 1 0 4096 false)]).history := by
  have hhistory : ((mount (.fromEntries zlibSonames) zlibDisk).run
      [(0, .lookup ROOT_INO (some "libz.so.1")), (0, .openFile 2 ⟨fun _ => none, false⟩ false), (0, .readFile 1 0 4096 false)]).history =
      [(0, .attr (LibFs.placeholderAttr 2)), (0, .opened 2 1 [1, 2, 3]), (0, .data 2 0 4096 [1, 2, 3])] := by rfl
  rw [hhistory]
  intro hcoherent
  have hread := (List.pairwise_cons.mp hcoherent).1 (0, .data 2 0 4096 [1, 2, 3]) (by simp)
  exact absurd (hread (by decide) rfl) (by decide)

end Ekapkgs
