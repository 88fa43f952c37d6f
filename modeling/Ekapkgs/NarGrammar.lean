import Ekapkgs.NarFields
import Ekapkgs.Sample

/-!
# The grammar of archives

What `parse_nar` accepts, as the fields of a tree. It asks for less than what
`write_nar` writes: entries in any order, any value after `executable`, and a file
without `contents` is empty.
-/

namespace Ekapkgs
open Fallible Descent

/-- The fields of a regular file behind its type. -/
inductive IsRegular : Bool → NarNode → List Bytes → Prop
  | executable {executable : Bool} {node : NarNode} {value : Bytes} {xs : List Bytes} : IsRegular true node xs →
      IsRegular executable node (asBytes "executable" :: value :: xs)
  | contents (executable : Bool) (data : Bytes) : IsRegular executable (.regular executable data) [asBytes "contents", data, asBytes ")"]
  | empty (executable : Bool) : IsRegular executable (.regular executable []) [asBytes ")"]

mutual
inductive IsObj : NarNode → List Bytes → Prop
  | regular {node : NarNode} {xs : List Bytes} : IsRegular false node xs → IsObj node (asBytes "(" :: asBytes "type" :: asBytes "regular" :: xs)
  | directory {entries : List (String × NarNode)} {xs : List Bytes} : IsEntries entries xs →
      IsObj (.directory entries) (asBytes "(" :: asBytes "type" :: asBytes "directory" :: xs)
  | symlink (target : String) :
      IsObj (.symlink target) [asBytes "(", asBytes "type", asBytes "symlink", asBytes "target", asBytes target, asBytes ")"]
/-- The fields of the entries of a directory, and its `")"`. -/
inductive IsEntries : List (String × NarNode) → List Bytes → Prop
  | nil : IsEntries [] [asBytes ")"]
  | cons {name : String} {node : NarNode} {entries : List (String × NarNode)} {xs ys : List Bytes} : IsObj node xs → IsEntries entries ys →
      IsEntries ((name, node) :: entries)
        (asBytes "entry" :: asBytes "(" :: asBytes "name" :: asBytes name :: asBytes "node" :: (xs ++ asBytes ")" :: ys))
end

def IsArchive (node : NarNode) (xs : List Bytes) : Prop := ∃ ys, xs = asBytes "nix-archive-1" :: ys ∧ IsObj node ys

/-! ## Fields that are expected -/

abbrev NarParses {α : Type} (m : NarParser α) (L : Language Bytes α) (r : NarReader) : Prop := Parses readStr NarError.overflow m L r

section
variable {α : Type} {r : NarReader}

theorem expect_parses (s : String) {m : NarParser α} {L : Language Bytes α} (hm : ∀ t, readStr r = .ok (asBytes s) t → NarParses m L t)
    (hlive : ∃ a xs, L a xs) : NarParses (expectStr s >>= fun _ => m) (fun a xs => ∃ ys, xs = asBytes s :: ys ∧ L a ys) r := by
  have htoken : NarParses (readStr >>= fun x => (if x = asBytes s then pure () else throw (.expected s)) >>= fun _ => m)
      (Language.after fun x a ys => x = asBytes s ∧ L a ys) r := by
    refine .token (fun x t hx => ?_) ?_
    · by_cases h : x = asBytes s
      · subst h
        rw [if_pos rfl]
        exact ((hm t hx).of_iff fun a xs => by simp).of_run rfl
      · rw [if_neg h]
        exact ((Parses.throw (by simp) t).of_iff fun a xs => by simp [h]).of_run rfl
    · obtain ⟨a, xs, h⟩ := hlive
      exact ⟨asBytes s, a, xs, rfl, h⟩
  refine (htoken.of_iff fun a xs => ?_).of_run (by unfold expectStr; rw [bind_assoc])
  constructor
  · rintro ⟨x, ys, rfl, rfl, h⟩
    exact ⟨ys, rfl, h⟩
  · rintro ⟨ys, rfl, h⟩
    exact ⟨_, ys, rfl, rfl, h⟩

theorem readString_eq : readString = readStr >>= fun x => (fromUtf8 x).elim (throw .utf8) pure := by
  refine bind_congr fun x => ?_
  cases fromUtf8 x with
  | some s => rfl
  | none => rfl

theorem string_parses {f : String → NarParser α} {L : String → Language Bytes α}
    (hf : ∀ s t, readStr r = .ok (asBytes s) t → NarParses (f s) (L s) t) (hlive : ∃ s a xs, L s a xs) :
    NarParses (readString >>= f) (fun a xs => ∃ s ys, xs = asBytes s :: ys ∧ L s a ys) r := by
  have htoken : NarParses (readStr >>= fun x => (fromUtf8 x).elim (throw .utf8) pure >>= f) (Language.after fun x a ys => ∃ s, x = asBytes s ∧ L s a ys) r := by
    refine .token (fun x t hx => ?_) ?_
    · cases hs : fromUtf8 x with
      | some s =>
        have hbytes := asBytes_of_fromUtf8 hs
        subst hbytes
        refine ((hf s t hx).of_iff fun a xs => ?_).of_run rfl
        constructor
        · exact fun h => ⟨s, rfl, h⟩
        · rintro ⟨s', heq, h⟩
          exact asBytes_inj heq ▸ h
      | none =>
        refine ((Parses.throw (by simp) t).of_iff fun a xs => ?_).of_run rfl
        constructor
        · exact False.elim
        · rintro ⟨s', rfl, h⟩
          rw [fromUtf8_asBytes] at hs
          cases hs
    · obtain ⟨s, a, xs, h⟩ := hlive
      exact ⟨asBytes s, a, xs, s, rfl, h⟩
  refine (htoken.of_iff fun a xs => ?_).of_run (by rw [readString_eq, bind_assoc])
  constructor
  · rintro ⟨x, ys, rfl, s, rfl, h⟩
    exact ⟨s, ys, rfl, h⟩
  · rintro ⟨s, ys, rfl, h⟩
    exact ⟨_, ys, rfl, s, rfl, h⟩

end

/-! ## The cursor -/

/-- The fuel lasts to the end of the archive. -/
structure FuelLasts (fuel : Nat) (r : NarReader) : Prop where
  data : r.data.length < 2 ^ 64
  fuel : r.data.length + 8 ≤ fuel + r.pos

theorem readStr_forward {r t : NarReader} {s : Bytes} (hdata : r.data.length < 2 ^ 64) (h : readStr r = .ok s t) :
    t = ⟨r.data, r.pos + 8 + s.length + paddingLength s.length⟩ ∧ r.pos + 8 ≤ r.data.length := by
  obtain ⟨rfl, rest, hdrop⟩ := (readStr_ok_iff hdata).mp h
  refine ⟨rfl, ?_⟩
  have hlength := congrArg List.length hdrop
  simp only [List.length_drop, List.length_append, toLeBytes_length] at hlength
  omega

theorem FuelLasts.step {fuel : Nat} {r t : NarReader} {s : Bytes} (h : FuelLasts (fuel + 1) r) (hread : readStr r = .ok s t) : FuelLasts fuel t := by
  obtain ⟨rfl, -⟩ := readStr_forward h.data hread
  have := h.fuel
  refine ⟨h.data, ?_⟩
  show r.data.length + 8 ≤ fuel + (r.pos + 8 + s.length + paddingLength s.length)
  omega

theorem FuelLasts.mono {fuel fuel' : Nat} {r : NarReader} (h : FuelLasts fuel r) (hle : fuel ≤ fuel') : FuelLasts fuel' r :=
  ⟨h.data, h.fuel.trans (Nat.add_le_add_right hle _)⟩

theorem FuelLasts.reads {fuel : Nat} {r t : NarReader} {xs : List Bytes} (h : FuelLasts fuel r) (hreads : Reads readStr r xs t) : FuelLasts fuel t := by
  obtain ⟨hdata, hpos⟩ := reads_forward h.data hreads
  have := h.fuel
  exact ⟨hdata ▸ h.data, by rw [hdata]; omega⟩

/-- Past the end nothing can be read. -/
theorem spent_parses {α : Type} {L : Language Bytes α} {r : NarReader} (h : FuelLasts 0 r) (hne : ∀ a, ¬ L a []) :
    NarParses (throw .depth : NarParser α) L r := by
  have hpos : ¬ r.pos + 8 ≤ r.data.length := by
    have := h.fuel
    omega
  have hread (x : Bytes) (t : NarReader) : readStr r ≠ .ok x t := fun hx => hpos (readStr_forward h.data hx).2
  have hreads {xs : List Bytes} {t : NarReader} (hxs : Reads readStr r xs t) : xs = [] ∧ t = r := by
    cases xs with
    | nil => exact ⟨rfl, reads_nil_iff.mp hxs⟩
    | cons x xs =>
      obtain ⟨u, hx, -⟩ := reads_cons_iff.mp hxs
      exact absurd hx (hread x u)
  have hfault : ¬ FaultsAt readStr NarError.overflow r := by
    rintro hfault
    obtain ⟨n, rest, -, hdrop, -⟩ := faultsAt_iff.mp hfault
    have hlength := congrArg List.length hdrop
    rw [List.length_drop, List.length_append, toLeBytes_length] at hlength
    omega
  constructor
  · intro a t
    constructor
    · intro hok
      cases hok
    · rintro ⟨xs, hL, hxs⟩
      obtain ⟨rfl, -⟩ := hreads hxs
      exact absurd hL (hne a)
  · constructor
    · rintro ⟨t, herror⟩
      cases herror
    · rintro ⟨xs, t, -, hxs, hat⟩
      obtain ⟨-, rfl⟩ := hreads hxs
      exact absurd hat hfault

/-! ## Nodes -/

/-- The `")"` of a node belongs to what follows its type. -/
def closed (m : NarParser NarNode) : NarParser NarNode := do
  let node ← m
  expectStr ")"
  pure node

/-- What `rewind` goes back over is read again. -/
theorem closed_rewind {r t : NarReader} {node : NarNode} (hdata : r.data.length < 2 ^ 64) (h : readString r = .ok ")" t) :
    closed (do rewind; pure node) t = .ok node t := by
  obtain ⟨s, u, hread, hs⟩ := bind_ok.mp h
  cases hutf8 : fromUtf8 s with
  | none => rw [hutf8] at hs; cases hs
  | some text =>
    rw [hutf8] at hs
    cases hs
    have hbytes := asBytes_of_fromUtf8 hutf8
    subst hbytes
    obtain ⟨rfl, -⟩ := readStr_forward hdata hread
    have hback : ({ data := r.data, pos := r.pos + 8 + (asBytes ")").length + paddingLength (asBytes ")").length - 16 } : NarReader) = r := by
      have hlength : 8 + (asBytes ")").length + paddingLength (asBytes ")").length = 16 := by decide
      rw [Nat.add_assoc, Nat.add_assoc, ← Nat.add_assoc 8, hlength, Nat.add_sub_cancel]
    have hexpect : expectStr ")" r = .ok () ⟨r.data, r.pos + 8 + (asBytes ")").length + paddingLength (asBytes ")").length⟩ :=
      bind_ok.mpr ⟨_, _, hread, by rw [if_pos rfl]; rfl⟩
    unfold closed rewind
    rw [bind_assoc, bind_modify]
    dsimp only
    rw [hback]
    exact bind_ok.mpr ⟨_, _, rfl, bind_ok.mpr ⟨_, _, hexpect, rfl⟩⟩

/-- How a regular file goes on after the name of a field. -/
def regularRest (fuel : Nat) (executable : Bool) (field : String) : NarParser NarNode :=
  if field = "executable" then readStr >>= fun _ => closed (parseRegular fuel true)
  else if field = "contents" then readStr >>= fun data => expectStr ")" >>= fun _ => pure (.regular executable data)
  else if field = ")" then pure (.regular executable [])
  else throw (.unexpected field)

def IsRegularRest (executable : Bool) (field : String) : Language Bytes NarNode := fun node ys =>
  if field = "executable" then Language.after (fun _ => IsRegular true) node ys
  else if field = "contents" then Language.after (fun data node zs => ∃ ws, zs = asBytes ")" :: ws ∧ node = .regular executable data ∧ ws = []) node ys
  else if field = ")" then node = .regular executable [] ∧ ys = []
  else False

theorem isRegular_iff {executable : Bool} {node : NarNode} {xs : List Bytes} :
    (∃ field ys, xs = asBytes field :: ys ∧ IsRegularRest executable field node ys) ↔ IsRegular executable node xs := by
  constructor
  · rintro ⟨field, ys, rfl, hys⟩
    unfold IsRegularRest at hys
    split_ifs at hys with hexecutable hcontents hclose
    · obtain ⟨value, zs, rfl, hzs⟩ := hys
      exact hexecutable ▸ .executable hzs
    · obtain ⟨data, zs, rfl, ws, rfl, rfl, rfl⟩ := hys
      exact hcontents ▸ .contents executable data
    · obtain ⟨rfl, rfl⟩ := hys
      exact hclose ▸ .empty executable
  · intro hnode
    cases hnode with
    | executable hrest =>
      refine ⟨"executable", _, rfl, ?_⟩
      unfold IsRegularRest
      rw [if_pos rfl]
      exact ⟨_, _, rfl, hrest⟩
    | contents data =>
      refine ⟨"contents", _, rfl, ?_⟩
      unfold IsRegularRest
      rw [if_neg (by decide), if_pos rfl]
      exact ⟨_, _, rfl, _, rfl, rfl, rfl⟩
    | empty =>
      refine ⟨")", _, rfl, ?_⟩
      unfold IsRegularRest
      rw [if_neg (by decide), if_neg (by decide), if_pos rfl]
      exact ⟨rfl, rfl⟩

theorem closed_parseRegular (fuel : Nat) (executable : Bool) {r : NarReader} (hdata : r.data.length < 2 ^ 64) :
    closed (parseRegular (fuel + 1) executable) r = (readString >>= regularRest fuel executable) r := by
  have hopen : closed (parseRegular (fuel + 1) executable) r = (readString >>= fun field => closed
      (if field = "executable" then readStr >>= fun _ => parseRegular fuel true
      else if field = "contents" then readStr >>= fun data => pure (.regular executable data)
      else if field = ")" then rewind >>= fun _ => pure (.regular executable [])
      else throw (.unexpected field))) r := by
    unfold closed
    rw [parseRegular, bind_assoc]
  rw [hopen]
  cases hfield : readString r with
  | error e t => rw [bind_of_error hfield, bind_of_error hfield]
  | ok field t =>
    rw [bind_of_ok hfield, bind_of_ok hfield]
    unfold regularRest
    split_ifs with hexecutable hcontents hclose
    · unfold closed
      rw [bind_assoc]
    · unfold closed
      rw [bind_assoc]
      rfl
    · subst hclose
      exact closed_rewind hdata hfield
    · rfl

theorem parseRegular_parses : ∀ (fuel : Nat) (executable : Bool) {r : NarReader}, FuelLasts fuel r →
    NarParses (closed (parseRegular fuel executable)) (IsRegular executable) r
  | 0, executable, r, h => (spent_parses h fun a hnil => by cases hnil).of_run rfl
  | fuel + 1, executable, r, h => by
    have hrest (field : String) (t : NarReader) (hfield : readStr r = .ok (asBytes field) t) :
        NarParses (regularRest fuel executable field) (IsRegularRest executable field) t := by
      have hlast : FuelLasts fuel t := h.step hfield
      unfold regularRest IsRegularRest
      split_ifs with hexecutable hcontents hclose
      · refine .token (fun value u hvalue => ?_) ⟨[], _, _, .empty true⟩
        exact parseRegular_parses fuel true ((hlast.mono (Nat.le_succ fuel)).step hvalue)
      · refine .token (fun data u hdata => ?_) ⟨[], _, _, [], rfl, rfl, rfl⟩
        exact expect_parses ")" (fun v _ => .pure _ v) ⟨_, [], rfl, rfl⟩
      · exact .pure _ t
      · exact .throw (by simp) t
    have hlive : ∃ field node ys, IsRegularRest executable field node ys := by
      obtain ⟨field, ys, -, hys⟩ := isRegular_iff.mpr (.empty executable)
      exact ⟨field, _, ys, hys⟩
    exact ((string_parses hrest hlive).of_iff fun _ _ => isRegular_iff).of_run (closed_parseRegular fuel executable h.data)

/-- How a directory goes on after a token. -/
def directoryRest (fuel : Nat) (entries : List (String × NarNode)) (token : String) : NarParser NarNode :=
  if token = "entry" then do
    expectStr "("
    expectStr "name"
    let name ← readString
    expectStr "node"
    let node ← parseNarObj fuel
    expectStr ")"
    closed (parseDirectory fuel (entries ++ [(name, node)]))
  else if token = ")" then pure (.directory entries)
  else throw (.unexpected token)

theorem closed_parseDirectory (fuel : Nat) (entries : List (String × NarNode)) {r : NarReader} (hdata : r.data.length < 2 ^ 64) :
    closed (parseDirectory (fuel + 1) entries) r = (readString >>= directoryRest fuel entries) r := by
  have hopen : closed (parseDirectory (fuel + 1) entries) r =
      if r.data.length - r.pos < 8 then closed (pure (.directory entries)) r
      else (readString >>= fun token => closed
        (if token = "entry" then do
          expectStr "("
          expectStr "name"
          let name ← readString
          expectStr "node"
          let node ← parseNarObj fuel
          expectStr ")"
          parseDirectory fuel (entries ++ [(name, node)])
        else if token = ")" then rewind >>= fun _ => pure (.directory entries)
        else throw (.unexpected token))) r := by
    unfold closed
    rw [parseDirectory, bind_assoc]
    have hremaining : remaining r = .ok (r.data.length - r.pos) r := rfl
    rw [bind_of_ok hremaining]
    split_ifs
    · rfl
    · rw [bind_assoc]
  rw [hopen]
  split_ifs with hshort
  · have hread : readU64 r = .error .eof r := by
      unfold readU64
      exact if_neg (by omega)
    have hstr : readStr r = .error .eof r := bind_of_error hread
    have hstring : readString r = .error .eof r := bind_of_error hstr
    have hexpect : expectStr ")" r = .error .eof r := bind_of_error hstr
    rw [bind_of_error hstring]
    exact (bind_of_ok rfl).trans (bind_of_error hexpect)
  · cases htoken : readString r with
    | error e t => rw [bind_of_error htoken, bind_of_error htoken]
    | ok token t =>
      rw [bind_of_ok htoken, bind_of_ok htoken]
      unfold directoryRest
      split_ifs with hentry hclose
      · unfold closed
        simp only [bind_assoc]
      · subst hclose
        exact closed_rewind hdata htoken
      · rfl

/-- The fields of a directory with these entries before. -/
def IsDirectory (entries : List (String × NarNode)) : Language Bytes NarNode := fun node xs =>
  ∃ rest, node = .directory (entries ++ rest) ∧ IsEntries rest xs

def IsEntryRest (entries : List (String × NarNode)) : Language Bytes NarNode := fun node xs =>
  ∃ name child ys zs, xs = asBytes "(" :: asBytes "name" :: asBytes name :: asBytes "node" :: (ys ++ asBytes ")" :: zs) ∧ IsObj child ys ∧
    IsDirectory (entries ++ [(name, child)]) node zs

def IsDirectoryRest (entries : List (String × NarNode)) (token : String) : Language Bytes NarNode := fun node xs =>
  if token = "entry" then IsEntryRest entries node xs
  else if token = ")" then node = .directory entries ∧ xs = []
  else False

theorem isDirectory_nil (entries : List (String × NarNode)) : IsDirectory entries (.directory entries) [asBytes ")"] :=
  ⟨[], by rw [List.append_nil], .nil⟩

theorem isDirectory_iff {entries : List (String × NarNode)} {node : NarNode} {xs : List Bytes} :
    (∃ token ys, xs = asBytes token :: ys ∧ IsDirectoryRest entries token node ys) ↔ IsDirectory entries node xs := by
  constructor
  · rintro ⟨token, ys, rfl, hys⟩
    unfold IsDirectoryRest at hys
    split_ifs at hys with hentry hclose
    · obtain ⟨name, child, ys, zs, rfl, hchild, rest, rfl, hrest⟩ := hys
      refine ⟨(name, child) :: rest, by rw [List.append_assoc, List.singleton_append], hentry ▸ .cons hchild hrest⟩
    · obtain ⟨rfl, rfl⟩ := hys
      exact hclose ▸ isDirectory_nil entries
  · rintro ⟨rest, rfl, hrest⟩
    cases hrest with
    | nil =>
      refine ⟨")", [], rfl, ?_⟩
      unfold IsDirectoryRest
      rw [if_neg (by decide), if_pos rfl, List.append_nil]
      exact ⟨rfl, rfl⟩
    | cons hchild hrest =>
      refine ⟨"entry", _, rfl, ?_⟩
      unfold IsDirectoryRest
      rw [if_pos rfl]
      exact ⟨_, _, _, _, rfl, hchild, _, by rw [List.append_assoc, List.singleton_append], hrest⟩

/-- How a node goes on after its type. -/
def objRest (fuel : Nat) (type : String) : NarParser NarNode :=
  closed (if type = "regular" then parseRegular fuel false
    else if type = "directory" then parseDirectory fuel []
    else if type = "symlink" then parseSymlink
    else throw (.unknownType type))

def IsObjRest (type : String) : Language Bytes NarNode := fun node xs =>
  if type = "regular" then IsRegular false node xs
  else if type = "directory" then IsDirectory [] node xs
  else if type = "symlink" then ∃ target, node = .symlink target ∧ xs = [asBytes "target", asBytes target, asBytes ")"]
  else False

theorem isObj_iff {node : NarNode} {xs : List Bytes} :
    (∃ ys, xs = asBytes "(" :: ys ∧ ∃ zs, ys = asBytes "type" :: zs ∧ ∃ type ws, zs = asBytes type :: ws ∧ IsObjRest type node ws) ↔ IsObj node xs := by
  constructor
  · rintro ⟨_, rfl, _, rfl, type, ws, rfl, hws⟩
    unfold IsObjRest at hws
    split_ifs at hws with hregular hdirectory hsymlink
    · exact hregular ▸ .regular hws
    · obtain ⟨rest, rfl, hrest⟩ := hws
      exact hdirectory ▸ .directory hrest
    · obtain ⟨target, rfl, rfl⟩ := hws
      exact hsymlink ▸ .symlink target
  · intro hnode
    cases hnode with
    | regular hregular =>
      refine ⟨_, rfl, _, rfl, "regular", _, rfl, ?_⟩
      unfold IsObjRest
      rwa [if_pos rfl]
    | directory hentries =>
      refine ⟨_, rfl, _, rfl, "directory", _, rfl, ?_⟩
      unfold IsObjRest
      rw [if_neg (by decide), if_pos rfl]
      exact ⟨_, rfl, hentries⟩
    | symlink target =>
      refine ⟨_, rfl, _, rfl, "symlink", _, rfl, ?_⟩
      unfold IsObjRest
      rw [if_neg (by decide), if_neg (by decide), if_pos rfl]
      exact ⟨target, rfl, rfl⟩

theorem parseNarObj_eq (fuel : Nat) : parseNarObj (fuel + 1) =
    expectStr "(" >>= fun _ => expectStr "type" >>= fun _ => readString >>= objRest fuel := by
  rw [parseNarObj]
  refine congrArg (expectStr "(" >>= ·) (funext fun _ => congrArg (expectStr "type" >>= ·) (funext fun _ => congrArg (readString >>= ·) ?_))
  funext type
  unfold objRest closed
  dsimp only
  split_ifs <;> rfl

theorem parseSymlink_parses (r : NarReader) :
    NarParses (closed parseSymlink) (fun node xs => ∃ target, node = .symlink target ∧ xs = [asBytes "target", asBytes target, asBytes ")"]) r := by
  have hclose (target : String) (t : NarReader) : NarParses (expectStr ")" >>= fun _ => pure (NarNode.symlink target))
      (fun node xs => ∃ ys, xs = asBytes ")" :: ys ∧ node = .symlink target ∧ ys = []) t :=
    expect_parses ")" (fun u _ => .pure _ u) ⟨_, [], rfl, rfl⟩
  have htarget (t : NarReader) := string_parses (r := t) (fun target u _ => hclose target u) ⟨"", _, _, [], rfl, rfl, rfl⟩
  have hall := expect_parses (r := r) "target" (fun t _ => htarget t) ⟨_, _, "", _, rfl, [], rfl, rfl, rfl⟩
  refine (hall.of_iff fun node xs => ?_).of_run (by unfold closed parseSymlink; simp only [bind_assoc, pure_bind])
  constructor
  · rintro ⟨_, rfl, target, _, rfl, _, rfl, rfl, rfl⟩
    exact ⟨target, rfl, rfl⟩
  · rintro ⟨target, rfl, rfl⟩
    exact ⟨_, rfl, target, _, rfl, _, rfl, rfl, rfl⟩

mutual
theorem parseNarObj_parses : ∀ (fuel : Nat) {r : NarReader}, FuelLasts fuel r → NarParses (parseNarObj fuel) IsObj r
  | 0, r, h => (spent_parses h fun a hnil => by cases hnil).of_run rfl
  | fuel + 1, r, h => by
    have hrest (type : String) (t : NarReader) (hlast : FuelLasts fuel t) : NarParses (objRest fuel type) (IsObjRest type) t := by
      unfold objRest IsObjRest
      split_ifs with hregular hdirectory hsymlink
      · exact parseRegular_parses fuel false hlast
      · exact parseDirectory_parses fuel [] hlast
      · exact parseSymlink_parses t
      · exact (Parses.throw (by simp) t).of_run rfl
    have hlive : ∃ type node ws, IsObjRest type node ws := by
      obtain ⟨_, -, _, -, type, ws, -, hws⟩ := isObj_iff.mpr (.symlink "")
      exact ⟨type, _, ws, hws⟩
    obtain ⟨type, node, ws, hws⟩ := hlive
    have hall : NarParses (expectStr "(" >>= fun _ => expectStr "type" >>= fun _ => readString >>= objRest fuel) _ r :=
      expect_parses "(" (fun t ht => expect_parses "type" (fun u hu => string_parses (fun type v hv =>
        hrest type v (((((h.step ht).mono (Nat.le_succ fuel)).step hu).mono (Nat.le_succ fuel)).step hv)) ⟨type, node, ws, hws⟩)
          ⟨_, _, type, ws, rfl, hws⟩) ⟨_, _, _, rfl, type, ws, rfl, hws⟩
    exact (hall.of_iff fun _ _ => isObj_iff).of_run (by rw [parseNarObj_eq])
theorem parseDirectory_parses : ∀ (fuel : Nat) (entries : List (String × NarNode)) {r : NarReader}, FuelLasts fuel r →
    NarParses (closed (parseDirectory fuel entries)) (IsDirectory entries) r
  | 0, entries, r, h => (spent_parses h fun a hnil => by
      obtain ⟨rest, -, hrest⟩ := hnil
      cases hrest).of_run rfl
  | fuel + 1, entries, r, h => by
    have hentry {t : NarReader} (hlast : FuelLasts fuel t) : NarParses (do
        expectStr "("
        expectStr "name"
        let name ← readString
        expectStr "node"
        let node ← parseNarObj fuel
        expectStr ")"
        closed (parseDirectory fuel (entries ++ [(name, node)]))) (IsEntryRest entries) t := by
      have hchild (name : String) {u : NarReader} (hu : FuelLasts fuel u) : NarParses (do
          let node ← parseNarObj fuel
          expectStr ")"
          closed (parseDirectory fuel (entries ++ [(name, node)])))
          (Language.andThen IsObj fun child node xs => ∃ zs, xs = asBytes ")" :: zs ∧ IsDirectory (entries ++ [(name, child)]) node zs) u := by
        have hobj := parseNarObj_parses fuel hu
        refine hobj.bind (fun child v hv => ?_) fun child _ _ => ⟨_, _, _, rfl, isDirectory_nil _⟩
        obtain ⟨xs, -, hreads⟩ := (hobj.ok child v).mp hv
        have hlast := ((hu.reads hreads).mono (Nat.le_succ fuel))
        exact expect_parses ")" (fun w hw => parseDirectory_parses fuel (entries ++ [(name, child)]) (hlast.step hw)) ⟨_, _, isDirectory_nil _⟩
      have hlive (name : String) : ∃ node xs, (Language.andThen IsObj fun child node xs =>
          ∃ zs, xs = asBytes ")" :: zs ∧ IsDirectory (entries ++ [(name, child)]) node zs) node xs :=
        ⟨_, _, _, _, _, rfl, .symlink "", _, rfl, isDirectory_nil _⟩
      have hstep {u v : NarReader} {s : Bytes} (hu : FuelLasts fuel u) (hread : readStr u = .ok s v) : FuelLasts fuel v :=
        (hu.mono (Nat.le_succ fuel)).step hread
      obtain ⟨node, xs, hxs⟩ := hlive ""
      have hall := expect_parses (r := t) "(" (fun u hu => expect_parses "name" (fun v hv => string_parses (fun name w hw =>
        expect_parses "node" (fun x hx => hchild name (hstep (hstep (hstep (hstep hlast hu) hv) hw) hx)) (hlive name))
          ⟨"", node, _, xs, rfl, hxs⟩) ⟨node, _, "", _, rfl, xs, rfl, hxs⟩) ⟨node, _, _, rfl, "", _, rfl, xs, rfl, hxs⟩
      refine hall.of_iff fun node xs => ?_
      constructor
      · rintro ⟨_, rfl, _, rfl, name, _, rfl, _, rfl, child, ys, _, rfl, hchild, zs, rfl, hzs⟩
        exact ⟨name, child, ys, zs, rfl, hchild, hzs⟩
      · rintro ⟨name, child, ys, zs, rfl, hchild, hzs⟩
        exact ⟨_, rfl, _, rfl, name, _, rfl, _, rfl, child, ys, _, rfl, hchild, zs, rfl, hzs⟩
    have hrest (token : String) (t : NarReader) (htoken : readStr r = .ok (asBytes token) t) :
        NarParses (directoryRest fuel entries token) (IsDirectoryRest entries token) t := by
      unfold directoryRest IsDirectoryRest
      split_ifs with hname hclose
      · exact hentry (h.step htoken)
      · exact .pure _ t
      · exact .throw (by simp) t
    have hlive : ∃ token node ys, IsDirectoryRest entries token node ys := by
      obtain ⟨token, ys, -, hys⟩ := isDirectory_iff.mpr (isDirectory_nil entries)
      exact ⟨token, _, ys, hys⟩
    exact ((string_parses hrest hlive).of_iff fun _ _ => isDirectory_iff).of_run (closed_parseDirectory fuel entries h.data)
end

/-! ## Archives -/

variable {data : Bytes} {node : NarNode}

theorem parseArchive_parses (hdata : data.length < 2 ^ 64) : NarParses (parseArchive (data.length + 8)) IsArchive ⟨data, 0⟩ := by
  have hlast : FuelLasts (data.length + 8) ⟨data, 0⟩ := ⟨hdata, Nat.le_refl _⟩
  have hobj (t : NarReader) (ht : readStr ⟨data, 0⟩ = .ok (asBytes "nix-archive-1") t) : NarParses (parseNarObj (data.length + 8)) IsObj t :=
    parseNarObj_parses _ ((hlast.mono (Nat.le_succ _)).step ht)
  exact expect_parses "nix-archive-1" hobj ⟨_, _, .symlink ""⟩

/-- The tree is read back, and no other is written the same. -/
theorem writeNar_roundTrip (h : (writeNar node).length < 2 ^ 64) :
    parseNar (writeNar node) = .ok node ∧ ∀ node', writeNar node' = writeNar node → node' = node := by
  have hparse := parseNar_writeNar h
  refine ⟨hparse, fun node' heq => ?_⟩
  have hparse' := parseNar_writeNar (heq ▸ h : (writeNar node').length < 2 ^ 64)
  rw [heq, hparse] at hparse'
  exact (Except.ok.inj hparse').symm

theorem writeNar_roundTrip_sampleFile : parseNar (writeNar sampleFile) = .ok sampleFile ∧
    ∀ node, writeNar node = writeNar sampleFile → node = sampleFile :=
  writeNar_roundTrip (by decide +kernel)

/-- What is accepted begins with the fields of the tree. -/
theorem parseNar_accepts_iff (hdata : data.length < 2 ^ 64) : parseNar data = .ok node ↔ ∃ xs, IsArchive node xs ∧ Fields xs data := by
  have hparses := (parseArchive_parses hdata).ok node
  have hrun : parseNar data = .ok node ↔ ∃ r, parseArchive (data.length + 8) ⟨data, 0⟩ = .ok node r := by
    unfold parseNar
    cases parseArchive (data.length + 8) ⟨data, 0⟩ with
    | ok node' r => simp
    | error e r => simp
  rw [hrun]
  constructor
  · rintro ⟨r, h⟩
    obtain ⟨xs, harchive, hreads⟩ := (hparses r).mp h
    exact ⟨xs, harchive, (reads_iff hdata).mp ⟨r, hreads⟩⟩
  · rintro ⟨xs, harchive, hfields⟩
    obtain ⟨r, hreads⟩ := (reads_iff hdata).mpr (show Fields xs (data.drop 0) from hfields)
    exact ⟨r, (hparses r).mpr ⟨xs, harchive, hreads⟩⟩

theorem parseNar_accepts_sampleFile : ∃ xs, IsArchive sampleFile xs ∧ Fields xs (writeNar sampleFile) :=
  (parseNar_accepts_iff (by decide +kernel)).mp sampleFile_parse

/-- A byte after the archive. -/
theorem trailing_byte_accepted : ¬ ∀ data node, parseNar data = .ok node → writeNar node = data := by
  intro h
  obtain ⟨node, hnode, hdiffers⟩ := (Option.any_eq_true ..).mp
    (show (parseNar (writeNar sampleFile ++ [0])).toOption.any (fun node => writeNar node ≠ writeNar sampleFile ++ [0]) = true by decide +kernel)
  exact absurd (h _ node (ok_of_toOption hnode)) (of_decide_eq_true hdiffers)

end Ekapkgs
