import Ekapkgs.NarGrammar

/-!
# The bounds of the NAR parser

The parser on 64-bit `usize`s. An addition that overflows panics in a debug build
and wraps in a release build, and a slice out of range panics in both.
-/

namespace Ekapkgs
open Fallible Descent

inductive NarFailure where
  | err (e : NarError)
  | panic
  deriving DecidableEq

abbrev NarMachine := EStateM NarFailure NarReader

namespace NarMachine
variable {α β : Type} (checks : Bool)

def add (a b : Nat) : NarMachine Nat :=
  if a + b < 2 ^ 64 then pure (a + b)
  else if checks then throw .panic
  else pure ((a + b) % 2 ^ 64)

def sub (a b : Nat) : NarMachine Nat :=
  if b ≤ a then pure (a - b)
  else if checks then throw .panic
  else pure (2 ^ 64 + a - b)

/-- `&self.data[start..stop]`. -/
def slice (start stop : Nat) : NarMachine Bytes := do
  let r ← get
  if start ≤ stop ∧ stop ≤ r.data.length then pure ((r.data.drop start).take (stop - start)) else throw .panic

def setPos (pos : Nat) : NarMachine Unit := modify fun r => { r with pos }

def ensure (c : Bool) (e : NarError) : NarMachine Unit := if c then pure () else throw (.err e)

def readU64 : NarMachine Nat := do
  let r ← get
  ensure ((← add checks r.pos 8) ≤ r.data.length) .eof
  let val ← slice r.pos (← add checks r.pos 8)
  setPos (← add checks r.pos 8)
  pure (fromLeBytes val)

def readBytes (len : Nat) : NarMachine Bytes := do
  let r ← get
  ensure ((← add checks r.pos len) ≤ r.data.length) .eof
  let s ← slice r.pos (← add checks r.pos len)
  let pos ← add checks r.pos len
  setPos (← add checks pos (paddingLength len))
  pure s

def readStr : NarMachine Bytes := do
  let len ← readU64 checks
  readBytes checks len

def expectStr (expected : String) : NarMachine Unit := do
  let s ← readStr checks
  ensure (s = asBytes expected) (.expected expected)

def readString : NarMachine String := do
  let s ← readStr checks
  match fromUtf8 s with
  | some s => pure s
  | none => throw (.err .utf8)

def rewind : NarMachine Unit := do
  let r ← get
  setPos (← sub checks r.pos 16)

/-- The subtraction saturates. -/
def remaining : NarMachine Nat := do
  let r ← get
  pure (r.data.length - r.pos)

def parseRegular : Nat → Bool → NarMachine NarNode
  | 0, _ => throw (.err .depth)
  | fuel + 1, executable => do
    let field ← readString checks
    if field = "executable" then
      let _ ← readStr checks
      parseRegular fuel true
    else if field = "contents" then
      let data ← readStr checks
      pure (.regular executable data)
    else if field = ")" then
      rewind checks
      pure (.regular executable [])
    else throw (.err (.unexpected field))

def parseSymlink : NarMachine NarNode := do
  expectStr checks "target"
  let target ← readString checks
  pure (.symlink target)

mutual
def parseNarObj : Nat → NarMachine NarNode
  | 0 => throw (.err .depth)
  | fuel + 1 => do
    expectStr checks "("
    expectStr checks "type"
    let type ← readString checks
    let node ←
      if type = "regular" then parseRegular checks fuel false
      else if type = "directory" then parseDirectory fuel []
      else if type = "symlink" then parseSymlink checks
      else throw (.err (.unknownType type))
    expectStr checks ")"
    pure node
def parseDirectory : Nat → List (String × NarNode) → NarMachine NarNode
  | 0, _ => throw (.err .depth)
  | fuel + 1, entries => do
    if (← remaining) < 8 then pure (.directory entries)
    else
      let token ← readString checks
      if token = "entry" then
        expectStr checks "("
        expectStr checks "name"
        let name ← readString checks
        expectStr checks "node"
        let node ← parseNarObj fuel
        expectStr checks ")"
        parseDirectory fuel (entries ++ [(name, node)])
      else if token = ")" then
        rewind checks
        pure (.directory entries)
      else throw (.err (.unexpected token))
end

def parseArchive (fuel : Nat) : NarMachine NarNode := do
  expectStr checks "nix-archive-1"
  parseNarObj checks fuel

def parseNar (data : Bytes) : Except NarFailure NarNode :=
  match parseArchive checks (data.length + 8) ⟨data, 0⟩ with
  | .ok node _ => .ok node
  | .error e _ => .error e

/-! ## It panics where the other parser overflows -/

def failure (e : NarError) : NarFailure := if e = .overflow then .panic else .err e

def lift : EStateM.Result NarError NarReader α → EStateM.Result NarFailure NarReader α
  | .ok a r => .ok a r
  | .error e r => .error (failure e) r

/-- The readers that the parser comes by. -/
structure InRange (r : NarReader) : Prop where
  data : r.data.length < 2 ^ 63
  pos : r.pos ≤ r.data.length + 7

/-- Both do the same from a reader, and stay in range. -/
structure Agrees (m : NarMachine α) (m' : NarParser α) (r : NarReader) : Prop where
  same : m r = lift (m' r)
  range : ∀ a t, m' r = .ok a t → InRange t

variable {checks} {m : NarMachine α} {m' : NarParser α} {r : NarReader}

theorem Agrees.bind {f : α → NarMachine β} {f' : α → NarParser β} (hm : Agrees m m' r) (hf : ∀ a t, m' r = .ok a t → InRange t → Agrees (f a) (f' a) t) :
    Agrees (m >>= f) (m' >>= f') r := by
  have hsame := hm.same
  cases hr : m' r with
  | error e t =>
    rw [hr] at hsame
    refine ⟨by rw [bind_of_error hsame, bind_of_error hr]; rfl, fun b u h => ?_⟩
    rw [bind_of_error hr] at h
    cases h
  | ok a t =>
    rw [hr] at hsame
    have hrest := hf a t hr (hm.range a t hr)
    refine ⟨by rw [bind_of_ok hsame, bind_of_ok hr]; exact hrest.same, fun b u h => ?_⟩
    rw [bind_of_ok hr] at h
    exact hrest.range b u h

theorem Agrees.pure (a : α) (h : InRange r) : Agrees (pure a) (pure a) r := ⟨rfl, fun _ _ heq => by cases heq; exact h⟩

theorem Agrees.throw {e : NarError} (h : e ≠ .overflow) : Agrees (throw (.err e) : NarMachine α) (throw e) r :=
  ⟨by show EStateM.Result.error _ _ = EStateM.Result.error (failure e) r; rw [failure, if_neg h], fun _ _ heq => by cases heq⟩

theorem add_of_lt {a b : Nat} (h : a + b < 2 ^ 64) : add checks a b = Pure.pure (a + b) := if_pos h

theorem slice_run {start stop : Nat} (hstart : start ≤ stop) (hstop : stop ≤ r.data.length) :
    slice start stop r = .ok ((r.data.drop start).take (stop - start)) r := by
  unfold slice
  rw [bind_get, if_pos ⟨hstart, hstop⟩]
  rfl

theorem readU64_agrees (h : InRange r) : Agrees (readU64 checks) Ekapkgs.readU64 r := by
  have hadd : add checks r.pos 8 = Pure.pure (r.pos + 8) := by
    have := h.data
    have := h.pos
    exact add_of_lt (by omega)
  unfold readU64 Ekapkgs.readU64
  by_cases hend : r.pos + 8 ≤ r.data.length
  · have hslice := slice_run (Nat.le_add_right r.pos 8) hend
    rw [Nat.add_sub_cancel_left] at hslice
    constructor
    · rw [bind_get, hadd, if_pos hend, pure_bind, ensure, decide_eq_true hend, if_pos rfl, pure_bind, pure_bind, bind_of_ok hslice, pure_bind]
      rfl
    · intro n t hok
      rw [if_pos hend] at hok
      cases hok
      exact ⟨h.data, hend.trans (Nat.le_add_right _ _)⟩
  · constructor
    · rw [bind_get, hadd, if_neg hend, pure_bind, ensure, decide_eq_false hend, if_neg Bool.false_ne_true]
      rfl
    · intro n t hok
      rw [if_neg hend] at hok
      cases hok

/-- Without checks, the sum wraps to less than the position. -/
theorem readBytes_agrees {len : Nat} (h : InRange r) (hpos : r.pos ≤ r.data.length) (hlen : len < 2 ^ 64) :
    Agrees (readBytes checks len) (Ekapkgs.readBytes len) r := by
  have hdata := h.data
  unfold readBytes Ekapkgs.readBytes
  by_cases hover : 2 ^ 64 ≤ r.pos + len
  · constructor
    · rw [bind_get, if_pos hover, add, if_neg (Nat.not_lt.mpr hover)]
      cases checks with
      | true => rfl
      | false =>
        have hwrap : (r.pos + len) % 2 ^ 64 < r.pos := by omega
        have hend : (r.pos + len) % 2 ^ 64 ≤ r.data.length := by omega
        rw [if_neg Bool.false_ne_true, pure_bind, ensure, decide_eq_true hend, if_pos rfl, pure_bind, pure_bind]
        refine bind_of_error ?_
        unfold slice
        rw [bind_get, if_neg fun hslice => Nat.not_le_of_lt hwrap hslice.1]
        rfl
    · intro s t hok
      rw [if_pos hover] at hok
      cases hok
  · have hadd : add checks r.pos len = Pure.pure (r.pos + len) := add_of_lt (Nat.lt_of_not_le hover)
    by_cases hend : r.pos + len ≤ r.data.length
    · have hslice := slice_run (Nat.le_add_right r.pos len) hend
      rw [Nat.add_sub_cancel_left] at hslice
      have hpad : paddingLength len < 8 := Nat.mod_lt _ (by decide)
      have hadd' : add checks (r.pos + len) (paddingLength len) = Pure.pure (r.pos + len + paddingLength len) := add_of_lt (by omega)
      constructor
      · rw [bind_get, hadd, if_neg hover, if_pos hend, pure_bind, ensure, decide_eq_true hend, if_pos rfl, pure_bind, pure_bind, bind_of_ok hslice,
          pure_bind, hadd', pure_bind]
        rfl
      · intro s t hok
        rw [if_neg hover, if_pos hend] at hok
        cases hok
        exact ⟨hdata, show r.pos + len + paddingLength len ≤ r.data.length + 7 by omega⟩
    · constructor
      · rw [bind_get, hadd, if_neg hover, if_neg hend, pure_bind, ensure, decide_eq_false hend, if_neg Bool.false_ne_true]
        rfl
      · intro s t hok
        rw [if_neg hover, if_neg hend] at hok
        cases hok

theorem readStr_agrees (h : InRange r) : Agrees (readStr checks) Ekapkgs.readStr r := by
  refine (readU64_agrees h).bind fun n t hn ht => ?_
  obtain ⟨rfl, hlt, rest, hdrop⟩ := readU64_ok_iff.mp hn
  refine readBytes_agrees ht ?_ hlt
  have hlength := congrArg List.length hdrop
  rw [List.length_drop, List.length_append, toLeBytes_length] at hlength
  show r.pos + 8 ≤ r.data.length
  omega

theorem expectStr_agrees (s : String) (h : InRange r) : Agrees (expectStr checks s) (Ekapkgs.expectStr s) r := by
  refine (readStr_agrees h).bind fun x t _ ht => ?_
  unfold ensure
  by_cases hx : x = asBytes s
  · rw [decide_eq_true hx, if_pos rfl, if_pos hx]
    exact .pure () ht
  · rw [decide_eq_false hx, if_neg Bool.false_ne_true, if_neg hx]
    exact .throw (by simp)

theorem readString_agrees (h : InRange r) : Agrees (readString checks) Ekapkgs.readString r := by
  refine (readStr_agrees h).bind fun x t _ ht => ?_
  cases fromUtf8 x with
  | some s => exact .pure s ht
  | none => exact .throw (by simp)

/-- A token that was read is behind the cursor. -/
theorem rewind_agrees {t : NarReader} {s : Bytes} (h : InRange r) (hread : Ekapkgs.readStr r = .ok s t) (hs : s = asBytes ")") (node : NarNode) :
    Agrees (rewind checks >>= fun _ => Pure.pure node) (Ekapkgs.rewind >>= fun _ => Pure.pure node) t := by
  have hdata := h.data
  obtain ⟨rfl, hpos⟩ := readStr_forward (by omega) hread
  subst hs
  have hlength : (asBytes ")").length = 1 := by decide
  have hback : r.pos + 8 + (asBytes ")").length + paddingLength (asBytes ")").length = r.pos + 16 := by
    rw [hlength]
    rfl
  have hrange : InRange ⟨r.data, r.pos⟩ := h
  rw [hback]
  constructor
  · unfold rewind Ekapkgs.rewind sub
    rw [bind_modify, bind_assoc, bind_get, if_pos (Nat.le_add_left 16 r.pos), pure_bind]
    rfl
  · intro a u hok
    rw [Ekapkgs.rewind, bind_modify, Nat.add_sub_cancel] at hok
    cases hok
    exact hrange

/-! ## The whole parser -/

theorem readString_ok {s : String} {t : NarReader} (h : Ekapkgs.readString r = .ok s t) : Ekapkgs.readStr r = .ok (asBytes s) t := by
  obtain ⟨x, u, hread, hx⟩ := bind_ok.mp h
  cases hutf8 : fromUtf8 x with
  | none => rw [hutf8] at hx; cases hx
  | some s' =>
    rw [hutf8] at hx
    cases hx
    exact asBytes_of_fromUtf8 hutf8 ▸ hread

theorem parseRegular_agrees : ∀ (fuel : Nat) (executable : Bool) {r : NarReader}, InRange r →
    Agrees (parseRegular checks fuel executable) (Ekapkgs.parseRegular fuel executable) r
  | 0, _, _, _ => .throw (by simp)
  | fuel + 1, executable, r, h => by
    refine (readString_agrees h).bind fun field t hfield ht => ?_
    split_ifs with hexecutable hcontents hclose
    · exact (readStr_agrees ht).bind fun _ u _ hu => parseRegular_agrees fuel true hu
    · exact (readStr_agrees ht).bind fun data u _ hu => .pure _ hu
    · exact rewind_agrees h (readString_ok hfield) (congrArg asBytes hclose) _
    · exact .throw (by simp)

theorem parseSymlink_agrees (h : InRange r) : Agrees (parseSymlink checks) Ekapkgs.parseSymlink r :=
  (expectStr_agrees "target" h).bind fun _ _ _ ht => (readString_agrees ht).bind fun _ _ _ hu => .pure _ hu

mutual
theorem parseNarObj_agrees : ∀ (fuel : Nat) {r : NarReader}, InRange r → Agrees (parseNarObj checks fuel) (Ekapkgs.parseNarObj fuel) r
  | 0, _, _ => .throw (by simp)
  | fuel + 1, r, h => by
    refine (expectStr_agrees "(" h).bind fun _ s _ hs => (expectStr_agrees "type" hs).bind fun _ t _ ht => ?_
    refine (readString_agrees ht).bind fun type u _ hu => ?_
    have hclose {m : NarMachine NarNode} {m' : NarParser NarNode} (hm : Agrees m m' u) : Agrees (do
        let node ← m
        expectStr checks ")"
        Pure.pure node) (do
        let node ← m'
        Ekapkgs.expectStr ")"
        Pure.pure node) u :=
      hm.bind fun node _ _ hv => (expectStr_agrees ")" hv).bind fun _ _ _ hw => .pure node hw
    dsimp only
    split_ifs
    · exact hclose (parseRegular_agrees fuel false hu)
    · exact hclose (parseDirectory_agrees fuel [] hu)
    · exact hclose (parseSymlink_agrees hu)
    · exact .throw (by simp)
theorem parseDirectory_agrees : ∀ (fuel : Nat) (entries : List (String × NarNode)) {r : NarReader}, InRange r →
    Agrees (parseDirectory checks fuel entries) (Ekapkgs.parseDirectory fuel entries) r
  | 0, _, _, _ => .throw (by simp)
  | fuel + 1, entries, r, h => by
    have hremaining : Agrees remaining Ekapkgs.remaining r := ⟨rfl, fun _ _ hok => by cases hok; exact h⟩
    refine hremaining.bind fun left r' hleft _ => ?_
    cases hleft
    split_ifs with hshort
    · exact .pure _ h
    · refine (readString_agrees h).bind fun token t htoken ht => ?_
      split_ifs with hentry hclose
      · refine (expectStr_agrees "(" ht).bind fun _ u _ hu => (expectStr_agrees "name" hu).bind fun _ v _ hv => ?_
        refine (readString_agrees hv).bind fun name w _ hw => (expectStr_agrees "node" hw).bind fun _ x _ hx => ?_
        refine (parseNarObj_agrees fuel hx).bind fun node y _ hy => (expectStr_agrees ")" hy).bind fun _ z _ hz => ?_
        exact parseDirectory_agrees fuel (entries ++ [(name, node)]) hz
      · exact rewind_agrees h (readString_ok htoken) (congrArg asBytes hclose) _
      · exact .throw (by simp)
end

theorem parseArchive_agrees (fuel : Nat) (h : InRange r) : Agrees (parseArchive checks fuel) (Ekapkgs.parseArchive fuel) r :=
  (expectStr_agrees "nix-archive-1" h).bind fun _ _ _ ht => parseNarObj_agrees fuel ht

theorem parseNar_agrees {data : Bytes} (h : data.length < 2 ^ 63) : parseNar checks data = (Ekapkgs.parseNar data).mapError failure := by
  have hagrees : Agrees (parseArchive checks (data.length + 8)) (Ekapkgs.parseArchive (data.length + 8)) ⟨data, 0⟩ :=
    parseArchive_agrees (data.length + 8) ⟨h, Nat.zero_le _⟩
  have hsame := hagrees.same
  unfold parseNar Ekapkgs.parseNar
  rw [hsame]
  cases Ekapkgs.parseArchive (data.length + 8) ⟨data, 0⟩ <;> rfl

end NarMachine

/-! ## The lengths it cannot add -/

/-- After some but not all fields of an archive stands a length that goes past
`2^64` with its position. -/
def WideLength (data : Bytes) : Prop := ∃ xs bs n rest, Language.Cut IsArchive xs ∧ FieldBytes xs bs ∧ n < 2 ^ 64 ∧
  data = bs ++ toLeBytes 8 n ++ rest ∧ 2 ^ 64 ≤ bs.length + 8 + n

variable {data : Bytes}

theorem parseNar_overflow_iff (hdata : data.length < 2 ^ 64) : parseNar data = .error .overflow ↔ WideLength data := by
  have hrun : parseNar data = .error .overflow ↔ ∃ r, parseArchive (data.length + 8) ⟨data, 0⟩ = .error .overflow r := by
    unfold parseNar
    cases parseArchive (data.length + 8) ⟨data, 0⟩ with
    | ok node r => simp
    | error e r => simp
  rw [hrun, (parseArchive_parses hdata).faults]
  constructor
  · rintro ⟨xs, ⟨data', pos⟩, hcut, hreads, hfault⟩
    obtain rfl : data' = data := (reads_forward hdata hreads).1
    obtain ⟨n, rest, hlt, hdrop, hover⟩ := faultsAt_iff.mp hfault
    have hlength := congrArg List.length hdrop
    rw [List.length_drop, List.length_append, toLeBytes_length] at hlength
    obtain ⟨bs, hbs, ⟨tail, hprefix⟩, heq⟩ := (reads_full_iff hdata (Nat.zero_le _)).mp ⟨hreads, show pos ≤ data'.length by omega⟩
    cases heq
    rw [Nat.zero_add] at hover hdrop
    rw [List.drop_zero] at hprefix
    refine ⟨xs, bs, n, rest, hcut, hbs, hlt, ?_, hover⟩
    rw [← hprefix, List.drop_left] at hdrop
    rw [← hprefix, hdrop, List.append_assoc]
  · rintro ⟨xs, bs, n, rest, hcut, hbs, hlt, heq, hover⟩
    rw [List.append_assoc] at heq
    have hprefix : bs <+: data.drop 0 := ⟨_, heq.symm⟩
    obtain ⟨hreads, -⟩ := (reads_full_iff hdata (Nat.zero_le _)).mpr ⟨bs, hbs, hprefix, rfl⟩
    refine ⟨xs, _, hcut, hreads, faultsAt_iff.mpr ⟨n, rest, hlt, ?_, ?_⟩⟩
    · rw [Nat.zero_add, heq, List.drop_left]
    · rwa [Nat.zero_add]

end Ekapkgs
