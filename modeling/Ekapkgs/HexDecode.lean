import Ekapkgs.Castore

/-!
# Digests in chunk URLs

`hex_decode` of `api/chunks.rs`. Its argument comes from the network: it is cut
into pairs of bytes, which may cut a character in two, and `from_str_radix` also
reads a sign.
-/

namespace Ekapkgs

/-! ## The library functions it calls -/

inductive Panic where
  | panic
  deriving DecidableEq

/-- `char::to_digit(16)`. -/
def toDigit (c : Char) : Option Nat :=
  if '0' ≤ c ∧ c ≤ '9' then some (c.toNat - 48)
  else if 'a' ≤ c ∧ c ≤ 'f' then some (c.toNat - 87)
  else if 'A' ≤ c ∧ c ≤ 'F' then some (c.toNat - 55)
  else none

/-- `b as char`. -/
def asChar (b : UInt8) : Char := Char.ofNat b.toNat

/-- `u8::from_str_radix(src, 16)`: an optional `'+'`, then digits only, at least one. -/
def u8FromStrRadix (src : Bytes) : Option UInt8 := do
  let digits := match src with
    | 43 :: rest => rest
    | _ => src
  if digits = [] then none
  else
    let values ← digits.mapM fun b => toDigit (asChar b)
    let n := values.foldl (fun n value => 16 * n + value) 0
    if n < 2 ^ 8 then some (UInt8.ofNat n) else none

def isContinuation (b : UInt8) : Bool := 128 ≤ b && b < 192

/-- `hex.is_char_boundary(i)`, on the bytes of `hex`. -/
def isCharBoundary (hex : Bytes) (i : Nat) : Bool :=
  match hex[i]? with
  | some b => i = 0 || !isContinuation b
  | none => i = hex.length

/-- `&hex[start..stop]`. -/
def sliceStr (hex : Bytes) (start stop : Nat) : Except Panic Bytes :=
  if start ≤ stop ∧ isCharBoundary hex start ∧ isCharBoundary hex stop then .ok ((hex.drop start).take (stop - start)) else .error .panic

/-! ## Decoding -/

/-- The loop from byte `i` on, with `n` bytes still to fill. -/
def decodePairs (hex : Bytes) : Nat → Nat → Except Panic (Option Bytes)
  | _, 0 => pure (some [])
  | i, n + 1 => do
    match u8FromStrRadix (← sliceStr hex (i * 2) (i * 2 + 2)) with
    | none => pure none
    | some byte =>
      let rest ← decodePairs hex (i + 1) n
      pure (rest.map (byte :: ·))

def hexDecode (s : String) : Except Panic (Option Bytes) :=
  let hex := asBytes s
  if hex.length ≠ 64 then pure none else decodePairs hex 0 32

/-- The string is 64 hexadecimal digits that spell the bytes. -/
structure HexOf (s : String) (d : Bytes) : Prop where
  length : s.toList.length = 64
  digits : ∀ c ∈ s.toList, (toDigit c).isSome = true
  spells : String.ofList (s.toList.map Char.toLower) = hexEncode d

/-! ## The pairs that are misread -/

/-- Two digits, or a sign and a digit. -/
def ReadablePair (a b : UInt8) : Prop := ((toDigit (asChar a)).isSome ∨ a = 43) ∧ (toDigit (asChar b)).isSome = true

def ReadablePairs : Bytes → Prop
  | [] => True
  | [_] => False
  | a :: b :: rest => ReadablePair a b ∧ ReadablePairs rest

/-- Behind pairs that read, a pair ends inside a character. -/
def Straddled : Bytes → Prop
  | a :: b :: rest => (∃ c ∈ rest.head?, isContinuation c = true) ∨ ReadablePair a b ∧ Straddled rest
  | _ => False

def Signed : Bytes → Prop
  | a :: _ :: rest => a = 43 ∨ Signed rest
  | _ => False

/-- The texts on which the decoder panics or takes a sign for a digit. -/
def Misread (hex : Bytes) : Prop := hex.length = 64 ∧ (Straddled hex ∨ ReadablePairs hex ∧ Signed hex)

/-- The byte of a pair. -/
def pairValue (a b : UInt8) : UInt8 := UInt8.ofNat (16 * (toDigit (asChar a)).getD 0 + (toDigit (asChar b)).getD 0)

def pairValues : Bytes → Bytes
  | a :: b :: rest => pairValue a b :: pairValues rest
  | _ => []

theorem toDigit_lt {c : Char} {n : Nat} (h : toDigit c = some n) : n < 16 := by
  unfold toDigit at h
  have h9 : '9'.toNat = 57 := rfl
  have hf : 'f'.toNat = 102 := rfl
  have hF : 'F'.toNat = 70 := rfl
  split_ifs at h with h0 ha hA
  · have : c.toNat ≤ '9'.toNat := h0.2
    simp only [Option.some.injEq] at h
    omega
  · have : c.toNat ≤ 'f'.toNat := ha.2
    simp only [Option.some.injEq] at h
    omega
  · have : c.toNat ≤ 'F'.toNat := hA.2
    simp only [Option.some.injEq] at h
    omega

theorem toDigit_plus : toDigit (asChar 43) = none := by decide

theorem u8FromStrRadix_pair {a b : UInt8} (h : ReadablePair a b) : u8FromStrRadix [a, b] = some (pairValue a b) := by
  obtain ⟨ha, hb⟩ := h
  obtain ⟨y, hy⟩ := Option.isSome_iff_exists.mp hb
  have hylt := toDigit_lt hy
  by_cases hsign : a = 43
  · subst hsign
    simp [u8FromStrRadix, pairValue, hy, toDigit_plus]
    omega
  · obtain ⟨x, hx⟩ := Option.isSome_iff_exists.mp (ha.resolve_right hsign)
    have hxlt := toDigit_lt hx
    simp [u8FromStrRadix, pairValue, hx, hy, hsign]
    omega

theorem u8FromStrRadix_none {a b : UInt8} (h : ¬ ReadablePair a b) : u8FromStrRadix [a, b] = none := by
  unfold ReadablePair at h
  cases hb : toDigit (asChar b) with
  | none =>
    by_cases hsign : a = 43
    · subst hsign
      simp [u8FromStrRadix, hb]
    · cases ha : toDigit (asChar a) <;> simp [u8FromStrRadix, hsign, ha, hb]
  | some y =>
    obtain ⟨hdigit, hsign⟩ := not_or.mp fun ha => h ⟨ha, by rw [hb]; rfl⟩
    have ha : toDigit (asChar a) = none := by simpa using hdigit
    simp [u8FromStrRadix, hsign, ha]

/-! ## What the loop returns -/

theorem isCharBoundary_drop {hex rest : Bytes} {a b : UInt8} {i : Nat} (h : hex.drop (i * 2) = a :: b :: rest) :
    isCharBoundary hex (i * 2 + 2) = true ↔ ¬ ∃ c ∈ rest.head?, isContinuation c = true := by
  have hrest : hex.drop (i * 2 + 2) = rest := by
    rw [← List.drop_drop, h]
    rfl
  have hget : hex[i * 2 + 2]? = rest.head? := by
    rw [← hrest, List.head?_drop]
  have hlength := congrArg List.length h
  simp only [List.length_drop, List.length_cons] at hlength
  unfold isCharBoundary
  rw [hget]
  cases rest with
  | nil =>
    rw [List.length_nil] at hlength
    simp only [List.head?_nil, decide_eq_true_eq]
    exact iff_of_true (by omega) (by simp)
  | cons c rest => simp

theorem sliceStr_pair {hex rest : Bytes} {a b : UInt8} {i : Nat} (h : hex.drop (i * 2) = a :: b :: rest)
    (hstart : isCharBoundary hex (i * 2) = true) : sliceStr hex (i * 2) (i * 2 + 2) =
      if isCharBoundary hex (i * 2 + 2) then .ok [a, b] else .error .panic := by
  unfold sliceStr
  rw [h, Nat.add_sub_cancel_left]
  by_cases hstop : isCharBoundary hex (i * 2 + 2) = true
  · rw [if_pos ⟨Nat.le_add_right .., hstart, hstop⟩, if_pos hstop]
    rfl
  · rw [if_neg fun h => hstop h.2.2, if_neg hstop]

structure Decoded (l : Bytes) (result : Except Panic (Option Bytes)) : Prop where
  straddled : Straddled l → result = .error .panic
  readable : ¬ Straddled l → ReadablePairs l → result = .ok (some (pairValues l))
  unreadable : ¬ Straddled l → ¬ ReadablePairs l → result = .ok none

theorem decodePairs_spec {hex : Bytes} : ∀ (n i : Nat) (l : Bytes), hex.drop (i * 2) = l → l.length = 2 * n →
    isCharBoundary hex (i * 2) = true → Decoded l (decodePairs hex i n)
  | 0, _, l, _, hlength, _ => by
    obtain rfl := List.length_eq_zero_iff.mp hlength
    exact ⟨False.elim, fun _ _ => rfl, fun _ h => absurd trivial h⟩
  | n + 1, i, [], _, hlength, _ => by simp at hlength
  | n + 1, i, [_], _, hlength, _ => by simp at hlength; omega
  | n + 1, i, a :: b :: rest, h, hlength, hstart => by
    have hnext := isCharBoundary_drop h
    unfold decodePairs
    rw [sliceStr_pair h hstart]
    by_cases hstop : isCharBoundary hex (i * 2 + 2) = true
    · rw [if_pos hstop]
      have hwhole := hnext.mp hstop
      by_cases hread : ReadablePair a b
      · have hrest : hex.drop ((i + 1) * 2) = rest := by
          rw [Nat.succ_mul, ← List.drop_drop, h]
          rfl
        have ih := decodePairs_spec n (i + 1) rest hrest (by simp at hlength; omega) (by rwa [Nat.succ_mul])
        have hstep : Straddled (a :: b :: rest) ↔ Straddled rest := by
          simp only [Straddled, hwhole, hread, true_and, false_or]
        have hpairs : ReadablePairs (a :: b :: rest) ↔ ReadablePairs rest := by
          simp only [ReadablePairs, hread, true_and]
        simp only [bind, Except.bind, u8FromStrRadix_pair hread]
        refine ⟨fun hs => ?_, fun hs hr => ?_, fun hs hr => ?_⟩
        · rw [ih.straddled (hstep.mp hs)]
        · rw [ih.readable (hstep.not.mp hs) (hpairs.mp hr)]
          rfl
        · rw [ih.unreadable (hstep.not.mp hs) (hpairs.not.mp hr)]
          rfl
      · simp only [bind, Except.bind, u8FromStrRadix_none hread]
        refine ⟨fun hs => ?_, fun _ hr => absurd hr.1 hread, fun _ _ => rfl⟩
        exact (hs.elim hwhole fun hs => hread hs.1).elim
    · rw [if_neg hstop]
      have hcut : Straddled (a :: b :: rest) := .inl (not_not.mp (hnext.not.mp hstop))
      exact ⟨fun _ => rfl, fun hs => absurd hcut hs, fun hs => absurd hcut hs⟩

/-! ## ASCII -/

theorem asBytes_eq (s : String) : asBytes s = s.toList.flatMap String.utf8EncodeChar := by
  have h : s.toByteArray = (s.toList.flatMap String.utf8EncodeChar).toByteArray := String.utf8Encode_toList.symm
  unfold asBytes
  rw [show s.toUTF8 = s.toByteArray from rfl, h]
  simp

theorem utf8EncodeChar_ascii {c : Char} (h : c.toNat < 128) : String.utf8EncodeChar c = [UInt8.ofNat c.toNat] := by
  refine (String.utf8EncodeChar_eq_singleton ?_).trans rfl
  rw [Char.utf8Size_eq_one_iff]
  exact UInt32.le_iff_toNat_le.mpr (Nat.le_of_lt_succ h)

theorem asBytes_ascii {s : String} (h : ∀ c ∈ s.toList, c.toNat < 128) : asBytes s = s.toList.map fun c => UInt8.ofNat c.toNat := by
  rw [asBytes_eq, List.map_eq_flatMap]
  exact List.flatMap_congr fun c hc => utf8EncodeChar_ascii (h c hc)

theorem toNat_asChar (b : UInt8) : (asChar b).toNat = b.toNat := by
  have hlt := b.toNat_lt
  have hvalid : b.toNat.isValidChar := Or.inl (by omega)
  unfold asChar Char.ofNat
  rw [dif_pos hvalid]
  rfl

/-- A text whose bytes are ASCII has these as its characters. -/
theorem toList_ascii {s : String} (h : ∀ b ∈ asBytes s, b.toNat < 128) : s.toList = (asBytes s).map asChar := by
  have hascii : ∀ c ∈ (String.ofList ((asBytes s).map asChar)).toList, c.toNat < 128 := by
    intro c hc
    rw [String.toList_ofList] at hc
    obtain ⟨b, hb, rfl⟩ := List.mem_map.mp hc
    rw [toNat_asChar]
    exact h b hb
  have hbytes : asBytes (String.ofList ((asBytes s).map asChar)) = asBytes s := by
    rw [asBytes_ascii hascii, String.toList_ofList, List.map_map]
    refine (List.map_congr_left fun b _ => ?_).trans (List.map_id _)
    simp only [id_eq, Function.comp_apply, toNat_asChar, UInt8.ofNat_toNat]
  have := congrArg String.toList (asBytes_inj hbytes)
  rw [String.toList_ofList] at this
  exact this.symm

/-! ## Digits and pairs -/

/-- The digit that the encoder writes for a value. -/
def hexDigit (n : Nat) : Char := if n < 10 then Char.ofNat (48 + n) else Char.ofNat (87 + n)

theorem toList_hexEncode (d : Bytes) : (hexEncode d).toList = d.flatMap fun b => [hexDigit (b.toNat / 16), hexDigit (b.toNat % 16)] := by
  simp [hexEncode, hexDigit]

theorem toNat_lt_of_toDigit {c : Char} (h : (toDigit c).isSome = true) : c.toNat < 128 := by
  unfold toDigit at h
  split_ifs at h with h0 ha hA
  · have : c.toNat ≤ '9'.toNat := h0.2
    exact Nat.lt_of_le_of_lt this (by decide)
  · have : c.toNat ≤ 'f'.toNat := ha.2
    exact Nat.lt_of_le_of_lt this (by decide)
  · have : c.toNat ≤ 'F'.toNat := hA.2
    exact Nat.lt_of_le_of_lt this (by decide)
  · cases h

theorem hexDigit_of_toDigit {c : Char} {n : Nat} (h : toDigit c = some n) : hexDigit n = c.toLower := by
  have hall : ∀ m < 128, (toDigit (Char.ofNat m)).all (fun n => hexDigit n = (Char.ofNat m).toLower) = true := by decide
  have hc := hall c.toNat (toNat_lt_of_toDigit (by rw [h]; rfl))
  rw [Char.ofNat_toNat, h] at hc
  simpa using hc

theorem toDigit_hexDigit {n : Nat} (h : n < 16) : toDigit (hexDigit n) = some n := by
  have hall : ∀ m < 16, toDigit (hexDigit m) = some m := by decide
  exact hall n h

theorem hexEncode_inj {d d' : Bytes} (h : hexEncode d = hexEncode d') : d = d' := by
  have hlist := congrArg String.toList h
  rw [toList_hexEncode, toList_hexEncode] at hlist
  clear h
  induction d generalizing d' with
  | nil =>
    cases d' with
    | nil => rfl
    | cons b d' => simp at hlist
  | cons a d ih =>
    cases d' with
    | nil => simp at hlist
    | cons b d' =>
      simp only [List.flatMap_cons, List.cons_append, List.nil_append, List.cons.injEq] at hlist
      obtain ⟨hhigh, hlow, hrest⟩ := hlist
      have halt := a.toNat_lt
      have hblt := b.toNat_lt
      have hhigh := congrArg toDigit hhigh
      have hlow := congrArg toDigit hlow
      rw [toDigit_hexDigit (by omega), toDigit_hexDigit (by omega), Option.some.injEq] at hhigh hlow
      have hbyte : a = b := UInt8.toNat_inj.mp (by omega)
      rw [hbyte, ih hrest]

theorem ReadablePairs.ascii : ∀ {l : Bytes}, ReadablePairs l → ∀ b ∈ l, b.toNat < 128
  | [], _ => nofun
  | [_], h => h.elim
  | a :: b :: rest, ⟨⟨ha, hb⟩, hrest⟩ => by
    have hdigit : ∀ c : UInt8, (toDigit (asChar c)).isSome = true → c.toNat < 128 := fun c hc => by
      rw [← toNat_asChar]
      exact toNat_lt_of_toDigit hc
    intro c hc
    rcases List.mem_cons.mp hc with rfl | hc
    · rcases ha with ha | rfl
      · exact hdigit c ha
      · decide
    rcases List.mem_cons.mp hc with rfl | hc
    · exact hdigit c hb
    · exact hrest.ascii c hc

theorem digits_iff : ∀ {l : Bytes}, Even l.length → ((∀ b ∈ l, (toDigit (asChar b)).isSome = true) ↔ ReadablePairs l ∧ ¬ Signed l)
  | [], _ => iff_of_true nofun ⟨trivial, id⟩
  | [_], h => by simp at h
  | a :: b :: rest, h => by
    have hlength : Even rest.length := by
      simp only [List.length_cons, Nat.even_add_one, not_not] at h
      exact h
    have ih := digits_iff hlength
    have hsign : a = 43 → ¬ (toDigit (asChar a)).isSome = true := by
      rintro rfl
      rw [toDigit_plus]
      exact Bool.false_ne_true
    simp only [List.forall_mem_cons, ih, ReadablePairs, Signed, ReadablePair]
    constructor
    · rintro ⟨ha, hb, hr, hs⟩
      exact ⟨⟨⟨.inl ha, hb⟩, hr⟩, fun h => h.elim (fun e => hsign e ha) hs⟩
    · rintro ⟨⟨⟨ha, hb⟩, hr⟩, hs⟩
      exact ⟨ha.resolve_right fun e => hs (.inl e), hb, hr, fun h => hs (.inr h)⟩

theorem toLower_pairs : ∀ {l : Bytes}, Even l.length → (∀ b ∈ l, (toDigit (asChar b)).isSome = true) →
    (l.map asChar).map Char.toLower = (hexEncode (pairValues l)).toList
  | [], _, _ => rfl
  | [_], h, _ => by simp at h
  | a :: b :: rest, h, hdigits => by
    have hlength : Even rest.length := by
      simp only [List.length_cons, Nat.even_add_one, not_not] at h
      exact h
    simp only [List.forall_mem_cons] at hdigits
    obtain ⟨ha, hb, hrest⟩ := hdigits
    obtain ⟨x, hx⟩ := Option.isSome_iff_exists.mp ha
    obtain ⟨y, hy⟩ := Option.isSome_iff_exists.mp hb
    have hxlt := toDigit_lt hx
    have hylt := toDigit_lt hy
    have hvalue : (pairValue a b).toNat = 16 * x + y := by
      simp only [pairValue, hx, hy, Option.getD_some, UInt8.toNat_ofNat']
      omega
    have ih := toLower_pairs hlength hrest
    rw [toList_hexEncode] at ih ⊢
    have hhigh : (16 * x + y) / 16 = x := by omega
    have hlow : (16 * x + y) % 16 = y := by omega
    rw [pairValues, List.flatMap_cons, hvalue, hhigh, hlow, ← ih, hexDigit_of_toDigit hx, hexDigit_of_toDigit hy]
    rfl

theorem hexOf_iff {s : String} {d : Bytes} : HexOf s d ↔
    (asBytes s).length = 64 ∧ (∀ b ∈ asBytes s, (toDigit (asChar b)).isSome = true) ∧ pairValues (asBytes s) = d := by
  constructor
  · rintro ⟨hlength, hdigits, hspells⟩
    have hbytes := asBytes_ascii fun c hc => toNat_lt_of_toDigit (hdigits c hc)
    have hdigits' : ∀ b ∈ asBytes s, (toDigit (asChar b)).isSome = true := by
      rw [hbytes]
      intro b hb
      obtain ⟨c, hc, rfl⟩ := List.mem_map.mp hb
      have hlt := toNat_lt_of_toDigit (hdigits c hc)
      have hmod : c.toNat % 2 ^ 8 = c.toNat := by omega
      rw [asChar, UInt8.toNat_ofNat', hmod, Char.ofNat_toNat]
      exact hdigits c hc
    have hlength' : (asBytes s).length = 64 := by rw [hbytes, List.length_map, hlength]
    refine ⟨hlength', hdigits', hexEncode_inj ?_⟩
    have hchars := toList_ascii (s := s) fun b hb => by
      rw [← toNat_asChar]
      exact toNat_lt_of_toDigit (hdigits' b hb)
    rw [← hspells, hchars, toLower_pairs (by rw [hlength']; decide) hdigits', String.ofList_toList]
  · rintro ⟨hlength, hdigits, rfl⟩
    have hchars := toList_ascii (s := s) fun b hb => by
      rw [← toNat_asChar]
      exact toNat_lt_of_toDigit (hdigits b hb)
    refine ⟨by rw [hchars, List.length_map, hlength], fun c hc => ?_, ?_⟩
    · rw [hchars] at hc
      obtain ⟨b, hb, rfl⟩ := List.mem_map.mp hc
      exact hdigits b hb
    · rw [hchars, toLower_pairs (by rw [hlength]; decide) hdigits, String.ofList_toList]

theorem hexDecode_spec {s : String} (hlength : (asBytes s).length = 64) : Decoded (asBytes s) (hexDecode s) := by
  have hstart : isCharBoundary (asBytes s) (0 * 2) = true := by
    cases h : asBytes s with
    | nil => rfl
    | cons b rest => rfl
  unfold hexDecode
  rw [if_neg (not_not.mpr hlength)]
  exact decodePairs_spec 32 0 (asBytes s) rfl hlength hstart

/-- The decoder neither panics nor accepts anything but the spelling of what it returns,
unless the text is misread. -/
theorem hexDecode_exact_iff (s : String) : (∃ o, hexDecode s = .ok o ∧ ∀ d, o = some d ↔ HexOf s d) ↔ ¬ Misread (asBytes s) := by
  by_cases hlength : (asBytes s).length = 64
  · have hspec := hexDecode_spec hlength
    have hdigits := digits_iff (l := asBytes s) (by rw [hlength]; decide)
    simp only [hexOf_iff, Misread, hlength, hdigits, true_and, not_or, not_and]
    by_cases hstraddled : Straddled (asBytes s)
    · rw [hspec.straddled hstraddled]
      exact iff_of_false (by rintro ⟨o, ho, _⟩; cases ho) fun h => h.1 hstraddled
    by_cases hread : ReadablePairs (asBytes s)
    · rw [hspec.readable hstraddled hread]
      constructor
      · rintro ⟨o, ho, h⟩
        obtain rfl := Except.ok.inj ho
        exact ⟨hstraddled, fun _ => ((h _).mp rfl).1.2⟩
      · rintro ⟨_, hsigned⟩
        exact ⟨_, rfl, fun d => by simp [hread, hsigned hread]⟩
    · rw [hspec.unreadable hstraddled hread]
      exact iff_of_true ⟨none, rfl, fun d => by simp [hread]⟩ ⟨hstraddled, fun h => absurd h hread⟩
  · have hnone : hexDecode s = .ok none := by
      unfold hexDecode
      rw [if_pos hlength]
      rfl
    exact iff_of_true ⟨none, hnone, fun d => by simp [hexOf_iff, hlength]⟩ fun h => hlength h.1

example : hexDecode "+0000000000000000000000000000000000000000000000000000000000000f0" =
    .ok (some (List.replicate 31 0 ++ [240])) := by decide

/-- The first pair ends inside the second character. -/
theorem hexDecode_panics : ¬ ∀ s, ∃ o, hexDecode s = .ok o ∧ ∀ d, o = some d ↔ HexOf s d := by
  intro h
  obtain ⟨o, ho, _⟩ := h "aé0000000000000000000000000000000000000000000000000000000000000"
  have hpanic : hexDecode "aé0000000000000000000000000000000000000000000000000000000000000" = .error .panic := by decide
  rw [hpanic] at ho
  cases ho

end Ekapkgs
