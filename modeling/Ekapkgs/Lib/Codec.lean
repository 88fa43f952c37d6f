/-!
# Prefix codecs

An encoder and a decoder that reads the encoding off the front of any longer
input. The law is a field, so codecs compose and every one of them round-trips.
-/

structure Codec (τ α : Type) where
  enc : α → List τ
  dec : List τ → Option (α × List τ)
  dec_enc : ∀ a rest, dec (enc a ++ rest) = some (a, rest)

namespace Codec
variable {τ α β : Type}

/-- The decoder of a whole input. -/
def decode (c : Codec τ α) (input : List τ) : Option α := (c.dec input).map Prod.fst

theorem decode_enc (c : Codec τ α) (a : α) : c.decode (c.enc a) = some a := by
  have h := c.dec_enc a []
  rw [List.append_nil] at h
  rw [decode, h]; rfl

/-- Carry a codec along a map with a partial inverse. -/
def map (c : Codec τ α) (f : β → α) (g : α → Option β) (h : ∀ b, g (f b) = some b) : Codec τ β where
  enc b := c.enc (f b)
  dec input := (c.dec input).bind fun r => (g r.1).map fun b => (b, r.2)
  dec_enc b rest := by rw [c.dec_enc, Option.bind_some, h]; rfl

def item : Codec τ τ where
  enc a := [a]
  dec
    | a :: rest => some (a, rest)
    | [] => none
  dec_enc _ _ := rfl

def prod (c : Codec τ α) (d : Codec τ β) : Codec τ (α × β) where
  enc p := c.enc p.1 ++ d.enc p.2
  dec input := (c.dec input).bind fun r => (d.dec r.2).map fun r' => ((r.1, r'.1), r'.2)
  dec_enc p rest := by rw [List.append_assoc, c.dec_enc, Option.bind_some, d.dec_enc]; rfl

/-- A marker, true or false by whether it equals `one`. -/
def bool [DecidableEq τ] (zero one : τ) (h : zero ≠ one) : Codec τ Bool :=
  item.map (fun b => if b then one else zero) (fun a => some (decide (a = one))) fun b => by
    cases b <;> simp [h]

section
variable (flag : Codec τ Bool)

def option (c : Codec τ α) : Codec τ (Option α) where
  enc
    | some a => flag.enc true ++ c.enc a
    | none => flag.enc false
  dec input := (flag.dec input).bind fun r =>
    if r.1 then (c.dec r.2).map fun r' => (some r'.1, r'.2) else some (none, r.2)
  dec_enc a rest := by
    cases a with
    | some a => simp [flag.dec_enc, c.dec_enc]
    | none => simp [flag.dec_enc]

def encList (c : Codec τ α) : List α → List τ
  | [] => flag.enc false
  | a :: as => flag.enc true ++ c.enc a ++ encList c as

/-- The fuel is the length of the input, which bounds the number of items. -/
def decList (c : Codec τ α) : Nat → List τ → Option (List α × List τ)
  | 0, _ => none
  | fuel + 1, input => (flag.dec input).bind fun r =>
    if r.1 then (c.dec r.2).bind fun r' => (decList c fuel r'.2).map fun r'' => (r'.1 :: r''.1, r''.2)
    else some ([], r.2)

theorem decList_encList (hflag : ∀ b, flag.enc b ≠ []) (c : Codec τ α) : ∀ (as : List α) (rest : List τ) (fuel : Nat),
    (encList flag c as ++ rest).length < fuel → decList flag c fuel (encList flag c as ++ rest) = some (as, rest)
  | [], rest, fuel + 1, _ => by simp [encList, decList, flag.dec_enc]
  | a :: as, rest, fuel + 1, h => by
    have hpos : 0 < (flag.enc true).length := List.length_pos_iff.mpr (hflag true)
    have ih := decList_encList hflag c as rest fuel (by
      simp only [encList, List.length_append] at h ⊢; omega)
    simp only [encList, decList, List.append_assoc, flag.dec_enc, Option.bind_some, if_true, c.dec_enc, ih,
      Option.map_some]

def list (hflag : ∀ b, flag.enc b ≠ []) (c : Codec τ α) : Codec τ (List α) where
  enc := encList flag c
  dec input := decList flag c (input.length + 1) input
  dec_enc as rest := decList_encList flag hflag c as rest _ (Nat.lt_succ_self _)

def unit : Codec τ Unit where
  enc _ := []
  dec input := some ((), input)
  dec_enc _ _ := rfl

/-- A number in unary. -/
def nat (hflag : ∀ b, flag.enc b ≠ []) : Codec τ Nat :=
  (list flag hflag unit).map (fun n => List.replicate n ()) (fun l => some l.length) fun n => by simp

end

/-! ## Text -/

section
variable [DecidableEq τ]

/-- A fixed text. -/
def literal (text : List τ) : Codec τ Unit where
  enc _ := text
  dec input := if text <+: input then some ((), input.drop text.length) else none
  dec_enc _ rest := by simp

def preceded (text : List τ) (c : Codec τ α) : Codec τ α :=
  ((literal text).prod c).map (fun a => ((), a)) (fun p => some p.2) fun _ => rfl

def followed (c : Codec τ α) (text : List τ) : Codec τ α :=
  (c.prod (literal text)).map (fun a => (a, ())) (fun p => some p.1) fun _ => rfl

theorem not_prefix_of_differ : ∀ {a b : List τ} (rest : List τ), (a.zip b).any (fun p => p.1 ≠ p.2) = true → ¬ a <+: b ++ rest
  | [], _, _, h => by simp at h
  | _ :: _, [], _, h => by simp at h
  | x :: a, y :: b, rest, h => by
    rw [List.zip_cons_cons, List.any_cons, Bool.or_eq_true] at h
    rw [List.cons_append, List.cons_prefix_cons]
    rintro ⟨hxy, hprefix⟩
    rcases h with h | h
    · exact absurd hxy (of_decide_eq_true h)
    · exact not_prefix_of_differ rest h hprefix

/-- One of two texts that differ somewhere. -/
def choice (no yes : List τ) (h : (yes.zip no).any (fun p => p.1 ≠ p.2) = true) : Codec τ Bool where
  enc b := if b then yes else no
  dec input :=
    if yes <+: input then some (true, input.drop yes.length)
    else if no <+: input then some (false, input.drop no.length)
    else none
  dec_enc b rest := by
    cases b with
    | true => simp
    | false => simp [not_prefix_of_differ rest h]

/-- What does not contain `stop`, up to a `stop`. -/
def terminated (stop : τ) (f : α → List τ) (g : List τ → Option α) (hstop : ∀ a, stop ∉ f a)
    (hg : ∀ a, g (f a) = some a) : Codec τ α where
  enc a := f a ++ [stop]
  dec input := (g (input.takeWhile fun x => x ≠ stop)).map fun a => (a, (input.dropWhile fun x => x ≠ stop).tail)
  dec_enc a rest := by
    have hne : ∀ x ∈ f a, decide (x ≠ stop) = true := fun x hx => decide_eq_true fun h => hstop a (h ▸ hx)
    rw [List.append_assoc, List.takeWhile_append_of_pos hne, List.dropWhile_append_of_pos hne]
    simp [hg]

def escape (quote backslash : τ) (x : τ) : List τ := if x = quote ∨ x = backslash then [backslash, x] else [x]

def unescape (quote backslash : τ) : List τ → Option (List τ × List τ)
  | [] => none
  | x :: rest =>
    if x = backslash then
      match rest with
      | [] => none
      | y :: rest => (unescape quote backslash rest).map fun r => (y :: r.1, r.2)
    else if x = quote then some ([], rest)
    else (unescape quote backslash rest).map fun r => (x :: r.1, r.2)

theorem unescape_escape {quote backslash : τ} (h : quote ≠ backslash) (rest : List τ) : ∀ text : List τ,
    unescape quote backslash (text.flatMap (escape quote backslash) ++ quote :: rest) = some (text, rest)
  | [] => by
    rw [List.flatMap_nil, List.nil_append, unescape.eq_def]
    dsimp only
    rw [if_neg h, if_pos rfl]
  | x :: text => by
    have ih := unescape_escape h rest text
    rw [List.flatMap_cons, List.append_assoc]
    by_cases hx : x = quote ∨ x = backslash
    · simp [escape, if_pos hx, unescape, ih]
    · obtain ⟨hq, hb⟩ := not_or.mp hx
      rw [escape, if_neg hx, List.singleton_append, unescape.eq_def]
      dsimp only
      rw [if_neg hb, if_neg hq, ih]; rfl

/-- A text up to a quote, with the quotes in it escaped. -/
def quoted (quote backslash : τ) (h : quote ≠ backslash) : Codec τ (List τ) where
  enc text := text.flatMap (escape quote backslash) ++ [quote]
  dec := unescape quote backslash
  dec_enc text rest := by rw [List.append_assoc]; exact unescape_escape h rest text

end

/-- The decoder of a whole input that takes nothing but encodings. -/
def decodeExact [DecidableEq τ] (c : Codec τ α) (input : List τ) : Option α :=
  (c.decode input).filter fun a => c.enc a = input

theorem decodeExact_enc [DecidableEq τ] (c : Codec τ α) (a : α) : c.decodeExact (c.enc a) = some a := by
  simp [decodeExact, c.decode_enc]

theorem decodeExact_prefix [DecidableEq τ] (c : Codec τ α) (a : α) {n : Nat} (h : n < (c.enc a).length) :
    c.decodeExact ((c.enc a).take n) = none := by
  rw [decodeExact, Option.filter_eq_none_iff]
  intro b _ henc
  have henc : c.enc b = (c.enc a).take n := of_decide_eq_true henc
  -- the decoder reads `b` off the front of the encoding of `a`
  have hsplit : c.enc a = c.enc b ++ (c.enc a).drop n := by rw [henc, List.take_append_drop]
  have hread := c.dec_enc b ((c.enc a).drop n)
  rw [← hsplit, ← List.append_nil (c.enc a), c.dec_enc] at hread
  have hnil := congrArg (fun r => (r.map Prod.snd).map List.length) hread
  simp at hnil
  omega

end Codec
