import Ekapkgs.Lib.Descent
import Ekapkgs.NarSound

/-!
# The fields of an archive

`Fields` describes the bytes that `read_str` reads without mentioning a reader: a
length, the bytes, and a padding that can be anything and is not even there at the
end of the archive.
-/

namespace Ekapkgs
open Fallible Descent

def paddingLength (len : Nat) : Nat := (8 - len % 8) % 8

inductive FieldBytes : List Bytes → Bytes → Prop
  | nil : FieldBytes [] []
  | cons {s pad bs : Bytes} {xs : List Bytes} : pad.length = paddingLength s.length → FieldBytes xs bs →
      FieldBytes (s :: xs) (toLeBytes 8 s.length ++ s ++ pad ++ bs)

/-- The bytes begin with these fields. -/
inductive Fields : List Bytes → Bytes → Prop
  | nil (rest : Bytes) : Fields [] rest
  | cons {s pad rest : Bytes} {xs : List Bytes} : pad.length = paddingLength s.length → Fields xs rest →
      Fields (s :: xs) (toLeBytes 8 s.length ++ s ++ pad ++ rest)
  | last {s pad : Bytes} : pad.length < paddingLength s.length → Fields [s] (toLeBytes 8 s.length ++ s ++ pad)

/-! ## Lengths -/

theorem fromLeBytes_lt : ∀ bs : Bytes, fromLeBytes bs < 256 ^ bs.length
  | [] => Nat.one_pos
  | b :: bs => by
    have hb : b.toNat < 256 := b.toNat_lt
    have := fromLeBytes_lt bs
    rw [fromLeBytes, List.length_cons, Nat.pow_succ]
    omega

theorem toLeBytes_fromLeBytes : ∀ bs : Bytes, toLeBytes bs.length (fromLeBytes bs) = bs
  | [] => rfl
  | b :: bs => by
    have hb : b.toNat < 256 := b.toNat_lt
    have hmod : (b.toNat + 256 * fromLeBytes bs) % 256 = b.toNat := by omega
    have hdiv : (b.toNat + 256 * fromLeBytes bs) / 256 = fromLeBytes bs := by omega
    rw [fromLeBytes, List.length_cons, toLeBytes, hmod, hdiv, toLeBytes_fromLeBytes bs, UInt8.ofNat_toNat]

variable {data : Bytes} {pos : Nat} {r : NarReader} {s : Bytes} {xs : List Bytes}

/-- What `read_u64` returns stands at the cursor. -/
theorem readU64_ok_iff {n : Nat} : readU64 ⟨data, pos⟩ = .ok n r ↔
    r = ⟨data, pos + 8⟩ ∧ n < 2 ^ 64 ∧ ∃ rest, data.drop pos = toLeBytes 8 n ++ rest := by
  unfold readU64
  dsimp only
  constructor
  · intro h
    by_cases hpos : pos + 8 ≤ data.length
    · rw [if_pos hpos] at h
      cases h
      have hlength : ((data.drop pos).take 8).length = 8 := by simp; omega
      have hlt := fromLeBytes_lt ((data.drop pos).take 8)
      have hbytes := toLeBytes_fromLeBytes ((data.drop pos).take 8)
      rw [hlength] at hlt hbytes
      exact ⟨rfl, hlt, (data.drop pos).drop 8, by rw [hbytes, List.take_append_drop]⟩
    · rw [if_neg hpos] at h
      cases h
  · rintro ⟨rfl, hn, rest, hdrop⟩
    have hlength := congrArg List.length hdrop
    rw [List.length_drop, List.length_append, toLeBytes_length] at hlength
    rw [if_pos (by omega), hdrop, List.take_append_of_le_length (by simp), List.take_of_length_le (by simp), fromLeBytes_toLeBytes,
      Nat.mod_eq_of_lt (by omega)]

theorem readStr_ok_iff (hdata : data.length < 2 ^ 64) : readStr ⟨data, pos⟩ = .ok s r ↔
    r = ⟨data, pos + 8 + s.length + paddingLength s.length⟩ ∧ ∃ rest, data.drop pos = toLeBytes 8 s.length ++ s ++ rest := by
  constructor
  · intro h
    obtain ⟨n, t, hn, hs⟩ := bind_ok.mp h
    obtain ⟨rfl, -, rest, hdrop⟩ := readU64_ok_iff.mp hn
    have hrest : data.drop (pos + 8) = rest := by
      rw [← List.drop_drop, hdrop, List.drop_append_of_le_length (by simp), List.drop_of_length_le (by simp), List.nil_append]
    unfold readBytes at hs
    dsimp only at hs
    split_ifs at hs with hover hlength
    cases hs
    have hle : n ≤ rest.length := by rw [← hrest, List.length_drop]; omega
    rw [hrest, List.length_take, Nat.min_eq_left hle]
    exact ⟨rfl, rest.drop n, by rw [hdrop, List.append_assoc, List.take_append_drop]⟩
  · rintro ⟨rfl, rest, hdrop⟩
    have hlength := congrArg List.length hdrop
    simp only [List.length_drop, List.length_append, toLeBytes_length] at hlength
    have hrest : data.drop (pos + 8) = s ++ rest := by
      rw [← List.drop_drop, hdrop, List.append_assoc, List.drop_append_of_le_length (by simp), List.drop_of_length_le (by simp), List.nil_append]
    refine bind_ok.mpr ⟨s.length, _, readU64_ok_iff.mpr ⟨rfl, by omega, s ++ rest, by rw [hdrop, List.append_assoc]⟩, ?_⟩
    unfold readBytes
    dsimp only
    rw [if_neg (by omega), if_pos (by omega), hrest, List.take_left]
    rfl

/-- A length that the bounds check cannot add. -/
theorem faultsAt_iff : FaultsAt readStr .overflow ⟨data, pos⟩ ↔
    ∃ n rest, n < 2 ^ 64 ∧ data.drop pos = toLeBytes 8 n ++ rest ∧ 2 ^ 64 ≤ pos + 8 + n := by
  constructor
  · rintro ⟨t, h⟩
    cases hn : readU64 ⟨data, pos⟩ with
    | error e t' =>
      rw [show readStr ⟨data, pos⟩ = _ from bind_of_error hn] at h
      cases h
      unfold readU64 at hn
      split_ifs at hn
      cases hn
    | ok n t' =>
      rw [show readStr ⟨data, pos⟩ = _ from bind_of_ok hn] at h
      obtain ⟨rfl, hlt, rest, hdrop⟩ := readU64_ok_iff.mp hn
      unfold readBytes at h
      dsimp only at h
      by_cases hover : 2 ^ 64 ≤ pos + 8 + n
      · exact ⟨n, rest, hlt, hdrop, hover⟩
      · rw [if_neg hover] at h
        split_ifs at h
        cases h
  · rintro ⟨n, rest, hlt, hdrop, hover⟩
    refine ⟨⟨data, pos + 8⟩, (bind_of_ok (readU64_ok_iff.mpr ⟨rfl, hlt, rest, hdrop⟩)).trans ?_⟩
    unfold readBytes
    exact if_pos hover

/-! ## Reading fields -/

theorem Fields.eq_nil (h : Fields xs []) : xs = [] := by
  generalize hbs : ([] : Bytes) = bs at h
  cases h with
  | nil => rfl
  | cons => simp [toLeBytes] at hbs
  | last => simp [toLeBytes] at hbs

theorem drop_field {pad rest : Bytes} (hpad : pad.length = paddingLength s.length) (h : data.drop pos = toLeBytes 8 s.length ++ s ++ pad ++ rest) :
    data.drop (pos + 8 + s.length + paddingLength s.length) = rest := by
  have hlength : (toLeBytes 8 s.length ++ s ++ pad).length = 8 + s.length + paddingLength s.length := by
    rw [List.length_append, List.length_append, toLeBytes_length, hpad]
  rw [show pos + 8 + s.length + paddingLength s.length = pos + (toLeBytes 8 s.length ++ s ++ pad).length by omega, ← List.drop_drop, h, List.drop_left]

theorem reads_iff (hdata : data.length < 2 ^ 64) : ∀ {xs : List Bytes} {pos : Nat},
    (∃ r, Reads readStr ⟨data, pos⟩ xs r) ↔ Fields xs (data.drop pos)
  | [], pos => ⟨fun _ => .nil _, fun _ => ⟨_, .nil _⟩⟩
  | s :: xs, pos => by
    constructor
    · rintro ⟨r, hreads⟩
      obtain ⟨t, ht, hrest⟩ := reads_cons_iff.mp hreads
      obtain ⟨rfl, rest, hdrop⟩ := (readStr_ok_iff hdata).mp ht
      have hxs := (reads_iff hdata).mp ⟨r, hrest⟩
      by_cases hpad : paddingLength s.length ≤ rest.length
      · have hsplit : data.drop pos = toLeBytes 8 s.length ++ s ++ rest.take (paddingLength s.length) ++ rest.drop (paddingLength s.length) := by
          rw [List.append_assoc _ (rest.take _), List.take_append_drop, hdrop]
        have hlength : (rest.take (paddingLength s.length)).length = paddingLength s.length := by rw [List.length_take, Nat.min_eq_left hpad]
        rw [drop_field hlength hsplit] at hxs
        exact hsplit ▸ .cons hlength hxs
      · have hend : data.drop (pos + 8 + s.length + paddingLength s.length) = [] := by
          have hlength := congrArg List.length hdrop
          simp only [List.length_drop, List.length_append, toLeBytes_length] at hlength
          exact List.drop_of_length_le (by omega)
        rw [hend] at hxs
        rw [hxs.eq_nil, hdrop]
        exact .last (Nat.lt_of_not_le hpad)
    · intro h
      generalize hbs : data.drop pos = bs at h
      cases h with
      | cons hpad hxs =>
        have hread := (readStr_ok_iff hdata).mpr ⟨rfl, _, hbs.trans (List.append_assoc ..)⟩
        rw [← drop_field hpad hbs] at hxs
        obtain ⟨r, hr⟩ := (reads_iff hdata).mpr hxs
        exact ⟨r, .cons hread hr⟩
      | last hpad => exact ⟨_, .cons ((readStr_ok_iff hdata).mpr ⟨rfl, _, hbs⟩) (.nil _)⟩

theorem reads_forward (hdata : data.length < 2 ^ 64) : ∀ {xs : List Bytes} {pos : Nat}, Reads readStr ⟨data, pos⟩ xs r →
    r.data = data ∧ pos + 8 * xs.length ≤ r.pos
  | [], pos, h => by
    cases reads_nil_iff.mp h
    exact ⟨rfl, Nat.le_refl _⟩
  | s :: xs, pos, h => by
    obtain ⟨t, ht, hrest⟩ := reads_cons_iff.mp h
    obtain ⟨rfl, -⟩ := (readStr_ok_iff hdata).mp ht
    obtain ⟨hsame, hpos⟩ := reads_forward hdata hrest
    refine ⟨hsame, ?_⟩
    rw [List.length_cons]
    omega

theorem fieldBytes_cons_iff {all : Bytes} : FieldBytes (s :: xs) all ↔
    ∃ pad bs, pad.length = paddingLength s.length ∧ FieldBytes xs bs ∧ all = toLeBytes 8 s.length ++ s ++ pad ++ bs := by
  constructor
  · rintro (_ | ⟨hpad, hbs⟩)
    exact ⟨_, _, hpad, hbs, rfl⟩
  · rintro ⟨pad, bs, hpad, hbs, rfl⟩
    exact .cons hpad hbs

/-- Fields that are followed by more have their padding. -/
theorem reads_full_iff (hdata : data.length < 2 ^ 64) : ∀ {xs : List Bytes} {pos : Nat} {r : NarReader}, pos ≤ data.length →
    (Reads readStr ⟨data, pos⟩ xs r ∧ r.pos ≤ data.length ↔ ∃ bs, FieldBytes xs bs ∧ bs <+: data.drop pos ∧ r = ⟨data, pos + bs.length⟩)
  | [], pos, r, hpos => by
    constructor
    · rintro ⟨hreads, -⟩
      exact ⟨[], .nil, List.nil_prefix, reads_nil_iff.mp hreads⟩
    · rintro ⟨bs, hbs, -, rfl⟩
      cases hbs
      exact ⟨.nil _, hpos⟩
  | s :: xs, pos, r, hpos => by
    constructor
    · rintro ⟨hreads, hend⟩
      obtain ⟨t, ht, hrest⟩ := reads_cons_iff.mp hreads
      obtain ⟨rfl, rest, hdrop⟩ := (readStr_ok_iff hdata).mp ht
      have hforward := (reads_forward hdata hrest).2
      have hlength := congrArg List.length hdrop
      simp only [List.length_drop, List.length_append, toLeBytes_length] at hlength
      have hsplit : data.drop pos = toLeBytes 8 s.length ++ s ++ rest.take (paddingLength s.length) ++ rest.drop (paddingLength s.length) := by
        rw [List.append_assoc _ (rest.take _), List.take_append_drop, hdrop]
      have hpad : (rest.take (paddingLength s.length)).length = paddingLength s.length := by
        rw [List.length_take, Nat.min_eq_left]
        omega
      obtain ⟨bs, hbs, hprefix, rfl⟩ := (reads_full_iff hdata (by omega)).mp ⟨hrest, hend⟩
      rw [drop_field hpad hsplit] at hprefix
      refine ⟨_, .cons hpad hbs, ?_, ?_⟩
      · rw [hsplit]
        exact (List.prefix_append_right_inj _).mpr hprefix
      · simp only [List.length_append, toLeBytes_length, hpad, NarReader.mk.injEq, true_and]
        omega
    · rintro ⟨_, hfield, ⟨rest, hrest⟩, rfl⟩
      obtain ⟨pad, bs, hpad, hxs, rfl⟩ := fieldBytes_cons_iff.mp hfield
      rw [List.append_assoc] at hrest
      have hread := (readStr_ok_iff hdata).mpr ⟨rfl, _, hrest.symm.trans (List.append_assoc ..)⟩
      have hlength := congrArg List.length hrest
      simp only [List.length_drop, List.length_append, toLeBytes_length, hpad] at hlength
      have hstart : pos + 8 + s.length + paddingLength s.length ≤ data.length := by omega
      have hprefix : bs <+: data.drop (pos + 8 + s.length + paddingLength s.length) := by
        rw [drop_field hpad hrest.symm]
        exact List.prefix_append bs rest
      obtain ⟨hreads, -⟩ := (reads_full_iff hdata hstart).mpr ⟨bs, hxs, hprefix, rfl⟩
      have hend : pos + 8 + s.length + paddingLength s.length + bs.length = pos + (toLeBytes 8 s.length ++ s ++ pad ++ bs).length := by
        simp only [List.length_append, toLeBytes_length, hpad]
        omega
      rw [← hend]
      refine ⟨.cons hread hreads, ?_⟩
      show pos + 8 + s.length + paddingLength s.length + bs.length ≤ data.length
      omega

end Ekapkgs
