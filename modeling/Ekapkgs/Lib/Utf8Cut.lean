import Mathlib

/-!
# Text cut at byte positions

A position counts bytes of the UTF-8 form. Where it falls inside a character or
behind the end, there is nothing to cut there.
-/

namespace Utf8Cut

def utf8Len (cs : List Char) : Nat := (cs.map Char.utf8Size).sum

/-- The characters before and after a position. -/
def cut? : Nat → List Char → Option (List Char × List Char)
  | 0, cs => some ([], cs)
  | _ + 1, [] => none
  | n + 1, c :: cs =>
    if c.utf8Size ≤ n + 1 then (cut? (n + 1 - c.utf8Size) cs).map fun (before, after) => (c :: before, after) else none

variable {cs before after before' after' : List Char} {n : Nat}

@[simp]
theorem utf8Len_nil : utf8Len [] = 0 := rfl

@[simp]
theorem utf8Len_cons (c : Char) (cs : List Char) : utf8Len (c :: cs) = c.utf8Size + utf8Len cs := List.sum_cons

@[simp]
theorem utf8Len_append (cs ds : List Char) : utf8Len (cs ++ ds) = utf8Len cs + utf8Len ds := by
  rw [utf8Len, List.map_append, List.sum_append]
  rfl

theorem utf8Len_cons_pos (c : Char) (cs : List Char) : 0 < utf8Len (c :: cs) := by
  have := c.utf8Size_pos
  rw [utf8Len_cons]
  omega

theorem cut?_append : ∀ before after : List Char, cut? (utf8Len before) (before ++ after) = some (before, after)
  | [], after => by cases after <;> rfl
  | c :: before, after => by
    have hpos := c.utf8Size_pos
    obtain ⟨n, hn⟩ : ∃ n, utf8Len (c :: before) = n + 1 := ⟨utf8Len (c :: before) - 1, by have := utf8Len_cons_pos c before; omega⟩
    have hrest : n + 1 - c.utf8Size = utf8Len before := by
      rw [utf8Len_cons] at hn
      omega
    rw [hn, List.cons_append, cut?, hrest, cut?_append before after, if_pos (by rw [utf8Len_cons] at hn; omega)]
    rfl

theorem eq_of_cut? : ∀ {n : Nat} {cs before after : List Char}, cut? n cs = some (before, after) →
    cs = before ++ after ∧ utf8Len before = n
  | 0, cs, _, _, h => by
    unfold cut? at h
    cases h
    exact ⟨rfl, rfl⟩
  | _ + 1, [], _, _, h => by cases h
  | n + 1, c :: cs, _, _, h => by
    unfold cut? at h
    split_ifs at h with hle
    obtain ⟨⟨before, after⟩, hcut, hpair⟩ := Option.map_eq_some_iff.mp h
    obtain ⟨rfl, hlen⟩ := eq_of_cut? hcut
    cases hpair
    exact ⟨rfl, by rw [utf8Len_cons, hlen]; omega⟩

theorem cut?_eq_some : cut? n cs = some (before, after) ↔ cs = before ++ after ∧ utf8Len before = n := by
  refine ⟨eq_of_cut?, fun ⟨heq, hlen⟩ => ?_⟩
  rw [heq, ← hlen]
  exact cut?_append before after

/-- Two cuts at one position are the same. -/
theorem cut_unique (h : before ++ after = before' ++ after') (hlen : utf8Len before = utf8Len before') : before = before' ∧ after = after' := by
  have hcut := cut?_append before after
  rw [h, hlen, cut?_append] at hcut
  cases hcut
  exact ⟨rfl, rfl⟩

/-! ## Finding text -/

/-- The position of the first occurrence. -/
def find? (pat : List Char) : List Char → Option Nat
  | [] => if pat = [] then some 0 else none
  | c :: cs => if pat <+: c :: cs then some 0 else (find? pat cs).map (c.utf8Size + ·)

/-- `pat` occurs at a position, and nowhere before it. -/
structure FirstAt (pat cs : List Char) (n : Nat) : Prop where
  occurs : ∃ before after, cs = before ++ (pat ++ after) ∧ utf8Len before = n
  first : ∀ before after, cs = before ++ (pat ++ after) → n ≤ utf8Len before

variable {pat : List Char}

theorem firstAt_zero (h : pat <+: cs) : FirstAt pat cs 0 := by
  obtain ⟨after, rfl⟩ := h
  exact ⟨⟨[], after, rfl, rfl⟩, fun _ _ _ => Nat.zero_le _⟩

theorem firstAt_cons {c : Char} (hnot : ¬pat <+: c :: cs) (h : FirstAt pat cs n) : FirstAt pat (c :: cs) (c.utf8Size + n) where
  occurs := by
    obtain ⟨before, after, rfl, rfl⟩ := h.occurs
    exact ⟨c :: before, after, rfl, utf8Len_cons c before⟩
  first := by
    rintro (_ | ⟨d, before⟩) after heq
    · exact absurd ⟨after, heq.symm⟩ hnot
    · obtain ⟨rfl, htail⟩ := List.cons.inj heq
      have := h.first before after htail
      rw [utf8Len_cons]
      omega

theorem firstAt_of_find? : ∀ {cs : List Char} {n : Nat}, find? pat cs = some n → FirstAt pat cs n
  | [], n, h => by
    unfold find? at h
    split_ifs at h with hnil
    cases h
    exact firstAt_zero (by rw [hnil])
  | c :: cs, n, h => by
    unfold find? at h
    split_ifs at h with hprefix
    · cases h
      exact firstAt_zero hprefix
    · obtain ⟨m, hfind, rfl⟩ := Option.map_eq_some_iff.mp h
      exact firstAt_cons hprefix (firstAt_of_find? hfind)

theorem find?_of_infix : ∀ {cs : List Char}, pat <:+: cs → ∃ n, find? pat cs = some n
  | [], h => ⟨0, by rw [find?, if_pos (List.eq_nil_of_infix_nil h)]⟩
  | c :: cs, h => by
    unfold find?
    by_cases hprefix : pat <+: c :: cs
    · exact ⟨0, if_pos hprefix⟩
    · obtain ⟨n, hn⟩ := find?_of_infix ((List.infix_cons_iff.mp h).resolve_left hprefix)
      exact ⟨c.utf8Size + n, by rw [if_neg hprefix, hn]; rfl⟩

theorem FirstAt.unique {m : Nat} (h : FirstAt pat cs n) (h' : FirstAt pat cs m) : n = m := by
  obtain ⟨before, after, heq, hlen⟩ := h.occurs
  obtain ⟨before', after', heq', hlen'⟩ := h'.occurs
  have hle := h.first before' after' heq'
  have hge := h'.first before after heq
  omega

theorem find?_eq_some : find? pat cs = some n ↔ FirstAt pat cs n := by
  refine ⟨firstAt_of_find?, fun h => ?_⟩
  obtain ⟨before, after, heq, -⟩ := h.occurs
  have hinfix : pat <:+: cs := ⟨before, after, by rw [heq, List.append_assoc]⟩
  obtain ⟨m, hm⟩ := find?_of_infix hinfix
  rw [hm, (firstAt_of_find? hm).unique h]

theorem find?_eq_none : find? pat cs = none ↔ ¬pat <:+: cs := by
  refine ⟨fun hnone hinfix => ?_, fun hnot => ?_⟩
  · obtain ⟨n, hn⟩ := find?_of_infix hinfix
    rw [hnone] at hn
    cases hn
  · cases hfind : find? pat cs with
    | none => rfl
    | some n =>
      obtain ⟨before, after, heq, -⟩ := (firstAt_of_find? hfind).occurs
      exact absurd ⟨before, after, by rw [heq, List.append_assoc]⟩ hnot

end Utf8Cut
