import Mathlib

/-!
# Cutting a stream into blocks

A buffer collects what is written to it and sends a block whenever it has
`size` items. What it still holds is shorter than a block, as a field says, so
writing terminates and a buffer of size zero does not exist.
-/

namespace Blocks

structure Buffer (α : Type) (size : Nat) where
  buf : List α
  sent : List (List α)
  short : buf.length < size

namespace Buffer
variable {α : Type} {size : Nat}

def new (h : 0 < size) : Buffer α size := ⟨[], [], h⟩

def write (b : Buffer α size) (data : List α) : Buffer α size :=
  if _ : data = [] then b
  else
    let buf := b.buf ++ data.take (size - b.buf.length)
    let rest := data.drop (size - b.buf.length)
    if h : size ≤ buf.length then write ⟨[], b.sent ++ [buf], (Nat.zero_le _).trans_lt b.short⟩ rest
    else write ⟨buf, b.sent, Nat.lt_of_not_le h⟩ rest
termination_by data.length
decreasing_by all_goals
  have := b.short
  have := List.length_pos_of_ne_nil ‹data ≠ []›
  rw [List.length_drop]; omega

/-- Send what is left, if anything is. -/
def flush (b : Buffer α size) : List (List α) := if b.buf = [] then b.sent else b.sent ++ [b.buf]

/-- Everything written so far. -/
def contents (b : Buffer α size) : List α := b.sent.flatten ++ b.buf

@[simp] theorem write_nil (b : Buffer α size) : b.write [] = b := by rw [write, dif_pos rfl]

/-- What does not fill a block is kept. -/
theorem sent_write_of_short (b : Buffer α size) (data : List α) (h : b.buf.length + data.length < size) : (b.write data).sent = b.sent := by
  by_cases hdata : data = []
  · rw [hdata, write_nil]
  · have hrest : data.drop (size - b.buf.length) = [] := List.drop_of_length_le (by omega)
    have hbuf : ¬ size ≤ (b.buf ++ data.take (size - b.buf.length)).length := by
      rw [List.length_append, List.length_take]
      omega
    rw [write, dif_neg hdata]
    simp only [dif_neg hbuf, hrest, write_nil]

theorem contents_write (b : Buffer α size) (data : List α) : (b.write data).contents = b.contents ++ data := by
  fun_induction write b data with
  | case1 b => simp
  | case2 b data hne buf rest hfull ih => rw [ih]; simp [contents, buf, rest]
  | case3 b data hne buf rest hfull ih => rw [ih]; simp [contents, buf, rest]

theorem flatten_flush (b : Buffer α size) : b.flush.flatten = b.contents := by
  unfold flush contents
  by_cases h : b.buf = []
  · rw [if_pos h, h, List.append_nil]
  · rw [if_neg h, List.flatten_append, List.flatten_singleton]

/-- What is sent before the last flush is a prefix, short of less than a block. -/
theorem sent_prefix (b : Buffer α size) : b.sent.flatten <+: b.contents := List.prefix_append ..

theorem contents_length_lt (b : Buffer α size) : b.contents.length < b.sent.flatten.length + size := by
  rw [contents, List.length_append]
  exact Nat.add_lt_add_left b.short _

/-- Every block sent has the size. -/
theorem sent_length (b : Buffer α size) (data : List α) (h : ∀ s ∈ b.sent, s.length = size) :
    ∀ s ∈ (b.write data).sent, s.length = size := by
  fun_induction write b data with
  | case1 b => exact h
  | case2 b data hne buf rest hfull ih =>
    refine ih fun s hs => ?_
    rcases List.mem_append.mp hs with hs | hs
    · exact h s hs
    · have := b.short
      rw [List.mem_singleton.mp hs]
      refine Nat.le_antisymm ?_ hfull
      simp only [buf, List.length_append, List.length_take]; omega
  | case3 b data hne buf rest hfull ih => exact ih h

theorem mem_flush (b : Buffer α size) (h : ∀ s ∈ b.sent, s.length = size) : ∀ s ∈ b.flush, s ≠ [] ∧ s.length ≤ size := by
  have hpos : 0 < size := (Nat.zero_le _).trans_lt b.short
  have hsent : ∀ s ∈ b.sent, s ≠ [] ∧ s.length ≤ size := fun s hs =>
    ⟨List.ne_nil_of_length_pos ((h s hs).symm ▸ hpos), Nat.le_of_eq (h s hs)⟩
  intro s hs
  unfold flush at hs
  split_ifs at hs with hbuf
  · exact hsent s hs
  · rcases List.mem_append.mp hs with hs | hs
    · exact hsent s hs
    · rw [List.mem_singleton.mp hs]
      exact ⟨hbuf, Nat.le_of_lt b.short⟩

/-- The blocks are everything written only if nothing is left over. -/
theorem sent_eq_contents_iff (b : Buffer α size) (h : ∀ s ∈ b.sent, s.length = size) :
    b.sent.flatten = b.contents ↔ size ∣ b.contents.length := by
  have hsent : b.sent.flatten.length = size * b.sent.length := by
    rw [List.length_flatten, List.map_congr_left h, List.map_const', List.sum_replicate, smul_eq_mul, Nat.mul_comm]
  have hshort := b.short
  unfold contents
  rw [List.length_append, hsent]
  constructor
  · intro heq
    have hbuf : b.buf = [] := List.self_eq_append_right.mp heq
    rw [hbuf]
    exact Nat.dvd_mul_right size _
  · intro hdvd
    have hbuf : b.buf.length = 0 := Nat.eq_zero_of_dvd_of_lt ((Nat.dvd_add_right (Nat.dvd_mul_right size _)).mp hdvd) hshort
    rw [List.length_eq_zero_iff.mp hbuf, List.append_nil]

/-- How the data is divided into writes does not matter. -/
theorem write_append (b : Buffer α size) (data more : List α) : b.write (data ++ more) = (b.write data).write more := by
  fun_induction write b data with
  | case1 b => rfl
  | case2 b data hne buf rest hfull ih =>
    have hk : size - b.buf.length ≤ data.length := by
      have := b.short
      simp only [buf, List.length_append, List.length_take] at hfull; omega
    rw [write, dif_neg (by simp [hne])]
    simp only [List.take_append_of_le_length hk, List.drop_append_of_le_length hk]
    rw [dif_pos hfull, ih]
  | case3 b data hne buf rest hfull ih =>
    have hk : data.length ≤ size - b.buf.length := by
      simp only [buf, List.length_append, List.length_take] at hfull; omega
    have hbuf : buf = b.buf ++ data := by simp only [buf, List.take_of_length_le hk]
    have hrest : rest = [] := by simp only [rest, List.drop_of_length_le hk]
    rw [hrest, write_nil]
    by_cases hmore : more = []
    · subst hmore
      rw [List.append_nil, write_nil, write, dif_neg hne]
      simp only [buf] at hfull ⊢
      rw [dif_neg hfull]
      simp only [List.drop_of_length_le hk, write_nil]
    · have hsize : size - (b.buf ++ data).length = size - b.buf.length - data.length := by
        rw [List.length_append]; omega
      rw [write, dif_neg (by simp [hne]), write, dif_neg hmore]
      simp only [hbuf, hsize, List.take_append, List.drop_append, List.take_of_length_le hk, List.drop_of_length_le hk,
        List.nil_append, List.append_assoc]

theorem foldl_write (b : Buffer α size) (pieces : List (List α)) : pieces.foldl write b = b.write pieces.flatten := by
  induction pieces generalizing b with
  | nil => rw [List.foldl_nil, List.flatten_nil, write_nil]
  | cons piece pieces ih => rw [List.foldl_cons, ih, List.flatten_cons, write_append]

end Buffer
end Blocks
