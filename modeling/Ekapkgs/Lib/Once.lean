import Mathlib.Data.List.Dedup
import Mathlib.Data.List.Induction

/-!
# First occurrences

The items of a list, each where it stands first.
-/

namespace Once

variable {α : Type*} [DecidableEq α]

def once (l : List α) : List α := l.reverse.dedup.reverse

@[simp] theorem once_nil : once ([] : List α) = [] := rfl

theorem once_concat (l : List α) (a : α) : once (l ++ [a]) = if a ∈ l then once l else once l ++ [a] := by
  unfold once
  rw [List.reverse_append, List.reverse_singleton, List.singleton_append]
  by_cases h : a ∈ l
  · rw [if_pos h, List.dedup_cons_of_mem (List.mem_reverse.mpr h)]
  · rw [if_neg h, List.dedup_cons_of_notMem (fun h' => h (List.mem_reverse.mp h')), List.reverse_cons]

@[simp] theorem mem_once {l : List α} {a : α} : a ∈ once l ↔ a ∈ l := by simp [once]

theorem nodup_once (l : List α) : (once l).Nodup := List.nodup_reverse.mpr (List.nodup_dedup _)

/-- What was there already changes nothing. -/
theorem once_append_of_subset {l : List α} : ∀ {l' : List α}, l' ⊆ l → once (l ++ l') = once l := by
  intro l'
  induction l' using List.reverseRecOn with
  | nil => intro _; rw [List.append_nil]
  | append_singleton l' a ih =>
    intro h
    rw [← List.append_assoc, once_concat, if_pos (List.mem_append_left _ (h (by simp)))]
    exact ih fun x hx => h (List.mem_append_left _ hx)

end Once
