import Mathlib

/-!
# The first item of each key

What is left of a list when an item is skipped whose key was seen before: of each
key the first item, which is the one that a search for the key finds.
-/

namespace Firsts
variable {α κ : Type} [DecidableEq κ] (key : α → κ)

def firsts : List α → List κ → List α
  | [], _ => []
  | a :: as, seen => if key a ∈ seen then firsts as seen else a :: firsts as (key a :: seen)

theorem mem_firsts {a : α} : ∀ {as : List α} {seen : List κ},
    a ∈ firsts key as seen ↔ key a ∉ seen ∧ as.find? (fun b => key b = key a) = some a
  | [], seen => by simp [firsts]
  | b :: as, seen => by
    unfold firsts
    split_ifs with hseen
    · rw [mem_firsts]
      by_cases hkey : key b = key a
      · rw [hkey] at hseen
        simp [hseen]
      · rw [List.find?_cons_of_neg (by simpa using hkey)]
    · rw [List.mem_cons, mem_firsts]
      by_cases hkey : key b = key a
      · rw [List.find?_cons_of_pos (by simpa using hkey), Option.some.injEq, hkey]
        rw [hkey] at hseen
        simp only [List.mem_cons, true_or, not_true_eq_false, false_and, or_false]
        exact ⟨fun h => ⟨hseen, h.symm⟩, fun h => h.2.symm⟩
      · rw [List.find?_cons_of_neg (by simpa using hkey)]
        have hne : a ≠ b := fun h => hkey (h ▸ rfl)
        simp [hne, Ne.symm hkey]

theorem nodup_firsts : ∀ {as : List α} {seen : List κ}, ((firsts key as seen).map key).Nodup
  | [], seen => List.nodup_nil
  | b :: as, seen => by
    unfold firsts
    split_ifs with hseen
    · exact nodup_firsts
    · rw [List.map_cons, List.nodup_cons]
      refine ⟨fun h => ?_, nodup_firsts⟩
      obtain ⟨a, ha, hkey⟩ := List.mem_map.mp h
      exact ((mem_firsts key).mp ha).1 (hkey ▸ List.mem_cons_self)

end Firsts
