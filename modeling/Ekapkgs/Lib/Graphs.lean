import Mathlib

/-!
# Finite graphs

A graph is a relation `r a b`: there is an edge from `a` to `b`. An acyclic one
has, in each nonempty finite part, a node that no edge of the part enters and
one that none leaves, so whatever takes such nodes away one after the other ends
with all of them.
-/

namespace Graphs
variable {α : Type} {r : α → α → Prop}

def Acyclic (r : α → α → Prop) : Prop := ∀ a, ¬ Relation.TransGen r a a

/-- A map from another graph that keeps its edges. -/
theorem Acyclic.comap {β : Type} {r' : β → β → Prop} (f : β → α) (h : Acyclic r) (hle : ∀ a b, r' a b → r (f a) (f b)) :
    Acyclic r' := fun a hcycle => h (f a) (hcycle.lift f hle)

theorem Acyclic.swap (h : Acyclic r) : Acyclic (Function.swap r) :=
  fun a hcycle => h a (Relation.transGen_swap.mp hcycle)

/-- Edges that lower a number form no cycle. -/
theorem Acyclic.of_rank (f : α → Nat) (h : ∀ a b, r a b → f b < f a) : Acyclic r := by
  have hpath : ∀ a b, Relation.TransGen r a b → f b < f a := by
    intro a b hab
    induction hab with
    | single hab => exact h _ _ hab
    | tail _ hbc ih => exact (h _ _ hbc).trans ih
  exact fun a hcycle => Nat.lt_irrefl _ (hpath a a hcycle)

theorem exists_source (h : Acyclic r) {l : List α} (hl : l ≠ []) : ∃ a ∈ l, ∀ b ∈ l, ¬ r b a := by
  have horder : IsStrictOrder α (Relation.TransGen r) := { irrefl := h, trans := fun _ _ _ => .trans }
  have hfounded : {a | a ∈ l}.WellFoundedOn (Relation.TransGen r) := l.finite_toSet.wellFoundedOn
  obtain ⟨a, ha⟩ := List.exists_mem_of_ne_nil l hl
  obtain ⟨⟨m, hm⟩, -, hmin⟩ := hfounded.has_min Set.univ ⟨⟨a, ha⟩, trivial⟩
  exact ⟨m, hm, fun b hb hr => hmin ⟨b, hb⟩ trivial (.single hr)⟩

theorem exists_sink (h : Acyclic r) {l : List α} (hl : l ≠ []) : ∃ a ∈ l, ∀ b ∈ l, ¬ r a b :=
  exists_source h.swap hl

/-! ## Reachability -/

/-- What the edges lead to from the seeds. -/
inductive Reach (seed : α → Prop) (r : α → α → Prop) : α → Prop where
  | seed {a : α} (h : seed a) : Reach seed r a
  | step {a b : α} (h : Reach seed r a) (hr : r a b) : Reach seed r b

/-- A set that has the seeds and that no edge leaves has all of it. -/
theorem Reach.of_closed {seed p : α → Prop} (hseed : ∀ a, seed a → p a) (hclosed : ∀ a b, p a → r a b → p b) {a : α}
    (h : Reach seed r a) : p a := by
  induction h with
  | seed h => exact hseed _ h
  | step _ hr ih => exact hclosed _ _ ih hr

end Graphs
