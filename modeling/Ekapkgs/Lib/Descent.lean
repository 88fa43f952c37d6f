import Ekapkgs.Lib.Fallible

/-!
# Recursive descent

A parser reads tokens one by one with `read`, and a language says which tokens
stand for which value. `Parses` says that a parser returns a value exactly after
the tokens of this value, and that `read` faults exactly after some but not all
tokens of a value.
-/

namespace Descent
open Fallible

variable {ε σ τ α β : Type}

/-! ## Languages -/

abbrev Language (τ α : Type) := α → List τ → Prop

namespace Language
variable {L : Language τ α} {L' : α → Language τ β}

/-- Some, but not all, tokens of a value. -/
def Cut (L : Language τ α) (xs : List τ) : Prop := ∃ a y ys, L a (xs ++ y :: ys)

def andThen (L : Language τ α) (L' : α → Language τ β) : Language τ β := fun b xs => ∃ a ys zs, xs = ys ++ zs ∧ L a ys ∧ L' a b zs

/-- A token, and what the token asks for after it. -/
def after (L : τ → Language τ β) : Language τ β := fun b xs => ∃ x ys, xs = x :: ys ∧ L x b ys

theorem cut_andThen_iff {xs : List τ} (hlive : ∀ a xs, L a xs → ∃ b ys, L' a b ys) :
    (L.andThen L').Cut xs ↔ L.Cut xs ∨ ∃ a ys zs, xs = ys ++ zs ∧ L a ys ∧ Cut (L' a) zs := by
  constructor
  · rintro ⟨b, y, ys, a, ps, qs, heq, hps, hqs⟩
    rcases List.append_eq_append_iff.mp heq with ⟨as, hps', hqs'⟩ | ⟨bs, hxs, hqs'⟩
    · cases as with
      | nil =>
        rw [List.append_nil] at hps'
        exact .inr ⟨a, ps, [], by rw [hps', List.append_nil], hps, b, y, ys, hqs'.symm ▸ hqs⟩
      | cons z as =>
        subst hps'
        exact .inl ⟨a, z, as, hps⟩
    · exact .inr ⟨a, ps, bs, hxs, hps, b, y, ys, hqs' ▸ hqs⟩
  · rintro (⟨a, y, ys, h⟩ | ⟨a, ys, zs, rfl, hys, b, y, zs', hzs⟩)
    · obtain ⟨b, zs, hzs⟩ := hlive a _ h
      exact ⟨b, y, ys ++ zs, a, xs ++ y :: ys, zs, (List.append_assoc xs (y :: ys) zs).symm, h, hzs⟩
    · exact ⟨b, y, zs', a, ys, zs ++ y :: zs', List.append_assoc .., hys, hzs⟩

theorem cut_after_iff {L : τ → Language τ β} {xs : List τ} :
    (after L).Cut xs ↔ (xs = [] ∧ ∃ x b ys, L x b ys) ∨ ∃ x ys, xs = x :: ys ∧ (L x).Cut ys := by
  constructor
  · rintro ⟨b, y, ys, x, zs, heq, hzs⟩
    cases xs with
    | nil => exact .inl ⟨rfl, x, b, zs, hzs⟩
    | cons x' xs =>
      rw [List.cons_append, List.cons.injEq] at heq
      obtain ⟨rfl, rfl⟩ := heq
      exact .inr ⟨x', xs, rfl, b, y, ys, hzs⟩
  · rintro (⟨rfl, x, b, ys, h⟩ | ⟨x, ys, rfl, b, y, zs, h⟩)
    · exact ⟨b, x, ys, x, ys, rfl, h⟩
    · exact ⟨b, y, zs, x, ys ++ y :: zs, rfl, h⟩

end Language

/-! ## Reading -/

inductive Reads (read : EStateM ε σ τ) : σ → List τ → σ → Prop
  | nil (s : σ) : Reads read s [] s
  | cons {s t u : σ} {x : τ} {xs : List τ} : read s = .ok x t → Reads read t xs u → Reads read s (x :: xs) u

section
variable {read : EStateM ε σ τ} {fault : ε} {s t u : σ} {xs ys : List τ}

theorem reads_nil_iff : Reads read s [] t ↔ t = s := by
  constructor
  · rintro ⟨⟩; rfl
  · rintro rfl; exact .nil t

theorem reads_append_iff : ∀ {xs : List τ} {s : σ}, Reads read s (xs ++ ys) u ↔ ∃ t, Reads read s xs t ∧ Reads read t ys u
  | [], s => ⟨fun h => ⟨s, .nil s, h⟩, fun ⟨_, ht, h⟩ => reads_nil_iff.mp ht ▸ h⟩
  | x :: xs, s => by
    constructor
    · rintro (_ | ⟨hx, hxs⟩)
      obtain ⟨t, ht, hu⟩ := reads_append_iff.mp hxs
      exact ⟨t, .cons hx ht, hu⟩
    · rintro ⟨t, _ | ⟨hx, hxs⟩, hu⟩
      exact .cons hx (reads_append_iff.mpr ⟨t, hxs, hu⟩)

theorem reads_cons_iff {x : τ} : Reads read s (x :: xs) u ↔ ∃ t, read s = .ok x t ∧ Reads read t xs u := by
  constructor
  · rintro (_ | ⟨hx, hxs⟩)
    exact ⟨_, hx, hxs⟩
  · rintro ⟨t, hx, hxs⟩
    exact .cons hx hxs

end

/-! ## Parsers -/

section
variable (read : EStateM ε σ τ) (fault : ε)

def FaultsAt (s : σ) : Prop := ∃ t, read s = .error fault t

structure Parses (m : EStateM ε σ α) (L : Language τ α) (s : σ) : Prop where
  ok : ∀ a t, m s = .ok a t ↔ ∃ xs, L a xs ∧ Reads read s xs t
  faults : (∃ t, m s = .error fault t) ↔ ∃ xs t, L.Cut xs ∧ Reads read s xs t ∧ FaultsAt read fault t

end

namespace Parses
variable {read : EStateM ε σ τ} {fault : ε} {m : EStateM ε σ α} {L : Language τ α} {s : σ}

theorem of_iff {L' : Language τ α} (h : Parses read fault m L s) (heq : ∀ a xs, L a xs ↔ L' a xs) : Parses read fault m L' s := by
  have : L = L' := by funext a xs; exact propext (heq a xs)
  exact this ▸ h

theorem of_run {m' : EStateM ε σ α} (h : Parses read fault m L s) (heq : m' s = m s) : Parses read fault m' L s :=
  ⟨fun a t => heq ▸ h.ok a t, heq ▸ h.faults⟩

theorem pure (a : α) (s : σ) : Parses read fault (pure a) (fun b xs => b = a ∧ xs = []) s where
  ok b t := by
    constructor
    · intro h
      cases h
      exact ⟨[], ⟨rfl, rfl⟩, .nil s⟩
    · rintro ⟨xs, ⟨rfl, rfl⟩, hreads⟩
      cases hreads
      rfl
  faults := by
    constructor
    · rintro ⟨t, h⟩
      cases h
    · rintro ⟨xs, t, ⟨b, y, ys, -, hnil⟩, -⟩
      exact absurd hnil (by simp)

theorem throw {e : ε} (he : e ≠ fault) (s : σ) : Parses read fault (throw e : EStateM ε σ α) (fun _ _ => False) s where
  ok b t := by
    constructor
    · intro h
      cases h
    · rintro ⟨xs, h, -⟩
      exact h.elim
  faults := by
    constructor
    · rintro ⟨t, h⟩
      cases h
      exact absurd rfl he
    · rintro ⟨xs, t, ⟨b, y, ys, h⟩, -⟩
      exact h.elim

theorem bind {f : α → EStateM ε σ β} {L' : α → Language τ β} (hm : Parses read fault m L s)
    (hf : ∀ a t, m s = .ok a t → Parses read fault (f a) (L' a) t) (hlive : ∀ a xs, L a xs → ∃ b ys, L' a b ys) :
    Parses read fault (m >>= f) (L.andThen L') s where
  ok b u := by
    rw [bind_ok]
    constructor
    · rintro ⟨a, t, ha, hb⟩
      obtain ⟨xs, hxs, hreads⟩ := (hm.ok a t).mp ha
      obtain ⟨ys, hys, hreads'⟩ := ((hf a t ha).ok b u).mp hb
      exact ⟨xs ++ ys, ⟨a, xs, ys, rfl, hxs, hys⟩, reads_append_iff.mpr ⟨t, hreads, hreads'⟩⟩
    · rintro ⟨_, ⟨a, xs, ys, rfl, hxs, hys⟩, hreads⟩
      obtain ⟨t, hreads, hreads'⟩ := reads_append_iff.mp hreads
      have ha := (hm.ok a t).mpr ⟨xs, hxs, hreads⟩
      exact ⟨a, t, ha, ((hf a t ha).ok b u).mpr ⟨ys, hys, hreads'⟩⟩
  faults := by
    constructor
    · rintro ⟨u, h⟩
      cases hms : m s with
      | error e t =>
        rw [bind_of_error hms] at h
        cases h
        obtain ⟨xs, t, hcut, hreads⟩ := hm.faults.mp ⟨u, hms⟩
        exact ⟨xs, t, (Language.cut_andThen_iff hlive).mpr (.inl hcut), hreads⟩
      | ok a t =>
        rw [bind_of_ok hms] at h
        obtain ⟨xs, hxs, hreads⟩ := (hm.ok a t).mp hms
        obtain ⟨ys, v, hcut, hreads', hfault⟩ := (hf a t hms).faults.mp ⟨u, h⟩
        exact ⟨xs ++ ys, v, (Language.cut_andThen_iff hlive).mpr (.inr ⟨a, xs, ys, rfl, hxs, hcut⟩), reads_append_iff.mpr ⟨t, hreads, hreads'⟩, hfault⟩
    · rintro ⟨xs, v, hcut, hreads, hfault⟩
      rcases (Language.cut_andThen_iff hlive).mp hcut with hcut | ⟨a, ys, zs, rfl, hys, hcut⟩
      · obtain ⟨t, ht⟩ := hm.faults.mpr ⟨xs, v, hcut, hreads, hfault⟩
        exact ⟨t, bind_of_error ht⟩
      · obtain ⟨t, hreads, hreads'⟩ := reads_append_iff.mp hreads
        have ha := (hm.ok a t).mpr ⟨ys, hys, hreads⟩
        obtain ⟨u, hu⟩ := (hf a t ha).faults.mpr ⟨zs, v, hcut, hreads', hfault⟩
        exact ⟨u, (bind_of_ok ha).trans hu⟩

/-- Some token must be good, or it would not matter that it cannot be read. -/
theorem token {f : τ → EStateM ε σ β} {L' : τ → Language τ β} (hf : ∀ x t, read s = .ok x t → Parses read fault (f x) (L' x) t)
    (hlive : ∃ x b ys, L' x b ys) : Parses read fault (read >>= f) (Language.after L') s where
  ok b u := by
    rw [bind_ok]
    constructor
    · rintro ⟨x, t, hx, hb⟩
      obtain ⟨ys, hys, hreads⟩ := ((hf x t hx).ok b u).mp hb
      exact ⟨x :: ys, ⟨x, ys, rfl, hys⟩, .cons hx hreads⟩
    · rintro ⟨_, ⟨x, ys, rfl, hys⟩, hreads⟩
      obtain ⟨t, hx, hreads⟩ := reads_cons_iff.mp hreads
      exact ⟨x, t, hx, ((hf x t hx).ok b u).mpr ⟨ys, hys, hreads⟩⟩
  faults := by
    constructor
    · rintro ⟨u, h⟩
      cases hs : read s with
      | error e t =>
        rw [bind_of_error hs] at h
        cases h
        exact ⟨[], s, Language.cut_after_iff.mpr (.inl ⟨rfl, hlive⟩), .nil s, u, hs⟩
      | ok x t =>
        rw [bind_of_ok hs] at h
        obtain ⟨ys, v, hcut, hreads, hfault⟩ := (hf x t hs).faults.mp ⟨u, h⟩
        exact ⟨x :: ys, v, Language.cut_after_iff.mpr (.inr ⟨x, ys, rfl, hcut⟩), .cons hs hreads, hfault⟩
    · rintro ⟨xs, v, hcut, hreads, hfault⟩
      rcases Language.cut_after_iff.mp hcut with ⟨rfl, -⟩ | ⟨x, ys, rfl, hrest⟩
      · obtain ⟨t, ht⟩ := reads_nil_iff.mp hreads ▸ hfault
        exact ⟨t, bind_of_error ht⟩
      · obtain ⟨t, hx, hreads⟩ := reads_cons_iff.mp hreads
        obtain ⟨u, hu⟩ := (hf x t hx).faults.mpr ⟨ys, v, hrest, hreads, hfault⟩
        exact ⟨u, (bind_of_ok hx).trans hu⟩

end Parses
end Descent
