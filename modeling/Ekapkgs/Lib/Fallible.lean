/-!
# Triples for computations that can fail

`EStateM ε σ α` runs on a state and either returns or raises, keeping the state
reached in both cases. A triple has one postcondition for each: `Q` for a
return, `E` for a raised error, so an invariant that must survive a failure is
stated as `E`.
-/

namespace Fallible
variable {ε σ α β : Type}

def Triple (P : σ → Prop) (m : EStateM ε σ α) (Q : α → σ → Prop) (E : ε → σ → Prop) : Prop :=
  ∀ s, P s → match m s with
    | .ok a s' => Q a s'
    | .error e s' => E e s'

namespace Triple
variable {P P' : σ → Prop} {Q Q' : α → σ → Prop} {E E' : ε → σ → Prop} {m : EStateM ε σ α}

theorem conseq (h : Triple P' m Q' E') (hP : ∀ s, P s → P' s) (hQ : ∀ a s, Q' a s → Q a s)
    (hE : ∀ e s, E' e s → E e s) : Triple P m Q E := by
  intro s hs
  have := h s (hP s hs)
  cases hm : m s with
  | ok a s' => rw [hm] at this; exact hQ a s' this
  | error e s' => rw [hm] at this; exact hE e s' this

theorem pre (h : Triple P' m Q E) (hP : ∀ s, P s → P' s) : Triple P m Q E :=
  conseq h hP (fun _ _ h => h) (fun _ _ h => h)

theorem post (h : Triple P m Q' E) (hQ : ∀ a s, Q' a s → Q a s) : Triple P m Q E :=
  conseq h (fun _ h => h) hQ (fun _ _ h => h)

theorem pure {a : α} (h : ∀ s, P s → Q a s) : Triple P (Pure.pure a : EStateM ε σ α) Q E := h

theorem throw {e : ε} (h : ∀ s, P s → E e s) : Triple P (throw e : EStateM ε σ α) Q E := h

theorem get {Q : σ → σ → Prop} (h : ∀ s, P s → Q s s) : Triple P (get : EStateM ε σ σ) Q E := h

theorem modify {f : σ → σ} {Q : PUnit → σ → Prop} (h : ∀ s, P s → Q ⟨⟩ (f s)) :
    Triple P (modify f : EStateM ε σ PUnit) Q E := h

theorem bind {f : α → EStateM ε σ β} {R : α → σ → Prop} {Q : β → σ → Prop} (hm : Triple P m R E)
    (hf : ∀ a, Triple (R a) (f a) Q E) : Triple P (m >>= f) Q E := by
  intro s hs
  have h := hm s hs
  show match EStateM.bind m f s with | .ok b s' => Q b s' | .error e s' => E e s'
  unfold EStateM.bind
  cases hms : m s with
  | ok a s' => rw [hms] at h; exact hf a s' h
  | error e s' => rw [hms] at h; exact h

/-- Facts that do not mention the state move out of the precondition. -/
theorem pre_fact {φ : Prop} (h : φ → Triple P m Q E) : Triple (fun s => φ ∧ P s) m Q E :=
  fun s hs => h hs.1 s hs.2

theorem pre_exists {ι : Type} {P : ι → σ → Prop} (h : ∀ i, Triple (P i) m Q E) :
    Triple (fun s => ∃ i, P i s) m Q E :=
  fun s hs => hs.elim fun i hi => h i s hi

theorem and (h₁ : Triple P m Q E) (h₂ : Triple P' m Q' E') :
    Triple (fun s => P s ∧ P' s) m (fun a s => Q a s ∧ Q' a s) (fun e s => E e s ∧ E' e s) := by
  intro s hs
  have a := h₁ s hs.1
  have b := h₂ s hs.2
  cases hm : m s with
  | ok v s' => rw [hm] at a b; exact ⟨a, b⟩
  | error e s' => rw [hm] at a b; exact ⟨a, b⟩

/-- A loop that keeps an invariant in every round keeps it. -/
theorem forM {γ : Type} {I : σ → Prop} {f : γ → EStateM ε σ PUnit} : ∀ (l : List γ),
    (∀ x ∈ l, Triple I (f x) (fun _ => I) E) → Triple I (l.forM f) (fun _ => I) E
  | [], _ => Triple.pure fun _ h => h
  | x :: l, h => Triple.bind (h x (List.mem_cons_self ..)) fun _ =>
      forM l fun y hy => h y (List.mem_cons_of_mem _ hy)

/-- The same for a loop with an accumulator. -/
theorem foldlM {γ : Type} {I : σ → Prop} {f : β → γ → EStateM ε σ β} : ∀ (l : List γ) (b : β),
    (∀ b, ∀ x ∈ l, Triple I (f b x) (fun _ => I) E) → Triple I (l.foldlM f b) (fun _ => I) E
  | [], _, _ => Triple.pure fun _ h => h
  | x :: l, b, h => by
    rw [List.foldlM_cons]
    exact Triple.bind (h b x (List.mem_cons_self ..)) fun b' => foldlM l b' fun b y hy => h b y (List.mem_cons_of_mem _ hy)

/-- What every round establishes for its item and no round undoes holds of all items. -/
theorem forM_all {γ : Type} {R : γ → σ → Prop} {f : γ → EStateM ε σ PUnit}
    (hdone : ∀ x, Triple (fun _ => True) (f x) (fun _ => R x) E) (hkeep : ∀ x y, Triple (R x) (f y) (fun _ => R x) E) :
    ∀ (l : List γ), Triple (fun _ => True) (l.forM f) (fun _ s => ∀ x ∈ l, R x s) E
  | [] => Triple.pure fun _ _ => nofun
  | x :: l => by
    refine Triple.bind (hdone x) fun _ => ?_
    refine (((Triple.forM l fun y _ => hkeep x y).and (forM_all hdone hkeep l)).pre fun _ h => ⟨h, trivial⟩).conseq
      (fun _ h => h) (fun _ s h => ?_) fun _ _ h => h.1
    intro y hy
    rcases List.mem_cons.mp hy with rfl | hy
    · exact h.1
    · exact h.2 y hy

/-! ## Reading a triple back at a run -/

theorem ok_of (h : Triple P m Q E) {s s' : σ} {a : α} (hs : P s) (hr : m s = .ok a s') : Q a s' := by
  have := h s hs; rw [hr] at this; exact this

theorem error_of (h : Triple P m Q E) {s s' : σ} {e : ε} (hs : P s) (hr : m s = .error e s') : E e s' := by
  have := h s hs; rw [hr] at this; exact this

/-- A computation whose error postcondition is empty returns. -/
theorem returns (h : Triple P m Q (fun _ _ => False)) {s : σ} (hs : P s) : ∃ a s', m s = .ok a s' ∧ Q a s' := by
  have := h s hs
  cases hm : m s with
  | ok a s' => rw [hm] at this; exact ⟨a, s', rfl, this⟩
  | error e s' => rw [hm] at this; exact this.elim

end Triple

/-! ## Peeling a run apart -/

theorem bind_ok {m : EStateM ε σ α} {f : α → EStateM ε σ β} {s s' : σ} {b : β} :
    (m >>= f) s = .ok b s' ↔ ∃ a t, m s = .ok a t ∧ f a t = .ok b s' := by
  show EStateM.bind m f s = _ ↔ _
  unfold EStateM.bind
  cases m s with
  | ok a t => exact ⟨fun h => ⟨a, t, rfl, h⟩, by rintro ⟨_, _, h, h'⟩; cases h; exact h'⟩
  | error e t => exact ⟨fun h => (by cases h), by rintro ⟨_, _, h, _⟩; cases h⟩

theorem bind_of_ok {m : EStateM ε σ α} {f : α → EStateM ε σ β} {s t : σ} {a : α} (h : m s = .ok a t) :
    (m >>= f) s = f a t := by
  show EStateM.bind m f s = _
  unfold EStateM.bind
  rw [h]

theorem bind_of_error {m : EStateM ε σ α} {f : α → EStateM ε σ β} {s t : σ} {e : ε} (h : m s = .error e t) :
    (m >>= f) s = .error e t := by
  show EStateM.bind m f s = _
  unfold EStateM.bind
  rw [h]

theorem bind_get {f : σ → EStateM ε σ β} {s : σ} : ((get : EStateM ε σ σ) >>= f) s = f s s := rfl

theorem bind_modify {f : σ → σ} {g : PUnit → EStateM ε σ β} {s : σ} : (modify f >>= g) s = g ⟨⟩ (f s) := rfl

/-- A continuation may use what is known of every returned value. -/
theorem bind_congr {m : EStateM ε σ α} {f g : α → EStateM ε σ β} {p : α → Prop}
    (hm : Triple (fun _ => True) m (fun a _ => p a) (fun _ _ => True)) (h : ∀ a, p a → f a = g a) :
    m >>= f = m >>= g := by
  funext s
  show EStateM.bind m f s = EStateM.bind m g s
  unfold EStateM.bind
  cases hms : m s with
  | ok a t =>
    have ha := Triple.ok_of hm trivial hms
    show f a t = g a t
    rw [h a ha]
  | error e t => rfl

theorem ok_of_toOption {ε α : Type} {r : Except ε α} {a : α} (h : r.toOption = some a) : r = .ok a := by
  cases r with
  | error e => cases h
  | ok b => cases h; rfl

/-! ## Steps that a call makes -/

/-- What follows a call that returned; after one that failed nothing does. -/
def onReturn (result : EStateM.Result ε σ α) (f : α → σ → β) : Option β :=
  match result with
  | .ok a s => some (f a s)
  | .error _ _ => none

theorem onReturn_eq_some {result : EStateM.Result ε σ α} {f : α → σ → β} {b : β} :
    onReturn result f = some b ↔ ∃ a s, result = .ok a s ∧ b = f a s := by
  cases result with
  | ok a s =>
    constructor
    · intro h; exact ⟨a, s, rfl, (Option.some.inj h).symm⟩
    · rintro ⟨_, _, h, rfl⟩; cases h; rfl
  | error e s => simp [onReturn]

end Fallible
