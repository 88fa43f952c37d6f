/-!
# Runs of a labelled transition relation

`Run step s as s'`: the steps labelled `as` lead from `s` to `s'`. A property of
every state of a run is proved once for one step.
-/

namespace Runs
variable {σ α : Type}

inductive Run (step : σ → α → σ → Prop) : σ → List α → σ → Prop where
  | nil (s : σ) : Run step s [] s
  | cons {s s' s'' : σ} {a : α} {as : List α} (h : step s a s') (rest : Run step s' as s'') : Run step s (a :: as) s''

/-- The steps that `ok` allows. -/
def guarded (step : σ → α → σ → Prop) (ok : σ → α → Prop) : σ → α → σ → Prop := fun s a s' => ok s a ∧ step s a s'

namespace Run
variable {step : σ → α → σ → Prop} {s s' : σ} {as : List α}

theorem invariant {I : σ → Prop} (h : ∀ s a s', I s → step s a s' → I s') (hrun : Run step s as s') : I s → I s' := by
  induction hrun with
  | nil s => exact id
  | cons hstep _ ih => exact fun hs => ih (h _ _ _ hs hstep)

theorem append {s'' : σ} {bs : List α} (hrun : Run step s as s') (hrest : Run step s' bs s'') : Run step s (as ++ bs) s'' := by
  induction hrun with
  | nil s => exact hrest
  | cons hstep _ ih => exact .cons hstep (ih hrest)

theorem mono {step' : σ → α → σ → Prop} (h : ∀ s a s', step s a s' → step' s a s') (hrun : Run step s as s') :
    Run step' s as s' := by
  induction hrun with
  | nil s => exact .nil s
  | cons hstep _ ih => exact .cons (h _ _ _ hstep) ih

theorem unguarded {ok : σ → α → Prop} (hrun : Run (guarded step ok) s as s') : Run step s as s' :=
  hrun.mono fun _ _ _ h => h.2

theorem of_append {s'' : σ} {bs : List α} (hrun : Run step s (as ++ bs) s'') : ∃ s', Run step s as s' ∧ Run step s' bs s'' := by
  induction as generalizing s with
  | nil => exact ⟨s, .nil s, hrun⟩
  | cons a as ih =>
    cases hrun with
    | cons hstep hrest =>
      obtain ⟨s', has, hbs⟩ := ih hrest
      exact ⟨s', .cons hstep has, hbs⟩

/-- A property of the steps taken so far and the state they lead to. -/
theorem history {I : List α → σ → Prop}
    (h : ∀ before t a t', Run step s before t → I before t → step t a t' → I (before ++ [a]) t') (hrun : Run step s as s')
    (hinit : I [] s) : I as s' := by
  suffices hall : ∀ before t, Run step s before t → I before t → ∀ {as s'}, Run step t as s' → I (before ++ as) s' from
    hall [] s (.nil s) hinit hrun
  intro before t hbefore hI as s' hrest
  induction hrest generalizing before with
  | nil t => rwa [List.append_nil]
  | cons hstep _ ih =>
    have := ih _ (hbefore.append (.cons hstep (.nil _))) (h _ _ _ _ hbefore hI hstep)
    rwa [List.append_assoc] at this

/-- A run whose guards do not all hold has a first step that its guard forbids. -/
theorem guarded_or_violation (ok : σ → α → Prop) (hrun : Run step s as s') : Run (guarded step ok) s as s' ∨
    ∃ before a after t t', as = before ++ a :: after ∧ Run (guarded step ok) s before t ∧ ¬ ok t a ∧ step t a t' ∧
      Run step t' after s' := by
  induction hrun with
  | nil s => exact .inl (.nil s)
  | @cons s t s' a as hstep rest ih =>
    by_cases hok : ok s a
    · rcases ih with ih | ⟨before, b, after, u, u', rfl, hbefore, hb, hu, hafter⟩
      · exact .inl (.cons ⟨hok, hstep⟩ ih)
      · exact .inr ⟨a :: before, b, after, u, u', rfl, .cons ⟨hok, hstep⟩ hbefore, hb, hu, hafter⟩
    · exact .inr ⟨[], a, as, s, t, rfl, .nil s, hok, hstep, rest⟩

end Run

/-! ## Partial functions as steps -/

section
variable {next : σ → α → Option σ} {ok : σ → α → Prop} [∀ s a, Decidable (ok s a)]

/-- The steps of a function that says where it is not enabled. -/
def stepOf (next : σ → α → Option σ) : σ → α → σ → Prop := fun s a s' => next s a = some s'

theorem run_of_foldlM : ∀ {as : List α} {s s' : σ}, as.foldlM next s = some s' → Run (stepOf next) s as s'
  | [], s, s', h => by cases h; exact .nil s
  | a :: as, s, s', h => by
    obtain ⟨t, ht, hrest⟩ := Option.bind_eq_some_iff.mp h
    exact .cons ht (run_of_foldlM hrest)

theorem run_unique {as : List α} {s s' s'' : σ} (h : Run (stepOf next) s as s') (h' : Run (stepOf next) s as s'') : s' = s'' := by
  induction h with
  | nil s => cases h'; rfl
  | cons hstep _ ih =>
    cases h' with
    | cons hstep' hrest =>
      obtain rfl := Option.some.inj (hstep.symm.trans hstep')
      exact ih hrest

/-- A run whose guards are checked along the way. -/
theorem run_of_foldlM_guarded : ∀ {as : List α} {s s' : σ},
    as.foldlM (fun s a => if ok s a then next s a else none) s = some s' → Run (guarded (stepOf next) ok) s as s'
  | [], s, s', h => by cases h; exact .nil s
  | a :: as, s, s', h => by
    obtain ⟨t, ht, hrest⟩ := Option.bind_eq_some_iff.mp h
    obtain ⟨hok, ht⟩ := Option.ite_none_right_eq_some.mp ht
    exact .cons ⟨hok, ht⟩ (run_of_foldlM_guarded hrest)

end
end Runs
