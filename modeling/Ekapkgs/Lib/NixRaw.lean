import Ekapkgs.Lib.NixLexer

/-!
# Texts that are literals as they stand

Which texts can be put between two quotes without escapes. What a literal is read
as is no longer than the literal and has all of its quotes, so a text with a quote
of its own is never read back, wherever the literal comes to its end.
-/

namespace Nix

/-- No quote, backslash or carriage return, and no antiquotation. -/
def isRaw : List Char → Bool
  | [] => true
  | '$' :: '{' :: _ => false
  -- two dollars are text together
  | '$' :: '$' :: cs => isRaw cs
  | c :: cs => c ≠ '"' && c ≠ '\\' && c ≠ '\r' && isRaw cs

/-- The modes of a string. -/
def Mode.isLiteral : Mode → Bool
  | .string | .stringDollar | .stringEscape | .stringReturn => true
  | _ => false

/-- The characters held back. -/
def Mode.held : Mode → Nat
  | .stringDollar => 1
  | _ => 0

/-! ## One character -/

/-- A character of a string goes into its text, closes it or opens an antiquotation. -/
theorem literal_step {m : Mode} (hm : m.isLiteral = true) (outer : List Mode) (c : Char) :
    (∃ (m' : Mode) (t : List Char), m'.isLiteral = true ∧ step ⟨m, outer⟩ c = (⟨m', outer⟩, t.map .text) ∧ t.length + m'.held ≤ 1 + m.held ∧
      [c].count '"' ≤ t.count '"') ∨
    (c = '"' ∧ ∃ t : List Char, step ⟨m, outer⟩ c = (⟨.code, outer⟩, literalText t) ∧ t.length ≤ m.held) ∨
    step ⟨m, outer⟩ c = (⟨.code, .string :: outer⟩, [.code '$', .code '{']) := by
  have hchar : ∀ {c : Char}, c ≠ '"' → [c].count '"' = 0 := fun hne => List.count_eq_zero.mpr fun hmem => hne (List.mem_singleton.mp hmem).symm
  -- also the character after a dollar or a carriage return
  have hstring : (∃ (m' : Mode) (t : List Char), m'.isLiteral = true ∧ stringStep outer c = (⟨m', outer⟩, t.map .text) ∧ t.length + m'.held ≤ 1 ∧
      [c].count '"' ≤ t.count '"') ∨ (c = '"' ∧ stringStep outer c = (⟨.code, outer⟩, [.code '"'])) := by
    unfold stringStep
    split_ifs with hquote hslash hdollar hreturn
    · exact .inr ⟨hquote, by rw [hquote]⟩
    · exact .inl ⟨.stringEscape, [], rfl, rfl, by decide, by rw [hchar hquote]; exact Nat.zero_le _⟩
    · exact .inl ⟨.stringDollar, [], rfl, rfl, by decide, by rw [hchar hquote]; exact Nat.zero_le _⟩
    · exact .inl ⟨.stringReturn, ['\n'], rfl, rfl, by decide, by rw [hchar hquote]; exact Nat.zero_le _⟩
    · exact .inl ⟨.string, [c], rfl, rfl, Nat.le_refl _, Nat.le_refl _⟩
  cases m with
  | string =>
    rcases hstring with ⟨m', t, hm', heq, hlength, hcount⟩ | ⟨hquote, heq⟩
    · exact .inl ⟨m', t, hm', heq, hlength, hcount⟩
    · exact .inr (.inl ⟨hquote, [], heq, Nat.le_refl _⟩)
  | stringDollar =>
    unfold step
    dsimp only
    split_ifs with hbrace hdollar
    · exact .inr (.inr (by rw [hbrace]))
    · refine .inl ⟨.string, ['$', c], rfl, rfl, Nat.le_refl _, ?_⟩
      rw [hdollar]
      decide
    · rcases hstring with ⟨m', t, hm', heq, hlength, hcount⟩ | ⟨hquote, heq⟩
      · have hheld : Mode.held .stringDollar = 1 := rfl
        have hdollars : ('$' :: t).count '"' = t.count '"' := List.count_cons_of_ne (by decide)
        refine .inl ⟨m', '$' :: t, hm', by rw [heq]; rfl, ?_, hdollars ▸ hcount⟩
        rw [List.length_cons, hheld]
        omega
      · exact .inr (.inl ⟨hquote, ['$'], by rw [heq]; rfl, Nat.le_refl _⟩)
  | stringEscape =>
    refine .inl ⟨.string, [unescaped c], rfl, rfl, Nat.le_refl _, ?_⟩
    by_cases hquote : c = '"'
    · rw [hquote]
      decide
    · rw [hchar hquote]
      exact Nat.zero_le _
  | stringReturn =>
    unfold step
    dsimp only
    split_ifs with hline
    · exact .inl ⟨.string, [], rfl, rfl, by decide, by rw [hline]; decide⟩
    · rcases hstring with ⟨m', t, hm', heq, hlength, hcount⟩ | ⟨hquote, heq⟩
      · exact .inl ⟨m', t, hm', heq, hlength, hcount⟩
      · exact .inr (.inl ⟨hquote, [], heq, Nat.le_refl _⟩)
  | _ => cases hm

/-! ## Whole literals -/

/-- From a mode of a string, these characters up to the closing quote are this text. -/
inductive Closes (outer : List Mode) : Mode → List Char → List Char → Prop where
  | quote {m : Mode} {t : List Char} : step ⟨m, outer⟩ '"' = (⟨.code, outer⟩, literalText t) → t.length ≤ m.held → Closes outer m [] t
  | text {m m' : Mode} {c : Char} {t u s : List Char} : step ⟨m, outer⟩ c = (⟨m', outer⟩, t.map .text) →
      t.length + m'.held ≤ 1 + m.held → [c].count '"' ≤ t.count '"' → Closes outer m' u s → Closes outer m (c :: u) (t ++ s)

theorem Closes.bounds {outer : List Mode} {m : Mode} {u s : List Char} (h : Closes outer m u s) :
    s.length ≤ u.length + m.held ∧ u.count '"' ≤ s.count '"' := by
  induction h with
  | quote _ hlength => exact ⟨by rw [List.length_nil, Nat.zero_add]; exact hlength, Nat.zero_le _⟩
  | @text m m' c t u s _ hlength hcount _ ih =>
    obtain ⟨ihlength, ihcount⟩ := ih
    have hsplit : (c :: u).count '"' = [c].count '"' + u.count '"' := by rw [← List.count_append, List.singleton_append]
    rw [List.length_append, List.count_append, List.length_cons, hsplit]
    omega

/-- A literal that stands at the start of a text followed by a quote ends there, if it is read as this text. -/
theorem Closes.eq {outer : List Mode} {u s rest rest' : List Char} (h : Closes outer .string u s)
    (heq : s ++ '"' :: rest = u ++ '"' :: rest') : u = s := by
  obtain ⟨hlength, hcount⟩ := h.bounds
  have hlength : s.length ≤ u.length := hlength
  obtain ⟨v, rfl⟩ : ∃ v, u = s ++ v :=
    List.prefix_of_prefix_length_le (List.prefix_append s ('"' :: rest)) (heq ▸ List.prefix_append u _) hlength |>.imp fun _ h => h.symm
  cases v with
  | nil => exact List.append_nil s
  | cons c v =>
    rw [List.append_assoc] at heq
    have hc : '"' = c := (List.cons.inj (List.append_cancel_left heq)).1
    rw [← hc, List.count_append, List.count_cons_self] at hcount
    omega

theorem step_dollar (outer : List Mode) {c : Char} (hbrace : c ≠ '{') (hdollar : c ≠ '$') :
    step ⟨.stringDollar, outer⟩ c = after [.text '$'] (step ⟨.string, outer⟩ c) := by
  unfold step
  dsimp only
  rw [if_neg hbrace, if_neg hdollar]

theorem step_string {outer : List Mode} {c : Char} (hquote : c ≠ '"') (hslash : c ≠ '\\') (hdollar : c ≠ '$') (hreturn : c ≠ '\r') :
    step ⟨.string, outer⟩ c = (⟨.string, outer⟩, [.text c]) := by
  unfold step stringStep
  dsimp only
  rw [if_neg hquote, if_neg hslash, if_neg hdollar, if_neg hreturn]

/-- After a dollar that opens nothing. -/
theorem run_dollar {outer : List Mode} : ∀ {cs : List Char}, cs ≠ [] → cs.head? ≠ some '{' → cs.head? ≠ some '$' →
    run ⟨.stringDollar, outer⟩ cs = after [.text '$'] (run ⟨.string, outer⟩ cs)
  | [], hne, _, _ => absurd rfl hne
  | c :: cs, _, hbrace, hdollar => by
    have hstep := step_dollar outer (fun h => hbrace (congrArg some h)) fun h => hdollar (congrArg some h)
    rw [run, hstep, run, after_after]
    rfl

/-- What a character that is neither in a pair of dollars nor before a brace needs. -/
theorem isRaw_cons {c : Char} {cs : List Char} (hbrace : ∀ rest, c = '$' → cs = '{' :: rest → False)
    (hdollar : ∀ rest, c = '$' → cs = '$' :: rest → False) :
    isRaw (c :: cs) = true ↔ c ≠ '"' ∧ c ≠ '\\' ∧ c ≠ '\r' ∧ isRaw cs = true := by
  rw [isRaw]
  · simp only [Bool.and_eq_true, decide_eq_true_eq, ne_eq, and_assoc]
  · exact hbrace
  · exact hdollar

theorem head_quoted {cs : List Char} {d : Char} (hd : d ≠ '"') (h : ∀ rest, cs ≠ d :: rest) : (cs ++ ['"']).head? ≠ some d := by
  cases cs with
  | nil => exact fun heq => hd (Option.some.inj heq).symm
  | cons c cs => exact fun heq => h cs (by rw [Option.some.inj heq])

theorem run_raw (outer : List Mode) (s : List Char) (h : isRaw s = true) :
    run ⟨.string, outer⟩ (s ++ ['"']) = (⟨.code, outer⟩, literalText s) := by
  induction s using isRaw.induct with
  | case1 => rfl
  | case2 => cases h
  | case3 cs ih =>
    have hpair : run ⟨.string, outer⟩ ['$', '$'] = (⟨.string, outer⟩, [.text '$', .text '$']) := rfl
    have hcs := ih h
    have hsplit : '$' :: '$' :: cs ++ ['"'] = ['$', '$'] ++ (cs ++ ['"']) := rfl
    rw [hsplit, run_append, hpair, hcs]
    rfl
  | case4 c cs hbrace hdollar ih =>
    obtain ⟨hquote, hslash, hreturn, hcs⟩ := (isRaw_cons hbrace hdollar).mp h
    rw [List.cons_append, run]
    by_cases hc : c = '$'
    · have hstep : step ⟨.string, outer⟩ c = (⟨.stringDollar, outer⟩, []) := by rw [hc]; rfl
      rw [hstep, run_dollar (List.append_ne_nil_of_right_ne_nil _ (by decide)) (head_quoted (by decide) fun rest => hbrace rest hc)
        (head_quoted (by decide) fun rest => hdollar rest hc), ih hcs, hc]
      rfl
    · rw [step_string hquote hslash hc hreturn, ih hcs]
      rfl

theorem Closes.uncons {outer : List Mode} {m : Mode} {c : Char} {u s : List Char} (h : Closes outer m (c :: u) s) :
    ∃ m' t s', step ⟨m, outer⟩ c = (⟨m', outer⟩, t.map .text) ∧ t.length + m'.held ≤ 1 + m.held ∧ [c].count '"' ≤ t.count '"' ∧
      s = t ++ s' ∧ Closes outer m' u s' := by
  cases h with
  | text hstep hlength hcount h => exact ⟨_, _, _, hstep, hlength, hcount, rfl, h⟩

/-- A step that is known leaves one case. -/
theorem Closes.stepped {outer : List Mode} {m : Mode} {c : Char} {u s : List Char} (h : Closes outer m (c :: u) s) (m' : Mode) (t : List Char)
    (hstep : step ⟨m, outer⟩ c = (⟨m', outer⟩, t.map .text)) : ∃ s', s = t ++ s' ∧ Closes outer m' u s' := by
  obtain ⟨m'', t', s', hstep', -, -, rfl, h⟩ := h.uncons
  rw [hstep, Prod.mk.injEq, Lexer.mk.injEq] at hstep'
  obtain ⟨⟨rfl, -⟩, htext⟩ := hstep'
  exact ⟨s', by rw [List.map_injective_iff.mpr (fun _ _ heq => Event.text.inj heq) htext], h⟩

theorem Closes.of_dollar {outer : List Mode} {cs s : List Char} (h : Closes outer .stringDollar cs ('$' :: s))
    (hbrace : cs.head? ≠ some '{') (hdollar : cs.head? ≠ some '$') : Closes outer .string cs s := by
  cases cs with
  | nil =>
    cases h with
    | quote _ hlength =>
      obtain rfl := List.length_eq_zero_iff.mp (Nat.le_zero.mp (Nat.le_of_succ_le_succ hlength))
      exact .quote rfl (Nat.le_refl _)
  | cons c cs =>
    obtain ⟨m', t, s', hstep, hlength, hcount, hs, hrest⟩ := h.uncons
    rw [step_dollar outer (fun heq => hbrace (congrArg some heq)) fun heq => hdollar (congrArg some heq)] at hstep
    cases t with
    | nil => cases congrArg Prod.snd hstep
    | cons d t =>
      rw [List.cons_append, List.cons.injEq] at hs
      obtain ⟨rfl, rfl⟩ := hs
      have hcount : [c].count '"' ≤ t.count '"' := hcount
      have hlength : t.length + 1 + m'.held ≤ 1 + 1 := hlength
      have hfst : (step ⟨.string, outer⟩ c).1 = ⟨m', outer⟩ := congrArg Prod.fst hstep
      have hsnd : .text '$' :: (step ⟨.string, outer⟩ c).2 = .text '$' :: t.map .text := congrArg Prod.snd hstep
      refine .text (Prod.ext hfst (List.cons.inj hsnd).2) ?_ hcount hrest
      have hheld : Mode.held .string = 0 := rfl
      omega

/-- Only texts without escapes are read back. -/
theorem isRaw_of_closes {outer : List Mode} (s : List Char) (h : Closes outer .string s s) : isRaw s = true := by
  induction s using isRaw.induct with
  | case1 => rfl
  | case2 cs =>
    obtain ⟨_, -, h⟩ := h.stepped .stringDollar [] rfl
    obtain ⟨_, t, _, hstep, -⟩ := h.uncons
    cases t <;> cases congrArg Prod.snd hstep
  | case3 cs ih =>
    obtain ⟨s', hs, hdollar⟩ := h.stepped .stringDollar [] rfl
    obtain ⟨s'', rfl, hrest⟩ := hdollar.stepped .string ['$', '$'] rfl
    obtain rfl : cs = s'' := by simpa using hs
    exact ih hrest
  | case4 c cs hbrace hdollar ih =>
    have hquote : c ≠ '"' := by
      rintro rfl
      obtain ⟨_, t, _, hstep, -⟩ := h.uncons
      cases t <;> cases congrArg Prod.snd hstep
    have hslash : c ≠ '\\' := by
      rintro rfl
      obtain ⟨s', rfl, h⟩ := h.stepped .stringEscape [] rfl
      have hlength : cs.length + 1 ≤ cs.length := h.bounds.1
      omega
    have hreturn : c ≠ '\r' := by
      rintro rfl
      obtain ⟨s', hs, -⟩ := h.stepped .stringReturn ['\n'] rfl
      cases (List.cons.inj hs).1
    refine (isRaw_cons hbrace hdollar).mpr ⟨hquote, hslash, hreturn, ih ?_⟩
    by_cases hc : c = '$'
    · subst hc
      obtain ⟨s', rfl, h⟩ := h.stepped .stringDollar [] rfl
      refine h.of_dollar (fun heq => ?_) fun heq => ?_
      · obtain ⟨rest, rfl⟩ := List.head?_eq_some_iff.mp heq
        exact hbrace rest rfl rfl
      · obtain ⟨rest, rfl⟩ := List.head?_eq_some_iff.mp heq
        exact hdollar rest rfl rfl
    · obtain ⟨s', hs, h⟩ := h.stepped .string [c] (step_string hquote hslash hc hreturn)
      obtain rfl : cs = s' := (List.cons.inj hs).2
      exact h

end Nix
