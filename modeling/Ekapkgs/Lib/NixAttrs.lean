import Ekapkgs.Lib.NixTerms

/-!
# Attributes of Nix terms

Attributes by path, also of the set that a named function is called with, the texts of
strings in a set that refers to itself, and the names a term is closed under. What
stands at an attribute while it is read is the attribute in the end.
-/

namespace Nix

/-! ## Attributes -/

def Term.attrs : Term → List (Name × Term)
  | .set binds => binds
  | .apply (.path _) (.set binds) => binds
  | _ => []

def Term.attr (e : Term) (a : List Char) : Option Term := (e.attrs.find? fun b => b.1.val = a).map Prod.snd

def Term.at : List (List Char) → Term → Option Term
  | [], e => some e
  | a :: as, e => (e.attr a).bind (Term.at as)

/-- A function that calls a named function with a set that may refer to itself. -/
def Term.package : Term → Option (Name × Term)
  | .function _ (.apply (.path _) (.lambda self (.set binds))) => some (self, .set binds)
  | _ => none

theorem find?_attr {binds more : List (Name × Term)} {a : Name} {v : Term} (h : ((binds ++ (a, v) :: more).map Prod.fst).Nodup) :
    (Term.set (binds ++ (a, v) :: more)).attr a.val = some v := by
  have hother : ∀ b ∈ binds, ¬ b.1.val = a.val := by
    intro b hb heq
    rw [List.map_append, List.map_cons, List.nodup_append] at h
    exact h.2.2 b.1 (List.mem_map_of_mem hb) a List.mem_cons_self (Subtype.ext heq)
  have hnone : (binds.find? fun b => decide (b.1.val = a.val)) = none :=
    List.find?_eq_none.mpr fun b hb => by rw [decide_eq_true_eq]; exact hother b hb
  have hsome : ((a, v) :: more).find? (fun b => decide (b.1.val = a.val)) = some (a, v) := List.find?_cons_of_pos (decide_eq_true rfl)
  rw [Term.attr, Term.attrs, List.find?_append, hnone, Option.none_or, hsome]
  rfl

theorem attr_of_mem {binds : List (Name × Term)} {a : Name} {v : Term} (h : (binds.map Prod.fst).Nodup) (hmem : (a, v) ∈ binds) :
    (Term.set binds).attr a.val = some v := by
  obtain ⟨before, more, rfl⟩ := List.append_of_mem hmem
  exact find?_attr h

/-! ## What stands at an attribute -/

theorem Grown.eq {e v : Term} (h : Grown e v) (hv : ∀ f x, v ≠ .apply f x) : v = e := by
  cases h with
  | refl => rfl
  | apply x _ => exact absurd rfl (hv _ x)

/-- A call of a named function with one argument. -/
theorem Grown.call {f x : Term} {names : List Name} {y : Term} (h : Grown (.apply f x) (.apply (.path names) y)) : x = y := by
  cases h with
  | refl => rfl
  | apply _ h => nomatch h

theorem Grown.set_attr {binds : List (Name × Term)} {w e : Term} {a : List Char} (h : Grown (.set binds) w) (ha : w.attr a = some e) :
    w = .set binds := by
  cases h with
  | refl => rfl
  | @apply v x h =>
    cases h with
    | refl => cases ha
    | apply y _ => cases ha

/-- The set of a package. -/
def packageOpens (self : Name) (builder : Term) (formals : List Name) : List Open := [.lambda self, .paren, .arg builder, .body formals]

theorem hole_package {a self self' : Name} {binds : List (Name × Term)} {builder v t pkg : Term} {formals : List Name}
    (h : Hole (.bind a binds :: packageOpens self builder formals) v t) (hpackage : t.package = some (self', pkg)) :
    pkg.attr a.val = some v := by
  obtain ⟨more, w, hnodup, hgrown, w', hlambda, w'', hcall, rfl⟩ := h
  unfold Term.package at hpackage
  split at hpackage
  · next formals' names self'' binds' heq =>
    obtain ⟨-, rfl⟩ := Term.function.inj heq
    cases hpackage
    obtain rfl := hcall.call
    obtain ⟨rfl, rfl⟩ := Term.lambda.inj (hlambda.eq nofun)
    obtain heq := hgrown.eq nofun
    rw [heq]
    exact find?_attr hnodup
  · cases hpackage

/-- In a set of a set. -/
theorem hole_attr {opens : List Open} {a : Name} {binds : List (Name × Term)} {v t e : Term}
    (h : Hole (.bind a binds :: opens) v t) (hset : ∀ w, Hole opens w t → w.attr a.val = some e) : v = e := by
  obtain ⟨more, w, hnodup, hgrown, hhole⟩ := h
  have hattr := hset w hhole
  obtain rfl := hgrown.set_attr hattr
  rw [find?_attr hnodup] at hattr
  exact Option.some.inj hattr

theorem call_attr {opens : List Open} {names : List Name} {v t e : Term} {b : List Char} (h : Hole (.arg (.path names) :: opens) v t)
    (hcall : ∀ w, Hole opens w t → w.attr b = some e) : v.attr b = some e := by
  obtain ⟨w, hgrown, hhole⟩ := h
  have hattr := hcall w hhole
  cases hgrown with
  | refl =>
    cases v with
    | set binds => exact hattr
    | _ => cases hattr
  | @apply u x hgrown =>
    cases hgrown with
    | refl => cases hattr
    | apply y _ => cases hattr

/-! ## Pinned strings -/

/-- The string has no need of escapes, or it is what stands there in the end. -/
def Pinned (t : Term) (hole : List Open × List Char) : Prop := isRaw hole.2 = true ∨ ∀ v, Hole hole.1 v t → v = .literal hole.2

section
variable {t pkg : Term} {self self' a b : Name} {builder : Term} {formals names : List Name} {binds binds' : List (Name × Term)} {s : List Char}

theorem pinned_attr (hpackage : t.package = some (self', pkg)) (h : pkg.at [a.val] = some (.literal s)) :
    Pinned t (.bind a binds :: packageOpens self builder formals, s) := by
  refine .inr fun v hhole => ?_
  rw [Term.at, hole_package hhole hpackage] at h
  exact Option.some.inj h

theorem attr_of_at {w : Term} (hpackage : t.package = some (self', pkg)) (h : pkg.at [a.val, b.val] = some (.literal s))
    (hhole : Hole (.bind a binds :: packageOpens self builder formals) w t) : w.attr b.val = some (.literal s) := by
  rw [Term.at, hole_package hhole hpackage, Option.bind_some, Term.at] at h
  obtain ⟨e, he, h⟩ := Option.bind_eq_some_iff.mp h
  rw [he]
  exact h

theorem pinned_inner (hpackage : t.package = some (self', pkg)) (h : pkg.at [a.val, b.val] = some (.literal s)) :
    Pinned t (.bind b binds' :: .bind a binds :: packageOpens self builder formals, s) :=
  .inr fun _ hhole => hole_attr hhole fun _ hset => attr_of_at hpackage h hset

theorem pinned_call (hpackage : t.package = some (self', pkg)) (h : pkg.at [a.val, b.val] = some (.literal s)) :
    Pinned t (.bind b binds' :: .arg (.path names) :: .bind a binds :: packageOpens self builder formals, s) :=
  .inr fun _ hhole => hole_attr hhole fun _ hset => call_attr hset fun _ hcall => attr_of_at hpackage h hcall

end

/-! ## Blocks of a text -/

/-- The text reads from one state to another, with these strings put into it. -/
def Block (t : Term) (r : Reader) (cs : List Char) (r' : Reader) (strings : List (List Char)) : Prop :=
  ∃ holes, Reads r cs r' holes ∧ holes.map Prod.snd = strings ∧ ∀ hole ∈ holes, Pinned t hole

theorem Block.tokens {t : Term} {l l' : Lexer} {p p' : Reading} {st st' : Parse} {cs : List Char} (ts : List Token)
    (htokens : (run l cs).1 = l' ∧ tokenRun p (run l cs).2 = (p', ts)) (hparse : ts.foldlM advance st = some st') :
    Block t ⟨l, p, st⟩ cs ⟨l', p', st'⟩ [] := ⟨[], .tokens ts htokens hparse, rfl, nofun⟩

theorem Block.user {t : Term} {outer : List Mode} {opens : List Open} {s : List Char} (h : Pinned t (opens, s)) :
    Block t (.spelling .string outer opens []) (s ++ ['"']) ⟨⟨.code, outer⟩, .nothing, given (.literal s) opens⟩ [s] :=
  ⟨[(opens, s)], .user s outer opens, rfl, fun _ hmem => List.mem_singleton.mp hmem ▸ h⟩

theorem Block.append {t : Term} {r r' r'' : Reader} {cs ds : List Char} {strings strings' : List (List Char)}
    (h : Block t r cs r' strings) (h' : Block t r' ds r'' strings') : Block t r (cs ++ ds) r'' (strings ++ strings') := by
  obtain ⟨holes, hreads, rfl, hpinned⟩ := h
  obtain ⟨holes', hreads', rfl, hpinned'⟩ := h'
  refine ⟨holes ++ holes', hreads.append hreads', List.map_append, fun hole hmem => ?_⟩
  rcases List.mem_append.mp hmem with hmem | hmem
  · exact hpinned hole hmem
  · exact hpinned' hole hmem

theorem Block.of_eq {t : Term} {r r' : Reader} {cs cs' : List Char} {strings strings' : List (List Char)} (h : Block t r cs r' strings)
    (hcs : cs' = cs) (hstrings : strings' = strings) : Block t r cs' r' strings' := by
  rw [hcs, hstrings]
  exact h

/-- With strings that need no escapes the text is read as it is meant. -/
theorem Block.feed {t : Term} {r r' : Reader} {cs : List Char} {strings : List (List Char)} (h : Block t r cs r' strings)
    (hraw : ∀ s ∈ strings, isRaw s = true) : r.feed cs = some r' := by
  obtain ⟨holes, hreads, rfl, -⟩ := h
  exact hreads.feed fun hole hmem => hraw _ (List.mem_map_of_mem hmem)

/-- And a term where the strings are what they are has only such strings. -/
theorem Block.raw {t : Term} {r r' : Reader} {cs rest : List Char} {strings : List (List Char)} (h : Block t r cs r' strings)
    (hcomplete : r.complete (cs ++ rest) = some t) : ∀ s ∈ strings, isRaw s = true := by
  obtain ⟨holes, hreads, rfl, hpinned⟩ := h
  intro s hmem
  obtain ⟨hole, hhole, rfl⟩ := List.mem_map.mp hmem
  exact hreads.raw hpinned hcomplete hole hhole

/-! ## Texts -/

/-- The antiquotations are attributes of the set that `self` is. -/
def Part.text (self : Name) (attr : List Char → Option (List Char)) : Part → Option (List Char)
  | .char c => some [c]
  | .antiquote (.path [x, a]) => if x = self then attr a.val else none
  | .antiquote _ => none

/-- The text of a string in a set that refers to itself, with so much fuel. -/
def Term.text (self : Name) (pkg : Term) : Nat → Term → Option (List Char)
  | fuel + 1, .string parts => (parts.mapM (Part.text self fun a => (pkg.attr a).bind (Term.text self pkg fuel))).map List.flatten
  | _, _ => none

def Term.Evaluates (self : Name) (pkg e : Term) (s : List Char) : Prop := ∃ fuel, Term.text self pkg fuel e = some s

theorem mapM_char (self : Name) (attr : List Char → Option (List Char)) : ∀ s : List Char,
    (s.map Part.char).mapM (Part.text self attr) = some (s.map ([·]))
  | [] => rfl
  | c :: s => by
    rw [List.map_cons, List.mapM_cons, mapM_char self attr s]
    rfl

theorem flatten_map_singleton : ∀ s : List Char, (s.map ([·])).flatten = s
  | [] => rfl
  | c :: s => by
    rw [List.map_cons, List.flatten_cons, flatten_map_singleton s, List.singleton_append]

theorem text_literal (self : Name) (pkg : Term) (fuel : Nat) (s : List Char) : Term.text self pkg (fuel + 1) (.literal s) = some s := by
  rw [Term.literal, Term.text, mapM_char, Option.map_some, flatten_map_singleton]

theorem evaluates_literal (self : Name) (pkg : Term) (s : List Char) : Term.Evaluates self pkg (.literal s) s := ⟨1, text_literal self pkg 0 s⟩

/-- A text before an attribute of the set. -/
theorem evaluates_attr (self : Name) {pkg : Term} {a : Name} {value : List Char} (ha : pkg.attr a.val = some (.literal value))
    (s s' : List Char) : Term.Evaluates self pkg (.string (s.map .char ++ [.antiquote (.path [self, a])])) s' ↔ s' = s ++ value := by
  have hparts : ∀ fuel, Term.text self pkg (fuel + 1) (.string (s.map .char ++ [.antiquote (.path [self, a])])) =
      (Term.text self pkg fuel (.literal value)).map (s ++ ·) := by
    intro fuel
    rw [Term.text, List.mapM_append, mapM_char]
    simp only [List.mapM_cons, List.mapM_nil, Part.text, if_true, ha, Option.bind_some, Option.pure_def, Option.bind_eq_bind]
    cases Term.text self pkg fuel (.literal value) with
    | none => rfl
    | some text => simp [flatten_map_singleton]
  constructor
  · rintro ⟨fuel, h⟩
    cases fuel with
    | zero => cases h
    | succ fuel =>
      rw [hparts] at h
      cases fuel with
      | zero => cases h
      | succ fuel =>
        rw [text_literal] at h
        exact (Option.some.inj h).symm
  · rintro rfl
    refine ⟨2, ?_⟩
    rw [hparts, text_literal]
    rfl

/-! ## Scopes -/

mutual

/-- Every name is one of the scope or of a function around it. -/
def Term.scoped : List Name → Term → Bool
  | _, .path [] => false
  | scope, .path (x :: _) => x ∈ scope
  | _, .file _ => true
  | scope, .string parts => Part.allScoped scope parts
  | scope, .list items => Term.allScoped scope items
  | scope, .set binds => Term.bindsScoped scope binds
  | scope, .apply f x => f.scoped scope && x.scoped scope
  | scope, .lambda x body => body.scoped (x :: scope)
  | scope, .function formals body => body.scoped (formals ++ scope)

def Term.allScoped : List Name → List Term → Bool
  | _, [] => true
  | scope, e :: es => e.scoped scope && Term.allScoped scope es

def Term.bindsScoped : List Name → List (Name × Term) → Bool
  | _, [] => true
  | scope, (_, e) :: binds => e.scoped scope && Term.bindsScoped scope binds

def Part.allScoped : List Name → List Part → Bool
  | _, [] => true
  | scope, .char _ :: parts => Part.allScoped scope parts
  | scope, .antiquote e :: parts => e.scoped scope && Part.allScoped scope parts

end

theorem scoped_literal (scope : List Name) (s : List Char) : (Term.literal s).scoped scope = true := by
  rw [Term.literal, Term.scoped]
  induction s with
  | nil => rfl
  | cons c s ih => exact ih

theorem bindsScoped_append (scope : List Name) : ∀ binds binds' : List (Name × Term),
    Term.bindsScoped scope (binds ++ binds') = (Term.bindsScoped scope binds && Term.bindsScoped scope binds')
  | [], _ => rfl
  | (a, e) :: binds, binds' => by
    rw [List.cons_append, Term.bindsScoped, Term.bindsScoped, bindsScoped_append scope binds binds', Bool.and_assoc]

end Nix
