import Mathlib

/-!
# File systems with symbolic links

A path is walked component by component; a link puts its target in front of what
is left of the path, and only so many links are followed. The location that a
path resolves to is free of links, so walking to it again leads to it.
-/

namespace Links
variable {β : Type}

/-- The names from the innermost one outwards; the root is `[]`. -/
abbrev Location := List String

inductive Component where
  | curDir
  | parentDir
  | normal (name : String)
  deriving DecidableEq

/-- An empty segment asks for a directory, as `.` does. -/
def Component.ofSegment (segment : String) : Component :=
  if segment = "" ∨ segment = "." then .curDir
  else if segment = ".." then .parentDir
  else .normal segment

inductive Entry (β : Type) where
  | directory
  | file (contents : β)
  | symlink (absolute : Bool) (target : List Component)

def Entry.isDirectory : Entry β → Bool
  | .directory => true
  | _ => false

def Entry.isSymlink : Entry β → Bool
  | .symlink _ _ => true
  | _ => false

/-- What a directory entry can be called. -/
def ValidName (name : String) : Prop :=
  Component.ofSegment name = .normal name ∧ '/' ∉ name.toList ∧ Char.ofNat 0 ∉ name.toList

structure FileSystem (β : Type) where
  entry : Location → Option (Entry β)
  root : entry [] = some .directory
  parent : ∀ name loc, (entry (name :: loc)).isSome = true → entry loc = some .directory
  valid : ∀ name loc, (entry (name :: loc)).isSome = true → ValidName name

namespace FileSystem
variable (fs : FileSystem β)

def isDirectory (loc : Location) : Bool := (fs.entry loc).any Entry.isDirectory

/-- `follow` goes on behind a link. -/
def walk (follow : Location → List Component → Option Location) : Location → List Component → Option Location
  | here, [] => some here
  | here, .curDir :: rest => if fs.isDirectory here then walk follow here rest else none
  | here, .parentDir :: rest => if fs.isDirectory here then walk follow here.tail rest else none
  | here, .normal name :: rest =>
    match fs.entry (name :: here) with
    | none => none
    | some (.symlink absolute target) => follow (if absolute then [] else here) (target ++ rest)
    | some _ => walk follow (name :: here) rest

def resolve : Nat → Location → List Component → Option Location
  | 0 => fs.walk fun _ _ => none
  | links + 1 => fs.walk (resolve links)

/-- There is something at the location, and it is no link. -/
def Real (loc : Location) : Prop := ∃ e, fs.entry loc = some e ∧ e.isSymlink = false

variable {fs}

theorem isDirectory_eq {loc : Location} (h : fs.isDirectory loc = true) : fs.entry loc = some .directory := by
  obtain ⟨e, he, hdirectory⟩ := Option.any_eq_true _ _ |>.mp h
  cases e with
  | directory => exact he
  | file contents => cases hdirectory
  | symlink absolute target => cases hdirectory

theorem real_of_directory {loc : Location} (h : fs.entry loc = some .directory) : fs.Real loc := ⟨_, h, rfl⟩

theorem real_root : fs.Real [] := real_of_directory fs.root

theorem real_tail : ∀ {loc : Location}, fs.Real loc → fs.Real loc.tail
  | [], h => h
  | name :: loc, ⟨e, he, _⟩ => real_of_directory (fs.parent name loc (by rw [he]; rfl))

theorem walk_real {follow : Location → List Component → Option Location}
    (hfollow : ∀ here todo loc, fs.Real here → follow here todo = some loc → fs.Real loc) :
    ∀ (todo : List Component) (here loc : Location), fs.Real here → fs.walk follow here todo = some loc → fs.Real loc
  | [], here, loc, hreal, h => by
    cases h
    exact hreal
  | .curDir :: rest, here, loc, hreal, h => by
    unfold walk at h
    split at h
    · exact walk_real hfollow rest here loc hreal h
    · cases h
  | .parentDir :: rest, here, loc, hreal, h => by
    unfold walk at h
    split at h
    · exact walk_real hfollow rest here.tail loc (real_tail hreal) h
    · cases h
  | .normal name :: rest, here, loc, hreal, h => by
    unfold walk at h
    split at h
    · cases h
    · rename_i absolute target _
      refine hfollow _ _ _ ?_ h
      cases absolute with
      | true => exact real_root
      | false => exact hreal
    · rename_i e hnotlink he
      refine walk_real hfollow rest (name :: here) loc ⟨e, he, ?_⟩ h
      cases e with
      | directory => rfl
      | file contents => rfl
      | symlink absolute target => exact absurd rfl (hnotlink absolute target)

/-- What a path resolves to is no link. -/
theorem resolve_real : ∀ (links : Nat) (here : Location) (todo : List Component) (loc : Location), fs.Real here →
    fs.resolve links here todo = some loc → fs.Real loc
  | 0, here, todo, loc, hreal, h => by
    have hfollow : ∀ (here : Location) (todo : List Component) (loc : Location), fs.Real here →
        (fun (_ : Location) (_ : List Component) => (none : Option Location)) here todo = some loc → fs.Real loc :=
      fun _ _ _ _ h => (by cases h)
    exact walk_real hfollow todo here loc hreal h
  | links + 1, here, todo, loc, hreal, h => walk_real (fun here todo loc => resolve_real links here todo loc) todo here loc hreal h

theorem resolve_eq_walk (links : Nat) : ∃ follow, fs.resolve links = fs.walk follow := by
  cases links with
  | zero => exact ⟨_, rfl⟩
  | succ links => exact ⟨_, rfl⟩

theorem walk_normal {follow : Location → List Component → Option Location} {name : String} {here : Location} {rest : List Component}
    (h : fs.Real (name :: here)) : fs.walk follow here (.normal name :: rest) = fs.walk follow (name :: here) rest := by
  obtain ⟨e, he, hlink⟩ := h
  rw [walk, he]
  cases e with
  | directory => rfl
  | file contents => rfl
  | symlink absolute target => cases hlink

theorem walk_names {follow : Location → List Component → Option Location} {rest : List Component} : ∀ {loc : Location}, fs.Real loc →
    fs.walk follow [] (loc.reverse.map .normal ++ rest) = fs.walk follow loc rest
  | [], _ => rfl
  | name :: loc, h => by
    have htail : fs.Real loc := real_tail h
    rw [List.reverse_cons, List.map_append, List.append_assoc, walk_names htail]
    exact walk_normal h

/-- Walking to a location that is no link leads to it. -/
theorem resolve_names {links : Nat} {loc : Location} (h : fs.Real loc) : fs.resolve links [] (loc.reverse.map .normal) = some loc := by
  obtain ⟨follow, hfollow⟩ := fs.resolve_eq_walk links
  rw [hfollow, ← List.append_nil (loc.reverse.map Component.normal), walk_names h]
  rfl

theorem resolve_curDir_names {links : Nat} {loc : Location} (h : fs.Real loc) :
    fs.resolve links [] (.curDir :: loc.reverse.map .normal) = some loc := by
  have hroot : fs.isDirectory [] = true := by
    unfold isDirectory
    rw [fs.root]
    rfl
  have hnames : fs.resolve links [] (loc.reverse.map .normal) = some loc := resolve_names h
  obtain ⟨follow, hfollow⟩ := fs.resolve_eq_walk links
  rw [hfollow] at hnames ⊢
  rw [walk, if_pos hroot, hnames]

theorem valid_of_real : ∀ {loc : Location}, fs.Real loc → ∀ name ∈ loc, ValidName name
  | [], _, _, hmem => by cases hmem
  | name :: loc, h, name', hmem => by
    rcases List.mem_cons.mp hmem with rfl | hmem
    · obtain ⟨e, he, -⟩ := h
      exact fs.valid _ loc (by rw [he]; rfl)
    · exact valid_of_real (real_tail h) name' hmem

/-- What is left when a directory is removed with what is in it. -/
def without (fs : FileSystem β) (gone : Location) : FileSystem β where
  entry loc := if loc ≠ [] ∧ gone.isSuffixOf loc = true then none else fs.entry loc
  root := by rw [if_neg (fun h => h.1 rfl), fs.root]
  parent := by
    intro name loc h
    split at h
    · cases h
    · next hkept =>
      rw [if_neg fun hgone => hkept ⟨List.cons_ne_nil _ _, ?_⟩]
      · exact fs.parent name loc h
      · exact List.isSuffixOf_iff_suffix.mpr ((List.isSuffixOf_iff_suffix.mp hgone.2).trans (List.suffix_cons name loc))
  valid := by
    intro name loc h
    split at h
    · cases h
    · exact fs.valid name loc h

end FileSystem
end Links
