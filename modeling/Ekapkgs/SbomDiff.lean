import Ekapkgs.Sbom

/-!
# Comparing two component lists

`compute_diff` indexes both lists by package name and compares the components
that the indexes hold, in whatever order a `HashMap` yields them. Of several
components with one name the index holds the first of the largest.
-/

namespace Ekapkgs
open Keyed

/-! ## Metadata -/

inductive MetadataField where
  | license | cveAdded | cveRemoved | sourceProvenance | cpe | purl | role
  deriving DecidableEq

structure MetadataChange where
  field : MetadataField
  oldValue : String
  newValue : String
  deriving DecidableEq

def sortTexts (l : List String) : List String := l.insertionSort (· ≤ ·)

def formatLicenses (licenses : List SbomLicense) : String := join ',' (sortTexts (licenses.map fun l => l.spdxId.getD l.name))

def changeIf (differs : Bool) (field : MetadataField) (oldValue newValue : String) : List MetadataChange :=
  if differs then [⟨field, oldValue, newValue⟩] else []

/-- Compared as sorted lists; what is listed are the values on one side only. -/
def diffCves (old new : List String) : List MetadataChange :=
  let oldCves := sortTexts old
  let newCves := sortTexts new
  if oldCves ≠ newCves then
    let addedCves := newCves.filter fun c => c ∉ oldCves
    let removedCves := oldCves.filter fun c => c ∉ newCves
    changeIf (!addedCves.isEmpty) .cveAdded "" (join ',' addedCves) ++ changeIf (!removedCves.isEmpty) .cveRemoved (join ',' removedCves) ""
  else []

def diffMetadata (old new : SbomComponent) : List MetadataChange :=
  let oldLic := formatLicenses old.licenses
  let newLic := formatLicenses new.licenses
  let oldProv := sortTexts old.sourceProvenance
  let newProv := sortTexts new.sourceProvenance
  changeIf (oldLic ≠ newLic) .license oldLic newLic ++
  diffCves old.knownVulnerabilities new.knownVulnerabilities ++
  changeIf (oldProv ≠ newProv) .sourceProvenance (join ',' oldProv) (join ',' newProv) ++
  changeIf (old.cpe ≠ new.cpe) .cpe (old.cpe.getD "") (new.cpe.getD "") ++
  changeIf (old.purl ≠ new.purl) .purl (old.purl.getD "") (new.purl.getD "") ++
  changeIf (old.role ≠ new.role ∧ old.role ≠ "" ∧ new.role ≠ "") .role old.role new.role

/-! ## The index -/

/-- A component replaces a strictly smaller one of its name. -/
def indexComponent (map : Table String SbomComponent) (comp : SbomComponent) : Table String SbomComponent :=
  match map.get? comp.pname with
  | none => map.insertOrReplace comp.pname comp
  | some existing => if comp.narSize > existing.narSize then map.insertOrReplace comp.pname comp else map

def indexByPname (components : List SbomComponent) : Table String SbomComponent := components.foldl indexComponent .empty

/-! ## The comparison -/

inductive DiffStatus where
  | added | removed | changed | metadata
  deriving DecidableEq

structure DiffEntry where
  status : DiffStatus
  pname : String
  oldVersion : String
  newVersion : String
  oldNarSize : UInt64
  newNarSize : UInt64
  role : String
  purl : Option String
  metadataChanges : List MetadataChange
  deriving DecidableEq

structure DiffSummary where
  oldCount : Nat
  newCount : Nat
  added : Nat
  removed : Nat
  changed : Nat
  /-- An `i64`, which wraps around. -/
  sizeDelta : BitVec 64

structure ComponentDiff where
  added : List DiffEntry
  removed : List DiffEntry
  changed : List DiffEntry
  summary : DiffSummary

abbrev PnameRow := String × SbomComponent

def changedEntry (newByName : Table String SbomComponent) (row : PnameRow) : Option DiffEntry :=
  let oldComp := row.2
  (newByName.get? row.1).bind fun newComp =>
    let metadataChanges := diffMetadata oldComp newComp
    let pathChanged := oldComp.storePaths ≠ newComp.storePaths
    if pathChanged ∨ metadataChanges ≠ [] then
      some { status := if pathChanged then .changed else .metadata, pname := row.1, oldVersion := oldComp.version,
             newVersion := newComp.version, oldNarSize := oldComp.narSize, newNarSize := newComp.narSize,
             role := if newComp.role = "" then oldComp.role else newComp.role, purl := newComp.purl.or oldComp.purl, metadataChanges }
    else none

def removedEntry (newByName : Table String SbomComponent) (row : PnameRow) : Option DiffEntry :=
  if newByName.contains row.1 then none
  else some { status := .removed, pname := row.1, oldVersion := row.2.version, newVersion := "", oldNarSize := row.2.narSize, newNarSize := 0,
              role := row.2.role, purl := row.2.purl, metadataChanges := [] }

def addedEntry (oldByName : Table String SbomComponent) (row : PnameRow) : Option DiffEntry :=
  if oldByName.contains row.1 then none
  else some { status := .added, pname := row.1, oldVersion := "", newVersion := row.2.version, oldNarSize := 0, newNarSize := row.2.narSize,
              role := row.2.role, purl := row.2.purl,
              metadataChanges := changeIf (!row.2.knownVulnerabilities.isEmpty) .cveAdded "" (join ',' row.2.knownVulnerabilities) }

/-- What the loop over the old packages adds to the size delta. -/
def oldDelta (newByName : Table String SbomComponent) (row : PnameRow) : BitVec 64 :=
  match newByName.get? row.1 with
  | some newComp => if (changedEntry newByName row).isSome then newComp.narSize.toBitVec - row.2.narSize.toBitVec else 0
  | none => -row.2.narSize.toBitVec

/-- What the loop over the new ones adds. -/
def newDelta (oldByName : Table String SbomComponent) (row : PnameRow) : BitVec 64 :=
  if oldByName.contains row.1 then 0 else row.2.narSize.toBitVec

def sortByPname (entries : List DiffEntry) : List DiffEntry := entries.insertionSort fun a b => a.pname ≤ b.pname

/-- The order in which a `HashMap` yields its rows. -/
structure HashOrder where
  order : List PnameRow → List PnameRow
  perm : ∀ rows, (order rows).Perm rows

def computeDiff (hash : HashOrder) (old new : List SbomComponent) : ComponentDiff :=
  let oldByName := indexByPname old
  let newByName := indexByPname new
  let olds := hash.order oldByName.rows
  let news := hash.order newByName.rows
  let changed := olds.filterMap (changedEntry newByName)
  let removed := olds.filterMap (removedEntry newByName)
  let added := news.filterMap (addedEntry oldByName)
  let sizeDelta := olds.foldl (fun delta row => delta + oldDelta newByName row) 0
  let sizeDelta := news.foldl (fun delta row => delta + newDelta oldByName row) sizeDelta
  { added := sortByPname added, removed := sortByPname removed, changed := sortByPname changed
    summary := ⟨oldByName.rows.length, newByName.rows.length, added.length, removed.length, changed.length, sizeDelta⟩ }

/-! ## Representatives -/

/-- The index has, under each name, one of the largest components. -/
structure IndexOf (map : Table String SbomComponent) (components : List SbomComponent) : Prop where
  largest : ∀ p c, map.get? p = some c → c ∈ components ∧ c.pname = p ∧ ∀ b ∈ components, b.pname = p → b.narSize ≤ c.narSize
  covers : ∀ b ∈ components, ∃ c, map.get? b.pname = some c

/-- No name has two different components of the largest size. -/
def Untied (components : List SbomComponent) : Prop :=
  ∀ a ∈ components, ∀ b ∈ components, a.pname = b.pname → (∀ c ∈ components, c.pname = a.pname → c.narSize ≤ a.narSize ∧ c.narSize ≤ b.narSize) →
    a = b

instance (components : List SbomComponent) : Decidable (Untied components) :=
  inferInstanceAs (Decidable (∀ a ∈ components, ∀ b ∈ components, a.pname = b.pname →
    (∀ c ∈ components, c.pname = a.pname → c.narSize ≤ a.narSize ∧ c.narSize ≤ b.narSize) → a = b))

variable {components old old' new new' : List SbomComponent}

theorem IndexOf.replace {map : Table String SbomComponent} (h : IndexOf map components) {comp : SbomComponent}
    (hmax : ∀ b ∈ components, b.pname = comp.pname → b.narSize ≤ comp.narSize) :
    IndexOf (map.insertOrReplace comp.pname comp) (components ++ [comp]) := by
  refine ⟨fun p c hc => ?_, fun b hb => ?_⟩
  · rw [Table.get?_insertOrReplace] at hc
    split at hc
    · rename_i hp
      cases hc
      refine ⟨List.mem_append_right _ (List.mem_singleton_self _), hp.symm, fun b hb hbp => ?_⟩
      rcases List.mem_append.mp hb with hb | hb
      · exact hmax b hb (hbp.trans hp)
      · rw [List.mem_singleton.mp hb]
        exact UInt64.le_refl _
    · rename_i hp
      obtain ⟨hmem, hpname, hmax'⟩ := h.largest p c hc
      refine ⟨List.mem_append_left _ hmem, hpname, fun b hb hbp => ?_⟩
      rcases List.mem_append.mp hb with hb | hb
      · exact hmax' b hb hbp
      · rw [List.mem_singleton.mp hb] at hbp
        exact absurd hbp.symm hp
  · rw [Table.get?_insertOrReplace]
    split
    · exact ⟨comp, rfl⟩
    · rename_i hp
      rcases List.mem_append.mp hb with hb | hb
      · exact h.covers b hb
      · rw [List.mem_singleton.mp hb] at hp
        exact absurd rfl hp

theorem IndexOf.add {map : Table String SbomComponent} (h : IndexOf map components) (comp : SbomComponent) :
    IndexOf (indexComponent map comp) (components ++ [comp]) := by
  unfold indexComponent
  cases hget : map.get? comp.pname with
  | none =>
    refine h.replace fun b hb hbp => ?_
    obtain ⟨c, hc⟩ := h.covers b hb
    rw [hbp, hget] at hc
    cases hc
  | some existing =>
    obtain ⟨hexisting, hname, hmax⟩ := h.largest _ _ hget
    dsimp only
    split
    · rename_i hgt
      exact h.replace fun b hb hbp => UInt64.le_of_lt (UInt64.lt_of_le_of_lt (hmax b hb hbp) hgt)
    · rename_i hle
      refine ⟨fun p c hc => ?_, fun b hb => ?_⟩
      · obtain ⟨hmem, hpname, hmax'⟩ := h.largest p c hc
        refine ⟨List.mem_append_left _ hmem, hpname, fun b hb hbp => ?_⟩
        rcases List.mem_append.mp hb with hb | hb
        · exact hmax' b hb hbp
        · rw [List.mem_singleton.mp hb] at hbp ⊢
          rw [← hbp, hget] at hc
          cases hc
          exact UInt64.not_lt.mp hle
      · rcases List.mem_append.mp hb with hb | hb
        · exact h.covers b hb
        · rw [List.mem_singleton.mp hb]
          exact ⟨existing, hget⟩

theorem IndexOf.foldl : ∀ (more : List SbomComponent) {map : Table String SbomComponent} {components : List SbomComponent},
    IndexOf map components → IndexOf (more.foldl indexComponent map) (components ++ more)
  | [], _, _, h => by rwa [List.append_nil]
  | comp :: more, _, _, h => by
    have hrest := IndexOf.foldl more (h.add comp)
    rwa [List.append_assoc] at hrest

theorem indexByPname_of (components : List SbomComponent) : IndexOf (indexByPname components) components :=
  by
  have hempty : IndexOf .empty [] := ⟨fun _ _ h => (by cases h), nofun⟩
  exact hempty.foldl components

/-- Where no name is tied, the order of the list does not matter. -/
theorem get?_indexByPname_perm (hperm : old.Perm old') (huntied : Untied old) (p : String) :
    (indexByPname old).get? p = (indexByPname old').get? p := by
  have h := indexByPname_of old
  have h' := indexByPname_of old'
  cases hget : (indexByPname old).get? p with
  | none =>
    cases hget' : (indexByPname old').get? p with
    | none => rfl
    | some c' =>
      obtain ⟨hmem, rfl, -⟩ := h'.largest _ _ hget'
      obtain ⟨c, hc⟩ := h.covers c' (hperm.mem_iff.mpr hmem)
      rw [hget] at hc
      cases hc
  | some c =>
    obtain ⟨hmem, rfl, hmax⟩ := h.largest _ _ hget
    obtain ⟨c', hc'⟩ := h'.covers c (hperm.mem_iff.mp hmem)
    obtain ⟨hmem', hname', hmax'⟩ := h'.largest _ _ hc'
    rw [hc', huntied c hmem c' (hperm.mem_iff.mpr hmem') hname'.symm
      fun b hb hbp => ⟨hmax b hb hbp, hmax' b (hperm.mem_iff.mp hb) hbp⟩]

/-! ## The order of the rows -/

theorem rows_perm {t t' : Table String SbomComponent} (h : ∀ p, t.get? p = t'.get? p) : t.rows.Perm t'.rows := by
  refine (List.perm_ext_iff_of_nodup (List.Nodup.of_map _ t.nodup) (List.Nodup.of_map _ t'.nodup)).mpr fun row => ?_
  obtain ⟨p, c⟩ := row
  rw [← Table.get?_eq_some, ← Table.get?_eq_some, h]

theorem changedEntry_pname {t : Table String SbomComponent} {row : PnameRow} {e : DiffEntry} (h : changedEntry t row = some e) : e.pname = row.1 := by
  obtain ⟨newComp, -, h⟩ := Option.bind_eq_some_iff.mp h
  dsimp only at h
  split at h
  · rw [← Option.some.inj h]
  · cases h

theorem removedEntry_pname {t : Table String SbomComponent} {row : PnameRow} {e : DiffEntry} (h : removedEntry t row = some e) : e.pname = row.1 := by
  unfold removedEntry at h
  split at h
  · cases h
  · rw [← Option.some.inj h]

theorem addedEntry_pname {t : Table String SbomComponent} {row : PnameRow} {e : DiffEntry} (h : addedEntry t row = some e) : e.pname = row.1 := by
  unfold addedEntry at h
  split at h
  · cases h
  · rw [← Option.some.inj h]

theorem pnames_nodup {f : PnameRow → Option DiffEntry} (hf : ∀ row e, f row = some e → e.pname = row.1) : ∀ {rows : List PnameRow},
    (rows.map Prod.fst).Nodup → ((rows.filterMap f).map DiffEntry.pname).Nodup
  | [], _ => List.nodup_nil
  | row :: rows, h => by
    rw [List.map_cons, List.nodup_cons] at h
    rw [List.filterMap_cons]
    cases hrow : f row with
    | none => exact pnames_nodup hf h.2
    | some e =>
      rw [List.map_cons, List.nodup_cons]
      refine ⟨fun hmem => h.1 ?_, pnames_nodup hf h.2⟩
      obtain ⟨e', he', hpname⟩ := List.mem_map.mp hmem
      obtain ⟨row', hrow', hf'⟩ := List.mem_filterMap.mp he'
      exact List.mem_map.mpr ⟨row', hrow', by rw [← hf row' e' hf', hpname, hf row e hrow]⟩

/-- Entries of different names have one sorted order. -/
theorem sortByPname_perm {entries entries' : List DiffEntry} (hperm : entries.Perm entries') (hnodup : (entries.map DiffEntry.pname).Nodup) :
    sortByPname entries = sortByPname entries' := by
  have hmem : ∀ e, e ∈ sortByPname entries' → e ∈ entries := fun e he => hperm.mem_iff.mpr ((List.perm_insertionSort _ _).mem_iff.mp he)
  have : Std.Total fun a b : DiffEntry => a.pname ≤ b.pname := ⟨fun a b => le_total a.pname b.pname⟩
  have : IsTrans DiffEntry fun a b => a.pname ≤ b.pname := ⟨fun _ _ _ => le_trans⟩
  refine List.Perm.eq_of_pairwise (fun a b ha hb hab hba => ?_) (List.pairwise_insertionSort _ _) (List.pairwise_insertionSort _ _)
    ((List.perm_insertionSort _ _).trans (hperm.trans (List.perm_insertionSort _ _).symm))
  exact List.inj_on_of_nodup_map hnodup ((List.perm_insertionSort _ _).mem_iff.mp ha) (hmem b hb) (le_antisymm hab hba)

theorem foldl_add {f : PnameRow → BitVec 64} : ∀ (rows : List PnameRow) (delta : BitVec 64),
    rows.foldl (fun delta row => delta + f row) delta = delta + (rows.map f).sum
  | [], delta => by simp
  | row :: rows, delta => by rw [List.foldl_cons, foldl_add rows, List.map_cons, List.sum_cons, add_assoc]

theorem HashOrder.nodup (hash : HashOrder) (t : Table String SbomComponent) : ((hash.order t.rows).map Prod.fst).Nodup :=
  (((hash.perm t.rows).map Prod.fst).nodup_iff).mpr t.nodup

/-- The rows that a loop sees, whatever the order of the list and of the index. -/
theorem HashOrder.rows_perm (hash hash' : HashOrder) {t t' : Table String SbomComponent} (h : ∀ p, t.get? p = t'.get? p) :
    (hash.order t.rows).Perm (hash'.order t'.rows) :=
  (hash.perm t.rows).trans ((Ekapkgs.rows_perm h).trans (hash'.perm t'.rows).symm)

theorem computeDiff_congr (hash hash' : HashOrder) (hold : ∀ p, (indexByPname old).get? p = (indexByPname old').get? p)
    (hnew : ∀ p, (indexByPname new).get? p = (indexByPname new').get? p) : computeDiff hash old new = computeDiff hash' old' new' := by
  have holds := hash.rows_perm hash' hold
  have hnews := hash.rows_perm hash' hnew
  have hchanged : changedEntry (indexByPname new) = changedEntry (indexByPname new') := by
    funext row; unfold changedEntry; rw [hnew]
  have hremoved : removedEntry (indexByPname new) = removedEntry (indexByPname new') := by
    funext row; unfold removedEntry; rw [Table.contains_eq_isSome, Table.contains_eq_isSome, hnew]
  have hadded : addedEntry (indexByPname old) = addedEntry (indexByPname old') := by
    funext row; unfold addedEntry; rw [Table.contains_eq_isSome, Table.contains_eq_isSome, hold]
  have holdDelta : oldDelta (indexByPname new) = oldDelta (indexByPname new') := by
    funext row; unfold oldDelta; rw [hnew, hchanged]
  have hnewDelta : newDelta (indexByPname old) = newDelta (indexByPname old') := by
    funext row; unfold newDelta; rw [Table.contains_eq_isSome, Table.contains_eq_isSome, hold]
  have hlength := fun f : PnameRow → Option DiffEntry => (holds.filterMap f).length_eq
  have hlength' := fun f : PnameRow → Option DiffEntry => (hnews.filterMap f).length_eq
  unfold computeDiff
  dsimp only
  rw [← hchanged, ← hremoved, ← hadded, ← holdDelta, ← hnewDelta]
  simp only [foldl_add]
  rw [sortByPname_perm (hnews.filterMap _) (pnames_nodup (fun _ _ => addedEntry_pname) (hash.nodup _)),
    sortByPname_perm (holds.filterMap _) (pnames_nodup (fun _ _ => removedEntry_pname) (hash.nodup _)),
    sortByPname_perm (holds.filterMap (changedEntry _)) (pnames_nodup (fun _ _ => changedEntry_pname) (hash.nodup _)),
    hlength, hlength, hlength', (holds.map _).sum_eq, (hnews.map _).sum_eq, (Ekapkgs.rows_perm hold).length_eq, (Ekapkgs.rows_perm hnew).length_eq]

/-! ## A list against itself -/

theorem diffMetadata_self (c : SbomComponent) : diffMetadata c c = [] := by
  simp [diffMetadata, diffCves, changeIf]

theorem changedEntry_self {t : Table String SbomComponent} {row : PnameRow} (h : row ∈ t.rows) : changedEntry t row = none := by
  unfold changedEntry
  rw [Table.get?_eq_some.mpr h, Option.bind_some, diffMetadata_self]
  simp

/-- What is left when both indexes hold the same. -/
theorem computeDiff_self (hash : HashOrder) (components : List SbomComponent) :
    (computeDiff hash components components).added = [] ∧ (computeDiff hash components components).removed = [] ∧
      (computeDiff hash components components).changed = [] := by
  have hrows : ∀ row ∈ hash.order (indexByPname components).rows, row ∈ (indexByPname components).rows := fun row hrow =>
    (hash.perm _).mem_iff.mp hrow
  have hcontains : ∀ row ∈ (indexByPname components).rows, (indexByPname components).contains row.1 = true := fun row hrow =>
    Table.contains_iff_mem.mpr (List.mem_map_of_mem hrow)
  have hadded : (hash.order (indexByPname components).rows).filterMap (addedEntry (indexByPname components)) = [] :=
    List.filterMap_eq_nil_iff.mpr fun row hrow => if_pos (hcontains row (hrows row hrow))
  have hremoved : (hash.order (indexByPname components).rows).filterMap (removedEntry (indexByPname components)) = [] :=
    List.filterMap_eq_nil_iff.mpr fun row hrow => if_pos (hcontains row (hrows row hrow))
  have hchanged : (hash.order (indexByPname components).rows).filterMap (changedEntry (indexByPname components)) = [] :=
    List.filterMap_eq_nil_iff.mpr fun row hrow => changedEntry_self (hrows row hrow)
  unfold computeDiff
  dsimp only
  rw [hadded, hremoved, hchanged]
  exact ⟨rfl, rfl, rfl⟩

/-! ## The size delta -/

/-- How an entry changes the size of the closure. -/
def DiffEntry.growth (e : DiffEntry) : Int := e.newNarSize.toNat - e.oldNarSize.toNat

def ComponentDiff.entries (diff : ComponentDiff) : List DiffEntry := diff.added ++ diff.removed ++ diff.changed

theorem toBitVec_eq (n : UInt64) : n.toBitVec = BitVec.ofInt 64 n.toNat := by
  rw [BitVec.ofInt_natCast, ← UInt64.toNat_toBitVec, BitVec.ofNat_toNat, BitVec.setWidth_eq]

theorem ofInt_growth (a b : UInt64) : BitVec.ofInt 64 ((a.toNat : Int) - b.toNat) = a.toBitVec - b.toBitVec := by
  rw [sub_eq_add_neg, BitVec.ofInt_add, BitVec.ofInt_neg, ← toBitVec_eq, ← toBitVec_eq, ← sub_eq_add_neg]

theorem ofInt_sum {α : Type} (f : α → Int) (l : List α) : BitVec.ofInt 64 (l.map f).sum = (l.map fun a => BitVec.ofInt 64 (f a)).sum := by
  induction l with
  | nil => rfl
  | cons a l ih => rw [List.map_cons, List.sum_cons, BitVec.ofInt_add, ih, List.map_cons, List.sum_cons]

/-- A loop adds up what the entries of its rows say. -/
theorem sum_filterMap {f : PnameRow → Option DiffEntry} (rows : List PnameRow) :
    (rows.map fun row => (f row).elim 0 fun e => BitVec.ofInt 64 e.growth).sum =
      BitVec.ofInt 64 ((rows.filterMap f).map DiffEntry.growth).sum := by
  induction rows with
  | nil => rfl
  | cons row rows ih =>
    rw [List.map_cons, List.sum_cons, ih, List.filterMap_cons]
    cases f row with
    | none => exact zero_add _
    | some e => rw [List.map_cons, List.sum_cons, BitVec.ofInt_add]; rfl

theorem changedEntry_sizes {t : Table String SbomComponent} {row : PnameRow} {e : DiffEntry} (h : changedEntry t row = some e) :
    ∃ newComp, t.get? row.1 = some newComp ∧ e.oldNarSize = row.2.narSize ∧ e.newNarSize = newComp.narSize := by
  obtain ⟨newComp, hget, h⟩ := Option.bind_eq_some_iff.mp h
  refine ⟨newComp, hget, ?_⟩
  dsimp only at h
  split at h
  · rw [← Option.some.inj h]
    exact ⟨rfl, rfl⟩
  · cases h

theorem oldDelta_eq (t : Table String SbomComponent) (row : PnameRow) : oldDelta t row =
    ((changedEntry t row).elim 0 fun e => BitVec.ofInt 64 e.growth) + (removedEntry t row).elim 0 fun e => BitVec.ofInt 64 e.growth := by
  unfold oldDelta removedEntry
  rw [Table.contains_eq_isSome]
  cases hget : t.get? row.1 with
  | none =>
    have hchanged : changedEntry t row = none := by unfold changedEntry; rw [hget]; rfl
    rw [hchanged]
    simp only [Option.isSome_none, Bool.false_eq_true, if_false, Option.elim_none, Option.elim_some, zero_add, DiffEntry.growth, ofInt_growth]
    exact (zero_sub _).symm
  | some newComp =>
    rw [Option.isSome_some, if_pos rfl, Option.elim_none, add_zero]
    dsimp only
    cases hchanged : changedEntry t row with
    | none => rfl
    | some e =>
      obtain ⟨newComp', hget', hold, hnew⟩ := changedEntry_sizes hchanged
      rw [hget] at hget'
      cases hget'
      rw [Option.isSome_some, if_pos rfl, Option.elim_some, DiffEntry.growth, ofInt_growth, hold, hnew]

theorem newDelta_eq (t : Table String SbomComponent) (row : PnameRow) :
    newDelta t row = (addedEntry t row).elim 0 fun e => BitVec.ofInt 64 e.growth := by
  unfold newDelta addedEntry
  split
  · rfl
  · simp only [Option.elim_some, DiffEntry.growth, ofInt_growth]
    exact (sub_zero _).symm

theorem sum_sortByPname (entries : List DiffEntry) : ((sortByPname entries).map DiffEntry.growth).sum = (entries.map DiffEntry.growth).sum :=
  ((List.perm_insertionSort _ _).map _).sum_eq

/-- The size delta is what the reported packages have grown by. -/
theorem sizeDelta_eq (hash : HashOrder) (old new : List SbomComponent) : (computeDiff hash old new).summary.sizeDelta =
    BitVec.ofInt 64 ((computeDiff hash old new).entries.map DiffEntry.growth).sum := by
  unfold computeDiff ComponentDiff.entries
  dsimp only
  simp only [foldl_add, List.map_append, List.sum_append, sum_sortByPname, BitVec.ofInt_add, ← sum_filterMap]
  have holds : (hash.order (indexByPname old).rows).map (oldDelta (indexByPname new)) =
      (hash.order (indexByPname old).rows).map fun row => ((changedEntry (indexByPname new) row).elim 0 fun e => BitVec.ofInt 64 e.growth) +
        (removedEntry (indexByPname new) row).elim 0 fun e => BitVec.ofInt 64 e.growth :=
    List.map_congr_left fun row _ => oldDelta_eq _ row
  have hnews : (hash.order (indexByPname new).rows).map (newDelta (indexByPname old)) =
      (hash.order (indexByPname new).rows).map fun row => (addedEntry (indexByPname old) row).elim 0 fun e => BitVec.ofInt 64 e.growth :=
    List.map_congr_left fun row _ => newDelta_eq _ row
  rw [holds, hnews, List.sum_map_add, zero_add, add_comm]
  ac_rfl

/-- Over the keys that two tables share, from either side. -/
theorem sum_shared {M : Type} [AddCommMonoid M] (t t' : Table String SbomComponent) (f : SbomComponent → M) :
    (t.rows.map fun row => (t'.get? row.1).elim 0 f).sum = (t'.rows.map fun row => if t.contains row.1 then f row.2 else 0).sum := by
  have hleft : ∀ rows : List PnameRow, (rows.map fun row => (t'.get? row.1).elim 0 f).sum =
      ((rows.filterMap fun row => (t'.get? row.1).map fun c => (row.1, c)).map fun row => f row.2).sum := by
    intro rows
    induction rows with
    | nil => rfl
    | cons row rows ih =>
      rw [List.map_cons, List.sum_cons, ih, List.filterMap_cons]
      cases t'.get? row.1 with
      | none => exact zero_add _
      | some c => rfl
  have hright : ∀ rows : List PnameRow, (rows.map fun row => if t.contains row.1 then f row.2 else 0).sum =
      ((rows.filter fun row => t.contains row.1).map fun row => f row.2).sum := by
    intro rows
    induction rows with
    | nil => rfl
    | cons row rows ih =>
      rw [List.map_cons, List.sum_cons, ih]
      rw [List.filter_cons]
      split
      · rfl
      · exact zero_add _
  have hkeys : ∀ rows : List PnameRow, (rows.map Prod.fst).Nodup →
      ((rows.filterMap fun row => (t'.get? row.1).map fun c => (row.1, c)).map Prod.fst).Nodup := by
    intro rows h
    refine List.Sublist.nodup ?_ h
    induction rows with
    | nil => exact List.Sublist.refl _
    | cons row rows ih =>
      rw [List.map_cons, List.nodup_cons] at h
      rw [List.filterMap_cons]
      cases t'.get? row.1 with
      | none => exact (ih h.2).cons _
      | some c => exact (ih h.2).cons_cons _
  rw [hleft, hright]
  refine (List.Perm.map _ ?_).sum_eq
  refine (List.perm_ext_iff_of_nodup (List.Nodup.of_map _ (hkeys _ t.nodup)) ((List.Nodup.of_map _ t'.nodup).filter _)).mpr fun row => ?_
  obtain ⟨p, c⟩ := row
  rw [List.mem_filterMap, List.mem_filter, ← Table.get?_eq_some, Table.contains_iff_mem]
  constructor
  · rintro ⟨⟨p', c'⟩, hrow, hget⟩
    obtain ⟨c'', hc'', heq⟩ := Option.map_eq_some_iff.mp hget
    cases heq
    exact ⟨hc'', List.mem_map.mpr ⟨_, hrow, rfl⟩⟩
  · rintro ⟨hget, hmem⟩
    obtain ⟨⟨p', c'⟩, hrow, rfl⟩ := List.mem_map.mp hmem
    exact ⟨(p', c'), hrow, by rw [hget]; rfl⟩

/-- Of each name the component that is compared. -/
def representatives (components : List SbomComponent) : List SbomComponent := (indexByPname components).rows.map Prod.snd

/-- Under one name, what has the same paths has the same size. -/
def SizedByPaths (old new : List SbomComponent) : Prop :=
  ∀ c ∈ old, ∀ d ∈ new, c.pname = d.pname → c.storePaths = d.storePaths → c.narSize = d.narSize

theorem oldDelta_sized (h : SizedByPaths old new) {row : PnameRow} (hrow : row ∈ (indexByPname old).rows) : oldDelta (indexByPname new) row =
    ((indexByPname new).get? row.1).elim 0 (fun c => c.narSize.toBitVec) - row.2.narSize.toBitVec := by
  unfold oldDelta
  cases hget : (indexByPname new).get? row.1 with
  | none => exact (zero_sub _).symm
  | some newComp =>
    dsimp only
    rw [Option.elim_some]
    split
    · rfl
    · rename_i hunreported
      -- the paths are the same, and so is the size
      have hpaths : row.2.storePaths = newComp.storePaths := by
        by_contra hne
        refine hunreported ?_
        unfold changedEntry
        rw [hget, Option.bind_some, if_pos (.inl hne)]
        rfl
      obtain ⟨hold, hname, -⟩ := (indexByPname_of old).largest _ _ (Table.get?_eq_some.mpr hrow)
      obtain ⟨hnew, hname', -⟩ := (indexByPname_of new).largest _ _ hget
      rw [h _ hold _ hnew (hname.trans hname'.symm) hpaths]
      exact (sub_self _).symm

theorem sizeDelta_representatives (hash : HashOrder) (h : SizedByPaths old new) : (computeDiff hash old new).summary.sizeDelta =
    BitVec.ofInt 64 ((narSizes (representatives new) : Int) - narSizes (representatives old)) := by
  have hsizes : ∀ components : List SbomComponent, BitVec.ofInt 64 (narSizes (representatives components)) =
      ((indexByPname components).rows.map fun row => row.2.narSize.toBitVec).sum := by
    intro components
    unfold narSizes representatives
    rw [Nat.cast_list_sum, List.map_map, List.map_map, ofInt_sum]
    simp only [Function.comp_apply, ← toBitVec_eq]
  have holds : (hash.order (indexByPname old).rows).map (oldDelta (indexByPname new)) = (hash.order (indexByPname old).rows).map fun row =>
      ((indexByPname new).get? row.1).elim 0 (fun c => c.narSize.toBitVec) + -row.2.narSize.toBitVec :=
    List.map_congr_left fun row hrow => (oldDelta_sized h ((hash.perm _).mem_iff.mp hrow)).trans (sub_eq_add_neg _ _)
  have hnews : (hash.order (indexByPname new).rows).map (newDelta (indexByPname old)) = (hash.order (indexByPname new).rows).map fun row =>
      row.2.narSize.toBitVec + -(if (indexByPname old).contains row.1 then row.2.narSize.toBitVec else 0) := by
    refine List.map_congr_left fun row _ => ?_
    unfold newDelta
    split
    · exact (add_neg_cancel _).symm
    · simp
  have hneg : ∀ (rows : List PnameRow) (f : PnameRow → BitVec 64), (rows.map fun row => -f row).sum = -(rows.map f).sum := by
    intro rows f
    induction rows with
    | nil => exact neg_zero.symm
    | cons row rows ih => rw [List.map_cons, List.sum_cons, ih, List.map_cons, List.sum_cons, neg_add]
  unfold computeDiff
  dsimp only
  rw [foldl_add, foldl_add, holds, hnews, List.sum_map_add, List.sum_map_add, hneg, hneg, ((hash.perm _).map _).sum_eq,
    ((hash.perm _).map _).sum_eq, ((hash.perm _).map _).sum_eq, ((hash.perm _).map _).sum_eq, sum_shared, sub_eq_add_neg, BitVec.ofInt_add,
    BitVec.ofInt_neg, hsizes, hsizes]
  abel

/-- Without two versions of a package, every component is compared. -/
theorem representatives_perm (h : (components.map SbomComponent.pname).Nodup) : (representatives components).Perm components := by
  have hrows : (indexByPname components).rows.Perm (components.map fun c => (c.pname, c)) := by
    refine (List.perm_ext_iff_of_nodup (List.Nodup.of_map _ (indexByPname components).nodup) ?_).mpr fun row => ?_
    · refine List.Nodup.of_map Prod.fst ?_
      rwa [List.map_map]
    · obtain ⟨p, c⟩ := row
      rw [← Table.get?_eq_some, List.mem_map]
      constructor
      · intro hget
        obtain ⟨hmem, rfl, -⟩ := (indexByPname_of components).largest p c hget
        exact ⟨c, hmem, rfl⟩
      · rintro ⟨c', hmem, heq⟩
        cases heq
        obtain ⟨d, hd⟩ := (indexByPname_of components).covers c hmem
        obtain ⟨hmem', hname, -⟩ := (indexByPname_of components).largest _ d hd
        rw [hd, List.inj_on_of_nodup_map h hmem' hmem hname]
  have := hrows.map Prod.snd
  rw [List.map_map] at this
  exact this.trans (List.Perm.of_eq (List.map_id _))

theorem diff_of_untied (hash hash' : HashOrder) (old old' new new' : List SbomComponent) (hold : old.Perm old') (hnew : new.Perm new')
    (huold : Untied old) (hunew : Untied new) :
    computeDiff hash old new = computeDiff hash' old' new' ∧
      (computeDiff hash old old').entries = [] ∧
      (computeDiff hash old new).summary.sizeDelta = BitVec.ofInt 64 ((computeDiff hash old new).entries.map DiffEntry.growth).sum ∧
      (SizedByPaths old new → (computeDiff hash old new).summary.sizeDelta =
        BitVec.ofInt 64 ((narSizes (representatives new) : Int) - narSizes (representatives old))) ∧
      ((old.map SbomComponent.pname).Nodup → (representatives old).Perm old) := by
  refine ⟨computeDiff_congr hash hash' (get?_indexByPname_perm hold huold) (get?_indexByPname_perm hnew hunew), ?_, sizeDelta_eq hash old new,
    sizeDelta_representatives hash, representatives_perm⟩
  have hself : computeDiff hash old old' = computeDiff hash old old :=
    computeDiff_congr hash hash (fun _ => rfl) fun p => (get?_indexByPname_perm hold huold p).symm
  obtain ⟨hadded, hremoved, hchanged⟩ := computeDiff_self hash old
  unfold ComponentDiff.entries
  rw [hself, hadded, hremoved, hchanged]
  rfl

/-- The rows as the table has them. -/
def HashOrder.asStored : HashOrder := ⟨id, fun _ => .refl _⟩

def componentOf (pname version : String) (narSize : UInt64) : SbomComponent :=
  { bomRef := version, pname, version, description := "", homepage := "", licenses := [], storePaths := [pname ++ "-" ++ version], narSize
    role := "", source := "", cpe := none, purl := none, sourceProvenance := [], knownVulnerabilities := [], changelog := "", mainProgram := ""
    srcUrls := [], position := "" }

theorem diff_of_untied_two : computeDiff .asStored [componentOf "a" "1" 1, componentOf "a" "2" 2] [] =
    computeDiff .asStored [componentOf "a" "2" 2, componentOf "a" "1" 1] [] :=
  (diff_of_untied .asStored .asStored _ _ [] [] (.swap _ _ []) .nil (by decide) (by decide)).1

/-- Of two versions the smaller one is not counted, and of two as large as each
other the first is compared. -/
theorem second_version_not_counted : ¬ ∀ (hash : HashOrder) (old old' new new' : List SbomComponent), old.Perm old' → new.Perm new' →
    computeDiff hash old new = computeDiff hash old' new' ∧ (computeDiff hash old old').entries = [] ∧
      (computeDiff hash old new).summary.sizeDelta = BitVec.ofInt 64 ((narSizes new : Int) - narSizes old) := by
  intro h
  have hsize := (h .asStored [] [] [componentOf "a" "1" 1, componentOf "a" "2" 2] _ .nil (.refl _)).2.2
  exact absurd hsize (by decide)

end Ekapkgs
