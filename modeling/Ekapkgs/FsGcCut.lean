import Ekapkgs.FsGcSelect

/-!
# Smaller targets

A smaller target cuts the same evictions short, so whatever is evicted first is
all that some target evicts.
-/

namespace Ekapkgs
open Keyed

variable {entries : List PathEntry} {refs : List (String × String)} {toFree toFree' : Nat}

/-! ## Paths that hold each other -/

/-- Each path of the set has another one of it as a referrer. -/
def Interlocked (entries : List PathEntry) (refs : List (String × String)) (S : String → Prop) : Prop :=
  ∀ x, S x → ∃ r, S r ∧ r ∈ entries.map PathEntry.hash ∧ (r, x) ∈ refs ∧ r ≠ x

variable {S : String → Prop}

theorem Interlocked.pinned (hS : Interlocked entries refs S) {evictSet : List String} (h : ∀ x ∈ evictSet, ¬ S x) {x : String} (hx : S x) :
    pinned entries refs evictSet x = true := by
  obtain ⟨r, hr, hknown, href, hne⟩ := hS x hx
  exact pinned_iff.mpr ⟨r, hknown, href, hne, fun hin => h r hin hr⟩

theorem sweep_interlocked (hS : Interlocked entries refs S) (rest : List PathEntry) (sel : Selection) (any : Bool)
    (h : ∀ x ∈ sel.evictSet, ¬ S x) : ∀ x ∈ (sweep entries refs toFree rest sel any).1.evictSet, ¬ S x := by
  have hevict {sel : Selection} {entry : PathEntry} (h : ∀ x ∈ sel.evictSet, ¬ S x)
      (hfree : ¬ Ekapkgs.pinned entries refs sel.evictSet entry.hash = true) : ∀ x ∈ (sel.evict entry).evictSet, ¬ S x :=
    List.forall_mem_cons.mpr ⟨fun hx => hfree (hS.pinned h hx), h⟩
  fun_induction sweep entries refs toFree rest sel any with
  | case1 => exact h
  | case2 sel any entry rest hin ih => exact ih h
  | case3 sel any entry rest hin hpin ih => exact ih h
  | case4 sel any entry rest hin hpin hreached => exact hevict h hpin
  | case5 sel any entry rest hin hpin hmore ih => exact ih (hevict h hpin)

theorem selectLoop_interlocked (hS : Interlocked entries refs S) : ∀ (fuel : Nat) (sel sel' : Selection), (∀ x ∈ sel.evictSet, ¬ S x) →
    selectLoop entries refs toFree fuel sel = some sel' → ∀ x ∈ sel'.evictSet, ¬ S x
  | 0, _, _, _, hsel => by cases hsel
  | fuel + 1, sel, sel', h, hsel => by
    unfold selectLoop at hsel
    by_cases hreached : toFree ≤ sel.freed
    · rw [if_pos hreached] at hsel
      cases hsel
      exact h
    rw [if_neg hreached] at hsel
    dsimp only at hsel
    have hswept : ∀ x ∈ (sweep entries refs toFree entries sel false).1.evictSet, ¬ S x := sweep_interlocked hS entries sel false h
    cases hany : (sweep entries refs toFree entries sel false).2 with
    | true =>
      rw [hany, if_pos rfl] at hsel
      exact selectLoop_interlocked hS fuel _ sel' hswept hsel
    | false =>
      rw [hany, if_neg Bool.false_ne_true] at hsel
      cases hsel
      exact hswept

/-! ## Two targets -/

theorem sweep_suffix (rest : List PathEntry) (sel : Selection) (any : Bool) :
    sel.evictSet <:+ (sweep entries refs toFree rest sel any).1.evictSet := by
  fun_induction sweep entries refs toFree rest sel any with
  | case1 => exact List.suffix_rfl
  | case2 sel any entry rest hin ih => exact ih
  | case3 sel any entry rest hin hpin ih => exact ih
  | case4 sel any entry rest hin hpin hreached => exact List.suffix_cons ..
  | case5 sel any entry rest hin hpin hmore ih => exact (List.suffix_cons ..).trans ih

theorem selectLoop_suffix : ∀ (fuel : Nat) (sel sel' : Selection), selectLoop entries refs toFree fuel sel = some sel' →
    sel.evictSet <:+ sel'.evictSet
  | 0, _, _, hsel => by cases hsel
  | fuel + 1, sel, sel', hsel => by
    unfold selectLoop at hsel
    by_cases hreached : toFree ≤ sel.freed
    · rw [if_pos hreached] at hsel
      cases hsel
      exact List.suffix_rfl
    rw [if_neg hreached] at hsel
    dsimp only at hsel
    have hswept : sel.evictSet <:+ (sweep entries refs toFree entries sel false).1.evictSet := sweep_suffix entries sel false
    cases hany : (sweep entries refs toFree entries sel false).2 with
    | true =>
      rw [hany, if_pos rfl] at hsel
      exact hswept.trans (selectLoop_suffix fuel _ sel' hsel)
    | false =>
      rw [hany, if_neg Bool.false_ne_true] at hsel
      cases hsel
      exact hswept

/-- A sweep for less does the same, or stops on the way. -/
theorem sweep_cut (hle : toFree' ≤ toFree) (rest : List PathEntry) (sel : Selection) (any : Bool) :
    sweep entries refs toFree' rest sel any = sweep entries refs toFree rest sel any ∨
      ∃ sel', sweep entries refs toFree' rest sel any = (sel', true) ∧ toFree' ≤ sel'.freed ∧
        sel'.evictSet <:+ (sweep entries refs toFree rest sel any).1.evictSet := by
  induction rest generalizing sel any with
  | nil => exact .inl rfl
  | cons entry rest ih =>
    unfold sweep
    by_cases hin : sel.evictSet.contains entry.hash = true
    · rw [if_pos hin, if_pos hin]; exact ih sel any
    rw [if_neg hin, if_neg hin]
    by_cases hpin : pinned entries refs sel.evictSet entry.hash = true
    · rw [if_pos hpin, if_pos hpin]; exact ih sel any
    rw [if_neg hpin, if_neg hpin]
    by_cases hreached' : toFree' ≤ (sel.evict entry).freed
    · rw [if_pos hreached']
      refine .inr ⟨_, rfl, hreached', ?_⟩
      split
      · exact List.suffix_rfl
      · exact sweep_suffix rest (sel.evict entry) true
    · rw [if_neg hreached', if_neg fun h => hreached' (hle.trans h)]
      exact ih (sel.evict entry) true

theorem selectLoop_cut (hle : toFree' ≤ toFree) : ∀ (fuel : Nat) (sel small large : Selection),
    selectLoop entries refs toFree' fuel sel = some small → selectLoop entries refs toFree fuel sel = some large →
      small.evictSet <:+ large.evictSet
  | 0, _, _, _, hsmall, _ => by cases hsmall
  | fuel + 1, sel, small, large, hsmall, hlarge => by
    have hgrows := selectLoop_suffix _ _ _ hlarge
    unfold selectLoop at hsmall hlarge
    by_cases hreached' : toFree' ≤ sel.freed
    · rw [if_pos hreached'] at hsmall
      cases hsmall
      exact hgrows
    rw [if_neg hreached'] at hsmall
    rw [if_neg fun h => hreached' (hle.trans h)] at hlarge
    dsimp only at hsmall hlarge
    have hcut : sweep entries refs toFree' entries sel false = sweep entries refs toFree entries sel false ∨ _ := sweep_cut hle entries sel false
    rcases hcut with hsame | ⟨sel', hstop, hreached, hsuffix⟩
    · rw [hsame] at hsmall
      cases hany : (sweep entries refs toFree entries sel false).2 with
      | true =>
        rw [hany, if_pos rfl] at hsmall hlarge
        exact selectLoop_cut hle fuel _ small large hsmall hlarge
      | false =>
        rw [hany, if_neg Bool.false_ne_true] at hsmall hlarge
        cases hsmall
        cases hlarge
        exact List.suffix_rfl
    · rw [hstop, if_pos rfl] at hsmall
      have hsmall : small = sel' := by
        cases fuel with
        | zero => cases hsmall
        | succ fuel =>
          unfold selectLoop at hsmall
          rw [if_pos hreached] at hsmall
          exact (Option.some.inj hsmall).symm
      rw [hsmall]
      cases hany : (sweep entries refs toFree entries sel false).2 with
      | true =>
        rw [hany, if_pos rfl] at hlarge
        exact hsuffix.trans (selectLoop_suffix _ _ _ hlarge)
      | false =>
        rw [hany, if_neg Bool.false_ne_true] at hlarge
        cases hlarge
        exact hsuffix

/-! ## What some target evicts -/

theorem freedBy_suffix {E E' : List String} (hnodup : (entries.map PathEntry.hash).Nodup) (hpos : ∀ e ∈ entries, 0 < e.size)
    (hknown : ∀ h ∈ E', h ∈ entries.map PathEntry.hash) (honce : E'.Nodup) (h : E <:+ E') :
    freedBy entries E ≤ freedBy entries E' ∧ (E ≠ E' → freedBy entries E < freedBy entries E') := by
  obtain ⟨first, rfl⟩ := h
  induction first with
  | nil => exact ⟨Nat.le_refl _, fun h => absurd rfl h⟩
  | cons x first ih =>
    rw [List.cons_append] at hknown honce ⊢
    obtain ⟨hx, hrest⟩ := List.forall_mem_cons.mp hknown
    obtain ⟨hnew, hnext⟩ := List.nodup_cons.mp honce
    have := (ih hrest hnext).1
    obtain ⟨e, he, rfl⟩ := List.mem_map.mp hx
    rw [freedBy_cons hnodup he hnew]
    have := hpos e he
    exact ⟨by omega, fun _ => by omega⟩

namespace GcDb
variable (db : GcDb)

/-- Every path that could go has another one of the set as a referrer. -/
def Held (x : String) : Prop := ∃ S, S x ∧ Interlocked db.pathEntries (db.refs.rows.map Prod.fst) S

variable {db} {sel : Selection} {x : String}

theorem Held.not_evicted (h : db.Held x) (hsel : db.select toFree = some sel) : x ∉ sel.evictSet := by
  obtain ⟨S, hx, hS⟩ := h
  exact fun hin => selectLoop_interlocked hS _ _ _ (fun _ h => absurd h List.not_mem_nil) hsel x hin hx

theorem held_of_all_pinned (hknown : x ∈ db.pathEntries.map PathEntry.hash) (hx : x ∉ sel.evictSet)
    (hpinned : ∀ e ∈ db.pathEntries, e.hash ∉ sel.evictSet →
      pinned db.pathEntries (db.refs.rows.map Prod.fst) sel.evictSet e.hash = true) : db.Held x := by
  refine ⟨fun y => y ∈ db.pathEntries.map PathEntry.hash ∧ y ∉ sel.evictSet, ⟨hknown, hx⟩, fun y ⟨hy, hyleft⟩ => ?_⟩
  obtain ⟨e, he, rfl⟩ := List.mem_map.mp hy
  obtain ⟨r, hr, href, hne, hleft⟩ := pinned_iff.mp (hpinned e he hyleft)
  exact ⟨r, ⟨hr, hleft⟩, hr, href, hne⟩

section
variable (hsum : db.storePaths.total size < 2 ^ 64)
include hsum

theorem freedBy_mod (E : List String) : freedBy db.pathEntries E % 2 ^ 64 = freedBy db.pathEntries E := by
  refine Nat.mod_eq_of_lt ((freedBy_le _ _).trans_lt ?_)
  rwa [pathEntries_size]

/-- What is not held goes when everything is to be freed. -/
theorem exists_evicted (hpos : ∀ e ∈ db.pathEntries, 0 < e.size) (hknown : x ∈ db.pathEntries.map PathEntry.hash) (h : ¬ db.Held x) :
    ∃ sel, db.select (db.storePaths.total size) = some sel ∧ x ∈ sel.evictSet := by
  obtain ⟨sel, hsel, hchosen, hended⟩ := db.select_ends (db.storePaths.total size)
  refine ⟨sel, hsel, ?_⟩
  by_contra hx
  refine h (held_of_all_pinned hknown hx (hended.resolve_left fun hreached => ?_))
  rw [hchosen.freed, freedBy_mod hsum] at hreached
  obtain ⟨e, he, rfl⟩ := List.mem_map.mp hknown
  have hle := freedBy_le db.pathEntries (e.hash :: sel.evictSet)
  rw [freedBy_cons db.pathEntries_nodup he hx, pathEntries_size] at hle
  have := hpos e he
  omega

/-- The first of the evictions, as many as one likes, are all that some target makes. -/
theorem select_first (hpos : ∀ e ∈ db.pathEntries, 0 < e.size) (hle : toFree ≤ db.storePaths.total size)
    (hsel : db.select toFree = some sel) {E : List String} (hE : E <:+ sel.evictSet) :
    ∃ toFree' ≤ db.storePaths.total size, ∃ sel', db.select toFree' = some sel' ∧ sel'.evictSet = E := by
  obtain ⟨sel₁, hsel₁, hchosen, -⟩ := db.select_ends toFree
  rw [Option.some.inj (hsel₁.symm.trans hsel)] at hchosen
  by_cases hall : E = sel.evictSet
  · exact ⟨toFree, hle, sel, hsel, hall.symm⟩
  -- the target that the evictions of E just meet
  obtain ⟨small, hsmall, hsmallChosen, hended⟩ := db.select_ends (freedBy db.pathEntries E)
  refine ⟨_, ?_, small, hsmall, ?_⟩
  · rw [← pathEntries_size]
    exact freedBy_le _ _
  have hgrow {E E' : List String} (hE' : E' <:+ sel.evictSet) (h : E <:+ E') := freedBy_suffix db.pathEntries_nodup hpos
    (fun g hg => hchosen.known g (hE'.subset hg)) (hchosen.once.sublist hE'.sublist) h
  obtain ⟨last, rest, hlist, hrest⟩ : ∃ last rest, sel.evictSet = last :: rest ∧ E <:+ rest := by
    cases hlist : sel.evictSet with
    | nil => rw [hlist, List.suffix_nil] at hE; exact absurd (hE.trans hlist.symm) hall
    | cons last rest =>
      rw [hlist] at hE hall
      exact ⟨last, rest, rfl, (List.suffix_cons_iff.mp hE).resolve_left hall⟩
  have hlt : freedBy db.pathEntries E < toFree := by
    have hlast := hchosen.last last rest hlist
    rw [freedBy_mod hsum] at hlast
    exact (hgrow (hlist ▸ List.suffix_cons ..) hrest).1.trans_lt hlast
  have hsuffix : small.evictSet <:+ sel.evictSet := selectLoop_cut hlt.le _ _ _ _ hsmall hsel
  rcases List.suffix_or_suffix_of_suffix hsuffix hE with hshort | hlong
  · by_contra hne
    have hless := (hgrow hE hshort).2 hne
    rcases hended with hreached | hpinned
    · rw [hsmallChosen.freed, freedBy_mod hsum] at hreached
      omega
    · -- then nothing more can be evicted
      obtain ⟨x, hx, hout⟩ : ∃ x ∈ E, x ∉ small.evictSet := by
        by_contra hnone
        push Not at hnone
        have := ((hchosen.once.sublist hE.sublist).subperm hnone).length_le
        exact hne (hshort.eq_of_length_le this)
      exact (held_of_all_pinned (hchosen.known x (hE.subset hx)) hout hpinned).not_evicted hsel (hE.subset hx)
  · cases hlist' : small.evictSet with
    | nil => rw [hlist', List.suffix_nil] at hlong; exact hlong.symm
    | cons last' rest' =>
      rw [hlist'] at hlong hsuffix
      refine ((List.suffix_cons_iff.mp hlong).resolve_right fun htail => ?_).symm
      have hlast := hsmallChosen.last last' rest' hlist'
      rw [freedBy_mod hsum] at hlast
      exact absurd (hgrow ((List.suffix_cons ..).trans hsuffix) htail).1 (Nat.not_le_of_lt hlast)

end
end GcDb
end Ekapkgs
