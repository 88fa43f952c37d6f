import Ekapkgs.NegotiatePlan

/-!
# Dependencies before dependents

A plan is ordered exactly when each path waits longer than every path it depends
on. Where hashes are distinct and the client lacks the dependency this fails only
for a dependency that leads to a path referring to itself, which no round takes.
-/

namespace Ekapkgs
open Graphs

variable (entries : List PathManifestEntry) (haveSet : List String)

/-- Each path is in a later batch than its references in the list. -/
def Ordered (batches : List DownloadBatch) : Prop :=
  ∀ e ∈ entries, ∀ r ∈ e.refs, r ≠ e.hash → ∀ (k l : Nat) (b c : DownloadBatch), batches[k]? = some b →
    batches[l]? = some c → e.hash ∈ b.paths → r ∈ c.paths → l < k

def DependsOn (e dep : PathManifestEntry) : Prop :=
  dep.hash ≠ e.hash ∧ ∃ e' ∈ entries, e'.hash = e.hash ∧ dep.hash ∈ e'.refs

/-- A longer chain of references outside `have` starts at `e` than at `dep`. -/
def Outwaits (e dep : PathManifestEntry) : Prop := ∃ n, Waits entries haveSet n e ∧ ¬ Waits entries haveSet n dep

/-- A reference to a listed path that the client lacks. -/
def Missing (e dep : PathManifestEntry) : Prop := dep ∈ entries ∧ dep.hash ∈ e.refs ∧ dep.hash ∉ haveSet

def LeadsToSelf (e : PathManifestEntry) : Prop :=
  ∃ e', Relation.ReflTransGen (Missing entries haveSet) e e' ∧ Missing entries haveSet e' e'

/-- No dependency leads to a path that refers to itself, and one that the client
has, or that is listed twice, does not wait as long as its dependents. -/
def NoneStuck : Prop :=
  ∀ e ∈ entries, ∀ dep ∈ entries, DependsOn entries e dep →
    if (entries.map PathManifestEntry.hash).Nodup ∧ dep.hash ∉ haveSet then ¬ LeadsToSelf entries haveSet dep
    else Outwaits entries haveSet e dep

variable {entries haveSet}

theorem InBatch.lt_of_outwaits {n k l : Nat} {e dep : PathManifestEntry} (he : InBatch entries haveSet n k e)
    (hdep : InBatch entries haveSet n l dep) (hbound : ReadyAt entries haveSet l dep → l < n) (h : Outwaits entries haveSet e dep) :
    l < k := by
  obtain ⟨m, hwaits, hnot⟩ := h
  have hready : ReadyAt entries haveSet l dep := hdep.resolve_right fun ⟨_, hstuck⟩ => hnot (hstuck m)
  have hl : l ≤ m := Nat.le_of_not_lt fun hlt => hnot (hready.2 m hlt)
  rcases he with hat | ⟨rfl, -⟩
  · exact Nat.lt_of_not_le fun hle => hat.1 (hwaits.of_le (hle.trans hl))
  · exact hbound hready

theorem InBatch.outwaits_of_lt {n k l : Nat} {e dep : PathManifestEntry} (he : InBatch entries haveSet n k e)
    (hdep : InBatch entries haveSet n l dep) (hk : k ≤ n) (hlt : l < k) : Outwaits entries haveSet e dep := by
  have hready : ReadyAt entries haveSet l dep := hdep.resolve_right fun h => by omega
  rcases he with hat | ⟨_, hstuck⟩
  · exact ⟨l, hat.2 l hlt, hready.1⟩
  · exact ⟨l, hstuck l, hready.1⟩

variable (entries haveSet) in
theorem exists_inBatch (n : Nat) (e : PathManifestEntry) : ∃ k, InBatch entries haveSet n k e := by
  by_cases hstuck : ∀ m, Waits entries haveSet m e
  · exact ⟨n, .inr ⟨rfl, hstuck⟩⟩
  · obtain ⟨m, hnot⟩ := not_forall.mp hstuck
    obtain ⟨k, -, hready⟩ := exists_readyAt hnot
    exact ⟨k, .inl hready⟩

/-- What the order of the batches says of the graph. -/
theorem ordered_iff_outwaits {n : Nat} {batches : List DownloadBatch} (h : Layered entries haveSet n batches) :
    Ordered entries batches ↔
      ∀ e ∈ entries, ∀ dep ∈ entries, DependsOn entries e dep → Outwaits entries haveSet e dep := by
  constructor
  · rintro hordered e he dep hdep ⟨hne, e', he', heq, href⟩
    obtain ⟨k, hk⟩ := exists_inBatch entries haveSet n e
    obtain ⟨l, hl⟩ := exists_inBatch entries haveSet n dep
    obtain ⟨b, hb⟩ := h.placed k e he hk
    obtain ⟨c, hc⟩ := h.placed l dep hdep hl
    have hlt := hordered e' he' dep.hash href (by rw [heq]; exact hne) k l b c hb hc ((h.paths k b hb _).mpr ⟨e, he, heq.symm, hk⟩)
      ((h.paths l c hc _).mpr ⟨dep, hdep, rfl, hl⟩)
    refine hk.outwaits_of_lt hl ?_ hlt
    rcases hk with hready | ⟨rfl, -⟩
    · exact (h.bound k e he hready).le
    · exact Nat.le_refl _
  · intro hout e he r hr hne k l b c hb hc hin hrin
    obtain ⟨e₁, he₁, heq₁, hk⟩ := (h.paths k b hb _).mp hin
    obtain ⟨dep, hdep, rfl, hl⟩ := (h.paths l c hc _).mp hrin
    have hwaits := hout e₁ he₁ dep hdep ⟨by rw [heq₁]; exact hne, e, he, heq₁.symm, hr⟩
    exact hk.lt_of_outwaits hl (h.bound l dep hdep) hwaits

/-! ## Paths that wait for themselves -/

theorem eq_of_hash (hdistinct : (entries.map PathManifestEntry.hash).Nodup) {a b : PathManifestEntry} (ha : a ∈ entries)
    (hb : b ∈ entries) (heq : a.hash = b.hash) : a = b := List.inj_on_of_nodup_map hdistinct ha hb heq

theorem Missing.waits (hdistinct : (entries.map PathManifestEntry.hash).Nodup) {e dep : PathManifestEntry}
    (h : Missing entries haveSet e dep) {n : Nat} (hwaits : Waits entries haveSet n dep) : Waits entries haveSet (n + 1) e :=
  ⟨dep.hash, h.2.1, h.2.2, fun dep' hdep' heq => by rwa [eq_of_hash hdistinct hdep' h.1 heq]⟩

theorem LeadsToSelf.waits (hdistinct : (entries.map PathManifestEntry.hash).Nodup) {e : PathManifestEntry}
    (h : LeadsToSelf entries haveSet e) (n : Nat) : Waits entries haveSet n e := by
  obtain ⟨e', hpath, hself⟩ := h
  have hstuck : ∀ n, Waits entries haveSet n e' := by
    intro n
    induction n with
    | zero => exact ⟨e'.hash, hself.2.1, hself.2.2⟩
    | succ n ih => exact hself.waits hdistinct ih
  induction hpath using Relation.ReflTransGen.head_induction_on with
  | refl => exact hstuck n
  | head hstep _ ih => exact (hstep.waits hdistinct ih).of_succ

variable (entries haveSet) in
/-- References have no cycle but to the path itself, and all are known. -/
structure WellFormed : Prop where
  acyclic : Acyclic fun a b => a ≠ b ∧ ∃ e ∈ entries, e.hash = a ∧ b ∈ e.refs
  known : ∀ e ∈ entries, ∀ r ∈ e.refs, r ≠ e.hash → r ∈ haveSet ∨ ∃ dep ∈ entries, dep.hash = r

theorem exists_bound {α : Type} {p : Nat → α → Prop} (hmono : ∀ m n a, m ≤ n → p m a → p n a) :
    ∀ {l : List α}, (∀ a ∈ l, ∃ n, p n a) → ∃ n, ∀ a ∈ l, p n a
  | [], _ => ⟨0, nofun⟩
  | a :: l, h => by
    rw [List.forall_mem_cons] at h
    obtain ⟨m, hm⟩ := h.1
    obtain ⟨n, hn⟩ := exists_bound hmono h.2
    refine ⟨max m n, List.forall_mem_cons.mpr ⟨hmono _ _ _ (Nat.le_max_left ..) hm, fun b hb => ?_⟩⟩
    exact hmono _ _ _ (Nat.le_max_right ..) (hn b hb)

/-- In a well-formed list only what leads to a self-reference waits for ever. -/
theorem exists_not_waits (hwf : WellFormed entries haveSet) : ∀ e ∈ entries, ¬ LeadsToSelf entries haveSet e →
    ∃ n, ¬ Waits entries haveSet n e := by
  classical
  by_contra hnot
  push Not at hnot
  let stuck := entries.filter fun e => ¬ LeadsToSelf entries haveSet e ∧ ∀ n, Waits entries haveSet n e
  have hmem : ∀ e, e ∈ stuck ↔ e ∈ entries ∧ ¬ LeadsToSelf entries haveSet e ∧ ∀ n, Waits entries haveSet n e := by
    simp [stuck]
  obtain ⟨e₀, he₀, hlead₀, hwaits₀⟩ := hnot
  have hne : stuck ≠ [] := List.ne_nil_of_mem ((hmem e₀).mpr ⟨he₀, hlead₀, hwaits₀⟩)
  have hacyclic : Acyclic fun a b : PathManifestEntry => a ∈ entries ∧ a.hash ≠ b.hash ∧ b.hash ∈ a.refs :=
    hwf.acyclic.comap PathManifestEntry.hash fun a b h => ⟨h.2.1, a, h.1, rfl, h.2.2⟩
  obtain ⟨e, he, hsink⟩ := exists_sink hacyclic hne
  obtain ⟨hein, hlead, hwaits⟩ := (hmem e).mp he
  have hrefs : ∀ r ∈ e.refs, ∃ n, r ∈ haveSet ∨ ∃ dep ∈ entries, dep.hash = r ∧ ¬ Waits entries haveSet n dep := by
    intro r hr
    by_cases hhave : r ∈ haveSet
    · exact ⟨0, .inl hhave⟩
    have hself : r ≠ e.hash := by
      rintro rfl
      exact hlead ⟨e, .refl, hein, hr, hhave⟩
    obtain ⟨dep, hdep, rfl⟩ := (hwf.known e hein r hr hself).resolve_left hhave
    have hdeplead : ¬ LeadsToSelf entries haveSet dep :=
      fun ⟨e', hpath, h⟩ => hlead ⟨e', .head ⟨hdep, hr, hhave⟩ hpath, h⟩
    have hsettles : ¬ ∀ n, Waits entries haveSet n dep :=
      fun h => hsink dep ((hmem dep).mpr ⟨hdep, hdeplead, h⟩) ⟨hein, hself.symm, hr⟩
    obtain ⟨n, hn⟩ := not_forall.mp hsettles
    exact ⟨n, .inr ⟨dep, hdep, rfl, hn⟩⟩
  obtain ⟨n, hn⟩ := exists_bound (fun m n r hle h => h.imp_right fun ⟨dep, hdep, heq, hnot⟩ =>
    ⟨dep, hdep, heq, fun hw => hnot (hw.of_le hle)⟩) hrefs
  obtain ⟨r, hr, hhave, hdeps⟩ := hwaits (n + 1)
  obtain ⟨dep, hdep, heq, hnot⟩ := (hn r hr).resolve_left hhave
  exact hnot (hdeps dep hdep heq)

theorem outwaits_iff (hwf : WellFormed entries haveSet) (hdistinct : (entries.map PathManifestEntry.hash).Nodup)
    {e dep : PathManifestEntry} (he : e ∈ entries) (hdep : dep ∈ entries) (hdepends : DependsOn entries e dep)
    (hhave : dep.hash ∉ haveSet) : Outwaits entries haveSet e dep ↔ ¬ LeadsToSelf entries haveSet dep := by
  obtain ⟨-, e', he', heq, href⟩ := hdepends
  obtain rfl := eq_of_hash hdistinct he' he heq
  constructor
  · rintro ⟨n, -, hnot⟩ hlead
    exact hnot (hlead.waits hdistinct n)
  · intro hlead
    obtain ⟨m, hnot⟩ := exists_not_waits hwf dep hdep hlead
    obtain ⟨k, -, hready⟩ := exists_readyAt hnot
    have hmissing : Missing entries haveSet e' dep := ⟨hdep, href, hhave⟩
    refine ⟨k, ?_, hready.1⟩
    cases k with
    | zero => exact ⟨dep.hash, href, hhave⟩
    | succ k => exact hmissing.waits hdistinct (hready.2 k (Nat.lt_succ_self k))

/-- The plan of a well-formed list puts dependencies first if and only if no
dependency is stuck. -/
theorem buildDownloadPlan_ordered_iff (hwf : WellFormed entries haveSet) : ∃ batches,
    buildDownloadPlan entries haveSet = some batches ∧ (Ordered entries batches ↔ NoneStuck entries haveSet) := by
  obtain ⟨batches, hplan, -⟩ := buildDownloadPlan_perm entries haveSet
  obtain ⟨n, hlayered⟩ := buildDownloadPlan_layered hplan
  refine ⟨batches, hplan, (ordered_iff_outwaits hlayered).trans ?_⟩
  refine forall₂_congr fun e he => forall₂_congr fun dep hdep => forall_congr' fun hdepends => ?_
  split_ifs with hplain
  · exact outwaits_iff hwf hplain.1 he hdep hdepends hplain.2
  · rfl

/-! ## A library and its user -/

def sampleLib (references : List String) : PathManifestEntry := ⟨"/nix/store/lib-x", references⟩

def sampleApp : PathManifestEntry := ⟨"/nix/store/app-x", ["lib-x"]⟩

theorem sample_wellFormed (references : List String) (hself : ∀ r ∈ references, hashPart r = "lib") :
    WellFormed [sampleLib references, sampleApp] [] := by
  have hlib : (sampleLib references).hash = "lib" := show hashPart "/nix/store/lib-x" = "lib" by decide
  have happ : sampleApp.hash = "app" ∧ sampleApp.refs = ["lib"] := by decide
  have hrefs : ∀ r ∈ (sampleLib references).refs, r = "lib" := by
    intro r hr
    obtain ⟨r', hr', rfl⟩ := List.mem_map.mp hr
    exact hself r' hr'
  refine ⟨.of_rank (fun h => if h = "app" then 1 else 0) ?_, ?_⟩
  · rintro a b ⟨hne, e, he, rfl, hb⟩
    rcases List.mem_cons.mp he with rfl | he
    · exact absurd (hlib.trans (hrefs b hb).symm) hne
    · obtain rfl := List.mem_singleton.mp he
      rw [happ.2, List.mem_singleton] at hb
      rw [hb, happ.1]; decide
  · intro e he r hr hne
    rcases List.mem_cons.mp he with rfl | he
    · exact absurd ((hrefs r hr).trans hlib.symm) hne
    · obtain rfl := List.mem_singleton.mp he
      rw [happ.2, List.mem_singleton] at hr
      exact .inr ⟨_, List.mem_cons_self, hlib.trans hr.symm⟩

theorem sample_ordered_iff : ∃ batches, buildDownloadPlan [sampleLib [], sampleApp] [] = some batches ∧
    (Ordered [sampleLib [], sampleApp] batches ↔ NoneStuck [sampleLib [], sampleApp] []) :=
  buildDownloadPlan_ordered_iff (sample_wellFormed [] nofun)

/-- A library that refers to itself is sent with its user. -/
theorem self_reference_not_ordered : ¬ ∀ (entries : List PathManifestEntry) (haveSet : List String), WellFormed entries haveSet →
    ∀ batches, buildDownloadPlan entries haveSet = some batches → Ordered entries batches := by
  intro h
  have hplan : buildDownloadPlan [sampleLib ["lib-x"], sampleApp] [] = some [⟨["lib", "app"], 0⟩] := by decide
  have hordered := h _ _ (sample_wellFormed ["lib-x"] (by decide)) _ hplan
  have happ : sampleApp.hash = "app" ∧ "lib" ∈ sampleApp.refs := by decide
  have hlt := hordered sampleApp (by simp) "lib" happ.2 (by rw [happ.1]; decide) 0 0 _ _ rfl rfl (by rw [happ.1]; decide)
    (by decide)
  exact Nat.lt_irrefl _ hlt

end Ekapkgs
