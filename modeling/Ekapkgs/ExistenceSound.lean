import Ekapkgs.ExistenceRows
import Ekapkgs.Sample

/-!
# No false negatives

A filter has what a thread owes it: the keys the thread stored, or is about to
store, and inserts no more. Only a swap can lose one of them, so as long as no
new filter lacks a key that is owed, a finished thread's keys are found.
-/

namespace Ekapkgs
open Keyed Fallible Runs

variable {δ : Type} [DecidableEq δ] (ext : Ext δ) (level : Int) (withFpr : Nat → BloomFilter)

/-! ## What the filters are owed -/

def FilterAct.inserts (key : StoreKey δ) : FilterAct δ → Bool
  | .bloomInsert key' => decide (key' = key)
  | _ => false

/-- An act that puts a key with a row into the filter. -/
def FilterAct.secures (key : StoreKey δ) : FilterAct δ → Bool
  | .bloomInsert key' => decide (key' = key)
  | .rebuild kind => decide (kind = key.kind)
  | .install kind bloom => decide (kind = key.kind) && bloom.containsKey ext key
  | _ => false

def pending (todo : List (FilterAct δ)) (key : StoreKey δ) : Bool := todo.any (FilterAct.secures ext key)

/-- The keys that `todo` stores after it inserted them, if it inserts them at all. -/
def relies : List (FilterAct δ) → List (StoreKey δ)
  | [] => []
  | act :: todo => (act.keys ext).filter (fun k => !pending ext todo k) ++ (relies todo).filter fun k => !act.inserts k

def FilterThread.owes (t : FilterThread δ) : List (StoreKey δ) :=
  t.stored.filter (fun k => !pending ext t.todo k) ++ relies ext t.todo

def Filters.contains (f : Filters) (key : StoreKey δ) : Bool := (f.bloom key.kind).containsKey ext key

def raised {ε σ α : Type} : EStateM.Result ε σ α → Bool
  | .ok _ _ => false
  | .error _ _ => true

/-- A rebuild reads every row, a new filter has what is owed to the old one, and
a thread that fails leaves nothing behind that its filter lacks. -/
def keepsFilters (s : FilterServer δ) : FilterStep → Bool
  | .step i faults =>
    match s.threads[i]? with
    | some ⟨act :: _, stored⟩ =>
      (!raised (act.run ext level withFpr { s.store with faults }) || stored.all (s.filters.contains ext)) &&
      match act with
      | .rebuild _ => decide (true ∉ faults.drop 1)
      | .install kind bloom => s.threads.all fun t => (t.owes ext).all fun k => k.kind ≠ kind || bloom.containsKey ext k
      | _ => true
    | _ => true
  | _ => true

abbrev KeepsFilters (s : FilterServer δ) (step : FilterStep) : Prop := keepsFilters ext level withFpr s step = true

structure FiltersInv (s : FilterServer δ) : Prop where
  stored : ∀ t ∈ s.threads, ∀ k ∈ t.stored, s.store.db.hasRow k = true
  covered : ∀ k, s.store.db.hasRow k = true → ∃ t ∈ s.threads, k ∈ t.stored
  owed : ∀ t ∈ s.threads, ∀ k ∈ t.owes ext, s.filters.contains ext k = true

variable {ext level withFpr} {k : StoreKey δ}

theorem mem_owes {t : FilterThread δ} : k ∈ t.owes ext ↔ k ∈ t.stored ∧ pending ext t.todo k = false ∨ k ∈ relies ext t.todo := by
  simp [FilterThread.owes]

theorem mem_relies_cons {act : FilterAct δ} {todo : List (FilterAct δ)} : k ∈ relies ext (act :: todo) ↔
    k ∈ act.keys ext ∧ pending ext todo k = false ∨ k ∈ relies ext todo ∧ act.inserts k = false := by
  simp [relies]

theorem pending_cons {act : FilterAct δ} {todo : List (FilterAct δ)} :
    pending ext (act :: todo) k = false ↔ act.secures ext k = false ∧ pending ext todo k = false := by
  simp [pending]

theorem pending_append {todo todo' : List (FilterAct δ)} :
    pending ext (todo ++ todo') k = false ↔ pending ext todo k = false ∧ pending ext todo' k = false := by
  simp [pending]

theorem owes_nil {stored : List (StoreKey δ)} : k ∈ FilterThread.owes ext ⟨[], stored⟩ ↔ k ∈ stored := by
  simp [mem_owes, pending, relies]

theorem relies_inserts (keys : List (StoreKey δ)) (todo : List (FilterAct δ)) (h : k ∈ relies ext (keys.map .bloomInsert ++ todo)) :
    k ∉ keys ∧ k ∈ relies ext todo := by
  induction keys with
  | nil => exact ⟨List.not_mem_nil, h⟩
  | cons key keys ih =>
    rw [List.map_cons, List.cons_append, mem_relies_cons] at h
    obtain ⟨hrest, hkey⟩ := h.resolve_left fun h => by cases h.1
    obtain ⟨hkeys, htodo⟩ := ih hrest
    have hne : k ≠ key := fun e => by simp [FilterAct.inserts, e] at hkey
    exact ⟨fun h => (List.mem_cons.mp h).elim hne hkeys, htodo⟩

/-- A request owes nothing before it starts. -/
theorem relies_request (op : StoreOp) : relies ext (requestActs ext op) = [] := by
  refine List.eq_nil_iff_forall_not_mem.mpr fun k hk => ?_
  have hcommit : ∀ {c : Commit} {key : StoreKey δ}, k ∈ relies ext [.commit c, .bloomInsert key] → k ∈ c.keys ext ∧ k ≠ key := by
    intro c key h
    simp only [mem_relies_cons, pending_cons, FilterAct.keys, FilterAct.secures] at h
    rcases h with ⟨hmem, hne, -⟩ | ⟨⟨h, -⟩ | ⟨h, -⟩, -⟩
    · exact ⟨hmem, fun e => by simp [e] at hne⟩
    · cases h
    · cases h
  cases op with
  | storeChunkExternal data =>
    obtain ⟨hmem, hne⟩ := hcommit hk
    exact hne (List.mem_singleton.mp hmem)
  | putNar now filePath data =>
    simp only [requestActs] at hk
    cases hparse : parseNar data with
    | error e => rw [hparse] at hk; cases hk
    | ok t =>
      rw [hparse] at hk
      obtain ⟨hnot, hk⟩ := relies_inserts _ _ hk
      obtain ⟨hmem, hne⟩ := hcommit hk
      rw [Commit.keys, hparse] at hmem
      exact (List.mem_append.mp hmem).elim hnot fun h => hne (List.mem_singleton.mp h)
  | putNarinfo now hash content =>
    simp only [requestActs] at hk
    cases hparse : NarInfo.parse content with
    | none => rw [hparse] at hk; cases hk
    | some narinfo =>
      rw [hparse] at hk
      simp [FilterAct.keys, relies] at hk
  | evictPath hash => cases hk
  | restart => cases hk

theorem relies_storeNarinfo {now : Nat} {hash : String} {narinfo : NarInfo} {root : CaNode} {todo : List (FilterAct δ)}
    (h : k ∈ relies ext (storeNarinfo now hash narinfo root ++ todo)) : k ∈ relies ext todo := by
  simp only [storeNarinfo, List.cons_append, List.nil_append, mem_relies_cons, pending_cons] at h
  rcases h with ⟨hmem, hne, -⟩ | ⟨⟨h, -⟩ | ⟨h, -⟩, -⟩
  · simp only [FilterAct.keys, Commit.keys, List.mem_singleton] at hmem
    simp [FilterAct.secures, hmem] at hne
  · cases h
  · exact h

/-! ## A rebuilt filter -/

omit [DecidableEq δ] in
theorem fails_eq (st : Store δ) : fails st = .ok (st.faults.headD false) { st with faults := st.faults.tail } := by
  obtain ⟨db, files, dirCache, faults⟩ := st
  cases faults <;> rfl

omit [DecidableEq δ] in
theorem fails_of_not_mem (st : Store δ) (h : true ∉ st.faults) : fails st = .ok false { st with faults := st.faults.tail } ∧
    true ∉ st.faults.tail := by
  refine ⟨?_, fun htail => h (List.mem_of_mem_tail htail)⟩
  rw [fails_eq]
  cases hf : st.faults with
  | nil => rfl
  | cons fault faults =>
    cases fault with
    | true => rw [hf] at h; exact absurd (List.mem_cons_self ..) h
    | false => rfl

variable (ext) in
omit [DecidableEq δ] in
theorem foldlM_loadKey : ∀ (keys : List (StoreKey δ)) (bloom : BloomFilter) (st : Store δ), true ∉ st.faults → ∃ st',
    keys.foldlM (loadKey ext) bloom st =
      .ok ((keys.map (StoreKey.filterDigest ext)).foldl BloomFilter.insert bloom) st'
  | [], _, st, _ => ⟨st, rfl⟩
  | key :: keys, bloom, st, h => by
    obtain ⟨hfails, htail⟩ := fails_of_not_mem st h
    obtain ⟨st', hrest⟩ := foldlM_loadKey keys (bloom.insert (key.filterDigest ext)) { st with faults := st.faults.tail } htail
    refine ⟨st', ?_⟩
    have hload : loadKey ext bloom key st = .ok (bloom.insert (key.filterDigest ext)) { st with faults := st.faults.tail } :=
      (bind_of_ok hfails).trans rfl
    rw [List.foldlM_cons]
    exact (bind_of_ok hload).trans hrest

theorem buildBloom_contains {kind : StoreKind} {st st' : Store δ} {bloom : BloomFilter} (hfaults : true ∉ st.faults.drop 1)
    (h : buildBloom ext withFpr kind st = .ok bloom st') (hkind : k.kind = kind) (hrow : st.db.hasRow k = true) :
    bloom.containsKey ext k = true := by
  rw [List.drop_one] at hfaults
  obtain ⟨count, hcount⟩ : ∃ count, queryRow (fun db => some (db.keysOf kind).length) st =
      .ok count { st with faults := st.faults.tail } := by
    unfold queryRow
    rw [bind_of_ok (fails_eq st)]
    split <;> exact ⟨_, rfl⟩
  obtain ⟨hprepare, htail⟩ := fails_of_not_mem { st with faults := st.faults.tail } hfaults
  obtain ⟨hscan, htail'⟩ := fails_of_not_mem { st with faults := st.faults.tail.tail } htail
  obtain ⟨st'', hfold⟩ := foldlM_loadKey ext (st.db.keysOf kind) (withFpr (max (count.getD 0) 1024))
    { st with faults := st.faults.tail.tail.tail } htail'
  have hbuild : buildBloom ext withFpr kind st = .ok _ st'' :=
    (bind_of_ok hcount).trans ((bind_of_ok hprepare).trans ((bind_of_ok hscan).trans ((bind_of_ok rfl).trans hfold)))
  rw [hbuild] at h
  cases h
  exact BloomFilter.maybeContains_insertAll (.inl (List.mem_map_of_mem (mem_keysOf.mpr ⟨hkind, hrow⟩)))

/-! ## One act -/

section
variable {R : StoreKey δ → Prop} {act : FilterAct δ} {todo more : List (FilterAct δ)} {keys stored : List (StoreKey δ)}
  {st st' : Store δ} {f : Filters}

/-- What an act stored, and that every other row was there. -/
def ranRows (R : StoreKey δ → Prop) (keys : List (StoreKey δ)) : View δ := fun db _ =>
  RowsBetween R (fun k => R k ∨ k ∈ keys) db ∧ ∀ k ∈ keys, db.hasRow k = true

theorem RowsAre.ran {db : Db δ} {files : δ → Option Bytes} (h : RowsAre R db files) : ranRows R [] db files :=
  ⟨⟨fun k hk => (h k).mpr hk, fun k hk => .inl ((h k).mp hk)⟩, fun _ hk => nomatch hk⟩

omit [DecidableEq δ] in
theorem buildBloom_keeps {I : View δ} (kind : StoreKind) : Keeps I (buildBloom ext withFpr kind) := by
  refine .bind queryRow_keeps fun count => .bind fails_on fun prepared => ?_
  cases prepared with
  | true => exact .pure fun _ h => h
  | false =>
    refine .bind fails_on fun scanned => ?_
    cases scanned with
    | true => exact .pure fun _ h => h
    | false =>
      refine .bind (.get (Q := fun _ => on I) fun _ h => h) fun st => ?_
      have hfold : ∀ (keys : List (StoreKey δ)) (bloom : BloomFilter), Keeps I (keys.foldlM (loadKey ext) bloom) := by
        intro keys
        induction keys with
        | nil => exact fun _ => .pure fun _ h => h
        | cons key keys ih =>
          intro bloom
          rw [List.foldlM_cons]
          refine .bind (R := fun _ => on I) (.bind fails_on fun fault => ?_) ih
          cases fault <;> exact .pure fun _ h => h
      exact hfold _ _

variable (level withFpr) in
theorem FilterAct.run_rows (laws : ext.Laws) (act : FilterAct δ) : Triple (on (RowsAre R)) (act.run ext level withFpr)
    (fun r => on (ranRows R r.2)) (fun _ => on (RowsAre R)) := by
  have hidle : ∀ more, Triple (on (RowsAre R)) (pure (more, []) : CasM δ (List (FilterAct δ) × List (StoreKey δ)))
      (fun r => on (ranRows R r.2)) (fun _ => on (RowsAre R)) := fun more => .pure fun _ h => RowsAre.ran h
  cases act with
  | commit c =>
    refine .bind (c.exec_rows laws) fun _ => .pure fun st h => ⟨⟨fun k hk => (h k).mpr (.inl hk), fun k => (h k).mp⟩, ?_⟩
    exact fun k hk => (h k).mpr (.inr hk)
  | checkRow now hash narinfo =>
    refine .bind query_keeps fun b => ?_
    cases b <;> exact hidle _
  | readRoot now hash narinfo =>
    refine .bind (getRootNode_keeps ext hash) fun root => ?_
    cases root <;> exact hidle _
  | recover left =>
    simp only [FilterAct.run]
    cases left.next with
    | none => exact hidle _
    | some next =>
      obtain ⟨batch, left'⟩ := next
      refine .bind batch.write_rows fun _ => ?_
      refine .bind (.get (Q := fun st => on fun db _ => db = st.db ∧ rowsBetween R (fun k => R k ∨ k ∈ batch.keys) db st.files)
        fun _ h => ⟨rfl, h⟩) fun st => .pure fun st' hst => ?_
      obtain ⟨hdb, h⟩ := hst
      have hmem : ∀ k ∈ batch.keys.filter st.db.hasRow, st'.db.hasRow k = true := by
        intro k hk; rw [hdb]; exact (List.mem_filter.mp hk).2
      refine ⟨⟨h.lower, fun k hk => (h.upper k hk).imp_right fun hkey => ?_⟩, hmem⟩
      rw [hdb] at hk; exact List.mem_filter.mpr ⟨hkey, hk⟩
  | rebuild kind => exact .bind (buildBloom_keeps kind) fun bloom => hidle _
  | bloomInsert key => exact hidle _
  | install kind bloom => exact hidle _
  | setReady => exact hidle _

omit [DecidableEq δ] in
theorem insertKey_contains (key : StoreKey δ) : (f.insertKey ext key).contains ext key = true := by
  unfold Filters.contains Filters.insertKey
  simp only [Function.update_self]
  exact BloomFilter.maybeContains_insert_self _ _

omit [DecidableEq δ] in
/-- Only a swap takes keys out of a filter. -/
theorem onFilters_contains (hcontains : f.contains ext k = true)
    (hinstall : ∀ kind bloom, act = .install kind bloom → k.kind = kind → bloom.containsKey ext k = true) :
    (act.onFilters ext f).contains ext k = true := by
  unfold Filters.contains at hcontains ⊢
  cases act with
  | bloomInsert key =>
    simp only [FilterAct.onFilters, Filters.insertKey, Function.update_apply]
    split_ifs with hkind
    · rw [hkind] at hcontains; exact BloomFilter.maybeContains_insert _ _ hcontains
    · exact hcontains
  | install kind bloom =>
    simp only [FilterAct.onFilters, Function.update_apply]
    split_ifs with hkind
    · exact hinstall kind bloom rfl hkind
    · exact hcontains
  | commit c => exact hcontains
  | checkRow now hash narinfo => exact hcontains
  | readRoot now hash narinfo => exact hcontains
  | recover left => exact hcontains
  | rebuild kind => exact hcontains
  | setReady => exact hcontains

/-- What a thread owes after an act it owed before, or the act put it there. -/
theorem owes_of_run (hstored : ∀ k ∈ stored, st.db.hasRow k = true)
    (hfaults : ∀ kind, act = .rebuild kind → true ∉ st.faults.drop 1)
    (hrun : act.run ext level withFpr st = .ok (more, keys) st') (hk : k ∈ FilterThread.owes ext ⟨more ++ todo, stored ++ keys⟩) :
    k ∈ FilterThread.owes ext ⟨act :: todo, stored⟩ ∨ (act.onFilters ext f).contains ext k = true := by
  simp only [mem_owes, mem_relies_cons, pending_cons, pending_append, List.mem_append] at hk ⊢
  cases act with
  | bloomInsert key =>
    cases hrun
    by_cases hkey : key = k
    · subst hkey; exact .inr (insertKey_contains key)
    · refine .inl ?_
      simpa [FilterAct.secures, FilterAct.inserts, FilterAct.keys, hkey, pending] using hk
  | setReady =>
    cases hrun
    exact .inl (by simpa [FilterAct.secures, FilterAct.inserts, FilterAct.keys, pending] using hk)
  | install kind bloom =>
    cases hrun
    by_cases hkey : kind = k.kind ∧ bloom.containsKey ext k = true
    · refine .inr ?_
      unfold Filters.contains
      simp only [FilterAct.onFilters, Function.update_apply]
      rw [if_pos hkey.1.symm]; exact hkey.2
    · refine .inl ?_
      have hsecures : (FilterAct.install kind bloom).secures ext k = false := by
        simpa [FilterAct.secures] using hkey
      simpa [hsecures, FilterAct.inserts, FilterAct.keys, pending] using hk
  | commit c =>
    obtain ⟨_, _, -, hpure⟩ := bind_ok.mp hrun
    cases hpure
    left
    simp only [FilterAct.keys, FilterAct.secures, FilterAct.inserts, List.nil_append, pending, List.any_nil, and_true, true_and] at hk ⊢
    tauto
  | checkRow now hash narinfo =>
    obtain ⟨b, _, -, hpure⟩ := bind_ok.mp hrun
    left
    cases b with
    | true =>
      cases hpure
      simpa [FilterAct.keys, FilterAct.secures, FilterAct.inserts, mem_relies_cons, pending] using hk
    | false =>
      cases hpure
      have hrelies : k ∈ relies ext (storeNarinfo now hash narinfo placeholderRoot ++ todo) → k ∈ relies ext todo := relies_storeNarinfo
      simp only [FilterAct.keys, FilterAct.secures, FilterAct.inserts] at hk ⊢
      tauto
  | readRoot now hash narinfo =>
    obtain ⟨root, _, -, hpure⟩ := bind_ok.mp hrun
    left
    cases root with
    | none =>
      cases hpure
      simpa [FilterAct.keys, FilterAct.secures, FilterAct.inserts, pending] using hk
    | some root =>
      cases hpure
      have hrelies : k ∈ relies ext (storeNarinfo now hash narinfo root ++ todo) → k ∈ relies ext todo := relies_storeNarinfo
      simp only [FilterAct.keys, FilterAct.secures, FilterAct.inserts] at hk ⊢
      tauto
  | recover left =>
    refine .inl ?_
    simp only [FilterAct.run] at hrun
    cases hnext : left.next with
    | none =>
      rw [hnext] at hrun
      cases hrun
      simp only [FilterAct.keys, FilterAct.secures, FilterAct.inserts, List.nil_append, pending, List.any_nil] at hk ⊢
      tauto
    | some next =>
      obtain ⟨batch, left'⟩ := next
      rw [hnext] at hrun
      obtain ⟨_, st₁, -, hrun⟩ := bind_ok.mp hrun
      obtain ⟨st₂, _, -, hpure⟩ := bind_ok.mp hrun
      cases hpure
      obtain ⟨hbatch, hleft⟩ := Salvage.next_keys hnext
      have hfilter : k ∈ batch.keys.filter st₂.db.hasRow → k ∈ left.keys := fun h => hbatch (List.mem_filter.mp h).1
      simp only [List.singleton_append, mem_relies_cons, FilterAct.keys, FilterAct.secures, FilterAct.inserts, pending] at hk ⊢
      have := @hleft k
      tauto
  | rebuild kind =>
    left
    obtain ⟨bloom, _, hbuild, hpure⟩ := bind_ok.mp hrun
    cases hpure
    simp only [List.singleton_append, mem_relies_cons, FilterAct.keys, FilterAct.inserts, pending, FilterAct.secures, List.not_mem_nil, or_false, false_and, false_or, and_true] at hk ⊢
    refine hk.imp_left fun hk => ⟨hk.1, ?_, hk.2.2⟩
    obtain ⟨hmem, hinstall, -⟩ := hk
    by_contra hkind
    have hkind : k.kind = kind := by simpa [eq_comm] using hkind
    have hbloom := buildBloom_contains (hfaults kind rfl) hbuild hkind (hstored k hmem)
    simp [FilterAct.secures, hkind, hbloom] at hinstall

end

/-! ## Every step -/

theorem mem_set_cases {α : Type} {l : List α} {i : Nat} {a b : α} (h : a ∈ l.set i b) : a ∈ l ∨ a = b := by
  rcases List.mem_or_eq_of_mem_set h with h | h
  · exact .inl h
  · exact .inr h

omit [DecidableEq δ] in
theorem exists_stored_set {threads : List (FilterThread δ)} {i : Nat} {t t' : FilterThread δ} (hi : threads[i]? = some t)
    (hsub : t.stored ⊆ t'.stored) (h : ∃ u ∈ threads, k ∈ u.stored) : ∃ u ∈ threads.set i t', k ∈ u.stored := by
  obtain ⟨u, hu, hk⟩ := h
  obtain ⟨j, hj⟩ := List.mem_iff_getElem?.mp hu
  obtain ⟨hlt, -⟩ := List.getElem?_eq_some_iff.mp hi
  by_cases hij : i = j
  · subst hij
    cases hi.symm.trans hj
    exact ⟨t', List.mem_set hlt _, hsub hk⟩
  · exact ⟨u, List.mem_iff_getElem?.mpr ⟨j, by rw [List.getElem?_set_ne hij]; exact hj⟩, hk⟩

variable {s s' : FilterServer δ}

theorem runAct_inv (laws : ext.Laws) (hinv : FiltersInv ext s) {i : Nat} {act : FilterAct δ} {todo : List (FilterAct δ)}
    {stored : List (StoreKey δ)} {faults : List Bool} (hi : s.threads[i]? = some ⟨act :: todo, stored⟩)
    (hok : KeepsFilters ext level withFpr s (.step i faults)) :
    FiltersInv ext (runAct ext level withFpr s i ⟨act :: todo, stored⟩ act todo faults) := by
  have hmem : ⟨act :: todo, stored⟩ ∈ s.threads := List.mem_of_getElem? hi
  have hspec := FilterAct.run_rows (R := fun k => s.store.db.hasRow k = true) level withFpr laws act
    { s.store with faults } fun _ => Iff.rfl
  simp only [KeepsFilters, keepsFilters, hi, Bool.and_eq_true, Bool.or_eq_true, Bool.not_eq_true', List.all_eq_true] at hok
  obtain ⟨hraised, hact⟩ := hok
  unfold runAct
  cases hrun : act.run ext level withFpr { s.store with faults } with
  | ok r st =>
    obtain ⟨more, keys⟩ := r
    rw [hrun] at hspec
    obtain ⟨⟨hlower, hupper⟩, hkeys⟩ := hspec
    have hfilters : ∀ t ∈ s.threads, ∀ k ∈ t.owes ext, (act.onFilters ext s.filters).contains ext k = true := by
      intro t ht k hk
      refine onFilters_contains (hinv.owed t ht k hk) fun kind bloom he hkind => ?_
      subst he
      simp only [List.all_eq_true, Bool.or_eq_true, decide_eq_true_eq] at hact
      exact (hact t ht k hk).resolve_left (not_not.mpr hkind)
    refine ⟨fun t ht k hk => ?_, fun k hk => ?_, fun t ht k hk => ?_⟩
    · rcases mem_set_cases ht with ht | rfl
      · exact hlower k (hinv.stored t ht k hk)
      · exact (List.mem_append.mp hk).elim (fun h => hlower k (hinv.stored _ hmem k h)) (hkeys k)
    · rcases hupper k hk with hold | hnew
      · exact exists_stored_set hi (List.subset_append_left ..) (hinv.covered k hold)
      · obtain ⟨hlt, -⟩ := List.getElem?_eq_some_iff.mp hi
        exact ⟨_, List.mem_set hlt _, List.mem_append_right _ hnew⟩
    · rcases mem_set_cases ht with ht | rfl
      · exact hfilters t ht k hk
      · have hstored : ∀ k ∈ stored, ({ s.store with faults } : Store δ).db.hasRow k = true := hinv.stored _ hmem
        refine (owes_of_run hstored (fun kind he => ?_) hrun hk).elim (hfilters _ hmem k) id
        subst he
        exact of_decide_eq_true hact
  | error e st =>
    rw [hrun] at hspec hraised
    refine ⟨fun t ht k hk => (hspec k).mpr ?_, fun k hk => ?_, fun t ht k hk => ?_⟩
    · rcases mem_set_cases ht with ht | rfl
      · exact hinv.stored t ht k hk
      · exact hinv.stored _ hmem k hk
    · exact exists_stored_set hi (fun _ h => h) (hinv.covered k ((hspec k).mp hk))
    · rcases mem_set_cases ht with ht | rfl
      · exact hinv.owed t ht k hk
      · exact hraised.resolve_left (by simp [raised]) k (owes_nil.mp hk)

theorem filterStep_inv (laws : ext.Laws) {step : FilterStep} (hinv : FiltersInv ext s)
    (hok : KeepsFilters ext level withFpr s step) (hstep : filterStep ext level withFpr s step s') : FiltersInv ext s' := by
  cases step with
  | request op =>
    cases hstep
    refine ⟨fun t ht k hk => ?_, fun k hk => ?_, fun t ht k hk => ?_⟩
    · rcases List.mem_append.mp ht with ht | ht
      · exact hinv.stored t ht k hk
      · cases List.mem_singleton.mp ht; cases hk
    · obtain ⟨t, ht, hmem⟩ := hinv.covered k hk
      exact ⟨t, List.mem_append_left _ ht, hmem⟩
    · rcases List.mem_append.mp ht with ht | ht
      · exact hinv.owed t ht k hk
      · cases List.mem_singleton.mp ht
        rw [mem_owes, relies_request] at hk
        rcases hk with ⟨hk, -⟩ | hk <;> cases hk
  | step i faults =>
    simp only [filterStep, stepOf, filterNext] at hstep
    cases hi : s.threads[i]? with
    | none => simp only [hi] at hstep; cases hstep
    | some t =>
      obtain ⟨_ | ⟨act, todo⟩, stored⟩ := t
      · simp only [hi] at hstep; cases hstep
      · simp only [hi] at hstep
        cases hstep
        exact runAct_inv laws hinv hi hok
  | abort i =>
    simp only [filterStep, stepOf, filterNext] at hstep
    cases hi : s.threads[i]? with
    | none => simp only [hi] at hstep; cases hstep
    | some t =>
      obtain ⟨todo, _ | ⟨key, stored⟩⟩ := t
      · simp only [hi] at hstep
        cases hstep
        refine ⟨fun t ht k hk => ?_, fun k hk => exists_stored_set hi (fun _ h => h) (hinv.covered k hk), fun t ht k hk => ?_⟩
        · rcases mem_set_cases ht with ht | rfl
          · exact hinv.stored t ht k hk
          · cases hk
        · rcases mem_set_cases ht with ht | rfl
          · exact hinv.owed t ht k hk
          · cases owes_nil.mp hk
      · simp only [hi] at hstep; cases hstep
  | evict hash faults =>
    cases hstep
    have hrows : on (rowsWithin fun k => s.store.db.hasRow k = true) (finalState (evictPath hash { s.store with faults })) :=
      finalState_on (evictPath_rows hash) fun _ h => h
    refine ⟨fun t ht k hk => ?_, fun k hk => ?_, fun t ht k hk => ?_⟩
    · obtain ⟨t, ht, rfl⟩ := List.mem_map.mp ht
      exact (List.mem_filter.mp hk).2
    · obtain ⟨t, ht, hmem⟩ := hinv.covered k (hrows k hk)
      exact ⟨_, List.mem_map_of_mem ht, List.mem_filter.mpr ⟨hmem, hk⟩⟩
    · obtain ⟨t₀, ht₀, rfl⟩ := List.mem_map.mp ht
      exact hinv.owed t₀ ht₀ k (mem_owes.mpr ((mem_owes.mp hk).imp_left fun h => ⟨(List.mem_filter.mp h.1).1, h.2⟩))

theorem filtersInv_init (bloom : StoreKind → BloomFilter) (st : Store δ) (salvage : Salvage δ) :
    FiltersInv ext (FilterServer.init bloom st salvage) := by
  have hkind : ∀ k : StoreKey δ, k.kind = .chunks ∨ k.kind = .paths := fun k => by cases k <;> simp [StoreKey.kind]
  refine ⟨fun t ht k hk => ?_, fun k hk => ?_, fun t ht k hk => ?_⟩
  · simp only [FilterServer.init, List.mem_cons, List.not_mem_nil, or_false] at ht
    rcases ht with rfl | rfl
    · rcases List.mem_append.mp hk with hk | hk <;> exact (mem_keysOf.mp hk).2
    · cases hk
  · refine ⟨_, List.mem_cons_self .., List.mem_append.mpr ?_⟩
    exact (hkind k).imp (fun h => mem_keysOf.mpr ⟨h, hk⟩) fun h => mem_keysOf.mpr ⟨h, hk⟩
  · simp only [FilterServer.init, List.mem_cons, List.not_mem_nil, or_false] at ht
    rcases ht with rfl | rfl
    · rcases hkind k with h | h <;>
        simp [mem_owes, warmupActs, pending, FilterAct.secures, relies, FilterAct.keys, h] at hk
    · rcases hkind k with h | h <;>
        simp [mem_owes, recoveryActs, pending, FilterAct.secures, relies, FilterAct.keys, h] at hk

omit [DecidableEq δ] in
theorem maybeContains_of_contains {f : Filters} (h : f.contains ext k = true) : f.maybeContains ext k = true := by
  unfold Filters.maybeContains
  rw [show (f.bloom k.kind).containsKey ext k = true from h, Bool.or_true]

theorem has_of_owed (hinv : FiltersInv ext s) {t : FilterThread δ} (ht : t ∈ s.threads) (hdone : t.todo = [])
    (hk : k ∈ t.stored) : s.has ext k = true := by
  have howes : k ∈ t.owes ext := by
    obtain ⟨todo, stored⟩ := t
    cases hdone; exact owes_nil.mpr hk
  rw [FilterServer.has, maybeContains_of_contains (hinv.owed t ht k howes), hinv.stored t ht k hk]; rfl

/-- **No false negatives.** As long as every new filter has what the old one is
owed, what a finished thread stored is found until it is evicted, and once all
threads are done exactly what has a row is found. -/
theorem filterRun_has (laws : ext.Laws) {bloom : StoreKind → BloomFilter} {st : Store δ} {salvage : Salvage δ}
    {steps : List FilterStep}
    (hrun : Run (guarded (filterStep ext level withFpr) (KeepsFilters ext level withFpr)) (.init bloom st salvage) steps s) :
    (∀ t ∈ s.threads, t.todo = [] → ∀ k ∈ t.stored, s.has ext k = true) ∧
    ((∀ t ∈ s.threads, t.todo = []) → ∀ k, s.has ext k = true ↔ s.store.db.hasRow k = true) := by
  have hinv : FiltersInv ext s := hrun.invariant (fun s step s' h hstep => filterStep_inv laws h hstep.1 hstep.2)
    (filtersInv_init bloom st salvage)
  refine ⟨fun t ht hdone k hk => has_of_owed hinv ht hdone hk, fun hdone k => ⟨fun h => ?_, fun h => ?_⟩⟩
  · exact (Bool.and_eq_true_iff.mp h).2
  · obtain ⟨t, ht, hk⟩ := hinv.covered k h
    exact has_of_owed hinv ht (hdone t ht) hk

def sampleFpr (_ : Nat) : BloomFilter := .ofBits 64 3

def sampleServer : FilterServer Bytes := .init (fun _ => sampleFpr 0) .empty .empty

/-- A chunk stored once the filter of the empty table is in place. -/
def storeAfterSwap : List FilterStep :=
  [.step 0 [], .step 0 [], .request (.storeChunkExternal [1]), .step 2 [], .step 2 [], .step 0 [], .step 0 [], .step 0 []]

theorem filterRun_has_storeAfterSwap : ∃ s : FilterServer Bytes,
    s.threads[2]? = some ⟨[], [.chunk [1]]⟩ ∧ s.has sampleExt (.chunk [1]) = true := by
  obtain ⟨s, hrun, htest⟩ := (Option.any_eq_true ..).mp (show (storeAfterSwap.foldlM (fun s step =>
      if KeepsFilters sampleExt 3 sampleFpr s step then filterNext sampleExt 3 sampleFpr s step else none) sampleServer).any
        (fun s => s.threads[2]?.any fun t => t.todo.isEmpty && decide (t.stored = [.chunk [1]])) = true by decide)
  obtain ⟨t, ht, hdone⟩ := (Option.any_eq_true ..).mp htest
  obtain ⟨htodo, hstored⟩ := Bool.and_eq_true_iff.mp hdone
  obtain ⟨todo, stored⟩ := t
  obtain rfl : todo = [] := List.isEmpty_iff.mp htodo
  obtain rfl := of_decide_eq_true hstored
  exact ⟨s, ht, (filterRun_has sampleExt_laws (run_of_foldlM_guarded hrun)).1 _ (List.mem_of_getElem? ht) rfl _ (List.mem_singleton.mpr rfl)⟩

/-- A chunk stored between the read and the swap of the warmup. -/
def storeBeforeSwap : List FilterStep :=
  [.step 0 [], .request (.storeChunkExternal [1]), .step 2 [], .step 2 [], .step 0 [], .step 0 [], .step 0 [], .step 0 []]

theorem storeBeforeSwap_lost : ¬ ∀ (steps : List FilterStep) (s : FilterServer Bytes),
    Run (filterStep sampleExt 3 sampleFpr) sampleServer steps s →
      ∀ t ∈ s.threads, t.todo = [] → ∀ k ∈ t.stored, s.has sampleExt k = true := by
  intro h
  obtain ⟨s, hrun, htest⟩ := (Option.any_eq_true ..).mp (show (storeBeforeSwap.foldlM (filterNext sampleExt 3 sampleFpr)
      sampleServer).any (fun s => s.threads[2]?.any fun t => t.todo.isEmpty && t.stored.any fun k => !s.has sampleExt k) = true
    by decide)
  obtain ⟨t, ht, hdone⟩ := (Option.any_eq_true ..).mp htest
  obtain ⟨htodo, hlost⟩ := Bool.and_eq_true_iff.mp hdone
  obtain ⟨k, hk, hlost⟩ := List.any_eq_true.mp hlost
  rw [h _ s (run_of_foldlM hrun) t (List.mem_of_getElem? ht) (List.isEmpty_iff.mp htodo) k hk] at hlost
  cases hlost

end Ekapkgs
