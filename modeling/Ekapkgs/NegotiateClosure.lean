import Ekapkgs.Negotiate
import Ekapkgs.Lib.Graphs

/-!
# The closure is what the references reach

Every path is put in the queue once, when it is first seen, and taken out once,
when its references are. What has been seen is thus what was taken out and what
still waits, and once nothing waits it is closed under references.
-/

namespace Ekapkgs
open Graphs

section
variable {ε : Type} (getNarinfo : String → Except ε (Option NarInfo)) (haveSet seeds : List String)

/-- A reference of an available path to a path that the client lacks. -/
def RefersTo (a b : String) : Prop :=
  ∃ references, referencesOf getNarinfo a = some references ∧ ∃ r ∈ references, hashPart r = b ∧ b ∉ haveSet

/-- What the references lead to from the seeds. -/
def InClosure : String → Prop := Reach (fun h => h ∈ seeds ∧ h ∉ haveSet) (RefersTo getNarinfo haveSet)

structure Expanding (s : Expansion) : Prop where
  once : (s.result ++ s.queue).Nodup
  seen : ∀ h, h ∈ s.visited ↔ h ∈ s.result ∨ h ∈ s.queue
  sound : ∀ h ∈ s.visited, InClosure getNarinfo haveSet seeds h

/-- Every seed and every reference of a path taken out has been seen. -/
structure Covered (s : Expansion) : Prop where
  seeds : ∀ h ∈ seeds, h ∉ haveSet → h ∈ s.visited
  references : ∀ a ∈ s.result, ∀ b, RefersTo getNarinfo haveSet a b → b ∈ s.visited

variable {getNarinfo haveSet seeds} {s : Expansion}

/-! ## Putting paths in the queue -/

theorem mem_enqueue {hash h : String} :
    h ∈ (s.enqueue haveSet hash).visited ↔ h ∈ s.visited ∨ h = hash ∧ hash ∉ haveSet := by
  unfold Expansion.enqueue
  by_cases hhave : hash ∈ haveSet
  · simp [hhave]
  by_cases hseen : hash ∈ s.visited
  · simp [hseen]
    rintro rfl _; exact hseen
  · simp [hhave, hseen]; tauto

theorem enqueue_result (hash : String) : (s.enqueue haveSet hash).result = s.result := by
  unfold Expansion.enqueue
  split <;> rfl

theorem Expanding.enqueue (h : Expanding getNarinfo haveSet seeds s) {hash : String}
    (hreach : hash ∉ haveSet → InClosure getNarinfo haveSet seeds hash) :
    Expanding getNarinfo haveSet seeds (s.enqueue haveSet hash) := by
  refine ⟨?_, ?_, fun g hg => ?_⟩
  · unfold Expansion.enqueue
    split_ifs with hskip
    · exact h.once
    · have hnew : hash ∉ s.visited := fun hseen => hskip (by simp [hseen])
      have hout : hash ∉ s.result ++ s.queue := fun hmem => hnew ((h.seen hash).mpr (List.mem_append.mp hmem))
      rw [← List.append_assoc]
      exact h.once.append (List.nodup_singleton _) (by simpa using hout)
  · intro g
    unfold Expansion.enqueue
    split_ifs with hskip
    · exact h.seen g
    · simp only [List.mem_cons, List.mem_append, List.not_mem_nil, or_false, h.seen g]; tauto
  · rcases mem_enqueue.mp hg with hg | ⟨rfl, hhave⟩
    · exact h.sound g hg
    · exact hreach hhave

/-- A whole list of them. -/
theorem mem_enqueueAll {h : String} : ∀ {hashes : List String} {s : Expansion},
    h ∈ (hashes.foldl (fun s h => s.enqueue haveSet h) s).visited ↔ h ∈ s.visited ∨ h ∈ hashes ∧ h ∉ haveSet
  | [], s => by simp
  | hash :: hashes, s => by
    rw [List.foldl_cons, mem_enqueueAll, mem_enqueue, List.mem_cons]
    constructor
    · rintro ((hs | ⟨rfl, hhave⟩) | ⟨hmem, hhave⟩)
      · exact .inl hs
      · exact .inr ⟨.inl rfl, hhave⟩
      · exact .inr ⟨.inr hmem, hhave⟩
    · rintro (hs | ⟨rfl | hmem, hhave⟩)
      · exact .inl (.inl hs)
      · exact .inl (.inr ⟨rfl, hhave⟩)
      · exact .inr ⟨hmem, hhave⟩

theorem enqueueAll_result : ∀ (hashes : List String) (s : Expansion),
    (hashes.foldl (fun s h => s.enqueue haveSet h) s).result = s.result
  | [], _ => rfl
  | hash :: hashes, s => by rw [List.foldl_cons, enqueueAll_result, enqueue_result]

theorem Expanding.enqueueAll : ∀ {hashes : List String} {s : Expansion}, Expanding getNarinfo haveSet seeds s →
    (∀ hash ∈ hashes, hash ∉ haveSet → InClosure getNarinfo haveSet seeds hash) →
      Expanding getNarinfo haveSet seeds (hashes.foldl (fun s h => s.enqueue haveSet h) s)
  | [], _, h, _ => h
  | hash :: hashes, s, h, hreach => by
    rw [List.forall_mem_cons] at hreach
    exact (h.enqueue hreach.1).enqueueAll hreach.2

/-! ## Taking a path out -/

/-- The state once the first path in the queue is taken out. -/
def Expansion.takeOut (getNarinfo : String → Except ε (Option NarInfo)) (haveSet : List String) (s : Expansion) (hash : String)
    (queue : List String) : Expansion :=
  (((referencesOf getNarinfo hash).getD []).map hashPart).foldl (fun s h => s.enqueue haveSet h)
    ⟨s.visited, queue, s.result ++ [hash]⟩

theorem refersTo_iff {a b : String} : RefersTo getNarinfo haveSet a b ↔
    b ∈ ((referencesOf getNarinfo a).getD []).map hashPart ∧ b ∉ haveSet := by
  unfold RefersTo
  cases referencesOf getNarinfo a with
  | none => simp
  | some references =>
    simp only [Option.some.injEq, exists_eq_left', Option.getD_some, List.mem_map]
    constructor
    · rintro ⟨r, hr, heq, hhave⟩; exact ⟨⟨r, hr, heq⟩, hhave⟩
    · rintro ⟨⟨r, hr, heq⟩, hhave⟩; exact ⟨r, hr, heq, hhave⟩

theorem Expanding.takeOut {hash : String} {queue : List String} (h : Expanding getNarinfo haveSet seeds s)
    (hqueue : s.queue = hash :: queue) : Expanding getNarinfo haveSet seeds (s.takeOut getNarinfo haveSet hash queue) := by
  have hhash : hash ∈ s.visited := (h.seen hash).mpr (.inr (by rw [hqueue]; exact List.mem_cons_self))
  refine Expanding.enqueueAll ⟨?_, fun g => ?_, h.sound⟩ fun b hb hhave => ?_
  · simpa [hqueue] using h.once
  · rw [h.seen g, hqueue]; simp only [List.mem_append, List.mem_cons, List.not_mem_nil, or_false]; tauto
  · exact .step (h.sound hash hhash) (refersTo_iff.mpr ⟨hb, hhave⟩)

theorem Covered.takeOut {hash : String} {queue : List String} (h : Covered getNarinfo haveSet seeds s) :
    Covered getNarinfo haveSet seeds (s.takeOut getNarinfo haveSet hash queue) where
  seeds g hg hhave := mem_enqueueAll.mpr (.inl (h.seeds g hg hhave))
  references a ha b hab := by
    refine mem_enqueueAll.mpr ?_
    have ha : a ∈ s.result ++ [hash] := by rwa [Expansion.takeOut, enqueueAll_result] at ha
    rcases List.mem_append.mp ha with ha | ha
    · exact .inl (h.references a ha b hab)
    · obtain rfl := List.mem_singleton.mp ha
      exact .inr (refersTo_iff.mp hab)

/-! ## The loop -/

theorem expandLoop_succ (fuel : Nat) (s : Expansion) : expandLoop getNarinfo haveSet (fuel + 1) s =
    match s.queue with
    | [] => some s.result
    | hash :: queue => if MAX_CLOSURE_SIZE ≤ s.result.length then some s.result
      else expandLoop getNarinfo haveSet fuel (s.takeOut getNarinfo haveSet hash queue) := by
  unfold Expansion.takeOut
  simp only [List.foldl_map]
  rfl

/-- The loop ends, having emptied the queue or reached the limit. -/
theorem expandLoop_ends : ∀ (fuel : Nat) (s : Expansion), Expanding getNarinfo haveSet seeds s →
    Covered getNarinfo haveSet seeds s → s.result.length ≤ MAX_CLOSURE_SIZE → MAX_CLOSURE_SIZE < fuel + s.result.length → ∃ s',
      expandLoop getNarinfo haveSet fuel s = some s'.result ∧ Expanding getNarinfo haveSet seeds s' ∧
      Covered getNarinfo haveSet seeds s' ∧ (s'.queue = [] ∨ MAX_CLOSURE_SIZE ≤ s'.result.length)
  | 0, s, _, _, hle, hfuel => by omega
  | fuel + 1, s, h, hcover, hle, hfuel => by
    rw [expandLoop_succ]
    cases hqueue : s.queue with
    | nil => exact ⟨s, rfl, h, hcover, .inl hqueue⟩
    | cons hash queue =>
      by_cases hmax : MAX_CLOSURE_SIZE ≤ s.result.length
      · exact ⟨s, if_pos hmax, h, hcover, .inr hmax⟩
      · dsimp only
        rw [if_neg hmax]
        have hlength : (s.takeOut getNarinfo haveSet hash queue).result.length = s.result.length + 1 := by
          rw [Expansion.takeOut, enqueueAll_result, List.length_append, List.length_singleton]
        exact expandLoop_ends fuel _ (h.takeOut hqueue) hcover.takeOut (by omega) (by omega)

end

/-! ## The result -/

variable {ε : Type} (getNarinfo : String → Except ε (Option NarInfo)) (haveSet seeds : List String)

theorem expandClosureHashes_ends : ∃ s, expandClosureHashes getNarinfo haveSet seeds = some s.result ∧
    Expanding getNarinfo haveSet seeds s ∧ Covered getNarinfo haveSet seeds s ∧
      (s.queue = [] ∨ MAX_CLOSURE_SIZE ≤ s.result.length) := by
  have hempty : Expanding getNarinfo haveSet seeds ⟨[], [], []⟩ := ⟨List.nodup_nil, by simp, nofun⟩
  have hresult : (seeds.foldl (fun s h => Expansion.enqueue haveSet s h) ⟨[], [], []⟩).result = [] := enqueueAll_result ..
  refine expandLoop_ends _ _ (hempty.enqueueAll fun h hh hhave => .seed ⟨hh, hhave⟩) ⟨fun h hh hhave => ?_, fun a ha => ?_⟩
    (by rw [hresult]; exact Nat.zero_le _) (by rw [hresult]; simp)
  · exact mem_enqueueAll.mpr (.inr ⟨hh, hhave⟩)
  · rw [hresult] at ha; cases ha

/-- Where the closure is within the limit, the result is the closure. -/
theorem expandClosureHashes_exact
    (hlimit : {h | InClosure getNarinfo haveSet seeds h}.encard ≤ MAX_CLOSURE_SIZE) : ∃ result,
    expandClosureHashes getNarinfo haveSet seeds = some result ∧ result.Nodup ∧
    (∀ h, h ∈ result ↔ InClosure getNarinfo haveSet seeds h) ∧
    ∀ h ∈ result, ∀ references, referencesOf getNarinfo h = some references → ∀ r ∈ references,
      hashPart r ∈ result ∨ hashPart r ∈ haveSet := by
  obtain ⟨s, hresult, hexpanding, hcovered, hend⟩ := expandClosureHashes_ends getNarinfo haveSet seeds
  have hqueue : s.queue = [] := by
    rcases hend with hqueue | hmax
    · exact hqueue
    -- the limit is reached only with all of the closure taken out
    have hsub : (↑(s.result ++ s.queue).toFinset : Set String) ⊆ {h | InClosure getNarinfo haveSet seeds h} := by
      intro h hh
      have hmem : h ∈ s.result ++ s.queue := List.mem_toFinset.mp hh
      exact hexpanding.sound h ((hexpanding.seen h).mpr (List.mem_append.mp hmem))
    have hcard := (Set.encard_le_encard hsub).trans hlimit
    rw [Set.encard_coe_eq_coe_finsetCard, List.toFinset_card_of_nodup hexpanding.once, List.length_append] at hcard
    have hle : s.result.length + s.queue.length ≤ MAX_CLOSURE_SIZE := by exact_mod_cast hcard
    exact List.length_eq_zero_iff.mp (by omega)
  have hmem : ∀ h, h ∈ s.visited ↔ h ∈ s.result := fun h => by rw [hexpanding.seen, hqueue]; simp
  have hclosed : ∀ a ∈ s.result, ∀ b, RefersTo getNarinfo haveSet a b → b ∈ s.result :=
    fun a ha b hab => (hmem b).mp (hcovered.references a ha b hab)
  refine ⟨s.result, hresult, hexpanding.once.of_append_left, fun h => ⟨fun hh => ?_, fun hh => ?_⟩, ?_⟩
  · exact hexpanding.sound h ((hmem h).mpr hh)
  · exact hh.of_closed (fun g hg => (hmem g).mp (hcovered.seeds g hg.1 hg.2)) fun a b ha hab => hclosed a ha b hab
  · intro h hh references href r hr
    by_cases hhave : hashPart r ∈ haveSet
    · exact .inr hhave
    · exact .inl (hclosed h hh _ ⟨references, href, r, hr, rfl, hhave⟩)

/-- Two paths that refer to each other, and to one that is nowhere. -/
def cyclicNarinfo (hash : String) : Except Unit (Option NarInfo) :=
  if hash = "a" then .ok (some ⟨"/nix/store/a-x", "", "", "", 0, "", 0, ["b-y", "/nix/store/c-z"], none, [], none⟩)
  else if hash = "b" then .ok (some ⟨"/nix/store/b-y", "", "", "", 0, "", 0, ["a-x", "b-y"], none, [], none⟩)
  else .ok none

theorem cyclicNarinfo_closure : ∃ result, expandClosureHashes cyclicNarinfo [] ["a"] = some result ∧ result.Nodup ∧
    (∀ h, h ∈ result ↔ InClosure cyclicNarinfo [] ["a"] h) ∧
    ∀ h ∈ result, ∀ references, referencesOf cyclicNarinfo h = some references → ∀ r ∈ references,
      hashPart r ∈ result ∨ hashPart r ∈ ([] : List String) := by
  refine expandClosureHashes_exact cyclicNarinfo [] ["a"] ?_
  have hsub : {h | InClosure cyclicNarinfo [] ["a"] h} ⊆ (↑(["a", "b", "c"].toFinset) : Set String) := by
    intro h hh
    have hmem : h ∈ ["a", "b", "c"] := by
      refine hh.of_closed (fun g hg => ?_) fun a b ha hab => ?_
      · rw [List.mem_singleton.mp hg.1]; exact List.mem_cons_self
      · obtain ⟨hb, -⟩ := refersTo_iff.mp hab
        have hall : ∀ a ∈ ["a", "b", "c"], ∀ b ∈ ((referencesOf cyclicNarinfo a).getD []).map hashPart, b ∈ ["a", "b", "c"] := by
          decide
        exact hall a ha b hb
    exact List.mem_toFinset.mpr hmem
  refine (Set.encard_le_encard hsub).trans ?_
  rw [Set.encard_coe_eq_coe_finsetCard]
  exact_mod_cast (List.toFinset_card_le _).trans (by decide)

end Ekapkgs
