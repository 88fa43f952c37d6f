import Ekapkgs.Text
import Ekapkgs.Nar

/-!
# Bloom filters

`bloom.rs`: a bit vector with a few positions for each digest. What was inserted
is always found. The sizes are computed in floating point, so here they are
given.
-/

namespace Ekapkgs

structure BloomFilter where
  bits : List Bool
  numHashes : Nat
  nonempty : bits ≠ []

/-- At least 64 bits, and a multiple of 8. -/
def BloomFilter.ofBits (rawBits numHashes : Nat) : BloomFilter where
  bits := List.replicate ((max rawBits 64 + 7) / 8 * 8) false
  numHashes := numHashes
  nonempty := by
    have : 0 < (max rawBits 64 + 7) / 8 * 8 := by omega
    exact List.ne_nil_of_length_pos (by rwa [List.length_replicate])

/-- Two hash values from the first bytes of a digest, the second one odd. -/
def doubleHash (digest : Bytes) : Nat × Nat := (fromLeBytes (digest.take 8), fromLeBytes ((digest.drop 8).take 8) ||| 1)

namespace BloomFilter

def setAll (bits : List Bool) (positions : List Nat) : List Bool := positions.foldl (fun bits p => bits.set p true) bits

theorem setAll_length : ∀ (positions : List Nat) (bits : List Bool), (setAll bits positions).length = bits.length
  | [], _ => rfl
  | p :: positions, bits => by rw [setAll, List.foldl_cons, ← setAll, setAll_length, List.length_set]

variable (b : BloomFilter)

def positions (digest : Bytes) : List Nat :=
  (List.range b.numHashes).map fun i => ((doubleHash digest).1 + i * (doubleHash digest).2) % 2 ^ 64 % b.bits.length

def insert (digest : Bytes) : BloomFilter where
  bits := setAll b.bits (b.positions digest)
  numHashes := b.numHashes
  nonempty := List.ne_nil_of_length_pos (by rw [setAll_length]; exact List.length_pos_iff.mpr b.nonempty)

def maybeContains (digest : Bytes) : Bool := (b.positions digest).all fun p => b.bits[p]? = some true

/-! ## No false negatives -/

theorem setAll_of_true : ∀ (positions : List Nat) {bits : List Bool} {p : Nat}, bits[p]? = some true →
    (setAll bits positions)[p]? = some true
  | [], _, _, h => h
  | q :: positions, bits, p, h => by
    refine setAll_of_true positions ?_
    rw [List.getElem?_set]
    split_ifs with hq hlt
    · rfl
    · rw [List.getElem?_eq_none (by omega)] at h; cases h
    · exact h

theorem setAll_of_mem : ∀ {positions : List Nat} {bits : List Bool} {p : Nat}, p ∈ positions → p < bits.length →
    (setAll bits positions)[p]? = some true
  | q :: positions, bits, p, hmem, hlt => by
    rw [setAll, List.foldl_cons]
    rcases List.mem_cons.mp hmem with rfl | hmem
    · exact setAll_of_true positions (by rw [List.getElem?_set_self hlt])
    · exact setAll_of_mem hmem (by rwa [List.length_set])

theorem positions_insert (digest digest' : Bytes) : (b.insert digest).positions digest' = b.positions digest' := by
  simp only [positions, insert, setAll_length]

theorem maybeContains_insert_self (digest : Bytes) : (b.insert digest).maybeContains digest = true := by
  refine List.all_eq_true.mpr fun p hp => decide_eq_true ?_
  rw [positions_insert] at hp
  obtain ⟨i, -, rfl⟩ := List.mem_map.mp hp
  exact setAll_of_mem hp (Nat.mod_lt _ (List.length_pos_iff.mpr b.nonempty))

theorem maybeContains_insert {digest : Bytes} (digest' : Bytes) (h : b.maybeContains digest = true) :
    (b.insert digest').maybeContains digest = true := by
  refine List.all_eq_true.mpr fun p hp => decide_eq_true ?_
  rw [positions_insert] at hp
  exact setAll_of_true _ (of_decide_eq_true (List.all_eq_true.mp h p hp))

/-- What a whole list of digests is inserted into finds each of them. -/
theorem maybeContains_insertAll : ∀ {digests : List Bytes} {b : BloomFilter} {digest : Bytes},
    digest ∈ digests ∨ b.maybeContains digest = true → (digests.foldl insert b).maybeContains digest = true
  | [], _, _, h => h.resolve_left List.not_mem_nil
  | d :: digests, b, digest, h => by
    refine @maybeContains_insertAll digests _ _ ?_
    rcases h with h | h
    · rcases List.mem_cons.mp h with rfl | h
      · exact .inr (b.maybeContains_insert_self digest)
      · exact .inl h
    · exact .inr (b.maybeContains_insert d h)

end BloomFilter

end Ekapkgs
