import Ekapkgs.Bloom
import Ekapkgs.NarFields

/-!
# Bloom filters in bytes

`bloom.rs` as it is written: the bits are kept in bytes, the positions are
computed in machine integers, and the bytes are what is sent. Floating point only
gives the sizes, so its results are parameters.
-/

namespace Ekapkgs

structure RawBloomFilter where
  bits : Bytes
  numBits : UInt64
  numHashes : UInt32
  deriving DecidableEq

/-- `[u8; 32]`. -/
structure BloomDigest where
  bytes : Bytes
  length : bytes.length = 32

/-- What floating point makes of a number of items: the bits for a rate of 1%, the
bits for a given rate, and `num_bits / num_items * ln 2`, rounded. -/
structure BloomSizes (F : Type) where
  newBits : UInt64 → UInt64
  fprBits : UInt64 → F → UInt64
  rounded : UInt64 → UInt64 → UInt32

inductive BloomRequest (F : Type) where
  | new (numItems : UInt64)
  | withFpr (numItems : UInt64) (fpr : F)

variable {F : Type} (sizes : BloomSizes F)

def optimalK (numBits numItems : UInt64) : UInt32 :=
  if numItems = 0 then 1 else max 1 (min (sizes.rounded numBits numItems) 30)

namespace RawBloomFilter

/-- No machine has `2 ^ 61` bytes for a vector. -/
def ofBits (rawBits numItems : UInt64) : Option RawBloomFilter :=
  let numBytes := ((max rawBits 64).toNat + 7) / 8
  if numBytes < 2 ^ 61 then
    let numBits := UInt64.ofNat (numBytes * 8)
    some { bits := List.replicate numBytes 0, numBits, numHashes := optimalK sizes numBits numItems }
  else none

def build : BloomRequest F → Option RawBloomFilter
  | .new numItems => ofBits sizes (sizes.newBits numItems) numItems
  | .withFpr numItems fpr => ofBits sizes (sizes.fprBits numItems fpr) numItems

def fromBytes (data : Bytes) (numHashes : UInt32) : RawBloomFilter where
  bits := data
  numBits := UInt64.ofNat data.length * 8
  numHashes := max numHashes 1

variable (f : RawBloomFilter)

def intoBytes : Bytes := f.bits

def hashes (digest : BloomDigest) : UInt64 × UInt64 :=
  (UInt64.ofNat (fromLeBytes (digest.bytes.take 8)), UInt64.ofNat (fromLeBytes ((digest.bytes.drop 8).take 8)) ||| 1)

/-- The remainder by zero panics. -/
def bit (digest : BloomDigest) (i : Nat) : Option UInt64 :=
  if f.numBits = 0 then none else some (((hashes digest).1 + UInt64.ofNat i * (hashes digest).2) % f.numBits)

/-- An index out of range panics. -/
def setBit (bit : UInt64) : Option RawBloomFilter :=
  (f.bits[bit.toNat / 8]?).map fun byte => { f with bits := f.bits.set (bit.toNat / 8) (byte ||| 1 <<< (bit % 8).toUInt8) }

def insert (digest : BloomDigest) : Option RawBloomFilter :=
  (List.range f.numHashes.toNat).foldlM (fun g i => (f.bit digest i).bind g.setBit) f

def containsBits (digest : BloomDigest) : List Nat → Option Bool
  | [] => some true
  | i :: rest =>
    (f.bit digest i).bind fun bit => (f.bits[bit.toNat / 8]?).bind fun byte =>
      if byte &&& 1 <<< (bit % 8).toUInt8 = 0 then some false else containsBits digest rest

def maybeContains (digest : BloomDigest) : Option Bool := f.containsBits digest (List.range f.numHashes.toNat)

/-! ## The bits of the bytes -/

def bitsOf (bytes : Bytes) : List Bool := (List.range (bytes.length * 8)).map fun p => (bytes.getD (p / 8) 0).toNat.testBit (p % 8)

theorem bitsOf_length (bytes : Bytes) : (bitsOf bytes).length = bytes.length * 8 := by simp [bitsOf]

theorem bitsOf_getElem? {bytes : Bytes} {p : Nat} {b : UInt8} (h : bytes[p / 8]? = some b) :
    (bitsOf bytes)[p]? = some (b.toNat.testBit (p % 8)) := by
  have hlt : p / 8 < bytes.length := (List.getElem?_eq_some_iff.mp h).1
  unfold bitsOf
  rw [List.getElem?_map, List.getElem?_range (by omega), Option.map_some, List.getD_eq_getElem?_getD, h]
  rfl

theorem shift_toNat (bit : UInt64) : ((1 : UInt8) <<< (bit % 8).toUInt8).toNat = 2 ^ (bit.toNat % 8) := by
  have hlt : bit.toNat % 8 < 8 := Nat.mod_lt _ (by decide)
  have hshift : ((bit % 8).toUInt8).toNat = bit.toNat % 8 := by
    rw [UInt64.toNat_toUInt8, UInt64.toNat_mod]
    show bit.toNat % 8 % 256 = bit.toNat % 8
    omega
  rw [UInt8.toNat_shiftLeft, hshift, Nat.mod_eq_of_lt hlt]
  show 1 <<< (bit.toNat % 8) % 256 = 2 ^ (bit.toNat % 8)
  rw [Nat.one_shiftLeft, Nat.mod_eq_of_lt]
  exact Nat.pow_lt_pow_right (by decide) hlt

theorem testBit_or (byte : UInt8) (bit : UInt64) (j : Nat) :
    (byte ||| 1 <<< (bit % 8).toUInt8).toNat.testBit j = (byte.toNat.testBit j || decide (bit.toNat % 8 = j)) := by
  rw [UInt8.toNat_or, shift_toNat, Nat.testBit_or, Nat.testBit_two_pow]

theorem and_eq_zero_iff (byte : UInt8) (bit : UInt64) :
    byte &&& 1 <<< (bit % 8).toUInt8 = 0 ↔ byte.toNat.testBit (bit.toNat % 8) = false := by
  rw [← UInt8.toNat_inj, UInt8.toNat_and, shift_toNat]
  show byte.toNat &&& 2 ^ (bit.toNat % 8) = 0 ↔ _
  rw [Nat.and_two_pow]
  cases byte.toNat.testBit (bit.toNat % 8) <;> simp

theorem bitsOf_setBit {bytes : Bytes} {bit : UInt64} {byte : UInt8} (h : bytes[bit.toNat / 8]? = some byte) :
    bitsOf (bytes.set (bit.toNat / 8) (byte ||| 1 <<< (bit % 8).toUInt8)) = (bitsOf bytes).set bit.toNat true := by
  have hlt : bit.toNat / 8 < bytes.length := (List.getElem?_eq_some_iff.mp h).1
  refine List.ext_getElem? fun p => ?_
  by_cases hp : p < bytes.length * 8
  · obtain ⟨old, hold⟩ : ∃ old, bytes[p / 8]? = some old := ⟨_, List.getElem?_eq_getElem (by omega)⟩
    rw [List.getElem?_set]
    by_cases hbyte : bit.toNat / 8 = p / 8
    · rw [bitsOf_getElem? (b := byte ||| 1 <<< (bit % 8).toUInt8) (by rw [hbyte, List.getElem?_set_self (by omega)]), testBit_or]
      rw [hbyte] at h
      rw [bitsOf_getElem? h, bitsOf_length]
      by_cases heq : bit.toNat = p
      · simp [heq, hp]
      · rw [if_neg heq, decide_eq_false (by omega), Bool.or_false]
    · rw [bitsOf_getElem? (b := old) (by rw [List.getElem?_set_ne hbyte, hold]), bitsOf_getElem? hold, if_neg (by omega)]
  · rw [List.getElem?_eq_none (by rw [bitsOf_length, List.length_set]; omega),
      List.getElem?_eq_none (by rw [List.length_set, bitsOf_length]; omega)]

/-! ## The filter of bits -/

structure Refines (f : RawBloomFilter) (b : BloomFilter) : Prop where
  bits : bitsOf f.bits = b.bits
  numHashes : f.numHashes.toNat = b.numHashes
  numBits : f.numBits.toNat = f.bits.length * 8

variable {f} {b : BloomFilter} {digest : BloomDigest}

theorem Refines.length (h : f.Refines b) : f.numBits.toNat = b.bits.length := by
  rw [h.numBits, ← bitsOf_length, h.bits]

/-- The `i`-th position of a digest. -/
def position (b : BloomFilter) (digest : BloomDigest) (i : Nat) : Nat :=
  ((doubleHash digest.bytes).1 + i * (doubleHash digest.bytes).2) % 2 ^ 64 % b.bits.length

theorem position_lt (b : BloomFilter) (digest : BloomDigest) (i : Nat) : position b digest i < b.bits.length :=
  Nat.mod_lt _ (List.length_pos_iff.mpr b.nonempty)

theorem hashes_toNat (digest : BloomDigest) :
    (hashes digest).1.toNat = (doubleHash digest.bytes).1 ∧ (hashes digest).2.toNat = (doubleHash digest.bytes).2 := by
  have hword : ∀ bytes : Bytes, (UInt64.ofNat (fromLeBytes (bytes.take 8))).toNat = fromLeBytes (bytes.take 8) := by
    intro bytes
    have hlt := fromLeBytes_lt (bytes.take 8)
    have hle : 256 ^ (bytes.take 8).length ≤ 256 ^ 8 := Nat.pow_le_pow_right (by decide) (List.length_take_le 8 bytes)
    exact UInt64.toNat_ofNat_of_lt (Nat.lt_of_lt_of_le hlt hle)
  refine ⟨hword _, ?_⟩
  unfold hashes doubleHash
  rw [UInt64.toNat_or, hword]
  rfl

theorem Refines.bit (h : f.Refines b) (digest : BloomDigest) (i : Nat) :
    ∃ bit, f.bit digest i = some bit ∧ bit.toNat = position b digest i := by
  have hpos : 0 < b.bits.length := List.length_pos_iff.mpr b.nonempty
  have hne : f.numBits ≠ 0 := by
    rintro hzero
    have hlen := h.length
    rw [hzero] at hlen
    exact absurd hlen (Nat.ne_of_lt hpos)
  refine ⟨_, if_neg hne, ?_⟩
  rw [UInt64.toNat_mod, UInt64.toNat_add, UInt64.toNat_mul, h.length, (hashes_toNat digest).1, (hashes_toNat digest).2,
    UInt64.toNat_ofNat']
  unfold position
  rw [Nat.add_mod_mod, Nat.add_mod, Nat.mod_mul_mod, ← Nat.add_mod]

theorem Refines.getElem? (h : f.Refines b) {bit : UInt64} (hlt : bit.toNat < b.bits.length) :
    ∃ byte, f.bits[bit.toNat / 8]? = some byte := by
  have hlen := h.length
  rw [h.numBits] at hlen
  exact ⟨_, List.getElem?_eq_getElem (by omega)⟩

/-- Setting the bits of a digest one after another. -/
theorem Refines.foldlM_setBit (h : f.Refines b) (digest : BloomDigest) : ∀ (is : List Nat) (g : RawBloomFilter),
    (bitsOf g.bits).length = b.bits.length → g.numHashes = f.numHashes → g.numBits = f.numBits →
      ∃ g', is.foldlM (fun g i => (f.bit digest i).bind g.setBit) g = some g' ∧
        bitsOf g'.bits = BloomFilter.setAll (bitsOf g.bits) (is.map (position b digest)) ∧
        g'.numHashes = f.numHashes ∧ g'.numBits = f.numBits
  | [], g, _, hhashes, hbits => ⟨g, rfl, rfl, hhashes, hbits⟩
  | i :: is, g, hlen, hhashes, hbits => by
    obtain ⟨bit, hbit, hpos⟩ := h.bit digest i
    have hlt : bit.toNat / 8 < g.bits.length := by
      have := position_lt b digest i
      rw [bitsOf_length] at hlen
      omega
    have hset := bitsOf_setBit (List.getElem?_eq_getElem hlt)
    have hstep : g.setBit bit = some { g with bits := g.bits.set (bit.toNat / 8) (g.bits[bit.toNat / 8] ||| 1 <<< (bit % 8).toUInt8) } := by
      unfold setBit
      rw [List.getElem?_eq_getElem hlt, Option.map_some]
    obtain ⟨g', hrun, hall, hrest⟩ := h.foldlM_setBit digest is
      { g with bits := g.bits.set (bit.toNat / 8) (g.bits[bit.toNat / 8] ||| 1 <<< (bit % 8).toUInt8) }
      (by rw [hset, List.length_set, hlen]) hhashes hbits
    refine ⟨g', ?_, ?_, hrest⟩
    · rw [List.foldlM_cons, hbit, Option.bind_some, hstep]
      exact hrun
    · rw [hall, hset, hpos]
      rfl

theorem Refines.insert (h : f.Refines b) (digest : BloomDigest) :
    ∃ f', f.insert digest = some f' ∧ f'.Refines (b.insert digest.bytes) ∧ f'.numHashes = f.numHashes := by
  obtain ⟨f', hrun, hbits, hhashes, hnum⟩ := h.foldlM_setBit digest (List.range f.numHashes.toNat) f (by rw [h.bits]) rfl rfl
  refine ⟨f', hrun, ⟨?_, by rw [hhashes]; exact h.numHashes, ?_⟩, hhashes⟩
  · rw [hbits, h.bits, h.numHashes]
    rfl
  · rw [hnum, h.length, ← bitsOf_length, hbits, BloomFilter.setAll_length, h.bits]

theorem Refines.containsBits (h : f.Refines b) (digest : BloomDigest) : ∀ is : List Nat,
    f.containsBits digest is = some ((is.map (position b digest)).all fun p => b.bits[p]? = some true)
  | [] => rfl
  | i :: is => by
    obtain ⟨bit, hbit, hpos⟩ := h.bit digest i
    obtain ⟨byte, hbyte⟩ := h.getElem? (show bit.toNat < b.bits.length by rw [hpos]; exact position_lt b digest i)
    have hget : b.bits[position b digest i]? = some (byte.toNat.testBit (bit.toNat % 8)) := by
      rw [← h.bits, ← hpos]
      exact bitsOf_getElem? hbyte
    unfold RawBloomFilter.containsBits
    rw [hbit, Option.bind_some, hbyte, Option.bind_some, List.map_cons, List.all_cons, hget, h.containsBits digest is]
    by_cases hzero : byte &&& 1 <<< (bit % 8).toUInt8 = 0
    · rw [if_pos hzero, (and_eq_zero_iff byte bit).mp hzero]
      rfl
    · rw [if_neg hzero, Bool.eq_true_of_not_eq_false fun hfalse => hzero ((and_eq_zero_iff byte bit).mpr hfalse)]
      rfl

theorem Refines.maybeContains (h : f.Refines b) (digest : BloomDigest) :
    f.maybeContains digest = some (b.maybeContains digest.bytes) := by
  unfold RawBloomFilter.maybeContains
  rw [h.containsBits, h.numHashes]
  rfl

theorem max_toNat_hashes (a b : UInt32) : (max a b).toNat = max a.toNat b.toNat := by
  show (if a ≤ b then b else a).toNat = _
  split
  next hle => exact (Nat.max_eq_right (UInt32.le_iff_toNat_le.mp hle)).symm
  next hle => exact (Nat.max_eq_left (Nat.le_of_lt (Nat.lt_of_not_le fun h => hle (UInt32.le_iff_toNat_le.mpr h)))).symm

theorem max_toNat_bits (a b : UInt64) : (max a b).toNat = max a.toNat b.toNat := by
  show (if a ≤ b then b else a).toNat = _
  split
  next hle => exact (Nat.max_eq_right (UInt64.le_iff_toNat_le.mp hle)).symm
  next hle => exact (Nat.max_eq_left (Nat.le_of_lt (Nat.lt_of_not_le fun h => hle (UInt64.le_iff_toNat_le.mpr h)))).symm

/-- The bytes and the number of hash functions are the whole filter. -/
theorem Refines.fromBytes (h : f.Refines b) (hpos : f.numHashes ≠ 0) :
    (RawBloomFilter.fromBytes f.intoBytes f.numHashes).Refines b where
  bits := h.bits
  numHashes := by
    have hne : f.numHashes.toNat ≠ 0 := fun hzero => hpos (UInt32.toNat_inj.mp hzero)
    rw [← h.numHashes]
    show (max f.numHashes 1).toNat = f.numHashes.toNat
    rw [max_toNat_hashes]
    exact Nat.max_eq_left (Nat.one_le_iff_ne_zero.mpr hne)
  numBits := by
    have hlt := f.numBits.toNat_lt
    rw [h.numBits] at hlt
    show (UInt64.ofNat f.bits.length * 8).toNat = f.bits.length * 8
    rw [UInt64.toNat_mul, UInt64.toNat_ofNat', Nat.mod_eq_of_lt (Nat.lt_of_le_of_lt (Nat.le_mul_of_pos_right _ (by decide)) hlt)]
    exact Nat.mod_eq_of_lt hlt

/-! ## Every filter that is built -/

variable {sizes : BloomSizes F} {request : BloomRequest F}

theorem optimalK_ne_zero (numBits numItems : UInt64) : optimalK sizes numBits numItems ≠ 0 := by
  unfold optimalK
  split
  · decide
  · intro hzero
    have hmax := max_toNat_hashes 1 (min (sizes.rounded numBits numItems) 30)
    rw [hzero] at hmax
    exact absurd (Nat.le_max_left ..) (Nat.not_le.mpr (hmax ▸ (by decide : (0 : UInt32).toNat < (1 : UInt32).toNat)))

theorem ofBits_refines {rawBits numItems : UInt64} (h : ofBits sizes rawBits numItems = some f) :
    f.Refines (BloomFilter.ofBits rawBits.toNat f.numHashes.toNat) ∧ f.numHashes ≠ 0 := by
  unfold ofBits at h
  obtain ⟨hlt, h⟩ := Option.ite_none_right_eq_some.mp h
  cases h
  have hmax : (max rawBits 64).toNat = max rawBits.toNat 64 := max_toNat_bits rawBits 64
  refine ⟨⟨?_, rfl, ?_⟩, optimalK_ne_zero _ _⟩
  · show bitsOf (List.replicate _ 0) = List.replicate _ false
    rw [hmax]
    refine List.eq_replicate_iff.mpr ⟨by rw [bitsOf_length, List.length_replicate], fun x hx => ?_⟩
    obtain ⟨p, -, rfl⟩ := List.mem_map.mp hx
    have hzero : ∀ n, (List.replicate n (0 : UInt8)).getD (p / 8) 0 = 0 := fun n => by
      rw [List.getD_eq_getElem?_getD, List.getElem?_replicate]
      split <;> rfl
    rw [hzero]
    exact Nat.zero_testBit _
  · show (UInt64.ofNat _).toNat = (List.replicate _ 0).length * 8
    rw [List.length_replicate, UInt64.toNat_ofNat', Nat.mod_eq_of_lt (by omega)]

theorem build_refines (h : build sizes request = some f) : (∃ b, f.Refines b) ∧ f.numHashes ≠ 0 := by
  cases request with
  | new numItems => exact ⟨⟨_, (ofBits_refines h).1⟩, (ofBits_refines h).2⟩
  | withFpr numItems fpr => exact ⟨⟨_, (ofBits_refines h).1⟩, (ofBits_refines h).2⟩

theorem Refines.insertAll : ∀ {f : RawBloomFilter} {b : BloomFilter}, f.Refines b → ∀ digests : List BloomDigest,
    ∃ f', digests.foldlM RawBloomFilter.insert f = some f' ∧
      f'.Refines ((digests.map BloomDigest.bytes).foldl BloomFilter.insert b) ∧ f'.numHashes = f.numHashes
  | f, _, h, [] => ⟨f, rfl, h, rfl⟩
  | f, b, h, digest :: digests => by
    obtain ⟨g, hinsert, hg, hhashes⟩ := h.insert digest
    obtain ⟨f', hrun, hf', hhashes'⟩ := hg.insertAll digests
    exact ⟨f', (by rw [List.foldlM_cons, hinsert]; exact hrun), hf', hhashes'.trans hhashes⟩

end RawBloomFilter

open RawBloomFilter

/-- The digests are inserted without an index out of range, every digest can be
looked up, and those inserted are found, also in the filter rebuilt from its bytes. -/
theorem bloom_no_false_negatives {sizes : BloomSizes F} {request : BloomRequest F} {f : RawBloomFilter}
    (h : build sizes request = some f) (digests : List BloomDigest) :
    ∃ f', digests.foldlM RawBloomFilter.insert f = some f' ∧
      ∀ g ∈ [f', RawBloomFilter.fromBytes f'.intoBytes f'.numHashes],
        (∀ digest, (g.maybeContains digest).isSome) ∧ ∀ digest ∈ digests, g.maybeContains digest = some true := by
  obtain ⟨⟨b, hb⟩, hpos⟩ := build_refines h
  obtain ⟨f', hrun, hf', hhashes⟩ := hb.insertAll digests
  have hpos' : f'.numHashes ≠ 0 := by rw [hhashes]; exact hpos
  refine ⟨f', hrun, fun g hg => ?_⟩
  have hrefines : g.Refines ((digests.map BloomDigest.bytes).foldl BloomFilter.insert b) := by
    rcases List.mem_cons.mp hg with rfl | hg
    · exact hf'
    · rw [List.mem_singleton.mp hg]
      exact hf'.fromBytes hpos'
  refine ⟨fun digest => by rw [hrefines.maybeContains]; rfl, fun digest hmem => ?_⟩
  rw [hrefines.maybeContains, BloomFilter.maybeContains_insertAll (.inl (List.mem_map_of_mem hmem))]

/-- Sizes for one item. -/
def oneItem : BloomSizes Unit := ⟨fun _ => 10, fun _ _ => 10, fun _ _ => 44⟩

def zeroBloomDigest : BloomDigest := ⟨List.replicate 32 0, List.length_replicate⟩

theorem bloom_no_false_negatives_one : build oneItem (.new 1) = some ⟨List.replicate 8 0, 64, 30⟩ ∧
    ∃ f', [zeroBloomDigest].foldlM RawBloomFilter.insert ⟨List.replicate 8 0, 64, 30⟩ = some f' ∧ f'.maybeContains zeroBloomDigest = some true := by
  have hbuild : build oneItem (.new 1) = some ⟨List.replicate 8 0, 64, 30⟩ := by decide
  obtain ⟨f', hrun, hfound⟩ := bloom_no_false_negatives hbuild [zeroBloomDigest]
  exact ⟨hbuild, f', hrun, (hfound f' (List.mem_cons_self ..)).2 zeroBloomDigest (List.mem_singleton_self _)⟩

end Ekapkgs
