import Ekapkgs.CaTree
import Ekapkgs.NarSound
import Ekapkgs.Lib.Codec

/-!
# A concrete instance of the external crates

Small computable stand-ins that satisfy the documented laws, so that statements
about every instance can be run on one. A digest is the content itself, a chunk
is a piece of at most `CHUNK_MAX` bytes, and the compressor knows runs of one
byte.
-/

namespace Ekapkgs

/-! ## Messages -/

def flagCodec : Codec UInt8 Bool := .bool 0 1 (by decide)

theorem flagCodec_ne_nil (b : Bool) : flagCodec.enc b ≠ [] := nofun

def bytesCodec : Codec UInt8 Bytes := .list flagCodec flagCodec_ne_nil .item

def natCodec : Codec UInt8 Nat := .nat flagCodec flagCodec_ne_nil

def stringCodec : Codec UInt8 String := bytesCodec.map asBytes fromUtf8 fromUtf8_asBytes

def digestCodec : Codec UInt8 (Option B3Digest) :=
  .option flagCodec (bytesCodec.map B3Digest.digest (fun b => some ⟨b⟩) fun _ => rfl)

def kindCodec : Codec UInt8 CaNodeKind :=
  ((Codec.option flagCodec (digestCodec.prod (natCodec.prod flagCodec))).prod
    ((Codec.option flagCodec (digestCodec.prod natCodec)).prod stringCodec)).map
    (fun
      | .file f => (some (f.digest, f.size, f.executable), none, "")
      | .directory d => (none, some (d.digest, d.size), "")
      | .symlink s => (none, none, s.target))
    (fun
      | (some (d, n, e), _) => some (.file ⟨d, n, e⟩)
      | (none, some (d, n), _) => some (.directory ⟨d, n⟩)
      | (none, none, t) => some (.symlink ⟨t⟩))
    (by rintro (_ | _ | _) <;> rfl)

def nodeCodec : Codec UInt8 CaNode :=
  (Codec.option flagCodec kindCodec).map CaNode.node (fun k => some ⟨k⟩) fun _ => rfl

def directoryCodec : Codec UInt8 CaDirectory :=
  (Codec.list flagCodec flagCodec_ne_nil (stringCodec.prod (.option flagCodec nodeCodec))).map
    (fun d => d.entries.map fun e => (e.name, e.node)) (fun l => some ⟨l.map fun e => ⟨e.1, e.2⟩⟩)
    (by rintro ⟨entries⟩; rw [List.map_map]; exact congrArg (some ∘ CaDirectory.mk) (List.map_id entries))

/-! ## Chunks -/

def pieces : Nat → Nat → Nat → List (Nat × Nat)
  | 0, _, _ => []
  | fuel + 1, offset, length =>
    if length = 0 then []
    else (offset, min length CHUNK_MAX) :: pieces fuel (offset + min length CHUNK_MAX) (length - min length CHUNK_MAX)

theorem pieces_bounds : ∀ (fuel offset length : Nat), ∀ c ∈ pieces fuel offset length,
    c.2 ≤ CHUNK_MAX ∧ c.1 + c.2 ≤ offset + length
  | 0, _, _, _, hc => nomatch hc
  | fuel + 1, offset, length, c, hc => by
    rw [pieces] at hc
    by_cases h : length = 0
    · rw [if_pos h] at hc; cases hc
    rw [if_neg h] at hc
    rcases List.mem_cons.mp hc with rfl | hc
    · exact ⟨Nat.min_le_right .., by simp only; omega⟩
    · have ih := pieces_bounds fuel _ _ c hc
      exact ⟨ih.1, by omega⟩

theorem pieces_flatten (data : Bytes) : ∀ (fuel offset length : Nat), length ≤ fuel → offset + length ≤ data.length →
    ((pieces fuel offset length).map fun c => (data.drop c.1).take c.2).flatten = (data.drop offset).take length
  | 0, offset, length, hf, _ => by
    obtain rfl : length = 0 := by omega
    simp [pieces]
  | fuel + 1, offset, length, hf, hl => by
    rw [pieces]
    by_cases h : length = 0
    · subst h; simp
    · have hmax : 0 < CHUNK_MAX := by decide
      rw [if_neg h, List.map_cons, List.flatten_cons,
        pieces_flatten data fuel _ _ (by omega) (by omega), ← List.drop_drop, ← List.take_add]
      congr 1; omega

/-- One byte repeated becomes the byte and the length. -/
def packRun (data : Bytes) : Bytes :=
  match data with
  | b :: _ => if data.length < 2 ^ 64 ∧ data.all (· == b) then 1 :: b :: toLeBytes 8 data.length else 0 :: data
  | [] => [0]

def unpackRun (packed : Bytes) (capacity : Nat) : Option Bytes :=
  match packed with
  | [] => none
  | tag :: rest =>
    if tag = 0 then if rest.length ≤ capacity then some rest else none
    else
      match rest with
      | b :: len => if fromLeBytes len ≤ capacity then some (List.replicate (fromLeBytes len) b) else none
      | [] => none

theorem unpackRun_packRun (data : Bytes) {capacity : Nat} (h : data.length ≤ capacity) :
    unpackRun (packRun data) capacity = some data := by
  cases data with
  | nil => simp [packRun, unpackRun]
  | cons b rest =>
    by_cases hrun : (b :: rest).length < 2 ^ 64 ∧ (b :: rest).all (· == b)
    · have hlen : fromLeBytes (toLeBytes 8 (b :: rest).length) = (b :: rest).length := by
        rw [fromLeBytes_toLeBytes, Nat.mod_eq_of_lt (by omega)]
      have hrep : b :: rest = List.replicate (b :: rest).length b :=
        List.eq_replicate_of_mem fun x hx => by simpa using List.all_eq_true.mp hrun.2 x hx
      rw [packRun, if_pos hrun, unpackRun, if_neg (by decide)]
      simp only [hlen]
      rw [if_pos h, ← hrep]
    · rw [packRun, if_neg hrun, unpackRun, if_pos rfl, if_pos h]

def sampleExt : Ext Bytes where
  blake3 := id
  toVec := id
  tryFrom := some
  fastcdc data := pieces data.length 0 data.length
  compress _ data := some (packRun data)
  decompress := unpackRun
  encodeNode := nodeCodec.enc
  decodeNode := nodeCodec.decode
  encodeDirectory := directoryCodec.enc
  decodeDirectory := directoryCodec.decode
  sha256 := id

theorem sampleExt_laws : sampleExt.Laws where
  blake3_injective := Function.injective_id
  tryFrom_toVec _ := rfl
  chunk_length data c hc := by
    have := (pieces_bounds _ _ _ c hc).2
    rw [List.length_take, List.length_drop]; omega
  chunk_le data c hc := (pieces_bounds _ _ _ c hc).1
  chunks_flatten data := by
    show ((pieces data.length 0 data.length).map _).flatten = data
    rw [pieces_flatten data _ _ _ (Nat.le_refl _) (by omega)]; simp
  compress_isSome _ _ := rfl
  decompress_compress _ data bytes cap h hle := by
    cases h; exact unpackRun_packRun data hle
  decode_encodeNode := nodeCodec.decode_enc
  decode_encodeDirectory := directoryCodec.decode_enc

/-- A chunk that the compressor makes smaller. -/
def zeros : Bytes := List.replicate 1024 0

theorem zeros_length : zeros.length ≤ CHUNK_MAX := by
  rw [zeros, List.length_replicate]; decide

def sampleFile : NarNode := .regular false [1]

theorem sampleFile_parse : parseNar (writeNar sampleFile) = .ok sampleFile := parseNar_writeNar (by decide +kernel)

def sampleLink : NarNode := .symlink "x"

theorem sampleLink_parse : parseNar (writeNar sampleLink) = .ok sampleLink := parseNar_writeNar (by decide +kernel)

end Ekapkgs
