import Ekapkgs.Nar

/-!
# The NAR parser reads back what the writer wrote

`left data bs` is the reader of `data` that has `bs` left. One lemma per parser
function takes `left data (written ++ rest)` to `left data rest`; the recursion
is bounded by the bytes left.
-/

namespace Ekapkgs
open Fallible

/-! ## Fields -/

@[simp] theorem toLeBytes_length : ∀ (k n : Nat), (toLeBytes k n).length = k
  | 0, _ => rfl
  | k + 1, n => by rw [toLeBytes, List.length_cons, toLeBytes_length]

theorem fromLeBytes_toLeBytes : ∀ (k n : Nat), fromLeBytes (toLeBytes k n) = n % 256 ^ k
  | 0, n => by simp [toLeBytes, fromLeBytes, Nat.mod_one]
  | k + 1, n => by
    have hb : (UInt8.ofNat (n % 256)).toNat = n % 256 := by simp [UInt8.toNat_ofNat']
    rw [toLeBytes, fromLeBytes, fromLeBytes_toLeBytes, hb, Nat.pow_succ, Nat.mul_comm (256 ^ k), Nat.mod_mul]

theorem writeBytes_length (s : Bytes) : (writeBytes s).length = 8 + s.length + (8 - s.length % 8) % 8 := by
  simp [writeBytes, padding]; omega

theorem writeStr_length_ge (s : String) : 8 ≤ (writeStr s).length := by
  rw [writeStr, writeBytes_length]; omega

theorem writeStr_close_length : (writeStr ")").length = 16 := by decide

def left (data bs : Bytes) : NarReader := ⟨data, data.length - bs.length⟩

theorem drop_left {data bs : Bytes} (h : bs <:+ data) : data.drop (left data bs).pos = bs := by
  obtain ⟨pre, rfl⟩ := h
  simp [left]

section
variable {data : Bytes} (hd : data.length < 2 ^ 64)
include hd

omit hd in
theorem readU64_left {n : Nat} {rest : Bytes} (hn : n < 2 ^ 64) (h : toLeBytes 8 n ++ rest <:+ data) :
    readU64 (left data (toLeBytes 8 n ++ rest)) = .ok n (left data rest) := by
  have hl := h.length_le
  have hdrop := drop_left h
  simp only [List.length_append, toLeBytes_length] at hl
  have hpos : (left data (toLeBytes 8 n ++ rest)).pos + 8 = (left data rest).pos := by simp [left]; omega
  unfold readU64
  rw [hpos]
  have hle : (left data rest).pos ≤ (left data (toLeBytes 8 n ++ rest)).data.length := Nat.sub_le ..
  rw [if_pos hle]
  have htake : (data.drop (left data (toLeBytes 8 n ++ rest)).pos).take 8 = toLeBytes 8 n := by
    rw [hdrop, List.take_append_of_le_length (by simp), List.take_of_length_le (by simp)]
  show EStateM.Result.ok (fromLeBytes ((data.drop _).take 8)) _ = _
  rw [htake, fromLeBytes_toLeBytes, Nat.mod_eq_of_lt (by omega)]
  rfl

theorem readBytes_left {s rest : Bytes} (h : s ++ padding s.length ++ rest <:+ data) :
    readBytes s.length (left data (s ++ padding s.length ++ rest)) = .ok s (left data rest) := by
  have hl := h.length_le
  have hdrop := drop_left h
  simp only [List.length_append, padding, List.length_replicate] at hl
  have hpos : (left data (s ++ padding s.length ++ rest)).pos + s.length + (8 - s.length % 8) % 8 =
      (left data rest).pos := by
    simp [left, padding]; omega
  have hle : (left data rest).pos ≤ data.length := Nat.sub_le ..
  have hpos' : (left data (s ++ padding s.length ++ rest)).pos + s.length ≤ data.length := by omega
  unfold readBytes
  rw [if_neg (by omega), if_pos (show _ ≤ (left data _).data.length from hpos')]
  have htake : (data.drop (left data (s ++ padding s.length ++ rest)).pos).take s.length = s := by
    rw [hdrop, List.append_assoc, List.take_left]
  show EStateM.Result.ok ((data.drop _).take s.length) (NarReader.mk data _) = _
  rw [htake, hpos]
  rfl

theorem readStr_left {s rest : Bytes} (h : writeBytes s ++ rest <:+ data) :
    readStr (left data (writeBytes s ++ rest)) = .ok s (left data rest) := by
  have hlen : s.length < 2 ^ 64 := by
    have := h.length_le
    rw [List.length_append, writeBytes_length] at this; omega
  unfold writeBytes at h ⊢
  rw [List.append_assoc, List.append_assoc, ← List.append_assoc s] at h ⊢
  have h' : s ++ padding s.length ++ rest <:+ data := (List.suffix_append ..).trans h
  exact (bind_ok.mpr ⟨_, _, readU64_left hlen h, readBytes_left hd h'⟩)

theorem expectStr_left {s : String} {rest : Bytes} (h : writeStr s ++ rest <:+ data) :
    expectStr s (left data (writeStr s ++ rest)) = .ok () (left data rest) :=
  bind_ok.mpr ⟨_, _, readStr_left hd h, by rw [if_pos rfl]; rfl⟩

theorem readString_left {s : String} {rest : Bytes} (h : writeStr s ++ rest <:+ data) :
    readString (left data (writeStr s ++ rest)) = .ok s (left data rest) :=
  bind_ok.mpr ⟨_, _, readStr_left hd h, by rw [fromUtf8_asBytes]; rfl⟩

omit hd in
theorem rewind_left (rest : Bytes) : rewind (left data rest) = .ok () (left data (writeStr ")" ++ rest)) := by
  show EStateM.Result.ok () (NarReader.mk data _) = _
  have : (left data rest).pos - 16 = (left data (writeStr ")" ++ rest)).pos := by
    simp only [left, List.length_append, writeStr_close_length]; omega
  rw [this]; rfl

/-! ## Nodes -/

theorem parseRegular_left {executable : Bool} {content rest : Bytes} {fuel : Nat} (hf : 2 ≤ fuel)
    (h : writeExecutable executable ++ (writeStr "contents" ++ (writeBytes content ++ rest)) <:+ data) :
    parseRegular fuel false
        (left data (writeExecutable executable ++ (writeStr "contents" ++ (writeBytes content ++ rest)))) =
      .ok (.regular executable content) (left data rest) := by
  obtain ⟨fuel, rfl⟩ : ∃ n, fuel = n + 2 := ⟨fuel - 2, by omega⟩
  have tail : ∀ (n : Nat) (e : Bool), writeStr "contents" ++ (writeBytes content ++ rest) <:+ data →
      parseRegular (n + 1) e (left data (writeStr "contents" ++ (writeBytes content ++ rest))) =
        .ok (.regular e content) (left data rest) := by
    intro n e h
    have h₁ : writeBytes content ++ rest <:+ data := (List.suffix_append ..).trans h
    refine bind_ok.mpr ⟨_, _, readString_left hd h, ?_⟩
    rw [if_neg (by decide), if_pos rfl]
    exact bind_ok.mpr ⟨_, _, readStr_left hd h₁, rfl⟩
  cases executable with
  | false => exact tail (fuel + 1) false h
  | true =>
    simp only [writeExecutable, if_true, List.append_assoc] at h ⊢
    have h₁ : writeStr "" ++ (writeStr "contents" ++ (writeBytes content ++ rest)) <:+ data :=
      (List.suffix_append ..).trans h
    refine bind_ok.mpr ⟨_, _, readString_left hd h, ?_⟩
    rw [if_pos rfl]
    exact bind_ok.mpr ⟨_, _, readStr_left hd h₁, tail fuel true ((List.suffix_append ..).trans h₁)⟩

theorem parseSymlink_left {target : String} {rest : Bytes} (h : writeStr "target" ++ (writeStr target ++ rest) <:+ data) :
    parseSymlink (left data (writeStr "target" ++ (writeStr target ++ rest))) = .ok (.symlink target) (left data rest) :=
  bind_ok.mpr ⟨_, _, expectStr_left hd h,
    bind_ok.mpr ⟨_, _, readString_left hd ((List.suffix_append ..).trans h), rfl⟩⟩

mutual
theorem parseNarObj_left (node : NarNode) {fuel : Nat} {rest : Bytes} (h : writeNarObj node ++ rest <:+ data)
    (hf : (writeNarObj node ++ rest).length ≤ fuel) :
    parseNarObj fuel (left data (writeNarObj node ++ rest)) = .ok node (left data rest) := by
  have hopen := writeStr_length_ge "("
  have htype := writeStr_length_ge "type"
  match node with
  | .regular executable content =>
    simp only [writeNarObj, List.append_assoc] at h hf ⊢
    rw [List.length_append, List.length_append] at hf
    obtain ⟨fuel, rfl⟩ : ∃ n, fuel = n + 1 := ⟨fuel - 1, by omega⟩
    have h₁ := (List.suffix_append ..).trans h
    have h₂ := (List.suffix_append ..).trans h₁
    have h₃ := (List.suffix_append ..).trans h₂
    have h₄ := (List.suffix_append ..).trans ((List.suffix_append ..).trans ((List.suffix_append ..).trans h₃))
    refine bind_ok.mpr ⟨_, _, expectStr_left hd h, bind_ok.mpr ⟨_, _, expectStr_left hd h₁, ?_⟩⟩
    refine bind_ok.mpr ⟨_, _, readString_left hd h₂, ?_⟩
    rw [if_pos rfl]
    exact bind_ok.mpr ⟨_, _, parseRegular_left hd (by omega) h₃, bind_ok.mpr ⟨_, _, expectStr_left hd h₄, rfl⟩⟩
  | .directory entries =>
    simp only [writeNarObj, List.append_assoc] at h hf ⊢
    rw [List.length_append, List.length_append, List.length_append] at hf
    obtain ⟨fuel, rfl⟩ : ∃ n, fuel = n + 1 := ⟨fuel - 1, by omega⟩
    have h₁ := (List.suffix_append ..).trans h
    have h₂ := (List.suffix_append ..).trans h₁
    have h₃ := (List.suffix_append ..).trans h₂
    have h₄ := (List.suffix_append ..).trans h₃
    refine bind_ok.mpr ⟨_, _, expectStr_left hd h, bind_ok.mpr ⟨_, _, expectStr_left hd h₁, ?_⟩⟩
    refine bind_ok.mpr ⟨_, _, readString_left hd h₂, ?_⟩
    rw [if_neg (by decide), if_pos rfl]
    refine bind_ok.mpr ⟨_, _, parseDirectory_left entries [] h₃ (by omega), ?_⟩
    exact bind_ok.mpr ⟨_, _, expectStr_left hd h₄, rfl⟩
  | .symlink target =>
    simp only [writeNarObj, List.append_assoc] at h hf ⊢
    rw [List.length_append, List.length_append] at hf
    obtain ⟨fuel, rfl⟩ : ∃ n, fuel = n + 1 := ⟨fuel - 1, by omega⟩
    have h₁ := (List.suffix_append ..).trans h
    have h₂ := (List.suffix_append ..).trans h₁
    have h₃ := (List.suffix_append ..).trans h₂
    have h₄ := (List.suffix_append ..).trans ((List.suffix_append ..).trans h₃)
    refine bind_ok.mpr ⟨_, _, expectStr_left hd h, bind_ok.mpr ⟨_, _, expectStr_left hd h₁, ?_⟩⟩
    refine bind_ok.mpr ⟨_, _, readString_left hd h₂, ?_⟩
    rw [if_neg (by decide), if_neg (by decide), if_pos rfl]
    exact bind_ok.mpr ⟨_, _, parseSymlink_left hd h₃, bind_ok.mpr ⟨_, _, expectStr_left hd h₄, rfl⟩⟩

/-- The directory parser stops in front of the closing `")"`. -/
theorem parseDirectory_left (entries acc : List (String × NarNode)) {fuel : Nat} {rest : Bytes}
    (h : writeEntries entries ++ (writeStr ")" ++ rest) <:+ data)
    (hf : (writeEntries entries ++ (writeStr ")" ++ rest)).length ≤ fuel) :
    parseDirectory fuel acc (left data (writeEntries entries ++ (writeStr ")" ++ rest))) =
      .ok (.directory (acc ++ entries)) (left data (writeStr ")" ++ rest)) := by
  have hclose := writeStr_close_length
  have hrem : ∀ {bs : Bytes}, bs <:+ data → remaining (left data bs) = .ok bs.length (left data bs) := by
    intro bs hb
    have := hb.length_le
    show EStateM.Result.ok (data.length - (data.length - bs.length)) _ = _
    rw [show data.length - (data.length - bs.length) = bs.length by omega]
  match entries with
  | [] =>
    simp only [writeEntries, List.nil_append, List.append_nil] at h hf ⊢
    rw [List.length_append] at hf
    obtain ⟨fuel, rfl⟩ : ∃ n, fuel = n + 1 := ⟨fuel - 1, by omega⟩
    refine bind_ok.mpr ⟨_, _, hrem h, ?_⟩
    rw [if_neg (by rw [List.length_append]; omega)]
    refine bind_ok.mpr ⟨_, _, readString_left hd h, ?_⟩
    rw [if_neg (by decide), if_pos rfl]
    exact bind_ok.mpr ⟨_, _, rewind_left rest, rfl⟩
  | (name, node) :: entries =>
    have hentry := writeStr_length_ge "entry"
    simp only [writeEntries, List.append_assoc] at h hf ⊢
    simp only [List.length_append] at hf
    obtain ⟨fuel, rfl⟩ : ∃ n, fuel = n + 1 := ⟨fuel - 1, by omega⟩
    have h₁ := (List.suffix_append ..).trans h
    have h₂ := (List.suffix_append ..).trans h₁
    have h₃ := (List.suffix_append ..).trans h₂
    have h₄ := (List.suffix_append ..).trans h₃
    have h₅ := (List.suffix_append ..).trans h₄
    have h₆ := (List.suffix_append ..).trans h₅
    have h₇ := (List.suffix_append ..).trans h₆
    refine bind_ok.mpr ⟨_, _, hrem h, ?_⟩
    rw [if_neg (by rw [List.length_append]; omega)]
    refine bind_ok.mpr ⟨_, _, readString_left hd h, ?_⟩
    rw [if_pos rfl]
    refine bind_ok.mpr ⟨_, _, expectStr_left hd h₁, bind_ok.mpr ⟨_, _, expectStr_left hd h₂, ?_⟩⟩
    refine bind_ok.mpr ⟨_, _, readString_left hd h₃, bind_ok.mpr ⟨_, _, expectStr_left hd h₄, ?_⟩⟩
    refine bind_ok.mpr ⟨_, _, parseNarObj_left node h₅ (by simp only [List.length_append]; omega), bind_ok.mpr ⟨_, _, expectStr_left hd h₆, ?_⟩⟩
    rw [parseDirectory_left entries (acc ++ [(name, node)]) h₇ (by simp only [List.length_append]; omega)]
    simp
end

end

theorem parseNar_writeNar {node : NarNode} (hd : (writeNar node).length < 2 ^ 64) :
    parseNar (writeNar node) = .ok node := by
  have h : writeStr "nix-archive-1" ++ (writeNarObj node ++ []) <:+ writeNar node := by
    rw [List.append_nil]; exact List.suffix_rfl
  have h₁ := (List.suffix_append ..).trans h
  have hstart : (⟨writeNar node, 0⟩ : NarReader) =
      left (writeNar node) (writeStr "nix-archive-1" ++ (writeNarObj node ++ [])) := by
    rw [List.append_nil]; simp [left, writeNar]
  have hfuel := h₁.length_le
  have hparse : parseArchive ((writeNar node).length + 8) ⟨writeNar node, 0⟩ = .ok node (left (writeNar node) []) := by
    rw [hstart]
    exact bind_ok.mpr ⟨_, _, expectStr_left hd h, parseNarObj_left hd node h₁ (by omega)⟩
  rw [parseNar, hparse]

/-! ## The fuel suffices -/

/-- The cursor of a reader of `len` bytes is at `pos` or further. Only the last
padding may take it past the end. -/
def reached (len pos : Nat) (r : NarReader) : Prop := r.data.length = len ∧ pos ≤ r.pos ∧ r.pos ≤ len + 7

def notDepth (e : NarError) (_ : NarReader) : Prop := e ≠ .depth

section
variable {len pos : Nat}

theorem readU64_reaches : Triple (reached len pos) readU64
    (fun _ r => r.data.length = len ∧ pos + 8 ≤ r.pos ∧ r.pos ≤ len) notDepth := by
  rintro r ⟨hl, hp, _⟩
  unfold readU64
  by_cases h : r.pos + 8 ≤ r.data.length
  · rw [if_pos h]; exact ⟨hl, Nat.add_le_add_right hp 8, hl ▸ h⟩
  · rw [if_neg h]; exact NarError.noConfusion

theorem readBytes_reaches (n : Nat) :
    Triple (fun r => r.data.length = len ∧ pos + 8 ≤ r.pos ∧ r.pos ≤ len) (readBytes n)
      (fun _ => reached len (pos + 8)) notDepth := by
  rintro r ⟨hl, hp, hr⟩
  unfold readBytes
  by_cases ho : 2 ^ 64 ≤ r.pos + n
  · rw [if_pos ho]; exact NarError.noConfusion
  rw [if_neg ho]
  by_cases h : r.pos + n ≤ r.data.length
  · rw [if_pos h]
    refine ⟨hl, ?_, ?_⟩ <;> simp only <;> omega
  · rw [if_neg h]; exact NarError.noConfusion

theorem readStr_reaches : Triple (reached len pos) readStr (fun _ => reached len (pos + 8)) notDepth :=
  .bind readU64_reaches readBytes_reaches

theorem expectStr_reaches (s : String) :
    Triple (reached len pos) (expectStr s) (fun _ => reached len (pos + 8)) notDepth := by
  refine .bind readStr_reaches fun t => ?_
  by_cases h : t = asBytes s
  · rw [if_pos h]; exact .pure fun _ h => h
  · rw [if_neg h]; exact .throw fun _ _ => NarError.noConfusion

theorem readString_reaches : Triple (reached len pos) readString (fun _ => reached len (pos + 8)) notDepth := by
  refine .bind readStr_reaches fun t => ?_
  cases fromUtf8 t with
  | some s => exact .pure fun _ h => h
  | none => exact .throw fun _ _ => NarError.noConfusion

theorem rewind_reaches : Triple (reached len (pos + 8)) rewind (fun _ => reached len (pos - 8)) notDepth := by
  refine .modify fun r ⟨hl, hp, hr⟩ => ⟨hl, ?_, ?_⟩ <;> simp only <;> omega

theorem reached_mono {pos' : Nat} (h : pos' ≤ pos) {r : NarReader} : reached len pos r → reached len pos' r :=
  fun ⟨hl, hp, hr⟩ => ⟨hl, h.trans hp, hr⟩

/-- A cursor the fuel no longer covers lies past the end. -/
theorem not_reached (h : len + 8 ≤ 0 + pos) {r : NarReader} : ¬ reached len pos r :=
  fun ⟨_, hp, hr⟩ => by omega

end

theorem parseRegular_reaches {len : Nat} : ∀ (fuel : Nat) (executable : Bool) {pos : Nat}, len + 8 ≤ fuel + pos →
    Triple (reached len pos) (parseRegular fuel executable) (fun _ => reached len (pos - 8)) notDepth
  | 0, _, _, hf => fun _ hr => absurd hr (not_reached hf)
  | fuel + 1, executable, pos, hf => by
    refine .bind readString_reaches fun field => ?_
    by_cases h₁ : field = "executable"
    · rw [if_pos h₁]
      refine .bind readStr_reaches fun _ => ?_
      exact (parseRegular_reaches fuel true (by omega)).post fun _ _ => reached_mono (by omega)
    rw [if_neg h₁]
    by_cases h₂ : field = "contents"
    · rw [if_pos h₂]
      exact .bind readStr_reaches fun _ => .pure fun _ => reached_mono (by omega)
    rw [if_neg h₂]
    by_cases h₃ : field = ")"
    · rw [if_pos h₃]
      exact .bind rewind_reaches fun _ => .pure fun _ h => h
    · rw [if_neg h₃]; exact .throw fun _ _ => NarError.noConfusion

theorem parseSymlink_reaches {len pos : Nat} :
    Triple (reached len pos) parseSymlink (fun _ => reached len (pos - 8)) notDepth :=
  .bind (expectStr_reaches _) fun _ => .bind readString_reaches fun _ => .pure fun _ => reached_mono (by omega)

mutual
theorem parseNarObj_reaches {len : Nat} : ∀ (fuel : Nat) {pos : Nat}, len + 8 ≤ fuel + pos →
    Triple (reached len pos) (parseNarObj fuel) (fun _ => reached len (pos + 8)) notDepth
  | 0, _, hf => fun _ hr => absurd hr (not_reached hf)
  | fuel + 1, pos, hf => by
    refine .bind (expectStr_reaches _) fun _ => .bind (expectStr_reaches _) fun _ => ?_
    refine .bind readString_reaches fun type => ?_
    have hclose : ∀ node : NarNode, Triple (reached len (pos + 16)) (expectStr ")" >>= fun _ => pure node)
        (fun _ => reached len (pos + 8)) notDepth := fun _ =>
      .bind (expectStr_reaches _) fun _ => .pure fun _ => reached_mono (by omega)
    by_cases h₁ : type = "regular"
    · rw [if_pos h₁]
      have hbody := parseRegular_reaches fuel false (show len + 8 ≤ fuel + (pos + 24) by omega)
      exact .bind (hbody.post fun _ _ => reached_mono (by omega)) hclose
    rw [if_neg h₁]
    by_cases h₂ : type = "directory"
    · rw [if_pos h₂]
      have hbody := parseDirectory_reaches fuel [] (show len + 8 ≤ fuel + (pos + 24) by omega)
      exact .bind (hbody.post fun _ _ => reached_mono (by omega)) hclose
    rw [if_neg h₂]
    by_cases h₃ : type = "symlink"
    · rw [if_pos h₃]
      exact .bind (parseSymlink_reaches.post fun _ _ => reached_mono (by omega)) hclose
    · rw [if_neg h₃]
      exact .bind (.throw fun _ _ => NarError.noConfusion) hclose
theorem parseDirectory_reaches {len : Nat} : ∀ (fuel : Nat) (entries : List (String × NarNode)) {pos : Nat},
    len + 8 ≤ fuel + pos →
    Triple (reached len pos) (parseDirectory fuel entries) (fun _ => reached len (pos - 8)) notDepth
  | 0, _, _, hf => fun _ hr => absurd hr (not_reached hf)
  | fuel + 1, entries, pos, hf => by
    have hrem : Triple (reached len pos) remaining (fun _ => reached len pos) notDepth :=
      .bind (.get fun _ h => h) fun _ => .pure fun _ h => h
    refine .bind hrem fun n => ?_
    by_cases h₀ : n < 8
    · rw [if_pos h₀]; exact .pure fun _ => reached_mono (by omega)
    rw [if_neg h₀]
    refine .bind readString_reaches fun token => ?_
    by_cases h₁ : token = "entry"
    · rw [if_pos h₁]
      refine .bind (expectStr_reaches _) fun _ => .bind (expectStr_reaches _) fun _ => ?_
      refine .bind readString_reaches fun name => .bind (expectStr_reaches _) fun _ => ?_
      refine .bind (parseNarObj_reaches fuel (show len + 8 ≤ fuel + (pos + 40) by omega)) fun node => .bind (expectStr_reaches _) fun _ => ?_
      exact (parseDirectory_reaches fuel _ (by omega)).post fun _ _ => reached_mono (by omega)
    rw [if_neg h₁]
    by_cases h₂ : token = ")"
    · rw [if_pos h₂]
      exact .bind rewind_reaches fun _ => .pure fun _ h => h
    · rw [if_neg h₂]; exact .throw fun _ _ => NarError.noConfusion
end

/-- The parser never stops for want of fuel: an archive is refused for a reason
the source has. -/
theorem parseNar_depth (data : Bytes) : parseNar data ≠ .error .depth := by
  have h : Triple (reached data.length 0) (parseArchive (data.length + 8))
      (fun _ => reached data.length 0) notDepth :=
    .bind (expectStr_reaches _) fun _ => (parseNarObj_reaches _ (by omega)).post fun _ _ => reached_mono (by omega)
  have hrun := h ⟨data, 0⟩ ⟨rfl, Nat.zero_le _, Nat.zero_le _⟩
  unfold parseNar
  cases hp : parseArchive (data.length + 8) ⟨data, 0⟩ with
  | ok node r => exact fun e => nomatch e
  | error e r =>
    rw [hp] at hrun
    exact fun he => hrun (Except.error.inj he)

end Ekapkgs
