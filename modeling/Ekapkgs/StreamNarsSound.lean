import Ekapkgs.Sample
import Ekapkgs.StreamNars

/-!
# When a stream is complete

The messages of a path are framed: only the last of them is marked as last, and a
client that receives them takes their data for the whole of the path. It is the
whole exactly when the write that the channel carried returned `Ok(true)`.
-/

namespace Ekapkgs
open Fallible

/-! ## Framed messages -/

/-- Messages for one path that end with the one marked as last, and their data. -/
inductive Framed (hash : String) : List NarChunk → Bytes → Prop where
  | last {chunk : NarChunk} (hhash : chunk.pathHash = hash) (hlast : chunk.last = true) : Framed hash [chunk] chunk.data
  | cons {chunk : NarChunk} {chunks : List NarChunk} {data : Bytes} (hhash : chunk.pathHash = hash) (hlast : chunk.last = false)
      (rest : Framed hash chunks data) : Framed hash (chunk :: chunks) (chunk.data ++ data)

variable {hash : String} {chunks : List NarChunk} {data : Bytes}

theorem Framed.data_eq (h : Framed hash chunks data) : chunks.flatMap NarChunk.data = data := by
  induction h with
  | last => simp
  | cons hhash hlast rest ih => rw [List.flatMap_cons, ih]

theorem framed_sendLoop (isDelta : Bool) (total : Nat) : ∀ (fuel : Nat) (data : Bytes), data ≠ [] → data.length ≤ fuel →
    Framed hash (sendLoop hash isDelta total fuel data) data
  | 0, data, hne, hfuel => absurd (List.length_eq_zero_iff.mp (Nat.le_zero.mp hfuel)) hne
  | fuel + 1, b :: bs, hne, hfuel => by
    unfold sendLoop
    by_cases hshort : (b :: bs).length ≤ NAR_CHUNK_SIZE
    · have hdrop : (b :: bs).drop NAR_CHUNK_SIZE = [] := List.drop_of_length_le hshort
      have htake : (b :: bs).take NAR_CHUNK_SIZE = b :: bs := List.take_of_length_le hshort
      have hend : sendLoop hash isDelta total fuel [] = [] := by cases fuel <;> rfl
      rw [hdrop, htake, hend]
      exact .last rfl (decide_eq_true hshort)
    · have hlong : ((b :: bs).drop NAR_CHUNK_SIZE).length = (b :: bs).length - NAR_CHUNK_SIZE := List.length_drop
      have hne' : (b :: bs).drop NAR_CHUNK_SIZE ≠ [] := by
        intro h
        rw [h, List.length_nil] at hlong
        omega
      have hpos := NAR_CHUNK_SIZE_pos
      have hrest := framed_sendLoop isDelta total fuel ((b :: bs).drop NAR_CHUNK_SIZE) hne' (by omega)
      exact (List.take_append_drop NAR_CHUNK_SIZE (b :: bs)).subst (motive := Framed hash _)
        (.cons rfl (decide_eq_false hshort) hrest)

theorem framed_sendNarChunks (isDelta : Bool) (data : Bytes) : Framed hash (sendNarChunks hash data isDelta) data := by
  unfold sendNarChunks
  split_ifs with hnil
  · subst hnil
    exact .last rfl rfl
  · exact framed_sendLoop isDelta data.length data.length data hnil (Nat.le_refl _)

theorem framed_narMessages : ∀ (narSize : Nat) (blocks : List Bytes),
    Framed hash (narMessages hash narSize blocks ++ [finalChunk hash]) blocks.flatten
  | _, [] => .last rfl rfl
  | _, _ :: blocks => .cons rfl rfl (framed_narMessages 0 blocks)

/-! ## Receiving -/

theorem Receiver.message_more {r : Receiver} {chunk : NarChunk} (hhash : chunk.pathHash = r.currentHash) (hlast : chunk.last = false) :
    r.message chunk = ({ r with currentBuf := r.currentBuf ++ chunk.data }, none) := by
  simp [Receiver.message, hhash, hlast]

theorem Receiver.message_last {r : Receiver} {chunk : NarChunk} (hhash : chunk.pathHash = r.currentHash) (hlast : chunk.last = true) :
    r.message chunk = ({ r with currentBuf := [] }, some ⟨r.currentHash, r.currentBuf ++ chunk.data, r.currentIsDelta⟩) := by
  simp [Receiver.message, hhash, hlast]

theorem Receiver.stream_append (r : Receiver) (xs ys : List NarChunk) :
    r.stream (xs ++ ys) = r.stream xs ++ (r.after xs).stream ys := by
  induction xs generalizing r with
  | nil => rfl
  | cons x xs ih => rw [List.cons_append, Receiver.stream, Receiver.stream, ih, List.append_assoc]; rfl

theorem Receiver.stream_take (r : Receiver) (chunks : List NarChunk) (n : Nat) :
    r.stream (chunks.take n) <+: r.stream chunks := by
  conv => rhs; rw [← List.take_append_drop n chunks, Receiver.stream_append]
  exact List.prefix_append ..

/-- In the middle of a path the receiver appends to what it has. -/
theorem Framed.received (h : Framed hash chunks data) : ∀ {r : Receiver}, r.currentHash = hash →
    r.stream chunks = [⟨hash, r.currentBuf ++ data, r.currentIsDelta⟩] ∧ (r.after chunks).currentBuf = [] := by
  induction h with
  | last hhash hlast =>
    intro r hr
    have hmessage := Receiver.message_last (hhash.trans hr.symm) hlast
    rw [Receiver.stream, Receiver.after, List.foldl_cons, List.foldl_nil, hmessage, hr]
    exact ⟨rfl, rfl⟩
  | @cons chunk chunks data hhash hlast rest ih =>
    intro r hr
    have hmessage := Receiver.message_more (hhash.trans hr.symm) hlast
    obtain ⟨hstream, hafter⟩ := ih (r := { r with currentBuf := r.currentBuf ++ chunk.data }) hr
    rw [Receiver.stream, Receiver.after, List.foldl_cons, hmessage]
    refine ⟨?_, hafter⟩
    rw [hstream, List.append_assoc]
    rfl

theorem Framed.head (h : Framed hash chunks data) : ∃ chunk more, chunks = chunk :: more ∧ chunk.pathHash = hash := by
  cases h with
  | last hhash hlast => exact ⟨_, [], rfl, hhash⟩
  | cons hhash hlast rest => exact ⟨_, _, rfl, hhash⟩

/-- The first message of another path makes the receiver start afresh. -/
theorem Receiver.message_fresh {r : Receiver} {chunk : NarChunk} (hne : chunk.pathHash ≠ r.currentHash) :
    r.message chunk = (⟨chunk.pathHash, [], chunk.isDelta⟩ : Receiver).message chunk := by
  simp [Receiver.message, hne]

/-- The flag is that of the first message, unless the path is the one received before. -/
theorem Framed.received_path (h : Framed hash chunks data) {d : Bool} (hd : ∀ chunk ∈ chunks, chunk.isDelta = d) {r : Receiver}
    (hbuf : r.currentBuf = []) :
    r.stream chunks = [⟨hash, data, if r.currentHash = hash then r.currentIsDelta else d⟩] ∧ (r.after chunks).currentBuf = [] := by
  by_cases hr : r.currentHash = hash
  · have hstream := h.received hr
    rw [hbuf, List.nil_append] at hstream
    rwa [if_pos hr]
  · obtain ⟨chunk, more, rfl, hhash⟩ := h.head
    have hstream := h.received (r := ⟨chunk.pathHash, [], chunk.isDelta⟩) hhash
    have hfresh := Receiver.message_fresh (r := r) (hhash ▸ Ne.symm hr)
    rw [if_neg hr, ← hd chunk List.mem_cons_self]
    rw [Receiver.stream, Receiver.after, List.foldl_cons] at hstream ⊢
    rwa [hfresh]

/-! ## The turn of a path -/

/-- All of the delta cached for the path, or all of its NAR. -/
def StreamTurn.Whole (turn : StreamTurn) (data : Bytes) : Prop :=
  turn.delta = some data ∨ turn.delta = none ∧ ∃ ni, turn.storage.getNarinfo turn.hash = .ok (some ni) ∧
    turn.storage.writeNarTo ni.url = ⟨data, .ok true⟩

/-- The write of the NAR succeeds, if the path comes to it. -/
def StreamTurn.Writes (turn : StreamTurn) : Prop :=
  turn.delta = none → ∀ ni, turn.storage.getNarinfo turn.hash = .ok (some ni) → (turn.storage.writeNarTo ni.url).result = .ok true

theorem streamNarChunks_flatten {storage : Storage} {filePath : String} {chunkSize : Nat} (h : 0 < chunkSize)
    (hok : (storage.writeNarTo filePath).result = .ok true) :
    (storage.streamNarChunks filePath h).1.flatten = (storage.writeNarTo filePath).bytes := by
  unfold Storage.streamNarChunks
  simp only [hok]
  rw [Blocks.Buffer.flatten_flush, Blocks.Buffer.contents_write]
  rfl

theorem Written.eq_of_result {w : Written} (h : w.result = .ok true) : w = ⟨w.bytes, .ok true⟩ := by
  rw [← h]

/-- The messages of a turn are framed, if there are any. -/
theorem StreamTurn.framed (turn : StreamTurn) : turn.messages = [] ∨
    ∃ data, Framed turn.hash turn.messages data ∧ (turn.Writes → turn.Whole data) := by
  unfold StreamTurn.messages
  cases hdelta : turn.delta with
  | some delta => exact .inr ⟨delta, framed_sendNarChunks true delta, fun _ => .inl hdelta⟩
  | none =>
    dsimp only
    cases hinfo : turn.storage.getNarinfo turn.hash with
    | error e => exact .inl rfl
    | ok narinfo =>
      cases narinfo with
      | none => exact .inl rfl
      | some ni =>
        refine .inr ⟨_, framed_narMessages ni.narSize _, fun hwrites => .inr ⟨hdelta, ni, hinfo, ?_⟩⟩
        have hok := hwrites hdelta ni hinfo
        rw [streamNarChunks_flatten NAR_CHUNK_SIZE_pos hok]
        exact Written.eq_of_result hok

theorem isDelta_sendLoop (isDelta : Bool) (total : Nat) : ∀ (fuel : Nat) (data : Bytes),
    ∀ chunk ∈ sendLoop hash isDelta total fuel data, chunk.isDelta = isDelta
  | 0, _, _, h => by cases h
  | _ + 1, [], _, h => by cases h
  | fuel + 1, b :: bs, chunk, h => by
    unfold sendLoop at h
    rcases List.mem_cons.mp h with rfl | h
    · rfl
    · exact isDelta_sendLoop isDelta total fuel _ chunk h

theorem isDelta_sendNarChunks (isDelta : Bool) (data : Bytes) : ∀ chunk ∈ sendNarChunks hash data isDelta, chunk.isDelta = isDelta := by
  intro chunk h
  unfold sendNarChunks at h
  split_ifs at h
  · rw [List.mem_singleton.mp h]
  · exact isDelta_sendLoop isDelta data.length data.length data chunk h

theorem isDelta_narMessages : ∀ (narSize : Nat) (blocks : List Bytes), ∀ chunk ∈ narMessages hash narSize blocks, chunk.isDelta = false
  | _, [], _, h => by cases h
  | _, _ :: blocks, chunk, h => by
    rcases List.mem_cons.mp h with rfl | h
    · rfl
    · exact isDelta_narMessages 0 blocks chunk h

theorem StreamTurn.isDelta_messages (turn : StreamTurn) : ∀ chunk ∈ turn.messages, chunk.isDelta = turn.delta.isSome := by
  intro chunk h
  unfold StreamTurn.messages at h
  cases hdelta : turn.delta with
  | some delta =>
    rw [hdelta] at h
    exact isDelta_sendNarChunks true delta chunk h
  | none =>
    rw [hdelta] at h
    dsimp only at h
    split at h
    next ni _ =>
      rcases List.mem_append.mp h with h | h
      · exact isDelta_narMessages ni.narSize _ chunk h
      · rw [List.mem_singleton.mp h]; rfl
    · cases h

/-! ## Complete streams -/

/-- The last message of a path comes after all of its data. -/
def StreamComplete (turns : List StreamTurn) : Prop :=
  ∀ turn ∈ turns, ∀ chunk ∈ turn.messages, chunk.last = true → turn.Whole (turn.messages.flatMap NarChunk.data)

/-- Wherever the stream is cut, what the client takes for a path is the whole of it. -/
def ClientComplete (turns : List StreamTurn) : Prop :=
  ∀ n, ∀ received ∈ Receiver.start.stream ((streamNars turns).take n), ∃ turn ∈ turns, turn.hash = received.hash ∧
    turn.Whole received.data

def BodyComplete (file : String) (probe storage : Storage) : Prop :=
  ∀ chunks, getNarResponse file probe storage = .body chunks .complete →
    storage.writeNarTo ("nar/" ++ file) = ⟨chunks.flatten, .ok true⟩

theorem mem_stream_turns : ∀ (turns : List StreamTurn) {r : Receiver}, r.currentBuf = [] → (∀ turn ∈ turns, turn.Writes) →
    ∀ received ∈ r.stream (streamNars turns), ∃ turn ∈ turns, turn.hash = received.hash ∧ turn.Whole received.data
  | [], _, _, _, received, h => by cases h
  | turn :: turns, r, hbuf, hwrites, received, h => by
    have hrest := List.forall_mem_cons.mp hwrites
    unfold streamNars at h
    rw [List.flatMap_cons] at h
    rcases turn.framed with hnil | ⟨data, hframed, hwhole⟩
    · rw [hnil, List.nil_append] at h
      obtain ⟨turn', hmem, hturn'⟩ := mem_stream_turns turns hbuf hrest.2 received h
      exact ⟨turn', List.mem_cons_of_mem _ hmem, hturn'⟩
    · obtain ⟨hstream, hafter⟩ := hframed.received_path turn.isDelta_messages hbuf
      rw [Receiver.stream_append, hstream] at h
      rcases List.mem_cons.mp h with rfl | h
      · exact ⟨turn, List.mem_cons_self, rfl, hwhole hrest.1⟩
      · obtain ⟨turn', hmem, hturn'⟩ := mem_stream_turns turns hafter hrest.2 received h
        exact ⟨turn', List.mem_cons_of_mem _ hmem, hturn'⟩

theorem bodyComplete_iff {file : String} {probe storage : Storage} : BodyComplete file probe storage ↔
    (getNarResponse file probe storage = .notFound ∨ (storage.writeNarTo ("nar/" ++ file)).result = .ok true) := by
  have hbody : getNarResponse file probe storage = .notFound ∨
      getNarResponse file probe storage = .body (storage.streamNarChunks ("nar/" ++ file) NAR_CHUNK_SIZE_pos).1 .complete := by
    unfold getNarResponse
    split_ifs
    · exact .inl rfl
    · split
      · exact .inr rfl
      · exact .inl rfl
  unfold BodyComplete
  constructor
  · intro h
    rcases hbody with hbody | hbody
    · exact .inl hbody
    · right; rw [h _ hbody]
  · rintro hok chunks hchunks
    rcases hbody with hbody | hbody
    · rw [hbody] at hchunks; cases hchunks
    · rcases hok with hnone | hok
      · rw [hnone] at hchunks; cases hchunks
      · rw [hbody] at hchunks
        cases hchunks
        rw [streamNarChunks_flatten NAR_CHUNK_SIZE_pos hok]
        exact Written.eq_of_result hok

/-- The narinfo of the path is uploaded and its NAR is not. -/
def narinfoOnly : Store Bytes :=
  { Store.empty with db := { Db.empty with
      casPaths := Keyed.Table.empty.insertOrReplace "h" (pathRow sampleExt 0 ⟨"/nix/store/h-x", "nar/h.nar", "none", "", 0, "sha256:0", 1, [], none, [], none⟩ placeholderRoot) } }

def noFilters : Filters := ⟨fun _ => ⟨[false], 1, by decide⟩, false⟩

def narinfoOnlyStorage : Storage := castoreStorage sampleExt noFilters narinfoOnly

end Ekapkgs
