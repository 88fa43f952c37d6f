import Ekapkgs.StreamNarsSound

/-!
# The writers of a NAR stream

`TokioChannelWriter` behind a `BufWriter` in `stream_nars`, and `ChannelWriter`
in `stream_nar_chunks`: a NAR is written in calls of any length, cut into blocks
and put together again by the client.
-/

namespace Ekapkgs
open Blocks

/-! ## The blocks of a NAR -/

/-- A `BufWriter` over a channel writer. -/
structure BufWriter (size : Nat) where
  capacity : Nat
  buf : Bytes
  inner : ChannelWriter size

namespace BufWriter
variable {size : Nat}

def withCapacity (capacity : Nat) (inner : ChannelWriter size) : BufWriter size := ⟨capacity, [], inner⟩

def spareCapacity (w : BufWriter size) : Nat := w.capacity - w.buf.length

def flushBuf (w : BufWriter size) : BufWriter size := { w with buf := [], inner := w.inner.write w.buf }

/-- What does not fit makes the buffer be written first, and what would fill the
whole buffer bypasses it. -/
def write (w : BufWriter size) (data : Bytes) : BufWriter size :=
  if data.length < w.spareCapacity then { w with buf := w.buf ++ data }
  else
    let w := if data.length > w.spareCapacity then w.flushBuf else w
    if data.length ≥ w.capacity then { w with inner := w.inner.write data } else { w with buf := w.buf ++ data }

theorem inner_flushBuf (w : BufWriter size) : w.flushBuf.inner = w.inner.write w.buf := rfl

/-- Once it is flushed, the writer below has what was written, in order. -/
theorem flushBuf_write (w : BufWriter size) (data : Bytes) : (w.write data).flushBuf.inner = w.flushBuf.inner.write data := by
  unfold write
  by_cases hfits : data.length < w.spareCapacity
  · rw [if_pos hfits]
    exact Buffer.write_append ..
  · rw [if_neg hfits]
    by_cases hmore : data.length > w.spareCapacity
    · simp only [if_pos hmore]
      split
      · exact Buffer.write_nil _
      · rfl
    · simp only [if_neg hmore]
      split
      · rename_i hwhole
        -- the data has the length of the whole buffer, which is therefore empty
        have hnil : w.buf = [] ∨ data = [] := by
          unfold spareCapacity at hfits hmore
          rcases Nat.eq_zero_or_pos w.capacity with hzero | hpos
          · exact .inr (List.length_eq_zero_iff.mp (by omega))
          · exact .inl (List.length_eq_zero_iff.mp (by omega))
        rcases hnil with hnil | hnil
        · simp only [inner_flushBuf, hnil, Buffer.write_nil]
        · simp only [inner_flushBuf, hnil, Buffer.write_nil]
      · exact Buffer.write_append ..

theorem foldl_write : ∀ (writes : List Bytes) (w : BufWriter size),
    (writes.foldl write w).flushBuf.inner = w.flushBuf.inner.write writes.flatten
  | [], w => (Buffer.write_nil _).symm
  | data :: writes, w => by
    rw [List.foldl_cons, foldl_write writes, flushBuf_write, List.flatten_cons, Buffer.write_append]

end BufWriter

/-- The blocks that reach the receiver of `stream_nars`. -/
def tokioBlocks (writes : List Bytes) : List Bytes :=
  let writer : ChannelWriter NAR_CHUNK_SIZE := Buffer.new NAR_CHUNK_SIZE_pos
  (writes.foldl BufWriter.write (.withCapacity NAR_CHUNK_SIZE writer)).flushBuf.inner.flush

/-- The buffers that `ChannelWriter` sends for the download over HTTP. -/
def channelBlocks (writes : List Bytes) : List Bytes :=
  let writer : ChannelWriter STREAM_CHUNK_SIZE := Buffer.new STREAM_CHUNK_SIZE_pos
  (writes.foldl Buffer.write writer).flush

theorem tokioBlocks_eq (writes : List Bytes) :
    tokioBlocks writes = ((Buffer.new NAR_CHUNK_SIZE_pos : ChannelWriter NAR_CHUNK_SIZE).write writes.flatten).flush := by
  unfold tokioBlocks
  dsimp only
  rw [BufWriter.foldl_write, BufWriter.inner_flushBuf]
  exact congrArg (fun b => (Buffer.write b writes.flatten).flush) (Buffer.write_nil _)

theorem flatten_tokioBlocks (writes : List Bytes) : (tokioBlocks writes).flatten = writes.flatten := by
  rw [tokioBlocks_eq, Buffer.flatten_flush, Buffer.contents_write]
  rfl

theorem channelBlocks_eq (writes : List Bytes) :
    channelBlocks writes = ((Buffer.new STREAM_CHUNK_SIZE_pos : ChannelWriter STREAM_CHUNK_SIZE).write writes.flatten).flush := by
  unfold channelBlocks
  dsimp only
  rw [Buffer.foldl_write]

theorem flatten_channelBlocks (writes : List Bytes) : (channelBlocks writes).flatten = writes.flatten := by
  rw [channelBlocks_eq, Buffer.flatten_flush, Buffer.contents_write]
  rfl

/-- No block is empty, and none is longer than the chunk size. -/
theorem channelBlocks_sizes (writes : List Bytes) : ∀ block ∈ channelBlocks writes, block ≠ [] ∧ block.length ≤ STREAM_CHUNK_SIZE := by
  intro block hblock
  rw [channelBlocks_eq] at hblock
  refine Buffer.mem_flush _ (Buffer.sent_length _ _ ?_) block hblock
  nofun

/-! ## The messages of a path -/

inductive NarSource where
  | nar (narSize : Nat) (writes : List Bytes)
  | delta (data : Bytes)

structure PathStream where
  hash : String
  source : NarSource

namespace PathStream

/-- What was written for the path. -/
def written (path : PathStream) : Bytes :=
  match path.source with
  | .nar _ writes => writes.flatten
  | .delta data => data

def isDelta (path : PathStream) : Bool :=
  match path.source with
  | .nar _ _ => false
  | .delta _ => true

def messages (path : PathStream) : List NarChunk :=
  match path.source with
  | .nar narSize writes => narMessages path.hash narSize (tokioBlocks writes) ++ [finalChunk path.hash]
  | .delta data => sendNarChunks path.hash data true

end PathStream

def sendPaths (paths : List PathStream) : List NarChunk := paths.flatMap PathStream.messages

/-- A turn of the server sends the messages of a path. -/
theorem StreamTurn.messages_eq {turn : StreamTurn} {ni : NarInfo} {writes : List Bytes} (hdelta : turn.delta = none)
    (hinfo : turn.storage.getNarinfo turn.hash = .ok (some ni)) (hwrite : turn.storage.writeNarTo ni.url = ⟨writes.flatten, .ok true⟩) :
    turn.messages = (⟨turn.hash, .nar ni.narSize writes⟩ : PathStream).messages := by
  unfold StreamTurn.messages PathStream.messages Storage.streamNarChunks
  simp only [hdelta, hinfo, hwrite, tokioBlocks_eq]

theorem PathStream.framed (path : PathStream) : Framed path.hash path.messages path.written := by
  unfold PathStream.messages PathStream.written
  cases path.source with
  | nar narSize writes =>
    dsimp only
    rw [← flatten_tokioBlocks]
    exact framed_narMessages narSize (tokioBlocks writes)
  | delta data => exact framed_sendNarChunks true data

theorem PathStream.isDelta_messages (path : PathStream) : ∀ chunk ∈ path.messages, chunk.isDelta = path.isDelta := by
  intro chunk hchunk
  unfold PathStream.messages at hchunk
  unfold PathStream.isDelta
  cases hsource : path.source with
  | nar narSize writes =>
    rw [hsource] at hchunk
    rcases List.mem_append.mp hchunk with hchunk | hchunk
    · exact isDelta_narMessages narSize _ chunk hchunk
    · rw [List.mem_singleton.mp hchunk]; rfl
  | delta data =>
    rw [hsource] at hchunk
    exact isDelta_sendNarChunks true data chunk hchunk

/-! ## Reassembly -/

variable {hash : String} {chunks : List NarChunk} {data : Bytes}

theorem Framed.pathHash (h : Framed hash chunks data) : ∀ chunk ∈ chunks, chunk.pathHash = hash := by
  induction h with
  | last hhash hlast =>
    intro chunk hchunk
    rw [List.mem_singleton.mp hchunk, hhash]
  | cons hhash hlast rest ih =>
    intro chunk hchunk
    rcases List.mem_cons.mp hchunk with rfl | hchunk
    · exact hhash
    · exact ih chunk hchunk

theorem Framed.last_only (h : Framed hash chunks data) :
    ∃ before final, chunks = before ++ [final] ∧ final.last = true ∧ ∀ chunk ∈ before, chunk.last = false := by
  induction h with
  | @last chunk hhash hlast => exact ⟨[], chunk, rfl, hlast, nofun⟩
  | @cons chunk chunks data hhash hlast rest ih =>
    obtain ⟨before, final, rfl, hfinal, hbefore⟩ := ih
    exact ⟨chunk :: before, final, rfl, hfinal, List.forall_mem_cons.mpr ⟨hlast, hbefore⟩⟩

/-- Among the messages of distinct paths, those of a path are its own. -/
theorem filter_sendPaths {path : PathStream} : ∀ {paths : List PathStream}, (paths.map PathStream.hash).Nodup → path ∈ paths →
    (sendPaths paths).filter (fun chunk => chunk.pathHash = path.hash) = path.messages
  | [], _, hmem => by cases hmem
  | first :: paths, hdistinct, hmem => by
    rw [List.map_cons, List.nodup_cons] at hdistinct
    unfold sendPaths
    rw [List.flatMap_cons, List.filter_append]
    rcases List.mem_cons.mp hmem with rfl | hmem
    · have hothers : (sendPaths paths).filter (fun chunk => chunk.pathHash = path.hash) = [] := by
        refine List.filter_eq_nil_iff.mpr fun chunk hchunk heq => ?_
        obtain ⟨other, hother, hchunk⟩ := List.mem_flatMap.mp hchunk
        have hhash := other.framed.pathHash chunk hchunk
        exact hdistinct.1 (List.mem_map.mpr ⟨other, hother, hhash.symm.trans (of_decide_eq_true heq)⟩)
      have hown : path.messages.filter (fun chunk => chunk.pathHash = path.hash) = path.messages :=
        List.filter_eq_self.mpr fun chunk hchunk => decide_eq_true (path.framed.pathHash chunk hchunk)
      rw [hown]
      exact (congrArg _ hothers).trans (List.append_nil _)
    · have hne : path.hash ≠ first.hash := fun heq => hdistinct.1 (heq ▸ List.mem_map_of_mem hmem)
      have hfirst : first.messages.filter (fun chunk => chunk.pathHash = path.hash) = [] :=
        List.filter_eq_nil_iff.mpr fun chunk hchunk heq =>
          hne ((of_decide_eq_true heq).symm.trans (first.framed.pathHash chunk hchunk))
      rw [hfirst, List.nil_append]
      exact filter_sendPaths hdistinct.2 hmem

/-- The client takes what was written for each path in turn. -/
theorem received_sendPaths : ∀ (paths : List PathStream) (r : Receiver), r.currentBuf = [] →
    (r.stream (sendPaths paths)).map (fun received => (received.hash, received.data)) = paths.map fun path => (path.hash, path.written)
  | [], _, _ => rfl
  | path :: paths, r, hbuf => by
    obtain ⟨hstream, hafter⟩ := path.framed.received_path path.isDelta_messages hbuf
    unfold sendPaths
    rw [List.flatMap_cons, Receiver.stream_append, hstream, List.map_append, List.map_cons]
    exact congrArg _ (received_sendPaths paths _ hafter)

/-- The messages of a path carry what was written for it, and only the last of
them is marked as last. -/
def MessagesComplete (paths : List PathStream) (path : PathStream) : Prop :=
  ∃ before final, (sendPaths paths).filter (fun chunk => chunk.pathHash = path.hash) = before ++ [final] ∧
    final.last = true ∧ (∀ chunk ∈ before, chunk.last = false) ∧ (before ++ [final]).flatMap NarChunk.data = path.written

theorem writes_reassembled (paths : List PathStream) (hdistinct : (paths.map PathStream.hash).Nodup) :
    (∀ path ∈ paths, MessagesComplete paths path) ∧
      (Receiver.start.stream (sendPaths paths)).map (fun received => (received.hash, received.data)) =
        (paths.map fun path => (path.hash, path.written)) ∧
      ∀ writes : List Bytes, (channelBlocks writes).flatten = writes.flatten ∧
        ∀ block ∈ channelBlocks writes, block ≠ [] ∧ block.length ≤ STREAM_CHUNK_SIZE := by
  refine ⟨fun path hmem => ?_, received_sendPaths paths _ rfl, fun writes => ⟨flatten_channelBlocks writes, channelBlocks_sizes writes⟩⟩
  obtain ⟨before, final, hmessages, hfinal, hbefore⟩ := path.framed.last_only
  refine ⟨before, final, (filter_sendPaths hdistinct hmem).trans hmessages, hfinal, hbefore, ?_⟩
  rw [← hmessages]
  exact path.framed.data_eq

/-- A NAR written in three calls, and an empty delta. -/
theorem writes_reassembled_two :
    let nar : PathStream := ⟨"a", .nar 3 [[1], [], [2, 3]]⟩
    let delta : PathStream := ⟨"b", .delta []⟩
    MessagesComplete [nar, delta] nar ∧ MessagesComplete [nar, delta] delta :=
  have h := writes_reassembled [⟨"a", .nar 3 [[1], [], [2, 3]]⟩, ⟨"b", .delta []⟩] (by decide)
  ⟨h.1 _ List.mem_cons_self, h.1 _ (List.mem_cons_of_mem _ List.mem_cons_self)⟩

end Ekapkgs
