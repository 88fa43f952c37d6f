import Ekapkgs.CastoreRules

/-!
# Ingestion as a list of statements

What ingesting a tree writes does not depend on what the store holds, so it is a
list of statements: `ingestNode` runs the statements of the tree's nodes,
children first, and returns the root that `caNode` computes.
-/

namespace Ekapkgs
open Keyed Fallible

inductive Stmt (δ : Type) where
  | chunk (data : Bytes)
  | fileChunk (file : δ) (index : Nat) (chunk : δ) (size : Nat)
  | directory (dir : CaDirectory)

variable {δ : Type} [DecidableEq δ] (ext : Ext δ) (level : Int)

def Stmt.exec : Stmt δ → CasM δ Unit
  | .chunk data => do
    let _ ← storeChunk ext level data
    pure ()
  | .fileChunk file index digest size => insertFileChunkRow file index digest size
  | .directory dir => do
    let _ ← insertDirectory ext dir
    pure ()

/-- The digest and length of every chunk of a file. -/
def chunkRefs (data : Bytes) : List (δ × Nat) :=
  (ext.fastcdc data).map fun c => (ext.blake3 ((data.drop c.1).take c.2), c.2)

def fileChunkStmts (file : δ) (index : Nat) (refs : List (δ × Nat)) : List (Stmt δ) :=
  (refs.zipIdx index).map fun r => .fileChunk file r.2 r.1.1 r.1.2

def nodeScript : NarNode → List (Stmt δ)
  | .regular _ data => (ext.chunks data).map .chunk ++ fileChunkStmts (ext.blake3 data) 0 (chunkRefs ext data)
  | .directory entries => [.directory ⟨caEntries ext entries⟩]
  | .symlink _ => []

def script (nodes : List NarNode) : List (Stmt δ) := nodes.flatMap (nodeScript ext)

def runScript (stmts : List (Stmt δ)) : CasM δ Unit := stmts.forM (Stmt.exec ext level)

omit [DecidableEq δ] in
/-- FastCDC bounds the chunks of every script. -/
theorem chunk_mem_script {ext : Ext δ} (laws : ext.Laws) {t : NarNode} {x : Bytes}
    (h : Stmt.chunk x ∈ script ext t.postorder) : x ∈ t.files.flatMap ext.chunks ∧ x.length ≤ CHUNK_MAX := by
  obtain ⟨node, hnode, hx⟩ := List.mem_flatMap.mp h
  cases node with
  | symlink target => cases hx
  | directory entries => simp [nodeScript] at hx
  | regular executable data =>
    have hx : x ∈ ext.chunks data := by
      simpa [nodeScript, fileChunkStmts] using hx
    refine ⟨List.mem_flatMap.mpr ⟨data, List.mem_filterMap.mpr ⟨_, hnode, rfl⟩, hx⟩, ?_⟩
    obtain ⟨c, hc, rfl⟩ := List.mem_map.mp hx
    rw [laws.chunk_length data c hc]
    exact laws.chunk_le data c hc

/-! ## Ingestion runs the script -/

theorem writeChunkFile_digest (data : Bytes) :
    Triple (fun _ => True) (writeChunkFile ext level data) (fun r _ => r.1 = ext.blake3 data) (fun _ _ => True) := by
  unfold writeChunkFile
  by_cases hlen : data.length < INLINE_THRESHOLD
  · rw [if_pos hlen]; exact .pure fun _ _ => rfl
  rw [if_neg hlen]
  refine .bind (.get (Q := fun _ _ => True) fun _ _ => trivial) fun st => ?_
  cases st.files (ext.blake3 data) with
  | some bytes => exact .pure fun _ _ => rfl
  | none =>
    refine .bind (R := fun _ _ => True) (fun s _ => by dsimp only; split <;> trivial) fun _ => ?_
    cases storedForm ext level data with
    | none => exact .throw fun _ _ => trivial
    | some form => exact .bind (R := fun _ _ => True) (fun s _ => by split <;> trivial) fun _ => .pure fun _ _ => rfl

theorem storeChunk_eq (data : Bytes) :
    storeChunk ext level data = (do Stmt.exec ext level (.chunk data); pure (ext.blake3 data)) := by
  have h : storeChunk ext level data = writeChunkFile ext level data >>= fun r => (do
      insertChunkRow r.1 data.length r.2.1 r.2.2 (inlineData data)
      pure (ext.blake3 data)) :=
    bind_congr (writeChunkFile_digest ext level data) fun r hr => by rw [← hr]
  have hexec : Stmt.exec ext level (.chunk data) = (do let _ ← storeChunk ext level data; pure ()) := rfl
  rw [hexec, h]
  simp only [bind_assoc, pure_bind]

theorem insertDirectory_eq (dir : CaDirectory) :
    insertDirectory ext dir =
      (do Stmt.exec ext level (.directory dir); pure (ext.blake3 (ext.encodeDirectory dir))) := by
  simp only [Stmt.exec, insertDirectory, bind_assoc, pure_bind]

theorem runScript_nil : runScript ext level [] = pure () := rfl

theorem runScript_cons (stmt : Stmt δ) (l : List (Stmt δ)) :
    runScript ext level (stmt :: l) = (do Stmt.exec ext level stmt; runScript ext level l) := rfl

theorem runScript_append (l m : List (Stmt δ)) :
    runScript ext level (l ++ m) = (do runScript ext level l; runScript ext level m) := by
  induction l with
  | nil => simp only [List.nil_append, runScript_nil, pure_bind]
  | cons stmt l ih => simp only [List.cons_append, runScript_cons, bind_assoc, ih]

omit [DecidableEq δ] in
theorem script_append (nodes nodes' : List NarNode) : script ext (nodes ++ nodes') = script ext nodes ++ script ext nodes' :=
  List.flatMap_append ..

omit [DecidableEq δ] in
theorem script_single (t : NarNode) : script ext [t] = nodeScript ext t := by simp [script]

theorem ingestChunks_eq (data : Bytes) : ∀ cuts : List (Nat × Nat),
    ingestChunks ext level data cuts = (do
      runScript ext level (cuts.map fun c => .chunk ((data.drop c.1).take c.2))
      pure (cuts.map fun c => (ext.blake3 ((data.drop c.1).take c.2), c.2)))
  | [] => rfl
  | (offset, length) :: cuts => by
    rw [ingestChunks, ingestChunks_eq data cuts, storeChunk_eq]
    simp only [runScript_cons, List.map_cons, bind_assoc, pure_bind]

theorem insertFileChunkRows_eq (file : δ) : ∀ (index : Nat) (refs : List (δ × Nat)),
    insertFileChunkRows file index refs = runScript ext level (fileChunkStmts file index refs)
  | _, [] => rfl
  | index, (chunk, size) :: refs => by
    rw [insertFileChunkRows, insertFileChunkRows_eq file (index + 1) refs]
    rfl

mutual
theorem ingestNode_eq : ∀ t : NarNode,
    ingestNode ext level t = (do runScript ext level (script ext t.postorder); pure (caNode ext t))
  | .regular executable data => by
    rw [ingestNode, ingestChunks_eq, NarNode.postorder, script_single, nodeScript, runScript_append]
    simp only [bind_assoc, pure_bind, insertFileChunkRows_eq ext level]
    simp only [caNode, fileNode, Ext.chunks, chunkRefs, List.map_map, Function.comp_def]
  | .directory entries => by
    rw [ingestNode, ingestEntries_eq entries, NarNode.postorder, script_append, runScript_append, script_single]
    simp only [bind_assoc, pure_bind, insertDirectory_eq ext level, caNode, directoryNode, nodeScript, runScript_cons, runScript_nil]
  | .symlink target => by
    simp only [ingestNode, NarNode.postorder, script_single, nodeScript, runScript_nil, caNode, pure_bind]
theorem ingestEntries_eq : ∀ entries : List (String × NarNode),
    ingestEntries ext level entries = (do
      runScript ext level (script ext (postorderEntries entries))
      pure (caEntries ext entries))
  | [] => rfl
  | (name, node) :: entries => by
    rw [ingestEntries, ingestNode_eq node, ingestEntries_eq entries, postorderEntries, script_append, runScript_append]
    simp only [bind_assoc, pure_bind, caEntries]
end

end Ekapkgs
