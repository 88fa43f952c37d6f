import Ekapkgs.CaTreeSound
import Ekapkgs.NarStream

/-!
# What the streaming writer writes

The writer visits the entries of a directory by name and trusts the size a node
records, so for a reader that serves a tree it writes the tree with its entries
sorted and with whatever bytes the reader has for each file.
-/

namespace Ekapkgs
open Fallible

variable {δ κ α : Type}

/-! ## Trees with sorted entries -/

def sortByName (entries : List (String × NarNode)) : List (String × NarNode) :=
  entries.mergeSort fun a b => a.1 ≤ b.1

mutual
def NarNode.sorted : NarNode → NarNode
  | .regular executable data => .regular executable data
  | .directory entries => .directory (sortByName (sortedEntries entries))
  | .symlink target => .symlink target
def sortedEntries : List (String × NarNode) → List (String × NarNode)
  | [] => []
  | (name, node) :: entries => (name, node.sorted) :: sortedEntries entries
end

/-- The names in every directory are sorted and different. -/
def NarNode.Canonical (t : NarNode) : Prop :=
  ∀ entries, NarNode.directory entries ∈ t.postorder → (entries.map Prod.fst).Pairwise (· < ·)

theorem sortedEntries_eq_map (entries : List (String × NarNode)) :
    sortedEntries entries = entries.map fun e => (e.1, e.2.sorted) := by
  induction entries with
  | nil => rfl
  | cons e entries ih => rw [sortedEntries, ih, List.map_cons]

theorem sortByName_map (g : NarNode → NarNode) (entries : List (String × NarNode)) :
    sortByName (entries.map fun e => (e.1, g e.2)) = (sortByName entries).map fun e => (e.1, g e.2) := by
  unfold sortByName
  exact (List.map_mergeSort (f := fun e : String × NarNode => (e.1, g e.2)) fun _ _ _ _ => rfl).symm

theorem mem_sortByName {entries : List (String × NarNode)} {e : String × NarNode} :
    e ∈ sortByName entries ↔ e ∈ entries := List.mem_mergeSort

theorem NarNode.sorted_of_canonical (t : NarNode) : t.Canonical → t.sorted = t := by
  induction t using NarNode.tree_induction with
  | regular executable data => intro _; rfl
  | symlink target => intro _; rfl
  | directory entries ih =>
    intro h
    have hsorted : sortByName entries = entries := by
      apply List.mergeSort_of_pairwise
      have hlt := List.pairwise_map.mp (h entries (self_mem_postorder _))
      exact hlt.imp fun hab => by simpa using le_of_lt hab
    have hmap : entries.map (fun e => (e.1, e.2.sorted)) = entries := by
      conv_rhs => rw [← List.map_id entries]
      refine List.map_congr_left fun e he => ?_
      rw [ih e he fun es hes => h es (child_mem_postorder he hes)]; rfl
    rw [NarNode.sorted, sortedEntries_eq_map, hmap, hsorted]

/-! ## The bytes of a tree whose files read as something else -/

mutual
def writeNarObjWith (content : Bytes → Bytes) : NarNode → Bytes
  | .regular executable data =>
    writeStr "(" ++ writeStr "type" ++ writeStr "regular" ++ writeExecutable executable ++ writeStr "contents" ++
      toLeBytes 8 data.length ++ content data ++ padding data.length ++ writeStr ")"
  | .directory entries =>
    writeStr "(" ++ writeStr "type" ++ writeStr "directory" ++ writeEntriesWith content entries ++ writeStr ")"
  | .symlink target =>
    writeStr "(" ++ writeStr "type" ++ writeStr "symlink" ++ writeStr "target" ++ writeStr target ++ writeStr ")"
def writeEntriesWith (content : Bytes → Bytes) : List (String × NarNode) → Bytes
  | [] => []
  | (name, node) :: entries =>
    writeStr "entry" ++ writeStr "(" ++ writeStr "name" ++ writeStr name ++ writeStr "node" ++
      writeNarObjWith content node ++ writeStr ")" ++ writeEntriesWith content entries
end

def writeNarWith (content : Bytes → Bytes) (t : NarNode) : Bytes :=
  writeStr "nix-archive-1" ++ writeNarObjWith content t

section
variable {content : Bytes → Bytes}

theorem writeEntriesWith_append : ∀ l m : List (String × NarNode),
    writeEntriesWith content (l ++ m) = writeEntriesWith content l ++ writeEntriesWith content m
  | [], _ => rfl
  | (name, node) :: l, m => by
    simp only [List.cons_append, writeEntriesWith, writeEntriesWith_append l m, List.append_assoc]

theorem files_regular (executable : Bool) (data : Bytes) : (NarNode.regular executable data).files = [data] := rfl

theorem files_symlink (target : String) : (NarNode.symlink target).files = [] := rfl

def entriesFiles (entries : List (String × NarNode)) : List Bytes := entries.flatMap fun e => e.2.files

theorem files_directory (entries : List (String × NarNode)) : (NarNode.directory entries).files = entriesFiles entries := by
  unfold NarNode.files entriesFiles
  rw [NarNode.postorder, List.filterMap_append]
  simp only [List.filterMap_cons, List.filterMap_nil, List.append_nil]
  induction entries with
  | nil => rfl
  | cons e entries ih =>
    obtain ⟨name, node⟩ := e
    rw [postorderEntries, List.filterMap_append, ih]; rfl

/-- The two outputs differ in length by what the files do. -/
theorem writeNarObjWith_length (t : NarNode) :
    (writeNarObjWith content t).length + (t.files.map List.length).sum =
      (writeNarObj t).length + (t.files.map fun data => (content data).length).sum := by
  induction t using NarNode.tree_induction with
  | regular executable data =>
    rw [files_regular]
    simp [writeNarObjWith, writeNarObj, writeBytes]; omega
  | symlink target => rfl
  | directory entries ih =>
    have hentries : (writeEntriesWith content entries).length + ((entriesFiles entries).map List.length).sum =
        (writeEntries entries).length + ((entriesFiles entries).map fun data => (content data).length).sum := by
      induction entries with
      | nil => rfl
      | cons e entries ih' =>
        obtain ⟨name, node⟩ := e
        have h₁ := ih (name, node) (List.mem_cons_self ..)
        have h₂ := ih' fun e he => ih e (List.mem_cons_of_mem _ he)
        simp only [entriesFiles, List.flatMap_cons, List.map_append, List.sum_append, writeEntriesWith, writeEntries,
          List.length_append] at h₁ h₂ ⊢
        omega
    rw [files_directory]
    simp only [writeNarObjWith, writeNarObj, List.length_append]
    omega

theorem writeNarObjWith_congr {content' : Bytes → Bytes} (t : NarNode) :
    (∀ data ∈ t.files, content data = content' data) → writeNarObjWith content t = writeNarObjWith content' t := by
  induction t using NarNode.tree_induction with
  | regular executable data => intro h; simp only [writeNarObjWith, h data (List.mem_singleton.mpr rfl)]
  | symlink target => intro _; rfl
  | directory entries ih =>
    intro h
    rw [files_directory] at h
    have hentries : writeEntriesWith content entries = writeEntriesWith content' entries := by
      induction entries with
      | nil => rfl
      | cons e entries ih' =>
        obtain ⟨name, node⟩ := e
        have hnode := ih (name, node) (List.mem_cons_self ..) fun data hd => h data (List.mem_append_left _ hd)
        rw [writeEntriesWith, writeEntriesWith, hnode, ih' (fun e he => ih e (List.mem_cons_of_mem _ he))
          fun data hd => h data (List.mem_append_right _ hd)]
    rw [writeNarObjWith, writeNarObjWith, hentries]

theorem writeNarObjWith_id (t : NarNode) : writeNarObjWith id t = writeNarObj t := by
  induction t using NarNode.tree_induction with
  | regular executable data => simp [writeNarObjWith, writeNarObj, writeBytes]
  | symlink target => rfl
  | directory entries ih =>
    have hentries : writeEntriesWith id entries = writeEntries entries := by
      induction entries with
      | nil => rfl
      | cons e entries ih' =>
        obtain ⟨name, node⟩ := e
        rw [writeEntriesWith, writeEntries, ih (name, node) (List.mem_cons_self ..),
          ih' fun e he => ih e (List.mem_cons_of_mem _ he)]
    rw [writeNarObjWith, writeNarObj, hentries]

end

/-! ## Writing a served tree -/

/-- From every reader state in `P`, `m` writes `w` and stays in `P`. -/
def Writes (P : κ → Prop) (m : Stream δ κ Unit) (w : Bytes) : Prop :=
  ∀ k out, P k → ∃ k', m (k, out) = .ok () (k', out ++ w) ∧ P k'

namespace Writes
variable {P : κ → Prop} {m m' : Stream δ κ Unit} {w w' : Bytes}

theorem emit (bytes : Bytes) : Writes P (Ekapkgs.emit bytes : Stream δ κ Unit) bytes := fun k _ hk => ⟨k, rfl, hk⟩

theorem pure : Writes P (Pure.pure () : Stream δ κ Unit) [] := fun k out hk => ⟨k, by rw [List.append_nil]; rfl, hk⟩

theorem bind (h : Writes P m w) (h' : Writes P m' w') : Writes P (m >>= fun _ => m') (w ++ w') := by
  intro k out hk
  obtain ⟨k₁, h₁, hk₁⟩ := h k out hk
  obtain ⟨k₂, h₂, hk₂⟩ := h' k₁ (out ++ w) hk₁
  refine ⟨k₂, ?_, hk₂⟩
  rw [bind_of_ok h₁, h₂, List.append_assoc]

theorem bind_ok {m : Stream δ κ α} {f : α → Stream δ κ Unit} {a : α} (h : m = Pure.pure a) (h' : Writes P (f a) w) :
    Writes P (m >>= f) w := by
  rw [h, pure_bind]; exact h'

theorem bind_reading {m : EStateM (CasError δ) κ α} {f : α → Stream δ κ Unit} {a : α}
    (h : ∀ k, P k → ∃ k', m k = .ok a k' ∧ P k') (h' : Writes P (f a) w) : Writes P (reading m >>= f) w := by
  intro k out hk
  obtain ⟨k₁, h₁, hk₁⟩ := h k hk
  obtain ⟨k₂, h₂, hk₂⟩ := h' k₁ out hk₁
  have hread : reading m (k, out) = .ok a (k₁, out) := by unfold reading; rw [h₁]
  exact ⟨k₂, by rw [bind_of_ok hread, h₂], hk₂⟩

theorem of_eq (h : Writes P m w) (hw : w = w') : Writes P m w' := hw ▸ h

end Writes

/-- The reader has every directory of the tree, and `content` for its files. -/
structure ChunkReader.Serves (ext : Ext δ) (reader : ChunkReader δ κ) (P : κ → Prop) (content : Bytes → Bytes)
    (t : NarNode) : Prop where
  file : ∀ data ∈ t.files, Writes P (reader.writeFileDataTo (ext.blake3 data)) (content data)
  directory : ∀ entries, NarNode.directory entries ∈ t.postorder → ∀ k, P k →
    ∃ k', reader.loadDirectory (dirDigest ext entries) k = .ok ⟨caEntries ext entries⟩ k' ∧ P k'

variable {ext : Ext δ} {reader : ChunkReader δ κ} {P : κ → Prop} {content : Bytes → Bytes}

theorem ChunkReader.Serves.child {entries : List (String × NarNode)} {e : String × NarNode}
    (h : reader.Serves ext P content (.directory entries)) (he : e ∈ entries) : reader.Serves ext P content e.2 where
  file data hd := h.file data (by rw [files_directory]; exact List.mem_flatMap.mpr ⟨e, he, hd⟩)
  directory es hes := h.directory es (child_mem_postorder he hes)

def caEntry (ext : Ext δ) (e : String × NarNode) : CaDirectoryEntry := ⟨e.1, some (caNode ext e.2)⟩

theorem caEntries_eq_map (entries : List (String × NarNode)) : caEntries ext entries = entries.map (caEntry ext) := by
  induction entries with
  | nil => rfl
  | cons e entries ih => rw [caEntries, ih]; rfl

theorem sortEntries_caEntries (entries : List (String × NarNode)) :
    sortEntries (caEntries ext entries) = (sortByName entries).map (caEntry ext) := by
  rw [caEntries_eq_map]
  exact (List.map_mergeSort (f := caEntry ext) fun _ _ _ _ => rfl).symm

theorem digestOf_toVec (laws : ext.Laws) (d : δ) : digestOf ext (some ⟨ext.toVec d⟩) = .ok d := by
  unfold digestOf
  simp only [laws.tryFrom_toVec]

theorem chunk_lengths_sum (laws : ext.Laws) (data : Bytes) : ((ext.fastcdc data).map Prod.snd).sum = data.length := by
  conv_rhs => rw [← laws.chunks_flatten data, List.length_flatten, Ext.chunks, List.map_map]
  exact congrArg List.sum (List.map_congr_left fun c hc => (laws.chunk_length data c hc).symm)

/-- Given fuel for its depth, a served tree is written with its entries sorted. -/
theorem writeCasNode_serves (laws : ext.Laws) (t : NarNode) : ∀ fuel, t.depth ≤ fuel → reader.Serves ext P content t →
    Writes P (writeCasNode ext reader fuel (caNode ext t)) (writeNarObjWith content t.sorted) := by
  induction t using NarNode.tree_induction with
  | regular executable data =>
    intro fuel hfuel h
    obtain ⟨fuel, rfl⟩ : ∃ n, fuel = n + 1 := ⟨fuel - 1, by rw [NarNode.depth] at hfuel; omega⟩
    have hfile := h.file data (List.mem_singleton.mpr rfl)
    rw [caNode, fileNode, chunk_lengths_sum laws]
    refine Writes.of_eq (.bind (.emit _) (.bind_ok (by rw [digestOf_toVec laws]; rfl) (.bind (.emit _) (.bind hfile
      (.bind (.emit _) (.emit _)))))) ?_
    simp only [NarNode.sorted, writeNarObjWith, List.append_assoc]
  | symlink target =>
    intro fuel hfuel h
    obtain ⟨fuel, rfl⟩ : ∃ n, fuel = n + 1 := ⟨fuel - 1, by rw [NarNode.depth] at hfuel; omega⟩
    refine Writes.of_eq (.bind (.emit _) (.bind (.emit _) (.emit _))) ?_
    simp only [NarNode.sorted, writeNarObjWith, List.append_assoc]
  | directory entries ih =>
    intro fuel hfuel h
    rw [NarNode.depth] at hfuel
    obtain ⟨fuel, rfl⟩ : ∃ n, fuel = n + 1 := ⟨fuel - 1, by omega⟩
    have hentries : ∀ l : List (String × NarNode), (∀ e ∈ l, e ∈ entries) →
        Writes P ((l.map (caEntry ext)).forM fun entry => do
          emit (writeStr "entry" ++ writeStr "(" ++ writeStr "name" ++ writeStr entry.name ++ writeStr "node")
          entry.node.forM (writeCasNode ext reader fuel)
          emit (writeStr ")")) (writeEntriesWith content (l.map fun e => (e.1, e.2.sorted))) := by
      intro l
      induction l with
      | nil => exact fun _ => .pure
      | cons e l ihl =>
        intro hl
        have he := hl e (List.mem_cons_self ..)
        have hdepth := depth_le_depthEntries he
        have hnode := ih e he fuel (by omega) (h.child he)
        refine Writes.of_eq (.bind (.bind (.emit _) (.bind hnode (.emit _)))
          (ihl fun e he => hl e (List.mem_cons_of_mem _ he))) ?_
        simp only [List.map_cons, writeEntriesWith, List.append_assoc, caEntry]
    have hsorted := hentries (sortByName entries) fun e he => mem_sortByName.mp he
    rw [← sortEntries_caEntries] at hsorted
    rw [caNode, directoryNode]
    refine Writes.of_eq (.bind (.emit _) (.bind_ok (by rw [digestOf_toVec laws]; rfl) (.bind (.emit _)
      (.bind_reading (h.directory entries (self_mem_postorder _)) (.bind hsorted (.emit _)))))) ?_
    simp only [NarNode.sorted, writeNarObjWith, List.append_assoc, sortedEntries_eq_map, sortByName_map]

theorem writeNarStreaming_serves (laws : ext.Laws) {t : NarNode} {fuel : Nat} (hfuel : t.depth ≤ fuel)
    (h : reader.Serves ext P content t) :
    Writes P (writeNarStreaming ext reader fuel (caNode ext t)) (writeNarWith content t.sorted) :=
  .bind (.emit _) (writeCasNode_serves laws t fuel hfuel h)

end Ekapkgs
