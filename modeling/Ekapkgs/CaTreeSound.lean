import Ekapkgs.CaTree

/-!
# Stored trees determine their directories

The root of a tree determines the tree, so a directory and one nested in it have
different digests: a tree is no deeper than it has directories.
-/

namespace Ekapkgs

variable {δ : Type} {ext : Ext δ}

/-! ## The root determines the tree -/

theorem Ext.Laws.toVec_injective (laws : ext.Laws) : Function.Injective ext.toVec := by
  intro d d' h
  have := laws.tryFrom_toVec d
  rw [h, laws.tryFrom_toVec] at this
  exact (Option.some.inj this).symm

theorem Ext.Laws.encodeDirectory_injective (laws : ext.Laws) : Function.Injective ext.encodeDirectory := by
  intro dir dir' h
  have := laws.decode_encodeDirectory dir
  rw [h, laws.decode_encodeDirectory] at this
  exact (Option.some.inj this).symm

theorem Ext.Laws.encodeNode_injective (laws : ext.Laws) : Function.Injective ext.encodeNode := by
  intro node node' h
  have := laws.decode_encodeNode node
  rw [h, laws.decode_encodeNode] at this
  exact (Option.some.inj this).symm

mutual
theorem caNode_injective (laws : ext.Laws) : ∀ {t t' : NarNode}, caNode ext t = caNode ext t' → t = t'
  | .regular executable data, t', h => by
    cases t' with
    | regular executable' data' =>
      simp only [caNode, fileNode, CaNode.mk.injEq, Option.some.injEq, CaNodeKind.file.injEq, CaFileNode.mk.injEq,
        B3Digest.mk.injEq] at h
      obtain ⟨hdigest, -, hexec⟩ := h
      rw [laws.blake3_injective (laws.toVec_injective hdigest), hexec]
    | directory entries' => simp [caNode, fileNode, directoryNode] at h
    | symlink target' => simp [caNode, fileNode] at h
  | .directory entries, t', h => by
    cases t' with
    | regular executable' data' => simp [caNode, fileNode, directoryNode] at h
    | directory entries' =>
      simp only [caNode, directoryNode, CaNode.mk.injEq, Option.some.injEq, CaNodeKind.directory.injEq,
        CaDirectoryNode.mk.injEq, B3Digest.mk.injEq] at h
      have hdir := laws.encodeDirectory_injective (laws.blake3_injective (laws.toVec_injective h.1))
      rw [caEntries_injective laws (CaDirectory.mk.inj hdir)]
    | symlink target' => simp [caNode, directoryNode] at h
  | .symlink target, t', h => by
    cases t' with
    | regular executable' data' => simp [caNode, fileNode] at h
    | directory entries' => simp [caNode, directoryNode] at h
    | symlink target' => simpa [caNode] using h
theorem caEntries_injective (laws : ext.Laws) : ∀ {entries entries' : List (String × NarNode)},
    caEntries ext entries = caEntries ext entries' → entries = entries'
  | [], [], _ => rfl
  | [], _ :: _, h => nomatch h
  | _ :: _, [], h => nomatch h
  | (name, node) :: entries, (name', node') :: entries', h => by
    simp only [caEntries, List.cons.injEq, CaDirectoryEntry.mk.injEq, Option.some.injEq] at h
    obtain ⟨⟨rfl, hnode⟩, hentries⟩ := h
    rw [caNode_injective laws hnode, caEntries_injective laws hentries]
end

/-! ## Nodes of a tree -/

theorem self_mem_postorder : ∀ t : NarNode, t ∈ t.postorder
  | .regular _ _ => by simp [NarNode.postorder]
  | .directory _ => by simp [NarNode.postorder]
  | .symlink _ => by simp [NarNode.postorder]

theorem mem_postorderEntries {s : NarNode} : ∀ {entries : List (String × NarNode)},
    s ∈ postorderEntries entries ↔ ∃ e ∈ entries, s ∈ e.2.postorder
  | [] => by simp [postorderEntries]
  | (name, node) :: entries => by
    rw [postorderEntries, List.mem_append, mem_postorderEntries]
    simp

theorem mem_postorder_directory {s : NarNode} {entries : List (String × NarNode)} :
    s ∈ (NarNode.directory entries).postorder ↔ s = .directory entries ∨ ∃ e ∈ entries, s ∈ e.2.postorder := by
  rw [NarNode.postorder, List.mem_append, mem_postorderEntries, List.mem_singleton, or_comm]

theorem child_mem_postorder {entries : List (String × NarNode)} {e : String × NarNode} (he : e ∈ entries) {s : NarNode}
    (hs : s ∈ e.2.postorder) : s ∈ (NarNode.directory entries).postorder :=
  mem_postorder_directory.mpr (.inr ⟨e, he, hs⟩)

theorem sizeOf_child {entries : List (String × NarNode)} {e : String × NarNode} (he : e ∈ entries) :
    sizeOf e.2 < sizeOf (NarNode.directory entries) := by
  have h₁ := List.sizeOf_lt_of_mem he
  obtain ⟨name, node⟩ := e
  simp only [Prod.mk.sizeOf_spec, NarNode.directory.sizeOf_spec] at *
  omega

/-- Induction over a tree, the entries of a directory at once. -/
theorem NarNode.tree_induction {P : NarNode → Prop} (regular : ∀ executable data, P (.regular executable data))
    (directory : ∀ entries, (∀ e ∈ entries, P e.2) → P (.directory entries))
    (symlink : ∀ target, P (.symlink target)) : ∀ t, P t
  | .regular executable data => regular executable data
  | .directory entries => directory entries fun e _ => tree_induction regular directory symlink e.2
  | .symlink target => symlink target
termination_by t => sizeOf t
decreasing_by exact sizeOf_child ‹_›

theorem sizeOf_le_of_mem_postorder {s : NarNode} (t : NarNode) : s ∈ t.postorder → sizeOf s ≤ sizeOf t := by
  induction t using NarNode.tree_induction with
  | regular executable data => intro h; rw [List.mem_singleton.mp h]
  | symlink target => intro h; rw [List.mem_singleton.mp h]
  | directory entries ih =>
    intro h
    rcases mem_postorder_directory.mp h with rfl | ⟨e, he, hs⟩
    · exact Nat.le_refl _
    · exact (ih e he hs).trans (sizeOf_child he).le

/-! ## Depth -/

mutual
/-- The number of nested nodes. -/
def NarNode.depth : NarNode → Nat
  | .regular _ _ => 1
  | .directory entries => depthEntries entries + 1
  | .symlink _ => 1
def depthEntries : List (String × NarNode) → Nat
  | [] => 0
  | (_, node) :: entries => max node.depth (depthEntries entries)
end

theorem depth_le_depthEntries : ∀ {entries : List (String × NarNode)} {e : String × NarNode}, e ∈ entries →
    e.2.depth ≤ depthEntries entries
  | (_, node) :: entries, e, he => by
    rw [depthEntries]
    rcases List.mem_cons.mp he with rfl | he
    · exact Nat.le_max_left ..
    · exact (depth_le_depthEntries he).trans (Nat.le_max_right ..)

theorem exists_depth_eq : ∀ {entries : List (String × NarNode)}, entries ≠ [] →
    ∃ e ∈ entries, e.2.depth = depthEntries entries
  | [(name, node)], _ => ⟨(name, node), by simp, by simp [depthEntries]⟩
  | (name, node) :: e' :: entries, _ => by
    obtain ⟨e, he, hd⟩ := exists_depth_eq (List.cons_ne_nil e' entries)
    rw [depthEntries, ← hd]
    rcases Nat.le_total node.depth e.2.depth with h | h
    · exact ⟨e, List.mem_cons_of_mem _ he, (Nat.max_eq_right h).symm⟩
    · exact ⟨(name, node), List.mem_cons_self .., (Nat.max_eq_left h).symm⟩

def dirDigest (ext : Ext δ) (entries : List (String × NarNode)) : δ :=
  ext.blake3 (ext.encodeDirectory ⟨caEntries ext entries⟩)

theorem dirDigest_injective (laws : ext.Laws) {entries entries' : List (String × NarNode)}
    (h : dirDigest ext entries = dirDigest ext entries') : entries = entries' :=
  caEntries_injective laws (CaDirectory.mk.inj (laws.encodeDirectory_injective (laws.blake3_injective h)))

variable [DecidableEq δ]

/-- The digests of the directories of a tree. -/
def dirDigests (ext : Ext δ) (t : NarNode) : Finset δ :=
  (t.postorder.filterMap fun
    | .directory entries => some (dirDigest ext entries)
    | _ => none).toFinset

theorem mem_dirDigests {t : NarNode} {d : δ} :
    d ∈ dirDigests ext t ↔ ∃ entries, NarNode.directory entries ∈ t.postorder ∧ dirDigest ext entries = d := by
  rw [dirDigests, List.mem_toFinset, List.mem_filterMap]
  constructor
  · rintro ⟨s, hs, hd⟩
    cases s with
    | directory entries => exact ⟨entries, hs, Option.some.inj hd⟩
    | regular executable data => cases hd
    | symlink target => cases hd
  · rintro ⟨entries, hs, hd⟩
    exact ⟨.directory entries, hs, congrArg some hd⟩

theorem depth_le_dirDigests (laws : ext.Laws) (t : NarNode) : t.depth ≤ (dirDigests ext t).card + 1 := by
  induction t using NarNode.tree_induction with
  | regular executable data => rw [NarNode.depth]; omega
  | symlink target => rw [NarNode.depth]; omega
  | directory entries ih =>
    have hself : dirDigest ext entries ∈ dirDigests ext (.directory entries) :=
      mem_dirDigests.mpr ⟨entries, self_mem_postorder _, rfl⟩
    rw [NarNode.depth]
    by_cases hne : entries = []
    · have := Finset.card_pos.mpr ⟨_, hself⟩
      subst hne; rw [depthEntries]; omega
    -- the deepest entry has all digests of the directory but the directory's own
    obtain ⟨e, he, hd⟩ := exists_depth_eq hne
    have hsub : dirDigests ext e.2 ⊆ (dirDigests ext (.directory entries)).erase (dirDigest ext entries) := by
      intro d hmem
      obtain ⟨entries', hs, rfl⟩ := mem_dirDigests.mp hmem
      refine Finset.mem_erase.mpr ⟨fun heq => ?_, mem_dirDigests.mpr ⟨entries', child_mem_postorder he hs, rfl⟩⟩
      obtain rfl := dirDigest_injective laws heq
      have h₁ := sizeOf_le_of_mem_postorder e.2 hs
      have h₂ := sizeOf_child he
      omega
    have hcard := Finset.card_le_card hsub
    rw [Finset.card_erase_of_mem hself] at hcard
    have := ih e he
    have := Finset.card_pos.mpr ⟨_, hself⟩
    omega

end Ekapkgs
