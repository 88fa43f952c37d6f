import Ekapkgs.BootEntries

/-!
# What pruning leaves

Exactly when every file that a remaining entry names, and every entry of a
generation that some profile still has, outlives the pruning.
-/

namespace Ekapkgs

/-! ## One pass -/

section
variable {α : Type} {isDir orphaned : α → Bool} {l : List α} {f : α}

/-- The pass goes on after `f`. -/
def passes (isDir orphaned : α → Bool) (f : α) : Bool := !(orphaned f && isDir f)

/-- From the first orphan on that is a directory, nothing is looked at. -/
def unreached (isDir orphaned : α → Bool) (l : List α) : List α := l.dropWhile (passes isDir orphaned)

theorem mem_kept (removed : Nat) :
    f ∈ (pruneFiles isDir orphaned false l removed).kept ↔ f ∈ l ∧ (orphaned f = false ∨ f ∈ unreached isDir orphaned l) := by
  induction l generalizing removed with
  | nil => simp [pruneFiles]
  | cons g l ih =>
    unfold unreached at ih ⊢
    cases ho : orphaned g with
    | false =>
      have hpasses : passes isDir orphaned g = true := by simp [passes, ho]
      simp only [pruneFiles, ho, Bool.not_false, if_true, Pass.keep, List.mem_cons, ih, List.dropWhile_cons, hpasses]
      by_cases hf : f = g
      · subst hf; simp [ho]
      · simp [hf]
    | true =>
      cases hd : isDir g with
      | true =>
        have hpasses : passes isDir orphaned g = false := by simp [passes, ho, hd]
        simp only [pruneFiles, ho, hd, Bool.not_true, if_false, Bool.false_eq_true, if_true, List.dropWhile_cons, hpasses]
        exact ⟨fun h => ⟨h, .inr h⟩, And.left⟩
      | false =>
        have hpasses : passes isDir orphaned g = true := by simp [passes, ho, hd]
        simp only [pruneFiles, ho, hd, Bool.not_true, if_false, Bool.false_eq_true, ih, List.mem_cons, List.dropWhile_cons, hpasses,
          if_true]
        by_cases hf : f = g
        · subst hf
          simp only [ho, true_or, true_and, Bool.true_eq_false, false_or]
          exact ⟨And.right, fun h => ⟨(List.dropWhile_suffix _).subset h, h⟩⟩
        · simp [hf]

/-- A pass fails at an orphan that is a directory. -/
theorem removed_isOk (removed : Nat) : (∃ n, (pruneFiles isDir orphaned false l removed).removed = .ok n) ↔
    ∀ f ∈ l, orphaned f = true → isDir f = false := by
  induction l generalizing removed with
  | nil => simp [pruneFiles]
  | cons g l ih =>
    rw [List.forall_mem_cons]
    cases ho : orphaned g with
    | false => simp [pruneFiles, ho, Pass.keep, ih]
    | true =>
      cases hd : isDir g with
      | true => simp [pruneFiles, ho, hd]
      | false => simp [pruneFiles, ho, hd, ih]

end

/-! ## The whole command -/

namespace BootPartition

def entryFiles (boot : BootPartition) : List LoaderEntry := boot.entries.getD []
def nixosFiles (boot : BootPartition) : List BootFile := boot.nixos.getD []
def ukiFiles (boot : BootPartition) : List BootFile := boot.linux.getD []

end BootPartition

/-- The command comes to the pruning, with these generations. -/
def Prunes (gc : Option Nat) (profileDir : Except String (List ProfileLink)) (activeGens : List Nat) : Prop :=
  (gc = none ∨ gc = some 0) ∧ profileDir.map collectActiveGenerations = .ok activeGens ∧ activeGens ≠ []

/-- No entry that is to go is a directory. -/
def EntriesPass (activeGens : List Nat) (boot : BootPartition) : Prop :=
  ∀ e ∈ boot.entryFiles, entryOrphaned activeGens e = true → e.isDir = false

variable {gc : Option Nat} {profileDir : Except String (List ProfileLink)} {activeGens : List Nat} {boot : BootPartition}

/-- What a pruning leaves. -/
def pruned (gc : Option Nat) (profileDir : Except String (List ProfileLink)) (boot : BootPartition) : BootPartition :=
  (cmdPruneBootEntries gc profileDir false boot).1

theorem pruned_of_not_prunes (h : ∀ activeGens, ¬ Prunes gc profileDir activeGens) : pruned gc profileDir boot = boot := by
  unfold pruned cmdPruneBootEntries
  split
  · rfl
  · rfl
  next links hgc =>
    dsimp only
    split
    · rfl
    next hactive =>
      refine absurd ⟨?_, rfl, fun h => hactive (by rw [h]; rfl)⟩ (h (collectActiveGenerations links))
      cases gc with
      | none => exact .inl rfl
      | some status =>
        cases status with
        | zero => exact .inr rfl
        | succ n => exact absurd rfl (hgc n)

theorem pruned_of_prunes (h : Prunes gc profileDir activeGens) : pruned gc profileDir boot =
    match (pruneLoader activeGens false boot).2 with
    | .error _ => (pruneLoader activeGens false boot).1
    | .ok _ => (pruneUkis activeGens false (pruneLoader activeGens false boot).1).1 := by
  obtain ⟨hgc, hdir, hactive⟩ := h
  cases profileDir with
  | error e => cases hdir
  | ok links =>
    obtain rfl : collectActiveGenerations links = activeGens := Except.ok.inj hdir
    have hempty : ¬ (collectActiveGenerations links).isEmpty = true := fun h => hactive (List.isEmpty_iff.mp h)
    unfold pruned cmdPruneBootEntries
    rcases hgc with rfl | rfl
    all_goals
      dsimp only
      rw [if_neg hempty]
      cases (pruneLoader (collectActiveGenerations links) false boot).2 <;> rfl

theorem efi_pass_ok (referenced : List String) (files : List BootFile) :
    ∃ n, (pruneEfiFiles referenced false files).removed = .ok n :=
  (removed_isOk 0).mpr fun f _ h => by simpa using (Bool.and_eq_true_iff.mp h).1

theorem mem_kept_efi {referenced : List String} {files : List BootFile} {f : BootFile} :
    f ∈ (pruneEfiFiles referenced false files).kept ↔ f ∈ files ∧ efiOrphaned referenced f = false := by
  unfold pruneEfiFiles
  rw [mem_kept]
  refine and_congr_right fun _ => or_iff_left fun h => ?_
  have hpasses : ∀ g ∈ files, passes (·.isDir) (efiOrphaned referenced) g = true := by
    intro g _
    cases hd : g.isDir <;> simp [passes, efiOrphaned, hd]
  unfold unreached at h
  rw [List.dropWhile_eq_nil_iff.mpr hpasses] at h
  cases h

theorem pruneLoader_of_pass {entries : List LoaderEntry} (hentries : boot.entries = some entries) (h : EntriesPass activeGens boot) :
    ∃ n, pruneLoader activeGens false boot = ({ boot with
      entries := some (pruneEntryFiles activeGens false entries).kept
      nixos := boot.nixos.map fun files => (pruneEfiFiles (referencedFiles activeGens entries) false files).kept }, .ok n) := by
  unfold EntriesPass BootPartition.entryFiles at h
  rw [hentries] at h
  obtain ⟨n, hn⟩ : ∃ n, (pruneEntryFiles activeGens false entries).removed = .ok n := (removed_isOk 0).mpr h
  unfold pruneLoader
  rw [hentries]
  dsimp only
  rw [hn]
  dsimp only
  cases hnixos : boot.nixos with
  | none => exact ⟨n, rfl⟩
  | some files =>
    obtain ⟨m, hm⟩ := efi_pass_ok (referencedFiles activeGens entries) files
    exact ⟨n + m, by dsimp only; rw [hm]; rfl⟩

theorem pruneLoader_of_not_pass {entries : List LoaderEntry} (hentries : boot.entries = some entries)
    (h : ¬ EntriesPass activeGens boot) : ∃ e, pruneLoader activeGens false boot =
      ({ boot with entries := some (pruneEntryFiles activeGens false entries).kept }, .error e) := by
  unfold EntriesPass BootPartition.entryFiles at h
  rw [hentries] at h
  have hfail := mt (removed_isOk (l := entries) 0).mp h
  unfold pruneLoader
  rw [hentries]
  dsimp only
  cases hremoved : (pruneEntryFiles activeGens false entries).removed with
  | error e => exact ⟨e, rfl⟩
  | ok n => exact absurd ⟨n, hremoved⟩ hfail

theorem pruneLoader_none (h : boot.entries = none) : pruneLoader activeGens false boot = (boot, .ok 0) := by
  unfold pruneLoader
  rw [h]

theorem pruneUkis_frame : (pruneUkis activeGens false boot).1.entries = boot.entries ∧
    (pruneUkis activeGens false boot).1.nixos = boot.nixos := by
  unfold pruneUkis
  cases boot.linux with
  | none => exact ⟨rfl, rfl⟩
  | some files => exact ⟨rfl, rfl⟩

/-! ## What is left in each directory -/

theorem pruned_entries (h : Prunes gc profileDir activeGens) : (pruned gc profileDir boot).entries =
    boot.entries.map fun entries => (pruneEntryFiles activeGens false entries).kept := by
  rw [pruned_of_prunes h]
  cases hentries : boot.entries with
  | none =>
    rw [pruneLoader_none hentries]
    exact pruneUkis_frame.1.trans hentries
  | some entries =>
    by_cases hpass : EntriesPass activeGens boot
    · obtain ⟨n, hn⟩ := pruneLoader_of_pass hentries hpass
      rw [hn]
      exact pruneUkis_frame.1
    · obtain ⟨e, he⟩ := pruneLoader_of_not_pass hentries hpass
      rw [he]
      rfl

theorem mem_entryFiles_pruned (h : Prunes gc profileDir activeGens) {e : LoaderEntry} :
    e ∈ (pruned gc profileDir boot).entryFiles ↔ e ∈ boot.entryFiles ∧
      (entryOrphaned activeGens e = false ∨ e ∈ unreached (·.isDir) (entryOrphaned activeGens) boot.entryFiles) := by
  unfold BootPartition.entryFiles
  rw [pruned_entries h]
  cases boot.entries with
  | none => simp
  | some entries => exact mem_kept 0

theorem mem_nixosFiles_pruned (h : Prunes gc profileDir activeGens) (hpass : EntriesPass activeGens boot)
    (hentries : boot.entryFiles ≠ []) {f : BootFile} : f ∈ (pruned gc profileDir boot).nixosFiles ↔
      f ∈ boot.nixosFiles ∧ efiOrphaned (referencedFiles activeGens boot.entryFiles) f = false := by
  rw [pruned_of_prunes h]
  unfold BootPartition.entryFiles at hentries ⊢
  cases hsome : boot.entries with
  | none => rw [hsome] at hentries; exact absurd rfl hentries
  | some entries =>
    obtain ⟨n, hn⟩ := pruneLoader_of_pass hsome hpass
    rw [hn]
    unfold BootPartition.nixosFiles
    dsimp only
    rw [pruneUkis_frame.2]
    cases boot.nixos with
    | none => simp
    | some files => exact mem_kept_efi

theorem nixosFiles_of_not_pass (h : Prunes gc profileDir activeGens) (hpass : ¬ EntriesPass activeGens boot) :
    (pruned gc profileDir boot).nixosFiles = boot.nixosFiles := by
  rw [pruned_of_prunes h]
  cases hentries : boot.entries with
  | none =>
    refine absurd (fun e he => ?_) hpass
    unfold BootPartition.entryFiles at he
    rw [hentries] at he
    cases he
  | some entries =>
    obtain ⟨e, he⟩ := pruneLoader_of_not_pass hentries hpass
    rw [he]
    rfl

/-! ## Files that an entry needs -/

/-- The value of a line with this key, set off by any white space. -/
def keyValue (key line : String) : Option String := do
  let rest ← stripPrefix key (trim line)
  if rest.toList.head?.any isWhitespace then some (trim rest) else none

/-- The file of `EFI/nixos` that a path on the boot partition names. -/
def efiNixosFile (path : String) : Option String :=
  let parts := split '/' path
  if parts.dropLast.filter (· ≠ "") = ["EFI", "nixos"] then parts.getLast? else none

/-- A linux, initrd or devicetree line names the file. -/
def NamedBy (contents file : String) : Prop :=
  ∃ line ∈ lines contents, ∃ key ∈ ["linux", "initrd", "devicetree"], (keyValue key line).bind efiNixosFile = some file

instance (contents file : String) : Decidable (NamedBy contents file) := by unfold NamedBy; infer_instance

/-- A line with one of the keys and a space has this last path component. -/
def LineRefers (contents file : String) : Prop :=
  ∃ line ∈ lines contents, ∃ pre ∈ ["linux ", "initrd ", "devicetree "],
    (stripPrefix pre (trim line)).map (fun path => rsplitNext '/' (trim path)) = some file

instance (contents file : String) : Decidable (LineRefers contents file) := by unfold LineRefers; infer_instance

theorem mem_collectEfiRefs {contents file : String} : file ∈ collectEfiRefs contents ↔ LineRefers contents file := by
  unfold collectEfiRefs LineRefers
  simp only [List.mem_flatMap, List.mem_filterMap]

/-- A live generation entry that can be read refers to the file. -/
def LiveRefers (activeGens : List Nat) (boot : BootPartition) (file : String) : Prop :=
  ∃ e ∈ boot.entryFiles, e.generation.any activeGens.contains = true ∧ e.readable = true ∧ e.isDir = false ∧ LineRefers e.contents file

instance (activeGens : List Nat) (boot : BootPartition) (file : String) : Decidable (LiveRefers activeGens boot file) := by
  unfold LiveRefers; infer_instance

theorem mem_referencedFiles {file : String} :
    file ∈ referencedFiles activeGens boot.entryFiles ↔ LiveRefers activeGens boot file := by
  unfold referencedFiles LiveRefers
  rw [List.mem_flatMap]
  refine exists_congr fun e => and_congr_right fun _ => ?_
  cases hgen : e.generation.any activeGens.contains with
  | false => simp
  | true =>
    cases hr : e.readable <;> cases hd : e.isDir <;> simp [LoaderEntry.readToString, hr, hd, mem_collectEfiRefs]

/-- A file of `EFI/nixos` that a remaining entry names is still there exactly if,
where the pruning gets to it, a live generation entry refers to it. -/
theorem neededFiles_kept_iff (gc : Option Nat) (profileDir : Except String (List ProfileLink)) (boot : BootPartition) :
    (∀ f ∈ boot.nixosFiles, (∃ e ∈ (pruned gc profileDir boot).entryFiles, e.isDir = false ∧ NamedBy e.contents f.name) →
      f ∈ (pruned gc profileDir boot).nixosFiles) ↔
    ∀ activeGens, Prunes gc profileDir activeGens → EntriesPass activeGens boot →
      ∀ f ∈ boot.nixosFiles, f.isDir = false →
        ∀ e ∈ boot.entryFiles, e.isDir = false → entryOrphaned activeGens e = false → NamedBy e.contents f.name →
          LiveRefers activeGens boot f.name := by
  constructor
  · intro h activeGens hprunes hpass f hf hfile e he hefile horphaned hnamed
    have hentries : boot.entryFiles ≠ [] := List.ne_nil_of_mem he
    have hleft := h f hf ⟨e, (mem_entryFiles_pruned hprunes).mpr ⟨he, .inl horphaned⟩, hefile, hnamed⟩
    obtain ⟨-, hefi⟩ := (mem_nixosFiles_pruned hprunes hpass hentries).mp hleft
    rw [← mem_referencedFiles]
    simpa [efiOrphaned, hfile] using hefi
  · rintro h f hf ⟨e, he, hefile, hnamed⟩
    by_cases hprunes : ∃ activeGens, Prunes gc profileDir activeGens
    · obtain ⟨activeGens, hprunes⟩ := hprunes
      by_cases hpass : EntriesPass activeGens boot
      · obtain ⟨hentry, horphaned⟩ := (mem_entryFiles_pruned hprunes).mp he
        have hkept : entryOrphaned activeGens e = false := by
          refine horphaned.resolve_right fun hunreached => ?_
          have hpasses : ∀ g ∈ boot.entryFiles, passes (·.isDir) (entryOrphaned activeGens) g = true := by
            intro g hg
            cases ho : entryOrphaned activeGens g with
            | false => simp [passes, ho]
            | true => simp [passes, ho, hpass g hg ho]
          unfold unreached at hunreached
          rw [List.dropWhile_eq_nil_iff.mpr hpasses] at hunreached
          cases hunreached
        rw [mem_nixosFiles_pruned hprunes hpass (List.ne_nil_of_mem hentry)]
        refine ⟨hf, ?_⟩
        cases hfile : f.isDir with
        | true => simp [efiOrphaned, hfile]
        | false =>
          have hrefers := h activeGens hprunes hpass f hf hfile e hentry hefile hkept hnamed
          simpa [efiOrphaned, hfile] using mem_referencedFiles.mpr hrefers
      · rw [nixosFiles_of_not_pass hprunes hpass]
        exact hf
    · rw [pruned_of_not_prunes (not_exists.mp hprunes)]
      exact hf

/-- The boot partition of one generation, and of an entry with another name. -/
def fallbackBoot : BootPartition where
  entries := some [⟨⟨"fallback.conf", false⟩, "title x\nlinux /EFI/nixos/k.efi\n", true⟩]
  nixos := some [⟨"k.efi", false⟩]
  linux := none

/-- An entry that is not a generation's loses its kernel. -/
theorem needed_file_pruned : ¬ ∀ (gc : Option Nat) (profileDir : Except String (List ProfileLink)) (boot : BootPartition),
    ∀ f ∈ boot.nixosFiles, (∃ e ∈ (pruned gc profileDir boot).entryFiles, e.isDir = false ∧ NamedBy e.contents f.name) →
      f ∈ (pruned gc profileDir boot).nixosFiles := by
  intro h
  exact absurd (h none (.ok [⟨"system-1-link", some "/nix/store/s"⟩]) fallbackBoot ⟨"k.efi", false⟩ (by decide)
    (by decide)) (by decide)

/-! ## Entries of live generations -/

/-- The directory of the system profile, and `system-profiles`. -/
structure BootProfiles where
  system : List ProfileLink
  named : List ProfileLink
  deriving DecidableEq, Repr

/-- The generations that a profile still has. -/
def BootProfiles.generations (profiles : BootProfiles) : Option String → List Nat
  | none => collectActiveGenerations profiles.system
  | some name => (discoverGenerations name profiles.named).map Generation.number

/-- The name of a file that is made for a generation. -/
def entryName (pre : String) (profile : Option String) (number : Nat) (rest : String) : String :=
  pre ++ profile.elim "" ("-" ++ ·) ++ "-generation-" ++ toString number ++ rest

/-- `rest` follows a number that ends here. -/
def NumberEnds (rest : String) : Prop := ∀ c ∈ rest.toList.head?, c.isDigit = false

/-- A loader entry of a generation that its profile still has. -/
def BootProfiles.LiveEntry (profiles : BootProfiles) (profile : Option String) (name : String) : Prop :=
  ∃ number ∈ profiles.generations profile, ∃ rest, NumberEnds rest ∧ name = entryName "nixos" profile number rest

/-- What a UKI is named after, if that is not a profile, belongs to the system profile. -/
def BootProfiles.ukiGenerations (profiles : BootProfiles) (middle : Option String) : List Nat :=
  if profiles.generations middle = [] then profiles.generations none else profiles.generations middle

def BootProfiles.LiveUki (profiles : BootProfiles) (middle : Option String) (name : String) : Prop :=
  ∃ number ∈ profiles.ukiGenerations middle, ∃ rest, NumberEnds rest ∧ name = entryName "ekaos" middle number rest

/-- Without a sign, a number is its digits. -/
theorem parseU64_unsigned {cs : List Char} (hsign : cs.head? ≠ some '+') : parseU64 (String.ofList cs) =
    if cs = [] ∨ (!cs.all Char.isDigit) = true then none
    else if cs.foldl (fun n c => 10 * n + (c.toNat - '0'.toNat)) 0 < 2 ^ 64 then
      some (cs.foldl (fun n c => 10 * n + (c.toNat - '0'.toNat)) 0)
    else none := by
  unfold parseU64
  rw [String.toList_ofList]
  dsimp only
  split
  next rest => exact absurd rfl hsign
  next => rfl

/-- What stands before the end of the number is the number, or is not one. -/
theorem parse_number {number n : Nat} {rest : String} (hrest : NumberEnds rest)
    (h : parseU64 (String.ofList ((toString number ++ rest).toList.takeWhile fun c => c ≠ '-' && c ≠ '.')) = some n) : n = number := by
  have hlist : (toString number).toList = Nat.toDigits 10 number := by rw [Nat.toString_eq_repr, Nat.toList_repr]
  have hdigit : ∀ c ∈ Nat.toDigits 10 number, c.isDigit = true := fun c hc => Nat.isDigit_of_mem_toDigits (by decide) (by decide) hc
  have hruns : ∀ c ∈ Nat.toDigits 10 number, (c ≠ '-' && c ≠ '.') = true := by
    intro c hc
    have := hdigit c hc
    rw [Bool.and_eq_true, decide_eq_true_iff, decide_eq_true_iff]
    exact ⟨by rintro rfl; simp at this, by rintro rfl; simp at this⟩
  have hsign (tail : List Char) : (Nat.toDigits 10 number ++ tail).head? ≠ some '+' := by
    cases hd : Nat.toDigits 10 number with
    | nil => exact absurd hd Nat.toDigits_ne_nil
    | cons c cs =>
      rintro heq
      obtain rfl : c = '+' := Option.some.inj heq
      exact absurd (hdigit '+' (hd ▸ List.mem_cons_self)) (by decide)
  rw [String.toList_append, hlist, List.takeWhile_append_of_pos hruns, parseU64_unsigned (hsign _)] at h
  obtain ⟨hgood, h⟩ := Option.ite_none_left_eq_some.mp h
  obtain ⟨-, h⟩ := Option.ite_none_right_eq_some.mp h
  rw [not_or, Bool.not_eq_true', Bool.not_eq_false] at hgood
  have hnil : rest.toList.takeWhile (fun c => c ≠ '-' && c ≠ '.') = [] := by
    cases hcs : rest.toList with
    | nil => rfl
    | cons c cs =>
      have hc : c.isDigit = false := hrest c (by rw [hcs]; rfl)
      rw [List.takeWhile_cons]
      split
      next hkeep =>
        rw [hcs, List.takeWhile_cons, if_pos hkeep, List.all_append, List.all_cons, hc] at hgood
        simp at hgood
      next => rfl
  rw [hnil, List.append_nil] at h
  exact (Option.some.inj h).symm.trans Nat.ofDigitChars_ten_toDigits

theorem splitOnce_nixos (after : String) : splitOnce "-generation-" ("nixos" ++ "" ++ "-generation-" ++ after) = some ("nixos", after) := by
  have hlist : ("nixos" ++ "" ++ "-generation-" ++ after).toList =
    'n' :: 'i' :: 'x' :: 'o' :: 's' :: ("-generation-".toList ++ after.toList) := by simp
  have hmarker : "-generation-".toList = ['-', 'g', 'e', 'n', 'e', 'r', 'a', 't', 'i', 'o', 'n', '-'] := rfl
  unfold splitOnce
  rw [hlist, hmarker]
  simp [splitOnce.go, hmarker]

theorem parseEntryGeneration_of_split {name before after : String} (h : splitOnce "-generation-" name = some (before, after)) :
    parseEntryGeneration name = parseU64 (String.ofList (after.toList.takeWhile fun c => c ≠ '-' && c ≠ '.')) := by
  unfold parseEntryGeneration
  rw [h]
  rfl

/-- An entry of the system profile is not taken for another generation's. -/
theorem not_entryOrphaned_system {profiles : BootProfiles} {e : LoaderEntry} (h : profiles.LiveEntry none e.name) :
    entryOrphaned (collectActiveGenerations profiles.system) e = false := by
  obtain ⟨number, hnumber, rest, hrest, hname⟩ := h
  have hparts : entryName "nixos" none number rest = "nixos" ++ "" ++ "-generation-" ++ (toString number ++ rest) := by
    simp [entryName, String.append_assoc]
  have hgeneration : parseEntryGeneration e.name =
      parseU64 (String.ofList ((toString number ++ rest).toList.takeWhile fun c => c ≠ '-' && c ≠ '.')) :=
    parseEntryGeneration_of_split (by rw [hname, hparts]; exact splitOnce_nixos _)
  unfold entryOrphaned LoaderEntry.generation
  split
  · rw [hgeneration]
    cases hparse : parseU64 (String.ofList ((toString number ++ rest).toList.takeWhile fun c => c ≠ '-' && c ≠ '.')) with
    | none => rfl
    | some n =>
      obtain rfl := parse_number hrest hparse
      have hmem : n ∈ collectActiveGenerations profiles.system := hnumber
      simp [hmem]
  · rfl

theorem mem_ukiFiles_pruned (h : Prunes gc profileDir activeGens) (hpass : EntriesPass activeGens boot) {f : BootFile} :
    f ∈ (pruned gc profileDir boot).ukiFiles ↔ f ∈ boot.ukiFiles ∧
      (ukiOrphaned activeGens f = false ∨ f ∈ unreached (·.isDir) (ukiOrphaned activeGens) boot.ukiFiles) := by
  have hukis : ∀ boot' : BootPartition, boot'.linux = boot.linux →
      (f ∈ (pruneUkis activeGens false boot').1.ukiFiles ↔ f ∈ boot.ukiFiles ∧
        (ukiOrphaned activeGens f = false ∨ f ∈ unreached (·.isDir) (ukiOrphaned activeGens) boot.ukiFiles)) := by
    intro boot' hlinux
    unfold pruneUkis BootPartition.ukiFiles
    rw [hlinux]
    cases hfiles : boot.linux with
    | none => simp [hlinux, hfiles]
    | some files => exact mem_kept 0
  rw [pruned_of_prunes h]
  cases hentries : boot.entries with
  | none =>
    rw [pruneLoader_none hentries]
    exact hukis _ rfl
  | some entries =>
    obtain ⟨n, hn⟩ := pruneLoader_of_pass hentries hpass
    rw [hn]
    exact hukis _ rfl

theorem ukiFiles_of_not_pass (h : Prunes gc profileDir activeGens) (hpass : ¬ EntriesPass activeGens boot) :
    (pruned gc profileDir boot).ukiFiles = boot.ukiFiles := by
  rw [pruned_of_prunes h]
  cases hentries : boot.entries with
  | none =>
    refine absurd (fun e he => ?_) hpass
    unfold BootPartition.entryFiles at he
    rw [hentries] at he
    cases he
  | some entries =>
    obtain ⟨e, he⟩ := pruneLoader_of_not_pass hentries hpass
    rw [he]
    rfl

/-- No file of a live generation is removed exactly if the number that is read
from the name of each one, of another profile than the system's, is also that of
a system generation, or the pruning stops before it. -/
theorem liveFiles_kept_iff (gc : Option Nat) (profiles : BootProfiles) (boot : BootPartition) :
    ((∀ profile, ∀ e ∈ boot.entryFiles, profiles.LiveEntry profile e.name → e ∈ (pruned gc (.ok profiles.system) boot).entryFiles) ∧
      ∀ middle, ∀ f ∈ boot.ukiFiles, profiles.LiveUki middle f.name → f ∈ (pruned gc (.ok profiles.system) boot).ukiFiles) ↔
    ∀ activeGens, Prunes gc (.ok profiles.system) activeGens →
      (∀ profile, ∀ e ∈ boot.entryFiles, profiles.LiveEntry (some profile) e.name → entryOrphaned activeGens e = true →
        e ∈ unreached (·.isDir) (entryOrphaned activeGens) boot.entryFiles) ∧
      (EntriesPass activeGens boot → ∀ middle, ∀ f ∈ boot.ukiFiles, profiles.LiveUki middle f.name →
        ukiOrphaned activeGens f = true → f ∈ unreached (·.isDir) (ukiOrphaned activeGens) boot.ukiFiles) := by
  constructor
  · rintro ⟨hentries, hukis⟩ activeGens hprunes
    refine ⟨fun profile e he hlive horphaned => ?_, fun hpass middle f hf hlive horphaned => ?_⟩
    · obtain ⟨-, hkept⟩ := (mem_entryFiles_pruned hprunes).mp (hentries _ e he hlive)
      exact hkept.resolve_left (by rw [horphaned]; decide)
    · obtain ⟨-, hkept⟩ := (mem_ukiFiles_pruned hprunes hpass).mp (hukis _ f hf hlive)
      exact hkept.resolve_left (by rw [horphaned]; decide)
  · intro h
    by_cases hprunes : ∃ activeGens, Prunes gc (.ok profiles.system) activeGens
    · obtain ⟨activeGens, hprunes⟩ := hprunes
      obtain ⟨hentries, hukis⟩ := h activeGens hprunes
      refine ⟨fun profile e he hlive => ?_, fun middle f hf hlive => ?_⟩
      · rw [mem_entryFiles_pruned hprunes]
        refine ⟨he, ?_⟩
        cases horphaned : entryOrphaned activeGens e with
        | false => exact .inl rfl
        | true =>
          cases profile with
          | none =>
            obtain rfl : collectActiveGenerations profiles.system = activeGens := Except.ok.inj hprunes.2.1
            rw [not_entryOrphaned_system hlive] at horphaned
            cases horphaned
          | some profile => exact .inr (hentries profile e he hlive horphaned)
      · by_cases hpass : EntriesPass activeGens boot
        · rw [mem_ukiFiles_pruned hprunes hpass]
          refine ⟨hf, ?_⟩
          cases horphaned : ukiOrphaned activeGens f with
          | false => exact .inl rfl
          | true => exact .inr (hukis hpass middle f hf hlive horphaned)
        · rw [ukiFiles_of_not_pass hprunes hpass]
          exact hf
    · rw [pruned_of_not_prunes (not_exists.mp hprunes)]
      exact ⟨fun _ _ he _ => he, fun _ _ hf _ => hf⟩

/-- The system profile is at generation 3, and a named one at 7. -/
def testProfiles : BootProfiles where
  system := [⟨"system-3-link", some "/nix/store/s"⟩]
  named := [⟨"test-7-link", some "/nix/store/t"⟩]

/-- The entry of a named profile goes when the system profile has no generation
of that number. -/
theorem live_entry_pruned : ¬ ∀ (gc : Option Nat) (profiles : BootProfiles) (boot : BootPartition),
    (∀ profile, ∀ e ∈ boot.entryFiles, profiles.LiveEntry profile e.name → e ∈ (pruned gc (.ok profiles.system) boot).entryFiles) ∧
      ∀ middle, ∀ f ∈ boot.ukiFiles, profiles.LiveUki middle f.name → f ∈ (pruned gc (.ok profiles.system) boot).ukiFiles := by
  intro h
  have hlive : testProfiles.LiveEntry (some "test") "nixos-test-generation-7.conf" :=
    ⟨7, by decide, ".conf", fun c hc => by cases hc; rfl, by decide⟩
  have hkept := (h none testProfiles ⟨some [⟨⟨"nixos-test-generation-7.conf", false⟩, "", true⟩], none, none⟩).1 (some "test")
    _ List.mem_cons_self hlive
  exact absurd hkept (by decide)

end Ekapkgs
