import Ekapkgs.EnvTrust
import Ekapkgs.Lib.Stores

/-!
# The client's stores

The commands that change a TOML store of the client, with the lock they take and
what they do to the content they have loaded. `config.rs` has a `load_locked` for
the manifests, and none for the services of an environment and the trust database.
-/

namespace Ekapkgs
open Runs Stores

/-! ## Packages -/

/-- An entry of `home-packages.toml` or `system-packages.toml`. -/
structure PackageEntry where
  name : String
  flake : Option String
  addedAt : Option String
  addedBy : Option String
  deriving DecidableEq

structure PackageManifest where
  version : Nat
  flake : String
  packages : List PackageEntry
  deriving DecidableEq

namespace PackageManifest

def add (m : PackageManifest) (entry : PackageEntry) : Option PackageManifest :=
  if m.packages.any fun p => p.name = entry.name then none else some { m with packages := m.packages ++ [entry] }

def remove (m : PackageManifest) (name : String) : PackageManifest := { m with packages := m.packages.filter fun p => p.name ≠ name }

/-- Imported entries win on name conflict. -/
def importFrom (m imported : PackageManifest) (merge : Bool) : PackageManifest :=
  if merge then { imported.packages.foldl (fun current entry => { current.remove entry.name with packages := (current.remove entry.name).packages ++ [entry] }) m with version := 1 }
  else { imported with version := 1 }

end PackageManifest

def always {σ : Type} (f : σ → σ) : σ → Update σ := fun c => .save (f c)

def orKeep {σ : Type} (f : σ → Option σ) : σ → Update σ := fun c => (f c).elim .keep .save

def orRefuse {σ : Type} (f : σ → Option σ) : σ → Update σ := fun c => (f c).elim .refuse .save

def locked {σ : Type} (updates : List (σ → Update σ)) : Command σ := ⟨true, updates, nofun⟩

def unlocked {σ : Type} (f : σ → Update σ) (h : ∀ c, f c ≠ .keep) : Command σ := ⟨false, [f], fun _ => ⟨f, rfl, h⟩⟩

theorem always_ne_keep {σ : Type} (f : σ → σ) (c : σ) : always f c ≠ .keep := nofun

theorem orRefuse_ne_keep {σ : Type} (f : σ → Option σ) (c : σ) : orRefuse f c ≠ .keep := by
  unfold orRefuse
  cases f c <;> exact nofun

inductive PackagesCommand where
  | add (entries : List PackageEntry)
  | remove (names : List String)
  | importFrom (imported : PackageManifest) (merge : Bool)

/-- `add` saves after each package. -/
def PackagesCommand.command : PackagesCommand → Command PackageManifest
  | .add entries => locked (entries.map fun entry => orKeep fun m => m.add entry)
  | .remove names => locked [always fun m => names.foldl PackageManifest.remove m]
  | .importFrom imported merge => locked [always fun m => m.importFrom imported merge]

/-! ## Home services -/

inductive TomlValue where
  | value (text : String)
  | table (entries : List (String × TomlValue))

abbrev TomlTable := List (String × TomlValue)

namespace TomlTable

def get? (t : TomlTable) (key : String) : Option TomlValue := (t.find? fun e => e.1 = key).map Prod.snd

def insert (t : TomlTable) (key : String) (v : TomlValue) : TomlTable := (t.filter fun e => e.1 ≠ key) ++ [(key, v)]

/-- Fails where an intermediate key is not a table. -/
def setConfig (v : TomlValue) : List String → TomlTable → Option TomlTable
  | [], _ => none
  | [leaf], t => some (insert t leaf v)
  | segment :: segments, t =>
    match get? t segment with
    | none => do
      let inner ← setConfig v segments []
      some (insert t segment (.table inner))
    | some (.table inner) => do
      let inner ← setConfig v segments inner
      some (insert t segment (.table inner))
    | some (.value _) => none

/-- Nothing where the key does not exist. -/
def unsetConfig : List String → TomlTable → Option TomlTable
  | [], _ => none
  | [leaf], t => if (get? t leaf).isSome then some (t.filter fun e => e.1 ≠ leaf) else none
  | segment :: segments, t =>
    match get? t segment with
    | some (.table inner) => do
      let inner ← unsetConfig segments inner
      some (insert t segment (.table inner))
    | _ => none

end TomlTable

structure HomeServiceEntry where
  name : String
  enable : Bool
  flake : Option String
  config : TomlTable

structure HomeServices where
  version : Nat
  flake : String
  services : List HomeServiceEntry

namespace HomeServices

def get (m : HomeServices) (name : String) : Option HomeServiceEntry := m.services.find? fun s => s.name = name

def add (m : HomeServices) (entry : HomeServiceEntry) : Option HomeServices :=
  if m.services.any fun s => s.name = entry.name then none else some { m with services := m.services ++ [entry] }

def remove (m : HomeServices) (name : String) : HomeServices := { m with services := m.services.filter fun s => s.name ≠ name }

/-- Through `get_mut`: the first entry of the name. -/
def modify (m : HomeServices) (name : String) (f : HomeServiceEntry → HomeServiceEntry) : HomeServices :=
  { m with services := m.services.modify (m.services.findIdx fun s => s.name = name) f }

def setEnable (enable : Bool) (m : HomeServices) (name : String) : HomeServices := m.modify name fun s => { s with enable }

def importFrom (m imported : HomeServices) (merge : Bool) : HomeServices :=
  if merge then
    imported.services.foldl (fun current entry => { current.remove entry.name with services := (current.remove entry.name).services ++ [entry] }) m
  else imported

end HomeServices

inductive HomeServicesCommand where
  | add (entry : HomeServiceEntry)
  | remove (names : List String)
  | set (service key : String) (value : TomlValue)
  | unset (service key : String)
  | enable (names : List String)
  | disable (names : List String)
  | importFrom (imported : HomeServices) (merge : Bool)

def HomeServicesCommand.command : HomeServicesCommand → Command HomeServices
  | .add entry => locked [orRefuse fun m => m.add entry]
  | .remove names => locked [always fun m => names.foldl HomeServices.remove m]
  | .set service key value => locked [orRefuse fun m => do
      let entry ← m.get service
      let config ← TomlTable.setConfig value (split '.' key) entry.config
      some (m.modify service fun s => { s with config })]
  | .unset service key => locked [fun m =>
      match m.get service with
      | none => .refuse
      | some entry =>
        match TomlTable.unsetConfig (split '.' key) entry.config with
        | none => .keep
        | some config => .save (m.modify service fun s => { s with config })]
  | .enable names => locked [always fun m => names.foldl (HomeServices.setEnable true) m]
  | .disable names => locked [always fun m => names.foldl (HomeServices.setEnable false) m]
  | .importFrom imported merge => locked [always fun m => m.importFrom imported merge]

/-! ## Environments -/

inductive EnvManifestCommand where
  | init (flake : String)
  | add (entries : List EnvPackageEntry)
  | remove (names : List String)
  | flakeAdd (entry : EnvFlakeEntry)
  | flakeRemove (ref : String)
  | flakePin (ref rev : String)

/-- `load_from` fails where there is no manifest. -/
def requireManifest : Option EnvManifest → Update (Option EnvManifest)
  | none => .refuse
  | some _ => .keep

def onManifest (f : EnvManifest → Update EnvManifest) : Option EnvManifest → Update (Option EnvManifest)
  | none => .refuse
  | some m =>
    match f m with
    | .refuse => .refuse
    | .keep => .keep
    | .save m' => .save (some m')

def EnvManifest.pin (m : EnvManifest) (ref rev : String) : Option EnvManifest :=
  if m.flakes.any fun f => f.ref = ref then
    some { m with flakes := m.flakes.modify (m.flakes.findIdx fun f => f.ref = ref) fun f => { f with rev := some rev } }
  else none

/-- `init` takes no lock, and refuses when the file exists. -/
def EnvManifestCommand.command : EnvManifestCommand → Command (Option EnvManifest)
  | .init flake => unlocked (orRefuse fun o => if o.isSome then none else some (some { EnvManifest.default with flake })) (orRefuse_ne_keep _)
  | .add entries => locked (requireManifest :: entries.map fun entry => onManifest (orKeep fun m => m.add entry))
  | .remove names => locked [onManifest (always fun m => names.foldl EnvManifest.remove m)]
  | .flakeAdd entry => locked [onManifest (orKeep fun m => m.addFlake entry)]
  | .flakeRemove ref => locked [onManifest (orKeep fun m => m.removeFlake ref)]
  | .flakePin ref rev => locked [onManifest (orRefuse fun m => m.pin ref rev)]

structure EnvServiceEntry where
  name : String
  command : String
  args : String
  description : String
  port : Option Nat
  workingDir : Option String
  healthCheck : Option String
  stopSignal : Option String
  deriving DecidableEq

structure EnvServices where
  version : Nat
  services : List EnvServiceEntry
  deriving DecidableEq

namespace EnvServices

def add (m : EnvServices) (entry : EnvServiceEntry) : Option EnvServices :=
  if m.services.any fun s => s.name = entry.name then none else some { m with services := m.services ++ [entry] }

def remove (m : EnvServices) (name : String) : EnvServices := { m with services := m.services.filter fun s => s.name ≠ name }

end EnvServices

inductive EnvServicesCommand where
  | add (entry : EnvServiceEntry)
  | remove (names : List String)

def EnvServicesCommand.command : EnvServicesCommand → Command EnvServices
  | .add entry => unlocked (orRefuse fun m => m.add entry) (orRefuse_ne_keep _)
  | .remove names => unlocked (always fun m => names.foldl EnvServices.remove m) (always_ne_keep _)

/-- With the hash that `content_hash` returns. -/
inductive TrustedEnvsCommand (D H : Type) where
  | allow (dir : D) (hash : H)
  | disallow (dir : D)
  | reload (dir : D) (hash : H)

section
variable {D H : Type} [DecidableEq D]

def TrustedEnvsCommand.command : TrustedEnvsCommand D H → Command (TrustedEnvs D H)
  | .allow dir hash => unlocked (always fun t => Function.update t dir (some hash)) (always_ne_keep _)
  | .disallow dir => unlocked (always fun t => t.disallow dir) (always_ne_keep _)
  | .reload dir hash => unlocked (always fun t => Function.update t dir (some hash)) (always_ne_keep _)

end

/-! ## All stores -/

inductive ClientStore where
  | homePackages | systemPackages | homeServices | envManifest | envServices | trustedEnvs
  deriving DecidableEq

variable (D H : Type)

def ClientStore.Content : ClientStore → Type
  | .homePackages | .systemPackages => PackageManifest
  | .homeServices => HomeServices
  | .envManifest => Option EnvManifest
  | .envServices => EnvServices
  | .trustedEnvs => TrustedEnvs D H

def ClientStore.Commands : ClientStore → Type
  | .homePackages | .systemPackages => PackagesCommand
  | .homeServices => HomeServicesCommand
  | .envManifest => EnvManifestCommand
  | .envServices => EnvServicesCommand
  | .trustedEnvs => TrustedEnvsCommand D H

variable {D H} [DecidableEq D]

def ClientStore.command : (store : ClientStore) → store.Commands D H → Command (store.Content D H)
  | .homePackages | .systemPackages => PackagesCommand.command
  | .homeServices => HomeServicesCommand.command
  | .envManifest => EnvManifestCommand.command
  | .envServices => EnvServicesCommand.command
  | .trustedEnvs => TrustedEnvsCommand.command

/-- Every command of the store takes its lock. -/
def ClientStore.Locks : ClientStore → Bool
  | .homePackages | .systemPackages | .homeServices => true
  | _ => false

theorem locks_command {store : ClientStore} (h : store.Locks = true) (command : store.Commands D H) : (store.command command).locks = true := by
  cases store with
  | homePackages | systemPackages =>
    obtain ⟨⟩ | ⟨⟩ | ⟨⟩ := (command : PackagesCommand) <;> rfl
  | homeServices =>
    obtain ⟨⟩ | ⟨⟩ | ⟨⟩ | ⟨⟩ | ⟨⟩ | ⟨⟩ | ⟨⟩ := (command : HomeServicesCommand) <;> rfl
  | _ => cases h

/-! ## No update is lost -/

/-- No command fails after it has saved, and where not all commands lock, nothing is
saved between a command's load and its update. -/
def NothingBetween {σ ι : Type} (store : ClientStore) (s : Store σ ι) (e : Stores.Event ι) : Prop :=
  Whole s e ∧ (store.Locks = true ∨ UpToDate s e)

abbrev clientStep {ι : Type} [DecidableEq ι] {store : ClientStore} (commands : ι → store.Commands D H) :
    Store (store.Content D H) ι → Stores.Event ι → Store (store.Content D H) ι → Prop :=
  Step fun i => store.command (commands i)

section
variable {ι : Type} [DecidableEq ι]

abbrev trustStep (commands : ι → TrustedEnvsCommand D H) : Store (TrustedEnvs D H) ι → Stores.Event ι → Store (TrustedEnvs D H) ι → Prop :=
  @clientStep D H _ ι _ .trustedEnvs commands

theorem careful_of_nothingBetween {store : ClientStore} {commands : ι → store.Commands D H} {s s' : Store (store.Content D H) ι} {e : Stores.Event ι}
    (h : guarded (clientStep commands) (NothingBetween store) s e s') :
    guarded (clientStep commands) (Careful fun i => store.command (commands i)) s e s' :=
  ⟨⟨h.1.1, h.1.2.imp_left fun hlocks i => locks_command hlocks (commands i)⟩, h.2⟩

/-- When a command without the lock has saved, whatever else was loaded is out of date. -/
theorem late_of_save {σ : Type} {commands : ι → Command σ} {u t : Store σ ι} {i : ι} (hinv : Inv commands u) (hunlocked : (commands i).locks = false)
    (hstep : Step commands u (.step i) t) (hversion : u.version < t.version) : ∀ j, (t.phase j).Late t.version := by
  intro j c seen f rest saved hj
  cases hstep with
  | @save _ c₁ c' seen₁ g rest₁ saved₁ hphase =>
    dsimp only at hj
    rw [Store.goto_phase] at hj
    split_ifs at hj with heq
    · cases hj
      have hlength := (hinv.loaded i c₁ seen₁ _ saved₁ hphase).suffix.length_le
      obtain ⟨h, hupdates, -⟩ := (commands i).single hunlocked
      rw [hupdates] at hlength
      simp at hlength
    · exact Nat.lt_succ_of_le (hinv.loaded j c seen _ saved hj).seen_le
  | _ => exact absurd hversion (Nat.lt_irrefl _)

theorem disallow_saves {commands : ι → TrustedEnvsCommand D H} {u t : Store (TrustedEnvs D H) ι} {i : ι} {dir : D}
    (hinv : Inv (fun i => (commands i).command) u) (hi : commands i = .disallow dir) (hstep : Step (fun i => (commands i).command) u (.step i) t)
    (hversion : u.version < t.version) : t.content dir = none := by
  cases hstep with
  | @save _ c c' seen f rest saved hphase hsave =>
    have hmem : f ∈ (commands i).command.updates := (hinv.loaded i c seen _ saved hphase).suffix.subset (List.mem_cons_self ..)
    rw [hi] at hmem
    cases List.mem_singleton.mp hmem
    cases hsave
    exact Function.update_self ..
  | _ => exact absurd hversion (Nat.lt_irrefl _)

/-- Only `allow` and `reload` of a directory end that it is not trusted. -/
theorem breaks_untrusted {command : TrustedEnvsCommand D H} {dir : D} (h : command.command.Breaks fun t => t dir = none) :
    ∃ hash, command = .allow dir hash ∨ command = .reload dir hash := by
  obtain ⟨f, hf, c, c', hc, hsave, hc'⟩ := h
  cases command with
  | allow dir' hash =>
    cases List.mem_singleton.mp hf
    cases hsave
    refine ⟨hash, .inl ?_⟩
    by_contra hne
    have hdir : dir ≠ dir' := fun heq => hne (by rw [heq])
    exact hc' ((Function.update_of_ne hdir ..).trans hc)
  | reload dir' hash =>
    cases List.mem_singleton.mp hf
    cases hsave
    refine ⟨hash, .inr ?_⟩
    by_contra hne
    have hdir : dir ≠ dir' := fun heq => hne (by rw [heq])
    exact hc' ((Function.update_of_ne hdir ..).trans hc)
  | disallow dir' =>
    cases List.mem_singleton.mp hf
    cases hsave
    refine absurd ?_ hc'
    dsimp only [TrustedEnvs.disallow]
    rw [Function.update_apply]
    split_ifs
    · rfl
    · exact hc

/-- The commands that succeed have the effect of running one after the other, and a
directory that was disallowed is trusted again only by a command that loads later. -/
theorem clientStores_noLostUpdate :
    (∀ (store : ClientStore) (commands : ι → store.Commands D H) (c₀ : store.Content D H) (es : List (Stores.Event ι)) (s : Store (store.Content D H) ι),
      Run (guarded (clientStep commands) (NothingBetween store)) (.start c₀) es s → (∀ i, ∃ ok, s.phase i = .done ok) →
      ∃ order : List ι, order.Nodup ∧ (∀ i, i ∈ order ↔ s.phase i = .done true) ∧
        runAll (fun i => store.command (commands i)) order c₀ = some s.content) ∧
    ∀ (commands : ι → TrustedEnvsCommand D H) (c₀ : TrustedEnvs D H) (before after : List (Stores.Event ι)) (u t s : Store (TrustedEnvs D H) ι) (i : ι) (dir : D),
      Run (guarded (trustStep commands) (NothingBetween .trustedEnvs)) (.start c₀) before u →
      guarded (trustStep commands) (NothingBetween .trustedEnvs) u (.step i) t →
      commands i = .disallow dir → u.version < t.version →
      Run (guarded (trustStep commands) (NothingBetween .trustedEnvs)) t after s →
      s.content dir = none ∨ ∃ j hash, (t.phase j).Unloaded ∧ (s.phase j).Saved ∧ (commands j = .allow dir hash ∨ commands j = .reload dir hash) := by
  constructor
  · intro store commands c₀ es s hrun hdone
    exact serializable (hrun.mono fun _ _ _ => careful_of_nothingBetween) hdone
  · intro commands c₀ before after u t s i dir hbefore hstep hi hversion hafter
    have hu := hbefore.mono fun _ _ _ => careful_of_nothingBetween
    have ht := careful_of_nothingBetween hstep
    have hs := hafter.mono fun _ _ _ => careful_of_nothingBetween
    have hinv := hu.invariant (I := Inv fun i => (commands i).command) (fun _ _ _ h hstep => h.step hstep.2) (inv_start c₀)
    have hlate : ∀ j, (t.phase j).Late t.version := late_of_save hinv (by rw [hi]; rfl) ht.2 hversion
    rcases kept_run (P := fun trusted => trusted dir = none) (hu.append (.cons ht (.nil t))) hs (disallow_saves hinv hi ht.2 hversion) hlate with
      hkept | ⟨j, hunloaded, hsaved, hbreaks⟩
    · exact .inl hkept
    · obtain ⟨hash, hj⟩ := breaks_untrusted hbreaks
      exact .inr ⟨j, hash, hunloaded, hsaved, hj⟩

end

/-! ## Two commands on the trust database -/

def twoTrustCommands : Bool → ClientStore.trustedEnvs.Commands Bool Nat := fun i => if i then TrustedEnvsCommand.disallow false else TrustedEnvsCommand.allow true 7

def oneTrusted : TrustedEnvs Bool Nat := fun dir => if dir then none else some 3

def loadBoth : List (Stores.Event Bool) := [.step false, .step true, .step true, .step true, .step false, .step false]

theorem disallow_undone_run : ∃ s, Run (clientStep twoTrustCommands) (.start oneTrusted) loadBoth s ∧ (∀ i, s.phase i = .done true) ∧
    (s.content : TrustedEnvs Bool Nat) false = some 3 := by
  refine ⟨_, .cons (.load (.inl ⟨rfl, rfl⟩)) (.cons (.load (.inl ⟨rfl, rfl⟩)) (.cons (.save rfl rfl) (.cons (.finish rfl) (.cons (.save rfl rfl)
    (.cons (.finish rfl) (.nil _)))))), fun i => ?_, rfl⟩
  cases i <;> rfl

theorem nothingBetween_of {σ : Type} {store : ClientStore} {s : Store σ Bool} {i : Bool}
    (h : ∀ c seen f rest saved, s.phase i = .loaded c seen (f :: rest) saved → saved = false ∧ seen = s.version) : NothingBetween store s (.step i) :=
  ⟨fun c seen f rest hphase => absurd (h c seen f rest true hphase).1 nofun, .inr fun c seen f rest saved hphase _ => (h c seen f rest saved hphase).2⟩

abbrev inTurnStep : Store (TrustedEnvs Bool Nat) Bool → Stores.Event Bool → Store (TrustedEnvs Bool Nat) Bool → Prop :=
  guarded (trustStep twoTrustCommands) (NothingBetween .trustedEnvs)

theorem inTurnStep_of {s t : Store (TrustedEnvs Bool Nat) Bool} {i : Bool} (hstep : trustStep twoTrustCommands s (.step i) t)
    (h : ∀ c seen f rest saved, s.phase i = .loaded c seen (f :: rest) saved → saved = false ∧ seen = s.version) : inTurnStep s (.step i) t :=
  ⟨nothingBetween_of h, hstep⟩

/-- The disallow is done before the allow loads. -/
theorem clientStores_noLostUpdate_inTurn : ∃ (s : Store (TrustedEnvs Bool Nat) Bool) (order : List Bool),
    runAll (fun i => ClientStore.trustedEnvs.command (twoTrustCommands i)) order oneTrusted = some s.content ∧
    (s.content false = none ∨ ∃ j hash, twoTrustCommands j = .allow false hash ∨ twoTrustCommands j = .reload false hash) := by
  obtain ⟨u, t, s, hbefore, hsave, hversion, hafter, hdone⟩ : ∃ u t s, Run inTurnStep (.start oneTrusted) [.step true] u ∧ inTurnStep u (.step true) t ∧
      u.version < t.version ∧ Run inTurnStep t [.step true, .step false, .step false, .step false] s ∧ ∀ i, s.phase i = .done true := by
    refine ⟨_, _, _, .cons (inTurnStep_of (.load (.inl ⟨rfl, rfl⟩)) nofun) (.nil _), inTurnStep_of (.save rfl rfl) ?_, Nat.zero_lt_one,
      .cons (inTurnStep_of (.finish rfl) nofun) (.cons (inTurnStep_of (.load (.inl ⟨rfl, rfl⟩)) nofun) (.cons (inTurnStep_of (.save rfl rfl) ?_)
        (.cons (inTurnStep_of (.finish rfl) nofun) (.nil _)))), fun i => ?_⟩
    · intro c seen f rest saved h
      cases h
      exact ⟨rfl, rfl⟩
    · intro c seen f rest saved h
      cases h
      exact ⟨rfl, rfl⟩
    · cases i <;> rfl
  obtain ⟨hserial, hkept⟩ := @clientStores_noLostUpdate Bool Nat _ Bool _
  obtain ⟨order, -, -, hruns⟩ := hserial .trustedEnvs twoTrustCommands oneTrusted _ s (hbefore.append (.cons hsave hafter)) fun i => ⟨true, hdone i⟩
  refine ⟨s, order, hruns, ?_⟩
  rcases hkept twoTrustCommands oneTrusted _ _ u t s true false hbefore hsave rfl hversion hafter with hnone | ⟨j, hash, -, -, hj⟩
  · exact .inl hnone
  · exact .inr ⟨j, hash, hj⟩

/-- A directory is disallowed, and another one, allowed by a command that had loaded
before, brings the old entry back. -/
theorem disallow_undone : ¬ ∀ (es : List (Stores.Event Bool)) (s : Store (TrustedEnvs Bool Nat) Bool), Run (clientStep twoTrustCommands) (.start oneTrusted) es s →
    (∀ i, ∃ ok, s.phase i = .done ok) → ∃ order : List Bool, order.Nodup ∧ (∀ i, i ∈ order ↔ s.phase i = .done true) ∧
      runAll (fun i => ClientStore.trustedEnvs.command (twoTrustCommands i)) order oneTrusted = some s.content := by
  intro h
  obtain ⟨s, hrun, hdone, hcontent⟩ := disallow_undone_run
  obtain ⟨order, hnodup, hmem, hruns⟩ := h loadBoth s hrun fun i => ⟨true, hdone i⟩
  have hall (i : Bool) : i ∈ order := (hmem i).mpr (hdone i)
  have horder : order = [false, true] ∨ order = [true, false] := by
    match order, hnodup, hall with
    | [], _, hall => exact absurd (hall true) List.not_mem_nil
    | [a], _, hall => cases a <;> simp at hall
    | [a, b], hnodup, _ => cases a <;> cases b <;> simp at hnodup ⊢
    | a :: b :: c :: rest, hnodup, _ => cases a <;> cases b <;> cases c <;> simp at hnodup
  have hlost : ∀ order ∈ [[false, true], [true, false]], ∀ trusted : TrustedEnvs Bool Nat,
      runAll (fun i => ClientStore.trustedEnvs.command (twoTrustCommands i)) order oneTrusted = some trusted → trusted false = none := by
    intro order horder trusted hruns
    rcases List.mem_pair.mp horder with rfl | rfl <;> cases hruns <;> rfl
  have := hlost order (by rcases horder with rfl | rfl <;> simp) s.content hruns
  rw [hcontent] at this
  cases this

end Ekapkgs
