import Ekapkgs.ClientStores

/-!
# Dotted configuration keys

`set_config` and `unset_config` of `config.rs`, and `services add`, which sets keys
over the defaults of a template. On the way to the last segment of a key the walk
expects tables, and `set_config` panics at a value that is not one.
-/

namespace Ekapkgs

namespace TomlTable

/-! ## One table -/

theorem get?_insert_self (t : TomlTable) (key : String) (v : TomlValue) : get? (insert t key v) key = some v := by
  have hnone : (t.filter fun e => e.1 ≠ key).find? (fun e => e.1 = key) = none := by
    rw [List.find?_filter]
    simp
  unfold get? insert
  rw [List.find?_append, hnone]
  simp

theorem get?_filter_of_ne {t : TomlTable} {key q : String} (h : q ≠ key) : get? (t.filter fun e => e.1 ≠ key) q = get? t q := by
  unfold get?
  rw [List.find?_filter]
  congr 2
  funext e
  by_cases he : e.1 = q
  · subst he
    simp [h]
  · simp [he]

theorem get?_filter_self (t : TomlTable) (key : String) : get? (t.filter fun e => e.1 ≠ key) key = none := by
  unfold get?
  rw [List.find?_filter]
  simp

theorem get?_insert_of_ne {t : TomlTable} {key q : String} (v : TomlValue) (h : q ≠ key) : get? (insert t key v) q = get? t q := by
  refine Eq.trans ?_ (get?_filter_of_ne h)
  unfold get? insert
  rw [List.find?_append]
  cases (t.filter fun e => e.1 ≠ key).find? (fun e => e.1 = q) with
  | some e => rfl
  | none => simp [h.symm]

/-! ## The walk -/

/-- The value found by following the segments. -/
def follow : List String → TomlValue → Option TomlValue
  | [], v => some v
  | segment :: segments, .table t => (get? t segment).bind (follow segments)
  | _ :: _, .value _ => none

/-- No value that is not a table stands before the last segment. -/
def Passable (segments : List String) (t : TomlTable) : Prop :=
  ∀ p rest, rest ≠ [] → p ++ rest = segments → ∀ text, follow p (.table t) ≠ some (.value text)

/-- The table that the walk goes on in, a new one where there is none. -/
def entered (t : TomlTable) (segment : String) : Option TomlTable :=
  match get? t segment with
  | none => some []
  | some (.table inner) => some inner
  | some (.value _) => none

variable {v : TomlValue} {t t' inner : TomlTable} {segment : String} {segments q : List String}

theorem setConfig_cons (h : segments ≠ []) : setConfig v (segment :: segments) t =
    (entered t segment).bind fun inner => (setConfig v segments inner).map fun inner' => insert t segment (.table inner') := by
  rw [setConfig]
  · unfold entered
    cases get? t segment with
    | none => cases hinner : setConfig v segments [] <;> simp [hinner]
    | some w =>
      cases w with
      | value text => rfl
      | table inner => cases hinner : setConfig v segments inner <;> simp [hinner]
  · exact h

theorem follow_nil_table : q ≠ [] → follow q (.table []) = none := by
  intro hq
  cases q with
  | nil => exact absurd rfl hq
  | cons _ _ => rfl

theorem follow_entered (h : entered t segment = some inner) (hq : q ≠ []) : follow (segment :: q) (.table t) = follow q (.table inner) := by
  unfold entered at h
  rw [follow]
  cases hget : get? t segment with
  | none =>
    rw [hget] at h
    cases h
    exact (follow_nil_table hq).symm
  | some w =>
    rw [hget] at h
    cases w with
    | value text => cases h
    | table inner' => cases h; rfl

theorem follow_singleton (t : TomlTable) (segment : String) : follow [segment] (.table t) = get? t segment := by
  rw [follow]
  cases get? t segment <;> rfl

theorem follow_insert (t : TomlTable) (segment : String) (w : TomlValue) (q : List String) :
    follow (segment :: q) (.table (insert t segment w)) = follow q w := by
  rw [follow, get?_insert_self]
  rfl

theorem follow_insert_of_ne {s : String} (h : s ≠ segment) (w : TomlValue) (q : List String) :
    follow (s :: q) (.table (insert t segment w)) = follow (s :: q) (.table t) := by
  rw [follow, follow, get?_insert_of_ne w h]

theorem passable_singleton (segment : String) (t : TomlTable) : Passable [segment] t := by
  intro p rest hrest hsplit text
  cases p with
  | nil => exact nofun
  | cons c p =>
    obtain ⟨-, hempty⟩ := List.cons.inj hsplit
    exact absurd (List.append_eq_nil_iff.mp hempty).2 hrest

theorem passable_cons (h : segments ≠ []) : Passable (segment :: segments) t ↔ ∃ inner, entered t segment = some inner ∧ Passable segments inner := by
  constructor
  · intro hpass
    cases hentered : entered t segment with
    | none =>
      unfold entered at hentered
      have hvalue := hpass [segment] segments h rfl
      rw [follow_singleton] at hvalue
      split at hentered
      · cases hentered
      · cases hentered
      · next text hget => exact absurd hget (hvalue text)
    | some inner =>
      refine ⟨inner, rfl, fun p rest hrest hsplit text => ?_⟩
      cases p with
      | nil => exact nofun
      | cons c p =>
        rw [← follow_entered hentered (List.cons_ne_nil c p)]
        exact hpass (segment :: c :: p) rest hrest (by rw [← hsplit]; rfl) text
  · rintro ⟨inner, hentered, hpass⟩ p rest hrest hsplit text
    cases p with
    | nil => exact nofun
    | cons c p =>
      obtain ⟨rfl, htail⟩ := List.cons.inj hsplit
      by_cases hp : p = []
      · subst hp
        rw [follow_singleton]
        intro hget
        unfold entered at hentered
        rw [hget] at hentered
        cases hentered
      · rw [follow_entered hentered hp]
        exact hpass p rest hrest htail text

/-! ## What `set_config` leaves -/

theorem setConfig_isSome (v : TomlValue) : ∀ {segments : List String} {t : TomlTable}, segments ≠ [] →
    ((setConfig v segments t).isSome = true ↔ Passable segments t)
  | [], _, h => absurd rfl h
  | [leaf], t, _ => iff_of_true rfl (passable_singleton leaf t)
  | segment :: next :: segments, t, _ => by
    have hne : next :: segments ≠ [] := nofun
    rw [setConfig_cons hne, passable_cons hne]
    cases entered t segment with
    | none => simp
    | some inner =>
      rw [Option.bind_some, Option.isSome_map, setConfig_isSome v hne]
      simp

theorem follow_setConfig : ∀ {segments : List String} {t t' : TomlTable}, setConfig v segments t = some t' → follow segments (.table t') = some v
  | [], _, _, h => by cases h
  | [leaf], t, _, h => by
    cases h
    exact follow_insert t leaf v []
  | segment :: next :: segments, t, _, h => by
    rw [setConfig_cons (List.cons_ne_nil _ _)] at h
    obtain ⟨inner, -, h⟩ := Option.bind_eq_some_iff.mp h
    obtain ⟨inner', hset, rfl⟩ := Option.map_eq_some_iff.mp h
    rw [follow_insert]
    exact follow_setConfig hset

/-- Keys of which neither is a prefix of the other. -/
def Unrelated (q segments : List String) : Prop := ¬ q <+: segments ∧ ¬ segments <+: q

theorem Unrelated.cons {c s : String} (h : Unrelated (c :: q) (s :: segments)) : c ≠ s ∨ Unrelated q segments := by
  by_cases hc : c = s
  · subst hc
    exact .inr ⟨fun hpre => h.1 (List.cons_prefix_cons.mpr ⟨rfl, hpre⟩), fun hpre => h.2 (List.cons_prefix_cons.mpr ⟨rfl, hpre⟩)⟩
  · exact .inl hc

theorem Unrelated.ne_nil (h : Unrelated q segments) : q ≠ [] := by
  rintro rfl
  exact h.1 List.nil_prefix

theorem follow_setConfig_of_unrelated : ∀ {segments q : List String} {t t' : TomlTable}, Unrelated q segments →
    setConfig v segments t = some t' → follow q (.table t') = follow q (.table t)
  | _, [], _, _, hq, _ => absurd rfl hq.ne_nil
  | [], _, _, _, _, h => by cases h
  | [leaf], c :: q, t, _, hq, h => by
    cases h
    rcases hq.cons with hc | hq
    · exact follow_insert_of_ne hc v q
    · exact absurd List.nil_prefix hq.2
  | segment :: next :: segments, c :: q, t, _, hq, h => by
    rw [setConfig_cons (List.cons_ne_nil _ _)] at h
    obtain ⟨inner, hentered, h⟩ := Option.bind_eq_some_iff.mp h
    obtain ⟨inner', hset, rfl⟩ := Option.map_eq_some_iff.mp h
    by_cases hc : c = segment
    · subst hc
      have hq' := hq.cons.resolve_left (· rfl)
      rw [follow_insert, follow_entered hentered hq'.ne_nil]
      exact follow_setConfig_of_unrelated hq' hset
    · exact follow_insert_of_ne hc _ q

/-! ## What `unset_config` leaves -/

theorem unsetConfig_cons (h : segments ≠ []) : unsetConfig (segment :: segments) t =
    match get? t segment with
    | some (.table inner) => (unsetConfig segments inner).map fun inner' => insert t segment (.table inner')
    | _ => none := by
  rw [unsetConfig]
  · cases get? t segment with
    | none => rfl
    | some w =>
      cases w with
      | value text => rfl
      | table inner => cases hinner : unsetConfig segments inner <;> simp [hinner]
  · exact h

theorem unsetConfig_cons_some (hne : segments ≠ []) (h : unsetConfig (segment :: segments) t = some t') :
    ∃ inner inner', get? t segment = some (.table inner) ∧ unsetConfig segments inner = some inner' ∧ t' = insert t segment (.table inner') := by
  rw [unsetConfig_cons hne] at h
  split at h
  · next inner hget =>
    obtain ⟨inner', hunset, rfl⟩ := Option.map_eq_some_iff.mp h
    exact ⟨inner, inner', hget, hunset, rfl⟩
  · cases h

theorem follow_unsetConfig : ∀ {segments : List String} {t t' : TomlTable}, unsetConfig segments t = some t' → follow segments (.table t') = none
  | [], _, _, h => by cases h
  | [leaf], t, _, h => by
    rw [unsetConfig] at h
    split at h
    · cases h
      rw [follow_singleton]
      exact get?_filter_self t leaf
    · cases h
  | segment :: next :: segments, t, _, h => by
    obtain ⟨inner, inner', -, hunset, rfl⟩ := unsetConfig_cons_some (List.cons_ne_nil _ _) h
    rw [follow_insert]
    exact follow_unsetConfig hunset

/-- Where nothing is removed, nothing is found. -/
theorem follow_of_unsetConfig_none : ∀ {segments : List String} {t : TomlTable}, segments ≠ [] → unsetConfig segments t = none →
    follow segments (.table t) = none
  | [], _, hne, _ => absurd rfl hne
  | [leaf], t, _, h => by
    rw [unsetConfig] at h
    split at h
    · cases h
    · next hnone =>
      rw [follow_singleton]
      exact Option.not_isSome_iff_eq_none.mp hnone
  | segment :: next :: segments, t, _, h => by
    rw [unsetConfig_cons (List.cons_ne_nil _ _)] at h
    rw [follow]
    cases hget : get? t segment with
    | none => rfl
    | some w =>
      cases w with
      | value text => rfl
      | table inner =>
        rw [hget] at h
        exact follow_of_unsetConfig_none (List.cons_ne_nil _ _) (Option.map_eq_none_iff.mp h)

theorem follow_unsetConfig_of_unrelated : ∀ {segments q : List String} {t t' : TomlTable}, Unrelated q segments →
    unsetConfig segments t = some t' → follow q (.table t') = follow q (.table t)
  | _, [], _, _, hq, _ => absurd rfl hq.ne_nil
  | [], _, _, _, _, h => by cases h
  | [leaf], c :: q, t, _, hq, h => by
    have hc : c ≠ leaf := hq.cons.resolve_right fun hq => hq.2 List.nil_prefix
    rw [unsetConfig] at h
    split at h
    · cases h
      rw [follow, follow, get?_filter_of_ne hc]
    · cases h
  | segment :: next :: segments, c :: q, t, _, hq, h => by
    obtain ⟨inner, inner', hget, hunset, rfl⟩ := unsetConfig_cons_some (List.cons_ne_nil _ _) h
    by_cases hc : c = segment
    · subst hc
      have hq' := hq.cons.resolve_left (· rfl)
      rw [follow_insert, follow_unsetConfig_of_unrelated hq' hunset, follow, hget]
      rfl
    · exact follow_insert_of_ne hc _ q

end TomlTable

open TomlTable

/-! ## Calls -/

inductive ConfigCall where
  | setConfig (key : String) (value : TomlValue)
  | unsetConfig (key : String)

namespace ConfigCall

def segments : ConfigCall → List String
  | .setConfig key _ | .unsetConfig key => split '.' key

/-- `none` where the call panics. -/
def run : ConfigCall → TomlTable → Option TomlTable
  | .setConfig key value, t => TomlTable.setConfig value (split '.' key) t
  | .unsetConfig key, t => some ((TomlTable.unsetConfig (split '.' key) t).getD t)

/-- What is to be found at the key after the call. -/
def wanted : ConfigCall → Option TomlValue
  | .setConfig _ value => some value
  | .unsetConfig _ => none

/-- A value is set where tables, or nothing, stand before the last segment. -/
def Walks : ConfigCall → TomlTable → Prop
  | .setConfig key _, t => Passable (split '.' key) t
  | .unsetConfig _, _ => True

end ConfigCall

variable {call : ConfigCall} {calls : List ConfigCall} {t t' : TomlTable}

/-- The call changes what is at its key, and nothing at the keys unrelated to it. -/
structure ConfigCall.Lawful (call : ConfigCall) (t t' : TomlTable) : Prop where
  at_key : follow call.segments (.table t') = call.wanted
  frame : ∀ q, Unrelated q call.segments → follow q (.table t') = follow q (.table t)

theorem segments_ne_nil (call : ConfigCall) : call.segments ≠ [] := by
  cases call <;> exact fun h => List.splitOn_ne_nil _ _ (List.map_eq_nil_iff.mp h)

theorem run_isSome : (call.run t).isSome = true ↔ call.Walks t := by
  cases call with
  | setConfig key value => exact setConfig_isSome value (segments_ne_nil (.setConfig key value))
  | unsetConfig key => exact iff_of_true rfl trivial

theorem lawful_of_run (h : call.run t = some t') : call.Lawful t t' := by
  cases call with
  | setConfig key value => exact ⟨follow_setConfig h, fun q hq => follow_setConfig_of_unrelated hq h⟩
  | unsetConfig key =>
    cases h
    cases hunset : TomlTable.unsetConfig (split '.' key) t with
    | none => exact ⟨follow_of_unsetConfig_none (segments_ne_nil (.unsetConfig key)) hunset, fun _ _ => rfl⟩
    | some t' => exact ⟨follow_unsetConfig hunset, fun q hq => follow_unsetConfig_of_unrelated hq hunset⟩

/-! ## Runs -/

def runCalls (calls : List ConfigCall) (t : TomlTable) : Option TomlTable := calls.foldlM (fun t call => call.run t) t

/-- Each call of the run, in the table that it meets. -/
def AlongRun (P : ConfigCall → TomlTable → Prop) (calls : List ConfigCall) (t : TomlTable) : Prop :=
  ∀ before call after u, calls = before ++ call :: after → runCalls before t = some u → P call u

theorem AlongRun.before {P : ConfigCall → TomlTable → Prop} {before after : List ConfigCall} (h : AlongRun P (before ++ after) t) :
    AlongRun P before t := by
  intro b call a u hsplit hrun
  exact h b call (a ++ after) u (by rw [hsplit, List.append_assoc, List.cons_append]) hrun

theorem AlongRun.tail {P : ConfigCall → TomlTable → Prop} (h : AlongRun P (call :: calls) t) (hrun : call.run t = some t') : AlongRun P calls t' := by
  intro before c after u hsplit hbefore
  refine h (call :: before) c after u (by rw [hsplit]; rfl) ?_
  rw [runCalls, List.foldlM_cons, hrun]
  exact hbefore

/-- No call panics where each one can walk to its last segment. -/
theorem runCalls_isSome : ∀ {calls : List ConfigCall} {t : TomlTable}, AlongRun ConfigCall.Walks calls t → (runCalls calls t).isSome = true
  | [], _, _ => rfl
  | call :: calls, t, h => by
    obtain ⟨t', hrun⟩ := Option.isSome_iff_exists.mp (run_isSome.mpr (h [] call calls t rfl rfl))
    rw [runCalls, List.foldlM_cons, hrun]
    exact runCalls_isSome (h.tail hrun)

/-- What stands at a key is there until a call on a related key. -/
theorem follow_runCalls {q : List String} : ∀ {calls : List ConfigCall} {t t' : TomlTable}, (∀ call ∈ calls, Unrelated q call.segments) →
    runCalls calls t = some t' → follow q (.table t') = follow q (.table t)
  | [], _, _, _, h => by cases h; rfl
  | call :: calls, t, t', hq, h => by
    rw [runCalls, List.foldlM_cons] at h
    obtain ⟨u, hrun, hrest⟩ := Option.bind_eq_some_iff.mp h
    obtain ⟨hcall, hcalls⟩ := List.forall_mem_cons.mp hq
    rw [follow_runCalls hcalls hrest]
    exact (lawful_of_run hrun).frame q hcall

/-- Calls keep the laws of a nested map, and do not panic, exactly when no value that
is set has another value, one that is not a table, on the way to it. -/
theorem configCalls_lawful_iff (calls : List ConfigCall) (t : TomlTable) :
    (∀ before call after, calls = before ++ call :: after →
      ∃ u t', runCalls before t = some u ∧ call.run u = some t' ∧ call.Lawful u t') ↔ AlongRun ConfigCall.Walks calls t := by
  constructor
  · intro h before call after u hsplit hbefore
    obtain ⟨u', t', hbefore', hrun, -⟩ := h before call after hsplit
    cases hbefore.symm.trans hbefore'
    exact run_isSome.mp (by rw [hrun]; rfl)
  · rintro h before call after rfl
    obtain ⟨u, hbefore⟩ := Option.isSome_iff_exists.mp (runCalls_isSome h.before)
    obtain ⟨t', hrun⟩ := Option.isSome_iff_exists.mp (run_isSome.mpr (h before call after u rfl hbefore))
    exact ⟨u, t', hbefore, hrun, lawful_of_run hrun⟩

/-! ## Templates -/

/-- A curated template providing sane defaults for a well-known service. -/
structure ServiceTemplate where
  name : String
  description : String
  command : String
  args : String
  port : Nat
  protocol : String
  portLabel : String
  healthCheck : Option String
  stopSignal : String

def allTemplates : List ServiceTemplate :=
  [⟨"redis", "Redis-compatible in-memory data store (valkey)", "valkey-server", "--port 6379 --bind 127.0.0.1 --daemonize no", 6379, "tcp",
      "redis", some "valkey-cli ping", "SIGTERM"⟩,
    ⟨"postgres", "PostgreSQL relational database", "postgres", "-D $HOME/.local/share/postgres/data -k /tmp", 5432, "tcp", "postgres",
      some "pg_isready -h 127.0.0.1 -p 5432", "SIGTERM"⟩,
    ⟨"mysql", "MySQL/MariaDB relational database", "mariadbd",
      "--datadir=$HOME/.local/share/mysql/data --socket=/tmp/mysql.sock --port=3306 --bind-address=127.0.0.1", 3306, "tcp", "mysql",
      some "mariadb-admin ping -h 127.0.0.1 -P 3306", "SIGTERM"⟩,
    ⟨"mongodb", "MongoDB document database", "mongod", "--dbpath $HOME/.local/share/mongodb/data --bind_ip 127.0.0.1 --port 27017", 27017, "tcp",
      "mongodb", none, "SIGTERM"⟩,
    ⟨"rabbitmq", "RabbitMQ message broker", "rabbitmq-server", "", 5672, "tcp", "amqp", some "rabbitmq-diagnostics ping", "SIGTERM"⟩,
    ⟨"nats", "NATS messaging system", "nats-server", "-a 127.0.0.1 -p 4222 --store_dir $HOME/.local/share/nats/data", 4222, "tcp", "nats",
      none, "SIGTERM"⟩,
    ⟨"minio", "MinIO S3-compatible object storage", "minio",
      "server $HOME/.local/share/minio/data --address 127.0.0.1:9000 --console-address 127.0.0.1:9001", 9000, "tcp", "s3", none, "SIGTERM"⟩,
    ⟨"nginx", "nginx HTTP server", "nginx", "-g 'daemon off;' -c $HOME/.local/share/nginx/nginx.conf", 8080, "tcp", "http", none, "SIGQUIT"⟩,
    ⟨"caddy", "Caddy web server", "caddy", "run --config $HOME/.local/share/caddy/Caddyfile", 8080, "tcp", "http", none, "SIGTERM"⟩,
    ⟨"memcached", "Memcached in-memory cache", "memcached", "-l 127.0.0.1 -p 11211", 11211, "tcp", "memcached", none, "SIGTERM"⟩,
    ⟨"clickhouse", "ClickHouse analytics database", "clickhouse-server", "--config-file=$HOME/.local/share/clickhouse/config.xml", 8123, "tcp",
      "http", none, "SIGTERM"⟩]

def findTemplate (name : String) : Option ServiceTemplate := allTemplates.find? fun t => t.name = name

/-- The strings of the templates need no escape. -/
def tomlString (s : String) : TomlValue := .value ("\"" ++ s ++ "\"")

def setDefault (key : String) (v : TomlValue) (config : TomlTable) : TomlTable := if (get? config key).isSome then config else insert config key v

def applyTemplate (template : ServiceTemplate) (config : TomlTable) : TomlTable :=
  let config := setDefault "command" (tomlString template.command) config
  let config := if template.args = "" then config else setDefault "args" (tomlString template.args) config
  let config := setDefault "description" (tomlString template.description) config
  let config := setDefault "stop_signal" (tomlString template.stopSignal) config
  let config :=
    match template.healthCheck with
    | none => config
    | some hc => setDefault "health_check" (tomlString hc) config
  let portEntry := [("port", .value (toString template.port)), ("protocol", tomlString template.protocol)]
  setDefault "ports" (.table [(template.portLabel, .table portEntry)]) config

theorem get?_setDefault {key q : String} {v w : TomlValue} (h : get? t q = some w) : get? (setDefault key v t) q = some w := by
  unfold setDefault
  split_ifs with hset
  · exact h
  · rw [get?_insert_of_ne v, h]
    rintro rfl
    rw [h] at hset
    exact hset rfl

/-- A template gives defaults only for keys that are not already present. -/
theorem get?_applyTemplate {template : ServiceTemplate} {q : String} {w : TomlValue} (h : get? t q = some w) :
    get? (applyTemplate template t) q = some w := by
  have hargs : ∀ {t : TomlTable}, get? t q = some w →
      get? (if template.args = "" then t else setDefault "args" (tomlString template.args) t) q = some w := by
    intro t h
    split_ifs
    · exact h
    · exact get?_setDefault h
  unfold applyTemplate
  dsimp only
  cases template.healthCheck with
  | none => exact get?_setDefault (get?_setDefault (get?_setDefault (hargs (get?_setDefault h))))
  | some hc => exact get?_setDefault (get?_setDefault (get?_setDefault (get?_setDefault (hargs (get?_setDefault h)))))

/-! ## `services add` -/

inductive AddError where
  | unknownTemplate (name : String)
  | invalidSet (kv : String)
  | panic

section
variable (parseTomlValue : String → TomlValue)

/-- One `--set`. -/
def addSet (config : TomlTable) (kv : String) : Except AddError TomlTable :=
  match splitOnce "=" kv with
  | none => .error (.invalidSet kv)
  | some (key, value) =>
    match (ConfigCall.setConfig key (parseTomlValue value)).run config with
    | none => .error .panic
    | some config => .ok config

/-- The configuration of a service that is added. -/
def addConfig (template : Option String) (sets : List String) : Except AddError TomlTable := do
  let config ←
    match template with
    | none => pure []
    | some name =>
      match findTemplate name with
      | none => throw (.unknownTemplate name)
      | some template => pure (applyTemplate template [])
  sets.foldlM (addSet parseTomlValue) config

/-- The pairs of a command are a run of calls. -/
theorem foldlM_addSet : ∀ {sets : List String} {pairs : List (String × String)} (t : TomlTable), sets.map (splitOnce "=") = pairs.map some →
    sets.foldlM (addSet parseTomlValue) t =
      (runCalls (pairs.map fun pair => .setConfig pair.1 (parseTomlValue pair.2)) t).elim (.error .panic) .ok
  | [], [], _, _ => rfl
  | [], _ :: _, _, h => by cases h
  | _ :: _, [], _, h => by cases h
  | kv :: sets, (key, value) :: pairs, t, h => by
    obtain ⟨hkv, hsets⟩ := List.cons.inj h
    rw [List.foldlM_cons, addSet, hkv]
    simp only [List.map_cons, runCalls, List.foldlM_cons]
    cases (ConfigCall.setConfig key (parseTomlValue value)).run t with
    | none => rfl
    | some t' => exact foldlM_addSet t' hsets

end

/-- A service of the template `redis` is added with a key below its command. -/
theorem set_below_value : addConfig tomlString (some "redis") ["command.path=/bin/valkey"] = .error .panic ∧
    ¬ ∀ (calls : List ConfigCall) (t : TomlTable) before call after, calls = before ++ call :: after →
      ∃ u t', runCalls before t = some u ∧ call.run u = some t' ∧ call.Lawful u t' := by
  have hsegments : split '.' "command.path" = ["command", "path"] := by decide
  have hpanics : ∀ {t : TomlTable} {text : String} (v : TomlValue), get? t "command" = some (.value text) →
      (ConfigCall.setConfig "command.path" v).run t = none := by
    intro t text v hget
    have hentered : entered t "command" = none := by
      unfold entered
      rw [hget]
    rw [ConfigCall.run, hsegments, setConfig_cons (by simp), hentered]
    rfl
  constructor
  · rfl
  · intro h
    obtain ⟨u, t', hbefore, hrun, -⟩ := h [.setConfig "command.path" (.value "1")] [("command", .value "2")] [] _ [] rfl
    cases hbefore
    rw [hpanics _ rfl] at hrun
    cases hrun

end Ekapkgs
