import Runbook.Address
import Runbook.Fault
import Runbook.Poll.Defaults
import Runbook.Store.Held
import Runbook.Value.Truth

/-!
# `Settings` — how an orchestrator is set up

Settings are read from a document and then overridden by variables of the environment. They say
where records are kept, how capabilities are reached, and which host waits for events.

## Contents
- **Parts.** `RedisSettings`, `StoreSettings`, `HostSettings`.
- **Settings.** `Settings`, its reading, `withEnvironment`, and `Settings.load`.
- **Choices.** `StoreChoice` and `HostChoice`, what the settings amount to.
-/

namespace Runbook

/-! ## Parts -/

/-- How long records are kept, in seconds, when nothing else is said: seven days. -/
def weekSeconds : Int := 604800

/-- Where a key-value server is reached. -/
structure RedisSettings where
  host : String := "localhost"
  port : Int := 6379
  db : Int := 0
  password : Option String := none
  keyPrefix : String := "stepflow:"
  deriving DecidableEq, Repr

/-- Where records are kept. -/
structure StoreSettings where
  databaseUrl : Option String := none
  redis : RedisSettings := {}
  ttlSeconds : Int := weekSeconds
  deriving DecidableEq, Repr

/-- Which host waits for events. -/
structure HostSettings where
  backend : String := "inmemory"
  redis : RedisSettings := {}
  deriving DecidableEq, Repr

/-- Reads a part that must be a mapping. -/
def Decode.part {α : Type} (name : String) (ofFields : Keyed Value → Checked α) :
    Value → Checked α
  | .object fields => ofFields fields
  | _ => .complain (.modelType name)

namespace RedisSettings

/-- Reads the address from the fields of a mapping. -/
def ofFields (fields : Keyed Value) : Checked RedisSettings :=
  RedisSettings.mk
    <$> Decode.optional fields "host" "localhost" Decode.text
    <*> Decode.optional fields "port" 6379 Decode.whole
    <*> Decode.optional fields "db" 0 Decode.whole
    <*> Decode.option fields "password" Decode.text
    <*> Decode.optional fields "key_prefix" "stepflow:" Decode.text

/-- Reads the address. -/
def ofValue : Value → Checked RedisSettings := Decode.part "RedisConfig" ofFields

/-- The address as a mapping. -/
def toFields (r : RedisSettings) : Keyed Value :=
  [("host", .text r.host), ("port", .int r.port), ("db", .int r.db),
   ("password", .ofText? r.password), ("key_prefix", .text r.keyPrefix)]

end RedisSettings

namespace StoreSettings

/-- Reads the settings from the fields of a mapping. -/
def ofFields (fields : Keyed Value) : Checked StoreSettings :=
  StoreSettings.mk
    <$> Decode.option fields "database_url" Decode.text
    <*> Decode.optional fields "redis" {} RedisSettings.ofValue
    <*> Decode.optional fields "ttl_seconds" weekSeconds Decode.whole

/-- The settings as a mapping. -/
def toValue (s : StoreSettings) : Value :=
  .object
    [("database_url", .ofText? s.databaseUrl), ("redis", .object s.redis.toFields),
     ("ttl_seconds", .int s.ttlSeconds)]

end StoreSettings

namespace HostSettings

/-- The hosts that a document can name. -/
def backends : List String := ["inmemory", "redis"]

/-- Reads the settings from the fields of a mapping. -/
def ofFields (fields : Keyed Value) : Checked HostSettings :=
  HostSettings.mk
    <$> Decode.optional fields "backend" "inmemory" (Decode.word backends)
    <*> Decode.optional fields "redis" {} RedisSettings.ofValue

/-- The settings as a mapping. -/
def toValue (s : HostSettings) : Value :=
  .object [("backend", .text s.backend), ("redis", .object s.redis.toFields)]

end HostSettings

/-! ## Settings -/

/-- How an orchestrator is set up. -/
structure Settings where
  store : StoreSettings := {}
  dispatch : DispatchSettings := {}
  host : HostSettings := {}
  workerPoll : PollDefaults := {}
  hookTimeout : String := "7d"
  logLevel : String := "INFO"

namespace Settings

/-- The name of the structure in messages. -/
def structureName : String := "StepflowConfig"

/-- Reads the settings from the fields of a mapping. -/
def ofFields (fields : Keyed Value) : Checked Settings :=
  Settings.mk
    <$> Decode.optional fields "store" {} (Decode.part "StoreConfig" StoreSettings.ofFields)
    <*> Decode.optional fields "dispatch" {} (Decode.part "DispatchConfig" DispatchSettings.ofFields)
    <*> Decode.optional fields "host" {} (Decode.part "HostConfig" HostSettings.ofFields)
    <*> Decode.optional fields "worker_poll" {}
      (Decode.part PollDefaults.structureName PollDefaults.ofFields)
    <*> Decode.optional fields "hook_timeout" "7d" Decode.text
    <*> Decode.optional fields "log_level" "INFO" Decode.text

/-- Reads the settings from a document; one that is false counts as empty. -/
def ofDocument (v : Value) : Except Fault Settings :=
  if v.truthy then
    match v.fields? with
    | some fields => Fault.ofChecked structureName (ofFields fields)
    | none => .error (.typeMismatch (.notAMapping v.typeName))
  else .ok {}

/-- The settings as a value. -/
def toValue (s : Settings) : Value :=
  .object
    [("store", s.store.toValue), ("dispatch", s.dispatch.toValue), ("host", s.host.toValue),
     ("worker_poll", s.workerPoll.toValue), ("hook_timeout", .text s.hookTimeout),
     ("log_level", .text s.logLevel)]

/-- The variables of the environment that matter. -/
def environmentNames : List String :=
  ["STEPFLOW_CONFIG", "STEPFLOW_DATABASE_URL", "DATABASE_URL", "STEPFLOW_BASE_URL",
   "WORKERS_TRIGGER_API_KEY", "WORKFLOW_WEBHOOK_BASE_URL", "STEPFLOW_HOST"]

/-- A variable of the environment that is set and not empty. -/
def setting? (env : Keyed String) (name : String) : Option String :=
  (env.get? name).filter fun s => s ≠ ""

/-- The address of the database that the environment names. -/
def databaseSetting? (env : Keyed String) : Option String :=
  (setting? env "STEPFLOW_DATABASE_URL").or (setting? env "DATABASE_URL")

/-- The settings after variables of the environment were laid over them. -/
def withEnvironment (s : Settings) (env : Keyed String) : Settings :=
  { s with
    store := { s.store with databaseUrl := (databaseSetting? env).or s.store.databaseUrl }
    dispatch :=
      { s.dispatch with
        baseUrl := (setting? env "STEPFLOW_BASE_URL").getD s.dispatch.baseUrl
        triggerApiKey := (setting? env "WORKERS_TRIGGER_API_KEY").or s.dispatch.triggerApiKey
        webhookBaseUrl := (setting? env "WORKFLOW_WEBHOOK_BASE_URL").or s.dispatch.webhookBaseUrl }
    host :=
      { s.host with
        backend := ((setting? env "STEPFLOW_HOST").map String.toLower).getD s.host.backend } }

/-- The name of the settings file: the one that is given, or else the one that the environment
    names. -/
def fileName (env : Keyed String) (given : Option String) : String :=
  (given.filter fun s => s ≠ "").getD ((env.get? "STEPFLOW_CONFIG").getD "stepflow.yaml")

/-- Loads the settings: the documents of a settings file that exists, under the environment. -/
def load (document? : String → Option Value) (env : Keyed String) (given : Option String) :
    Except Fault Settings :=
  match document? (fileName env given) with
  | some v => (ofDocument v).map fun s => s.withEnvironment env
  | none => .ok (({} : Settings).withEnvironment env)

end Settings

/-! ## Choices -/

/-- Where records are kept. -/
inductive StoreChoice where
  | memory
  | sqlite (path : String)
  | postgres (url : String)
  | redis (keyPrefix : String) (ttlSeconds : Int)
  deriving DecidableEq, Repr

/-- Which host waits for events. -/
inductive HostChoice where
  | inMemory
  | redis (address : RedisSettings) (ttlSeconds : Int)
  deriving DecidableEq, Repr

/-- What is left of a text after a beginning. -/
def afterStart? (s start : String) : Option String :=
  if s.startsWith start then some (String.ofList (s.toList.drop start.length)) else none

namespace Settings

/-- The database that is used: the one that is given, or else the one that the environment names, or
    else that of the settings. -/
def databaseUrl? (s : Settings) (env : Keyed String) (given : Option String) : Option String :=
  ((given.filter fun u => u ≠ "").or (databaseSetting? env)).or s.store.databaseUrl

/-- Where records are kept, by the form of the address of the database. -/
def storeChoice (s : Settings) (env : Keyed String) (given : Option String) :
    Except Fault StoreChoice :=
  match (s.databaseUrl? env given).filter fun u => u ≠ "" with
  | none => .ok .memory
  | some url =>
    if url.startsWith "memory://" then .ok .memory
    else
      match afterStart? url "sqlite://" with
      | some path => .ok (.sqlite (if path = "" then ":memory:" else path))
      | none =>
        if url.startsWith "postgres://" || url.startsWith "postgresql://" then .ok (.postgres url)
        else if url.startsWith "redis://" || url.startsWith "rediss://" then
          .ok (.redis s.store.redis.keyPrefix s.store.ttlSeconds)
        else .error (.unsupportedDatabase url)

/-- Which host waits for events: the one that is given, or else the one that the environment names,
    or else that of the settings. -/
def hostChoice (s : Settings) (env : Keyed String) (given : Option String) :
    Except Fault HostChoice :=
  let name :=
    (((given.filter fun b => b ≠ "").or (setting? env "STEPFLOW_HOST")).getD s.host.backend).toLower
  if name = "inmemory" then .ok .inMemory
  else if name = "redis" then .ok (.redis s.host.redis s.store.ttlSeconds)
  else .error (.unsupportedHost name)

end Settings

/-- The backend of the stores. -/
def StoreChoice.backend : StoreChoice → Backend
  | .memory => .memory
  | .sqlite _ => .sqlite
  | .postgres _ => .postgres
  | .redis _ _ => .redis

end Runbook
