import Runbook.Decode.Scalar

/-!
# `Address` — where remote capabilities are reached

The addresses of agents, workflows and workers under a base address.

## Contents
- **Settings.** `DispatchSettings`, base address, paths and credentials, and its reading.
- **Joining.** `join`, a path under a base with one slash at the joint.
- **Addresses.** `agentUrl`, `workflowUrl`, `workflowStatusUrl`, `workerTriggerUrl`,
  `workerStatusUrl`, `webhookUrl?`.
-/

namespace Runbook

/-- Addresses and credentials of remote capabilities. -/
structure DispatchSettings where
  baseUrl : String := "http://localhost:3000"
  agentPath : String := "/api/studio/chat/agent"
  workflowPath : String := "/api/workflows"
  workerTriggerUrl : Option String := none
  workerStatusPath : String := "/api/workflows/workers"
  triggerApiKey : Option String := none
  webhookBaseUrl : Option String := none
  timeoutSeconds : Float := 60.0
  deriving DecidableEq

namespace DispatchSettings

/-- Reads the settings from the fields of a mapping. -/
def ofFields (fields : Keyed Value) : Checked DispatchSettings :=
  DispatchSettings.mk
    <$> Decode.optional fields "base_url" "http://localhost:3000" Decode.text
    <*> Decode.optional fields "agent_path" "/api/studio/chat/agent" Decode.text
    <*> Decode.optional fields "workflow_path" "/api/workflows" Decode.text
    <*> Decode.option fields "worker_trigger_url" Decode.text
    <*> Decode.optional fields "worker_status_path" "/api/workflows/workers" Decode.text
    <*> Decode.option fields "trigger_api_key" Decode.text
    <*> Decode.option fields "webhook_base_url" Decode.text
    <*> Decode.optional fields "timeout_seconds" 60.0 Decode.real

/-- The settings as a mapping. -/
def toValue (s : DispatchSettings) : Value :=
  .object
    [("base_url", .text s.baseUrl), ("agent_path", .text s.agentPath),
     ("workflow_path", .text s.workflowPath),
     ("worker_trigger_url", .ofText? s.workerTriggerUrl),
     ("worker_status_path", .text s.workerStatusPath),
     ("trigger_api_key", .ofText? s.triggerApiKey),
     ("webhook_base_url", .ofText? s.webhookBaseUrl),
     ("timeout_seconds", .real s.timeoutSeconds)]

end DispatchSettings

namespace Address

/-- A text without its leading slashes. -/
def withoutLeadingSlashes (s : String) : String := String.ofList (s.toList.dropWhile (· = '/'))

/-- A text without its trailing slashes. -/
def withoutTrailingSlashes (s : String) : String :=
  String.ofList (s.toList.reverse.dropWhile (· = '/')).reverse

/-- An address of its own: it begins with `http://` or `https://`. -/
def isAbsolute (s : String) : Bool := s.startsWith "http://" || s.startsWith "https://"

/-- A path under a base address, with one slash at the joint; an absolute address is kept. -/
def join (base path : String) : String :=
  if isAbsolute path then path
  else withoutTrailingSlashes base ++ "/" ++ withoutLeadingSlashes path

variable (s : DispatchSettings)

/-- An agent that begins with a slash or with `http` is joined to the base address as it stands,
    every other one under the agent path. -/
def agentUrl (agent : String) : String :=
  if agent.startsWith "/" ∨ agent.startsWith "http" then join s.baseUrl agent
  else join s.baseUrl (s.agentPath ++ "/" ++ agent)

/-- Where runs of a workflow are started. -/
def workflowUrl (workflow : String) : String :=
  join s.baseUrl (s.workflowPath ++ "/" ++ withoutLeadingSlashes workflow)

/-- Where the status of a run of a workflow is read. -/
def workflowStatusUrl (workflow runId : String) : String := workflowUrl s workflow ++ "/" ++ runId

/-- Where workers are triggered. -/
def workerTriggerUrl : String :=
  match s.workerTriggerUrl with
  | some url => if url = "" then join s.baseUrl "/workers/trigger" else url
  | none => join s.baseUrl "/workers/trigger"

/-- Where the status of a job of a worker is read. -/
def workerStatusUrl (worker job : String) : String :=
  join s.baseUrl (s.workerStatusPath ++ "/" ++ worker ++ "/" ++ job)

/-- Where a worker reports the end of a job, when callbacks are configured. -/
def webhookUrl? (worker : String) : Option String :=
  match s.webhookBaseUrl with
  | some base =>
    if base = "" then none
    else some (join base (s.workerStatusPath ++ "/" ++ worker ++ "/webhook"))
  | none => none

end Address

end Runbook
