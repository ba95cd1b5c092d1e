import NovumAgent.Otel.SpanData

/-!
# The trace sanitizer

What is left of a span before it is exported. Names that are not on a list are replaced or make their
event go; an attribute stays if its key is on a list and its value is of the sort the key has: a
count, a flag, or one of a few categories, into which every string falls.
-/

namespace NovumAgent.Otel

def approvedEventNames : List String :=
  ["codex.api_request", "codex.auth_recovery", "codex.conversation_starts",
   "codex.plugin_install_elicitation_sent", "codex.plugin_install_suggestion",
   "codex.sandbox_outcome", "codex.sse_event", "codex.startup_phase", "codex.tool_decision",
   "codex.tool_result", "codex.turn_ttft", "codex.user_prompt", "codex.websocket_connect",
   "codex.websocket_request"]

def approvedEventAttributeKeys : List String :=
  ["event.name", "duration_ms", "success", "http.response.status_code", "attempt",
   "input_token_count", "output_token_count", "cached_token_count", "cache_write_token_count",
   "reasoning_token_count", "tool_token_count", "arguments_length", "output_length",
   "output_line_count", "prompt_length", "text_input_count", "image_input_count",
   "local_image_input_count", "mcp_server_count", "initial_duration_ms", "escalated_duration_ms",
   "provider.category", "tool_name", "tool_origin", "mcp_tool", "event.kind", "error.type",
   "service_tier", "model_reasoning_effort", "reasoning_effort", "reasoning_summary",
   "approval_policy", "sandbox_policy", "startup.phase", "startup.status", "decision", "source",
   "outcome", "plugin_install.tool_type", "plugin_install.response_action",
   "plugin_install.user_confirmed", "plugin_install.completed", "auth.mode", "auth.step",
   "auth.outcome", "auth.error_code", "auth.state_changed", "auth.header_attached",
   "auth.header_name", "auth.retry_after_unauthorized", "auth.recovery_mode", "auth.recovery_phase",
   "auth.env_openai_api_key_present", "auth.env_codex_api_key_present",
   "auth.env_codex_api_key_enabled", "auth.env_provider_key_present",
   "auth.env_refresh_token_url_override_present", "auth.connection_reused"]

def approvedSpanNames : List String :=
  ["dispatch_tool_call_with_code_mode_result", "dispatch_tool_call_with_terminal_outcome",
   "endpoint_session.stream_encoded_json_with", "handle_output_item_done", "handle_responses",
   "handle_tool_call", "list_models", "load", "mcp.tools.call", "message_from_assistant",
   "model_client.stream_responses_api", "op.dispatch.user_input", "responses.stream_request",
   "run_sampling_request", "run_turn", "session_init", "session_loop", "session_task.run",
   "session_task.turn", "stream_request", "submission_dispatch", "thread_spawn",
   "try_run_sampling_request", "world_state.build"]

/-! ## Counts and flags -/

/-- `i64::MAX`. -/
def i64Max : Nat := 2 ^ 63 - 1

/-- `str::parse::<u64>`: digits, perhaps behind a plus sign, of a number that fits. -/
def parseU64 (value : String) : Option Nat :=
  let digits := if value.toList.head? = some '+' then value.toList.tail else value.toList
  if digits ≠ [] ∧ digits.all Char.isDigit then
    let n := digits.foldl (fun n c => 10 * n + (c.toNat - '0'.toNat)) 0
    if n < 2 ^ 64 then some n else none
  else none

def sanitizeNonnegativeInteger (kv : KeyValue) : Option KeyValue :=
  match kv.value with
  | .i64 value => if 0 ≤ value then some { kv with value := .i64 value } else none
  | .string value =>
    (parseU64 value).map fun n => { kv with value := .i64 (min n i64Max : Nat) }
  | _ => none

def sanitizeBoolean (kv : KeyValue) : Option KeyValue :=
  match kv.value with
  | .bool value => some { kv with value := .bool value }
  | .string value =>
    if value = "true" then some { kv with value := .bool true }
    else if value = "false" then some { kv with value := .bool false }
    else none
  | _ => none

/-- The keys of the first `matches!` of `sanitize_event_attribute`. -/
def integerKeys : List String :=
  ["duration_ms", "http.response.status_code", "attempt", "input_token_count", "output_token_count",
   "cached_token_count", "cache_write_token_count", "reasoning_token_count", "tool_token_count",
   "arguments_length", "output_length", "output_line_count", "prompt_length", "text_input_count",
   "image_input_count", "local_image_input_count", "mcp_server_count", "initial_duration_ms",
   "escalated_duration_ms"]

/-- The keys of the second. -/
def booleanKeys : List String :=
  ["success", "mcp_tool", "plugin_install.user_confirmed", "plugin_install.completed",
   "auth.state_changed", "auth.header_attached", "auth.retry_after_unauthorized",
   "auth.env_openai_api_key_present", "auth.env_codex_api_key_present",
   "auth.env_codex_api_key_enabled", "auth.env_provider_key_present",
   "auth.env_refresh_token_url_override_present", "auth.connection_reused"]

/-! ## Categories -/

def boundedValue (value : String) (approved : List String) : String :=
  (approved.find? (· = value)).getD "other"

def boundedReasoningEffortCategory (reasoningEffort : String) : String :=
  match reasoningEffort with
  | "none" => "none"
  | "minimal" => "minimal"
  | "low" => "low"
  | "medium" => "medium"
  | "high" => "high"
  | "xhigh" => "xhigh"
  | "max" => "max"
  | "ultra" => "ultra"
  | _ => "other"

def boundedServiceTierCategory (serviceTier : String) : String :=
  match serviceTier with
  | "fast" | "priority" => "priority"
  | "flex" => "flex"
  | "default" => "default"
  | _ => "other"

/-- The arms of `sanitize_category_attribute` that call `bounded_value`, with what they approve. -/
def approvedValues : List (String × List String) :=
  [("tool_name",
     ["apply_patch", "connector", "custom", "image", "mcp", "multi_agent", "other", "planning",
      "shell", "tool_search", "web_search", "agent"]),
   ("tool_origin", ["builtin", "mcp"]),
   ("provider.category", ["amazon_bedrock", "lmstudio", "ollama", "openai", "other"]),
   ("auth.error_code", ["refresh_token_expired", "token_expired", "other"]),
   ("error.type",
     ["api", "authentication", "body", "build", "builder", "connect", "context_window_exceeded",
      "cyber_policy", "decode", "event_decode", "http", "invalid_request", "network", "other",
      "quota_exceeded", "rate_limit", "request", "response_completed", "response_failed",
      "retry_limit", "retryable", "server_overloaded", "stream", "timeout", "usage_not_included"]),
   ("event.kind", ["parse_error", "response.completed", "response.created",
      "response.custom_tool_call_input.delta", "response.failed", "response.incomplete",
      "response.output_item.added", "response.output_item.done", "response.output_text.delta",
      "response.reasoning_summary_part.added", "response.reasoning_summary_text.delta",
      "response.reasoning_summary_text.done", "response.reasoning_text.delta",
      "responsesapi.websocket_timing", "unknown", "other"]),
   ("reasoning_summary", ["auto", "concise", "detailed", "none"]),
   ("approval_policy", ["untrusted", "on-request", "granular", "never"]),
   ("sandbox_policy", ["danger-full-access", "read-only", "external-sandbox", "workspace-write"]),
   ("startup.phase",
     ["startup_prewarm_resolve", "startup_prewarm_total", "startup_prewarm_create_turn_context",
      "startup_prewarm_build_tools", "startup_prewarm_build_prompt",
      "startup_prewarm_websocket_warmup"]),
   ("startup.status", ["cancelled", "consumed", "failed", "not_scheduled", "ready", "timed_out"]),
   ("decision", ["abort", "approved", "approved_for_session", "approved_with_amendment",
      "approved_with_network_policy_allow", "denied", "denied_with_network_policy_deny",
      "timed_out"]),
   ("source", ["AutomatedReviewer", "Config", "User"]),
   ("outcome", ["denied", "escalated", "signal", "timed_out"]),
   ("plugin_install.tool_type", ["connector", "plugin"]),
   ("plugin_install.response_action", ["accept", "decline", "cancel", "unavailable", "unknown"]),
   ("auth.mode", ["managed", "external", "none", "other"]),
   ("auth.step", ["reload", "refresh_token", "external_refresh", "done", "none", "other"]),
   ("auth.outcome", ["recovery_succeeded", "recovery_failed_permanent", "recovery_failed_transient",
      "recovery_not_run", "other"]),
   ("auth.header_name", ["authorization", "other"]),
   ("auth.recovery_mode", ["managed", "external", "other"]),
   ("auth.recovery_phase", ["reload", "refresh_token", "external_refresh", "done", "other"])]

/-- The `match` of `sanitize_category_attribute`. -/
def categoryOf (key value : String) : Option String :=
  if key = "service_tier" then some (boundedServiceTierCategory value)
  else if key = "model_reasoning_effort" ∨ key = "reasoning_effort" then
    some (boundedReasoningEffortCategory value)
  else (approvedValues.lookup key).map (boundedValue value)

def sanitizeCategoryAttribute (kv : KeyValue) : Option KeyValue :=
  match kv.value with
  | .string value =>
    (categoryOf kv.key value).map fun sanitized =>
      { kv with value := .string sanitized }
  | _ => none

/-! ## Events and spans -/

/-- `sanitize_event_attribute`, which says whether the attribute stays, and as what. -/
def sanitizeEventAttribute (eventName : String) (kv : KeyValue) : Option KeyValue :=
  if kv.key ∉ approvedEventAttributeKeys then none
  else if kv.key = "event.name" then
    if kv.value = .string eventName then some kv else none
  else if kv.key ∈ integerKeys then sanitizeNonnegativeInteger kv
  else if kv.key ∈ booleanKeys then sanitizeBoolean kv
  else sanitizeCategoryAttribute kv

/-- The name of an event, if the attribute is one and a string. -/
def KeyValue.eventName? (kv : KeyValue) : Option String :=
  if kv.key = "event.name" then
    match kv.value with
    | .string value => some value
    | _ => none
  else none

/-- The first name among the attributes of an event. -/
def eventName (kvs : List KeyValue) : Option String := kvs.findSome? KeyValue.eventName?

/-- `sanitize_event`, which says whether the event stays, and as what. -/
def sanitizeEvent (event : Event) : Option Event :=
  match eventName event.attributes with
  | none => none
  | some name =>
    if name ∈ approvedEventNames then
      some { event with
        name
        attributes := event.attributes.filterMap (sanitizeEventAttribute name) }
    else none

/-- What `sanitize_span` makes of a status. -/
def sanitizeStatus : Status → Status
  | .error _ => .error ""
  | status => status

/-- What `sanitize_span` makes of a link. -/
def sanitizeLink (link : Link) : Link := { link with attributes := [] }

def sanitizeSpan (span : SpanData) : SpanData :=
  { span with
    name := if span.name ∈ approvedSpanNames then span.name else "codex.operation"
    attributes := []
    events := ⟨span.events.events.filterMap sanitizeEvent, span.events.droppedCount⟩
    links := ⟨span.links.links.map sanitizeLink, span.links.droppedCount⟩
    status := sanitizeStatus span.status
    instrumentationScope := ⟨"codex", none, none, []⟩ }

end NovumAgent.Otel
