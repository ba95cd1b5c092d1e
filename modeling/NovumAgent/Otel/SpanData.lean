import Mathlib.Algebra.Group.Nat.Defs
import Mathlib.Data.List.Basic

/-!
# Spans

The record that is handed to a span exporter, field by field, with the strings it holds. Keys and
values are what the tracing library makes of the fields of events, so any string may be among them.
Times and ids are numbers here, and a floating-point value is its bits: nothing looks into them.
-/

namespace NovumAgent.Otel

/-- `opentelemetry::Array`. -/
inductive ArrayValue where
  | bool (values : List Bool)
  | i64 (values : List Int)
  | f64 (values : List UInt64)
  | string (values : List String)
deriving DecidableEq

inductive Value where
  | bool (value : Bool)
  | i64 (value : Int)
  | f64 (value : UInt64)
  | string (value : String)
  | array (values : ArrayValue)
deriving DecidableEq

structure KeyValue where
  key : String
  value : Value

/-- `opentelemetry::trace::SpanContext`. -/
structure SpanContext where
  traceId : Nat
  spanId : Nat
  traceFlags : Nat
  isRemote : Bool
  traceState : List (String × String)

/-- `opentelemetry::trace::Event`. -/
structure Event where
  name : String
  timestamp : Nat
  attributes : List KeyValue
  droppedAttributesCount : Nat

/-- `opentelemetry::trace::Link`. -/
structure Link where
  spanContext : SpanContext
  attributes : List KeyValue
  droppedAttributesCount : Nat

/-- `opentelemetry::trace::SpanKind`. -/
inductive SpanKind where
  | client
  | server
  | producer
  | consumer
  | internal

/-- `opentelemetry::trace::Status`. -/
inductive Status where
  | unset
  | error (description : String)
  | ok

structure InstrumentationScope where
  name : String
  version : Option String
  schemaUrl : Option String
  attributes : List KeyValue

structure SpanEvents where
  events : List Event
  droppedCount : Nat

structure SpanLinks where
  links : List Link
  droppedCount : Nat

/-- `opentelemetry_sdk::trace::SpanData`. -/
structure SpanData where
  spanContext : SpanContext
  parentSpanId : Nat
  parentSpanIsRemote : Bool
  spanKind : SpanKind
  name : String
  startTime : Nat
  endTime : Nat
  attributes : List KeyValue
  droppedAttributesCount : Nat
  events : SpanEvents
  links : SpanLinks
  status : Status
  instrumentationScope : InstrumentationScope

/-! ## The strings of a span -/

def Value.strings : Value → List String
  | string value => [value]
  | array (.string values) => values
  | _ => []

def KeyValue.strings (a : KeyValue) : List String := a.key :: a.value.strings

def SpanContext.strings (c : SpanContext) : List String :=
  c.traceState.flatMap fun (key, value) => [key, value]

def Event.strings (e : Event) : List String := e.name :: e.attributes.flatMap KeyValue.strings

def Link.strings (l : Link) : List String :=
  l.spanContext.strings ++ l.attributes.flatMap KeyValue.strings

def Status.strings : Status → List String
  | error description => [description]
  | unset | ok => []

def InstrumentationScope.strings (s : InstrumentationScope) : List String :=
  s.name :: (s.version.toList ++ s.schemaUrl.toList ++ s.attributes.flatMap KeyValue.strings)

/-- Every string anywhere in a span. -/
def SpanData.strings (s : SpanData) : List String :=
  s.name :: (s.spanContext.strings ++ s.attributes.flatMap KeyValue.strings ++
    s.events.events.flatMap Event.strings ++ s.links.links.flatMap Link.strings ++
    s.status.strings ++ s.instrumentationScope.strings)

/-- The strings of the trace states: that of the span, and those of the spans it links to. -/
def SpanData.traceStateStrings (s : SpanData) : List String :=
  s.spanContext.strings ++ s.links.links.flatMap fun l => l.spanContext.strings

end NovumAgent.Otel
