/-! Severities of log lines, and the events that the library logs. Every event has a severity of its
own. -/

namespace TableClient

inductive Severity where
  | trace
  | info
  | warn
  | error
  deriving DecidableEq

namespace Severity

def name : Severity → String
  | trace => "TRACE"
  | info => "INFO"
  | warn => "WARN"
  | error => "ERROR"

def all : List Severity := [trace, info, warn, error]

/-- The place of a severity in the order from detail to failure. -/
def rank : Severity → Nat
  | trace => 0
  | info => 1
  | warn => 2
  | error => 3

def compare (s t : Severity) : Ordering :=
  Ord.compare s.rank t.rank

/-- The word for a severity in settings. -/
def word : Severity → String
  | trace => "trace"
  | info => "info"
  | warn => "warn"
  | error => "error"

def ofWord? (word : String) : Option Severity :=
  all.find? (·.word == word)

/-- Reads the word for a severity in any case of ASCII letters. -/
def read (text : String) : Except String Severity :=
  let lower := text.map Char.toLower
  match ofWord? lower with
  | some s => .ok s
  | none => .error ("unknown severity '" ++ lower ++ "'")

end Severity

inductive Event where
  /-- A query was compiled. -/
  | queryTranslated
  | queryRejected
  /-- A record type got its layout. -/
  | descriptorBuilt
  | descriptorRejected
  /-- A group of operations is complete. -/
  | batchFlushed
  | configLoaded
  deriving DecidableEq

namespace Event

def name : Event → String
  | queryTranslated => "QUERY_TRANSLATED"
  | queryRejected => "QUERY_REJECTED"
  | descriptorBuilt => "DESCRIPTOR_BUILT"
  | descriptorRejected => "DESCRIPTOR_REJECTED"
  | batchFlushed => "BATCH_FLUSHED"
  | configLoaded => "CONFIG_LOADED"

def severity : Event → Severity
  | queryTranslated | batchFlushed => .trace
  | queryRejected => .warn
  | descriptorBuilt | configLoaded => .info
  | descriptorRejected => .error

end Event

end TableClient
