import TableClient.Log.Event
import TableClient.Text.Cut
import TableClient.Text.Digits

/-! Log lines. An entry is written as one JSON object on one line: the event, the severity, and the
fields in the order of their keys. Errors go to the error stream, and entries below the floor
nowhere. -/

namespace TableClient

structure LogEntry where
  severity : Severity
  event : String
  fields : List (String × String)

namespace LogEntry

/-- The entry of an event, at the severity of the event. -/
def ofEvent (event : Event) (fields : List (String × String)) : LogEntry :=
  ⟨event.severity, event.name, fields⟩

/-- A character within a quoted text. -/
def escapeChar (c : Char) : List Char :=
  if c = '"' then ['\\', '"']
  else if c = '\\' then ['\\', '\\']
  else if c = '\n' then ['\\', 'n']
  else if c = '\r' then ['\\', 'r']
  else if c = '\t' then ['\\', 't']
  else if Text.isControl c then '\\' :: 'u' :: Text.hexFixed 4 c.toNat
  else [c]

def quoted (text : String) : List Char :=
  '"' :: text.toList.flatMap escapeChar ++ ['"']

/-- A name and its value. -/
def member (p : String × String) : List Char :=
  quoted p.1 ++ ':' :: quoted p.2

/-- The fields in the order of their keys; fields of one key keep their order. -/
def sortedFields (e : LogEntry) : List (String × String) :=
  e.fields.mergeSort fun p q => p.1 ≤ q.1

/-- The members of the object. -/
def members (e : LogEntry) : List (String × String) :=
  ("event", e.event) :: ("severity", e.severity.name) :: e.sortedFields

/-- The line, without its end. -/
def line (e : LogEntry) : List Char :=
  '\x7b' :: [','].intercalate (e.members.map member) ++ ['\x7d']

/-- The line with its end. -/
def render (e : LogEntry) : String :=
  String.ofList (e.line ++ ['\n'])

end LogEntry

/-- Whether entries of a severity are written under a floor. -/
def Severity.isEnabled (floor s : Severity) : Bool :=
  floor.rank ≤ s.rank

/-- Where a line goes. -/
inductive LogStream where
  | out
  | err
  deriving DecidableEq

def Severity.stream (s : Severity) : LogStream :=
  if s = .error then .err else .out

/-- The lines that reach a stream under a floor. -/
def LogStream.lines (stream : LogStream) (floor : Severity) (entries : List LogEntry) :
    List String :=
  (entries.filter fun e => floor.isEnabled e.severity && e.severity.stream = stream).map fun e =>
    String.ofList e.line

end TableClient
