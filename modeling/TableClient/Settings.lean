import TableClient.Batch.Config
import TableClient.Log.Line

/-! Settings of the library. They are read from a JSON text, in which everything may be missing but
nothing may be unknown, and have to be valid as a whole. -/

namespace TableClient

inductive SettingsError where
  /-- There is no file of this path, or it is not text. -/
  | unreadable (path : String)
  /-- The file does not hold settings. -/
  | malformed (path : String)
  | invalid (error : BatchError)
  deriving DecidableEq

namespace SettingsError

def code : SettingsError → String
  | unreadable _ => "TABLE_CONFIG_UNREADABLE"
  | malformed _ => "TABLE_CONFIG_MALFORMED"
  | invalid _ => "TABLE_CONFIG_INVALID"

def message : SettingsError → String
  | unreadable path => "Failed to read config " ++ path
  | malformed path => "Malformed config " ++ path
  | invalid e => "Invalid config: " ++ e.message

/-- The same file fails in the same way. -/
def isRetryable (_ : SettingsError) : Bool := false

end SettingsError

structure Settings where
  batch : BatchConfig
  /-- The floor below which nothing is logged. -/
  logLevel : Severity
  deriving DecidableEq

namespace Settings

open Json (Tree)

def standard : Settings := ⟨.standard, .info⟩

def validate (s : Settings) : Except SettingsError Unit :=
  s.batch.validate.mapError .invalid

def decodeSeverity? (t : Tree) : Option Severity :=
  t.constant?.bind Severity.ofWord?

/-- Decodes settings; what is missing is as in the standard ones. -/
def decode? (t : Tree) : Option Settings := do
  let names := ["batch", "log_level"]
  match ← t.fields? names with
  | [batch, level] =>
    let batch ← (batch.map BatchConfig.decode?).getD (some standard.batch)
    let level ← (level.map decodeSeverity?).getD (some standard.logLevel)
    if t.hasOnly names then some ⟨batch, level⟩ else none
  | _ => none

/-- The settings of the bytes of a file, if there is one. -/
def load (path : String) (content : Option ByteArray) : Except SettingsError Settings := do
  let text ← match content.bind String.fromUTF8? with
    | some text => .ok text
    | none => .error (.unreadable path)
  let settings ← match (Tree.read? text).bind decode? with
    | some s => .ok s
    | none => .error (.malformed path)
  settings.validate
  .ok settings

/-- What is logged when settings are loaded. -/
def report (path : String) (s : Settings) : LogEntry :=
  .ofEvent .configLoaded [("log_level", s.logLevel.name), ("path", path)]

end Settings

end TableClient
