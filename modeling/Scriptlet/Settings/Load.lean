import Scriptlet.Files
import Scriptlet.Host
import Scriptlet.Json.Read
import Scriptlet.Settings.Basic
import Scriptlet.Text.Case

/-!
# Loading settings

Settings come in layers, each over the one before: the defaults, a JSON file, and environment
variables. The file is the one that is asked for, or else the one that a variable names.
-/

namespace Scriptlet

/-- The environment variables. -/
abbrev Environment := String → Option String

namespace Settings

/-- The wording of a problem. A number is written out, which takes that it has no more digits than a
numeral may have. No number that is read from a text has more. -/
def Problem.message : Problem → String
  | unknownKey name => name ++ ": unknown setting"
  | wrongType key got => key.name ++ ": expected " ++ key.typeName ++ ", got " ++ got
  | notPositive n => "max_depth: must be positive, got " ++ toString n
  | tooLarge n =>
    "max_depth: must be at most " ++ toString Eval.depthLimit ++ ", got " ++ toString n
  | notInteger name text => name ++ ": expected an integer, got " ++ Text.quoted text
  | notBoolean name text => name ++ ": expected a boolean, got " ++ Text.quoted text

/-- Why settings are refused. -/
inductive ConfigError
  | notObject
  | invalid (problems : List Problem)
  | badVariable (problem : Problem)
  | unreadable (path : String) (e : FileError)
  | malformed (path : String) (what : Json.Problem) (line column offset : Nat)
deriving DecidableEq, Repr

namespace ConfigError

/-- The problems that an error lists. -/
def problems : ConfigError → List Problem
  | invalid ps => ps
  | badVariable p => [p]
  | _ => []

/-- The wording of an error, without its problems. -/
def heading : ConfigError → String
  | notObject => "Configuration must be a JSON object"
  | invalid _ => "Invalid configuration"
  | badVariable _ => "Invalid environment"
  | unreadable path e => "Failed to load config file " ++ path ++ ": " ++ e.message path
  | malformed path what line column offset =>
    "Failed to load config file " ++ path ++ ": " ++
      (Json.ReadError.malformed what line column offset).message

/-- The wording of an error. -/
def message (e : ConfigError) : String :=
  if e.problems.isEmpty then e.heading
  else e.heading ++ ": " ++ "; ".intercalate (e.problems.map Problem.message)

end ConfigError

/-- Why settings cannot be loaded: they are refused, or a file cannot be told to hold any. -/
inductive LoadError
  | config (e : ConfigError)
  | nulInPath
  | encoding (fault : Text.Utf8Fault)
  | hugeInteger (digits : Nat)
  | tooNested (inside : Json.Container)
deriving DecidableEq, Repr

/-- The wording of a load error. -/
def LoadError.message : LoadError → String
  | config e => e.message
  | nulInPath => TextError.nulInPath.message
  | encoding fault => fault.message
  | hugeInteger digits => (Json.ReadError.hugeInteger digits).message
  | tooNested inside => (Json.ReadError.tooNested inside).message

/-- The settings overridden by a JSON value, which has to be an object. -/
def ofJson (base : Settings) : Json → Except ConfigError Settings
  | .object members => (base.override members).mapError .invalid
  | _ => .error .notObject

/-- The settings overridden by a JSON file. -/
def ofFile (host : Host) (base : Settings) (files : Files) (path : String) :
    Except LoadError Settings :=
  match files.readText path with
  | .error (.file path e) => .error (.config (.unreadable path e))
  | .error .nulInPath => .error .nulInPath
  | .error (.encoding fault) => .error (.encoding fault)
  | .ok text =>
    match Json.parse host.containers text with
    | .error (.malformed what line column offset) =>
      .error (.config (.malformed path what line column offset))
    | .error (.hugeInteger digits) => .error (.hugeInteger digits)
    | .error (.tooNested inside) => .error (.tooNested inside)
    | .ok v => (base.ofJson v).mapError .config

/-- The truth value that the text of a variable denotes. -/
def truth? (text : String) : Option Bool :=
  match Text.lower (Text.strip text) with
  | "1" | "true" | "yes" | "on" => some true
  | "0" | "false" | "no" | "off" | "" => some false
  | _ => none

/-- The member for an integer variable, if the variable is there. -/
def integerMember (env : Environment) (key : Key) (name : String) :
    Except ConfigError (List (String × Json)) :=
  match env name with
  | none => .ok []
  | some text =>
    match Numeral.parse? (Text.strip text) with
    | some n => .ok [(key.name, .int n)]
    | none => .error (.badVariable (.notInteger name text))

/-- The member for a boolean variable, if the variable is there. -/
def booleanMember (env : Environment) (key : Key) (name : String) :
    Except ConfigError (List (String × Json)) :=
  match env name with
  | none => .ok []
  | some text =>
    match truth? text with
    | some b => .ok [(key.name, .bool b)]
    | none => .error (.badVariable (.notBoolean name text))

/-- The members for all variables. -/
def environmentMembers (env : Environment) : Except ConfigError (List (String × Json)) := do
  let depth ← integerMember env .maxDepth "WAIXG_MAX_DEPTH"
  let verbose ← booleanMember env .verbose "WAIXG_VERBOSE"
  let trace ← booleanMember env .trace "WAIXG_TRACE"
  return depth ++ verbose ++ trace

/-- A text that is there and not empty. -/
def nonempty? : Option String → Option String
  | some "" => none
  | text => text

/-- The file that settings come from: the one that is asked for, or else the one that a variable
names. An empty path stands for none. -/
def filePath? (asked : Option String) (env : Environment) : Option String :=
  nonempty? asked <|> nonempty? (env "WAIXG_CONFIG")

/-- The settings of all layers. -/
def load (host : Host) (asked : Option String) (env : Environment) (files : Files) :
    Except LoadError Settings := do
  let base ← match filePath? asked env with
    | some path => ofFile host {} files path
    | none => .ok {}
  let members ← (environmentMembers env).mapError .config
  ((base.override members).mapError .invalid).mapError .config

end Settings

end Scriptlet
