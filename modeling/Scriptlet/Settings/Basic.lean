import Scriptlet.Eval.Machine
import Scriptlet.Json.Basic

/-!
# Settings

What a user can set, with defaults, and how a JSON object overrides settings field by field. All
that is wrong with an object is reported together, one problem for each key.
-/

namespace Scriptlet

/-- The settings of the interpreter. -/
structure Settings where
  maxDepth : Int := Eval.defaultDepth
  prompt : String := ">> "
  continuationPrompt : String := ".. "
  verbose : Bool := false
  trace : Bool := false
deriving DecidableEq, Repr, Inhabited

namespace Settings

/-- The keys of the settings. -/
inductive Key
  | maxDepth | prompt | continuationPrompt | verbose | trace
deriving DecidableEq, Repr

namespace Key

/-- The key of a given name. -/
def ofName? : String → Option Key
  | "max_depth" => some maxDepth
  | "prompt" => some prompt
  | "continuation_prompt" => some continuationPrompt
  | "verbose" => some verbose
  | "trace" => some trace
  | _ => none

/-- The name of a key. -/
def name : Key → String
  | maxDepth => "max_depth"
  | prompt => "prompt"
  | continuationPrompt => "continuation_prompt"
  | verbose => "verbose"
  | trace => "trace"

/-- The name of the type of a key's values in messages. -/
def typeName : Key → String
  | maxDepth => "int"
  | prompt | continuationPrompt => "str"
  | verbose | trace => "bool"

end Key

/-- What is wrong with a source of settings. -/
inductive Problem
  | unknownKey (name : String)
  | wrongType (key : Key) (got : String)
  | notPositive (depth : Int)
  | tooLarge (depth : Int)
  | notInteger (variableName : String) (text : String)
  | notBoolean (variableName : String) (text : String)
deriving DecidableEq, Repr

/-- The settings with the value of one key replaced, if the value has the type of the key. -/
def set? (s : Settings) : Key → Json → Option Settings
  | .maxDepth, .int n => some { s with maxDepth := n }
  | .prompt, .string t => some { s with prompt := t }
  | .continuationPrompt, .string t => some { s with continuationPrompt := t }
  | .verbose, .bool b => some { s with verbose := b }
  | .trace, .bool b => some { s with trace := b }
  | _, _ => none

/-- The settings with the value of a member replaced. A member that does not fit changes
nothing. -/
def setMember (s : Settings) (member : String × Json) : Settings :=
  ((Key.ofName? member.1).bind (s.set? · member.2)).getD s

/-- What is wrong with a member as such. -/
def memberProblem? (member : String × Json) : Option Problem :=
  match Key.ofName? member.1 with
  | none => some (.unknownKey member.1)
  | some key =>
    if (set? {} key member.2).isSome then none
    else some (.wrongType key member.2.typeName)

/-- What is wrong with the number of active calls that the members ask for. -/
def depthProblem? (members : List (String × Json)) : Option Problem :=
  match members.lookup Key.maxDepth.name with
  | some (.int n) =>
    if n < 1 then some (.notPositive n)
    else if (Eval.depthLimit : Int) < n then some (.tooLarge n)
    else none
  | _ => none

/-- All that is wrong with the members of an object, in their order, the number of active calls
last. -/
def problems (members : List (String × Json)) : List Problem :=
  members.filterMap memberProblem? ++ (depthProblem? members).toList

/-- The settings with the members of an object replaced, if nothing is wrong with them. -/
def override (s : Settings) (members : List (String × Json)) : Except (List Problem) Settings :=
  if (problems members).isEmpty then .ok (members.foldl setMember s) else .error (problems members)

end Settings

end Scriptlet
