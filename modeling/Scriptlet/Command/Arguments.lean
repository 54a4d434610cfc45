import Scriptlet.Json.Basic
import Scriptlet.Numeral
import Scriptlet.Text.Quoted

/-!
# Command-line arguments

The words of a command line: options, which may be shortened and may carry a value after an equals
sign, and at most one other argument, the source. After the word `--` every word is an argument.

* `classify` tells what a word is, by itself.
* `Arguments.parse` takes the words in their order. Asking for help ends that at once, and words
  that nothing takes are reported at the end.
-/

namespace Scriptlet.Command

/-- The options. -/
inductive Opt
  | help | string | repl | verbose | trace | maxDepth | config | dumpAst
deriving DecidableEq, Repr

namespace Opt

/-- All options, in the order in which they are listed. -/
def all : List Opt := [help, string, repl, verbose, trace, maxDepth, config, dumpAst]

/-- The spellings of an option. -/
def spellings : Opt → List String
  | help => ["-h", "--help"]
  | string => ["-s", "--string"]
  | repl => ["--repl"]
  | verbose => ["--verbose"]
  | trace => ["--trace"]
  | maxDepth => ["--max-depth"]
  | config => ["--config"]
  | dumpAst => ["--dump-ast"]

/-- How an option is named in messages. -/
def title (o : Opt) : String := "/".intercalate o.spellings

/-- Whether an option has a value. -/
def takesValue : Opt → Bool
  | maxDepth | config => true
  | _ => false

/-- All spellings with their options, in the order in which they are listed. -/
def table : List (String × Opt) := all.flatMap fun o => o.spellings.map (·, o)

/-- The option of a given spelling. -/
def ofSpelling? (text : String) : Option Opt := table.lookup text

end Opt

/-- What is wrong with a command line. -/
inductive UsageError
  | ambiguous (word : String) (candidates : List String)
  | noValue (o : Opt)
  | needlessValue (o : Opt) (value : String)
  | notInteger (o : Opt) (value : String)
  | unrecognized (words : List String)
deriving DecidableEq, Repr

/-- The wording of a usage error. -/
def UsageError.message : UsageError → String
  | ambiguous word candidates =>
    "ambiguous option: " ++ word ++ " could match " ++ ", ".intercalate candidates
  | noValue o => "argument " ++ o.title ++ ": expected one argument"
  | needlessValue o value =>
    "argument " ++ o.title ++ ": ignored explicit argument " ++ Text.quoted value
  | notInteger o value =>
    "argument " ++ o.title ++ ": invalid int value: " ++ Text.quoted value
  | unrecognized words => "unrecognized arguments: " ++ " ".intercalate words

/-- What a word of a command line is. An option comes with the value after its equals sign or,
for one of a single letter, with the rest of the word; `short` tells which. -/
inductive WordKind
  | argument
  | separator
  | option (o : Opt) (short : Bool) (value : Option String)
  | unknown
deriving DecidableEq, Repr

/-- The part of a word before its first equals sign, and the part after it if there is one. -/
def splitValue (word : String) : String × Option String :=
  let name := word.toList.takeWhile (· != '=')
  match word.toList.drop name.length with
  | [] => (word, none)
  | _ :: value => (String.ofList name, some (String.ofList value))

/-- Whether the characters after a minus sign make a negative number: digits, with a point before
the last of them or none. A line feed may follow. -/
def isNumber (cs : List Char) : Bool :=
  let isDigit c := (Text.digitValue? c).isSome
  let body := if cs.getLast? = some '\n' then cs.dropLast else cs
  match body.dropWhile isDigit with
  | [] => !body.isEmpty
  | '.' :: rest => !rest.isEmpty && rest.all isDigit
  | _ => false

/-- What an unknown word that starts with a minus sign is. -/
def classifyOther (word : String) : WordKind :=
  if isNumber (word.toList.drop 1) || word.contains ' ' then .argument else .unknown

/-- What a word that starts with a minus sign and is no full spelling is. A word with two minus
signs may be the start of a spelling, and one with a single letter may go on after that. -/
def classifyPartial (word : String) : Except UsageError WordKind :=
  match word.toList with
  | '-' :: '-' :: _ =>
    let (name, value) := splitValue word
    match Opt.table.filter fun entry => name.toList.isPrefixOf entry.1.toList with
    | [] => .ok (classifyOther word)
    | [(_, o)] => .ok (.option o false value)
    | several => .error (.ambiguous word (several.map (·.1)))
  | '-' :: c :: rest =>
    match Opt.ofSpelling? (String.ofList ['-', c]) with
    | some o => .ok (.option o true (some (String.ofList rest)))
    | none => .ok (classifyOther word)
  | _ => .ok .argument

/-- What a word is, by itself. -/
def classify (word : String) : Except UsageError WordKind :=
  if !"-".toList.isPrefixOf word.toList then .ok .argument
  else
    match Opt.ofSpelling? word with
    | some o => .ok (.option o (word.length == 2) none)
    | none =>
      let (name, value) := splitValue word
      match Opt.ofSpelling? name, value with
      | some o, some value => .ok (.option o (name.length == 2) (some value))
      | _, _ => classifyPartial word

/-- What the words of a command line are. -/
def classifyAll : List String → Except UsageError (List (String × WordKind))
  | [] => .ok []
  | word :: rest =>
    if word == "--" then .ok ((word, .separator) :: rest.map (·, .argument))
    else do
      let kind ← classify word
      return (word, kind) :: (← classifyAll rest)

/-- What a command line asks for. The number of active calls is kept as a JSON value, which the
settings check. -/
structure Arguments where
  source : Option String := none
  string : Bool := false
  repl : Bool := false
  verbose : Bool := false
  trace : Bool := false
  dumpAst : Bool := false
  maxDepth : Option Json := none
  config : Option String := none
deriving Inhabited

/-- Why a command line asks for nothing that can be done. -/
inductive Halt
  | help
  | usage (e : UsageError)
deriving DecidableEq, Repr

/-- How far the words of a command line have been taken: what they ask for, whether there was a
source, and the words that nothing took. -/
structure Progress where
  arguments : Arguments := {}
  sourceTaken : Bool := false
  extras : List String := []

namespace Progress

/-- Leaves a word that nothing takes. -/
def leave (p : Progress) (word : String) : Progress := { p with extras := p.extras ++ [word] }

/-- Takes the source, or leaves the word if there was one. -/
def takeSource (p : Progress) (word : String) : Progress :=
  if p.sourceTaken then p.leave word
  else { p with arguments := { p.arguments with source := some word }, sourceTaken := true }

/-- Takes a separator that belongs to the source, or leaves it if there was a source. -/
def takeSeparator (p : Progress) (word : String) : Progress :=
  if p.sourceTaken then p.leave word else p

/-- Takes an option without a value. -/
def takeFlag (p : Progress) : Opt → Except Halt Progress
  | .help => .error .help
  | .string => .ok { p with arguments := { p.arguments with string := true } }
  | .repl => .ok { p with arguments := { p.arguments with repl := true } }
  | .verbose => .ok { p with arguments := { p.arguments with verbose := true } }
  | .trace => .ok { p with arguments := { p.arguments with trace := true } }
  | .dumpAst => .ok { p with arguments := { p.arguments with dumpAst := true } }
  | o => .error (.usage (.noValue o))

/-- Takes an option with a value. A separator as the value stands for an empty list of values. -/
def takeValue (p : Progress) (o : Opt) (value : String) : Except Halt Progress :=
  match o with
  | .config =>
    let path := if value == "--" then none else some value
    .ok { p with arguments := { p.arguments with config := path } }
  | .maxDepth =>
    if value == "--" then
      .ok { p with arguments := { p.arguments with maxDepth := some (.array []) } }
    else
      match Numeral.parse? value with
      | some n => .ok { p with arguments := { p.arguments with maxDepth := some (.int n) } }
      | none => .error (.usage (.notInteger o value))
  | o => .error (.usage (.needlessValue o value))

end Progress

/-- The options of one letter that a word like `-sh` has after its first option `o`. -/
def cluster (o : Opt) : List Char → Except UsageError (List Opt)
  | [] => .ok [o]
  | c :: rest =>
    match Opt.ofSpelling? (String.ofList ['-', c]) with
    | some next => do return o :: (← cluster next rest)
    | none => .error (.needlessValue o (String.ofList (c :: rest)))

/-- Takes an option that carries its value in its own word. -/
def Progress.takeAttached (p : Progress) (o : Opt) (short : Bool) (value : String) :
    Except Halt Progress :=
  if short && value != "" then do
    let opts ← (cluster o value.toList).mapError .usage
    opts.foldlM Progress.takeFlag p
  else p.takeValue o value

/-- Takes the words of a command line from left to right. -/
def takeWords (p : Progress) : List (String × WordKind) → Except Halt Progress
  | [] => .ok p
  | (word, .unknown) :: rest => takeWords (p.leave word) rest
  | (word, .argument) :: (sep, .separator) :: rest =>
    if p.sourceTaken then takeWords ((p.leave word).leave sep) rest
    else takeWords (p.takeSource word) rest
  | (word, .argument) :: rest => takeWords (p.takeSource word) rest
  | (sep, .separator) :: rest => takeWords (p.takeSeparator sep) rest
  | (_, .option o short (some value)) :: rest => do
    takeWords (← p.takeAttached o short value) rest
  | (_, .option o _ none) :: rest => do
    if o.takesValue then
      match rest with
      | (value, .argument) :: rest => takeWords (← p.takeValue o value) rest
      | _ => throw (.usage (.noValue o))
    else takeWords (← p.takeFlag o) rest

/-- What a command line asks for. -/
def Arguments.parse (words : List String) : Except Halt Arguments := do
  let words ← (classifyAll words).mapError .usage
  let p ← takeWords {} words
  if p.extras.isEmpty then return p.arguments
  else throw (.usage (.unrecognized p.extras))

end Scriptlet.Command
