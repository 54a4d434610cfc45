import Scriptlet.Json.Basic
import Scriptlet.Numeral

/-!
# Reading JSON

A reader takes the characters ahead and gives a value and the characters after it. When it fails,
it says what it missed and gives the characters from there on, whose number tells the place.

Besides the JSON grammar it takes `NaN`, `Infinity` and `-Infinity` as numbers. An integer of more
digits than a numeral may have is refused whatever surrounds it, and so is an array or an object
inside more others than there is room for.
-/

namespace Scriptlet.Json

/-- What is wrong with a text. -/
inductive Problem
  | noValue | noName | noColon | noComma | extraData
  | unterminated | controlCharacter | badEscape | badPoint | byteOrderMark
deriving DecidableEq, Repr

/-- The wording of a problem. -/
def Problem.message : Problem → String
  | noValue => "Expecting value"
  | noName => "Expecting property name enclosed in double quotes"
  | noColon => "Expecting ':' delimiter"
  | noComma => "Expecting ',' delimiter"
  | extraData => "Extra data"
  | unterminated => "Unterminated string starting at"
  | controlCharacter => "Invalid control character at"
  | badEscape => "Invalid \\escape"
  | badPoint => "Invalid \\uXXXX escape"
  | byteOrderMark => "Unexpected UTF-8 BOM (decode using utf-8-sig)"

/-- A value that has others inside. -/
inductive Container
  | array | object
deriving DecidableEq, Repr

/-- The wording of a container. -/
def Container.name : Container → String
  | array => "array"
  | object => "object"

/-- Why a reader stops: a problem with the characters from there on, an integer with too many
digits, or a container inside too many others. -/
inductive Stop
  | problem (what : Problem) (ahead : List Char)
  | hugeInteger (digits : Nat)
  | tooNested (inside : Container)

/-- White space between the parts of a value. -/
def isSpace (c : Char) : Bool := c == ' ' || c == '\t' || c == '\n' || c == '\r'

/-- Drops white space. -/
def skipSpace (cs : List Char) : List Char := cs.dropWhile isSpace

/-- The value of a hexadecimal digit. -/
def hexValue? (c : Char) : Option Nat :=
  if '0' ≤ c && c ≤ '9' then some (c.toNat - '0'.toNat)
  else if 'a' ≤ c && c ≤ 'f' then some (c.toNat - 'a'.toNat + 10)
  else if 'A' ≤ c && c ≤ 'F' then some (c.toNat - 'A'.toNat + 10)
  else none

/-- The value of four hexadecimal digits. -/
def hexValue₄? (a b c d : Char) : Option Nat := do
  return (((← hexValue? a) * 16 + (← hexValue? b)) * 16 + (← hexValue? c)) * 16 + (← hexValue? d)

/-- Four hexadecimal digits, which something has to follow, and what follows. -/
def point? : List Char → Option (Nat × List Char)
  | a :: b :: c :: d :: after =>
    if after.isEmpty then none else (hexValue₄? a b c d).map (·, after)
  | _ => none

/-- The character of a code point. A half of a surrogate pair on its own has none. Texts are made of
characters only, so that the replacement character stands in for it. -/
def charOfPoint (n : Nat) : Char := if n.isValidChar then Char.ofNat n else '�'

/-- The character of an escape with a letter. -/
def escape? : Char → Option Char
  | '"' => some '"'
  | '\\' => some '\\'
  | '/' => some '/'
  | 'b' => some '\x08'
  | 'f' => some '\x0c'
  | 'n' => some '\n'
  | 'r' => some '\r'
  | 't' => some '\t'
  | _ => none

/-- The character of an escape by code point, given the characters after its `u`, and what
follows it. Two such escapes that are the halves of a surrogate pair make one character. -/
def readPoint (cs : List Char) : Except Stop (Char × List Char) :=
  match point? cs with
  | none => .error (.problem .badPoint ('u' :: cs))
  | some (high, after) =>
    match after with
    | '\\' :: 'u' :: ds =>
      if 0xD800 ≤ high && high < 0xDC00 && 5 ≤ ds.length then
        match point? ds with
        | none => .error (.problem .badPoint ('u' :: ds))
        | some (low, after₂) =>
          if 0xDC00 ≤ low && low < 0xE000 then
            .ok (charOfPoint (0x10000 + (high - 0xD800) * 0x400 + (low - 0xDC00)), after₂)
          else .ok (charOfPoint high, after)
      else .ok (charOfPoint high, after)
    | _ => .ok (charOfPoint high, after)

/-- A string up to its closing quote. `opening` is what stood ahead at the opening quote, and
`fuel` bounds the number of characters of the string. -/
def readString (opening : List Char) :
    (fuel : Nat) → List Char → Except Stop (List Char × List Char)
  | 0, _ => .error (.problem .unterminated opening)
  | fuel + 1, cs =>
    match cs with
    | [] => .error (.problem .unterminated opening)
    | '"' :: rest => .ok ([], rest)
    | ['\\'] => .error (.problem .unterminated opening)
    | '\\' :: 'u' :: rest => do
      let (c, rest) ← readPoint rest
      let (text, rest) ← readString opening fuel rest
      return (c :: text, rest)
    | '\\' :: e :: rest =>
      match escape? e with
      | none => .error (.problem .badEscape cs)
      | some c => do
        let (text, rest) ← readString opening fuel rest
        return (c :: text, rest)
    | c :: rest =>
      if c.toNat < 0x20 then .error (.problem .controlCharacter cs)
      else do
        let (text, rest) ← readString opening fuel rest
        return (c :: text, rest)

/-- Whether `c` is an ASCII digit. -/
def isDigit (c : Char) : Bool := '0' ≤ c && c ≤ '9'

/-- The digits of an integer: a zero alone, or a digit from 1 to 9 with all digits after it. -/
def integerPart? : List Char → Option (List Char × List Char)
  | '0' :: rest => some (['0'], rest)
  | c :: rest =>
    if isDigit c then some (c :: rest.takeWhile isDigit, rest.dropWhile isDigit) else none
  | [] => none

/-- A point and digits, if they come next. -/
def fractionPart : List Char → List Char × List Char
  | '.' :: rest =>
    let digits := rest.takeWhile isDigit
    if digits.isEmpty then ([], '.' :: rest) else ('.' :: digits, rest.dropWhile isDigit)
  | cs => ([], cs)

/-- An exponent with its sign or none, if one comes next. -/
def exponentPart : List Char → List Char × List Char
  | [] => ([], [])
  | e :: rest =>
    if e == 'e' || e == 'E' then
      let sign := rest.take 1 |>.filter fun c => c == '+' || c == '-'
      let after := rest.drop sign.length
      let digits := after.takeWhile isDigit
      if digits.isEmpty then ([], e :: rest)
      else (e :: sign ++ digits, after.dropWhile isDigit)
    else ([], e :: rest)

/-- A number whose sign, if it has one, is `sign`; `ahead` is where the value should start. -/
def readNumber (ahead sign cs : List Char) : Except Stop (Json × List Char) :=
  match integerPart? cs with
  | none => .error (.problem .noValue ahead)
  | some (digits, rest) =>
    let (fraction, rest) := fractionPart rest
    let (exponent, rest) := exponentPart rest
    if fraction.isEmpty && exponent.isEmpty then
      if Numeral.maxDigits < digits.length then .error (.hugeInteger digits.length)
      else
        let magnitude : Int := Numeral.ofDigits (digits.map fun c => c.toNat - '0'.toNat)
        .ok (.int (if sign.isEmpty then magnitude else -magnitude), rest)
    else .ok (.float (String.ofList (sign ++ digits ++ fraction ++ exponent)), rest)

/-- A value that is neither a string nor an array nor an object. -/
def readScalar (cs : List Char) : Except Stop (Json × List Char) :=
  match cs with
  | 'n' :: 'u' :: 'l' :: 'l' :: rest => .ok (.null, rest)
  | 't' :: 'r' :: 'u' :: 'e' :: rest => .ok (.bool true, rest)
  | 'f' :: 'a' :: 'l' :: 's' :: 'e' :: rest => .ok (.bool false, rest)
  | 'N' :: 'a' :: 'N' :: rest => .ok (.float "NaN", rest)
  | 'I' :: 'n' :: 'f' :: 'i' :: 'n' :: 'i' :: 't' :: 'y' :: rest => .ok (.float "Infinity", rest)
  | '-' :: 'I' :: 'n' :: 'f' :: 'i' :: 'n' :: 'i' :: 't' :: 'y' :: rest =>
    .ok (.float "-Infinity", rest)
  | '-' :: rest => readNumber cs ['-'] rest
  | _ => readNumber cs [] cs

mutual

/-- A value. `fuel` bounds the number of values and delimiters ahead, `room` that of the containers
inside one another. -/
def readValue (fuel room : Nat) (cs : List Char) : Except Stop (Json × List Char) :=
  match fuel with
  | 0 => .error (.problem .noValue cs)
  | fuel + 1 =>
    match cs with
    | '"' :: rest => do
      let (text, rest) ← readString cs (rest.length + 1) rest
      return (.string (String.ofList text), rest)
    | '{' :: rest =>
      match room with
      | 0 => .error (.tooNested .object)
      | room + 1 =>
        match skipSpace rest with
        | '}' :: rest => .ok (.object [], rest)
        | rest => do
          let (members, rest) ← readMembers fuel room rest
          return (.object (ofMembers members), rest)
    | '[' :: rest =>
      match room with
      | 0 => .error (.tooNested .array)
      | room + 1 =>
        match skipSpace rest with
        | ']' :: rest => .ok (.array [], rest)
        | rest => do
          let (elements, rest) ← readElements fuel room rest
          return (.array elements, rest)
    | _ => readScalar cs

/-- The elements of an array up to its closing bracket; there is at least one. -/
def readElements (fuel room : Nat) (cs : List Char) : Except Stop (List Json × List Char) :=
  match fuel with
  | 0 => .error (.problem .noValue cs)
  | fuel + 1 => do
    let (v, rest) ← readValue fuel room cs
    match skipSpace rest with
    | ']' :: rest => return ([v], rest)
    | ',' :: rest =>
      let (vs, rest) ← readElements fuel room (skipSpace rest)
      return (v :: vs, rest)
    | rest => throw (.problem .noComma rest)

/-- The members of an object up to its closing brace; there is at least one. -/
def readMembers (fuel room : Nat) (cs : List Char) :
    Except Stop (List (String × Json) × List Char) :=
  match fuel with
  | 0 => .error (.problem .noName cs)
  | fuel + 1 =>
    match cs with
    | '"' :: rest => do
      let (name, rest) ← readString cs (rest.length + 1) rest
      match skipSpace rest with
      | ':' :: rest =>
        let (v, rest) ← readValue fuel room (skipSpace rest)
        match skipSpace rest with
        | '}' :: rest => return ([(String.ofList name, v)], rest)
        | ',' :: rest =>
          let (members, rest) ← readMembers fuel room (skipSpace rest)
          return ((String.ofList name, v) :: members, rest)
        | rest => throw (.problem .noComma rest)
      | rest => throw (.problem .noColon rest)
    | _ => .error (.problem .noName cs)

end

/-- Why a text is no JSON value. -/
inductive ReadError
  | malformed (what : Problem) (line column offset : Nat)
  | hugeInteger (digits : Nat)
  | tooNested (inside : Container)
deriving DecidableEq, Repr

/-- The wording of a read error. -/
def ReadError.message : ReadError → String
  | malformed what line column offset =>
    what.message ++ ": line " ++ toString line ++ " column " ++ toString column ++ " (char " ++
      toString offset ++ ")"
  | hugeInteger digits =>
    "Exceeds the limit (" ++ toString Numeral.maxDigits ++
      " digits) for integer string conversion: value has " ++ toString digits ++
      " digits; use sys.set_int_max_str_digits() to increase the limit"
  | tooNested inside =>
    "maximum recursion depth exceeded while decoding a JSON " ++ inside.name ++
      " from a unicode string"

/-- A problem at the characters `ahead` of a text, with its place in the text. -/
def Stop.locate (text : List Char) : Stop → ReadError
  | hugeInteger digits => .hugeInteger digits
  | tooNested inside => .tooNested inside
  | problem what ahead =>
    let before := text.take (text.length - ahead.length)
    .malformed what (before.count '\n' + 1) ((before.reverse.takeWhile (· != '\n')).length + 1)
      before.length

/-- The value that the whole of a text is, white space around it aside. -/
def readAll (room : Nat) (text : List Char) : Except Stop Json := do
  if text.head? = some '\ufeff' then throw (.problem .byteOrderMark text)
  let (v, rest) ← readValue (2 * text.length + 2) room (skipSpace text)
  match skipSpace rest with
  | [] => return v
  | rest => throw (.problem .extraData rest)

/-- The value that a text is, with room for so many containers inside one another. Without a limit
there is room for as many as there are characters. -/
def parse (room : Option Nat) (text : String) : Except ReadError Json :=
  (readAll (room.getD text.toList.length) text.toList).mapError (Stop.locate text.toList)

end Scriptlet.Json
