import Scriptlet.Text.Utf8

/-!
# Files

How a program reads files: by a path, which has content or an error. `Files.ofEntries` holds files
and directories in memory, and finds them as an operating system does from a working directory
with nothing else in it.
-/

namespace Scriptlet

/-- Why a path cannot be read. -/
inductive FileError
  | missing | notDirectory | isDirectory | nameTooLong | denied
deriving DecidableEq, Repr

/-- The wording of a file error about a path. -/
def FileError.message (path : String) : FileError → String
  | missing => "[Errno 2] No such file or directory: " ++ Text.quoted path
  | denied => "[Errno 13] Permission denied: " ++ Text.quoted path
  | notDirectory => "[Errno 20] Not a directory: " ++ Text.quoted path
  | isDirectory => "[Errno 21] Is a directory: " ++ Text.quoted path
  | nameTooLong => "[Errno 36] File name too long: " ++ Text.quoted path

/-- The content of a path, if it can be read. -/
abbrev Files := String → Except FileError (List UInt8)

namespace Files

/-- What a name in a directory stands for. -/
inductive Entry
  | file (content : List UInt8)
  | directory

/-- The most bytes that a name may have. -/
def maxName : Nat := 255

/-- Where a path has led so far: a directory inside the working directory, given by its names from
there, innermost first, or one outside it. -/
inductive Place
  | inside (names : List String)
  | outside

/-- Follows the names of a path from a place to the content of the file that they end at. -/
def follow (entries : List (String × Entry)) : Place → List String → Except FileError (List UInt8)
  | _, [] => .error .isDirectory
  | place, name :: rest =>
    if name == "" || name == "." then follow entries place rest
    else if name == ".." then
      match place with
      | .inside (_ :: names) => follow entries (.inside names) rest
      | _ => follow entries .outside rest
    else if maxName < name.utf8ByteSize then .error .nameTooLong
    else
      match place with
      | .outside => .error .missing
      | .inside names =>
        match entries.lookup ("/".intercalate (name :: names).reverse) with
        | none => .error .missing
        | some .directory => follow entries (.inside (name :: names)) rest
        | some (.file content) => if rest.isEmpty then .ok content else .error .notDirectory

/-- Files and directories in memory, by their names. -/
def ofEntries (entries : List (String × Entry)) : Files := fun path =>
  match path.splitOn "/" with
  | "" :: rest => if rest.isEmpty then .error .missing else follow entries .outside rest
  | names => follow entries (.inside []) names

end Files

/-- Why a file cannot be read as text. -/
inductive TextError
  | file (path : String) (e : FileError)
  | nulInPath
  | encoding (fault : Text.Utf8Fault)
deriving DecidableEq, Repr

/-- The wording of a text error. -/
def TextError.message : TextError → String
  | file path e => e.message path
  | nulInPath => "embedded null byte"
  | encoding fault => fault.message

/-- The text of the file at a path. -/
def Files.readText (files : Files) (path : String) : Except TextError String :=
  if path.contains '\x00' then .error .nulInPath
  else
    match files path with
    | .error e => .error (.file path e)
    | .ok bytes => (Text.textOfBytes bytes).mapError .encoding

end Scriptlet
