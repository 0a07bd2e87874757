import QuoteLisp.Text.Utf8

/-!
# Files

What reading a file can lead to, and a `Directory`: a description of a working directory from which
paths can be read without touching a disk.
-/

namespace QuoteLisp

/-- Why a file cannot be read. -/
inductive FileError where
  | notFound
  | permissionDenied
  | isDirectory
  /-- The path leads through something that is no directory. -/
  | notADirectory
  /-- Another failure, in the words of the system. -/
  | system (text : String)
  deriving DecidableEq

/-- The message about a path that cannot be read. -/
def FileError.message (path : String) : FileError → String
  | notFound => s!"cannot find file '{path}'"
  | permissionDenied => s!"permission denied reading '{path}'"
  | isDirectory => s!"error reading '{path}': Is a directory (os error 21)"
  | notADirectory => s!"error reading '{path}': Not a directory (os error 20)"
  | system text => s!"error reading '{path}': {text}"

/-- What stands in a working directory: files with their bytes, and directories. Names are paths
relative to it. -/
structure Directory where
  entries : List (String × Option Bytes)

namespace Directory

/-- What a path leads to. -/
inductive Target where
  | file (bytes : Bytes)
  /-- A directory below the working directory, by the names that lead to it, the last one first. -/
  | inside (names : List String)
  /-- A directory above the working directory, of which nothing is known. -/
  | outside

/-- The target of a name in a directory below the working directory. -/
def step (d : Directory) (names : List String) (name : String) : Except FileError Target :=
  let path := "/".intercalate (name :: names).reverse
  match d.entries.lookup path with
  | some (some bytes) => .ok (.file bytes)
  | some none => .ok (.inside (name :: names))
  | none =>
    if d.entries.any fun entry => (path ++ "/").isPrefixOf entry.1 then
      .ok (.inside (name :: names))
    else .error .notFound

/-- Follows the parts of a path. An empty part and a dot stay in a directory, two dots leave it. -/
def follow (d : Directory) (target : Target) : List String → Except FileError Target
  | [] => .ok target
  | part :: parts =>
    match target with
    | .file _ => .error .notADirectory
    | .outside =>
      if part = "" ∨ part = "." ∨ part = ".." then d.follow .outside parts else .error .notFound
    | .inside names =>
      if part = "" ∨ part = "." then d.follow target parts
      else if part = ".." then
        match names with
        | [] => d.follow .outside parts
        | _ :: above => d.follow (.inside above) parts
      else
        match d.step names part with
        | .error e => .error e
        | .ok next => d.follow next parts

/-- The bytes of the file at a path. -/
def read (d : Directory) (path : String) : Except FileError Bytes :=
  if path = "" then .error .notFound
  else
    let start := if "/".isPrefixOf path then Target.outside else .inside []
    match d.follow start (path.splitOn "/") with
    | .error e => .error e
    | .ok (.file bytes) => .ok bytes
    | .ok _ => .error .isDirectory

end Directory

end QuoteLisp
