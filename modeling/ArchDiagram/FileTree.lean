/-
# Files and paths

The files and directories of a machine, and what a path leads to. A path is
followed name by name, from the root if it begins with a slash and from the
current directory otherwise. An empty name and `.` stay, `..` goes up, and any
other name goes down. Only a directory can be passed, so a slash behind the name
of a file is a fault, and only a file can be read.
-/

import ArchDiagram.Text.Split

namespace ArchDiagram

/-- The files and directories of a machine. Each is known by the names that lead
to it from the root. What a file or directory lies in is a directory too. -/
structure FileTree where
  directories : List (List String)
  files : List (List String × String)
  /-- Where a path begins that does not begin with a slash. -/
  current : List String
deriving Repr

namespace FileTree

/-- Why a path cannot be read. -/
inductive Fault
  | missing
  /-- The path goes on behind a file. -/
  | notDirectory
  | isDirectory
  /-- A name or the whole path is longer than the machine allows. -/
  | nameTooLong
  | nulInPath
  /-- The file is no text in UTF-8. -/
  | notText
  /-- The machine refuses in words of its own. -/
  | refused (words : String)
deriving DecidableEq, Repr

/-- The message for a path that cannot be read, with the machine's number for it. -/
def Fault.message : Fault → String
  | .missing => "No such file or directory (os error 2)"
  | .notDirectory => "Not a directory (os error 20)"
  | .isDirectory => "Is a directory (os error 21)"
  | .nameTooLong => "File name too long (os error 36)"
  | .nulInPath => "file name contained an unexpected NUL byte"
  | .notText => "stream did not contain valid UTF-8"
  | .refused words => words

/-! ## What is there -/

/-- A file with its text, or a directory. -/
inductive Node
  | directory
  | file (text : String)
deriving DecidableEq, Repr

/-- What the names from the root lead to, each of them taken literally. -/
def node? (tree : FileTree) (names : List String) : Option Node :=
  match tree.files.lookup names with
  | some text => some (.file text)
  | none =>
      if (tree.current :: tree.directories ++ tree.files.map Prod.fst).any names.isPrefixOf then
        some .directory
      else none

/-! ## Following a path -/

/-- The most bytes a name may have. -/
def longestName : Nat := 255

/-- The most bytes a path may have. -/
def longestPath : Nat := 4095

/-- The names of a path. -/
def pathNames (path : String) : List String :=
  (Text.splitAll '/' path.toList).map String.ofList

/-- Where one more name of a path leads. The root lies above itself. -/
def follow (tree : FileTree) (place : List String) (name : String) :
    Except Fault (List String) :=
  match tree.node? place with
  | none => .error .missing
  | some (.file _) => .error .notDirectory
  | some .directory =>
      if name = "" ∨ name = "." then .ok place
      else if name = ".." then .ok place.dropLast
      else if longestName < name.utf8ByteSize then .error .nameTooLong
      else .ok (place ++ [name])

/-- Where a path leads. -/
def locate (tree : FileTree) (path : String) : Except Fault (List String) :=
  (pathNames path).foldlM tree.follow (if path.startsWith "/" then [] else tree.current)

/-- The text of the file a path leads to. -/
def read (tree : FileTree) (path : String) : Except Fault String := do
  if path.contains '\x00' then throw .nulInPath
  if path.isEmpty then throw .missing
  if longestPath < path.utf8ByteSize then throw .nameTooLong
  match tree.node? (← tree.locate path) with
  | none => throw .missing
  | some .directory => throw .isDirectory
  | some (.file text) => return text

/-! ## A place to work -/

/-- The directory a place to work lies at. -/
def workplace : List String := ["tmp", "work"]

/-- The directories that every machine has in its root. -/
def rootDirectories : List String :=
  ["bin", "boot", "dev", "etc", "home", "lib", "media", "mnt", "opt", "proc", "root", "run",
    "sbin", "srv", "sys", "tmp", "usr", "var"]

/-- A machine whose current directory holds the given files and nothing else. The
devices that can be read are the empty one and the standard input. -/
def working (files : List (String × String)) (input : String) : FileTree where
  directories := rootDirectories.map ([·])
  files :=
    (["dev", "null"], "") :: (["dev", "stdin"], input) ::
      files.map fun (path, text) =>
        (workplace ++ (pathNames path).filter (fun name => name != "" && name != "."), text)
  current := workplace

end FileTree

end ArchDiagram
