/-
# The program

Reads the arguments and the files they name, runs the command and prints what it
has to say. Wrong arguments end the program with 2, a command that fails with 1.
-/

import ArchDiagram.Command.Run

namespace ArchDiagram.Command

/-- How the program is used. -/
def usage : String :=
  "\n".intercalate [
    "usage:",
    "  archview parse FILE",
    "  archview fmt FILE [--indent N]",
    "  archview resolve NAME --registry FILE [--arch FILE] [--fill]",
    "  archview lint --registry FILE [--json]"]

/-- The number of a refusal, which opening a file gives negated. -/
def refusalNumber (code : UInt32) : UInt32 :=
  if code < 0x80000000 then code else 0 - code

/-- What the machine's refusal to read says. -/
def faultOf (error : IO.Error) : FileTree.Fault :=
  match error with
  | .noFileOrDirectory _ _ _ => .missing
  | .inappropriateType _ code _ | .invalidArgument _ code _ =>
      match refusalNumber code with
      | 20 => .notDirectory
      | 21 => .isDirectory
      | 36 => .nameTooLong
      | _ => .refused (toString error)
  | _ => .refused (toString error)

/-- The text that the bytes are, or why it cannot be had. -/
def readText (bytes : IO ByteArray) : IO (Except FileTree.Fault String) := do
  try
    match String.fromUTF8? (← bytes) with
    | some text => return .ok text
    | none => return .error .notText
  catch fault => return .error (faultOf fault)

/-- The texts of the files at the paths, or why they cannot be had. -/
def readFiles (paths : List String) : IO (List (String × Except FileTree.Fault String)) :=
  paths.mapM fun (path : String) => do
    if path.contains '\x00' then return (path, .error .nulInPath)
    return (path, ← readText (IO.FS.readBinFile path))

/-- What a command may read. -/
def sourcesOf (command : Command) : IO Sources := do
  let texts ← readFiles (command.files.filter (· != "-"))
  let input ←
    if command.files.contains "-" then readText (do (← IO.getStdin).readBinToEnd)
    else pure (.ok "")
  return { file := fun path => (texts.lookup path).getD (.error .missing), input }

end ArchDiagram.Command

/-- Run the command the arguments ask for. -/
def main (arguments : List String) : IO UInt32 := do
  match ArchDiagram.Command.ofArguments arguments with
  | .error fault =>
      IO.eprintln ("archview: " ++ fault.message)
      IO.eprintln ArchDiagram.Command.usage
      return 2
  | .ok command =>
      let result := command.run (← ArchDiagram.Command.sourcesOf command)
      for alert in ArchDiagram.Event.alerts result.events do
        IO.eprintln alert
      match result.printed with
      | .ok text =>
          IO.print text
          return 0
      | .error failure =>
          IO.eprintln (command.failureText failure)
          return 1
