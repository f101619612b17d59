/-
# Commands

The commands of the command line and how their arguments are read. Flags may
stand anywhere behind the command; what is wrong with them is found before what
is missing.
-/

namespace ArchDiagram

/-- What the program is asked to do. -/
inductive Command
  /-- Show the architectures of a document as JSON. -/
  | parse (file : String)
  /-- Write a document anew. -/
  | format (file : String) (indent : Nat)
  /-- Show a view and the navigation as JSON. -/
  | resolve (name registry : String) (document : Option String) (fill : Bool)
  /-- Show the findings in a registry. -/
  | lint (registry : String) (json : Bool)
deriving DecidableEq, Repr

namespace Command

/-- The word for a command. -/
def word : Command → String
  | .parse _ => "parse"
  | .format _ _ => "fmt"
  | .resolve _ _ _ _ => "resolve"
  | .lint _ _ => "lint"

/-- What is wrong with the arguments. -/
inductive ArgumentFault
  | missingCommand
  | unknownCommand (word : String)
  | unknownFlag (flag : String)
  /-- Nothing stands behind a flag with a value. -/
  | missingValue (flag : String)
  /-- The indentation is no positive number of 64 bits. -/
  | unusableIndent (given : String)
  /-- The operand, described by `what`, is missing. -/
  | missingOperand (word what : String)
  /-- There is more than one operand. -/
  | severalOperands (word what : String)
  | missingRegistry (word : String)
deriving DecidableEq, Repr

/-- The message for wrong arguments. -/
def ArgumentFault.message : ArgumentFault → String
  | .missingCommand => "missing command"
  | .unknownCommand word => s!"unknown command '{word}'"
  | .unknownFlag flag => s!"unknown flag '{flag}'"
  | .missingValue flag => s!"{flag} expects a value"
  | .unusableIndent given => s!"--indent expects a positive number, got '{given}'"
  | .missingOperand word what => s!"{word}: missing {what}"
  | .severalOperands word what => s!"{word}: expected exactly one {what}"
  | .missingRegistry word => s!"{word}: --registry FILE is required"

/-- The flags and the operands. -/
structure Options where
  operands : List String
  registry : Option String
  document : Option String
  indent : Nat
  fill : Bool
  json : Bool
deriving DecidableEq, Repr

namespace Options

/-- What holds without flags. -/
def initial : Options :=
  { operands := [], registry := none, document := none, indent := 4, fill := false, json := false }

/-- A positive number of 64 bits: digits, with a plus sign if wanted. -/
def indent? (given : String) : Option Nat :=
  let digits :=
    match given.toList with
    | '+' :: rest => rest
    | text => text
  let value := digits.foldl (fun value c => 10 * value + (c.toNat - '0'.toNat)) 0
  if !digits.isEmpty && digits.all Char.isDigit && 0 < value && value < Nat.pow 2 64 then some value
  else none

/-- Read the flags and operands in order; a repeated flag counts the last time. -/
def read (options : Options) : List String → Except ArgumentFault Options
  | [] => .ok options
  | "--registry" :: file :: rest => read { options with registry := some file } rest
  | "--arch" :: file :: rest => read { options with document := some file } rest
  | "--indent" :: given :: rest =>
      match indent? given with
      | some indent => read { options with indent } rest
      | none => .error (.unusableIndent given)
  | "--fill" :: rest => read { options with fill := true } rest
  | "--json" :: rest => read { options with json := true } rest
  | argument :: rest =>
      if argument ∈ ["--registry", "--arch", "--indent"] then .error (.missingValue argument)
      else if "--".toList.isPrefixOf argument.toList then .error (.unknownFlag argument)
      else read { options with operands := options.operands ++ [argument] } rest

/-- The only operand of a command. -/
def operand (options : Options) (word what : String) : Except ArgumentFault String :=
  match options.operands with
  | [operand] => .ok operand
  | [] => .error (.missingOperand word what)
  | _ => .error (.severalOperands word what)

/-- The registry of a command. -/
def requiredRegistry (options : Options) (word : String) : Except ArgumentFault String :=
  match options.registry with
  | some file => .ok file
  | none => .error (.missingRegistry word)

end Options

/-- The command some arguments ask for. -/
def ofArguments : List String → Except ArgumentFault Command
  | [] => .error .missingCommand
  | word :: arguments => do
      let options ← Options.initial.read arguments
      match word with
      | "parse" => return .parse (← options.operand word "FILE")
      | "fmt" => return .format (← options.operand word "FILE") options.indent
      | "resolve" =>
          let name ← options.operand word "NAME"
          let registry ← options.requiredRegistry word
          return .resolve name registry options.document options.fill
      | "lint" => return .lint (← options.requiredRegistry word) options.json
      | _ => .error (.unknownCommand word)

/-- The files a command reads, in order. -/
def files : Command → List String
  | .parse file => [file]
  | .format file _ => [file]
  | .resolve _ registry document _ => registry :: document.toList
  | .lint registry _ => [registry]

end Command

end ArchDiagram
