import PvsIndex.Text.Quoted

/-! What a command leaves behind, and the failures of reading files. -/

namespace PvsIndex

structure Outcome where
  exit : Nat := 0
  stdout : String := ""
  stderr : String := ""
  deriving DecidableEq

inductive FileError where
  | notFound
  | notADirectory
  | isADirectory
  | nameTooLong
  | invalidText
  | system (code : Nat) (message : String)
  deriving DecidableEq

namespace FileError

def kind : FileError → String
  | notFound => "NotFound"
  | notADirectory => "NotADirectory"
  | isADirectory => "IsADirectory"
  | nameTooLong => "InvalidFilename"
  | invalidText => "InvalidData"
  | system _ _ => "Uncategorized"

def message : FileError → String
  | notFound => "No such file or directory"
  | notADirectory => "Not a directory"
  | isADirectory => "Is a directory"
  | nameTooLong => "File name too long"
  | invalidText => "stream did not contain valid UTF-8"
  | system _ message => message

def code? : FileError → Option Nat
  | notFound => some 2
  | notADirectory => some 20
  | isADirectory => some 21
  | nameTooLong => some 36
  | invalidText => none
  | system code _ => some code

def render (e : FileError) : String :=
  match e.code? with
  | none => e.message
  | some code => s!"{e.message} (os error {code})"

def details (e : FileError) : String :=
  match e.code? with
  | none => s!"Error \x7b kind: {e.kind}, message: {Text.quoted e.message} \x7d"
  | some code =>
    s!"Os \x7b code: {code}, kind: {e.kind}, message: {Text.quoted e.message} \x7d"

end FileError

/-- A way to get at the text of files. -/
abbrev FileReader := String → Except FileError String

end PvsIndex
