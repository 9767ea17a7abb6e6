import PvsIndex.Command.Outcome
import PvsIndex.Text.Utf8

/-! A directory held in memory. -/

namespace PvsIndex

inductive DirectoryEntry where
  | file (content : List UInt8)
  | folder

/-- Entries by their names; the names of entries in folders have slashes. -/
abbrev Directory := List (String × DirectoryEntry)

namespace Directory

def decodeFile (content : List UInt8) : Except FileError String :=
  match Text.Utf8.decode? content with
  | none => .error .invalidText
  | some cs => .ok (String.ofList cs)

/-- The entry of that name. A folder need not be listed if something in it is. -/
def entry? (d : Directory) (name : String) : Option DirectoryEntry :=
  match d.lookup name with
  | some entry => some entry
  | none =>
    if d.any fun (other, _) => (name ++ "/").isPrefixOf other then some .folder else none

/-- Where a path leads. -/
inductive Place where
  | file (content : List UInt8)
  | folder (names : List String)
  /-- A folder that holds nothing which is known. -/
  | outside

def nameLimit : Nat := 255

def pathLimit : Nat := 4095

/-- One step on the way: into an entry, back with two dots, or nowhere. -/
def step (d : Directory) (place : Place) (name : String) : Except FileError Place :=
  match place, name with
  | .file _, _ => .error .notADirectory
  | place, "" | place, "." => .ok place
  | .folder names, ".." => .ok (if names.isEmpty then .outside else .folder names.dropLast)
  | .outside, ".." => .ok .outside
  | place, name =>
    if nameLimit < name.utf8ByteSize then .error .nameTooLong
    else match place with
      | .folder names =>
        let names := names ++ [name]
        match d.entry? ("/".intercalate names) with
        | some (.file content) => .ok (.file content)
        | some .folder => .ok (.folder names)
        | none => .error .notFound
      | _ => .error .notFound

/-- Slashes divide the steps. A path that begins with a slash begins outside. -/
def locate (d : Directory) (path : String) : Except FileError Place :=
  if path = "" then .error .notFound
  else if pathLimit < path.utf8ByteSize then .error .nameTooLong
  else (path.splitOn "/").foldlM d.step (if path.startsWith "/" then .outside else .folder [])

def read (d : Directory) (path : String) : Except FileError String := do
  match ← d.locate path with
  | .file content => decodeFile content
  | .folder _ | .outside => .error .isADirectory

end Directory

end PvsIndex
