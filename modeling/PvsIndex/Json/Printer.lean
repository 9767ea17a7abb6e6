import PvsIndex.Json.Basic

/-! Writing JSON: in one line, or with a line for every item and member. -/

namespace PvsIndex.Json

def escapeControl (c : Char) : String :=
  if c = '\n' then "\\n"
  else if c = '\r' then "\\r"
  else if c = '\t' then "\\t"
  else if c = '\x08' then "\\b"
  else if c = '\x0c' then "\\f"
  else
    let digits := Nat.toDigits 16 c.toNat
    "\\u" ++ String.ofList (List.replicate (4 - digits.length) '0' ++ digits)

def escape (c : Char) : String :=
  if c = '"' then "\\\""
  else if c = '\\' then "\\\\"
  else if c.toNat < 0x20 then escapeControl c
  else c.toString

def renderString (s : String) : String :=
  "\"" ++ String.join (s.toList.map escape) ++ "\""

mutual

def render : Json → String
  | null => "null"
  | bool value => if value then "true" else "false"
  | number literal => literal
  | string text => renderString text
  | array items => "[" ++ renderItems items ++ "]"
  | object members => "\x7b" ++ renderMembers members ++ "\x7d"
  | textless => "\"\""

def renderItems : List Json → String
  | [] => ""
  | [item] => item.render
  | item :: items => item.render ++ "," ++ renderItems items

def renderMembers : List (String × Json) → String
  | [] => ""
  | [(name, value)] => renderString name ++ ":" ++ value.render
  | (name, value) :: members =>
    renderString name ++ ":" ++ value.render ++ "," ++ renderMembers members

end

def lineBreak (level : Nat) : String :=
  "\n" ++ String.ofList (List.replicate (2 * level) ' ')

mutual

def prettyAt (level : Nat) : Json → String
  | array (item :: items) =>
    "[" ++ prettyItems (level + 1) (item :: items) ++ lineBreak level ++ "]"
  | object (member :: members) =>
    "\x7b" ++ prettyMembers (level + 1) (member :: members) ++ lineBreak level ++ "\x7d"
  | value => value.render

def prettyItems (level : Nat) : List Json → String
  | [] => ""
  | [item] => lineBreak level ++ item.prettyAt level
  | item :: items => lineBreak level ++ item.prettyAt level ++ "," ++ prettyItems level items

def prettyMembers (level : Nat) : List (String × Json) → String
  | [] => ""
  | [(name, value)] => lineBreak level ++ renderString name ++ ": " ++ value.prettyAt level
  | (name, value) :: members =>
    lineBreak level ++ renderString name ++ ": " ++ value.prettyAt level ++ "," ++
      prettyMembers level members

end

def pretty (value : Json) : String :=
  value.prettyAt 0

end PvsIndex.Json
