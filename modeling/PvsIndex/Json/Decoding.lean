import PvsIndex.Json.Basic
import PvsIndex.Source.Word
import PvsIndex.Text.Digits

/-! Values of known types in JSON. Members that are not asked for may be anything. -/

namespace PvsIndex.Json

def text? : Json → Option String
  | string text => some text
  | _ => none

/-- A word that is chosen, alone or as the name of a null. -/
def choice? : Json → Option String
  | string word => some word
  | object [(word, null)] => some word
  | _ => none

def flag? : Json → Option Bool
  | bool value => some value
  | _ => none

def items? : Json → Option (List Json)
  | array items => some items
  | _ => none

def members? : Json → Option (List (String × Json))
  | object members => some members
  | _ => none

/-- A record with these fields may be written as the list of their values. No value is left out
then. -/
def named (fields : List String) : Json → Json
  | array items =>
    if items.length = fields.length then object (fields.zip items) else array items
  | json => json

def integer? : Json → Option Int
  | number literal =>
    match literal.toList with
    | '-' :: digits =>
      if digits.all Char.isDigit ∧ Text.digitsValue digits ≠ 0 then
        some (-(Text.digitsValue digits : Int))
      else none
    | digits => if digits.all Char.isDigit then some (Text.digitsValue digits) else none
  | _ => none

def word? (json : Json) : Option Nat := do
  let n ← json.integer?
  if 0 ≤ n ∧ n < Word.limit then some n.toNat else none

def signedWord? (json : Json) : Option Int := do
  let n ← json.integer?
  if -(Word.signedLimit : Int) ≤ n ∧ n < Word.signedLimit then some n else none

def nullable? {α : Type} (decode : Json → Option α) : Json → Option (Option α)
  | null => some none
  | value => (decode value).map some

/-- The value of a member, or none if there is no such member. A repeated member is refused. -/
def member? (name : String) (json : Json) : Option (Option Json) := do
  match (← json.members?).filter (·.1 = name) with
  | [] => some none
  | [(_, value)] => some (some value)
  | _ => none

def required? {α : Type} (name : String) (decode : Json → Option α) (json : Json) : Option α := do
  decode (← ← json.member? name)

def optional? {α : Type} (name : String) (decode : Json → Option α) (json : Json) :
    Option (Option α) := do
  match ← json.member? name with
  | none => some none
  | some value => nullable? decode value

def list? {α : Type} (decode : Json → Option α) (json : Json) : Option (List α) := do
  (← json.items?).mapM decode

end PvsIndex.Json
