import PvsIndex.Json.Decoding
import PvsIndex.Json.Storable
import PvsIndex.Lsp.Uri

/-! The shape that a JSON value has to have. -/

namespace PvsIndex

inductive Schema.Need where
  | required
  | optional
  /-- May be absent or null, and left out at the end of a list of values. -/
  | omissible
  deriving DecidableEq

inductive Schema where
  | flag
  | text
  | uri
  | word
  | anything
  | number (choices : List Nat)
  /-- A word alone, or as the name of nothing. -/
  | choice (words : List String)
  | list (item : Schema)
  | either (first second : Schema)
  /-- A value that is kept before it is looked at. It is nested no deeper than `depth`. -/
  | keep (depth : Nat) (item : Schema)
  /-- Members, or the list of their values in this order. -/
  | record (fields : List (String × Schema.Need × Schema))

namespace Schema

mutual

def accepts : Schema → Json → Bool
  | flag, json => json.flag?.isSome
  | text, json => json.text?.isSome
  | uri, json => json.text?.any fun text => (Uri.ofText text).isOk
  | word, json => json.word?.isSome
  | anything, _ => true
  | number choices, json => json.word?.any choices.contains
  | choice words, json => json.choice?.any words.contains
  | list item, json => json.items?.any fun items => items.all item.accepts
  | either first second, json => first.accepts json || second.accepts json
  | keep depth item, json => json.depth ≤ depth && json.isStorable && item.accepts json.kept
  | record fields, .array items => acceptsItems fields items
  | record fields, json => json.members?.isSome && acceptsMembers fields json

def acceptsItems : List (String × Need × Schema) → List Json → Bool
  | [], items => items.isEmpty
  | (_, need, _) :: fields, [] => need = .omissible && acceptsItems fields []
  | (_, need, schema) :: fields, item :: items =>
    (match need, item with
      | .optional, .null | .omissible, .null => true
      | _, item => schema.accepts item) && acceptsItems fields items

def acceptsMembers : List (String × Need × Schema) → Json → Bool
  | [], _ => true
  | (name, need, schema) :: fields, json =>
    (match need, json.member? name with
      | .optional, some none | .omissible, some none => true
      | .optional, some (some .null) | .omissible, some (some .null) => true
      | _, some (some value) => schema.accepts value
      | _, _ => false) && acceptsMembers fields json

end

end Schema

end PvsIndex
