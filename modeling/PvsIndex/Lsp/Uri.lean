/-! The names of documents. -/

namespace PvsIndex

/-- An absolute URI in its normal spelling. -/
structure Uri where
  text : String
  deriving DecidableEq, Inhabited

namespace Uri

def isSchemeChar (c : Char) : Bool :=
  c.isAlphanum || c = '+' || c = '-' || c = '.'

/-- What stands before a colon, if it begins with a letter and goes on in the characters of a
scheme, and what comes after the colon. -/
def splitScheme (cs : List Char) : Option (List Char × List Char) :=
  match cs.span isSchemeChar with
  | (c :: scheme, ':' :: rest) => if c.isAlpha then some (c :: scheme, rest) else none
  | _ => none

/-- The schemes whose URIs name a host. -/
def hostSchemes : List String :=
  ["ftp", "http", "https", "ws", "wss"]

/-- No host stands after the slashes, which may be any number and may lean either way. -/
def lacksHost (rest : List Char) : Bool :=
  (rest.dropWhile (· ∈ ['/', '\\'])).head?.all (· ∈ ['?', '#', ':'])

inductive Problem where
  /-- There is no scheme, and nothing that the rest is relative to. -/
  | relative
  | hostless
  deriving DecidableEq

def Problem.message : Problem → String
  | relative => "relative URL without a base"
  | hostless => "empty host"

/-- The control characters and the blank around a URI do not count, nor do tabs and ends of lines
inside. Case does not matter in a scheme. All else is taken to be spelled in the normal way. -/
def ofText (text : String) : Except Problem Uri :=
  let isMargin (c : Char) : Bool := c ≤ ' '
  let cs := ((text.toList.dropWhile isMargin).reverse.dropWhile isMargin).reverse
  match splitScheme (cs.filter (· ∉ ['\t', '\n', '\r'])) with
  | none => .error .relative
  | some (scheme, rest) =>
    let scheme := String.ofList (scheme.map Char.toLower)
    if scheme ∈ hostSchemes ∧ lacksHost rest then .error .hostless
    else .ok ⟨scheme ++ ":" ++ String.ofList rest⟩

end Uri

end PvsIndex
