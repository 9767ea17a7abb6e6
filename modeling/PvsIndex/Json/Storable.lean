import PvsIndex.Json.Basic
import PvsIndex.Source.Word
import PvsIndex.Text.Digits

/-! Values that can be kept as they are, in contrast to values that are only passed over. -/

namespace PvsIndex.Json

/-- The nearest number with 53 binary digits; of two, the one that ends in zero. -/
def toDouble (n : Nat) : Nat :=
  let unit := 1 <<< (n.log2 - 52)
  let count := n / unit
  let rest := n % unit
  if 2 * rest < unit || 2 * rest = unit && count % 2 = 0 then count * unit
  else (count + 1) * unit

def infinity : Nat :=
  1 <<< 1024

/-- A number as a word times a power of ten. -/
structure Scientific where
  word : Nat
  power : Int

/-- Adds digits for as long as the word holds them. The digits from the first that does not fit
are left over. -/
def addDigits (word : Nat) : List Char → Nat × List Char
  | [] => (word, [])
  | d :: ds =>
    let next := Text.digitsValue [d] + word * 10
    if next < Word.limit then addDigits next ds else (word, d :: ds)

/-- Digits before the point that the word does not hold count as zeros; digits after the point that
it does not hold do not count. -/
def scientific (literal : List Char) : Scientific :=
  let unsigned := literal.dropWhile (· = '-')
  let whole := unsigned.takeWhile Char.isDigit
  let rest := unsigned.drop whole.length
  let fraction := match rest with
    | '.' :: rest => rest.takeWhile Char.isDigit
    | _ => []
  let exponent := rest.dropWhile fun c => c ≠ 'e' ∧ c ≠ 'E'
  let power : Int := match exponent with
    | _ :: '-' :: digits => -(Text.digitsValue digits : Int)
    | _ :: '+' :: digits => Text.digitsValue digits
    | _ :: digits => Text.digitsValue digits
    | [] => 0
  let (word, excess) := addDigits 0 whole
  let (word, dropped) := addDigits word fraction
  ⟨word, power + excess.length - (fraction.length - dropped.length)⟩

/-- The word, the power of ten and their product are each rounded to double precision. Fractions
of the word are finite whatever the power. -/
def isFinite (literal : String) : Bool :=
  let ⟨word, power⟩ := scientific literal.toList
  word = 0 || power < 0 ||
    (power ≤ 308 && toDouble (toDouble word * toDouble (Nat.pow 10 power.toNat)) < infinity)

mutual

/-- Every string is text, and every number is finite. -/
def isStorable : Json → Bool
  | number literal => isFinite literal
  | array items => areStorable items
  | object members => membersAreStorable members
  | textless => false
  | _ => true

def areStorable : List Json → Bool
  | [] => true
  | item :: items => item.isStorable && areStorable items

def membersAreStorable : List (String × Json) → Bool
  | [] => true
  | (_, value) :: members => value.isStorable && membersAreStorable members

end

mutual

/-- A value as it is kept: of members with the same name there is the last one. -/
def kept : Json → Json
  | array items => array (keptItems items)
  | object members => object (keptMembers members)
  | value => value

def keptItems : List Json → List Json
  | [] => []
  | item :: items => item.kept :: keptItems items

def keptMembers : List (String × Json) → List (String × Json)
  | [] => []
  | (name, value) :: members =>
    if members.any (·.1 = name) then keptMembers members
    else (name, value.kept) :: keptMembers members

end

end PvsIndex.Json
