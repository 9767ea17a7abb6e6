import PvsIndex.Token.Kind

/-! Reserved words, in either case. -/

namespace PvsIndex

namespace Keyword

def words : List (String × TokenKind) :=
  [
    ("ALL", .allKw), ("AND", .andKw), ("BEGIN", .beginKw), ("ELSE", .elseKw),
    ("ELSIF", .elsifKw), ("END", .endKw), ("ENDIF", .endifKw), ("EXISTS", .existsKw),
    ("EXPORTING", .exportingKw), ("FALSE", .falseKw), ("FORALL", .forallKw), ("FROM", .fromKw),
    ("IF", .ifKw), ("IFF", .iffKw), ("IMPLIES", .impliesKw), ("IMPORTING", .importingKw),
    ("IN", .inKw), ("LAMBDA", .lambdaKw), ("LET", .letKw), ("NONEMPTY_TYPE", .nonemptyTypeKw),
    ("NOT", .notKw), ("OR", .orKw), ("THEN", .thenKw), ("THEORY", .theoryKw), ("TRUE", .trueKw),
    ("TYPE", .typeKw), ("VAR", .varKw)
  ]

def formulaWords : List String :=
  [
    "ASSUMPTION", "AXIOM", "CHALLENGE", "CLAIM", "CONJECTURE", "COROLLARY", "FACT", "FORMULA",
    "LAW", "LEMMA", "OBLIGATION", "POSTULATE", "PROPOSITION", "SUBLEMMA", "THEOREM"
  ]

/-- The kind of a reserved word; only ASCII letters have two cases. -/
def kind? (word : String) : Option TokenKind :=
  let upper := word.map Char.toUpper
  match words.lookup upper with
  | some kind => some kind
  | none => if upper ∈ formulaWords then some .formulaKw else none

end Keyword

end PvsIndex
