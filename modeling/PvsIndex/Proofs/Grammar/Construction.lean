import PvsIndex.Proofs.Grammar.Precedence

/-! The trees of expressions as the grammar puts them together, whatever the operators ask for. -/

namespace PvsIndex

/-- The items that lists are made of. -/
inductive Item where
  | expression
  | type
  | binding
  | bindingGroup
  | letBinding

/-- The parts of an expression: an item, items with commas between them, or the cases of a
conditional after the first one. -/
inductive Part where
  | item (item : Item)
  | list (item : Item)
  | cases

/-- The expressions that are a token alone. -/
def ElementKind.ofWord : List (TokenKind × ElementKind) :=
  [(.number, .numberExpr), (.string, .stringExpr), (.trueKw, .trueExpr), (.falseKw, .falseExpr),
    (.identifier, .nameExpr)]

/-- The trees of a part, one constructor for each way to make one. -/
inductive Built : Part → List Tree → Prop where
  | word {t kind} (h : (t.kind, kind) ∈ ElementKind.ofWord) :
      Built (.item .expression) [.node kind [.leaf t]]
  | paren {l es r} (hl : l.kind = .openParen) (inner : Built (.list .expression) es)
      (hr : r.kind = .closeParen) :
      Built (.item .expression) [.node .parenExpr (.leaf l :: (es ++ [.leaf r]))]
  | call {f l es r} (callee : Built (.item .expression) [f]) (hl : l.kind = .openParen)
      (arguments : Built (.list .expression) es) (hr : r.kind = .closeParen) :
      Built (.item .expression) [.node .callExpr (f :: .leaf l :: (es ++ [.leaf r]))]
  | unary {op k e} (hop : op.kind.unaryLevel? = some k) (operand : Built (.item .expression) [e]) :
      Built (.item .expression) [.node .unaryExpr [.leaf op, e]]
  | binary {l op k r} (left : Built (.item .expression) [l]) (hop : op.kind.binaryLevel? = some k)
      (right : Built (.item .expression) [r]) :
      Built (.item .expression) [.node .binaryExpr [l, .leaf op, r]]
  | conditional {i c t d cs u e f} (hi : i.kind = .ifKw)
      (condition : Built (.item .expression) [c]) (ht : t.kind = .thenKw)
      (value : Built (.item .expression) [d]) (others : Built .cases cs) (hu : u.kind = .elseKw)
      (last : Built (.item .expression) [e]) (hf : f.kind = .endifKw) :
      Built (.item .expression)
        [.node .ifExpr (.leaf i :: c :: .leaf t :: d :: (cs ++ [.leaf u, e, .leaf f]))]
  | binder {w gs c e} (hw : w.kind ∈ [.forallKw, .existsKw, .lambdaKw])
      (groups : Built (.list .bindingGroup) gs) (hc : c.kind = .colon)
      (body : Built (.item .expression) [e]) :
      Built (.item .expression) [.node .binderExpr (.leaf w :: (gs ++ [.leaf c, e]))]
  | letIn {w bs i e} (hw : w.kind = .letKw) (bindings : Built (.list .letBinding) bs)
      (hi : i.kind = .inKw) (body : Built (.item .expression) [e]) :
      Built (.item .expression) [.node .letExpr (.leaf w :: (bs ++ [.leaf i, e]))]
  | nameType {n} (hn : n.kind = .identifier) : Built (.item .type) [.node .nameType [.leaf n]]
  | nameTypeOf {n l ts r} (hn : n.kind = .identifier) (hl : l.kind = .openBracket)
      (arguments : Built (.list .type) ts) (hr : r.kind = .closeBracket) :
      Built (.item .type) [.node .nameType (.leaf n :: .leaf l :: (ts ++ [.leaf r]))]
  | functionType {l ts a t r} (hl : l.kind = .openBracket) (domain : Built (.list .type) ts)
      (ha : a.kind = .arrow) (range : Built (.item .type) [t]) (hr : r.kind = .closeBracket) :
      Built (.item .type) [.node .functionType (.leaf l :: (ts ++ [.leaf a, t, .leaf r]))]
  | tupleType {l ts r} (hl : l.kind = .openBracket) (parts : Built (.list .type) ts)
      (hr : r.kind = .closeBracket) :
      Built (.item .type) [.node .tupleType (.leaf l :: (ts ++ [.leaf r]))]
  | setType {l bs p e r} (hl : l.kind = .openBrace) (bindings : Built (.list .binding) bs)
      (hp : p.kind = .pipe) (condition : Built (.item .expression) [e])
      (hr : r.kind = .closeBrace) :
      Built (.item .type) [.node .setType (.leaf l :: (bs ++ [.leaf p, e, .leaf r]))]
  | parenType {l t r} (hl : l.kind = .openParen) (inner : Built (.item .type) [t])
      (hr : r.kind = .closeParen) : Built (.item .type) [.node .parenType [.leaf l, t, .leaf r]]
  | name {n} (hn : n.kind = .identifier) :
      Built (.item .binding) [.node .binding [.node .identifier [.leaf n]]]
  | nameOf {n c t} (hn : n.kind = .identifier) (hc : c.kind = .colon)
      (type : Built (.item .type) [t]) :
      Built (.item .binding) [.node .binding [.node .identifier [.leaf n], .leaf c, t]]
  | bare {n} (hn : n.kind = .identifier) :
      Built (.item .bindingGroup) [.node .binding [.node .identifier [.leaf n]]]
  | enclosed {l bs r} (hl : l.kind = .openParen) (bindings : Built (.list .binding) bs)
      (hr : r.kind = .closeParen) : Built (.item .bindingGroup) (.leaf l :: (bs ++ [.leaf r]))
  | letBinding {b q e} (name : Built (.item .binding) [b]) (hq : q.kind = .equal)
      (value : Built (.item .expression) [e]) :
      Built (.item .letBinding) [.node .letBinding [b, .leaf q, e]]
  | one {item ts} (h : Built (.item item) ts) : Built (.list item) ts
  | more {item ts c us} (h : Built (.item item) ts) (hc : c.kind = .comma)
      (others : Built (.list item) us) : Built (.list item) (ts ++ .leaf c :: us)
  | noCase : Built .cases []
  | case {w c t d cs} (hw : w.kind = .elsifKw) (condition : Built (.item .expression) [c])
      (ht : t.kind = .thenKw) (value : Built (.item .expression) [d]) (others : Built .cases cs) :
      Built .cases (.leaf w :: c :: .leaf t :: d :: cs)

/-- The tree is that of an expression. -/
def Tree.IsExpression (t : Tree) : Prop :=
  Built (.item .expression) [t]

end PvsIndex
