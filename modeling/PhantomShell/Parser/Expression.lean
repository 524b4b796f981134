import PhantomShell.Compiler.Ast
import PhantomShell.Lib.Precedence
import PhantomShell.Parser.Lexer

/-!
# Expressions of the grammar

The productions of `parser.y` for `Expression`, without `TernaryExpression` and `VarDeclaration`, the
precedence declarations that resolve their conflicts, and the nodes that the actions build.
-/

namespace PhantomShell

/-! ## Tokens -/

inductive ConstantExpression
  | booleanLiteral (boolValue : Bool)
  | integerLiteral (intValue : BitVec 32)
  | floatLiteral (floatValue : BitVec 32)
  | charLiteral (charValue : UInt8)
  | stringLiteral (stringValue : CStr)
deriving DecidableEq

def ConstantExpression.token : ConstantExpression → Token
  | .booleanLiteral value => .booleanLiteral value
  | .integerLiteral value => .integerLiteral value
  | .floatLiteral value => .floatLiteral value
  | .charLiteral value => .charLiteral value
  | .stringLiteral value => .stringLiteral value

/-- An expression of one token. -/
inductive Operand
  | identifier (stringValue : CStr)
  | constant (c : ConstantExpression)
deriving DecidableEq

def Operand.token : Operand → Token
  | .identifier value => .identifier value
  | .constant c => c.token

/-- The operators of `UnaryExpression`. -/
inductive UnaryOperator
  | logicalNot
  | unaryMinus
deriving DecidableEq

def UnaryOperator.token : UnaryOperator → Token
  | .logicalNot => .char 33
  | .unaryMinus => .char 45

/-- The operators of `BinaryExpression`, without the call. -/
inductive BinaryOperator
  | comma
  | assignment
  | addition
  | subtraction
  | multiplication
  | division
  | equalTo
  | notEqualTo
  | lessThan
  | notGreaterThan
  | greaterThan
  | notLessThan
deriving DecidableEq

def BinaryOperator.token : BinaryOperator → Token
  | .comma => .char 44
  | .assignment => .char 61
  | .addition => .char 43
  | .subtraction => .char 45
  | .multiplication => .char 42
  | .division => .char 47
  | .equalTo => .equalTo
  | .notEqualTo => .notEqualTo
  | .lessThan => .lessThan
  | .notGreaterThan => .notGreaterThan
  | .greaterThan => .greaterThan
  | .notLessThan => .notLessThan

/-- The operator in front of an operand that is written with a character. -/
def unaryOperatorOf (c : UInt8) : Option UnaryOperator :=
  if c = 33 then some .logicalNot
  else if c = 45 then some .unaryMinus
  else none

/-- The operator between two operands that is written with a character. -/
def binaryOperatorOf (c : UInt8) : Option BinaryOperator :=
  if c = 44 then some .comma
  else if c = 61 then some .assignment
  else if c = 43 then some .addition
  else if c = 45 then some .subtraction
  else if c = 42 then some .multiplication
  else if c = 47 then some .division
  else none

/-- A token at the start of an expression. -/
def operandToken : Token → Option (OpHead Operand UnaryOperator)
  | .identifier value => some (.atom (.identifier value))
  | .booleanLiteral value => some (.atom (.constant (.booleanLiteral value)))
  | .integerLiteral value => some (.atom (.constant (.integerLiteral value)))
  | .floatLiteral value => some (.atom (.constant (.floatLiteral value)))
  | .charLiteral value => some (.atom (.constant (.charLiteral value)))
  | .stringLiteral value => some (.atom (.constant (.stringLiteral value)))
  | .char c => (unaryOperatorOf c).map .unary
  | .parenOpen => some .openParen
  | _ => none

/-- A token behind an expression. -/
def operatorToken : Token → Option (OpTail BinaryOperator)
  | .char c => (binaryOperatorOf c).map .binary
  | .equalTo => some (.binary .equalTo)
  | .notEqualTo => some (.binary .notEqualTo)
  | .lessThan => some (.binary .lessThan)
  | .notGreaterThan => some (.binary .notGreaterThan)
  | .greaterThan => some (.binary .greaterThan)
  | .notLessThan => some (.binary .notLessThan)
  | .parenOpen => some .openParen
  | .parenClose => some .closeParen
  | _ => none

/-- The token of an operand, an operator in front of it, or a parenthesis. -/
def headToken : OpHead Operand UnaryOperator → Token
  | .atom a => a.token
  | .unary p => p.token
  | .openParen => .parenOpen

/-- The token of an operator behind an operand, or a parenthesis. -/
def tailToken : OpTail BinaryOperator → Token
  | .binary b => b.token
  | .openParen => .parenOpen
  | .closeParen => .parenClose

lemma unaryOperatorOf_eq_some {c : UInt8} {p : UnaryOperator} (h : unaryOperatorOf c = some p) :
    .char c = p.token := by
  unfold unaryOperatorOf at h
  split_ifs at h with hc hc <;> cases h <;> rw [hc] <;> rfl

lemma binaryOperatorOf_eq_some {c : UInt8} {b : BinaryOperator} (h : binaryOperatorOf c = some b) :
    .char c = b.token := by
  unfold binaryOperatorOf at h
  split_ifs at h with hc hc hc hc hc hc <;> cases h <;> rw [hc] <;> rfl

lemma operandToken_eq_some_iff (t : Token) (h : OpHead Operand UnaryOperator) :
    operandToken t = some h ↔ t = headToken h := by
  constructor
  · intro heq
    cases t with
    | char c =>
      obtain ⟨p, hp, rfl⟩ := Option.map_eq_some_iff.mp heq
      exact unaryOperatorOf_eq_some hp
    | _ => cases heq <;> rfl
  · rintro rfl
    rcases h with ⟨a⟩ | ⟨p⟩ | _
    · rcases a with value | c
      · rfl
      · cases c <;> rfl
    · cases p <;> rfl
    · rfl

lemma operatorToken_eq_some_iff (t : Token) (h : OpTail BinaryOperator) :
    operatorToken t = some h ↔ t = tailToken h := by
  constructor
  · intro heq
    cases t with
    | char c =>
      obtain ⟨b, hb, rfl⟩ := Option.map_eq_some_iff.mp heq
      exact binaryOperatorOf_eq_some hb
    | _ => cases heq <;> rfl
  · rintro rfl
    rcases h with ⟨b⟩ | _ | _
    · cases b <;> rfl
    · rfl
    · rfl

/-- The tokens of the expressions. -/
def exprLexicon : OpLexicon Token Operand UnaryOperator BinaryOperator where
  head := operandToken
  tail := operatorToken
  headToken := headToken
  tailToken := tailToken
  head_eq := operandToken_eq_some_iff
  tail_eq := operatorToken_eq_some_iff

/-! ## Precedence -/

/-- How a conflict on one level is resolved. -/
inductive Associativity
  | left
  | right
  | nonassoc
deriving DecidableEq

/-- What has a precedence: tokens, and the names that stand behind `%prec`. -/
inductive PrecSymbol
  | token (t : Token)
  | callPrec
  | unaryMinusPrec
deriving DecidableEq

/-- The declarations of `parser.y`, the lowest precedence first. -/
def precedenceDeclarations : List (Associativity × List PrecSymbol) :=
  [(.left, [.token .keywordReturn]),
   (.left, [.token (.char 44)]),
   (.right, [.token (.char 61)]),
   (.left, [.token .equalTo, .token .notEqualTo]),
   (.left, [.token .notLessThan, .token .lessThan, .token .greaterThan, .token .notGreaterThan]),
   (.left, [.token (.char 43), .token (.char 45)]),
   (.left, [.token (.char 42), .token (.char 47)]),
   (.right, [.token (.char 33), .callPrec]),
   (.nonassoc, [.token .parenOpen, .token .parenClose]),
   (.left, [.unaryMinusPrec])]

/-- The line that declares a symbol. -/
def precLevel (sym : PrecSymbol) : ℕ :=
  precedenceDeclarations.findIdx fun line => line.2.contains sym

def precAssociativity (sym : PrecSymbol) : Option Associativity :=
  (precedenceDeclarations[precLevel sym]?).map (·.1)

/-- The precedence of a rule is that of its last token, unless `%prec` says otherwise. -/
def rulePrec : OpRule UnaryOperator BinaryOperator → PrecSymbol
  | .unary .unaryMinus => .unaryMinusPrec
  | .unary .logicalNot => .token UnaryOperator.logicalNot.token
  | .binary b => .token b.token

def nextPrec : OpNext BinaryOperator → PrecSymbol
  | .binary b => .token b.token
  | .call => .token .parenOpen

/-- The rule is reduced if its precedence is higher than that of the token, or if both are on one
line that is left associative. -/
def yaccReduces (rule : OpRule UnaryOperator BinaryOperator) (next : OpNext BinaryOperator) :
    Bool :=
  precLevel (nextPrec next) < precLevel (rulePrec rule) ||
    (precLevel (nextPrec next) == precLevel (rulePrec rule) &&
      precAssociativity (rulePrec rule) == some .left)

/-- The productions, each a derivation. -/
abbrev ExprTree := OpTree Operand UnaryOperator BinaryOperator

/-- The derivation that the parser finds. -/
def parseExpression (tokens : List Token) : Option ExprTree :=
  opParse exprLexicon yaccReduces tokens

/-! ## Actions -/

def UnaryOperator.operator : UnaryOperator → Operator
  | .logicalNot => .logicalNot
  | .unaryMinus => .unaryMinus

def BinaryOperator.operator : BinaryOperator → Operator
  | .comma => .comma
  | .assignment => .assignment
  | .addition => .addition
  | .subtraction => .subtraction
  | .multiplication => .multiplication
  | .division => .division
  | .equalTo => .equalTo
  | .notEqualTo => .notEqualTo
  | .lessThan => .lessThan
  | .notGreaterThan => .notGreaterThan
  | .greaterThan => .greaterThan
  | .notLessThan => .notLessThan

/-- `ast_new_node_literal_...` -/
def ConstantExpression.node : ConstantExpression → Expr
  | .booleanLiteral _ => .other .bool
  | .integerLiteral value => .literalInt value
  | .floatLiteral value => .literalFloat value
  | .charLiteral _ => .other .char
  | .stringLiteral _ => .other .string

/-- `ast_new_node_ident` -/
def Operand.node : Operand → Expr
  | .identifier value => .ident .unknwn value
  | .constant c => c.node

/-- The node of a derivation: `ast_new_node_unary_op`, `ast_new_node_binary_op` and
`ast_new_node_group`. The group of a call is a node of its own. -/
def exprNode : ExprTree → Expr
  | .atom a => a.node
  | .unary p t => .unaryOp .unknwn p.operator (exprNode t)
  | .binary b l r => .binaryOp .unknwn b.operator (exprNode l) (exprNode r)
  | .group t => .group .unknwn (exprNode t)
  | .call f t => .binaryOp .unknwn .functionCall (exprNode f) (.group .unknwn (exprNode t))

/-- The node that is built for the tokens of an expression. -/
def buildExpression (tokens : List Token) : Option Expr := (parseExpression tokens).map exprNode

/-! ## The documented table -/

/-- `a(...)` is on the first level of the table. -/
def documentedCall : ℕ := 1

/-- The operators in front of their operand are on the second. -/
def documentedUnary : ℕ := 2

/-- The other levels; the comma is on the last one. -/
def BinaryOperator.documentedLevel : BinaryOperator → ℕ
  | .multiplication | .division => 3
  | .addition | .subtraction => 4
  | .greaterThan | .notLessThan | .lessThan | .notGreaterThan => 6
  | .equalTo | .notEqualTo => 7
  | .assignment => 14
  | .comma => 15

/-- Right-to-left. -/
def BinaryOperator.documentedRight (b : BinaryOperator) : Bool := b == .assignment

/-- The operator on the left takes the expression between the two: its level is nearer to the top, or
both are on one level that goes from left to right. -/
def documentedReduces : OpRule UnaryOperator BinaryOperator → OpNext BinaryOperator → Bool
  | .unary _, .binary b => documentedUnary < b.documentedLevel
  | .unary _, .call => documentedUnary < documentedCall
  | .binary a, .binary b => a.documentedLevel < b.documentedLevel ||
      (a.documentedLevel == b.documentedLevel && !a.documentedRight)
  | .binary a, .call => a.documentedLevel < documentedCall

end PhantomShell
