import PhantomShell.Parser.Expression

/-!
# The grammar

The productions of `parser.y`, each a constructor of the derivations; those that only rename a
nonterminal are left out. Bison resolves the conflicts of the grammar by precedence and by shifting:
a derivation is the one that the parser finds if it is resolved in this sense.
-/

namespace PhantomShell

/-! ## Derivations -/

/-- `Expression` -/
inductive Expression
  | operand (a : Operand)
  | unary (p : UnaryOperator) (e : Expression)
  | binary (b : BinaryOperator) (l r : Expression)
  | call (f e : Expression)
  | group (e : Expression)
  | ternary (e₁ e₂ e₃ : Expression)
  | varDeclaration (varType varName : CStr)

/-- `FLUSH`; `_FLUSH` is an `Option Flush`. -/
inductive Flush
  | semicolon
  | newline
deriving DecidableEq

/-- `FuncArgList` -/
inductive FuncArgList
  | empty
  | first (varType varName : CStr)
  | next (list : FuncArgList) (varType varName : CStr)

inductive Nonterminal
  | scope
  | statement
  | statements
  | switchSelectionBlock
  | elifSelectionBlock

/-- A derivation from a nonterminal. A choice without a constant is `OTHER`. -/
inductive Derivation : Nonterminal → Type
  | scope (flush : Option Flush) (stats : Derivation .statements) : Derivation .scope
  | empty : Derivation .statements
  | link (stats : Derivation .statements) (stat : Derivation .statement) : Derivation .statements
  | expression (e : Expression) (flush : Flush) : Derivation .statement
  | block (scope : Derivation .scope) : Derivation .statement
  | ifThen (e : Expression) (trueScope : Derivation .scope) : Derivation .statement
  | ifElse (e : Expression) (trueScope falseScope : Derivation .scope) : Derivation .statement
  | ifElif (e : Expression) (trueScope : Derivation .scope)
      (elifs : Derivation .elifSelectionBlock) : Derivation .statement
  | switch (e : Expression) (flush : Option Flush)
      (choices : Derivation .switchSelectionBlock) : Derivation .statement
  | while (e : Expression) (loopScope : Derivation .scope) : Derivation .statement
  | ret (e : Expression) : Derivation .statement
  | func (name : CStr) (args : FuncArgList) (retType : Option CStr)
      (body : Derivation .scope) : Derivation .statement
  | flush (stat : Derivation .statement) (flush : Flush) : Derivation .statement
  | firstChoice (value : Option ConstantExpression)
      (scope : Derivation .scope) : Derivation .switchSelectionBlock
  | nextChoice (choices : Derivation .switchSelectionBlock) (value : Option ConstantExpression)
      (scope : Derivation .scope) : Derivation .switchSelectionBlock
  | elifThen (e : Expression) (trueScope : Derivation .scope) : Derivation .elifSelectionBlock
  | elifElif (e : Expression) (trueScope : Derivation .scope)
      (elifs : Derivation .elifSelectionBlock) : Derivation .elifSelectionBlock
  | elifElse (e : Expression) (trueScope falseScope : Derivation .scope) :
      Derivation .elifSelectionBlock

/-! ## Tokens -/

def Flush.token : Flush → Token
  | .semicolon => .semicolon
  | .newline => .newline

/-- The tokens of an expression. -/
def Expression.yield : Expression → List Token
  | .operand a => [a.token]
  | .unary p e => p.token :: e.yield
  | .binary b l r => l.yield ++ b.token :: r.yield
  | .call f e => f.yield ++ .parenOpen :: (e.yield ++ [.parenClose])
  | .group e => .parenOpen :: (e.yield ++ [.parenClose])
  | .ternary e₁ e₂ e₃ =>
    .parenOpen :: (e₁.yield ++ .char 63 :: (e₂.yield ++ .char 58 :: (e₃.yield ++ [.parenClose])))
  | .varDeclaration varType varName => [.identifier varType, .identifier varName]

def FuncArgList.yield : FuncArgList → List Token
  | .empty => []
  | .first varType varName => [.identifier varType, .identifier varName]
  | .next list varType varName =>
    list.yield ++ [.char 44, .identifier varType, .identifier varName]

/-- `_FLUSH` -/
def flushYield (flush : Option Flush) : List Token := (flush.map Flush.token).toList

/-- `CASE ConstantExpression`, or `OTHER` -/
def choiceYield : Option ConstantExpression → List Token
  | some value => [.keywordCase, value.token]
  | none => [.keywordOther]

/-- The tokens of a derivation. -/
def Derivation.yield : {symbol : Nonterminal} → Derivation symbol → List Token
  | _, .scope f stats => .braceOpen :: (flushYield f ++ (stats.yield ++ [.braceClose]))
  | _, .empty => []
  | _, .link stats stat => stats.yield ++ stat.yield
  | _, .expression e f => e.yield ++ [f.token]
  | _, .block body => body.yield
  | _, .ifThen e trueScope => .keywordIf :: (e.yield ++ trueScope.yield)
  | _, .ifElse e trueScope falseScope =>
    .keywordIf :: (e.yield ++ (trueScope.yield ++ .keywordElse :: falseScope.yield))
  | _, .ifElif e trueScope elifs => .keywordIf :: (e.yield ++ (trueScope.yield ++ elifs.yield))
  | _, .switch e f choices =>
    .keywordSwitch :: (e.yield ++ .braceOpen :: (flushYield f ++ (choices.yield ++ [.braceClose])))
  | _, .while e loopScope => .keywordWhile :: (e.yield ++ loopScope.yield)
  | _, .ret e => .keywordReturn :: e.yield
  | _, .func name args retType body =>
    .keywordFunc :: .identifier name :: .parenOpen ::
      (args.yield ++ .parenClose :: ((retType.map Token.identifier).toList ++ body.yield))
  | _, .flush stat f => stat.yield ++ [f.token]
  | _, .firstChoice value body => choiceYield value ++ body.yield
  | _, .nextChoice choices value body => choices.yield ++ (choiceYield value ++ body.yield)
  | _, .elifThen e trueScope => .keywordElif :: (e.yield ++ trueScope.yield)
  | _, .elifElif e trueScope elifs => .keywordElif :: (e.yield ++ (trueScope.yield ++ elifs.yield))
  | _, .elifElse e trueScope falseScope =>
    .keywordElif :: (e.yield ++ (trueScope.yield ++ .keywordElse :: falseScope.yield))

/-- The first of the tokens, and the token behind them if there are none. -/
def firstToken (tokens : List Token) (follow : Option Token) : Option Token :=
  tokens.head?.or follow

/-- The tokens of a program, which is a list of statements. -/
def programYield (program : List (Derivation .statement)) : List Token :=
  program.flatMap Derivation.yield

/-! ## Conflicts -/

/-- The expression for its operators: what else it has are operands. -/
def Expression.tree : Expression → OpTree Expression UnaryOperator BinaryOperator
  | .operand a => .atom (.operand a)
  | .unary p e => .unary p e.tree
  | .binary b l r => .binary b l.tree r.tree
  | .call f e => .call f.tree e.tree
  | .group e => .group e.tree
  | .ternary e₁ e₂ e₃ => .atom (.ternary e₁ e₂ e₃)
  | .varDeclaration varType varName => .atom (.varDeclaration varType varName)

/-- The operators are grouped by precedence, also inside of `? :`. -/
def Expression.Resolved : Expression → Prop
  | .operand _ => True
  | .unary p e => e.Resolved ∧ ∀ next ∈ e.tree.leftEdge, yaccReduces (.unary p) next = false
  | .binary b l r => (l.Resolved ∧ ∀ rule ∈ l.tree.rightEdge, yaccReduces rule (.binary b)) ∧
      r.Resolved ∧ ∀ next ∈ r.tree.leftEdge, yaccReduces (.binary b) next = false
  | .call f e => (f.Resolved ∧ ∀ rule ∈ f.tree.rightEdge, yaccReduces rule .call) ∧ e.Resolved
  | .group e => e.Resolved
  | .ternary e₁ e₂ e₃ => e₁.Resolved ∧ e₂.Resolved ∧ e₃.Resolved
  | .varDeclaration _ _ => True

/-- The last token is an identifier that can become the type of a variable. -/
def Expression.endsInIdentifier : Expression → Bool
  | .operand (.identifier _) => true
  | .unary _ e => e.endsInIdentifier
  | .binary _ _ r => r.endsInIdentifier
  | _ => false

/-- A token that is shifted behind an expression although a statement could start with it. -/
def Expression.continues (e : Expression) : Token → Bool
  | .parenOpen => true
  | .identifier _ => e.endsInIdentifier
  | t => t == .char 45

/-- The derivation is the one that the parser finds, for the token behind it. -/
def Derivation.Resolved : {symbol : Nonterminal} → Derivation symbol → Option Token → Prop
  | _, .scope _ stats, _ => stats.Resolved (some .braceClose)
  | _, .empty, _ => True
  | _, .link stats stat, follow =>
    stats.Resolved (firstToken stat.yield follow) ∧ stat.Resolved follow
  | _, .expression e _, _ => e.Resolved
  | _, .block body, follow => body.Resolved follow
  | _, .ifThen e trueScope, follow => e.Resolved ∧ trueScope.Resolved follow
  | _, .ifElse e trueScope falseScope, follow =>
    e.Resolved ∧ trueScope.Resolved (some .keywordElse) ∧ falseScope.Resolved follow
  | _, .ifElif e trueScope elifs, follow =>
    e.Resolved ∧ trueScope.Resolved (some .keywordElif) ∧ elifs.Resolved follow
  | _, .switch e _ choices, _ => e.Resolved ∧ choices.Resolved (some .braceClose)
  | _, .while e loopScope, follow => e.Resolved ∧ loopScope.Resolved follow
  | _, .ret e, follow => e.Resolved ∧ ∀ t ∈ follow, e.continues t = false
  | _, .func _ _ _ body, follow => body.Resolved follow
  | _, .flush stat f, _ => stat.Resolved (some f.token)
  | _, .firstChoice _ body, follow => body.Resolved follow
  | _, .nextChoice choices value body, follow =>
    choices.Resolved (firstToken (choiceYield value) follow) ∧ body.Resolved follow
  | _, .elifThen e trueScope, follow => e.Resolved ∧ trueScope.Resolved follow
  | _, .elifElif e trueScope elifs, follow =>
    e.Resolved ∧ trueScope.Resolved (some .keywordElif) ∧ elifs.Resolved follow
  | _, .elifElse e trueScope falseScope, follow =>
    e.Resolved ∧ trueScope.Resolved (some .keywordElse) ∧ falseScope.Resolved follow

/-- The statements of a program are. -/
def ProgramResolved : List (Derivation .statement) → Prop
  | [] => True
  | stat :: program =>
    stat.Resolved (firstToken (programYield program) none) ∧ ProgramResolved program

end PhantomShell
