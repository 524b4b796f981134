import PhantomShell.Parser.Grammar

/-!
# Semantic actions

The actions of `parser.y`, the functions of `parser.c` that they call, and what the keywords do to
`lexer_state`, as in the default build: `NODE_UPCAST` takes any node. Memory is a list of nodes that
only grows; a pointer is an index. Access through a null pointer stops the program.

A derivation is run in the order in which the parser reads its tokens and reduces its productions.
The parser reads the token behind a production before it reduces it if another token could also be
shifted there.
-/

namespace PhantomShell

/-! ## State -/

/-- `none` is the null pointer. -/
abbrev Ptr := Option ℕ

/-- The structures of `parser.h`. A choice without an expression is of type `STAT_SWITCH_OTHER`. -/
inductive AstNode
  | ident (value : CStr)
  | literal (value : ConstantExpression)
  | unaryOp (operator : Operator) (operand : Ptr)
  | binaryOp (operator : Operator) (left right : Ptr)
  | ternaryOp (operand₁ operand₂ operand₃ : Ptr)
  | group (expr : Ptr)
  | declVar (varType varName : CStr) (next : Ptr)
  | funcArgList (first last : Ptr)
  | scope (stats : Ptr)
  | statList (size : ℕ) (first last : Ptr)
  | statExpr (next expr : Ptr)
  | statRet (next expr : Ptr)
  | statIf (next expr trueScope falseScope : Ptr)
  | statSwitch (next expr choice : Ptr)
  | statSwitchChoice (expr scope next : Ptr)
  | statWhile (next expr loopScope : Ptr)
  | declFunc (name : CStr) (retType : Option CStr) (args body : Ptr)
deriving DecidableEq

/-- The type has the bit of `AST_NODE_EXPR_MASK`. -/
def AstNode.isExpr : AstNode → Bool
  | .ident _ | .literal _ | .unaryOp _ _ | .binaryOp _ _ _ | .ternaryOp _ _ _ | .group _ => true
  | _ => false

/-- A write to `next` of an `ast_node_stat_t`, which is the first field behind the header; a scope
has `stats` there. Other nodes are no statements. -/
def AstNode.setNext (next : Ptr) : AstNode → AstNode
  | .scope _ => .scope next
  | .statExpr _ expr => .statExpr next expr
  | .statRet _ expr => .statRet next expr
  | .statIf _ expr trueScope falseScope => .statIf next expr trueScope falseScope
  | .statSwitch _ expr choice => .statSwitch next expr choice
  | .statWhile _ expr loopScope => .statWhile next expr loopScope
  | node => node

/-- `psh_lexer_state_t`. No production has `CLASS`, so `is_inside_class` and `is_inside_member_func`
stay as they are. -/
structure LexerState where
  isInsideFunc : Bool
  isInsideSelectionStat : ℤ
  isInsideIterationStat : ℤ
deriving DecidableEq

/-- `lexer_state`, whether the token behind the last one that was shifted has been read, the nodes,
and the nodes that `compiler_compile` was called with. -/
structure ParserState where
  lexer : LexerState
  ahead : Bool
  nodes : List AstNode
  compiled : List ℕ

/-- Before the first token. -/
def parserInit : ParserState := ⟨⟨false, 0, 0⟩, false, [], []⟩

/-- The parser stops at an access through a null pointer. -/
abbrev ParserM := StateT ParserState Option

/-! ## Tokens -/

/-- `lexer_handle_keyword_...`; a function in a function is only reported. -/
def lexerHandleKeyword (t : Token) (l : LexerState) : LexerState :=
  match t with
  | .keywordFunc => { l with isInsideFunc := true }
  | .keywordIf => { l with isInsideSelectionStat := l.isInsideSelectionStat + 1 }
  | .keywordSwitch => { l with isInsideSelectionStat := l.isInsideSelectionStat + 1 }
  | .keywordWhile => { l with isInsideIterationStat := l.isInsideIterationStat + 1 }
  | _ => l

/-- At the end of the text there is no token. -/
def lexerHandle (next : Option Token) (l : LexerState) : LexerState :=
  match next with
  | some t => lexerHandleKeyword t l
  | none => l

/-- The state of the lexer when the next token has been read. -/
def ParserState.lexed (next : Option Token) (s : ParserState) : LexerState :=
  if s.ahead then s.lexer else lexerHandle next s.lexer

/-- The next token is read unless it has been, and taken. -/
def shift (t : Token) : ParserM Unit :=
  modify fun s => { s with lexer := s.lexed (some t), ahead := false }

/-- The next token is read unless it has been. -/
def peek (next : Option Token) : ParserM Unit :=
  modify fun s => { s with lexer := s.lexed next, ahead := true }

/-- `_FLUSH`, where `follow` is behind it. -/
def shiftFlush (f : Option Flush) (follow : Option Token) : ParserM Unit :=
  match f with
  | some f => shift f.token
  | none => peek follow

/-! ## Memory -/

/-- `malloc` -/
def newNode (node : AstNode) : ParserM Ptr := do
  let s ← get
  set { s with nodes := s.nodes ++ [node] }
  return some s.nodes.length

def readNode (p : Ptr) : ParserM AstNode := do
  let s ← get
  (p.bind (s.nodes[·]?) : Option AstNode)

/-- A write to a field of a node. -/
def writeNode (p : Ptr) (f : AstNode → AstNode) : ParserM Unit := do
  let i ← (p : Option ℕ)
  modify fun s => { s with nodes := s.nodes.modify i f }

/-- `NODE_UPCAST_EXPR` -/
def nodeUpcastExpr (p : Ptr) : ParserM Ptr := do
  let node ← readNode p
  return if node.isExpr then p else none

/-- A write to `lexer_state`. -/
def modifyLexer (f : LexerState → LexerState) : ParserM Unit :=
  modify fun s => { s with lexer := f s.lexer }

/-- The call of `compiler_compile`. -/
def callCompilerCompile (p : Ptr) : ParserM Unit :=
  modify fun s => { s with compiled := s.compiled ++ p.toList }

/-- No function, selection or iteration is open but for the statement's own. -/
def LexerState.isOutside (l : LexerState) (ownSelection ownIteration : ℤ) : Bool :=
  !l.isInsideFunc && l.isInsideSelectionStat - ownSelection == 0 &&
    l.isInsideIterationStat - ownIteration == 0

/-- A statement that is outside is compiled and freed. -/
def compileOutside (p : Ptr) (ownSelection ownIteration : ℤ) : ParserM Ptr := do
  let s ← get
  if s.lexer.isOutside ownSelection ownIteration then
    callCompilerCompile p
    return none
  else
    return p

/-! ## Expressions -/

def astNewNodeUnaryOp (operator : Operator) (operand : Ptr) : ParserM Ptr := do
  let operand ← nodeUpcastExpr operand
  newNode (.unaryOp operator operand)

def astNewNodeBinaryOp (operator : Operator) (left right : Ptr) : ParserM Ptr := do
  let left ← nodeUpcastExpr left
  let right ← nodeUpcastExpr right
  newNode (.binaryOp operator left right)

def astNewNodeTernaryOp (operand₁ operand₂ operand₃ : Ptr) : ParserM Ptr := do
  let operand₁ ← nodeUpcastExpr operand₁
  let operand₂ ← nodeUpcastExpr operand₂
  let operand₃ ← nodeUpcastExpr operand₃
  newNode (.ternaryOp operand₁ operand₂ operand₃)

def astNewNodeGroup (expr : Ptr) : ParserM Ptr := do
  let expr ← nodeUpcastExpr expr
  newNode (.group expr)

/-- The reductions of an expression. -/
def Expression.reduce : Expression → ParserM Ptr
  | .operand (.identifier value) => newNode (.ident value)
  | .operand (.constant c) => newNode (.literal c)
  | .unary p e => do
    let operand ← e.reduce
    astNewNodeUnaryOp p.operator operand
  | .binary b l r => do
    let left ← l.reduce
    let right ← r.reduce
    astNewNodeBinaryOp b.operator left right
  | .call f e => do
    let left ← f.reduce
    let expr ← e.reduce
    let right ← astNewNodeGroup expr
    astNewNodeBinaryOp .functionCall left right
  | .group e => do
    let expr ← e.reduce
    astNewNodeGroup expr
  | .ternary e₁ e₂ e₃ => do
    let operand₁ ← e₁.reduce
    let operand₂ ← e₂.reduce
    let operand₃ ← e₃.reduce
    astNewNodeTernaryOp operand₁ operand₂ operand₃
  | .varDeclaration varType varName => newNode (.declVar varType varName none)

/-- An expression, where `follow` is behind it. None of its tokens is a keyword, so they are read
before the first reduction. -/
def Expression.run (e : Expression) (follow : Option Token) : ParserM Ptr := do
  e.yield.forM shift
  peek follow
  e.reduce

/-! ## Statements -/

def astNewNodeScope (statements : Ptr) : ParserM Ptr := newNode (.scope statements)

def astNewNodeStatList : ParserM Ptr := newNode (.statList 0 none none)

def astLinkNodeStatList (node₁ node₂ : Ptr) : ParserM Ptr := do
  match ← readNode node₁ with
  | .statList size _ none =>
    writeNode node₂ (.setNext none)
    writeNode node₁ fun _ => .statList (size + 1) node₂ node₂
    return node₁
  | .statList size first (some last) =>
    writeNode (some last) (.setNext node₂)
    writeNode node₂ (.setNext none)
    writeNode node₁ fun _ => .statList (size + 1) first node₂
    return node₁
  | _ => failure

def astNewNodeStatExpr (expr : Ptr) : ParserM Ptr := do
  let expr ← nodeUpcastExpr expr
  let node ← newNode (.statExpr none expr)
  compileOutside node 0 0

def astNewNodeStatRet (expr : Ptr) : ParserM Ptr := do
  let expr ← nodeUpcastExpr expr
  newNode (.statRet none expr)

def astNewNodeStatIf (expr trueScope falseScope : Ptr) : ParserM Ptr := do
  let expr ← nodeUpcastExpr expr
  let node ← newNode (.statIf none expr trueScope falseScope)
  let node ← compileOutside node 1 0
  modifyLexer fun l => { l with isInsideSelectionStat := l.isInsideSelectionStat - 1 }
  return node

def astNewNodeStatSwitch (expr choice : Ptr) : ParserM Ptr :=
  newNode (.statSwitch none expr choice)

/-- A write to `next` of an `ast_node_stat_switch_choice_t`. -/
def AstNode.setNextChoice (next : Ptr) : AstNode → AstNode
  | .statSwitchChoice expr body _ => .statSwitchChoice expr body next
  | node => node

def astNewNodeStatSwitchChoice (expr scope prevChoice : Ptr) : ParserM Ptr := do
  let node ← newNode (.statSwitchChoice expr scope none)
  if prevChoice.isSome then
    writeNode prevChoice (.setNextChoice node)
  return node

def astNewNodeStatWhile (expr loopScope : Ptr) : ParserM Ptr := do
  let expr ← nodeUpcastExpr expr
  let node ← newNode (.statWhile none expr loopScope)
  let node ← compileOutside node 0 1
  modifyLexer fun l => { l with isInsideIterationStat := l.isInsideIterationStat - 1 }
  return node

def astNewNodeDeclVar (varName varType : CStr) : ParserM Ptr :=
  newNode (.declVar varType varName none)

def astNewNodeFuncArgList (declVar : Ptr) : ParserM Ptr := newNode (.funcArgList declVar declVar)

def astNewNodeDeclFunc (name : CStr) (args : Ptr) (retType : Option CStr) (body : Ptr) :
    ParserM Ptr := do
  let node ← newNode (.declFunc name retType args body)
  modifyLexer fun l => { l with isInsideFunc := false }
  callCompilerCompile node
  return none

/-! ## Reductions -/

/-- A write to `next` of an `ast_node_decl_var_t`. -/
def AstNode.setNextDecl (next : Ptr) : AstNode → AstNode
  | .declVar varType varName _ => .declVar varType varName next
  | node => node

/-- The reductions of `FuncArgList`. -/
def FuncArgList.reduce : FuncArgList → ParserM Ptr
  | .empty => astNewNodeFuncArgList none
  | .first varType varName => do
    let declVar ← astNewNodeDeclVar varName varType
    astNewNodeFuncArgList declVar
  | .next list varType varName => do
    let args ← list.reduce
    let declVar ← astNewNodeDeclVar varName varType
    match ← readNode args with
    | .funcArgList firstDecl last =>
      writeNode last (.setNextDecl declVar)
      writeNode args fun _ => .funcArgList firstDecl declVar
      return args
    | _ => failure

/-- The label of a choice. -/
def reduceLabel : Option ConstantExpression → ParserM Ptr
  | some value => newNode (.literal value)
  | none => return none

/-- A derivation, where `follow` is behind it. -/
def Derivation.run : {symbol : Nonterminal} → Derivation symbol → Option Token → ParserM Ptr
  | _, .scope f stats, _ => do
    shift .braceOpen
    shiftFlush f (firstToken stats.yield (some .braceClose))
    let statements ← stats.run (some .braceClose)
    shift .braceClose
    astNewNodeScope statements
  | _, .empty, _ => astNewNodeStatList
  | _, .link stats stat, follow => do
    let node₁ ← stats.run (firstToken stat.yield follow)
    let node₂ ← stat.run follow
    peek follow
    astLinkNodeStatList node₁ node₂
  | _, .expression e f, _ => do
    let expr ← e.run (some f.token)
    shift f.token
    astNewNodeStatExpr expr
  | _, .block body, follow => body.run follow
  | _, .ifThen e trueScope, follow => do
    shift .keywordIf
    let expr ← e.run (some .braceOpen)
    let trueScope ← trueScope.run follow
    peek follow
    astNewNodeStatIf expr trueScope none
  | _, .ifElse e trueScope falseScope, follow => do
    shift .keywordIf
    let expr ← e.run (some .braceOpen)
    let trueScope ← trueScope.run (some .keywordElse)
    shift .keywordElse
    let falseScope ← falseScope.run follow
    astNewNodeStatIf expr trueScope falseScope
  | _, .ifElif e trueScope elifs, follow => do
    shift .keywordIf
    let expr ← e.run (some .braceOpen)
    let trueScope ← trueScope.run (some .keywordElif)
    let falseScope ← elifs.run follow
    astNewNodeStatIf expr trueScope falseScope
  | _, .switch e f choices, _ => do
    shift .keywordSwitch
    let expr ← e.run (some .braceOpen)
    shift .braceOpen
    shiftFlush f (firstToken choices.yield none)
    let choice ← choices.run (some .braceClose)
    shift .braceClose
    astNewNodeStatSwitch expr choice
  | _, .while e loopScope, follow => do
    shift .keywordWhile
    let expr ← e.run (some .braceOpen)
    let loopScope ← loopScope.run follow
    astNewNodeStatWhile expr loopScope
  | _, .ret e, follow => do
    shift .keywordReturn
    let expr ← e.run follow
    astNewNodeStatRet expr
  | _, .func name args retType body, follow => do
    shift .keywordFunc
    shift (.identifier name)
    shift .parenOpen
    args.yield.forM shift
    let args ← args.reduce
    shift .parenClose
    retType.forM fun retType => shift (.identifier retType)
    let body ← body.run follow
    astNewNodeDeclFunc name args retType body
  | _, .flush stat f, _ => do
    let node ← stat.run (some f.token)
    shift f.token
    return node
  | _, .firstChoice value body, follow => do
    (choiceYield value).forM shift
    let expr ← reduceLabel value
    let scope ← body.run follow
    astNewNodeStatSwitchChoice expr scope none
  | _, .nextChoice choices value body, follow => do
    let prevChoice ← choices.run (firstToken (choiceYield value) none)
    (choiceYield value).forM shift
    let expr ← reduceLabel value
    let scope ← body.run follow
    let _ ← astNewNodeStatSwitchChoice expr scope prevChoice
    return prevChoice
  | _, .elifThen e trueScope, follow => do
    shift .keywordElif
    let expr ← e.run (some .braceOpen)
    let trueScope ← trueScope.run follow
    peek follow
    astNewNodeStatIf expr trueScope none
  | _, .elifElif e trueScope elifs, follow => do
    shift .keywordElif
    let expr ← e.run (some .braceOpen)
    let trueScope ← trueScope.run (some .keywordElif)
    let falseScope ← elifs.run follow
    astNewNodeStatIf expr trueScope falseScope
  | _, .elifElse e trueScope falseScope, follow => do
    shift .keywordElif
    let expr ← e.run (some .braceOpen)
    let trueScope ← trueScope.run (some .keywordElse)
    shift .keywordElse
    let falseScope ← falseScope.run follow
    astNewNodeStatIf expr trueScope falseScope

/-- The states in which the statements of a program have been reduced. The one behind is added to
`Program` when the next token has been read. -/
def runProgram : List (Derivation .statement) → ParserState → Option (List ParserState)
  | [], _ => some []
  | stat :: program, s => do
    let follow := firstToken (programYield program) none
    let (_, s) ← stat.run follow s
    let (_, s') ← peek follow s
    let states ← runProgram program s'
    return s :: states

/-! ## Steps -/

lemma parserM_bind {α β : Type} (m : ParserM α) (f : α → ParserM β) (s : ParserState) :
    (m >>= f) s = (m s).bind fun r => f r.1 r.2 := rfl

lemma parserM_bind_of {α β : Type} {m : ParserM α} {s s₁ : ParserState} {a : α}
    (h : m s = some (a, s₁)) (f : α → ParserM β) : (m >>= f) s = f a s₁ := by
  rw [parserM_bind, h, Option.bind_some]

lemma parserM_bind_eq_some {α β : Type} {m : ParserM α} {f : α → ParserM β} {s : ParserState}
    {r : β × ParserState} :
    (m >>= f) s = some r ↔ ∃ a s₁, m s = some (a, s₁) ∧ f a s₁ = some r := by
  rw [parserM_bind, Option.bind_eq_some_iff, Prod.exists]

/-- A new node is the last one. -/
lemma newNode_eq (node : AstNode) (s : ParserState) :
    newNode node s = some (some s.nodes.length, { s with nodes := s.nodes ++ [node] }) := rfl

/-- A statement is compiled, or nothing happens. -/
lemma compileOutside_eq_some {p q : Ptr} {a b : ℤ} {s s' : ParserState}
    (h : compileOutside p a b s = some (q, s')) :
    (s.lexer.isOutside a b = true ∧ q = none ∧
      s' = { s with compiled := s.compiled ++ p.toList }) ∨
    (s.lexer.isOutside a b = false ∧ q = p ∧ s' = s) := by
  change (if s.lexer.isOutside a b then _ else _ : ParserM Ptr) s = _ at h
  split at h
  · next hout =>
    cases h
    exact .inl ⟨hout, rfl, rfl⟩
  · next hout =>
    cases h
    exact .inr ⟨by simpa using hout, rfl, rfl⟩

lemma readNode_eq (p : Ptr) (s : ParserState) :
    readNode p s = (p.bind (s.nodes[·]?)).map fun node => (node, s) := by
  change ((p.bind (s.nodes[·]?)).bind fun node => some (node, s)) = _
  cases p.bind (s.nodes[·]?) <;> rfl

lemma nodeUpcastExpr_eq (p : Ptr) (s : ParserState) :
    nodeUpcastExpr p s = (p.bind (s.nodes[·]?)).map fun node =>
      (if node.isExpr then p else none, s) := by
  rw [nodeUpcastExpr, parserM_bind, readNode_eq]
  cases p.bind (s.nodes[·]?) <;> rfl

end PhantomShell
