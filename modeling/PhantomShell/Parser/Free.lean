import PhantomShell.Lib.Freeing
import PhantomShell.Parser.WellFormed

/-!
# Freeing a tree

The functions `ast_free_node_...`. A node that is not of the type that a function takes stops the
program, as does a pointer that is null. The casts that the compiler puts into expressions are left
out.
-/

namespace PhantomShell

/-! ## Blocks -/

/-- What `malloc` and `strdup` returned for the node `i`: the node, its string (the value of an
identifier or a literal, the name of a declaration), and the name of its type. -/
inductive Block
  | node (i : ℕ)
  | string (i : ℕ)
  | typeName (i : ℕ)
deriving DecidableEq

/-- The blocks of a node. -/
def AstNode.blocks (i : ℕ) : AstNode → List Block
  | .ident _ | .literal (.stringLiteral _) => [.string i, .node i]
  | .declVar _ _ _ | .declFunc _ (some _) _ _ => [.string i, .typeName i, .node i]
  | .declFunc _ none _ _ => [.string i, .node i]
  | _ => [.node i]

/-- The blocks of the nodes from `n` on. -/
def blocksFrom : ℕ → List AstNode → List Block
  | _, [] => []
  | n, node :: l => node.blocks n ++ blocksFrom (n + 1) l

/-! ## `ast_free_node_...` -/

abbrev AstFreeM := FreeM Block

/-- A node that has not been freed. -/
def loadNode (nodes : List AstNode) (p : Ptr) : AstFreeM (ℕ × AstNode) := do
  let i ← (p : Option ℕ)
  touch (.node i)
  let node ← (nodes[i]? : Option AstNode)
  return (i, node)

/-- `next` of an `ast_node_stat_t`. A scope has `stats` there. -/
def AstNode.getNext : AstNode → Option Ptr
  | .scope stats => some stats
  | node => node.statNext

/-- `next` of an `ast_node_stat_switch_choice_t` -/
def AstNode.choiceNext : AstNode → Option Ptr
  | .statSwitchChoice _ _ next => some next
  | _ => none

section

/- `free` is `ast_free_node`, and `fuel` bounds how often a loop repeats. -/
variable (free : Ptr → AstFreeM Unit) (nodes : List AstNode) (fuel : ℕ)

def astFreeNodeGroup (p : Ptr) : AstFreeM Unit := do
  match ← loadNode nodes p with
  | (i, .group expr) =>
    free expr
    release (.node i)
  | _ => failure

def astFreeNodeIdent (p : Ptr) : AstFreeM Unit := do
  match ← loadNode nodes p with
  | (i, .ident _) =>
    release (.string i)
    release (.node i)
  | _ => failure

def astFreeNodeLiteral (p : Ptr) : AstFreeM Unit := do
  match ← loadNode nodes p with
  | (i, .literal (.stringLiteral _)) =>
    release (.string i)
    release (.node i)
  | (i, .literal _) => release (.node i)
  | _ => failure

def astFreeNodeUnaryOp (p : Ptr) : AstFreeM Unit := do
  match ← loadNode nodes p with
  | (i, .unaryOp _ operand) =>
    free operand
    release (.node i)
  | _ => failure

def astFreeNodeBinaryOp (p : Ptr) : AstFreeM Unit := do
  match ← loadNode nodes p with
  | (i, .binaryOp _ left right) =>
    free left
    free right
    release (.node i)
  | _ => failure

def astFreeNodeTernaryOp (p : Ptr) : AstFreeM Unit := do
  match ← loadNode nodes p with
  | (i, .ternaryOp operand₁ operand₂ operand₃) =>
    free operand₁
    free operand₂
    free operand₃
    release (.node i)
  | _ => failure

def astFreeNodeStatList (p : Ptr) : AstFreeM Unit := do
  match ← loadNode nodes p with
  | (i, .statList _ firstStat _) =>
    freeChain AstNode.getNext .node nodes (fun i => free (some i)) fuel firstStat
    release (.node i)
  | _ => failure

def astFreeNodeScope (p : Ptr) : AstFreeM Unit := do
  match ← loadNode nodes p with
  | (i, .scope stats) =>
    astFreeNodeStatList free nodes fuel stats
    release (.node i)
  | _ => failure

def astFreeNodeStatExpr (p : Ptr) : AstFreeM Unit := do
  match ← loadNode nodes p with
  | (i, .statExpr _ expr) =>
    free expr
    release (.node i)
  | _ => failure

def astFreeNodeStatRet (p : Ptr) : AstFreeM Unit := do
  match ← loadNode nodes p with
  | (i, .statRet _ expr) =>
    free expr
    release (.node i)
  | _ => failure

def astFreeNodeStatIf (p : Ptr) : AstFreeM Unit := do
  match ← loadNode nodes p with
  | (i, .statIf _ expr trueScope falseScope) =>
    free expr
    astFreeNodeScope free nodes fuel trueScope
    if falseScope.isSome then
      astFreeNodeScope free nodes fuel falseScope
    release (.node i)
  | _ => failure

def astFreeNodeStatSwitchChoice (p : Ptr) : AstFreeM Unit := do
  match ← loadNode nodes p with
  | (i, .statSwitchChoice expr body _) =>
    if expr.isSome then
      free expr
    free body
    release (.node i)
  | _ => failure

def astFreeNodeStatSwitch (p : Ptr) : AstFreeM Unit := do
  match ← loadNode nodes p with
  | (i, .statSwitch _ expr choice) =>
    free expr
    freeChain AstNode.choiceNext .node nodes
      (fun i => astFreeNodeStatSwitchChoice free nodes (some i)) fuel choice
    release (.node i)
  | _ => failure

def astFreeNodeStatWhile (p : Ptr) : AstFreeM Unit := do
  match ← loadNode nodes p with
  | (i, .statWhile _ expr loopScope) =>
    if expr.isSome then
      free expr
    free loopScope
    release (.node i)
  | _ => failure

def astFreeNodeDeclVar (p : Ptr) : AstFreeM Unit := do
  match ← loadNode nodes p with
  | (i, .declVar _ _ _) =>
    release (.string i)
    release (.typeName i)
    release (.node i)
  | _ => failure

def astFreeNodeFuncArgList (p : Ptr) : AstFreeM Unit := do
  match ← loadNode nodes p with
  | (i, .funcArgList firstDecl _) =>
    freeChain AstNode.declNext .node nodes (fun i => astFreeNodeDeclVar nodes (some i)) fuel firstDecl
    release (.node i)
  | _ => failure

def astFreeNodeDeclFunc (p : Ptr) : AstFreeM Unit := do
  match ← loadNode nodes p with
  | (i, .declFunc _ retType args body) =>
    free body
    release (.string i)
    astFreeNodeFuncArgList nodes fuel args
    if retType.isSome then
      release (.typeName i)
    release (.node i)
  | _ => failure

end

/-- `ast_free_node`. A declaration of a variable and a list of parameters make it panic. -/
def astFreeNode (nodes : List AstNode) : ℕ → Ptr → AstFreeM Unit
  | 0, _ => failure
  | fuel + 1, p => do
    let (_, node) ← loadNode nodes p
    match node with
    | .group _ => astFreeNodeGroup (astFreeNode nodes fuel) nodes p
    | .scope _ => astFreeNodeScope (astFreeNode nodes fuel) nodes fuel p
    | .ident _ => astFreeNodeIdent nodes p
    | .literal _ => astFreeNodeLiteral nodes p
    | .unaryOp _ _ => astFreeNodeUnaryOp (astFreeNode nodes fuel) nodes p
    | .binaryOp _ _ _ => astFreeNodeBinaryOp (astFreeNode nodes fuel) nodes p
    | .ternaryOp _ _ _ => astFreeNodeTernaryOp (astFreeNode nodes fuel) nodes p
    | .statList _ _ _ => astFreeNodeStatList (astFreeNode nodes fuel) nodes fuel p
    | .statExpr _ _ => astFreeNodeStatExpr (astFreeNode nodes fuel) nodes p
    | .statRet _ _ => astFreeNodeStatRet (astFreeNode nodes fuel) nodes p
    | .statIf _ _ _ _ => astFreeNodeStatIf (astFreeNode nodes fuel) nodes fuel p
    | .statSwitch _ _ _ => astFreeNodeStatSwitch (astFreeNode nodes fuel) nodes fuel p
    | .statSwitchChoice _ _ _ => astFreeNodeStatSwitchChoice (astFreeNode nodes fuel) nodes p
    | .statWhile _ _ _ => astFreeNodeStatWhile (astFreeNode nodes fuel) nodes p
    | .declFunc _ _ _ _ => astFreeNodeDeclFunc (astFreeNode nodes fuel) nodes fuel p
    | .declVar _ _ _ | .funcArgList _ _ => failure

/-- `ast_new_node_stat_expr`, `..._stat_if`, `..._stat_while` and `..._decl_func` free what they had
compiled. -/
def freeCompiled (nodes : List AstNode) (compiled : List ℕ) : AstFreeM Unit :=
  compiled.forM fun i => astFreeNode nodes nodes.length (some i)

/-- After each statement of a program. -/
def freeProgram : ParserState → List ParserState → AstFreeM Unit
  | _, [] => pure ()
  | s, s' :: states => do
    freeCompiled s'.nodes (s'.compiled.drop s.compiled.length)
    freeProgram s' states

end PhantomShell
