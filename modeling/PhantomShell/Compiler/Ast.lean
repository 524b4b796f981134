import PhantomShell.Hashmap

/-!
# The syntax tree

`parser.h` and `operator.h`, as far as the compiler reads them.
-/

namespace PhantomShell

/-- `static_type_t`; `unknwn` is 0 and `none` is `TYPE_NONE`. -/
inductive StaticType
  | unknwn
  | bool
  | int
  | float
  | char
  | string
  | none
deriving DecidableEq, Repr

/-- The operators that the grammar builds. -/
inductive Operator
  | logicalNot
  | unaryMinus
  | comma
  | assignment
  | addition
  | subtraction
  | multiplication
  | division
  | functionCall
  | equalTo
  | notEqualTo
  | lessThan
  | notGreaterThan
  | greaterThan
  | notLessThan
deriving DecidableEq, Repr

/-- `ast_node_expr_t`, with the `static_type` that the nodes cache. `other` is a node that
`compile_expression` does not know: a ternary operator or a literal of another type. -/
inductive Expr
  | literalInt (value : BitVec 32)
  | literalFloat (value : BitVec 32)
  | ident (staticType : StaticType) (value : CStr)
  | group (staticType : StaticType) (expr : Expr)
  | unaryOp (staticType : StaticType) (operator : Operator) (operand : Expr)
  | binaryOp (staticType : StaticType) (operator : Operator) (left right : Expr)
  | specialCast (staticType : StaticType) (opcode : UInt8) (operand : Expr)
  | other (staticType : StaticType)
deriving DecidableEq

/-- `EXPR_NODE_STATIC_TYPE` -/
def Expr.staticType : Expr → StaticType
  | .literalInt _ => .int
  | .literalFloat _ => .float
  | .ident staticType _ => staticType
  | .group staticType _ => staticType
  | .unaryOp staticType _ _ => staticType
  | .binaryOp staticType _ _ _ => staticType
  | .specialCast staticType _ _ => staticType
  | .other staticType => staticType

/-- A pointer to a statement, each with the statement that `next` leads to: the list of a
scope from here on. `nil` is the null pointer, and also a scope that is not there; `notScope`
is a statement node where the compiler takes a pointer for a scope. -/
inductive Stat
  | nil
  | expr (expr : Expr) (next : Stat)
  | ifElse (expr : Expr) (trueScope falseScope : Stat) (next : Stat)
  | while (expr : Expr) (loopScope : Stat) (next : Stat)
  | other (next : Stat)
  | notScope (stat : Stat)
deriving DecidableEq

/-- `ast_node_decl_func_t`; `args` has the names and the types of the parameters. -/
structure DeclFunc where
  name : CStr
  args : List (CStr × CStr)
  retType : Option CStr
  body : Stat

/-- What `compiler_compile` is called with. -/
inductive TopLevel
  | stat (stat : Stat)
  | func (func : DeclFunc)

end PhantomShell
