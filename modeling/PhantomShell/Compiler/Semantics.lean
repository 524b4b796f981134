import PhantomShell.Compiler.Codegen

/-!
# Block-scoped semantics

What expressions over `int` and `float` variables mean, and what assignments, `if` and `while`
over `int` variables mean: a store lists the variables in the order of their declaration, an
assignment updates the variable it finds or declares a new one, and a block forgets its variables
at its end. Nothing here knows about slots or bytes.
-/

namespace PhantomShell

/-- The variables with their values. -/
abbrev Env := List (CStr × BitVec 32)

def Env.get? (env : Env) (name : CStr) : Option (BitVec 32) :=
  (env.find? (·.1 == name)).map (·.2)

/-- An assignment updates a variable or declares it. -/
def Env.assign (env : Env) (name : CStr) (value : BitVec 32) : Env :=
  match env.findIdx? (·.1 == name) with
  | some i => env.set i (name, value)
  | none => env ++ [(name, value)]

/-- The operators on `int`: 32-bit arithmetic that wraps around. -/
def evalOperator : Operator → BitVec 32 → BitVec 32 → Option (BitVec 32)
  | .addition, a, b => some (a + b)
  | .subtraction, a, b => some (a - b)
  | .multiplication, a, b => some (a * b)
  | .division, a, b => if b = 0 then none else some (a.sdiv b)
  | .equalTo, a, b => some (truth (a == b))
  | .notEqualTo, a, b => some (truth (a != b))
  | .lessThan, a, b => some (truth (a.slt b))
  | .notGreaterThan, a, b => some (truth (a.sle b))
  | .greaterThan, a, b => some (truth (b.slt a))
  | .notLessThan, a, b => some (truth (b.sle a))
  | _, _, _ => none

/-- The value of an expression; a division by zero has none. -/
def Env.eval (env : Env) : Expr → Option (BitVec 32)
  | .literalInt value => some value
  | .ident _ name => env.get? name
  | .group _ expr => env.eval expr
  | .binaryOp _ operator left right =>
    match env.eval left, env.eval right with
    | some a, some b => evalOperator operator a b
    | _, _ => none
  | _ => none

/-- No division of the expression overflows. The value of one that does wraps around, but the
machine has no word for it. -/
def Env.InRange (env : Env) : Expr → Prop
  | .group _ expr => env.InRange expr
  | .binaryOp _ operator left right => env.InRange left ∧ env.InRange right ∧
      (operator = .division → ∀ a b, env.eval left = some a → env.eval right = some b →
        quotientOverflows a b = false)
  | _ => True

/-! ## Expressions over both types -/

/-- `+ - * /` -/
def Operator.isArithmetic : Operator → Bool
  | .addition | .subtraction | .multiplication | .division => true
  | _ => false

/-- The six comparisons. -/
def Operator.isComparison : Operator → Bool
  | .equalTo | .notEqualTo | .lessThan | .notGreaterThan | .greaterThan | .notLessThan => true
  | _ => false

/-- The operators on `float`. -/
def floatOperator (host : Host) : Operator → BitVec 32 → BitVec 32 → Option (BitVec 32)
  | .addition, a, b => some (host.add a b)
  | .subtraction, a, b => some (host.sub a b)
  | .multiplication, a, b => some (host.mul a b)
  | .division, a, b => some (host.div a b)
  | _, _, _ => none

/-- A number as a `float`. -/
def Rep.toFloat (host : Host) : Rep → BitVec 32 → BitVec 32
  | .int, v => host.ofInt v
  | .float, v => v

/-- The type of an expression over variables of the types `typeOf`: arithmetic on two `int`s is
`int`, any other is `float`, and only `int`s are compared. -/
def exprType (typeOf : CStr → Option Rep) : Expr → Option Rep
  | .literalInt _ => some .int
  | .literalFloat _ => some .float
  | .ident _ name => typeOf name
  | .group _ expr => exprType typeOf expr
  | .binaryOp _ operator left right =>
    match exprType typeOf left, exprType typeOf right with
    | some .int, some .int =>
      if operator.isArithmetic || operator.isComparison then some .int else none
    | some _, some _ => if operator.isArithmetic then some .float else none
    | _, _ => none
  | _ => none

/-- The value of an expression over variables with the values `valueOf`. -/
def exprValue (host : Host) (typeOf : CStr → Option Rep) (valueOf : CStr → Option (BitVec 32)) :
    Expr → Option (BitVec 32)
  | .literalInt value => some value
  | .literalFloat value => some value
  | .ident _ name => valueOf name
  | .group _ expr => exprValue host typeOf valueOf expr
  | .binaryOp _ operator left right => do
    let a ← exprType typeOf left
    let b ← exprType typeOf right
    let u ← exprValue host typeOf valueOf left
    let v ← exprValue host typeOf valueOf right
    if a = .int ∧ b = .int then evalOperator operator u v
    else floatOperator host operator (a.toFloat host u) (b.toFloat host v)
  | _ => none

/-- No division of two `int`s overflows. -/
def exprInRange (host : Host) (typeOf : CStr → Option Rep) (valueOf : CStr → Option (BitVec 32)) :
    Expr → Prop
  | .group _ expr => exprInRange host typeOf valueOf expr
  | .binaryOp _ operator left right =>
    exprInRange host typeOf valueOf left ∧ exprInRange host typeOf valueOf right ∧
      (operator = .division → exprType typeOf left = some .int → exprType typeOf right = some .int →
        ∀ a b, exprValue host typeOf valueOf left = some a →
          exprValue host typeOf valueOf right = some b → quotientOverflows a b = false)
  | _ => True

/-! ## Statements -/

/-- Big steps: the statements take one store to another. -/
inductive Exec : Env → Stat → Env → Prop
  | nil {env : Env} : Exec env .nil env
  | assign {env env' : Env} {t t' : StaticType} {name : CStr} {right : Expr} {next : Stat}
      {value : BitVec 32} :
      env.eval right = some value → Exec (env.assign name value) next env' →
      Exec env (.expr (.binaryOp t .assignment (.ident t' name) right) next) env'
  | ifTrue {env env₁ env' : Env} {expr : Expr} {trueScope falseScope next : Stat}
      {value : BitVec 32} :
      env.eval expr = some value → value ≠ 0 → Exec env trueScope env₁ →
      Exec (env₁.take env.length) next env' →
      Exec env (.ifElse expr trueScope falseScope next) env'
  | ifFalse {env env₁ env' : Env} {expr : Expr} {trueScope falseScope next : Stat} :
      env.eval expr = some 0 → Exec env falseScope env₁ →
      Exec (env₁.take env.length) next env' →
      Exec env (.ifElse expr trueScope falseScope next) env'
  | whileTrue {env env₁ env' : Env} {expr : Expr} {loopScope next : Stat} {value : BitVec 32} :
      env.eval expr = some value → value ≠ 0 → Exec env loopScope env₁ →
      Exec (env₁.take env.length) (.while expr loopScope next) env' →
      Exec env (.while expr loopScope next) env'
  | whileFalse {env env' : Env} {expr : Expr} {loopScope next : Stat} :
      env.eval expr = some 0 → Exec env next env' → Exec env (.while expr loopScope next) env'

/-- Running the statements evaluates the expression in the store: a right side, or a condition in
one of the rounds. -/
inductive Evaluates : Env → Stat → Env → Expr → Prop
  | right {env : Env} {t t' : StaticType} {name : CStr} {right : Expr} {next : Stat} :
      Evaluates env (.expr (.binaryOp t .assignment (.ident t' name) right) next) env right
  | assignNext {env env₁ : Env} {t t' : StaticType} {name : CStr} {right e : Expr} {next : Stat}
      {value : BitVec 32} :
      env.eval right = some value → Evaluates (env.assign name value) next env₁ e →
      Evaluates env (.expr (.binaryOp t .assignment (.ident t' name) right) next) env₁ e
  | ifCond {env : Env} {expr : Expr} {trueScope falseScope next : Stat} :
      Evaluates env (.ifElse expr trueScope falseScope next) env expr
  | ifTrue {env env₁ : Env} {expr e : Expr} {trueScope falseScope next : Stat}
      {value : BitVec 32} :
      env.eval expr = some value → value ≠ 0 → Evaluates env trueScope env₁ e →
      Evaluates env (.ifElse expr trueScope falseScope next) env₁ e
  | ifTrueNext {env env₁ env₂ : Env} {expr e : Expr} {trueScope falseScope next : Stat}
      {value : BitVec 32} :
      env.eval expr = some value → value ≠ 0 → Exec env trueScope env₁ →
      Evaluates (env₁.take env.length) next env₂ e →
      Evaluates env (.ifElse expr trueScope falseScope next) env₂ e
  | ifFalse {env env₁ : Env} {expr e : Expr} {trueScope falseScope next : Stat} :
      env.eval expr = some 0 → Evaluates env falseScope env₁ e →
      Evaluates env (.ifElse expr trueScope falseScope next) env₁ e
  | ifFalseNext {env env₁ env₂ : Env} {expr e : Expr} {trueScope falseScope next : Stat} :
      env.eval expr = some 0 → Exec env falseScope env₁ →
      Evaluates (env₁.take env.length) next env₂ e →
      Evaluates env (.ifElse expr trueScope falseScope next) env₂ e
  | whileCond {env : Env} {expr : Expr} {loopScope next : Stat} :
      Evaluates env (.while expr loopScope next) env expr
  | whileBody {env env₁ : Env} {expr e : Expr} {loopScope next : Stat} {value : BitVec 32} :
      env.eval expr = some value → value ≠ 0 → Evaluates env loopScope env₁ e →
      Evaluates env (.while expr loopScope next) env₁ e
  | whileAgain {env env₁ env₂ : Env} {expr e : Expr} {loopScope next : Stat} {value : BitVec 32} :
      env.eval expr = some value → value ≠ 0 → Exec env loopScope env₁ →
      Evaluates (env₁.take env.length) (.while expr loopScope next) env₂ e →
      Evaluates env (.while expr loopScope next) env₂ e
  | whileNext {env env₁ : Env} {expr e : Expr} {loopScope next : Stat} :
      env.eval expr = some 0 → Evaluates env next env₁ e →
      Evaluates env (.while expr loopScope next) env₁ e

/-- No division that the statements evaluate overflows. -/
def DividesInRange (env : Env) (stat : Stat) : Prop :=
  ∀ env₁ e, Evaluates env stat env₁ e → env₁.InRange e

/-! ## The fragment -/

/-- Literals, variables, groups, arithmetic and comparisons. -/
def IntExpr : Expr → Prop
  | .literalInt _ => True
  | .ident _ _ => True
  | .group _ expr => IntExpr expr
  | .binaryOp _ operator left right =>
    (valueOp .int operator).isSome ∧ IntExpr left ∧ IntExpr right
  | _ => False

/-- Assignments, `if` and `while`, nested to any depth. -/
def IntStat : Stat → Prop
  | .nil => True
  | .expr (.binaryOp _ .assignment (.ident _ _) right) next => IntExpr right ∧ IntStat next
  | .ifElse expr trueScope falseScope next =>
    IntExpr expr ∧ IntStat trueScope ∧ IntStat falseScope ∧ IntStat next
  | .while expr loopScope next => IntExpr expr ∧ IntStat loopScope ∧ IntStat next
  | _ => False

end PhantomShell
