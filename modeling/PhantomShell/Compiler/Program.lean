import PhantomShell.Compiler.CodegenTheorems

/-!
# Programs

The code of a sequence of top-level statements and functions, and what it makes the machine do
(`ProgramEvents`). The root variables are those of the statements before; a function sees its
parameters only.
-/

namespace PhantomShell

/-- A statement without the list behind it. -/
def Stat.single : Stat → Stat
  | .nil => .nil
  | .expr e _ => .expr e .nil
  | .ifElse e trueScope falseScope _ => .ifElse e trueScope falseScope .nil
  | .while e loopScope _ => .while e loopScope .nil
  | .other _ => .other .nil
  | .notScope stat => .notScope stat

/-- The type that a name stands for. -/
def namedType (typeName : CStr) : StaticType :=
  if typeName = [105, 110, 116] then .int
  else if typeName = [102, 108, 111, 97, 116] then .float
  else .none

/-- The letter of a type in a signature. -/
def typeLetter (typeName : CStr) : CStr :=
  if typeName = [105, 110, 116] then [73]
  else if typeName = [102, 108, 111, 97, 116] then [70]
  else [86]

/-- The variables that a function starts with. -/
def paramVars (args : List (CStr × CStr)) : Vars :=
  args.foldl (fun vars arg => declareVar vars (namedType arg.2) arg.1) []

/-- The signature that a function is registered with. -/
def signatureOf (func : DeclFunc) : CStr :=
  func.name ++ 40 :: ((func.args.map fun arg => typeLetter arg.2).flatten ++
    41 :: typeLetter (func.retType.getD []))

/-- All expressions of the statements, each with the variables that are visible to it. -/
def EachExpr (P : Vars → Expr → Prop) (vars : Vars) : Stat → Prop
  | .expr e next => P vars e ∧ EachExpr P (exprVars vars e) next
  | .ifElse e trueScope falseScope next =>
    let vars' := exprVars vars e
    P vars e ∧ EachExpr P vars' trueScope ∧ EachExpr P vars' falseScope ∧ EachExpr P vars' next
  | .while e loopScope next => P vars e ∧ EachExpr P vars loopScope ∧ EachExpr P vars next
  | _ => True

instance decidableEachExpr (P : Vars → Expr → Prop) [∀ vars e, Decidable (P vars e)] :
    (vars : Vars) → (stat : Stat) → Decidable (EachExpr P vars stat)
  | vars, .expr e next =>
    have := decidableEachExpr P (exprVars vars e) next
    inferInstanceAs (Decidable (P vars e ∧ EachExpr P (exprVars vars e) next))
  | vars, .ifElse e trueScope falseScope next =>
    have := decidableEachExpr P (exprVars vars e) trueScope
    have := decidableEachExpr P (exprVars vars e) falseScope
    have := decidableEachExpr P (exprVars vars e) next
    inferInstanceAs (Decidable (P vars e ∧ EachExpr P (exprVars vars e) trueScope ∧
      EachExpr P (exprVars vars e) falseScope ∧ EachExpr P (exprVars vars e) next))
  | vars, .while e loopScope next =>
    have := decidableEachExpr P vars loopScope
    have := decidableEachExpr P vars next
    inferInstanceAs (Decidable (P vars e ∧ EachExpr P vars loopScope ∧ EachExpr P vars next))
  | _, .nil => isTrue trivial
  | _, .other _ => isTrue trivial
  | _, .notScope _ => isTrue trivial

/-- Each top-level statement meets `P` with the variables that are visible to it, and each
function meets `F`. -/
def Throughout (P : Vars → Stat → Prop) (F : DeclFunc → Prop) : Vars → List TopLevel → Prop
  | _, [] => True
  | vars, .stat stat :: program =>
    P vars stat.single ∧ Throughout P F (scopeVars vars stat.single) program
  | vars, .func func :: program => F func ∧ Throughout P F vars program

instance decidableThroughout (P : Vars → Stat → Prop) (F : DeclFunc → Prop)
    [∀ vars stat, Decidable (P vars stat)] [∀ func, Decidable (F func)] :
    (vars : Vars) → (program : List TopLevel) → Decidable (Throughout P F vars program)
  | _, [] => isTrue trivial
  | vars, .stat stat :: program =>
    have := decidableThroughout P F (scopeVars vars stat.single) program
    inferInstanceAs (Decidable (P vars stat.single ∧
      Throughout P F (scopeVars vars stat.single) program))
  | vars, .func func :: program =>
    have := decidableThroughout P F vars program
    inferInstanceAs (Decidable (F func ∧ Throughout P F vars program))

/-- The statements at top level and in the bodies of functions meet `P`. -/
def EachScope (P : Vars → Stat → Prop) (program : List TopLevel) : Prop :=
  Throughout P (fun func => P (paramVars func.args) func.body) [] program

instance (P : Vars → Stat → Prop) [∀ vars stat, Decidable (P vars stat)] (program : List TopLevel) :
    Decidable (EachScope P program) :=
  inferInstanceAs (Decidable (Throughout _ _ _ _))

/-- All expressions of the program are as the parser built them. -/
def UntracedProgram (program : List TopLevel) : Prop := EachScope (fun _ stat => stat.Untraced) program

/-- The code of the program is that of its source. The operands of calls play no role for it,
since they all have the same size. -/
def RegularProgram (program : List TopLevel) : Prop := EachScope (RegularScope fun _ => 0) program

/-- The functions of a program, in the order of their registration. -/
def functionsOf : List TopLevel → List DeclFunc
  | [] => []
  | .stat _ :: program => functionsOf program
  | .func func :: program => func :: functionsOf program

/-- What the root emitter makes of the chunks of a statement. -/
def rootEvents (isInteractive : Bool) (chunks : List (List Instr)) : List Event :=
  if isInteractive then chunks.map fun code => .execute (encodeAll code) else []

/-- What a program makes the machine do: the chunks of each statement are executed, and each
function is registered with its counts and its code. -/
inductive ProgramEvents (isInteractive : Bool) : Vars → List TopLevel → List Event → Prop
  | nil {vars : Vars} : ProgramEvents isInteractive vars [] []
  | stat {callIndex : CStr → UInt16} {vars : Vars} {stat : Stat} {program : List TopLevel}
      {events : List Event} :
      ProgramEvents isInteractive (scopeVars vars stat.single) program events →
      ProgramEvents isInteractive vars (.stat stat :: program)
        (rootEvents isInteractive (scopeCode callIndex vars stat.single) ++ events)
  | func {callIndex : CStr → UInt16} {vars : Vars} {func : DeclFunc} {program : List TopLevel}
      {events : List Event} {varsMaxSize : ℕ} :
      ProgramEvents isInteractive vars program events →
      ProgramEvents isInteractive vars (.func func :: program)
        (.register (signatureOf func) (funcHeader varsMaxSize
            (scopeAccount callIndex (paramVars func.args) (0, 0) func.body).2 ++
          encodeAll (scopeCode callIndex (paramVars func.args) func.body).flatten) :: events)

/-- What the statements outside of the functions make the machine do in a session, whatever is
registered in between. -/
inductive RootEvents : Vars → List TopLevel → List Event → Prop
  | nil {vars : Vars} : RootEvents vars [] []
  | stat {callIndex : CStr → UInt16} {vars : Vars} {stat : Stat} {program : List TopLevel}
      {events : List Event} :
      RootEvents (scopeVars vars stat.single) program events →
      RootEvents vars (.stat stat :: program)
        (rootEvents true (scopeCode callIndex vars stat.single) ++ events)
  | func {vars : Vars} {func : DeclFunc} {program : List TopLevel} {events : List Event}
      {signature data : List UInt8} :
      RootEvents vars program events →
      RootEvents vars (.func func :: program) (.register signature data :: events)

end PhantomShell
