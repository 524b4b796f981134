import PhantomShell.Compiler.Scope
import PhantomShell.Vm.Instr

/-!
# The compiler

`compiler_vars.c`, `compiler_expr.c`, `compiler_stat.c`, `compiler_func.c` and `compiler.c`.

The functions that call each other through `compile_expression` take that function as the
parameter `compile`; `compileExpression` ties the knot with a bound on the depth of the calls
(`ast_node_trace_data_type` rewrites the tree that is being compiled, so the calls do not
follow the original tree).
-/

namespace PhantomShell

/-! ## Static types -/

/-- `static_type_by_name` -/
def staticTypeByName (typeName : CStr) : CompileM StaticType :=
  if typeName = [105, 110, 116] then pure .int
  else if typeName = [102, 108, 111, 97, 116] then pure .float
  else if typeName = [118, 111, 105, 100] then pure .none
  else compilerPanic "unknown static name type %s"

/-- `type_signature_by_name` -/
def typeSignatureByName (typeName : CStr) : CompileM CStr :=
  if typeName = [105, 110, 116] then pure [73]
  else if typeName = [102, 108, 111, 97, 116] then pure [70]
  else if typeName = [118, 111, 105, 100] then pure [86]
  else compilerPanic "unknown static name type %s"

/-- `cast_request_t` -/
structure CastRequest where
  opcode : UInt8
  varIndex : ℕ
  staticType : StaticType

/-- `type_select_cast_method` -/
def typeSelectCastMethod (type₁ type₂ : StaticType) : CastRequest :=
  if (type₁ = .int ∧ type₂ = .float) ∨ (type₂ = .int ∧ type₁ = .float) then
    ⟨opcodeI2f, if type₁ = .int then 0 else 1, .float⟩
  else ⟨opcodePanic, 0, .unknwn⟩

/-- `ast_node_trace_data_type` with `ast_node_trace_binary_op_data_type`: the tree it leaves. -/
def traceDataType (chain : ScopeChain) : Expr → Except CompileStop Expr
  | .literalInt value => .ok (.literalInt value)
  | .literalFloat value => .ok (.literalFloat value)
  | .ident staticType name =>
    if staticType ≠ .unknwn then .ok (.ident staticType name)
    else
      match chain.lookup name with
      | none =>
        .error (.panic "unable to trace data type of undeclared/non-local variable %s")
      | some var => .ok (.ident var.staticType name)
  | .group staticType expr =>
    if staticType ≠ .unknwn then .ok (.group staticType expr)
    else do
      let expr ← (if expr.staticType = .unknwn then traceDataType chain expr else .ok expr)
      .ok (.group expr.staticType expr)
  | .unaryOp staticType operator operand =>
    if staticType ≠ .unknwn then .ok (.unaryOp staticType operator operand)
    else do
      let operand ←
        (if operand.staticType = .unknwn then traceDataType chain operand else .ok operand)
      .ok (.unaryOp operand.staticType operator operand)
  | .binaryOp staticType operator left right =>
    if staticType ≠ .unknwn then .ok (.binaryOp staticType operator left right)
    else if operator = .functionCall then
      .error (.panic "unable to trace function return value static type")
    else do
      let left ← (if left.staticType = .unknwn then traceDataType chain left else .ok left)
      let right ← (if right.staticType = .unknwn then traceDataType chain right else .ok right)
      -- the type of a comparison is overwritten by the type of its operands
      if left.staticType ≠ right.staticType then
        let cast := typeSelectCastMethod left.staticType right.staticType
        if cast.varIndex = 0 then
          .ok (.binaryOp cast.staticType operator
            (.specialCast cast.staticType cast.opcode left) right)
        else
          .ok (.binaryOp cast.staticType operator left
            (.specialCast cast.staticType cast.opcode right))
      else .ok (.binaryOp right.staticType operator left right)
  | .specialCast staticType opcode operand =>
    if staticType ≠ .unknwn then .ok (.specialCast staticType opcode operand)
    else .error (.panic "unable to trace static data type of node with type %d")
  | .other staticType =>
    if staticType ≠ .unknwn then .ok (.other staticType)
    else .error (.panic "unable to trace static data type of node with type %d")

/-- `traceDataType` in the current chain. -/
def astNodeTraceDataType (node : Expr) : CompileM Expr := do
  match traceDataType (← get).chain node with
  | .ok node => pure node
  | .error e => throw e

/-- `int_operator_to_opcode`; 0 is no opcode. -/
def intOperatorToOpcode : Operator → UInt8
  | .addition => opcodeIadd
  | .subtraction => opcodeIsub
  | .multiplication => opcodeImul
  | .division => opcodeIdiv
  | .unaryMinus => opcodeIneg
  | .equalTo => opcodeIeq
  | .notEqualTo => opcodeIneq
  | .lessThan => opcodeIlt
  | .notGreaterThan => opcodeIngt
  | .greaterThan => opcodeIgt
  | .notLessThan => opcodeInlt
  | _ => 0

/-- `float_operator_to_opcode` -/
def floatOperatorToOpcode : Operator → UInt8
  | .addition => opcodeFadd
  | .subtraction => opcodeFsub
  | .multiplication => opcodeFmul
  | .division => opcodeFdiv
  | .unaryMinus => opcodeFneg
  | .equalTo => opcodeIeq
  | .notEqualTo => opcodeIneq
  | _ => 0

/-- `OPCODE_LOAD` -/
def opcodeLoad : StaticType → UInt8
  | .bool => opcodeIload
  | .int => opcodeIload
  | .float => opcodeFload
  | _ => 0

/-- `OPCODE_SAVE` -/
def opcodeSave : StaticType → UInt8
  | .bool => opcodeIsave
  | .int => opcodeIsave
  | .float => opcodeFsave
  | _ => 0

/-! ## The pool of constants of the compiler -/

/-- The index that `const_pool_index_by_value` leaves in a variable that holds 0. -/
def constPoolIndexByValue (value : CStr) : CompileM UInt16 := do
  pure ((hashmapGet id (← get).constPoolMap value).getD 0)

/-- `const_pool_register_value`. A stored index other than 0 is dereferenced as a pointer. -/
def constPoolRegisterValue (fuel : ℕ) (value : CStr) : CompileM UInt16 := do
  let s ← get
  if (hashmapGet id s.constPoolMap value).getD 0 ≠ 0 then throw .fault
  else
    match hashmapPut id (fun _ => true) fuel s.constPoolMap value s.constPoolMapSize with
    | none => throw .fuel
    | some (_, map) =>
      set { s with constPoolMap := map, constPoolMapSize := s.constPoolMapSize + 1 }
      pure s.constPoolMapSize

/-! ## Expressions -/

/-- `compile_literal_int` -/
def compileLiteralInt (value : BitVec 32) : CompileM ℤ := do
  frameIncrementStackSize (opcodeToStackIncMap opcodeIconst)
  compilerEmit (opcodeIconst :: htobe32 value)

/-- `compile_literal_float` -/
def compileLiteralFloat (value : BitVec 32) : CompileM ℤ := do
  frameIncrementStackSize (opcodeToStackIncMap opcodeFconst)
  compilerEmit (opcodeFconst :: bytesLE32 value)

/-- `compile_ident` -/
def compileIdent (name : CStr) : CompileM ℤ := do
  match (← get).chain.lookup name with
  | some var =>
    let opcode := opcodeLoad var.staticType
    frameIncrementStackSize (opcodeToStackIncMap opcode)
    compilerEmit [opcode, var.index]
  | none => pure 1

/-- `compile_unary_op` -/
def compileUnaryOp (compile : Expr → CompileM ℤ) (operator : Operator) (operand : Expr) :
    CompileM ℤ := do
  let opcode := intOperatorToOpcode operator
  if opcode = 0 then compilerPanic "unable to compile unary op"
  else
    let ret ← compile operand
    if ret ≠ 0 then pure ret
    else
      frameIncrementStackSize (opcodeToStackIncMap opcode)
      compilerEmit [opcode]

/-- The variable, its type and the cast that `compile_binary_op_assignment` settles on before
it compiles the right side. -/
def assignmentTarget (name : CStr) (rType : StaticType) :
    CompileM (ScopeVar × StaticType × UInt8) := do
  match (← get).chain.lookup name with
  | some var =>
    if var.staticType ≠ rType then
      let cr := typeSelectCastMethod var.staticType rType
      if cr.varIndex = 0 then
        compilerPanic "assignment error: cast request requires explicit casting"
      else pure (var, cr.staticType, cr.opcode)
    else pure (var, rType, 0)
  | none => do
    let var ← frameDefineVar rType name
    pure (var, rType, 0)

/-- `compile_binary_op_assignment`. The left side is read as an identifier node; reading
another node so is a fault. -/
def compileBinaryOpAssignment (compile : Expr → CompileM ℤ) (left right : Expr) :
    CompileM ℤ := do
  let right ← astNodeTraceDataType right
  match left with
  | .ident _ name =>
    let (var, varType, castOpcode) ← assignmentTarget name right.staticType
    let opcode := opcodeSave varType
    let ret ← compile right
    if ret ≠ 0 then pure ret
    else
      if castOpcode ≠ 0 then
        frameIncrementStackSize (opcodeToStackIncMap castOpcode)
        let _ ← compilerEmit [castOpcode]
      frameIncrementStackSize (opcodeToStackIncMap opcode)
      compilerEmit [opcode, var.index]
  | _ => throw .fault

/-- The argument loop of `compile_function_call`. -/
def compileArgs (compile : Expr → CompileM ℤ) : Expr → CompileM Unit
  | .binaryOp _ operator left right =>
    if operator = .comma then do
      let _ ← compile left
      compileArgs compile right
    else compilerPanic "unexpected binary operator in function args"
  | arg => do
    let _ ← compile arg
    pure ()

/-- `compile_function_call` -/
def compileFunctionCall (compile : Expr → CompileM ℤ) (left right : Expr) : CompileM ℤ := do
  match left with
  | .ident _ name =>
    match hashmapGet id (← get).globalFuncMap name with
    | none => compilerPanic "function lookup failed : %s"
    | some funcDesc =>
      let funcSigIndex ← constPoolIndexByValue funcDesc.signature
      match right with
      | .group _ args =>
        compileArgs compile args
        compilerEmit (opcodeCall :: htobe16 funcSigIndex)
      | _ =>
        compilerPanic "group was expected as the right part of the function call operator"
  | _ => compilerPanic "dont know how to build member function call yet"

/-- The opcode that `compile_binary_op` selects; 0 is no opcode. -/
def binaryOpcode (staticType : StaticType) (operator : Operator) : UInt8 :=
  match staticType with
  | .int => intOperatorToOpcode operator
  | .float => floatOperatorToOpcode operator
  | _ => 0

/-- `compile_binary_op` from the selection of the opcode on. -/
def compileOperands (compile : Expr → CompileM ℤ) (opcode : UInt8) (left right : Expr) :
    CompileM ℤ := do
  if opcode = 0 then
    compilerPanic "binary op compilation failed : no suitable opcode was found"
  else
    let ret ← compile left
    if ret ≠ 0 then pure ret
    else
      let ret ← compile right
      if ret ≠ 0 then pure ret
      else
        frameIncrementStackSize (opcodeToStackIncMap opcode)
        compilerEmit [opcode]

/-- `compile_binary_op` -/
def compileBinaryOp (compile : Expr → CompileM ℤ) (staticType : StaticType)
    (operator : Operator) (left right : Expr) : CompileM ℤ := do
  if operator = .assignment then compileBinaryOpAssignment compile left right
  else if operator = .functionCall then compileFunctionCall compile left right
  else
    match ← astNodeTraceDataType (.binaryOp staticType operator left right) with
    | .binaryOp staticType operator left right =>
      compileOperands compile (binaryOpcode staticType operator) left right
    | _ => throw .fault

/-- `compile_special_cast` -/
def compileSpecialCast (compile : Expr → CompileM ℤ) (opcode : UInt8) (operand : Expr) :
    CompileM ℤ := do
  let ret ← compile operand
  if ret ≠ 0 then pure ret
  else
    frameIncrementStackSize (opcodeToStackIncMap opcode)
    compilerEmit [opcode]

/-- `compile_expression`; `fuel` bounds the depth of the calls. -/
def compileExpression : (fuel : ℕ) → Expr → CompileM ℤ
  | 0, _ => throw .fuel
  | fuel + 1, node =>
    match node with
    | .literalInt value => compileLiteralInt value
    | .literalFloat value => compileLiteralFloat value
    | .ident _ name => compileIdent name
    | .group _ expr => compileExpression fuel expr
    | .unaryOp _ operator operand => compileUnaryOp (compileExpression fuel) operator operand
    | .binaryOp staticType operator left right =>
      compileBinaryOp (compileExpression fuel) staticType operator left right
    | .specialCast _ opcode operand =>
      compileSpecialCast (compileExpression fuel) opcode operand
    | .other _ => compilerPanic "unknown type of expression"

/-! ## Statements -/

/-- `UINT16_MAX` -/
def uint16Max : ℕ := 65535

/-- `(ubyte_t) ((uint32_t) n) >> 8U`: the cast binds tighter than the shift. -/
def jumpHi (n : ℕ) : UInt8 := UInt8.ofNat ((UInt8.ofNat n).toNat >>> 8)

/-- `(ubyte_t) ((uint32_t) n)` -/
def jumpLo (n : ℕ) : UInt8 := UInt8.ofNat n

/-- The `JMP` over the false block that `compile_if_statement` emits behind the true block. -/
def emitIfJmp (trueEmitter : ScopeEmitter) (falseSize : ℕ) : CompileM ScopeEmitter :=
  if falseSize > uint16Max then pure trueEmitter
  else
    match emitterFunc trueEmitter (opcodeJmp :: htobe16 (UInt16.ofNat falseSize)) with
    | none => throw .fault
    | some (emitter, _) => pure emitter

/-- `compile_if_statement`; `trueScope` and `falseScope` are the calls of `compile_scope`. -/
def compileIfStatement (compile : Expr → CompileM ℤ) (expr : Expr)
    (trueScope falseScope : CompileM Unit) : CompileM ℤ := do
  let _ ← compile expr
  let stackSize := (← get).chain.scope.stackSize
  let trueEmitter ← compileChild 512 stackSize trueScope
  let falseEmitter ← compileChild 512 stackSize falseScope
  let trueEmitter ← emitIfJmp trueEmitter falseEmitter.size
  if trueEmitter.size > uint16Max then pure 0
  else
    let trueSize := trueEmitter.size
    let trueData ← sinkEmitter trueEmitter
    let falseData ← sinkEmitter falseEmitter
    let _ ← compilerEmit
      (opcodeJez :: jumpHi trueSize :: jumpLo trueSize :: (trueData ++ falseData))
    pure 0

/-- `compile_while_statement` -/
def compileWhileStatement (compile : Expr → CompileM ℤ) (expr : Expr)
    (loopScope : CompileM Unit) : CompileM ℤ := do
  let savedExprEmitter := (← get).chain.scope.emitter
  let exprVarsSize := (← get).chain.scope.vars.length
  modifyScope fun scope => { scope with emitter := .buffered (compilerEmitterBufferedNew 256) }
  let _ ← compile expr
  let exprEmitter := (← get).chain.scope.emitter
  modifyScope fun scope => { scope with vars := scope.vars.take exprVarsSize }
  let bodyEmitter ← compileChild 512 0 loopScope
  modifyScope fun scope => { scope with emitter := savedExprEmitter }
  if bodyEmitter.size > uint16Max then compilerPanic "while: long jump not implemented"
  else
    let exprSize := exprEmitter.size
    let bodySize := bodyEmitter.size
    let sumSize := exprSize + bodySize + 3 + 3
    let exprData ← sinkEmitter exprEmitter
    let bodyData ← sinkEmitter bodyEmitter
    let _ ← compilerEmit
      (exprData ++ opcodeJez :: jumpHi (bodySize + 3) :: jumpLo (bodySize + 3) ::
        (bodyData ++ [opcodeRjmp, jumpHi sumSize, jumpLo sumSize]))
    pure 0

/-- `compile_scope` from a statement on. -/
def compileScope (fuel : ℕ) : Stat → CompileM Unit
  | .nil => pure ()
  | .expr expr next => do
    let _ ← compileExpression fuel expr
    compileScope fuel next
  | .ifElse expr trueScope falseScope next => do
    let _ ← compileIfStatement (compileExpression fuel) expr (compileScope fuel trueScope)
      (compileScope fuel falseScope)
    compileScope fuel next
  | .while expr loopScope next => do
    let _ ← compileWhileStatement (compileExpression fuel) expr (compileScope fuel loopScope)
    compileScope fuel next
  | .other _ => compilerPanic "uncompilable type of statement"
  | .notScope _ => throw .fault

/-- `compile_statement` -/
def compileStatement (fuel : ℕ) : Stat → CompileM ℤ
  | .expr expr _ => compileExpression fuel expr
  | .ifElse expr trueScope falseScope _ =>
    compileIfStatement (compileExpression fuel) expr (compileScope fuel trueScope)
      (compileScope fuel falseScope)
  | .while expr loopScope _ =>
    compileWhileStatement (compileExpression fuel) expr (compileScope fuel loopScope)
  | .other _ => compilerPanic "uncompilable type of statement"
  | .nil => throw .fault
  | .notScope _ => throw .fault

/-! ## Functions -/

/-- The bytes of the array that `compiler_define_func` builds a signature in. -/
def signatureBufferSize : ℕ := 1536

/-- `compiler_define_func` -/
def compilerDefineFunc (fuel : ℕ) (node : DeclFunc) : CompileM FuncDesc := do
  if (hashmapGet id (← get).globalFuncMap node.name).isSome then
    compilerPanic "function is already defined : %s"
  else
    let argTypes ← node.args.mapM fun arg => typeSignatureByName arg.2
    match node.retType with
    | none => throw .fault
    | some retType =>
      let ret ← typeSignatureByName retType
      let signature := node.name ++ 40 :: (argTypes.flatten ++ 41 :: ret)
      if signatureBufferSize ≤ signature.length then throw .fault
      else
        let funcDesc : FuncDesc := ⟨node.name, node.args, signature⟩
        let s ← get
        match hashmapPut id (fun _ => true) fuel s.globalFuncMap node.name funcDesc with
        | none => throw .fuel
        | some (ret, map) =>
          if ret ≠ 0 then compilerPanic "function definition failed : %s"
          else
            set { s with globalFuncMap := map }
            pure funcDesc

/-- The scope that `compile_func` compiles a body in. -/
def funcScopeChain : ScopeChain where
  scope :=
    { isFunctionScope := true
      stackSize := 0
      varsOff := 0
      varsCap := 128
      vars := []
      emitter := .buffered (compilerEmitterBufferedNew 256) }
  parents := []
  varsMaxSize := 0
  stackMaxSize := 0

/-- `compile_func` up to the end of the body: the scope that the body was compiled in. -/
def compileFuncBody (fuel : ℕ) (node : DeclFunc) : CompileM ScopeChain := do
  let chain := (← get).chain
  modify fun s => { s with chain := funcScopeChain }
  node.args.forM fun arg => do
    let argType ← staticTypeByName arg.2
    let _ ← frameDefineVar argType arg.1
  compileScope fuel node.body
  let funcChain := (← get).chain
  modify fun s => { s with chain := chain }
  pure funcChain

/-- The counts of a function narrowed to `uint16_t`, in front of its code. -/
def funcHeader (varsMaxSize stackMaxSize : ℕ) : List UInt8 :=
  htobe16 (UInt16.ofNat varsMaxSize) ++ htobe16 (UInt16.ofNat stackMaxSize)

/-- `compile_func` -/
def compileFunc (fuel : ℕ) (node : DeclFunc) : CompileM ℤ := do
  let funcDesc ← compilerDefineFunc fuel node
  let funcChain ← compileFuncBody fuel node
  let body ← sinkEmitter funcChain.scope.emitter
  let _ ← constPoolRegisterValue fuel funcDesc.signature
  let chain := (← get).chain
  if chain.parents = [] ∧ chain.scope.isFunctionScope = false then
    modify fun s => { s with events := s.events ++
      [.register funcDesc.signature
        (funcHeader funcChain.varsMaxSize funcChain.stackMaxSize ++ body)] }
    pure 0
  else compilerPanic "unable to compile global func node: non root scope"

/-! ## Programs -/

/-- `compiler_compile_impl` -/
def compilerCompile (fuel : ℕ) : TopLevel → CompileM ℤ
  | .stat stat => compileStatement fuel stat
  | .func node => compileFunc fuel node

/-- `lexer_state.is_interactive` chooses the emitter of the root scope. -/
def rootEmitter (isInteractive : Bool) : ScopeEmitter :=
  if isInteractive then .unbuffered else .buffered (compilerEmitterBufferedNew 4096)

/-- The compiler before the first statement. -/
def compilerInit (isInteractive : Bool) : CompilerState where
  chain :=
    { scope :=
        { isFunctionScope := false
          stackSize := 0
          varsOff := 0
          varsCap := 64
          vars := []
          emitter := rootEmitter isInteractive }
      parents := []
      varsMaxSize := 0
      stackMaxSize := 0 }
  globalFuncMap := hashmapNew
  constPoolMap := hashmapNew
  constPoolMapSize := 0
  events := []

/-- `compiler_compile` is called for each top-level statement in order. -/
def compileProgram (fuel : ℕ) (program : List TopLevel) : CompileM Unit :=
  program.forM fun node => do
    let _ ← compilerCompile fuel node

/-- `lexer_handle_eof` calls `compiler_finish`, which does nothing with the root emitter. -/
def compilerFinish : CompileM ℤ := pure 0

end PhantomShell
