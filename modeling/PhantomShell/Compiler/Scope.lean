import PhantomShell.Compiler.Ast
import PhantomShell.Emitter
import PhantomShell.Vm.Opcodes

/-!
# Scopes and emission

`compiler_scope.c` and the ends of `compiler_emit.c`: the chain of scope handlers that the
compiler works in, and the emitter of each of them.

The scopes from the current one to the function or root scope are a list, and the maxima
that all of them reach through a pointer are fields of the chain. Chunks that an unbuffered
emitter executes at once are recorded in `events`, next to the registered functions; what
executing them does is not seen by the compiler.
-/

namespace PhantomShell

/-- The ways in which the compiler stops: `compiler_panic`, an access to memory it does not
own, or running out of the bound on nested calls. -/
inductive CompileStop
  | panic (format : String)
  | fault
  | fuel
deriving DecidableEq, Repr

/-- `scope_var_t` -/
structure ScopeVar where
  staticType : StaticType
  name : CStr
  index : UInt8
deriving DecidableEq

inductive ScopeEmitter
  | unbuffered
  | buffered (e : BytecodeEmitter)
deriving DecidableEq

/-- `scope_handler_t`; `vars_size` is the length of `vars`. -/
structure ScopeHandler where
  isFunctionScope : Bool
  stackSize : ℕ
  varsOff : ℕ
  varsCap : ℕ
  vars : List ScopeVar
  emitter : ScopeEmitter
deriving DecidableEq

/-- A scope, its parents, and the maxima kept in the last of them. -/
structure ScopeChain where
  scope : ScopeHandler
  parents : List ScopeHandler
  varsMaxSize : ℕ
  stackMaxSize : ℕ

/-- `func_desc_t`, the fields that are read. -/
structure FuncDesc where
  name : CStr
  args : List (CStr × CStr)
  signature : CStr
deriving DecidableEq

/-- What the compiler makes the machine do. -/
inductive Event
  | execute (code : List UInt8)
  | register (signature data : List UInt8)
deriving DecidableEq

/-- The state of the compiler. `const_pool_map` keeps indices in pointer values. -/
structure CompilerState where
  chain : ScopeChain
  globalFuncMap : Hashmap CStr FuncDesc
  constPoolMap : Hashmap CStr UInt16
  constPoolMapSize : UInt16
  events : List Event

abbrev CompileM := EStateM CompileStop CompilerState

def compilerPanic {α : Type} (format : String) : CompileM α := throw (.panic format)

/-- The current scope changes. -/
def modifyScope (f : ScopeHandler → ScopeHandler) : CompileM Unit :=
  modify fun s => { s with chain := { s.chain with scope := f s.chain.scope } }

/-! ## Variables -/

/-- `frame_lookup_var_by_name` with `use_parents`. -/
def frameLookupVarByName : ScopeHandler → List ScopeHandler → CStr → Option ScopeVar
  | scope, parents, name =>
    match scope.vars.find? (·.name == name) with
    | some var => some var
    | none =>
      match parents with
      | [] => none
      | parent :: rest =>
        if scope.isFunctionScope then none else frameLookupVarByName parent rest name

/-- The lookup in the chain of the current scope. -/
def ScopeChain.lookup (chain : ScopeChain) (name : CStr) : Option ScopeVar :=
  frameLookupVarByName chain.scope chain.parents name

/-- `frame_define_var` -/
def frameDefineVar (typeId : StaticType) (name : CStr) : CompileM ScopeVar := do
  let chain := (← get).chain
  let scope := chain.scope
  if scope.varsCap ≤ scope.vars.length then
    compilerPanic "no free space left for new scope variables"
  else
    let var : ScopeVar := ⟨typeId, name, UInt8.ofNat (scope.vars.length + scope.varsOff)⟩
    modify fun s => { s with chain :=
      { chain with
        scope := { scope with vars := scope.vars ++ [var] }
        varsMaxSize := max chain.varsMaxSize (scope.vars.length + 1 + scope.varsOff) } }
    pure var

/-- `frame_increment_stack_size`: `stack_size` is a `size_t`. -/
def frameIncrementStackSize (pushObjectSize : ℤ) : CompileM Unit :=
  modify fun s =>
    let stackSize := ((s.chain.scope.stackSize + pushObjectSize) % 2 ^ 64).toNat
    { s with chain :=
      { s.chain with
        scope := { s.chain.scope with stackSize := stackSize }
        stackMaxSize := max s.chain.stackMaxSize stackSize } }

/-! ## Emission -/

/-- The `emitter_func` of a scope on a chunk. -/
def emitterFunc (emitter : ScopeEmitter) (data : List UInt8) :
    Option (ScopeEmitter × List Event) :=
  match emitter with
  | .unbuffered => some (.unbuffered, [.execute data])
  | .buffered e => (emitterEmitBuffered e data).map fun e => (.buffered e, [])

/-- `compiler_emit_n_impl` on at least one byte: the returned code is 0. -/
def compilerEmit (data : List UInt8) : CompileM ℤ := do
  match emitterFunc (← get).chain.scope.emitter data with
  | none => throw .fault
  | some (emitter, events) =>
    modifyScope fun scope => { scope with emitter := emitter }
    modify fun s => { s with events := s.events ++ events }
    pure 0

/-- `compiler_emitter_sink` of the emitter of a scope. -/
def sinkEmitter (emitter : ScopeEmitter) : CompileM (List UInt8) :=
  match emitter with
  | .unbuffered => throw .fault
  | .buffered e =>
    match compilerEmitterSink e with
    | some bytes => pure bytes
    | none => throw .fault

/-- The `size` of the emitter of a scope. -/
def ScopeEmitter.size : ScopeEmitter → ℕ
  | .unbuffered => 0
  | .buffered e => e.size

/-- A new scope inside the current one, as `compile_if_statement` and
`compile_while_statement` set it up; `body` compiles it, and its emitter is returned. -/
def compileChild (pageSize stackSize : ℕ) (body : CompileM Unit) : CompileM ScopeEmitter := do
  let chain := (← get).chain
  let scope := chain.scope
  let child : ScopeHandler :=
    { isFunctionScope := false
      stackSize := stackSize
      varsOff := scope.vars.length + scope.varsOff
      varsCap := scope.varsCap
      vars := []
      emitter := .buffered (compilerEmitterBufferedNew pageSize) }
  modify fun s => { s with chain :=
    { s.chain with scope := child, parents := scope :: chain.parents } }
  body
  let emitter := (← get).chain.scope.emitter
  modify fun s => { s with chain :=
    { s.chain with scope := scope, parents := chain.parents } }
  pure emitter

end PhantomShell
