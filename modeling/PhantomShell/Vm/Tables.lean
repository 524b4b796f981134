import PhantomShell.Hashmap
import PhantomShell.Lib.Splice

/-!
# The tables of the virtual machine

`vm/vm.c`: the global constant pool, the table of functions and their registration.

A block of memory is a list, with `none` for a byte that was never written; a table field
that designates a released block is `none`. Blocks are only ever released by `realloc`,
whose result the source drops, so the model never needs the new block. `Except.error
(.fault .memory)` is an access outside the block that the field designates.
-/

namespace PhantomShell

/-- The ways in which an instruction leaves the memory it owns, or traps. -/
inductive Fault
  | underflow
  | overflow
  | args
  | locals
  | code
  | callDepth
  | divide
  | memory
deriving DecidableEq, Repr

/-- The ways in which the machine stops before its bytecode ends. -/
inductive VmStop
  | panic (format : String)
  | fault (f : Fault)
deriving DecidableEq, Repr

def globalConstPoolInitialSize : ℕ := 4096
def globalConstPoolInitialCapacity : ℕ := 64
def globalFunctionsCountIncrement : ℕ := 64

/-- `global_const_pool` -/
structure ConstPool where
  pool : Option (List (Option UInt8))
  size : ℕ
  cap : ℕ
  index : Option (List (Option UInt32))
  indexSize : UInt16
  indexCap : UInt16
deriving DecidableEq

/-- `vm_func_handle_t` -/
structure FuncHandle where
  signatureIndex : UInt16
  argSize : UInt16
  varsSize : ℕ
  stackSize : ℕ
  bytecodeSize : ℕ
  bytecodeData : List UInt8
deriving DecidableEq

/-- `global_funcs`; the keys of `func_map` are offsets into the constant pool. -/
structure GlobalFuncs where
  funcs : Option (List (Option FuncHandle))
  funcsSize : ℕ
  funcsCap : ℕ
  funcMap : Hashmap ℕ FuncHandle

structure Vm where
  constPool : ConstPool
  globalFuncs : GlobalFuncs

/-- `vm_static_init`, the tables: `malloc(sizeof(void *) * 64)` holds 128 `uint32_t`, and
`malloc(sizeof(vm_func_handle_t) * 64)` holds 256 pointers. -/
def vmStaticInit : Vm where
  constPool :=
    { pool := some (List.replicate globalConstPoolInitialSize none)
      size := 0
      cap := globalConstPoolInitialSize
      index := some (List.replicate (8 * globalConstPoolInitialCapacity / 4) none)
      indexSize := 0
      indexCap := 64 }
  globalFuncs :=
    { funcs := some (List.replicate (32 * globalFunctionsCountIncrement / 8) none)
      funcsSize := 0
      funcsCap := globalFunctionsCountIncrement
      funcMap := hashmapNew }

/-! ## Memory -/

/-- A write of `data` at `off` into the block a field designates. -/
def writeBlock {α : Type} (block : Option (List (Option α))) (off : ℕ) (data : List α) :
    Except VmStop (List (Option α)) :=
  match block with
  | none => .error (.fault .memory)
  | some cells =>
    if off + data.length ≤ cells.length then .ok (splice cells off (data.map some))
    else .error (.fault .memory)

/-- A read of one cell of the block a field designates. -/
def readBlock {α : Type} (block : Option (List (Option α))) (off : ℕ) : Except VmStop α :=
  match block with
  | none => .error (.fault .memory)
  | some cells =>
    match cells[off]? with
    | some (some a) => .ok a
    | _ => .error (.fault .memory)

/-- The C string that starts here, if its terminator is inside the block. -/
def cString : List (Option UInt8) → Option CStr
  | some b :: cells => if b = 0 then some [] else (cString cells).map (b :: ·)
  | _ => none

/-- The C string at an offset of the constant pool. -/
def ConstPool.stringAt (p : ConstPool) (off : ℕ) : Option CStr :=
  p.pool.bind fun cells => cString (cells.drop off)

/-- What a key of `func_map` points to. -/
def ConstPool.key (p : ConstPool) (off : ℕ) : CStr := (p.stringAt off).getD []

/-- A `uint16_t` as it lies in memory on a little-endian host. -/
def bytesLE16 (n : ℕ) : List UInt8 := [UInt8.ofNat n, UInt8.ofNat (n / 256)]

/-! ## Registration -/

/-- `vm_register_constant` with a constant of `constant.length` bytes: the index it returns
and the pool. -/
def vmRegisterConstant (p : ConstPool) (constant : List UInt8) :
    Except VmStop (UInt16 × ConstPool) := do
  let constSize16 := constant.length % 2 ^ 16
  let requiredSize := 2 + constSize16 + 1
  let p :=
    if p.size + requiredSize > p.cap then
      let sizeToAllocate :=
        if requiredSize > globalConstPoolInitialSize then requiredSize - (p.cap - p.size)
        else globalConstPoolInitialSize
      -- the block that `realloc` returned is not stored
      { p with pool := none, cap := p.cap + sizeToAllocate }
    else p
  let p :=
    if p.indexSize = p.indexCap then
      { p with
        index := none
        indexCap := p.indexCap + UInt16.ofNat globalConstPoolInitialCapacity }
    else p
  let pool ← writeBlock p.pool p.size
    (bytesLE16 constSize16 ++ constant.take constSize16 ++ [0])
  let index ← writeBlock p.index p.indexSize.toNat [UInt32.ofNat p.size]
  .ok (p.indexSize,
    { p with pool := some pool, index := some index, indexSize := p.indexSize + 1 })

/-- The argument loop of `vm_register_function`, from behind the parenthesis. -/
def argsSizeLoop : List (Option UInt8) → UInt16 → Except VmStop UInt16
  | some b :: cells, argsSize =>
    if b = 41 then .ok argsSize
    else if b = 73 ∨ b = 70 then argsSizeLoop cells (argsSize + 4)
    else .error (.panic "Unknown function signature element : in %s at position %zu")
  | _, _ => .error (.fault .memory)

/-- The scan of `vm_register_function` for the opening parenthesis, and the argument loop. -/
def signatureArgsSize : List (Option UInt8) → Except VmStop UInt16
  | some b :: cells => if b = 40 then argsSizeLoop cells 0 else signatureArgsSize cells
  | _ => .error (.fault .memory)

/-- `be16toh` of two bytes of memory. -/
def be16toh (hi lo : UInt8) : ℕ := hi.toNat * 256 + lo.toNat

/-- `vm_register_function`; `fuel` bounds the nested resizes of `func_map`. -/
def vmRegisterFunction (fuel : ℕ) (vm : Vm) (signatureIndex : UInt16) (data : List UInt8) :
    Except VmStop (FuncHandle × Vm) := do
  let g := vm.globalFuncs
  let g :=
    if g.funcsSize = g.funcsCap then
      { g with funcs := none, funcsCap := g.funcsCap + globalFunctionsCountIncrement }
    else g
  let signatureOffset ← readBlock vm.constPool.index signatureIndex.toNat
  let signature := signatureOffset.toNat + 2
  let argsSize ← signatureArgsSize ((vm.constPool.pool.getD []).drop signature)
  match data with
  | varsHi :: varsLo :: stackHi :: stackLo :: _ =>
    let handle : FuncHandle :=
      { signatureIndex := signatureIndex
        argSize := argsSize
        varsSize := be16toh varsHi varsLo * 4
        stackSize := be16toh stackHi stackLo
        bytecodeSize := data.length
        bytecodeData := data }
    let funcs ← writeBlock g.funcs g.funcsSize [handle]
    match hashmapPut vm.constPool.key (fun _ => true) fuel g.funcMap signature handle with
    | none => .error (.fault .memory)
    | some (_, funcMap) =>
      .ok (handle, { vm with globalFuncs :=
        { g with funcs := some funcs, funcsSize := g.funcsSize + 1, funcMap := funcMap } })
  | _ => .error (.fault .memory)

/-- The two registrations at the end of `compile_func`: the index and handle, and the tables. -/
def vmRegister (fuel : ℕ) (vm : Vm) (signature data : List UInt8) :
    Except VmStop (UInt16 × FuncHandle × Vm) := do
  let (index, constPool) ← vmRegisterConstant vm.constPool signature
  let (handle, vm) ← vmRegisterFunction fuel { vm with constPool := constPool } index data
  .ok (index, handle, vm)

/-- The handle that `vm_execute_opcode_call` finds for its operand. -/
def Vm.callHandle (vm : Vm) (index : UInt16) : Except VmStop FuncHandle := do
  let poolOffset ← readBlock vm.constPool.index index.toNat
  match vm.constPool.stringAt (poolOffset.toNat + 2) with
  | none => .error (.fault .memory)
  | some constant =>
    match hashmapGet vm.constPool.key vm.globalFuncs.funcMap constant with
    | some handle => .ok handle
    | none => .error (.panic "Method handle not found : %s")

end PhantomShell
