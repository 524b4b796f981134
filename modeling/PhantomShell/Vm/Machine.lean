import Mathlib.Logic.Relation
import PhantomShell.Vm.Opcodes
import PhantomShell.Vm.Tables

/-!
# The virtual machine

`vm/vm.c`: the frames, the opcode handlers and the execution loop.

A word carries the representation of the value that was put there, which no instruction
looks at. An access that leaves the stack or the locals of the frame is a `Fault`, where the
source goes on with memory of something else. The recursion of `vm_execute_opcodes` through
`vm_execute_opcode_call` is the list of callers of `MachineState`. `frame_pc`, which only
the report of `vm_do_panic` prints, is left out.
-/

namespace PhantomShell

/-! ## Frames -/

/-- Whether a word was written as `int32_t` or as `float`. -/
inductive Rep
  | int
  | float
deriving DecidableEq, Repr

/-- A word of the operand stack or of the locals. -/
structure Word where
  rep : Rep
  bits : BitVec 32
deriving DecidableEq

/-- What the source takes from its host: `float` arithmetic on the bits, and the contents of
fresh memory. Signed overflow of `+ - *` wraps. -/
structure Host where
  ofInt : BitVec 32 → BitVec 32
  add : BitVec 32 → BitVec 32 → BitVec 32
  sub : BitVec 32 → BitVec 32 → BitVec 32
  mul : BitVec 32 → BitVec 32 → BitVec 32
  div : BitVec 32 → BitVec 32 → BitVec 32
  fresh : ℕ → Word

/-- `vm_frame_context_t`: the words between `stack_start` and `stack_ptr`, the last one
first, the bytes between `stack_start` and `stack_end`, and the locals. -/
structure Frame where
  stack : List Word
  stackSize : ℕ
  locals : List Word
deriving DecidableEq

/-- An opcode handler: the frame, the bytes behind the opcode, and the returned `pc` shift. -/
abbrev Handler := Frame → List UInt8 → Except VmStop (Frame × ℤ)

/-- A word written at `stack_ptr`. -/
def pushWord (frame : Frame) (w : Word) (shift : ℤ) : Except VmStop (Frame × ℤ) :=
  if 4 * (frame.stack.length + 1) ≤ frame.stackSize then
    .ok ({ frame with stack := w :: frame.stack }, shift)
  else .error (.fault .overflow)

/-! ## Handlers -/

/-- `vm_execute_opcode_isave` and `vm_execute_opcode_fsave` copy the word. -/
def saveWord : Handler := fun frame data =>
  match data with
  | index :: _ =>
    match frame.stack with
    | w :: rest =>
      if index.toNat < frame.locals.length then
        .ok ({ frame with stack := rest, locals := frame.locals.set index.toNat w }, 2)
      else .error (.fault .locals)
    | [] => .error (.fault .underflow)
  | [] => .error (.fault .code)

/-- `vm_execute_opcode_iload` and `vm_execute_opcode_fload` copy the word. -/
def loadWord : Handler := fun frame data =>
  match data with
  | index :: _ =>
    match frame.locals[index.toNat]? with
    | some w => pushWord frame w 2
    | none => .error (.fault .locals)
  | [] => .error (.fault .code)

/-- A handler that replaces the two words at the top by one. -/
def binaryWord (rep : Rep) (op : BitVec 32 → BitVec 32 → BitVec 32) : Handler := fun frame _ =>
  match frame.stack with
  | w₂ :: w₁ :: rest => .ok ({ frame with stack := ⟨rep, op w₁.bits w₂.bits⟩ :: rest }, 1)
  | _ => .error (.fault .underflow)

/-- `(condition ? 1 : 0)` -/
def truth (condition : Bool) : BitVec 32 := if condition then 1 else 0

/-- The big-endian operand of a jump or a call. -/
def readOffset (data : List UInt8) : Except VmStop ℕ :=
  match data with
  | hi :: lo :: _ => .ok (be16toh hi lo)
  | _ => .error (.fault .code)

/-- `vm_execute_opcode_jez` and `vm_execute_opcode_jnez`. -/
def branchWord (taken : BitVec 32 → Bool) : Handler := fun frame data => do
  let jmpOffset ← readOffset data
  match frame.stack with
  | w :: rest => .ok ({ frame with stack := rest }, 3 + if taken w.bits then (jmpOffset : ℤ) else 0)
  | [] => .error (.fault .underflow)

def vmExecuteOpcodeIsave : Handler := saveWord
def vmExecuteOpcodeFsave : Handler := saveWord
def vmExecuteOpcodeIload : Handler := loadWord
def vmExecuteOpcodeFload : Handler := loadWord

/-- `vm_execute_opcode_iconst`: `be32toh` of the operand. -/
def vmExecuteOpcodeIconst : Handler := fun frame data =>
  match data with
  | b₃ :: b₂ :: b₁ :: b₀ :: _ =>
    pushWord frame
      ⟨.int, BitVec.ofNat 32 (((b₃.toNat * 256 + b₂.toNat) * 256 + b₁.toNat) * 256 + b₀.toNat)⟩ 5
  | _ => .error (.fault .code)

/-- `vm_execute_opcode_fconst`: the operand as it lies in memory. -/
def vmExecuteOpcodeFconst : Handler := fun frame data =>
  match data with
  | b₀ :: b₁ :: b₂ :: b₃ :: _ =>
    pushWord frame
      ⟨.float, BitVec.ofNat 32 (((b₃.toNat * 256 + b₂.toNat) * 256 + b₁.toNat) * 256 + b₀.toNat)⟩ 5
  | _ => .error (.fault .code)

def vmExecuteOpcodeIadd : Handler := binaryWord .int (· + ·)
def vmExecuteOpcodeIsub : Handler := binaryWord .int (· - ·)
def vmExecuteOpcodeImul : Handler := binaryWord .int (· * ·)
def vmExecuteOpcodeIeq : Handler := binaryWord .int fun v₁ v₂ => truth (v₁ == v₂)
def vmExecuteOpcodeIneq : Handler := binaryWord .int fun v₁ v₂ => truth (v₁ != v₂)
def vmExecuteOpcodeIlt : Handler := binaryWord .int fun v₁ v₂ => truth (v₁.slt v₂)
def vmExecuteOpcodeIngt : Handler := binaryWord .int fun v₁ v₂ => truth (v₁.sle v₂)
def vmExecuteOpcodeIgt : Handler := binaryWord .int fun v₁ v₂ => truth (v₂.slt v₁)
def vmExecuteOpcodeInlt : Handler := binaryWord .int fun v₁ v₂ => truth (v₂.sle v₁)

/-- The quotient of `INT32_MIN` and -1 is not an `int32_t`. -/
def quotientOverflows (v₁ v₂ : BitVec 32) : Bool := v₁ == BitVec.intMin 32 && v₂ == -1

/-- `vm_execute_opcode_idiv`: a division by zero traps, and so does one that overflows. -/
def vmExecuteOpcodeIdiv : Handler := fun frame data =>
  match frame.stack with
  | w₂ :: w₁ :: _ =>
    if w₂.bits = 0 ∨ quotientOverflows w₁.bits w₂.bits then .error (.fault .divide)
    else binaryWord .int (fun v₁ v₂ => v₁.sdiv v₂) frame data
  | _ => .error (.fault .underflow)

/-- `vm_execute_opcode_i2f` -/
def vmExecuteOpcodeI2f (host : Host) : Handler := fun frame _ =>
  match frame.stack with
  | w :: rest => .ok ({ frame with stack := ⟨.float, host.ofInt w.bits⟩ :: rest }, 1)
  | [] => .error (.fault .underflow)

def vmExecuteOpcodeFadd (host : Host) : Handler := binaryWord .float host.add
def vmExecuteOpcodeFsub (host : Host) : Handler := binaryWord .float host.sub
def vmExecuteOpcodeFmul (host : Host) : Handler := binaryWord .float host.mul
def vmExecuteOpcodeFdiv (host : Host) : Handler := binaryWord .float host.div

def vmExecuteOpcodeJez : Handler := branchWord (· == 0)
def vmExecuteOpcodeJnez : Handler := branchWord (· != 0)

/-- `vm_execute_opcode_jmp` -/
def vmExecuteOpcodeJmp : Handler := fun frame data => do
  let jmpOffset ← readOffset data
  .ok (frame, 3 + jmpOffset)

/-- `vm_execute_opcode_rjmp` -/
def vmExecuteOpcodeRjmp : Handler := fun frame data => do
  let jmpOffset ← readOffset data
  .ok (frame, 3 - jmpOffset)

/-- `vm_execute_opcode_panic` -/
def vmExecuteOpcodePanic : Handler := fun _ _ => .error (.panic "")

/-- The handlers that `vm_static_init` installs, but for `OPCODE_CALL`. -/
def opcodeHandlers (host : Host) : List (UInt8 × Handler) :=
  [(opcodeIsave, vmExecuteOpcodeIsave),
   (opcodeIload, vmExecuteOpcodeIload),
   (opcodeIconst, vmExecuteOpcodeIconst),
   (opcodeIadd, vmExecuteOpcodeIadd),
   (opcodeIsub, vmExecuteOpcodeIsub),
   (opcodeImul, vmExecuteOpcodeImul),
   (opcodeIdiv, vmExecuteOpcodeIdiv),
   (opcodeIeq, vmExecuteOpcodeIeq),
   (opcodeIneq, vmExecuteOpcodeIneq),
   (opcodeIlt, vmExecuteOpcodeIlt),
   (opcodeIgt, vmExecuteOpcodeIgt),
   (opcodeInlt, vmExecuteOpcodeInlt),
   (opcodeIngt, vmExecuteOpcodeIngt),
   (opcodeI2f, vmExecuteOpcodeI2f host),
   (opcodeFsave, vmExecuteOpcodeFsave),
   (opcodeFload, vmExecuteOpcodeFload),
   (opcodeFconst, vmExecuteOpcodeFconst),
   (opcodeFadd, vmExecuteOpcodeFadd host),
   (opcodeFsub, vmExecuteOpcodeFsub host),
   (opcodeFmul, vmExecuteOpcodeFmul host),
   (opcodeFdiv, vmExecuteOpcodeFdiv host),
   (opcodeJez, vmExecuteOpcodeJez),
   (opcodeJnez, vmExecuteOpcodeJnez),
   (opcodeJmp, vmExecuteOpcodeJmp),
   (opcodeRjmp, vmExecuteOpcodeRjmp)]

/-- `opcode_execute_funcs` as `vm_static_init` fills it, but for `OPCODE_CALL`. -/
def opcodeExecuteFuncs (host : Host) (opcode : UInt8) : Handler :=
  ((opcodeHandlers host).lookup opcode).getD vmExecuteOpcodePanic

/-! ## The execution loop -/

/-- A call of `vm_execute_opcodes` on its frame. -/
structure Activation where
  code : List UInt8
  pc : ℤ
  frame : Frame

/-- The running call and the calls below it on the C stack. -/
structure MachineState where
  current : Activation
  callers : List Activation

def callStackMaxSize : ℕ := 128

/-- The frame that `vm_execute_opcode_call` sets up for a function. -/
def calleeFrame (host : Host) (handle : FuncHandle) (args : List Word) : Frame where
  stack := []
  stackSize := handle.stackSize
  locals := args ++ (List.range (handle.varsSize / 4 - args.length)).map fun i =>
    host.fresh (args.length + i)

/-- `vm_execute_opcode_call` up to the call of `vm_execute_opcodes`. -/
def vmExecuteOpcodeCall (host : Host) (vm : Vm) (s : MachineState) (data : List UInt8) :
    Except VmStop MachineState := do
  let index ← readOffset data
  let handle ← vm.callHandle (UInt16.ofNat index)
  let argSize := handle.argSize.toNat
  if 4 * s.current.frame.stack.length < argSize then .error (.fault .args)
  else if handle.varsSize < argSize then .error (.fault .locals)
  else if callStackMaxSize ≤ s.callers.length + 1 then .error (.fault .callDepth)
  else
    -- the arguments stay on the stack of the caller
    let args := (s.current.frame.stack.take (argSize / 4)).reverse
    .ok
      { current := ⟨handle.bytecodeData.drop 4, 0, calleeFrame host handle args⟩
        callers := { s.current with pc := s.current.pc + 3 } :: s.callers }

/-- One round of the loop of `vm_execute_opcodes`, or its return; `none` when the outermost
call has returned. The comparison `pc < data_len` is unsigned. -/
def vmStep (host : Host) (vm : Vm) (s : MachineState) : Option (Except VmStop MachineState) :=
  if 0 ≤ s.current.pc then
    match s.current.code.drop s.current.pc.toNat with
    | opcode :: data =>
      some <|
        if opcode = opcodeCall then vmExecuteOpcodeCall host vm s data
        else
          match opcodeExecuteFuncs host opcode s.current.frame data with
          | .ok (frame, shift) => .ok { s with
              current := { s.current with pc := s.current.pc + shift, frame := frame } }
          | .error e => .error e
    | [] => returnToCaller s
  else returnToCaller s
where
  /-- The loop ends. -/
  returnToCaller (s : MachineState) : Option (Except VmStop MachineState) :=
    match s.callers with
    | [] => none
    | caller :: callers => some (.ok ⟨caller, callers⟩)

/-- `vm_execute_opcodes` is called on the current frame. -/
def vmStart (frame : Frame) (code : List UInt8) : MachineState := ⟨⟨code, 0, frame⟩, []⟩

/-- The machine makes a step. -/
def VmStep (host : Host) (vm : Vm) (s s' : MachineState) : Prop :=
  vmStep host vm s = some (.ok s')

/-- The states that the machine passes. -/
def VmReach (host : Host) (vm : Vm) : MachineState → MachineState → Prop :=
  Relation.ReflTransGen (VmStep host vm)

/-- `vm_execute_opcodes` on `code` returns and leaves `frame'`. -/
def VmRuns (host : Host) (vm : Vm) (frame : Frame) (code : List UInt8) (frame' : Frame) : Prop :=
  ∃ s, VmReach host vm (vmStart frame code) s ∧ vmStep host vm s = none ∧ s.current.frame = frame'

/-- The frame that the machine leaves after at most `fuel` steps, if it returns by then. -/
def vmRun (host : Host) (vm : Vm) : (fuel : ℕ) → MachineState → Option Frame
  | 0, _ => none
  | fuel + 1, s =>
    match vmStep host vm s with
    | none => some s.current.frame
    | some (.ok s') => vmRun host vm fuel s'
    | some (.error _) => none

lemma vmReach_of_vmRun {host : Host} {vm : Vm} {fuel : ℕ} {s : MachineState} {frame' : Frame}
    (h : vmRun host vm fuel s = some frame') :
    ∃ s', VmReach host vm s s' ∧ vmStep host vm s' = none ∧ s'.current.frame = frame' := by
  induction fuel generalizing s with
  | zero => cases h
  | succ fuel ih =>
    rw [vmRun] at h
    cases hstep : vmStep host vm s with
    | none =>
      rw [hstep] at h
      exact ⟨s, .refl, hstep, Option.some.inj h⟩
    | some r =>
      rw [hstep] at h
      cases r with
      | error e => cases h
      | ok s₁ =>
        obtain ⟨s', hreach, hend⟩ := ih h
        exact ⟨s', .head hstep hreach, hend⟩

lemma vmRuns_of_vmRun {host : Host} {vm : Vm} (fuel : ℕ) {frame frame' : Frame}
    {code : List UInt8} (h : vmRun host vm fuel (vmStart frame code) = some frame') :
    VmRuns host vm frame code frame' := vmReach_of_vmRun h

/-- The root frame of `vm_static_init`: 1024 bytes of stack and of variables. -/
def rootFrame (host : Host) : Frame where
  stack := []
  stackSize := 1024
  locals := (List.range 256).map host.fresh

/-- A host without `float` arithmetic and with cleared memory. -/
def zeroHost : Host where
  ofInt _ := 0
  add _ _ := 0
  sub _ _ := 0
  mul _ _ := 0
  div _ _ := 0
  fresh _ := ⟨.int, 0⟩

end PhantomShell
