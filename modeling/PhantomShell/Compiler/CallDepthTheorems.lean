import PhantomShell.Compiler.Flow
import PhantomShell.Compiler.ValueTheorems
import PhantomShell.Vm.Outcomes

/-!
# How deep calls nest

`vm_execute_opcode_call` moves `current_frame` without a look at the end of `call_stack`. Every
state that a program passes is inside of it; the call that would leave it is not stopped by a
panic.
-/

namespace PhantomShell

variable {host : Host} {vm : Vm}

/-- The machine is at a call of a function that it finds, with the arguments on the stack and with
slots for them. -/
def Enters (vm : Vm) (s : MachineState) (handle : FuncHandle) : Prop :=
  ∃ data index, 0 ≤ s.current.pc ∧ s.current.code.drop s.current.pc.toNat = opcodeCall :: data ∧
    readOffset data = .ok index ∧ vm.callHandle (UInt16.ofNat index) = .ok handle ∧
    handle.argSize.toNat ≤ 4 * s.current.frame.stack.length ∧
    handle.argSize.toNat ≤ handle.varsSize

/-! ## Who leaves the array -/

lemma readOffset_ne_callDepth (data : List UInt8) :
    readOffset data ≠ .error (.fault .callDepth) := fun h => nomatch readOffset_error h

lemma pushWord_ne_callDepth (frame : Frame) (w : Word) (shift : ℤ) :
    pushWord frame w shift ≠ .error (.fault .callDepth) := by
  unfold pushWord
  split <;> simp

lemma binaryWord_ne_callDepth (rep : Rep) (op : BitVec 32 → BitVec 32 → BitVec 32) (frame : Frame)
    (data : List UInt8) : binaryWord rep op frame data ≠ .error (.fault .callDepth) := by
  unfold binaryWord
  split <;> simp

lemma saveWord_ne_callDepth (frame : Frame) (data : List UInt8) :
    saveWord frame data ≠ .error (.fault .callDepth) := by
  unfold saveWord
  repeat' split
  all_goals simp

lemma loadWord_ne_callDepth (frame : Frame) (data : List UInt8) :
    loadWord frame data ≠ .error (.fault .callDepth) := by
  unfold loadWord
  repeat' split
  · exact pushWord_ne_callDepth _ _ _
  · simp
  · simp

lemma except_bind_ne {α β : Type} {x : Except VmStop α} {f : α → Except VmStop β} {e : VmStop}
    (hx : x ≠ .error e) (hf : ∀ a, f a ≠ .error e) : (x >>= f) ≠ .error e := by
  cases x with
  | error e' => exact fun h => hx (by cases h; rfl)
  | ok a => exact hf a

lemma branchWord_ne_callDepth (taken : BitVec 32 → Bool) (frame : Frame) (data : List UInt8) :
    branchWord taken frame data ≠ .error (.fault .callDepth) := by
  refine except_bind_ne (readOffset_ne_callDepth data) fun offset => ?_
  split <;> simp

lemma constWord_ne_callDepth (frame : Frame) (data : List UInt8) :
    vmExecuteOpcodeIconst frame data ≠ .error (.fault .callDepth) ∧
      vmExecuteOpcodeFconst frame data ≠ .error (.fault .callDepth) := by
  unfold vmExecuteOpcodeIconst vmExecuteOpcodeFconst
  constructor
  · split
    · exact pushWord_ne_callDepth _ _ _
    · simp
  · split
    · exact pushWord_ne_callDepth _ _ _
    · simp

lemma idiv_ne_callDepth (frame : Frame) (data : List UInt8) :
    vmExecuteOpcodeIdiv frame data ≠ .error (.fault .callDepth) := by
  unfold vmExecuteOpcodeIdiv
  split
  · split
    · simp
    · exact binaryWord_ne_callDepth _ _ _ _
  · simp

lemma i2f_ne_callDepth (frame : Frame) (data : List UInt8) :
    vmExecuteOpcodeI2f host frame data ≠ .error (.fault .callDepth) := by
  unfold vmExecuteOpcodeI2f
  split <;> simp

lemma jump_ne_callDepth (frame : Frame) (data : List UInt8) :
    vmExecuteOpcodeJmp frame data ≠ .error (.fault .callDepth) ∧
      vmExecuteOpcodeRjmp frame data ≠ .error (.fault .callDepth) :=
  ⟨except_bind_ne (readOffset_ne_callDepth data) fun _ => by simp,
    except_bind_ne (readOffset_ne_callDepth data) fun _ => by simp⟩

lemma installed_ne_callDepth : ∀ p ∈ opcodeHandlers host, ∀ frame data,
    p.2 frame data ≠ .error (.fault .callDepth) := by
  simp only [opcodeHandlers, List.forall_mem_cons, List.not_mem_nil, false_implies, implies_true,
    and_true]
  exact ⟨saveWord_ne_callDepth, loadWord_ne_callDepth, fun f d => (constWord_ne_callDepth f d).1,
    binaryWord_ne_callDepth _ _, binaryWord_ne_callDepth _ _, binaryWord_ne_callDepth _ _,
    idiv_ne_callDepth, binaryWord_ne_callDepth _ _, binaryWord_ne_callDepth _ _,
    binaryWord_ne_callDepth _ _, binaryWord_ne_callDepth _ _, binaryWord_ne_callDepth _ _,
    binaryWord_ne_callDepth _ _, i2f_ne_callDepth, saveWord_ne_callDepth, loadWord_ne_callDepth,
    fun f d => (constWord_ne_callDepth f d).2, binaryWord_ne_callDepth _ _,
    binaryWord_ne_callDepth _ _, binaryWord_ne_callDepth _ _, binaryWord_ne_callDepth _ _,
    branchWord_ne_callDepth _, branchWord_ne_callDepth _, fun f d => (jump_ne_callDepth f d).1,
    fun f d => (jump_ne_callDepth f d).2⟩

/-- Only a call leaves the call stack. -/
lemma handler_ne_callDepth (opcode : UInt8) : ∀ frame data,
    opcodeExecuteFuncs host opcode frame data ≠ .error (.fault .callDepth) :=
  opcodeExecuteFuncs_of_installed (P := fun handler =>
    ∀ frame data, handler frame data ≠ .error (.fault .callDepth)) (fun _ _ => nofun)
    installed_ne_callDepth opcode

lemma callHandle_ne_callDepth (index : UInt16) :
    vm.callHandle index ≠ .error (.fault .callDepth) := by
  intro h
  rcases callHandle_error h with hstop | ⟨message, hstop⟩
  · cases hstop
  · cases hstop

/-- A call leaves the call stack if and only if it enters a function from the last entry. -/
lemma vmExecuteOpcodeCall_callDepth {s : MachineState} {data : List UInt8}
    (hpc : 0 ≤ s.current.pc) (hdrop : s.current.code.drop s.current.pc.toNat = opcodeCall :: data) :
    vmExecuteOpcodeCall host vm s data = .error (.fault .callDepth) ↔
      (∃ handle, Enters vm s handle) ∧ callStackMaxSize ≤ s.callers.length + 1 := by
  unfold vmExecuteOpcodeCall
  cases hindex : readOffset data with
  | error e =>
    constructor
    · rintro ⟨⟩
      exact (readOffset_ne_callDepth data hindex).elim
    · rintro ⟨⟨handle, data', index, -, hdrop', hindex', -⟩, -⟩
      rw [hdrop] at hdrop'
      cases hdrop'
      rw [hindex] at hindex'
      cases hindex'
  | ok index =>
    rw [except_ok_bind]
    cases hhandle : vm.callHandle (UInt16.ofNat index) with
    | error e =>
      constructor
      · rintro ⟨⟩
        exact (callHandle_ne_callDepth _ hhandle).elim
      · rintro ⟨⟨handle, data', index', -, hdrop', hindex', hhandle', -⟩, -⟩
        rw [hdrop] at hdrop'
        cases hdrop'
        rw [hindex] at hindex'
        cases hindex'
        rw [hhandle] at hhandle'
        cases hhandle'
    | ok handle =>
      rw [except_ok_bind]
      have henters : (∃ handle, Enters vm s handle) ↔
          handle.argSize.toNat ≤ 4 * s.current.frame.stack.length ∧
            handle.argSize.toNat ≤ handle.varsSize := by
        constructor
        · rintro ⟨handle', data', index', -, hdrop', hindex', hhandle', hargs, hvars⟩
          rw [hdrop] at hdrop'
          cases hdrop'
          rw [hindex] at hindex'
          cases hindex'
          rw [hhandle] at hhandle'
          cases hhandle'
          exact ⟨hargs, hvars⟩
        · rintro ⟨hargs, hvars⟩
          exact ⟨handle, data, index, hpc, hdrop, hindex, hhandle, hargs, hvars⟩
      rw [henters]
      dsimp only
      -- the depth is compared last, behind the arguments and the variables
      by_cases hargs : 4 * s.current.frame.stack.length < handle.argSize.toNat
      · rw [if_pos hargs]
        exact ⟨nofun, fun h => by omega⟩
      rw [if_neg hargs]
      by_cases hvars : handle.varsSize < handle.argSize.toNat
      · rw [if_pos hvars]
        exact ⟨nofun, fun h => by omega⟩
      rw [if_neg hvars]
      by_cases hdepth : callStackMaxSize ≤ s.callers.length + 1
      · rw [if_pos hdepth]
        exact ⟨fun _ => ⟨by omega, hdepth⟩, fun _ => rfl⟩
      · rw [if_neg hdepth]
        exact ⟨nofun, fun h => (hdepth h.2).elim⟩

/-- The step at which the machine leaves the call stack. -/
lemma vmStep_callDepth {s : MachineState} :
    vmStep host vm s = some (.error (.fault .callDepth)) ↔
      (∃ handle, Enters vm s handle) ∧ callStackMaxSize ≤ s.callers.length + 1 := by
  -- the end of a function only shortens the call stack
  have hreturn : ∀ {s}, vmStep.returnToCaller s ≠ some (.error (.fault .callDepth)) := by
    intro s
    unfold vmStep.returnToCaller
    split <;> simp
  by_cases hpc : 0 ≤ s.current.pc
  · cases hdrop : s.current.code.drop s.current.pc.toNat with
    | nil =>
      rw [vmStep, if_pos hpc, hdrop]
      refine ⟨fun h => (hreturn h).elim, ?_⟩
      rintro ⟨⟨handle, data, index, -, hdrop', -⟩, -⟩
      rw [hdrop] at hdrop'
      cases hdrop'
    | cons opcode data =>
      rw [vmStep, if_pos hpc, hdrop]
      by_cases hop : opcode = opcodeCall
      · subst hop
        simp only [if_true, Option.some.injEq]
        exact vmExecuteOpcodeCall_callDepth hpc hdrop
      · simp only [if_neg hop, Option.some.injEq]
        constructor
        · intro h
          have hne : opcodeExecuteFuncs host opcode s.current.frame data ≠ .error (.fault .callDepth) :=
            handler_ne_callDepth opcode s.current.frame data
          cases hexec : opcodeExecuteFuncs host opcode s.current.frame data with
          | ok r => simp [hexec] at h
          | error e =>
            rw [hexec] at h hne
            simp only [Except.error.injEq] at h
            exact (hne (by rw [h])).elim
        · rintro ⟨⟨handle, data', index, -, hdrop', -⟩, -⟩
          rw [hdrop] at hdrop'
          cases hdrop'
          exact (hop rfl).elim
  · rw [vmStep, if_neg hpc]
    refine ⟨fun h => (hreturn h).elim, ?_⟩
    rintro ⟨⟨handle, data, index, hpc', -⟩, -⟩
    exact (hpc hpc').elim

/-! ## Runs -/

/-- The step lemma: a step stays in the call stack. -/
lemma vmStep_callers {s s' : MachineState} (h : s.callers.length < callStackMaxSize)
    (hstep : VmStep host vm s s') : s'.callers.length < callStackMaxSize := by
  rcases vmStep_cases hstep with hsame | ⟨data, -, hcall⟩ | hret
  · rwa [hsame]
  · obtain ⟨_, _, -, -, -, -, hdepth, rfl⟩ := vmExecuteOpcodeCall_eq_ok hcall
    rwa [List.length_cons]
  · rw [hret, List.length_cons] at h
    omega

/-- The run lemma: so does every run. -/
lemma sessionReach_callers {vm' : Vm} {frame : Frame} {events : List Event} {s : MachineState}
    (h : SessionReach host vm frame events vm' s) : s.callers.length < callStackMaxSize := by
  induction h with
  | here hreach =>
    induction hreach with
    | refl => exact (by decide : 0 < callStackMaxSize)
    | tail _ hstep ih => exact vmStep_callers ih hstep
  | execute _ _ ih => exact ih
  | register _ _ ih => exact ih

/-- `current_frame` designates an entry in every state, and no call leaves the array, if and only
if no function is entered while all entries are in use. -/
theorem callDepth_bounded_iff (host : Host) (isInteractive : Bool) (program : List TopLevel) :
    (∀ vm s, Passes host isInteractive program vm s → s.callers.length < callStackMaxSize ∧
      vmStep host vm s ≠ some (.error (.fault .callDepth))) ↔
      ∀ vm s handle, Passes host isInteractive program vm s → Enters vm s handle →
        s.callers.length + 1 < callStackMaxSize := by
  constructor
  · intro h vm s handle hs henters
    by_contra hfull
    exact (h vm s hs).2 (vmStep_callDepth.mpr ⟨⟨handle, henters⟩, by omega⟩)
  · intro h vm s hs
    obtain ⟨fuel, events, -, hreach⟩ := id hs
    refine ⟨sessionReach_callers hreach, fun hleave => ?_⟩
    obtain ⟨⟨handle, henters⟩, hfull⟩ := vmStep_callDepth.mp hleave
    have := h vm s handle hs henters
    omega

/-! ## Functions that call nothing -/

/-- The expression calls no function. -/
def CallFree : Expr → Prop
  | .group _ expr => CallFree expr
  | .unaryOp _ _ operand => CallFree operand
  | .binaryOp _ operator left right => operator ≠ .functionCall ∧ CallFree left ∧ CallFree right
  | _ => True

/-- No instruction is a call. -/
def callFree (i : Instr) (_ : Frame) : Bool := !i.isCall

/-- Only calls are compiled to calls. -/
lemma callFree_exprCode (callIndex : CStr → UInt16) {vars : Vars} {e : Expr} {i : Instr}
    (h : CallFree e) (hi : i ∈ exprCode callIndex vars e) (frame : Frame) :
    callFree i frame = true := by
  have hlocal : ∀ {i : Instr}, i.Local → callFree i frame = true := by
    intro i hi
    rw [callFree, hi.1]
    rfl
  revert hi
  fun_induction exprCode callIndex vars e with
  | case1 vars _ expr ih => exact ih h
  | case2 vars _ _ operand ih =>
    intro hi
    rcases List.mem_append.mp hi with hi | hi
    · exact ih h hi
    · split at hi
      · rw [List.mem_singleton.mp hi]
        rfl
      · cases hi
  | case3 vars _ _ name right => exact fun hi => hlocal (assignCode_local hi)
  | case4 => exact absurd rfl h.1
  | case5 vars _ left right ihl ihr =>
    intro hi
    rcases List.mem_append.mp hi with hi | hi
    · exact ihl h.2.1 hi
    · exact ihr h.2.2 hi
  | case6 => exact fun hi => hlocal (operandCode_local hi)

/-- Nothing is asserted of the frames of code that calls nothing. -/
def callFreeFlow : Flow Unit where
  Inv _ _ _ := True
  leave _ _ _ := ()
  test _ _ _ := ()
  Good _ _ e := CallFree e
  GoodCond _ _ e := CallFree e

lemma line_callFree (callIndex : CStr → UInt16) {vars : Vars} {e : Expr} (h : CallFree e) :
    (guardedIsa host callFree).Line (Tolerated anyStop) (fun _ => True) (exprCode callIndex vars e)
      (fun _ => True) := by
  refine JumpIsa.line_invariant fun i hi frame _ => ?_
  refine effect_guarded (callFree_exprCode callIndex h hi frame) ?_
  cases hexec : (vmIsa host).exec i frame with
  | error e => trivial
  | ok r => exact ⟨exprCode_straight host callIndex hi _ _ _ hexec, trivial⟩

lemma callFreeFlow_sound (callIndex : CStr → UInt16) :
    callFreeFlow.Sound host anyStop callFree callIndex where
  jumps := fun _ _ => ⟨rfl, rfl, rfl⟩
  mono _ h := h
  forget _ h := h
  expr _ h := line_callFree callIndex h
  cond _ h := (line_callFree callIndex h).mono (fun _ h => h) fun frame _ => by
    unfold Frame.Tested
    split
    · exact ⟨fun _ => trivial, fun _ => trivial⟩
    · trivial

/-- The bytecode of a function calls nothing. -/
abbrev FuncCallFree (host : Host) : FuncHandle → Prop :=
  FuncHolds host anyStop callFree fun _ _ => True

/-- There is no caller, or one of a function that calls nothing. -/
def Shallow (host : Host) (s : MachineState) : Prop :=
  s.callers = [] ∨
    ∃ caller, s.callers = [caller] ∧ Holds host anyStop callFree (fun _ => True) s.current

/-- The step lemma: only the outermost activation calls. -/
lemma vmStep_shallow {s s' : MachineState}
    (hfuncs : AllValues (FuncCallFree host) vm.globalFuncs.funcMap) (h : Shallow host s)
    (hstep : VmStep host vm s s') : Shallow host s' := by
  rcases h with hroot | ⟨caller, hcallers, hcurrent⟩
  · rcases vmStep_cases hstep with hsame | ⟨data, -, hcall⟩ | hret
    · exact .inl (hsame.trans hroot)
    · have hcallers := callers_of_call hcall
      rw [hroot] at hcallers
      obtain ⟨index, handle, -, hhandle, -, -, -, rfl⟩ := vmExecuteOpcodeCall_eq_ok hcall
      obtain ⟨code, hcode, hguarded⟩ := callHandle_values hfuncs hhandle
      have hentered : Holds host anyStop callFree (fun _ => True) ⟨encodeAll code, 0,
          calleeFrame host handle (s.current.frame.stack.take (handle.argSize.toNat / 4)).reverse⟩ :=
        hguarded.holds trivial
      rw [← hcode] at hentered
      exact .inr ⟨_, hcallers, hentered⟩
    · rw [hroot] at hret
      cases hret
  · rcases hcurrent.step (fun _ => rfl) hstep with ⟨hsame, hgoes⟩ | hret
    · exact .inr ⟨caller, hsame.trans hcallers, hgoes⟩
    · rw [hcallers] at hret
      exact .inl (List.cons_eq_cons.mp hret).2.symm

/-- The run lemma: so it is in all states of a session that registers such functions only. -/
lemma sessionReach_shallow {vm' : Vm} {frame : Frame} {events : List Event} {s : MachineState}
    (hreach : SessionReach host vm frame events vm' s)
    (hfuncs : AllValues (FuncCallFree host) vm.globalFuncs.funcMap)
    (hevents : ∀ signature data, .register signature data ∈ events →
      ∀ handle : FuncHandle, handle.bytecodeData = data → FuncCallFree host handle) :
    Shallow host s := by
  induction hreach with
  | here hreach =>
    induction hreach with
    | refl => exact .inl rfl
    | tail _ hstep ih => exact vmStep_shallow hfuncs ih hstep
  | execute _ _ ih =>
    exact ih hfuncs fun signature data hmem => hevents _ _ (List.mem_cons_of_mem _ hmem)
  | register hregister _ ih =>
    obtain ⟨-, hdata, -, hvalues⟩ := vmRegister_handle hregister
    exact ih (hvalues _ hfuncs (hevents _ _ List.mem_cons_self _ hdata))
      fun signature data hmem => hevents _ _ (List.mem_cons_of_mem _ hmem)

/-- What is registered for functions without calls. -/
lemma ProgramEvents.callFree {isInteractive : Bool} {vars : Vars} {program : List TopLevel}
    {events : List Event} (hevents : ProgramEvents isInteractive vars program events)
    (hreg : Throughout (RegularScope fun _ => 0)
      (fun func => RegularScope (fun _ => 0) (paramVars func.args) func.body) vars program)
    (hfree : ∀ func ∈ functionsOf program, EachExpr (fun _ => CallFree) (paramVars func.args) func.body)
    {signature data : List UInt8} (hmem : .register signature data ∈ events) {handle : FuncHandle}
    (hdata : handle.bytecodeData = data) : FuncCallFree host handle := by
  induction hevents with
  | nil => cases hmem
  | stat _ ih =>
    rcases List.mem_append.mp hmem with hmem | hmem
    · unfold rootEvents at hmem
      split at hmem
      · simp at hmem
      · cases hmem
    · exact ih hreg.2 hfree hmem
  | @func callIndex _ func _ _ varsMaxSize _ ih =>
    rcases List.mem_cons.mp hmem with heq | hmem
    · cases heq
      exact (callFreeFlow_sound callIndex).func ((regularScope_callIndex _ _ _ _).mp hreg.1)
        (Flow.follows_of_each (fun _ _ h => ⟨h, h⟩) (hfree func List.mem_cons_self)) hdata
        fun _ _ => trivial
    · exact ih hreg.2 (fun func hfunc => hfree func (List.mem_cons_of_mem _ hfunc)) hmem

/-- Where the bodies of the functions call nothing, no more than two entries are ever in use. -/
theorem callDepth_bounded_of_callFree {isInteractive : Bool} {program : List TopLevel}
    (hp : EncodableProgram program) (hfree : ∀ func ∈ functionsOf program,
      EachExpr (fun _ => CallFree) (paramVars func.args) func.body) {s : MachineState}
    (hs : Passes host isInteractive program vm s) :
    s.callers.length ≤ 1 ∧ vmStep host vm s ≠ some (.error (.fault .callDepth)) := by
  have hreg := hs.regular hp
  obtain ⟨fuel, events, hevents, hreach⟩ := hs
  obtain ⟨s', hcompile, hs'⟩ := compiledEvents_eq_some hevents
  obtain ⟨events', hevents', hprogram⟩ :=
    compileProgram_events (atRoot_init isInteractive) hp.parsed.untraced hreg hcompile
  obtain rfl : events' = events := hevents'.symm.trans hs'
  have hshallow := sessionReach_shallow hreach (allValues_new _ _ _)
    fun _ _ hmem _ hdata => hprogram.callFree hreg hfree hmem hdata
  have hlen : s.callers.length ≤ 1 := by
    rcases hshallow with hroot | ⟨caller, hcallers, -⟩
    · rw [hroot]
      exact Nat.zero_le 1
    · rw [hcallers]
      exact le_rfl
  refine ⟨hlen, fun hleave => ?_⟩
  obtain ⟨-, hfull⟩ := vmStep_callDepth.mp hleave
  exact absurd hfull (by
    rw [callStackMaxSize]
    omega)

/-! ## A function that calls itself -/

/-- `f(arg)` -/
def callF (arg : Expr) : Stat :=
  .expr (.binaryOp .unknwn .functionCall (.ident .unknwn [102]) (.group .unknwn arg)) .nil

/-- `func f(int a) void { f(a) }` and `f(1)` -/
def endlessCalls : List TopLevel :=
  [.func ⟨[102], [([97], [105, 110, 116])], some [118, 111, 105, 100], callF (.ident .unknwn [97])⟩,
    .stat (callF (.literalInt 1))]

/-- The code of `f`: `ILOAD 0; CALL 0`. -/
def endlessBody : List UInt8 := [opcodeIload, 0, opcodeCall, 0, 0]

/-- The frame of `f` in front of its call. -/
def endlessFrame : Frame := ⟨[⟨.int, 1⟩], 4, [⟨.int, 1⟩]⟩

/-- Each call of `f` comes to the next one. -/
lemma endless_step {handle : FuncHandle} (hhandle : vm.callHandle (UInt16.ofNat 0) = .ok handle)
    (hsizes : handle.argSize = 4 ∧ handle.varsSize = 4 ∧ handle.stackSize = 4 ∧
      handle.bytecodeData.drop 4 = endlessBody) {code : List UInt8} {pc : ℤ} {frame : Frame}
    (hpc : 0 ≤ pc) (hdrop : code.drop pc.toNat = [opcodeCall, 0, 0])
    (hframe : frame.stack = [⟨.int, 1⟩]) {callers : List Activation}
    (hcallers : callers.length + 1 < callStackMaxSize) :
    VmReach host vm ⟨⟨code, pc, frame⟩, callers⟩
      ⟨⟨endlessBody, 2, endlessFrame⟩, ⟨code, pc + 3, frame⟩ :: callers⟩ := by
  obtain ⟨harg, hvars, hstack, hbody⟩ := hsizes
  have hcallee : calleeFrame host handle [⟨.int, 1⟩] = ⟨[], 4, [⟨.int, 1⟩]⟩ := by
    simp [calleeFrame, hstack, hvars]
  have henter : vmStep host vm ⟨⟨code, pc, frame⟩, callers⟩
      = some (.ok ⟨⟨endlessBody, 0, ⟨[], 4, [⟨.int, 1⟩]⟩⟩, ⟨code, pc + 3, frame⟩ :: callers⟩) := by
    rw [vmStep, if_pos hpc]
    simp only [hdrop, if_true, vmExecuteOpcodeCall]
    have hread : readOffset [0, 0] = .ok 0 := rfl
    rw [hread, except_ok_bind, hhandle, except_ok_bind]
    have harg' : handle.argSize.toNat = 4 := by rw [harg]; rfl
    rw [harg', hframe, if_neg (by decide), hvars, if_neg (by decide), if_neg (by omega), hbody]
    simp only [List.take, List.reverse_cons, List.reverse_nil, List.nil_append, hcallee]
  have hload : VmStep host vm
      ⟨⟨endlessBody, 0, ⟨[], 4, [⟨.int, 1⟩]⟩⟩, ⟨code, pc + 3, frame⟩ :: callers⟩
      ⟨⟨endlessBody, 2, endlessFrame⟩, ⟨code, pc + 3, frame⟩ :: callers⟩ := rfl
  exact .tail (.single henter) hload

/-- `f` calls itself any number of times, up to the last entry of the array. -/
lemma endless_reach {handle : FuncHandle} (hhandle : vm.callHandle (UInt16.ofNat 0) = .ok handle)
    (hsizes : handle.argSize = 4 ∧ handle.varsSize = 4 ∧ handle.stackSize = 4 ∧
      handle.bytecodeData.drop 4 = endlessBody) (frame : Frame) (hframe : frame.stack = [⟨.int, 1⟩])
    (n : ℕ) (hn : n + 1 < callStackMaxSize) : ∃ callers, callers.length = n + 1 ∧
      VmReach host vm (vmStart frame [opcodeCall, 0, 0])
        ⟨⟨endlessBody, 2, endlessFrame⟩, callers⟩ := by
  induction n with
  | zero => exact ⟨_, rfl, endless_step hhandle hsizes (by decide) rfl hframe hn⟩
  | succ n ih =>
    obtain ⟨callers, hlen, hreach⟩ := ih (by omega)
    exact ⟨_, by rw [List.length_cons, hlen], hreach.trans
      (endless_step hhandle hsizes (by decide) rfl rfl (by omega))⟩

def endlessSignature : CStr := [102, 40, 73, 41, 86]

def endlessData : List UInt8 := [0, 1, 0, 4] ++ endlessBody

/-- `f` is registered and found. -/
lemma endless_registered : ∃ index handle₀ vm handle,
    vmRegister 1 vmStaticInit endlessSignature endlessData = .ok (index, handle₀, vm) ∧
      vm.callHandle (UInt16.ofNat 0) = .ok handle ∧ handle.argSize = 4 ∧ handle.varsSize = 4 ∧
        handle.stackSize = 4 ∧ handle.bytecodeData.drop 4 = endlessBody := by
  have hrun : ((vmRegister 1 vmStaticInit endlessSignature endlessData).bind fun r =>
      (r.2.2.callHandle (UInt16.ofNat 0)).map fun handle =>
        decide (handle.argSize = 4 ∧ handle.varsSize = 4 ∧ handle.stackSize = 4 ∧
          handle.bytecodeData.drop 4 = endlessBody)).toOption = some true := by decide +kernel
  cases hregister : vmRegister 1 vmStaticInit endlessSignature endlessData with
  | error e =>
    rw [hregister] at hrun
    cases hrun
  | ok r =>
    obtain ⟨index, handle₀, vm⟩ := r
    rw [hregister] at hrun
    change ((vm.callHandle (UInt16.ofNat 0)).map _).toOption = some true at hrun
    cases hhandle : vm.callHandle (UInt16.ofNat 0) with
    | error e =>
      rw [hhandle] at hrun
      cases hrun
    | ok handle =>
      rw [hhandle] at hrun
      exact ⟨index, handle₀, vm, handle, rfl, hhandle, of_decide_eq_true (Option.some.inj hrun)⟩

/-- The call in the last entry of the array enters a frame behind it. -/
theorem endlessCalls_leave : ∃ vm s, Passes zeroHost true endlessCalls vm s ∧
    vmStep zeroHost vm s = some (.error (.fault .callDepth)) := by
  obtain ⟨index, handle₀, vm, handle, hregister, hhandle, hsizes⟩ := endless_registered
  let frame : Frame := { rootFrame zeroHost with stack := [⟨.int, 1⟩] }
  have hpush : VmRuns zeroHost vm (rootFrame zeroHost) [opcodeIconst, 0, 0, 0, 1] frame :=
    ⟨_, .single rfl, rfl, rfl⟩
  obtain ⟨callers, hlen, hreach⟩ := endless_reach hhandle hsizes frame
    rfl 126 (by decide)
  refine ⟨vm, _, ⟨4, [.register endlessSignature endlessData,
    .execute [opcodeIconst, 0, 0, 0, 1], .execute [opcodeCall, 0, 0]], by decide +kernel,
    .register hregister (.execute hpush (.here hreach))⟩, ?_⟩
  refine vmStep_callDepth.mpr ⟨⟨handle, [0, 0], 0, ?_, rfl, rfl, hhandle, ?_, ?_⟩, ?_⟩
  · exact (by decide : (0 : ℤ) ≤ 2)
  · rw [hsizes.1]
    exact (by decide : UInt16.toNat 4 ≤ 4 * 1)
  · rw [hsizes.1, hsizes.2.1]
    decide
  · simp only [hlen]
    decide

end PhantomShell
