import Mathlib.Logic.Function.Basic
import PhantomShell.Lib.Except
import PhantomShell.Vm.Machine

/-!
# Calls on the global call stack

`vm_execute_opcodes` as the source has it: a recursion over the static `call_stack`, whose
current entry the handlers read and write through `current_frame`. A run of the recursion is a
run of the machine with its list of callers (`vmExecuteOpcodes_simulated`), and a call leaves the
entries up to its caller's as they were (`executeCall_isolated`).

The blocks that the pointers of an entry designate are allocated for it alone, so they are part
of the entry; an access outside of them is a `Fault`.
-/

namespace PhantomShell

/-- `call_stack` with `current_frame`, which always designates an entry. -/
structure CallStack where
  frames : Fin callStackMaxSize → Frame
  currentFrame : Fin callStackMaxSize

namespace CallStack

/-- `*current_frame` -/
def frame (cs : CallStack) : Frame := cs.frames cs.currentFrame

/-- A handler writes to `*current_frame`. -/
def write (cs : CallStack) (frame : Frame) : CallStack :=
  { cs with frames := Function.update cs.frames cs.currentFrame frame }

/-- `current_frame--` -/
def leave (cs : CallStack) : CallStack :=
  { cs with currentFrame := ⟨cs.currentFrame - 1, by omega⟩ }

end CallStack

variable (host : Host) (vm : Vm)

/-- `vm_execute_opcode_call` up to the call of `vm_execute_opcodes`: the bytecode of the function,
and the call stack with `current_frame` at its new entry. -/
def enterCall (cs : CallStack) (data : List UInt8) : Except VmStop (List UInt8 × CallStack) := do
  let index ← readOffset data
  let handle ← vm.callHandle (UInt16.ofNat index)
  let argSize := handle.argSize.toNat
  if 4 * cs.frame.stack.length < argSize then .error (.fault .args)
  else if handle.varsSize < argSize then .error (.fault .locals)
  else if h : cs.currentFrame + 1 < callStackMaxSize then
    let args := (cs.frame.stack.take (argSize / 4)).reverse
    .ok (handle.bytecodeData.drop 4,
      CallStack.write { cs with currentFrame := ⟨cs.currentFrame + 1, h⟩ }
        (calleeFrame host handle args))
  else .error (.fault .callDepth)

/-- The loop of `vm_execute_opcodes` from `pc` on; `fuel` bounds the opcodes that are executed one
after another or inside each other. -/
def vmExecuteOpcodes : (fuel : ℕ) → (code : List UInt8) → (pc : ℤ) → CallStack →
    Option (Except VmStop CallStack)
  | 0, _, _, _ => none
  | fuel + 1, code, pc, cs =>
    if 0 ≤ pc then
      match code.drop pc.toNat with
      | opcode :: data =>
        if opcode = opcodeCall then
          match enterCall host vm cs data with
          | .error e => some (.error e)
          | .ok (body, cs₁) =>
            match vmExecuteOpcodes fuel body 0 cs₁ with
            | some (.ok cs₂) => vmExecuteOpcodes fuel code (pc + 3) cs₂.leave
            | r => r
        else
          match opcodeExecuteFuncs host opcode cs.frame data with
          | .error e => some (.error e)
          | .ok (frame, shift) => vmExecuteOpcodes fuel code (pc + shift) (cs.write frame)
      | [] => some (.ok cs)
    else some (.ok cs)

/-- `vm_execute_opcode_call` -/
def executeCall (fuel : ℕ) (cs : CallStack) (data : List UInt8) :
    Option (Except VmStop CallStack) :=
  match enterCall host vm cs data with
  | .error e => some (.error e)
  | .ok (body, cs₁) => (vmExecuteOpcodes host vm fuel body 0 cs₁).map fun r => r.map CallStack.leave

variable {host vm}

/-! ## The entries -/

@[simp] lemma CallStack.frame_write (cs : CallStack) (frame : Frame) :
    (cs.write frame).frame = frame := Function.update_self _ _ _

@[simp] lemma CallStack.currentFrame_write (cs : CallStack) (frame : Frame) :
    (cs.write frame).currentFrame = cs.currentFrame := rfl

/-- The entries below the current one are the same. -/
structure SameBelow (cs cs' : CallStack) : Prop where
  currentFrame : cs'.currentFrame = cs.currentFrame
  frames : ∀ j < cs.currentFrame, cs'.frames j = cs.frames j

lemma SameBelow.refl (cs : CallStack) : SameBelow cs cs := ⟨rfl, fun _ _ => rfl⟩

lemma SameBelow.trans {cs₁ cs₂ cs₃ : CallStack} (h₁ : SameBelow cs₁ cs₂)
    (h₂ : SameBelow cs₂ cs₃) : SameBelow cs₁ cs₃ := by
  refine ⟨h₂.currentFrame.trans h₁.currentFrame, fun j hj => ?_⟩
  rw [h₂.frames j (by rwa [h₁.currentFrame]), h₁.frames j hj]

lemma SameBelow.write (cs : CallStack) (frame : Frame) : SameBelow cs (cs.write frame) :=
  ⟨rfl, fun _ hj => Function.update_of_ne (Fin.ne_of_lt hj) _ _⟩

/-- What entering a function does to the call stack. -/
lemma enterCall_eq_ok {cs cs₁ : CallStack} {data body : List UInt8}
    (h : enterCall host vm cs data = .ok (body, cs₁)) :
    ∃ index handle, readOffset data = .ok index ∧
      vm.callHandle (UInt16.ofNat index) = .ok handle ∧ body = handle.bytecodeData.drop 4 ∧
      handle.argSize.toNat ≤ 4 * cs.frame.stack.length ∧
      cs₁.frame = calleeFrame host handle
        (cs.frame.stack.take (handle.argSize.toNat / 4)).reverse ∧
      (cs₁.currentFrame : ℕ) = cs.currentFrame + 1 ∧
      ∀ j, j ≤ cs.currentFrame → cs₁.frames j = cs.frames j := by
  simp only [enterCall, except_bind_eq_ok] at h
  obtain ⟨index, hindex, handle, hhandle, h⟩ := h
  split at h
  · cases h
  split at h
  · cases h
  split at h
  · rename_i hdepth
    simp only [Except.ok.injEq, Prod.mk.injEq] at h
    obtain ⟨rfl, rfl⟩ := h
    refine ⟨index, handle, hindex, hhandle, rfl, by omega, by simp, rfl, fun j hj => ?_⟩
    refine Function.update_of_ne ?_ _ _
    intro heq
    have := congrArg Fin.val heq
    simp only at this
    omega
  · cases h

/-- Back from a function whose execution kept the entries below its own, the caller's entry is
the current one again, and nothing up to it has changed. -/
lemma leave_same {cs cs₁ cs₂ : CallStack} (hentry : (cs₁.currentFrame : ℕ) = cs.currentFrame + 1)
    (hframes : ∀ j, j ≤ cs.currentFrame → cs₁.frames j = cs.frames j) (h : SameBelow cs₁ cs₂) :
    cs₂.leave.currentFrame = cs.currentFrame ∧
      ∀ j, j ≤ cs.currentFrame → cs₂.leave.frames j = cs.frames j := by
  refine ⟨?_, fun j hj => ?_⟩
  · apply Fin.ext
    change (cs₂.currentFrame : ℕ) - 1 = _
    rw [h.currentFrame, hentry, Nat.add_sub_cancel]
  · have hlt : j < cs₁.currentFrame := by
      rw [Fin.lt_def]
      omega
    exact (h.frames j hlt).trans (hframes j hj)

/-! ## Refinement -/

/-- The machine at an opcode that is not a call. -/
lemma vmStep_handler {s : MachineState} {opcode : UInt8} {data : List UInt8}
    (hpc : 0 ≤ s.current.pc) (hdrop : s.current.code.drop s.current.pc.toNat = opcode :: data)
    (hop : opcode ≠ opcodeCall) :
    vmStep host vm s = some (match opcodeExecuteFuncs host opcode s.current.frame data with
      | .ok (frame, shift) => .ok { s with
          current := { s.current with pc := s.current.pc + shift, frame := frame } }
      | .error e => .error e) := by
  rw [vmStep, if_pos hpc, hdrop]
  exact congrArg some (if_neg hop)

/-- Entering a function is the step of the machine at a call. -/
lemma vmStep_enter {cs : CallStack} {callers : List Activation} {code data : List UInt8} {pc : ℤ}
    (hcallers : callers.length = cs.currentFrame) (hpc : 0 ≤ pc)
    (hdrop : code.drop pc.toNat = opcodeCall :: data) :
    vmStep host vm ⟨⟨code, pc, cs.frame⟩, callers⟩ = some (match enterCall host vm cs data with
      | .ok (body, cs₁) => .ok ⟨⟨body, 0, cs₁.frame⟩, ⟨code, pc + 3, cs.frame⟩ :: callers⟩
      | .error e => .error e) := by
  rw [vmStep, if_pos hpc]
  simp only [hdrop, if_true, vmExecuteOpcodeCall, enterCall]
  cases readOffset data with
  | error e => rfl
  | ok index =>
    simp only [except_ok_bind]
    cases vm.callHandle (UInt16.ofNat index) with
    | error e => rfl
    | ok handle =>
      simp only [except_ok_bind]
      by_cases hargs : 4 * cs.frame.stack.length < handle.argSize.toNat
      · simp only [if_pos hargs]
      · by_cases hvars : handle.varsSize < handle.argSize.toNat
        · simp only [if_neg hargs, if_pos hvars]
        · simp only [if_neg hargs, if_neg hvars]
          by_cases hdepth : cs.currentFrame + 1 < callStackMaxSize
          · rw [if_neg (by omega), dif_pos hdepth]
            simp only [CallStack.frame_write]
          · rw [if_pos (by omega), dif_neg hdepth]

/-- What a run of the recursion says about the machine. -/
def Simulated (host : Host) (vm : Vm) (cs : CallStack) (s : MachineState) :
    Except VmStop CallStack → Prop
  | .ok cs' => SameBelow cs cs' ∧ ∃ pc', VmReach host vm s
      { s with current := { s.current with pc := pc', frame := cs'.frame } } ∧
      vmStep host vm { s with current := { s.current with pc := pc', frame := cs'.frame } }
        = vmStep.returnToCaller
          { s with current := { s.current with pc := pc', frame := cs'.frame } }
  | .error e => ∃ s', VmReach host vm s s' ∧ vmStep host vm s' = some (.error e)

/-- The recursion over `call_stack` runs as the machine with the list of callers does: it returns
where the machine does, with its frame, and stops where and as the machine stops. -/
theorem vmExecuteOpcodes_simulated {fuel : ℕ} {code : List UInt8} {pc : ℤ} {cs : CallStack}
    {callers : List Activation} {r : Except VmStop CallStack}
    (hcallers : callers.length = cs.currentFrame)
    (h : vmExecuteOpcodes host vm fuel code pc cs = some r) :
    Simulated host vm cs ⟨⟨code, pc, cs.frame⟩, callers⟩ r := by
  induction fuel generalizing code pc cs callers r with
  | zero => cases h
  | succ fuel ih =>
    rw [vmExecuteOpcodes] at h
    by_cases hpc : 0 ≤ pc
    · rw [if_pos hpc] at h
      cases hdrop : code.drop pc.toNat with
      | nil =>
        simp only [hdrop, Option.some.injEq] at h
        subst h
        refine ⟨SameBelow.refl cs, pc, .refl, ?_⟩
        rw [vmStep, if_pos hpc]
        simp only [hdrop]
      | cons opcode data =>
        simp only [hdrop] at h
        by_cases hop : opcode = opcodeCall
        · subst hop
          simp only [if_true] at h
          have hstep : vmStep host vm ⟨⟨code, pc, cs.frame⟩, callers⟩ = _ :=
            vmStep_enter hcallers hpc hdrop
          cases henter : enterCall host vm cs data with
          | error e =>
            simp only [henter, Option.some.injEq] at h hstep
            subst h
            exact ⟨_, .refl, hstep⟩
          | ok entered =>
            obtain ⟨body, cs₁⟩ := entered
            simp only [henter] at h hstep
            obtain ⟨_, _, -, -, -, -, -, hentry, hframes⟩ := enterCall_eq_ok henter
            -- the activation of the function runs above its caller
            cases hbody : vmExecuteOpcodes host vm fuel body 0 cs₁ with
            | none => simp only [hbody, reduceCtorEq] at h
            | some inner =>
              have hdeeper : (⟨code, pc + 3, cs.frame⟩ :: callers : List Activation).length
                  = cs₁.currentFrame := by rw [List.length_cons, hcallers, hentry]
              have hinner := ih hdeeper hbody
              cases inner with
              | error e =>
                simp only [hbody, Option.some.injEq] at h
                subst h
                obtain ⟨s', hreach, hstop⟩ := hinner
                exact ⟨s', .head hstep hreach, hstop⟩
              | ok cs₂ =>
                simp only [hbody] at h
                obtain ⟨hsame, pc₂, hreach₂, hend₂⟩ := hinner
                obtain ⟨hcurrent, hkept⟩ := leave_same hentry hframes hsame
                have hback : cs₂.leave.frame = cs.frame := by
                  rw [CallStack.frame, hcurrent]
                  exact hkept _ (Nat.le_refl _)
                -- it returns to the caller, whose frame is untouched
                have hsameDepth : callers.length = cs₂.leave.currentFrame := by
                  rw [hcallers, hcurrent]
                have hnext := ih hsameDepth h
                rw [hback] at hnext
                have henterStep : VmStep host vm ⟨⟨code, pc, cs.frame⟩, callers⟩ _ := hstep
                have hprefix : VmReach host vm ⟨⟨code, pc, cs.frame⟩, callers⟩
                    ⟨⟨code, pc + 3, cs.frame⟩, callers⟩ :=
                  (Relation.ReflTransGen.head henterStep hreach₂).tail hend₂
                have hleave : SameBelow cs cs₂.leave :=
                  ⟨hcurrent, fun j hj => hkept j (Fin.le_of_lt hj)⟩
                cases r with
                | error e =>
                  obtain ⟨s', hreach, hstop⟩ := hnext
                  exact ⟨s', hprefix.trans hreach, hstop⟩
                | ok cs' =>
                  obtain ⟨hsame', pc', hreach, hend⟩ := hnext
                  exact ⟨hleave.trans hsame', pc', hprefix.trans hreach, hend⟩
        · simp only [if_neg hop] at h
          have hstep : vmStep host vm ⟨⟨code, pc, cs.frame⟩, callers⟩ = _ :=
            vmStep_handler hpc hdrop hop
          cases hexec : opcodeExecuteFuncs host opcode cs.frame data with
          | error e =>
            simp only [hexec, Option.some.injEq] at h hstep
            subst h
            exact ⟨_, .refl, hstep⟩
          | ok res =>
            obtain ⟨frame, shift⟩ := res
            simp only [hexec] at h hstep
            have hsameDepth : callers.length = (cs.write frame).currentFrame := hcallers
            have hnext := ih hsameDepth h
            rw [CallStack.frame_write] at hnext
            cases r with
            | error e =>
              obtain ⟨s', hreach, hstop⟩ := hnext
              exact ⟨s', .head hstep hreach, hstop⟩
            | ok cs' =>
              obtain ⟨hsame, pc', hreach, hend⟩ := hnext
              exact ⟨(SameBelow.write cs frame).trans hsame, pc', .head hstep hreach, hend⟩
    · rw [if_neg hpc, Option.some.injEq] at h
      subst h
      refine ⟨SameBelow.refl cs, pc, .refl, ?_⟩
      rw [vmStep, if_neg hpc]

/-! ## Isolation -/

/-- The entries below that of a run are not touched by it, however its calls nest. -/
lemma vmExecuteOpcodes_sameBelow {fuel : ℕ} {code : List UInt8} {pc : ℤ} {cs cs' : CallStack}
    (h : vmExecuteOpcodes host vm fuel code pc cs = some (.ok cs')) : SameBelow cs cs' := by
  have hcallers : (List.replicate cs.currentFrame (⟨[], 0, cs.frame⟩ : Activation)).length
      = cs.currentFrame := List.length_replicate
  exact (vmExecuteOpcodes_simulated hcallers h).1

/-- A call that returns: the function starts with an empty stack and with the `i`-th pushed
argument in slot `i`, its bytecode runs to its end from there, and behind it `current_frame` is the
caller's entry again, with the locals and the stack it had, like all entries below. -/
theorem executeCall_isolated {fuel : ℕ} {cs cs' : CallStack} {data : List UInt8}
    (h : executeCall host vm fuel cs data = some (.ok cs')) :
    ∃ index handle cs₁ cs₂, readOffset data = .ok index ∧
      vm.callHandle (UInt16.ofNat index) = .ok handle ∧
      enterCall host vm cs data = .ok (handle.bytecodeData.drop 4, cs₁) ∧
      (cs₁.frame.stack = [] ∧
        ∀ i < handle.argSize.toNat / 4,
          cs₁.frame.locals[i]? = cs.frame.stack[handle.argSize.toNat / 4 - 1 - i]?) ∧
      vmExecuteOpcodes host vm fuel (handle.bytecodeData.drop 4) 0 cs₁ = some (.ok cs₂) ∧
      cs' = cs₂.leave ∧
      cs'.currentFrame = cs.currentFrame ∧ cs'.frame = cs.frame ∧
      ∀ j < cs.currentFrame, cs'.frames j = cs.frames j := by
  unfold executeCall at h
  cases henter : enterCall host vm cs data with
  | error e => simp [henter] at h
  | ok entered =>
    obtain ⟨body, cs₁⟩ := entered
    simp only [henter, Option.map_eq_some_iff] at h
    obtain ⟨r, hrun, hr⟩ := h
    obtain ⟨index, handle, hindex, hhandle, rfl, hargs, hframe, hentry, hframes⟩ :=
      enterCall_eq_ok henter
    cases r with
    | error e => cases hr
    | ok cs₂ =>
      simp only [Except.map, Except.ok.injEq] at hr
      subst hr
      obtain ⟨hcurrent, hkept⟩ := leave_same hentry hframes (vmExecuteOpcodes_sameBelow hrun)
      refine ⟨index, handle, cs₁, cs₂, hindex, hhandle, rfl, ⟨?_, ?_⟩, hrun, rfl, hcurrent, ?_,
        fun j hj => hkept j (Fin.le_of_lt hj)⟩
      · rw [hframe]
        rfl
      · -- the arguments are copied in the order in which they were pushed
        intro i hi
        have hlen : (cs.frame.stack.take (handle.argSize.toNat / 4)).length
            = handle.argSize.toNat / 4 := by
          rw [List.length_take]
          omega
        rw [hframe, calleeFrame]
        simp only
        rw [List.getElem?_append_left (by rw [List.length_reverse, hlen]; exact hi),
          List.getElem?_reverse (by rw [hlen]; exact hi), hlen, List.getElem?_take,
          if_pos (by omega)]
      · rw [CallStack.frame, hcurrent]
        exact hkept _ (Nat.le_refl _)

/-- The machine with the function `f(II)V`, which calls `f(0, y)` unless its first argument is 0:
`ILOAD 0; JEZ 12; ICONST 0; ILOAD 1; CALL 0; ISAVE 0`. -/
def callingVm : Vm :=
  match vmRegister 1 vmStaticInit [102, 40, 73, 73, 41, 86]
      [0, 8, 0, 8, opcodeIload, 0, opcodeJez, 0, 12, opcodeIconst, 0, 0, 0, 0, opcodeIload, 1,
        opcodeCall, 0, 0, opcodeIsave, 0] with
  | .ok (_, _, vm) => vm
  | .error _ => vmStaticInit

/-- The second entry of the call stack, with a word below the arguments 7 and 9. -/
def callingStack : CallStack where
  frames _ := { rootFrame zeroHost with stack := [⟨.int, 9⟩, ⟨.int, 7⟩, ⟨.int, 5⟩] }
  currentFrame := ⟨1, by decide⟩

/-- `f(7, 9)` -/
theorem executeCall_isolated_calling : ∃ cs',
    executeCall zeroHost callingVm 9 callingStack [0, 0] = some (.ok cs') ∧
    ∃ index handle cs₁ cs₂, readOffset [0, 0] = .ok index ∧
      callingVm.callHandle (UInt16.ofNat index) = .ok handle ∧
      enterCall zeroHost callingVm callingStack [0, 0] = .ok (handle.bytecodeData.drop 4, cs₁) ∧
      (cs₁.frame.stack = [] ∧
        ∀ i < handle.argSize.toNat / 4,
          cs₁.frame.locals[i]? = callingStack.frame.stack[handle.argSize.toNat / 4 - 1 - i]?) ∧
      vmExecuteOpcodes zeroHost callingVm 9 (handle.bytecodeData.drop 4) 0 cs₁ = some (.ok cs₂) ∧
      cs' = cs₂.leave ∧
      cs'.currentFrame = callingStack.currentFrame ∧ cs'.frame = callingStack.frame ∧
      ∀ j < callingStack.currentFrame, cs'.frames j = callingStack.frames j := by
  have hrun : (match executeCall zeroHost callingVm 9 callingStack [0, 0] with
      | some (.ok _) => true
      | _ => false) = true := by decide +kernel
  split at hrun
  · rename_i cs' h
    exact ⟨cs', h, executeCall_isolated h⟩
  · cases hrun

end PhantomShell
