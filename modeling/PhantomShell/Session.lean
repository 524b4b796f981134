import PhantomShell.Compiler.Scope
import PhantomShell.HashmapTheorems
import PhantomShell.Vm.Assertions
import PhantomShell.Vm.TablesTheorems

/-!
# Sessions

The machine under the events of a compiler: chunks are executed on the root frame one after the
other, and functions are registered in between. `session_stacked` lifts assertions about the
chunks and about the bodies of the functions to every state that the session passes.
-/

namespace PhantomShell

variable (host : Host)

/-- The session has handled the events and is left with its tables and its root frame. -/
inductive SessionEnds : Vm → Frame → List Event → Vm → Frame → Prop
  | nil {vm : Vm} {frame : Frame} : SessionEnds vm frame [] vm frame
  | execute {vm vm' : Vm} {frame frame' frame'' : Frame} {code : List UInt8}
      {events : List Event} :
      VmRuns host vm frame code frame' → SessionEnds vm frame' events vm' frame'' →
      SessionEnds vm frame (.execute code :: events) vm' frame''
  | register {fuel : ℕ} {vm vm₁ vm' : Vm} {frame frame' : Frame} {signature data : List UInt8}
      {index : UInt16} {handle : FuncHandle} {events : List Event} :
      vmRegister fuel vm signature data = .ok (index, handle, vm₁) →
      SessionEnds vm₁ frame events vm' frame' →
      SessionEnds vm frame (.register signature data :: events) vm' frame'

/-- The states that the machine passes while the session handles the events. -/
inductive SessionReach : Vm → Frame → List Event → Vm → MachineState → Prop
  | here {vm : Vm} {frame : Frame} {code : List UInt8} {events : List Event} {s : MachineState} :
      VmReach host vm (vmStart frame code) s →
      SessionReach vm frame (.execute code :: events) vm s
  | execute {vm vm' : Vm} {frame frame' : Frame} {code : List UInt8} {events : List Event}
      {s : MachineState} :
      VmRuns host vm frame code frame' → SessionReach vm frame' events vm' s →
      SessionReach vm frame (.execute code :: events) vm' s
  | register {fuel : ℕ} {vm vm₁ vm' : Vm} {frame : Frame} {signature data : List UInt8}
      {index : UInt16} {handle : FuncHandle} {events : List Event} {s : MachineState} :
      vmRegister fuel vm signature data = .ok (index, handle, vm₁) →
      SessionReach vm₁ frame events vm' s →
      SessionReach vm frame (.register signature data :: events) vm' s

/-! ## Assertions -/

variable (ok : VmStop → Prop) (guard : Instr → Frame → Bool) (Entry : FuncHandle → Frame → Prop)

/-- The bytecode of a function is certified for the frames that it is entered with. -/
def FuncHolds (handle : FuncHandle) : Prop :=
  ∃ code, handle.bytecodeData.drop 4 = encodeAll code ∧
    Guarded host ok guard (Entry handle) code fun _ => True

/-- Each chunk takes the assertion that the one before it left, and the functions are certified;
`n` functions were registered before. -/
def EventsHold : (n : ℕ) → (P : Frame → Prop) → List Event → Prop
  | _, _, [] => True
  | n, P, .execute bytes :: events => ∃ code Q, bytes = encodeAll code ∧
      Guarded host ok guard P code Q ∧ EventsHold n Q events
  | n, P, .register signature data :: events =>
    (∀ fuel vm handle vm', vmRegister fuel vm signature data
        = .ok (UInt16.ofNat n, handle, vm') → FuncHolds host ok guard Entry handle) ∧
      EventsHold (n + 1) P events

/-- The functions that can be called are certified, and `n` of them were registered. -/
structure VmHolds (n : ℕ) (vm : Vm) : Prop where
  pool : ∃ last, PoolHolds n last vm.constPool
  funcs : AllValues (FuncHolds host ok guard Entry) vm.globalFuncs.funcMap

variable {host ok guard Entry}

lemma EventsHold.mono {n : ℕ} {P P' : Frame → Prop} {events : List Event}
    (h : EventsHold host ok guard Entry n P events) (hP : ∀ frame, P' frame → P frame) :
    EventsHold host ok guard Entry n P' events := by
  induction events generalizing n P P' with
  | nil => trivial
  | cons event events ih =>
    cases event with
    | execute bytes =>
      obtain ⟨code, Q, hbytes, hguarded, hrest⟩ := h
      exact ⟨code, Q, hbytes, hguarded.mono hP fun _ hf => hf, hrest⟩
    | register signature data => exact ⟨h.1, ih h.2 hP⟩

/-- Chunks that are executed one after the other. -/
lemma EventsHold.execute {n : ℕ} {P Q : Frame → Prop} {chunks : List (List Instr)}
    {events : List Event} (hevents : EventsHold host ok guard Entry n Q events)
    (h : (guardedIsa host guard).Seq (Tolerated ok) P chunks Q) :
    EventsHold host ok guard Entry n P
      ((chunks.map fun code => .execute (encodeAll code)) ++ events) := by
  induction chunks generalizing P with
  | nil => exact hevents.mono h
  | cons code chunks ih =>
    obtain ⟨R, hblock, hrest⟩ := h
    exact ⟨code, R, rfl, hblock, ih hrest⟩

lemma vmHolds_init : VmHolds host ok guard Entry 0 vmStaticInit :=
  ⟨⟨_, poolHolds_init⟩, allValues_new _ _ _⟩

/-- What a registration that succeeds makes of its data, and where it puts the handle. -/
lemma vmRegister_handle {fuel : ℕ} {vm vm' : Vm} {signature data : List UInt8} {index : UInt16}
    {handle : FuncHandle} (h : vmRegister fuel vm signature data = .ok (index, handle, vm')) :
    handle.signatureIndex = index ∧ handle.bytecodeData = data ∧
      (∃ varsHi varsLo stackHi stackLo body, data = varsHi :: varsLo :: stackHi :: stackLo :: body ∧
        handle.varsSize = be16toh varsHi varsLo * 4 ∧
        handle.stackSize = be16toh stackHi stackLo) ∧
      ∀ P : FuncHandle → Prop, AllValues P vm.globalFuncs.funcMap → P handle →
        AllValues P vm'.globalFuncs.funcMap := by
  simp only [vmRegister, except_bind_eq_ok, Prod.exists] at h
  obtain ⟨i, p, -, handle', vm₁, hfunc, hres⟩ := h
  cases hres
  simp only [vmRegisterFunction, except_bind_eq_ok] at hfunc
  obtain ⟨offset, -, argsSize, -, hfunc⟩ := hfunc
  split at hfunc
  · simp only [except_bind_eq_ok] at hfunc
    obtain ⟨funcs, -, hfunc⟩ := hfunc
    split at hfunc
    · cases hfunc
    · rename_i hput
      cases hfunc
      refine ⟨rfl, rfl, ⟨_, _, _, _, _, rfl, rfl, rfl⟩, fun P hall hP => ?_⟩
      refine hashmapPut_values hput ?_ hP
      split
      · exact hall
      · exact hall
  · cases hfunc

/-- A certified function is added. -/
lemma VmHolds.register {n : ℕ} {vm vm' : Vm} (h : VmHolds host ok guard Entry n vm) {fuel : ℕ}
    {signature data : List UInt8} {index : UInt16} {handle : FuncHandle}
    (hreg : vmRegister fuel vm signature data = .ok (index, handle, vm'))
    (hfunc : ∀ fuel vm handle vm', vmRegister fuel vm signature data
      = .ok (UInt16.ofNat n, handle, vm') → FuncHolds host ok guard Entry handle) :
    VmHolds host ok guard Entry (n + 1) vm' := by
  obtain ⟨last, hpool⟩ := h.pool
  obtain ⟨rfl, -, hpool'⟩ := vmRegister_holds hpool hreg
  obtain ⟨-, -, -, hvalues⟩ := vmRegister_handle hreg
  exact ⟨⟨_, hpool'⟩, hvalues _ h.funcs (hfunc _ _ _ _ hreg)⟩

/-- The function that a call enters is one that was registered. -/
lemma callHandle_values {P : FuncHandle → Prop} {vm : Vm} (h : AllValues P vm.globalFuncs.funcMap)
    {index : UInt16} {handle : FuncHandle} (hget : vm.callHandle index = .ok handle) : P handle := by
  simp only [Vm.callHandle, except_bind_eq_ok] at hget
  obtain ⟨offset, -, hget⟩ := hget
  split at hget
  · cases hget
  · split at hget
    · rename_i hfound
      cases hget
      exact h.get hfound
    · cases hget

/-- A call enters a certified function, if the frame is one that the function expects. -/
lemma VmHolds.calls {n : ℕ} {vm : Vm} (h : VmHolds host ok guard Entry n vm) {s : MachineState}
    (hentry : ∀ data s', s.current.code.drop s.current.pc.toNat = opcodeCall :: data →
      vmExecuteOpcodeCall host vm s data = .ok s' →
      ∀ index handle, readOffset data = .ok index →
        vm.callHandle (UInt16.ofNat index) = .ok handle → Entry handle s'.current.frame)
    (hstop : ∀ data e, vmExecuteOpcodeCall host vm s data = .error e → ok e) :
    CallsHold host ok guard vm s := by
  intro data hdrop
  cases hcall : vmExecuteOpcodeCall host vm s data with
  | error e => exact hstop data e hcall
  | ok s' =>
    have hframe := hentry data s' hdrop hcall
    obtain ⟨index, handle, hindex, hhandle, -, -, -, rfl⟩ := vmExecuteOpcodeCall_eq_ok hcall
    obtain ⟨code, hcode, hguarded⟩ := callHandle_values h.funcs hhandle
    have := hguarded.holds (hframe index handle hindex hhandle)
    rw [← hcode] at this
    exact this

/-- The run lemma of sessions: if no call breaks what the functions expect, the assertions hold
in every state that is passed, and each stop is tolerated. -/
theorem session_stacked {n : ℕ} {P : Frame → Prop} {vm vm' : Vm} {frame : Frame}
    {events : List Event} {s : MachineState} (hreach : SessionReach host vm frame events vm' s)
    (hvm : VmHolds host ok guard Entry n vm) (hevents : EventsHold host ok guard Entry n P events)
    (hP : P frame)
    (hcalls : ∀ vm' s n, SessionReach host vm frame events vm' s →
      VmHolds host ok guard Entry n vm' → CallsHold host ok guard vm' s) :
    (∃ Q, Stacked host ok guard Q s.current s.callers) ∧
      ∀ e, vmStep host vm' s = some (.error e) → ok e := by
  induction hreach generalizing n P with
  | here hreach =>
    obtain ⟨code, Q, rfl, hguarded, -⟩ := hevents
    have hcall := fun s hs => hcalls _ s n (.here hs) hvm
    have hstacked := reach_stacked hguarded hP hcall hreach
    refine ⟨⟨Q, hstacked⟩, fun e he => ?_⟩
    have hstep := vmStep_stacked hstacked (hcall _ hreach)
    rw [he] at hstep
    exact hstep
  | execute hruns _ ih =>
    obtain ⟨code, Q, rfl, hguarded, hrest⟩ := hevents
    have hQ := vmRuns_post hguarded hP (fun s hs => hcalls _ s n (.here hs) hvm) hruns
    exact ih hvm hrest hQ fun vm' s n hs => hcalls vm' s n (.execute hruns hs)
  | register hreg _ ih =>
    exact ih (hvm.register hreg hevents.1) hevents.2 hP
      fun vm' s n hs => hcalls vm' s n (.register hreg hs)

end PhantomShell
