import PhantomShell.Vm.Instr

/-!
# Assertions for the machine

`Stacked` lifts inductive assertions from the code of one activation to the machine with its
callers: the step lemma `vmStep_stacked` and the run lemma `reach_stacked`. An assertion may
come with a guard that holds of every instruction that is about to be executed.
-/

namespace PhantomShell

variable (host : Host) (ok : VmStop → Prop) (guard : Instr → Frame → Bool)

/-- The machine on one frame, stopped at the first instruction that does not meet the guard. -/
def guardedIsa : JumpIsa Instr Frame (Option VmStop) where
  size i := i.encode.length
  size_pos := (vmIsa host).size_pos
  exec i frame :=
    if guard i frame then
      match (vmIsa host).exec i frame with
      | .ok r => .ok r
      | .error e => .error (some e)
    else .error none

/-- Started in `P` the code only fails in a tolerated way, executes instructions that meet the
guard, and ends in `Q`. -/
def Guarded (P : Frame → Prop) (code : List Instr) (Q : Frame → Prop) : Prop :=
  (guardedIsa host guard).Block (Tolerated ok) P code Q

/-- The code of the activation is certified, its assertion holds now, and `Q` at its end. -/
def Holds (Q : Frame → Prop) (a : Activation) : Prop :=
  ∃ code A, a.code = encodeAll code ∧ (guardedIsa host guard).Certified (Tolerated ok) code A ∧
    (∀ frame, A (codeSize code) frame → Q frame) ∧ ∃ pc : ℕ, a.pc = pc ∧ A pc a.frame

/-- All activations hold, the outermost one with `Q` at its end. -/
def Stacked (Q : Frame → Prop) : Activation → List Activation → Prop
  | a, [] => Holds host ok guard Q a
  | a, caller :: callers => Holds host ok guard (fun _ => True) a ∧ Stacked Q caller callers

/-- A call that is about to be executed fails in a tolerated way or enters a certified
function. -/
def CallsHold (vm : Vm) (s : MachineState) : Prop :=
  ∀ data, s.current.code.drop s.current.pc.toNat = opcodeCall :: data →
    match vmExecuteOpcodeCall host vm s data with
    | .ok s' => Holds host ok guard (fun _ => True) s'.current
    | .error e => ok e

variable {host ok guard}

lemma guarded_sizeOf (code : List Instr) : (guardedIsa host guard).sizeOf code = codeSize code :=
  sizeOf_eq_codeSize host code

lemma guarded_at {code : List Instr} {pc : ℕ} {i : Instr} :
    (guardedIsa host guard).At code pc i ↔ (vmIsa host).At code pc i := Iff.rfl

/-- An instruction that meets the guard does what it does without it. -/
lemma effect_guarded {i : Instr} {frame : Frame} {post : Frame → ℤ → Prop}
    (hguard : guard i frame = true) (h : JumpIsa.Effect ok post ((vmIsa host).exec i frame)) :
    JumpIsa.Effect (Tolerated ok) post ((guardedIsa host guard).exec i frame) := by
  simp only [guardedIsa, hguard, if_true]
  cases hexec : (vmIsa host).exec i frame with
  | ok r =>
    rw [hexec] at h
    exact h
  | error e =>
    rw [hexec] at h
    exact h

/-- An instruction whose effect is asserted meets the guard. -/
lemma guarded_of_effect {i : Instr} {frame : Frame} {post : Frame → ℤ → Prop}
    (h : JumpIsa.Effect (Tolerated ok) post ((guardedIsa host guard).exec i frame)) :
    guard i frame = true ∧ JumpIsa.Effect ok post ((vmIsa host).exec i frame) := by
  simp only [guardedIsa] at h
  split at h
  · refine ⟨by assumption, ?_⟩
    cases hexec : (vmIsa host).exec i frame with
    | ok r =>
      rw [hexec] at h
      exact h
    | error e =>
      rw [hexec] at h
      exact h
  · exact h.elim

/-- An activation at the start of its code. -/
lemma Guarded.holds {P Q : Frame → Prop} {code : List Instr}
    (h : Guarded host ok guard P code Q) {frame : Frame} (hP : P frame) :
    Holds host ok guard Q ⟨encodeAll code, 0, frame⟩ := by
  obtain ⟨A, hA, hpre, hpost⟩ := h
  rw [guarded_sizeOf] at hpost
  exact ⟨code, A, rfl, hA, hpost, 0, rfl, hpre frame hP⟩

lemma Holds.mono {Q Q' : Frame → Prop} {a : Activation} (h : Holds host ok guard Q a)
    (hQ : ∀ frame, Q frame → Q' frame) : Holds host ok guard Q' a := by
  obtain ⟨code, A, hcode, hA, hpost, hpc⟩ := h
  exact ⟨code, A, hcode, hA, fun frame hframe => hQ frame (hpost frame hframe), hpc⟩

/-- An activation is at its end, or at an instruction that meets the guard. -/
lemma Holds.at_instr {Q : Frame → Prop} {a : Activation} (h : Holds host ok guard Q a) :
    ∃ code pc, a.code = encodeAll code ∧ a.pc = (pc : ℕ) ∧
      (pc = codeSize code ∨ ∃ i, (vmIsa host).At code pc i ∧ guard i a.frame = true) := by
  obtain ⟨code, A, hcode, hA, -, pc, hpc, hframe⟩ := h
  refine ⟨code, pc, hcode, hpc, ?_⟩
  rcases hA pc _ hframe with hend | ⟨i, hat, heff⟩
  · left
    rw [hend, guarded_sizeOf]
  · exact .inr ⟨i, guarded_at.mp hat, (guarded_of_effect heff).1⟩

lemma Stacked.at_instr {Q : Frame → Prop} {a : Activation} {callers : List Activation}
    (h : Stacked host ok guard Q a callers) : Holds host ok guard (fun _ => True) a := by
  cases callers with
  | nil => exact Holds.mono h fun _ _ => trivial
  | cons caller callers => exact h.1

/-- The running activation can be replaced by another one that holds. -/
lemma Stacked.current {Q : Frame → Prop} {a : Activation} {callers : List Activation}
    (h : Stacked host ok guard Q a callers) :
    ∃ Q', Holds host ok guard Q' a ∧
      (∀ a', Holds host ok guard Q' a' → Stacked host ok guard Q a' callers) ∧
      (callers = [] → Q' = Q) := by
  cases callers with
  | nil => exact ⟨Q, h, fun a' ha' => ha', fun _ => rfl⟩
  | cons caller callers => exact ⟨_, h.1, fun a' ha' => ⟨ha', h.2⟩, fun h => nomatch h⟩

/-- A call that succeeds enters a new frame for the bytecode of the function, with the caller,
behind the call, on the list of callers. -/
lemma vmExecuteOpcodeCall_eq_ok {vm : Vm} {s s' : MachineState} {data : List UInt8}
    (h : vmExecuteOpcodeCall host vm s data = .ok s') :
    ∃ index handle, readOffset data = .ok index ∧
      vm.callHandle (UInt16.ofNat index) = .ok handle ∧
      handle.argSize.toNat ≤ 4 * s.current.frame.stack.length ∧
      handle.argSize.toNat ≤ handle.varsSize ∧ s.callers.length + 1 < callStackMaxSize ∧
      s' =
        { current := ⟨handle.bytecodeData.drop 4, 0, calleeFrame host handle
            (s.current.frame.stack.take (handle.argSize.toNat / 4)).reverse⟩
          callers := { s.current with pc := s.current.pc + 3 } :: s.callers } := by
  simp only [vmExecuteOpcodeCall, except_bind_eq_ok] at h
  obtain ⟨index, hindex, handle, hhandle, h⟩ := h
  split at h
  · cases h
  split at h
  · cases h
  split at h
  · cases h
  · cases h
    exact ⟨index, handle, hindex, hhandle, by omega, by omega, by omega, rfl⟩

lemma readOffset_error {data : List UInt8} {e : VmStop} (h : readOffset data = .error e) :
    e = .fault .code := by
  unfold readOffset at h
  split at h
  · cases h
  · cases h
    rfl

lemma readBlock_error {α : Type} {block : Option (List (Option α))} {off : ℕ} {e : VmStop}
    (h : readBlock block off = .error e) : e = .fault .memory := by
  unfold readBlock at h
  split at h
  · cases h
    rfl
  · split at h
    · cases h
    · cases h
      rfl

lemma callHandle_error {vm : Vm} {index : UInt16} {e : VmStop}
    (h : vm.callHandle index = .error e) : e = .fault .memory ∨ ∃ message, e = .panic message := by
  simp only [Vm.callHandle, except_bind_eq_error] at h
  rcases h with hblock | ⟨offset, -, h⟩
  · exact .inl (readBlock_error hblock)
  · split at h
    · cases h
      exact .inl rfl
    · split at h
      · cases h
      · cases h
        exact .inr ⟨_, rfl⟩

/-- A call neither pushes a word nor pops one. -/
lemma vmExecuteOpcodeCall_error {vm : Vm} {s : MachineState} {data : List UInt8} {e : VmStop}
    (h : vmExecuteOpcodeCall host vm s data = .error e) :
    e ≠ .fault .overflow ∧ e ≠ .fault .underflow := by
  simp only [vmExecuteOpcodeCall, except_bind_eq_error] at h
  rcases h with hread | ⟨index, -, hget | ⟨handle, -, h⟩⟩
  · obtain rfl := readOffset_error hread
    exact ⟨nofun, nofun⟩
  · rcases callHandle_error hget with rfl | ⟨message, rfl⟩
    · exact ⟨nofun, nofun⟩
    · exact ⟨nofun, nofun⟩
  · split at h
    · cases h
      exact ⟨nofun, nofun⟩
    · split at h
      · cases h
        exact ⟨nofun, nofun⟩
      · split at h
        · cases h
          exact ⟨nofun, nofun⟩
        · cases h

lemma callers_of_call {vm : Vm} {s s' : MachineState} {data : List UInt8}
    (h : vmExecuteOpcodeCall host vm s data = .ok s') :
    s'.callers = { s.current with pc := s.current.pc + 3 } :: s.callers := by
  obtain ⟨_, _, -, -, -, -, -, rfl⟩ := vmExecuteOpcodeCall_eq_ok h
  rfl

/-- The step lemma: the assertions survive a step of the machine. -/
theorem vmStep_stacked {Q : Frame → Prop} {vm : Vm} {s : MachineState}
    (h : Stacked host ok guard Q s.current s.callers) (hcall : CallsHold host ok guard vm s) :
    match vmStep host vm s with
    | none => Q s.current.frame
    | some (.ok s') => Stacked host ok guard Q s'.current s'.callers
    | some (.error e) => ok e := by
  obtain ⟨Q', hcur, hback, hlast⟩ := h.current
  obtain ⟨code, A, hcode, hA, hpost, pc, hpc, hframe⟩ := hcur
  rcases hA pc _ hframe with hend | ⟨i, hat, heff⟩
  · -- the loop of the current call ends
    rw [guarded_sizeOf] at hend
    subst hend
    rw [vmStep_end hcode hpc]
    cases hcallers : s.callers with
    | nil =>
      simp only [vmStep.returnToCaller, hcallers]
      rw [← hlast hcallers]
      exact hpost _ hframe
    | cons caller callers =>
      simp only [vmStep.returnToCaller, hcallers]
      rw [hcallers] at h
      exact h.2
  · replace heff := (guarded_of_effect heff).2
    rw [guarded_at] at hat
    -- a call puts its own assertions on top, and the caller goes on behind it later
    cases hi : i.isCall with
    | false =>
      rw [vmStep_instr hcode hpc hat hi]
      cases hexec : (vmIsa host).exec i s.current.frame with
      | error e =>
        rw [hexec] at heff
        exact heff
      | ok res =>
        rw [hexec] at heff
        obtain ⟨pc', hpc', hA'⟩ := heff
        exact hback _ ⟨code, A, hcode, hA, hpost, pc', by simpa [hpc] using hpc'.symm, hA'⟩
    | true =>
      cases i with
      | call index =>
        obtain ⟨rest, hdrop, hstep⟩ := vmStep_call vm hcode hpc hat
        obtain ⟨pc', hpc', hA'⟩ := heff
        have hcallee := hcall (htobe16 index ++ rest) hdrop
        rw [hstep]
        cases hres : vmExecuteOpcodeCall host vm s (htobe16 index ++ rest) with
        | error e =>
          rw [hres] at hcallee
          exact hcallee
        | ok s' =>
          rw [hres] at hcallee
          simp only
          rw [callers_of_call hres]
          exact ⟨hcallee, hback _ ⟨code, A, hcode, hA, hpost, pc',
            by simpa [hpc] using hpc'.symm, hA'⟩⟩
      | _ => cases hi

/-- The run lemma: the assertions hold in every state that is reached. -/
theorem reach_stacked {P Q : Frame → Prop} {vm : Vm} {code : List Instr} {frame : Frame}
    (h : Guarded host ok guard P code Q) (hP : P frame)
    (hcall : ∀ s, VmReach host vm (vmStart frame (encodeAll code)) s →
      CallsHold host ok guard vm s) {s : MachineState}
    (hreach : VmReach host vm (vmStart frame (encodeAll code)) s) :
    Stacked host ok guard Q s.current s.callers := by
  induction hreach with
  | refl => exact h.holds hP
  | @tail a b hreach hstep ih =>
    have := vmStep_stacked ih (hcall a hreach)
    rw [hstep] at this
    exact this

/-- A run that returns ends in the postcondition. -/
theorem vmRuns_post {P Q : Frame → Prop} {vm : Vm} {code : List Instr} {frame frame' : Frame}
    (h : Guarded host ok guard P code Q) (hP : P frame)
    (hcall : ∀ s, VmReach host vm (vmStart frame (encodeAll code)) s →
      CallsHold host ok guard vm s)
    (hruns : VmRuns host vm frame (encodeAll code) frame') : Q frame' := by
  obtain ⟨s, hreach, hend, rfl⟩ := hruns
  have := vmStep_stacked (reach_stacked h hP hcall hreach) (hcall s hreach)
  rw [hend] at this
  exact this

/-- An activation that is at no call goes on in its code, or returns. -/
lemma Holds.step {Q : Frame → Prop} {vm : Vm} {s s' : MachineState}
    (h : Holds host ok guard Q s.current)
    (hguard : ∀ index, guard (.call index) s.current.frame = false)
    (hstep : vmStep host vm s = some (.ok s')) :
    (s'.callers = s.callers ∧ Holds host ok guard Q s'.current) ∨
      s.callers = s'.current :: s'.callers := by
  obtain ⟨code, A, hcode, hA, hpost, pc, hpc, hframe⟩ := h
  rcases hA pc _ hframe with hend | ⟨i, hat, heff⟩
  · rw [guarded_sizeOf] at hend
    subst hend
    rw [vmStep_end hcode hpc, vmStep.returnToCaller] at hstep
    split at hstep
    · cases hstep
    · rename_i hcallers
      cases hstep
      exact .inr hcallers
  · obtain ⟨hpass, heff⟩ := guarded_of_effect heff
    rw [guarded_at] at hat
    cases hi : i.isCall with
    | false =>
      rw [vmStep_instr hcode hpc hat hi] at hstep
      cases hexec : (vmIsa host).exec i s.current.frame with
      | error e =>
        rw [hexec] at hstep
        cases hstep
      | ok res =>
        rw [hexec] at heff hstep
        obtain ⟨pc', hpc', hA'⟩ := heff
        cases hstep
        exact .inl ⟨rfl, code, A, hcode, hA, hpost, pc', by simpa [hpc] using hpc'.symm, hA'⟩
    | true =>
      cases i with
      | call index =>
        rw [hguard index] at hpass
        cases hpass
      | _ => cases hi

/-! ## Calls and returns -/

/-- A step goes on in its activation, enters another one, or returns. -/
lemma vmStep_cases {vm : Vm} {s s' : MachineState} (h : vmStep host vm s = some (.ok s')) :
    s'.callers = s.callers ∨
      (∃ data, s.current.code.drop s.current.pc.toNat = opcodeCall :: data ∧
        vmExecuteOpcodeCall host vm s data = .ok s') ∨
      s.callers = s'.current :: s'.callers := by
  have hreturn : ∀ {r}, vmStep.returnToCaller s = r → r = some (.ok s') →
      s.callers = s'.current :: s'.callers := by
    intro r hr hs
    rw [hs, vmStep.returnToCaller] at hr
    split at hr
    · cases hr
    · cases hr
      assumption
  rw [vmStep] at h
  split at h
  · split at h
    · rename_i opcode data hdrop
      split at h
      · rename_i hop
        subst hop
        exact .inr (.inl ⟨data, hdrop, Option.some.inj h⟩)
      · split at h
        · cases h
          exact .inl rfl
        · cases h
    · exact .inr (.inr (hreturn rfl h))
  · exact .inr (.inr (hreturn rfl h))

end PhantomShell
