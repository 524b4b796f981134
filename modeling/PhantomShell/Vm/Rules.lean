import PhantomShell.Vm.Instr

/-!
# What the instructions do to a frame

The effect of each instruction on its own, in terms of words pushed and taken.
-/

namespace PhantomShell

variable {host : Host}

/-- A binary operation on two words. -/
def applyOp (host : Host) : PlainOp → Word → Word → Except VmStop Word
  | .iadd, a, b => .ok ⟨.int, a.bits + b.bits⟩
  | .isub, a, b => .ok ⟨.int, a.bits - b.bits⟩
  | .imul, a, b => .ok ⟨.int, a.bits * b.bits⟩
  | .idiv, a, b =>
    if b.bits = 0 ∨ quotientOverflows a.bits b.bits then .error (.fault .divide)
    else .ok ⟨.int, a.bits.sdiv b.bits⟩
  | .ieq, a, b => .ok ⟨.int, truth (a.bits == b.bits)⟩
  | .ineq, a, b => .ok ⟨.int, truth (a.bits != b.bits)⟩
  | .ilt, a, b => .ok ⟨.int, truth (a.bits.slt b.bits)⟩
  | .ingt, a, b => .ok ⟨.int, truth (a.bits.sle b.bits)⟩
  | .igt, a, b => .ok ⟨.int, truth (b.bits.slt a.bits)⟩
  | .inlt, a, b => .ok ⟨.int, truth (b.bits.sle a.bits)⟩
  | .fadd, a, b => .ok ⟨.float, host.add a.bits b.bits⟩
  | .fsub, a, b => .ok ⟨.float, host.sub a.bits b.bits⟩
  | .fmul, a, b => .ok ⟨.float, host.mul a.bits b.bits⟩
  | .fdiv, a, b => .ok ⟨.float, host.div a.bits b.bits⟩
  | _, _, _ => .error (.panic "")

/-- A frame with one more word. -/
def Frame.push (frame : Frame) (w : Word) : Frame := { frame with stack := w :: frame.stack }

@[simp] lemma Frame.push_locals (frame : Frame) (w : Word) : (frame.push w).locals = frame.locals :=
  rfl

@[simp] lemma Frame.push_stack (frame : Frame) (w : Word) :
    (frame.push w).stack = w :: frame.stack := rfl

@[simp] lemma Frame.push_stackSize (frame : Frame) (w : Word) :
    (frame.push w).stackSize = frame.stackSize := rfl

/-- There is room for some more words on the stack. -/
def Frame.Room (frame : Frame) (words : ℕ) : Prop :=
  4 * (frame.stack.length + words) ≤ frame.stackSize

lemma Frame.Room.mono {frame : Frame} {m n : ℕ} (h : frame.Room n) (hmn : m ≤ n) :
    frame.Room m := by
  unfold Frame.Room at *
  omega

lemma Frame.Room.push {frame : Frame} {n : ℕ} (h : frame.Room (n + 1)) (w : Word) :
    (frame.push w).Room n := by
  unfold Frame.Room at *
  simp only [Frame.push_stack, Frame.push_stackSize, List.length_cons]
  omega

lemma rootFrame_room (host : Host) {n : ℕ} (h : n ≤ 256) : (rootFrame host).Room n := by
  change 4 * (0 + n) ≤ 1024
  omega

lemma length_rootFrame_locals (host : Host) : (rootFrame host).locals.length = 256 := by
  simp [rootFrame]

lemma pushWord_room {frame : Frame} (h : frame.Room 1) (w : Word) (d : ℤ) :
    pushWord frame w d = .ok (frame.push w, d) := by
  unfold pushWord
  exact if_pos h

lemma pushWord_eq_ok {frame frame' : Frame} {w : Word} {d d' : ℤ}
    (h : pushWord frame w d = .ok (frame', d')) : frame' = frame.push w := by
  unfold pushWord at h
  split at h
  · cases h
    rfl
  · cases h

/-- What holds of all handlers holds of the one of an opcode. -/
lemma opcodeExecuteFuncs_of_installed {P : Handler → Prop} (hpanic : P vmExecuteOpcodePanic)
    (h : ∀ p ∈ opcodeHandlers host, P p.2) (opcode : UInt8) : P (opcodeExecuteFuncs host opcode) := by
  unfold opcodeExecuteFuncs
  cases hfound : (opcodeHandlers host).lookup opcode with
  | none => exact hpanic
  | some handler =>
    obtain ⟨before, after, heq, -⟩ := List.lookup_eq_some_iff.mp hfound
    exact h (opcode, handler) (by rw [heq]; simp)

/-! ## Single instructions -/

section

variable {frame : Frame}

lemma exec_iconst (value : BitVec 32) :
    (vmIsa host).exec (.iconst value) frame = pushWord frame ⟨.int, value⟩ 5 := by
  have h := vmExecuteOpcodeIconst_encoded frame value []
  rw [List.append_nil] at h
  exact h

lemma exec_fconst (value : BitVec 32) :
    (vmIsa host).exec (.fconst value) frame = pushWord frame ⟨.float, value⟩ 5 := by
  have h := vmExecuteOpcodeFconst_encoded frame value []
  rw [List.append_nil] at h
  exact h

lemma exec_load (r : Rep) (slot : UInt8) :
    (vmIsa host).exec (.load r slot) frame = match frame.locals[slot.toNat]? with
      | some w => pushWord frame w 2
      | none => .error (.fault .locals) := by
  cases r <;> rfl

lemma exec_save (r : Rep) (slot : UInt8) (w : Word) :
    (vmIsa host).exec (.save r slot) (frame.push w) =
      if slot.toNat < frame.locals.length then
        .ok ({ frame with locals := frame.locals.set slot.toNat w }, 2)
      else .error (.fault .locals) := by
  cases r <;> rfl

lemma exec_i2f (w : Word) :
    (vmIsa host).exec (.plain .i2f) (frame.push w)
      = .ok (frame.push ⟨.float, host.ofInt w.bits⟩, 1) := rfl

lemma exec_ineg : (vmIsa host).exec (.plain .ineg) frame = .error (.panic "") := rfl

lemma exec_jez (n : UInt16) (w : Word) :
    (vmIsa host).exec (.jez n) (frame.push w)
      = .ok (frame, 3 + if w.bits = 0 then (n.toNat : ℤ) else 0) := by
  have hread := readOffset_htobe16 n []
  rw [List.append_nil] at hread
  change vmExecuteOpcodeJez (frame.push w) (htobe16 n) = _
  simp only [vmExecuteOpcodeJez, branchWord, hread, except_ok_bind, Frame.push_stack, beq_iff_eq]
  rfl

lemma exec_jmp (n : UInt16) : (vmIsa host).exec (.jmp n) frame = .ok (frame, 3 + n.toNat) := by
  have hread := readOffset_htobe16 n []
  rw [List.append_nil] at hread
  change vmExecuteOpcodeJmp frame (htobe16 n) = _
  simp only [vmExecuteOpcodeJmp, hread, except_ok_bind]

lemma exec_rjmp (n : UInt16) : (vmIsa host).exec (.rjmp n) frame = .ok (frame, 3 - n.toNat) := by
  have hread := readOffset_htobe16 n []
  rw [List.append_nil] at hread
  change vmExecuteOpcodeRjmp frame (htobe16 n) = _
  simp only [vmExecuteOpcodeRjmp, hread, except_ok_bind]

/-- The operations on two operands. -/
def PlainOp.isBinary : PlainOp → Bool
  | .ineg => false
  | .fneg => false
  | .i2f => false
  | _ => true

/-- A binary operation replaces its operands by the result. -/
lemma exec_binary {op : PlainOp} (hop : op.isBinary = true) :
    (vmIsa host).exec (.plain op) frame = match frame.stack with
      | b :: a :: rest => (applyOp host op a b).map fun w => ({ frame with stack := w :: rest }, 1)
      | _ => .error (.fault .underflow) := by
  obtain ⟨stack, size, locals⟩ := frame
  rcases stack with _ | ⟨b, _ | ⟨a, rest⟩⟩
  · cases op <;> first | rfl | cases hop
  · cases op <;> first | rfl | cases hop
  · cases op
    case idiv =>
      change vmExecuteOpcodeIdiv ⟨b :: a :: rest, size, locals⟩ [] = _
      simp only [vmExecuteOpcodeIdiv, applyOp]
      split <;> rfl
    all_goals first | rfl | cases hop

end

/-! ## Straight instructions -/

lemma pushWord_shift {frame t : Frame} {w : Word} {d d' : ℤ}
    (h : pushWord frame w d = .ok (t, d')) : d' = d := by
  unfold pushWord at h
  split at h
  · cases h
    rfl
  · cases h

/-- Every instruction but the jumps moves behind itself. -/
lemma straight_of_ne_jump {i : Instr}
    (hi : ∀ n, i ≠ .jez n ∧ i ≠ .jmp n ∧ i ≠ .rjmp n) : (vmIsa host).Straight i := by
  intro frame t d h
  cases i with
  | plain op =>
    cases hop : op.isBinary with
    | true =>
      rw [exec_binary hop] at h
      split at h
      · rename_i b a rest _
        cases happly : applyOp host op a b with
        | error e => simp [happly, Except.map] at h
        | ok w =>
          rw [happly] at h
          cases h
          rfl
      · cases h
    | false =>
      cases op
      case i2f =>
        change vmExecuteOpcodeI2f host frame [] = _ at h
        unfold vmExecuteOpcodeI2f at h
        split at h
        · cases h
          rfl
        · cases h
      -- no handler is registered for these
      case ineg => cases h
      case fneg => cases h
      all_goals cases hop
  | load r slot =>
    rw [exec_load] at h
    split at h
    · exact pushWord_shift h
    · cases h
  | save r slot =>
    have hsave : saveWord frame [slot] = .ok (t, d) := by
      cases r <;> exact h
    unfold saveWord at hsave
    simp only at hsave
    split at hsave
    · split at hsave
      · cases hsave
        rfl
      · cases hsave
    · cases hsave
  | iconst value =>
    have hpush := vmExecuteOpcodeIconst_encoded frame value []
    rw [List.append_nil] at hpush
    change vmExecuteOpcodeIconst frame (htobe32 value) = _ at h
    rw [hpush] at h
    exact pushWord_shift h
  | fconst value =>
    have hpush := vmExecuteOpcodeFconst_encoded frame value []
    rw [List.append_nil] at hpush
    change vmExecuteOpcodeFconst frame (bytesLE32 value) = _ at h
    rw [hpush] at h
    exact pushWord_shift h
  | jez n => exact absurd rfl (hi n).1
  | jmp n => exact absurd rfl (hi n).2.1
  | rjmp n => exact absurd rfl (hi n).2.2
  | call index =>
    cases h
    rfl

/-- Neither a jump nor a call. -/
def Instr.Local (i : Instr) : Prop :=
  i.isCall = false ∧ ∀ n, i ≠ .jez n ∧ i ≠ .jmp n ∧ i ≠ .rjmp n

lemma Instr.Local.straight (host : Host) {i : Instr} (h : i.Local) : (vmIsa host).Straight i :=
  straight_of_ne_jump h.2

/-- The machine goes through straight code, wherever it stands in the bytes of a call. -/
theorem vmReach_straight (vm : Vm) {code : List Instr} (hlocal : ∀ i ∈ code, i.Local)
    {s : MachineState} {pc : ℕ} {rest : List UInt8} {frame' : Frame} (hpc : s.current.pc = pc)
    (hdrop : s.current.code.drop pc = encodeAll code ++ rest)
    (hrun : (vmIsa host).runStraight code s.current.frame = .ok frame') :
    VmReach host vm s { s with current :=
      { s.current with pc := ((pc + codeSize code : ℕ) : ℤ), frame := frame' } } := by
  induction code generalizing s pc with
  | nil =>
    cases hrun
    rw [show pc + codeSize [] = pc from rfl, ← hpc]
    exact .refl
  | cons i code ih =>
    rw [JumpIsa.runStraight] at hrun
    cases hexec : (vmIsa host).exec i s.current.frame with
    | error stop => simp [hexec] at hrun
    | ok out =>
      obtain ⟨frame₁, shift⟩ := out
      simp only [hexec] at hrun
      obtain rfl := (hlocal i (by simp)).straight host _ _ _ hexec
      rw [encodeAll_cons, List.append_assoc] at hdrop
      have hstep : VmStep host vm s { s with current :=
          { s.current with pc := s.current.pc + i.encode.length, frame := frame₁ } } := by
        rw [VmStep, vmStep_encoded hpc hdrop (hlocal i (by simp)).1, hexec]
        exact rfl
      have hrest : s.current.code.drop (pc + i.encode.length) = encodeAll code ++ rest := by
        rw [← List.drop_drop, hdrop, List.drop_left]
      have hsize : codeSize (i :: code) = i.encode.length + codeSize code := by
        rw [codeSize, encodeAll_cons, List.length_append, codeSize]
      have hreach := ih (fun j hj => hlocal j (by simp [hj]))
        (s := { s with current :=
          { s.current with pc := s.current.pc + i.encode.length, frame := frame₁ } })
        (by simp only [hpc, Nat.cast_add]) hrest hrun
      rw [hsize, ← Nat.add_assoc]
      exact .head hstep hreach

/-- Straight code in which an instruction fails: the machine never gets behind it. -/
theorem vmReach_straight_error (vm : Vm) {code : List Instr} (hlocal : ∀ i ∈ code, i.Local)
    {s s' : MachineState} {pc : ℕ} {rest : List UInt8} {stop : VmStop} (hpc : s.current.pc = pc)
    (hdrop : s.current.code.drop pc = encodeAll code ++ rest)
    (hrun : (vmIsa host).runStraight code s.current.frame = .error stop)
    (hreach : VmReach host vm s s') : ∃ k < codeSize code, s'.current.pc = (pc + k : ℕ) := by
  induction code generalizing s pc with
  | nil => cases hrun
  | cons i code ih =>
    have hsize : codeSize (i :: code) = i.encode.length + codeSize code := by
      rw [codeSize, encodeAll_cons, List.length_append, codeSize]
    have hpos : 0 < i.encode.length := (vmIsa host).size_pos i
    rw [encodeAll_cons, List.append_assoc] at hdrop
    have hstep : vmStep host vm s = _ := vmStep_encoded hpc hdrop (hlocal i (by simp)).1
    rcases Relation.ReflTransGen.cases_head hreach with rfl | ⟨s₁, hfirst, hreach⟩
    · exact ⟨0, by omega, hpc⟩
    · rw [VmStep, hstep] at hfirst
      rw [JumpIsa.runStraight] at hrun
      cases hexec : (vmIsa host).exec i s.current.frame with
      | error e => simp [hexec] at hfirst
      | ok out =>
        obtain ⟨frame₁, shift⟩ := out
        obtain rfl := (hlocal i (by simp)).straight host _ _ _ hexec
        simp only [hexec, Option.some.injEq, Except.ok.injEq] at hfirst hrun
        subst hfirst
        have hrest : s.current.code.drop (pc + i.encode.length) = encodeAll code ++ rest := by
          rw [← List.drop_drop, hdrop, List.drop_left]
        obtain ⟨k, hk, hat⟩ := ih (fun j hj => hlocal j (by simp [hj]))
          (s := { s with current :=
            { s.current with pc := s.current.pc + i.encode.length, frame := frame₁ } })
          (by simp only [hpc, Nat.cast_add]) hrest hrun hreach
        exact ⟨i.encode.length + k, by omega, by rw [hat, Nat.add_assoc]⟩

end PhantomShell
