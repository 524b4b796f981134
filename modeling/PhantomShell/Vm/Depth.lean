import PhantomShell.Vm.Rules

/-!
# The depth of the operand stack

How many words each instruction takes from the stack and leaves there. `exec_depth` is all that
the depth of a frame depends on.
-/

namespace PhantomShell

variable {host : Host}

/-- The words that an instruction takes from the stack. -/
def Instr.takes : Instr → ℕ
  | .plain op => if op.isBinary then 2 else 1
  | .save _ _ => 1
  | .jez _ => 1
  | _ => 0

/-- The words that it leaves there instead. -/
def Instr.leaves : Instr → ℕ
  | .plain _ => 1
  | .load _ _ => 1
  | .iconst _ => 1
  | .fconst _ => 1
  | _ => 0

/-- What an instruction takes and leaves. -/
def Instr.effect (i : Instr) : ℕ × ℕ := (i.takes, i.leaves)

/-- The change of the depth. -/
def Instr.net (i : Instr) : ℤ := i.leaves - i.takes

/-- An outcome that treats the stack as the effect says: it fails for want of words or of room only
where these are missing. -/
def DepthOutcome (frame : Frame) (effect : ℕ × ℕ) : Except VmStop (Frame × ℤ) → Prop
  | .ok (frame', _) => effect.1 ≤ frame.stack.length ∧
      frame'.stack.length + effect.1 = frame.stack.length + effect.2 ∧
      frame'.stackSize = frame.stackSize
  | .error e => (e = .fault .underflow → frame.stack.length < effect.1) ∧
      (e = .fault .overflow → frame.stackSize < 4 * (frame.stack.length - effect.1 + effect.2))

lemma depth_pushWord (frame : Frame) (w : Word) (shift : ℤ) :
    DepthOutcome frame (0, 1) (pushWord frame w shift) := by
  unfold pushWord
  split
  · exact ⟨Nat.zero_le _, rfl, rfl⟩
  · refine ⟨fun h => (nomatch h), fun _ => ?_⟩
    simp only [Nat.sub_zero]
    omega

/-- An operation on two words fails for its operands only. -/
lemma applyOp_error {op : PlainOp} {a b : Word} {e : VmStop} (h : applyOp host op a b = .error e) :
    e = .fault .divide ∨ ∃ message, e = .panic message := by
  unfold applyOp at h
  split at h
  all_goals first
    | cases h
      exact .inr ⟨_, rfl⟩
    | cases h
    | skip
  split at h
  · cases h
    exact .inl rfl
  · cases h

lemma depth_plain (op : PlainOp) (frame : Frame) :
    DepthOutcome frame (Instr.plain op).effect ((vmIsa host).exec (.plain op) frame) := by
  cases hop : op.isBinary with
  | true =>
    have heffect : (Instr.plain op).effect = (2, 1) := by
      simp [Instr.effect, Instr.takes, Instr.leaves, hop]
    rw [heffect, exec_binary hop]
    obtain ⟨stack, size, locals⟩ := frame
    rcases stack with _ | ⟨b, _ | ⟨a, rest⟩⟩
    · exact ⟨fun _ => (by decide : 0 < 2), fun h => (nomatch h)⟩
    · exact ⟨fun _ => (by decide : 1 < 2), fun h => (nomatch h)⟩
    · cases happly : applyOp host op a b with
      | error e =>
        simp only [happly, Except.map]
        rcases applyOp_error happly with rfl | ⟨message, rfl⟩
        · exact ⟨fun h => (nomatch h), fun h => (nomatch h)⟩
        · exact ⟨fun h => (nomatch h), fun h => (nomatch h)⟩
      | ok w =>
        simp only [happly, Except.map]
        exact ⟨Nat.le_add_left 2 _, rfl, rfl⟩
  | false =>
    cases op with
    | i2f =>
      obtain ⟨stack, size, locals⟩ := frame
      cases stack with
      | nil => exact ⟨fun _ => Nat.zero_lt_one, fun h => (nomatch h)⟩
      | cons w rest => exact ⟨Nat.le_add_left 1 _, rfl, rfl⟩
    | ineg => exact ⟨fun h => (nomatch h), fun h => (nomatch h)⟩
    | fneg => exact ⟨fun h => (nomatch h), fun h => (nomatch h)⟩
    | _ => cases hop

lemma depth_save (rep : Rep) (slot : UInt8) (frame : Frame) :
    DepthOutcome frame (1, 0) ((vmIsa host).exec (.save rep slot) frame) := by
  have hsave : (vmIsa host).exec (.save rep slot) frame = saveWord frame [slot] := by
    cases rep <;> rfl
  rw [hsave]
  obtain ⟨stack, size, locals⟩ := frame
  cases stack with
  | nil => exact ⟨fun _ => Nat.zero_lt_one, fun h => (nomatch h)⟩
  | cons w rest =>
    simp only [saveWord]
    split
    · exact ⟨Nat.le_add_left 1 _, rfl, rfl⟩
    · exact ⟨fun h => (nomatch h), fun h => (nomatch h)⟩

/-- Every instruction treats the stack as its effect says. -/
theorem exec_depth (i : Instr) (frame : Frame) :
    DepthOutcome frame i.effect ((vmIsa host).exec i frame) := by
  cases i with
  | plain op => exact depth_plain op frame
  | load rep slot =>
    rw [exec_load]
    cases frame.locals[slot.toNat]? with
    | none => exact ⟨fun h => (by cases h), fun h => (by cases h)⟩
    | some w => exact depth_pushWord frame w 2
  | save rep slot => exact depth_save rep slot frame
  | iconst value =>
    have h := vmExecuteOpcodeIconst_encoded frame value []
    rw [List.append_nil] at h
    change DepthOutcome frame (0, 1) (vmExecuteOpcodeIconst frame (htobe32 value))
    rw [h]
    exact depth_pushWord frame _ 5
  | fconst value =>
    have h := vmExecuteOpcodeFconst_encoded frame value []
    rw [List.append_nil] at h
    change DepthOutcome frame (0, 1) (vmExecuteOpcodeFconst frame (bytesLE32 value))
    rw [h]
    exact depth_pushWord frame _ 5
  | jez n =>
    have hread := readOffset_htobe16 n []
    rw [List.append_nil] at hread
    change DepthOutcome frame (1, 0) (vmExecuteOpcodeJez frame (htobe16 n))
    simp only [vmExecuteOpcodeJez, branchWord, hread, except_ok_bind]
    obtain ⟨stack, size, locals⟩ := frame
    cases stack with
    | nil => exact ⟨fun _ => Nat.zero_lt_one, fun h => (by cases h)⟩
    | cons w rest => exact ⟨Nat.le_add_left 1 _, rfl, rfl⟩
  | jmp n =>
    rw [exec_jmp]
    exact ⟨Nat.zero_le _, rfl, rfl⟩
  | rjmp n =>
    rw [exec_rjmp]
    exact ⟨Nat.zero_le _, rfl, rfl⟩
  | call index => exact ⟨Nat.zero_le _, rfl, rfl⟩

/-- The depth behind an instruction that succeeds. -/
lemma exec_length {i : Instr} {frame frame' : Frame} {d : ℤ}
    (h : (vmIsa host).exec i frame = .ok (frame', d)) :
    (frame'.stack.length : ℤ) = frame.stack.length + i.net := by
  have hdepth : DepthOutcome frame i.effect ((vmIsa host).exec i frame) := exec_depth i frame
  rw [h] at hdepth
  obtain ⟨-, hlen, -⟩ := hdepth
  simp only [Instr.effect] at hlen
  simp only [Instr.net]
  omega

/-! ## Every handler -/

/-- The stack pointer is between the start and the end of the stack. -/
def Frame.Within (frame : Frame) : Prop := 4 * frame.stack.length ≤ frame.stackSize

/-- A handler leaves the stack pointer of a frame inside of the stack. -/
def StaysWithin (handler : Handler) : Prop :=
  ∀ frame data frame' d, handler frame data = .ok (frame', d) → frame.Within → frame'.Within

lemma pushWord_within {frame frame' : Frame} {w : Word} {shift d : ℤ}
    (h : pushWord frame w shift = .ok (frame', d)) : frame'.Within := by
  unfold pushWord at h
  split at h
  · cases h
    assumption
  · cases h

lemma staysWithin_save : StaysWithin saveWord := by
  intro frame data frame' d h hframe
  unfold saveWord at h
  split at h
  · split at h
    · rename_i hstack
      split at h
      · cases h
        simp only [Frame.Within, hstack, List.length_cons] at hframe ⊢
        omega
      · cases h
    · cases h
  · cases h

lemma staysWithin_load : StaysWithin loadWord := by
  intro frame data frame' d h _
  unfold loadWord at h
  split at h
  · split at h
    · exact pushWord_within h
    · cases h
  · cases h

lemma staysWithin_const :
    StaysWithin vmExecuteOpcodeIconst ∧ StaysWithin vmExecuteOpcodeFconst := by
  constructor
  · intro frame data frame' d h _
    unfold vmExecuteOpcodeIconst at h
    split at h
    · exact pushWord_within h
    · cases h
  · intro frame data frame' d h _
    unfold vmExecuteOpcodeFconst at h
    split at h
    · exact pushWord_within h
    · cases h

lemma staysWithin_binary (rep : Rep) (op : BitVec 32 → BitVec 32 → BitVec 32) :
    StaysWithin (binaryWord rep op) := by
  intro frame data frame' d h hframe
  unfold binaryWord at h
  split at h
  · rename_i hstack
    cases h
    simp only [Frame.Within, hstack, List.length_cons] at hframe ⊢
    omega
  · cases h

lemma staysWithin_idiv : StaysWithin vmExecuteOpcodeIdiv := by
  intro frame data frame' d h hframe
  unfold vmExecuteOpcodeIdiv at h
  split at h
  · split at h
    · cases h
    · exact staysWithin_binary _ _ _ _ _ _ h hframe
  · cases h

lemma staysWithin_i2f : StaysWithin (vmExecuteOpcodeI2f host) := by
  intro frame data frame' d h hframe
  unfold vmExecuteOpcodeI2f at h
  split at h
  · rename_i hstack
    cases h
    simpa only [Frame.Within, hstack, List.length_cons] using hframe
  · cases h

lemma staysWithin_branch (taken : BitVec 32 → Bool) : StaysWithin (branchWord taken) := by
  intro frame data frame' d h hframe
  obtain ⟨offset, -, h⟩ := except_bind_eq_ok.mp h
  split at h
  · rename_i hstack
    cases h
    simp only [Frame.Within, hstack, List.length_cons] at hframe ⊢
    omega
  · cases h

lemma staysWithin_jump : StaysWithin vmExecuteOpcodeJmp ∧ StaysWithin vmExecuteOpcodeRjmp := by
  constructor
  · intro frame data frame' d h hframe
    obtain ⟨offset, -, h⟩ := except_bind_eq_ok.mp h
    cases h
    exact hframe
  · intro frame data frame' d h hframe
    obtain ⟨offset, -, h⟩ := except_bind_eq_ok.mp h
    cases h
    exact hframe

/-- So does every opcode. -/
theorem staysWithin (opcode : UInt8) : StaysWithin (opcodeExecuteFuncs host opcode) := by
  refine opcodeExecuteFuncs_of_installed (fun _ _ _ _ h => nomatch h) ?_ opcode
  simp only [opcodeHandlers, List.forall_mem_cons, List.not_mem_nil, false_implies, implies_true,
    and_true]
  exact ⟨staysWithin_save, staysWithin_load, staysWithin_const.1, staysWithin_binary _ _,
    staysWithin_binary _ _, staysWithin_binary _ _, staysWithin_idiv, staysWithin_binary _ _,
    staysWithin_binary _ _, staysWithin_binary _ _, staysWithin_binary _ _, staysWithin_binary _ _,
    staysWithin_binary _ _, staysWithin_i2f, staysWithin_save, staysWithin_load,
    staysWithin_const.2, staysWithin_binary _ _, staysWithin_binary _ _, staysWithin_binary _ _,
    staysWithin_binary _ _, staysWithin_branch _, staysWithin_branch _, staysWithin_jump.1,
    staysWithin_jump.2⟩

end PhantomShell
