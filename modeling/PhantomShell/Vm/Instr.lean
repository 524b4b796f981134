import PhantomShell.Lib.Except
import PhantomShell.Lib.JumpCode
import PhantomShell.Vm.Machine

/-!
# Instructions

The instructions that the compiler emits, their encoding, and the machine's step on an
encoded instruction. `vmIsa` is the machine without calls as a `JumpIsa`: a call leaves the
frame of its caller as it is.
-/

namespace PhantomShell

/-- The opcodes without an operand. -/
inductive PlainOp
  | iadd | isub | imul | idiv | ineg | i2f
  | ieq | ineq | ilt | ingt | igt | inlt
  | fadd | fsub | fmul | fdiv | fneg
deriving DecidableEq

def PlainOp.opcode : PlainOp → UInt8
  | .iadd => opcodeIadd
  | .isub => opcodeIsub
  | .imul => opcodeImul
  | .idiv => opcodeIdiv
  | .ineg => opcodeIneg
  | .i2f => opcodeI2f
  | .ieq => opcodeIeq
  | .ineq => opcodeIneq
  | .ilt => opcodeIlt
  | .ingt => opcodeIngt
  | .igt => opcodeIgt
  | .inlt => opcodeInlt
  | .fadd => opcodeFadd
  | .fsub => opcodeFsub
  | .fmul => opcodeFmul
  | .fdiv => opcodeFdiv
  | .fneg => opcodeFneg

inductive Instr
  | plain (op : PlainOp)
  | load (rep : Rep) (slot : UInt8)
  | save (rep : Rep) (slot : UInt8)
  | iconst (value : BitVec 32)
  | fconst (value : BitVec 32)
  | jez (offset : UInt16)
  | jmp (offset : UInt16)
  | rjmp (offset : UInt16)
  | call (index : UInt16)
deriving DecidableEq

/-- `htobe16` as it lies in memory. -/
def htobe16 (n : UInt16) : List UInt8 := [UInt8.ofNat (n.toNat / 256), UInt8.ofNat n.toNat]

/-- The bytes of a word, the lowest first. -/
def bytesLE32 (v : BitVec 32) : List UInt8 :=
  [UInt8.ofNat v.toNat, UInt8.ofNat (v.toNat / 256), UInt8.ofNat (v.toNat / 256 ^ 2),
    UInt8.ofNat (v.toNat / 256 ^ 3)]

/-- `htobe32` as it lies in memory. -/
def htobe32 (v : BitVec 32) : List UInt8 := (bytesLE32 v).reverse

namespace Instr

def opcode : Instr → UInt8
  | .plain op => op.opcode
  | .load .int _ => opcodeIload
  | .load .float _ => opcodeFload
  | .save .int _ => opcodeIsave
  | .save .float _ => opcodeFsave
  | .iconst _ => opcodeIconst
  | .fconst _ => opcodeFconst
  | .jez _ => opcodeJez
  | .jmp _ => opcodeJmp
  | .rjmp _ => opcodeRjmp
  | .call _ => opcodeCall

def operand : Instr → List UInt8
  | .plain _ => []
  | .load _ slot => [slot]
  | .save _ slot => [slot]
  | .iconst value => htobe32 value
  | .fconst value => bytesLE32 value
  | .jez offset => htobe16 offset
  | .jmp offset => htobe16 offset
  | .rjmp offset => htobe16 offset
  | .call index => htobe16 index

def encode (i : Instr) : List UInt8 := i.opcode :: i.operand

def isCall : Instr → Bool
  | .call _ => true
  | _ => false

end Instr

/-- The bytes of a block. -/
def encodeAll (code : List Instr) : List UInt8 := code.flatMap Instr.encode

/-- The machine on one frame. -/
def vmIsa (host : Host) : JumpIsa Instr Frame VmStop where
  size i := i.encode.length
  size_pos i := by simp [Instr.encode]
  exec i frame :=
    if i.isCall then .ok (frame, 3) else opcodeExecuteFuncs host i.opcode frame i.operand

variable {host : Host}

/-- The size of a block is the number of its bytes, for any host. -/
def codeSize (code : List Instr) : ℕ := (encodeAll code).length

lemma sizeOf_eq_codeSize (host : Host) (code : List Instr) :
    (vmIsa host).sizeOf code = codeSize code := by
  simp [JumpIsa.sizeOf, codeSize, encodeAll, vmIsa, List.length_flatMap]

lemma encodeAll_append (a b : List Instr) : encodeAll (a ++ b) = encodeAll a ++ encodeAll b :=
  List.flatMap_append

lemma codeSize_append (a b : List Instr) : codeSize (a ++ b) = codeSize a + codeSize b := by
  simp [codeSize, encodeAll_append]

lemma encodeAll_cons (i : Instr) (code : List Instr) :
    encodeAll (i :: code) = i.encode ++ encodeAll code := rfl

/-! ## Decoding -/

lemma be16toh_htobe16 (n : UInt16) :
    be16toh (UInt8.ofNat (n.toNat / 256)) (UInt8.ofNat n.toNat) = n.toNat := by
  have := n.toNat_lt
  simp only [be16toh, UInt8.toNat_ofNat']
  omega

/-- The four bytes of a word put together again. -/
lemma ofNat_bytes (v : BitVec 32) :
    BitVec.ofNat 32 ((((UInt8.ofNat (v.toNat / 256 ^ 3)).toNat * 256 +
      (UInt8.ofNat (v.toNat / 256 ^ 2)).toNat) * 256 + (UInt8.ofNat (v.toNat / 256)).toNat) * 256 +
      (UInt8.ofNat v.toNat).toNat) = v := by
  have := v.isLt
  apply BitVec.eq_of_toNat_eq
  simp only [BitVec.toNat_ofNat, UInt8.toNat_ofNat']
  omega

lemma readOffset_htobe16 (n : UInt16) (rest : List UInt8) :
    readOffset (htobe16 n ++ rest) = .ok n.toNat := by
  simp only [htobe16, List.cons_append, readOffset, be16toh_htobe16]

lemma vmExecuteOpcodeIconst_encoded (frame : Frame) (v : BitVec 32) (rest : List UInt8) :
    vmExecuteOpcodeIconst frame (htobe32 v ++ rest) = pushWord frame ⟨.int, v⟩ 5 := by
  simp only [htobe32, bytesLE32, List.reverse_cons, List.reverse_nil, List.nil_append,
    List.cons_append, vmExecuteOpcodeIconst, ofNat_bytes]

lemma vmExecuteOpcodeFconst_encoded (frame : Frame) (v : BitVec 32) (rest : List UInt8) :
    vmExecuteOpcodeFconst frame (bytesLE32 v ++ rest) = pushWord frame ⟨.float, v⟩ 5 := by
  simp only [bytesLE32, List.cons_append, vmExecuteOpcodeFconst, ofNat_bytes]

/-- A handler reads no further than the operand of its instruction. -/
lemma opcodeExecuteFuncs_operand (i : Instr) (hcall : i.isCall = false) (frame : Frame)
    (rest : List UInt8) :
    opcodeExecuteFuncs host i.opcode frame (i.operand ++ rest)
      = opcodeExecuteFuncs host i.opcode frame i.operand := by
  cases i with
  | plain op => cases op <;> rfl
  | load rep slot => cases rep <;> rfl
  | save rep slot => cases rep <;> rfl
  | iconst value => rfl
  | fconst value => rfl
  | jez offset => rfl
  | jmp offset => rfl
  | rjmp offset => rfl
  | call index => cases hcall

lemma opcode_ne_call {i : Instr} (h : i.isCall = false) : i.opcode ≠ opcodeCall := by
  cases i with
  | plain op => cases op <;> decide
  | load rep slot =>
    cases rep
    · exact (by decide : opcodeIload ≠ opcodeCall)
    · exact (by decide : opcodeFload ≠ opcodeCall)
  | save rep slot =>
    cases rep
    · exact (by decide : opcodeIsave ≠ opcodeCall)
    · exact (by decide : opcodeFsave ≠ opcodeCall)
  | iconst value => exact (by decide : opcodeIconst ≠ opcodeCall)
  | fconst value => exact (by decide : opcodeFconst ≠ opcodeCall)
  | jez offset => exact (by decide : opcodeJez ≠ opcodeCall)
  | jmp offset => exact (by decide : opcodeJmp ≠ opcodeCall)
  | rjmp offset => exact (by decide : opcodeRjmp ≠ opcodeCall)
  | call index => cases h

/-! ## One step -/

/-- The bytes at the place of an instruction. -/
lemma drop_of_at {code : List Instr} {pc : ℕ} {i : Instr} (h : (vmIsa host).At code pc i) :
    ∃ rest, (encodeAll code).drop pc = i.encode ++ rest := by
  obtain ⟨before, after, rfl, rfl⟩ := h
  refine ⟨encodeAll after, ?_⟩
  rw [sizeOf_eq_codeSize, codeSize, encodeAll_append, List.drop_left, encodeAll_cons]

/-- The machine at the bytes of an instruction that is not a call. -/
lemma vmStep_encoded {vm : Vm} {s : MachineState} {pc : ℕ} {i : Instr} {rest : List UInt8}
    (hpc : s.current.pc = pc) (hdrop : s.current.code.drop pc = i.encode ++ rest)
    (hcall : i.isCall = false) :
    vmStep host vm s = some (match (vmIsa host).exec i s.current.frame with
      | .ok (frame, shift) => .ok { s with
          current := { s.current with pc := s.current.pc + shift, frame := frame } }
      | .error e => .error e) := by
  have hexec : (vmIsa host).exec i s.current.frame
      = opcodeExecuteFuncs host i.opcode s.current.frame i.operand := by
    simp [vmIsa, hcall]
  rw [vmStep, if_pos (by omega), hpc, Int.toNat_natCast, hdrop, hexec,
    ← opcodeExecuteFuncs_operand i hcall _ rest]
  exact congrArg some (if_neg (opcode_ne_call hcall))

/-- The machine at an instruction that is not a call. -/
lemma vmStep_instr {vm : Vm} {s : MachineState} {code : List Instr} {pc : ℕ} {i : Instr}
    (hcode : s.current.code = encodeAll code) (hpc : s.current.pc = pc)
    (hat : (vmIsa host).At code pc i) (hcall : i.isCall = false) :
    vmStep host vm s = some (match (vmIsa host).exec i s.current.frame with
      | .ok (frame, shift) => .ok { s with
          current := { s.current with pc := s.current.pc + shift, frame := frame } }
      | .error e => .error e) := by
  obtain ⟨rest, hdrop⟩ := drop_of_at hat
  exact vmStep_encoded hpc (by rw [hcode, hdrop]) hcall

/-- The machine at a call. -/
lemma vmStep_call (vm : Vm) {s : MachineState} {code : List Instr} {pc : ℕ} {index : UInt16}
    (hcode : s.current.code = encodeAll code) (hpc : s.current.pc = pc)
    (hat : (vmIsa host).At code pc (.call index)) :
    ∃ rest, s.current.code.drop s.current.pc.toNat = opcodeCall :: (htobe16 index ++ rest) ∧
      vmStep host vm s = some (vmExecuteOpcodeCall host vm s (htobe16 index ++ rest)) := by
  obtain ⟨rest, hdrop⟩ := drop_of_at hat
  refine ⟨rest, by rw [hcode, hpc, Int.toNat_natCast, hdrop]; rfl, ?_⟩
  rw [vmStep, if_pos (by omega), hcode, hpc, Int.toNat_natCast, hdrop]
  simp only [Instr.encode, Instr.opcode, Instr.operand, List.cons_append, if_true]

/-- The machine behind the last instruction of a block. -/
lemma vmStep_end {vm : Vm} {s : MachineState} {code : List Instr}
    (hcode : s.current.code = encodeAll code) (hpc : s.current.pc = codeSize code) :
    vmStep host vm s = vmStep.returnToCaller s := by
  rw [vmStep, if_pos (by omega), hcode, hpc, Int.toNat_natCast, codeSize, List.drop_length]

/-! ## Runs of a block -/

/-- A run of a block without calls is a run of the machine on its bytes. -/
theorem vmRuns_of_runs {vm : Vm} {code : List Instr} (hcalls : ∀ i ∈ code, i.isCall = false)
    {frame frame' : Frame} (h : (vmIsa host).Runs code frame frame') :
    VmRuns host vm frame (encodeAll code) frame' := by
  have hreach : ∀ a b, Relation.ReflTransGen ((vmIsa host).Step code) a b →
      VmReach host vm ⟨⟨encodeAll code, a.1, a.2⟩, []⟩ ⟨⟨encodeAll code, b.1, b.2⟩, []⟩ := by
    intro a b hab
    induction hab with
    | refl => exact .refl
    | @tail b c _ hstep ih =>
      refine ih.tail ?_
      obtain ⟨i, d, hat, hexec, hpc⟩ := hstep
      have hi : i.isCall = false := by
        obtain ⟨before, after, rfl, -⟩ := hat
        exact hcalls i (by simp)
      rw [VmStep, vmStep_instr rfl rfl hat hi]
      simp only [hexec, ← hpc]
  refine ⟨_, hreach _ _ h, ?_, rfl⟩
  rw [vmStep_end rfl (by rw [sizeOf_eq_codeSize])]
  rfl

end PhantomShell
