import PhantomShell.Compiler.Codegen
import PhantomShell.Vm.Assertions
import PhantomShell.Vm.Rules

/-!
# Rules for the blocks of statements

The rules of `JumpIsa` at the jumps that the compiler lays around the blocks of an `if` and of a
`while`, for sizes that survive the encoding.
-/

namespace PhantomShell

variable {host : Host} {ok : VmStop → Prop} {guard : Instr → Frame → Bool}

/-! ## On any state -/

section

variable {σ ε : Type} {isa : JumpIsa Instr σ ε} {stop : ε → Prop}

/-- The two blocks of an `if`, on whatever state the two jumps around them do what they do. -/
theorem block_ifCode {P T F Q : σ → Prop} {a b : List Instr}
    (hsize : ∀ code, isa.sizeOf code = codeSize code)
    (ha : codeSize a + 3 ≤ 255) (hb : codeSize b ≤ 65535)
    (hjez : ∀ (n : UInt16) s, P s → JumpIsa.Effect stop
      (fun u d => (d = 3 ∧ T u) ∨ (d = 3 + n.toNat ∧ F u)) (isa.exec (.jez n) s))
    (hjmp : ∀ (n : UInt16) s, Q s → JumpIsa.Effect stop
      (fun u d => d = 3 + n.toNat ∧ Q u) (isa.exec (.jmp n) s))
    (htrue : isa.Block stop T a Q) (hfalse : isa.Block stop F b Q) :
    isa.Block stop P (ifCode a b) Q := by
  have hlen : ∀ n, codeSize (a ++ [.jmp n]) = codeSize a + 3 := fun n => codeSize_append a [.jmp n]
  have hthree : ∀ n, isa.size (.jez n) = 3 ∧ isa.size (.jmp n) = 3 := by
    intro n
    have hjez := hsize [.jez n]
    have hjmp := hsize [.jmp n]
    rw [JumpIsa.sizeOf_cons, JumpIsa.sizeOf_nil] at hjez hjmp
    exact ⟨hjez, hjmp⟩
  unfold ifCode
  refine JumpIsa.block_ite (fun s h => (hjez _ s h).mono ?_) htrue
    (fun s h => (hjmp _ s h).mono ?_) hfalse
  · rintro u d (⟨hd, hu⟩ | ⟨hd, hu⟩)
    · exact .inl ⟨by rw [hd, (hthree _).1]; rfl, hu⟩
    · refine .inr ⟨?_, hu⟩
      rw [hd, hsize, (hthree _).1, (hthree _).2, hlen, UInt16.toNat_ofNat']
      omega
  · rintro u d ⟨hd, hu⟩
    refine ⟨?_, hu⟩
    rw [hd, hsize, (hthree _).2, UInt16.toNat_ofNat']
    omega

/-- A loop, likewise: `P` holds in front of the condition, again and again. -/
theorem block_whileCode {P C T Q : σ → Prop} {c b : List Instr}
    (hsize : ∀ code, isa.sizeOf code = codeSize code) (hfits : codeSize c + codeSize b + 6 ≤ 255)
    (hexpr : isa.Block stop P c C)
    (hjez : ∀ (n : UInt16) s, C s → JumpIsa.Effect stop
      (fun u d => (d = 3 ∧ T u) ∨ (d = 3 + n.toNat ∧ Q u)) (isa.exec (.jez n) s))
    (hbody : isa.Block stop T b P)
    (hrjmp : ∀ (n : UInt16) s, P s → JumpIsa.Effect stop
      (fun u d => d = 3 - n.toNat ∧ P u) (isa.exec (.rjmp n) s)) :
    isa.Block stop P (whileCode c b) Q := by
  have hthree : ∀ n, isa.size (.jez n) = 3 ∧ isa.size (.rjmp n) = 3 := by
    intro n
    have hjez := hsize [.jez n]
    have hrjmp := hsize [.rjmp n]
    rw [JumpIsa.sizeOf_cons, JumpIsa.sizeOf_nil] at hjez hrjmp
    exact ⟨hjez, hrjmp⟩
  unfold whileCode
  refine JumpIsa.block_loop hexpr (fun s h => (hjez _ s h).mono ?_) hbody
    (fun s h => (hrjmp _ s h).mono ?_)
  · rintro u d (⟨hd, hu⟩ | ⟨hd, hu⟩)
    · exact .inl ⟨by rw [hd, (hthree _).1]; rfl, hu⟩
    · refine .inr ⟨?_, hu⟩
      rw [hd, hsize, (hthree _).1, (hthree _).2, UInt16.toNat_ofNat']
      omega
  · rintro u d ⟨hd, hu⟩
    refine ⟨?_, hu⟩
    rw [hd, hsize, hsize, (hthree _).1, UInt16.toNat_ofNat']
    omega

end

/-! ## On a frame -/

/-- `OPCODE_JEZ` takes the word at the top: behind it `T` holds if it falls through, and `F` if it
jumps. -/
def Frame.Tested (ok : VmStop → Prop) (T F : Frame → Prop) (frame : Frame) : Prop :=
  match frame.stack with
  | w :: rest =>
    (w.bits ≠ 0 → T { frame with stack := rest }) ∧ (w.bits = 0 → F { frame with stack := rest })
  | [] => ok (.fault .underflow)

/-- A guard that lets the jumps pass. -/
def JumpsPass (guard : Instr → Frame → Bool) : Prop :=
  ∀ n frame, guard (.jez n) frame = true ∧ guard (.jmp n) frame = true ∧
    guard (.rjmp n) frame = true

lemma exec_jez_stack (n : UInt16) (frame : Frame) :
    (vmIsa host).exec (.jez n) frame = match frame.stack with
      | w :: rest =>
        .ok ({ frame with stack := rest }, 3 + if w.bits = 0 then (n.toNat : ℤ) else 0)
      | [] => .error (.fault .underflow) := by
  obtain ⟨stack, size, locals⟩ := frame
  cases stack with
  | nil =>
    have hread := readOffset_htobe16 n []
    rw [List.append_nil] at hread
    change vmExecuteOpcodeJez ⟨[], size, locals⟩ (htobe16 n) = _
    simp only [vmExecuteOpcodeJez, branchWord, hread, except_ok_bind]
  | cons w rest =>
    change (vmIsa host).exec (.jez n) (Frame.push ⟨rest, size, locals⟩ w) = _
    rw [exec_jez]

lemma effect_guarded_jez {n : UInt16} {frame : Frame} {T F : Frame → Prop} (hpass : JumpsPass guard)
    (h : frame.Tested ok T F) :
    JumpIsa.Effect (Tolerated ok) (fun u d => (d = 3 ∧ T u) ∨ (d = 3 + n.toNat ∧ F u))
      ((guardedIsa host guard).exec (.jez n) frame) := by
  refine effect_guarded (hpass n frame).1 ?_
  rw [exec_jez_stack]
  unfold Frame.Tested at h
  cases hstack : frame.stack with
  | nil =>
    rw [hstack] at h
    exact h
  | cons w rest =>
    rw [hstack] at h
    by_cases hw : w.bits = 0
    · exact .inr ⟨by rw [if_pos hw], h.2 hw⟩
    · exact .inl ⟨by rw [if_neg hw, add_zero], h.1 hw⟩

/-- The two blocks of an `if` behind its condition. -/
theorem guarded_ifCode {P T F Q : Frame → Prop} {a b : List Instr}
    (hpass : JumpsPass guard) (ha : codeSize a + 3 ≤ 255) (hb : codeSize b ≤ 65535)
    (hcond : ∀ frame, P frame → frame.Tested ok T F) (htrue : Guarded host ok guard T a Q)
    (hfalse : Guarded host ok guard F b Q) : Guarded host ok guard P (ifCode a b) Q := by
  refine block_ifCode guarded_sizeOf ha hb
    (fun _ frame h => effect_guarded_jez hpass (hcond frame h)) (fun n frame h => ?_) htrue hfalse
  refine effect_guarded (hpass n frame).2.1 ?_
  rw [exec_jmp]
  exact ⟨rfl, h⟩

/-- A loop: `P` holds in front of the condition, again and again. -/
theorem guarded_whileCode {P C T Q : Frame → Prop} {c b : List Instr} (hpass : JumpsPass guard)
    (hsize : codeSize c + codeSize b + 6 ≤ 255) (hexpr : Guarded host ok guard P c C)
    (hcond : ∀ frame, C frame → frame.Tested ok T Q) (hbody : Guarded host ok guard T b P) :
    Guarded host ok guard P (whileCode c b) Q := by
  refine block_whileCode guarded_sizeOf hsize hexpr
    (fun _ frame h => effect_guarded_jez hpass (hcond frame h)) hbody (fun n frame h => ?_)
  refine effect_guarded (hpass n frame).2.2 ?_
  rw [exec_rjmp]
  exact ⟨rfl, h⟩

end PhantomShell
