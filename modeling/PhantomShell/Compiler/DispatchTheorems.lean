import PhantomShell.Compiler.FuelTheorems
import PhantomShell.Compiler.ValueTheorems

/-!
# Where the machine fetches its opcodes

The handler of each opcode moves behind its instruction or, in a jump, to another one, so the
machine only fetches opcodes that the compiler emitted as such. The unary minus has an opcode
but no handler.
-/

namespace PhantomShell

variable {host : Host}

/-- `vm_static_init` installs a handler for the opcode. -/
def Installed (host : Host) (opcode : UInt8) : Prop :=
  opcode = opcodeCall ∨ ((opcodeHandlers host).lookup opcode).isSome

/-- `vm_execute_opcodes` is at the end of its code, or at the first byte of an instruction whose
opcode has a handler. -/
def FetchesHandled (host : Host) (a : Activation) : Prop :=
  ∃ code pc, a.code = encodeAll code ∧ a.pc = (pc : ℕ) ∧
    (pc = codeSize code ∨ ∃ i, (vmIsa host).At code pc i ∧ Installed host i.opcode)

/-- Every instruction but the negations. -/
def handled (i : Instr) (_ : Frame) : Bool := i != .plain .ineg && i != .plain .fneg

lemma installed_of_handled {i : Instr} {frame : Frame} (h : handled i frame = true) :
    Installed host i.opcode := by
  cases i with
  | plain op => cases op <;> first | exact .inr rfl | cases h
  | load rep slot => cases rep <;> exact .inr rfl
  | save rep slot => cases rep <;> exact .inr rfl
  | call index => exact .inl rfl
  | _ => exact .inr rfl

/-! ## Code without a unary minus -/

/-- No unary minus is compiled: its operand is missed, or there is none. -/
def MinusFree (vars : Vars) : Expr → Prop
  | .group _ expr => MinusFree vars expr
  | .unaryOp _ _ operand => exprFound vars operand = false ∧ MinusFree vars operand
  | .binaryOp _ operator left right =>
    MinusFree vars left ∧ MinusFree (if operator = .comma then exprVars vars left else vars) right
  | _ => True

instance decidableMinusFree : (vars : Vars) → (e : Expr) → Decidable (MinusFree vars e)
  | vars, .group _ expr => decidableMinusFree vars expr
  | vars, .unaryOp _ _ operand =>
    have := decidableMinusFree vars operand
    inferInstanceAs (Decidable (exprFound vars operand = false ∧ MinusFree vars operand))
  | vars, .binaryOp _ operator left right =>
    have := decidableMinusFree vars left
    have := decidableMinusFree (if operator = .comma then exprVars vars left else vars) right
    inferInstanceAs (Decidable (MinusFree vars left ∧
      MinusFree (if operator = .comma then exprVars vars left else vars) right))
  | _, .literalInt _ => isTrue trivial
  | _, .literalFloat _ => isTrue trivial
  | _, .ident _ _ => isTrue trivial
  | _, .specialCast _ _ _ => isTrue trivial
  | _, .other _ => isTrue trivial

lemma exprFound_of_operand {vars : Vars} {e : Expr} {r : Rep} (h : operandRep vars e = some r) :
    exprFound vars e = true := by
  induction e generalizing r with
  | ident t name =>
    obtain ⟨var, hvar, -⟩ := operandRep_ident h
    simp [exprFound, hvar]
  | group t expr ih => exact ih h
  | unaryOp t operator operand ih => exact ih (operandRep_unaryOp h).2
  | _ => rfl

lemma handled_castCode {a b : Rep} {i : Instr} (hi : i ∈ castCode a b) (frame : Frame) :
    handled i frame = true := by
  unfold castCode at hi
  split at hi
  · cases hi
  · rw [List.mem_singleton.mp hi]
    rfl

/-- The opcodes of binary operators are no negations. -/
lemma handled_valueOp (r : Rep) (operator : Operator) (frame : Frame) :
    handled (.plain ((valueOp r operator).getD .iadd)) frame = true := by
  cases r <;> cases operator <;> rfl

/-- No operand is negated. -/
lemma handled_operandCode {vars : Vars} {e : Expr} {r : Rep} (h : operandRep vars e = some r)
    (hfree : MinusFree vars e) {i : Instr} (hi : i ∈ operandCode vars e) (frame : Frame) :
    handled i frame = true := by
  induction e generalizing r with
  | literalInt value =>
    rw [List.mem_singleton.mp hi]
    rfl
  | literalFloat value =>
    rw [List.mem_singleton.mp hi]
    rfl
  | ident t name =>
    rw [operandCode] at hi
    split at hi
    · rw [List.mem_singleton.mp hi]
      rfl
    · cases hi
  | group t expr ih => exact ih h hfree hi
  | unaryOp t operator operand ih =>
    have hfound := exprFound_of_operand (operandRep_unaryOp h).2
    rw [hfree.1] at hfound
    cases hfound
  | binaryOp t operator left right ihl ihr =>
    obtain ⟨a, b, ha, hb, hcase⟩ := operandRep_binaryOp h
    have hcomma : operator ≠ .comma := by
      rintro rfl
      rcases hcase with ⟨hop, -⟩ | ⟨-, -, op, hop⟩
      · cases hop
      · cases hr : joinRep a b <;> rw [hr] at hop <;> cases hop
    have hright : MinusFree vars right := by
      have := hfree.2
      rwa [if_neg hcomma] at this
    simp only [operandCode] at hi
    split at hi
    · simp only [List.mem_append, List.mem_singleton] at hi
      rcases hi with (hi | hi) | rfl
      · exact ihr hb hright hi
      · exact handled_castCode hi frame
      · rfl
    · simp only [List.mem_append, List.mem_singleton] at hi
      rcases hi with ((hi | hi) | (hi | hi)) | rfl
      · exact ihl ha hfree.1 hi
      · exact handled_castCode hi frame
      · exact ihr hb hright hi
      · exact handled_castCode hi frame
      · exact handled_valueOp _ _ frame
  | specialCast t opcode operand => cases h
  | other t => cases h

lemma handled_assignCode {vars : Vars} {name : CStr} {right : Expr} {r : Rep}
    (h : operandRep vars right = some r) (hfree : MinusFree vars right) {i : Instr}
    (hi : i ∈ assignCode vars name right) (frame : Frame) : handled i frame = true := by
  unfold assignCode at hi
  split at hi
  · simp only [List.mem_append, List.mem_singleton] at hi
    rcases hi with (hi | hi) | rfl
    · exact handled_operandCode h hfree hi frame
    · exact handled_castCode hi frame
    · rfl
  · simp only [List.mem_append, List.mem_singleton] at hi
    rcases hi with hi | rfl
    · exact handled_operandCode h hfree hi frame
    · rfl

/-- No expression is negated. -/
lemma handled_exprCode {callIndex : CStr → UInt16} {vars : Vars} {e : Expr}
    (hreg : RegularExpr vars e) (frame : Frame) : MinusFree vars e →
    ∀ i ∈ exprCode callIndex vars e, handled i frame = true := by
  refine RegularExpr.forms (P := fun vars e => MinusFree vars e →
    ∀ i ∈ exprCode callIndex vars e, handled i frame = true) ?_ ?_ ?_ ?_ ?_ ?_ ?_ hreg
  · intro vars t name hvar _ i hi
    simp only [exprCode, operandCode, hvar, List.not_mem_nil] at hi
  · intro vars e r hr hcode _ _ hfree i hi
    rw [hcode] at hi
    exact handled_operandCode hr hfree hi frame
  · exact fun _ ih => ih
  · intro vars t e _ ih hfree i hi
    rw [exprCode, if_neg (by simp [hfree.1]), List.append_nil] at hi
    exact ih hfree.2 i hi
  · exact fun hr hfree i hi => handled_assignCode hr hfree.2 hi frame
  · intro vars t t' t'' name args _ ih hfree i hi
    rcases List.mem_append.mp hi with hi | hi
    · exact ih hfree.2 i hi
    · rw [List.mem_singleton.mp hi]
      rfl
  · intro vars t left right _ _ ihl ihr hfree i hi
    rcases List.mem_append.mp hi with hi | hi
    · exact ihl hfree.1 i hi
    · exact ihr hfree.2 i hi

/-! ## Programs -/

/-- Nothing is asserted of the frames. -/
def dispatchFlow : Flow Unit where
  Inv _ _ _ := True
  leave _ _ _ := ()
  test _ _ _ := ()
  Good vars _ e := MinusFree vars e
  GoodCond vars _ e := MinusFree vars e

lemma jumpsPass_handled : JumpsPass handled := fun _ _ => ⟨rfl, rfl, rfl⟩

/-- The code of an expression without a unary minus. -/
lemma line_handled {callIndex : CStr → UInt16} {vars : Vars} {e : Expr}
    (hreg : RegularExpr vars e) (hfree : MinusFree vars e) {Q : Frame → Prop}
    (hQ : ∀ frame, Q frame) :
    (guardedIsa host handled).Line (Tolerated fun _ => True) (fun _ => True)
      (exprCode callIndex vars e) Q := by
  refine (JumpIsa.line_invariant fun i hi frame _ => ?_).mono (fun _ h => h) fun frame _ => hQ frame
  refine effect_guarded (handled_exprCode hreg frame hfree i hi) ?_
  cases hexec : (vmIsa host).exec i frame with
  | error e => trivial
  | ok r => exact ⟨exprCode_straight host callIndex hi _ _ _ hexec, trivial⟩

lemma dispatchFlow_sound (callIndex : CStr → UInt16) :
    dispatchFlow.Sound host (fun _ => True) handled callIndex where
  jumps := jumpsPass_handled
  mono _ h := h
  forget _ h := h
  expr hreg hfree := line_handled hreg hfree fun _ => trivial
  cond hreg hfree := line_handled hreg hfree fun frame => by
    unfold Frame.Tested
    split
    · exact ⟨fun _ => trivial, fun _ => trivial⟩
    · trivial

/-- In every state of every run of a program without a unary minus, the machine is at an
instruction that the compiler emitted, and that has a handler. -/
theorem fetchesHandled_of_minusFree {isInteractive : Bool} {program : List TopLevel}
    (hp : EncodableProgram program) (hfree : EachScope (EachExpr MinusFree) program) {vm : Vm}
    {s : MachineState} (hs : Passes host isInteractive program vm s) : FetchesHandled host s.current := by
  have hfuncs : Flow.FuncsCertified host (fun _ => True) handled (fun _ _ => True)
      (fun func => dispatchFlow.Follows (paramVars func.args) () func.body) program := by
    intro n func callIndex varsMaxSize fuel vm handle vm' _ hregular hfollows hregister
    obtain ⟨-, hdata, -, -⟩ := vmRegister_handle hregister
    exact (dispatchFlow_sound callIndex).func hregular hfollows hdata fun _ _ => trivial
  obtain ⟨⟨Q, hstacked⟩, -⟩ := Flow.Sound.session dispatchFlow_sound hfuncs hp
    (Flow.followsProgram_of_each (fun _ _ h => ⟨h, h⟩) hfree) trivial
    (fun vm s n _ hvm => hvm.calls (fun _ _ _ _ _ _ _ _ => trivial) fun _ _ _ => trivial) hs
  obtain ⟨code, pc, hcode, hpc, hat⟩ := hstacked.at_instr.at_instr
  exact ⟨code, pc, hcode, hpc, hat.imp_right fun ⟨i, hi, hguard⟩ =>
    ⟨i, hi, installed_of_handled hguard⟩⟩

/-- In `sampleProgram`, at the load in the true block of the second round: the machine has jumped
back from the end of the loop, and has skipped that block in the first round. -/
theorem fetchesHandled_of_minusFree_sample : ∃ vm s, Passes zeroHost true sampleProgram vm s ∧
    s.current.pc = 16 ∧ s.current.code[16]? = some opcodeFload ∧
      s.current.frame.locals[0]? = some ⟨.int, 1⟩ ∧ FetchesHandled zeroHost s.current := by
  have hstates : (programStates zeroHost 3 50 true sampleProgram).map (·.any fun p =>
      decide (p.2.current.pc = 16 ∧ p.2.current.code[16]? = some opcodeFload ∧
        p.2.current.frame.locals[0]? = some ⟨.int, 1⟩)) = some true := by decide +kernel
  obtain ⟨vm, s, hs, hplace⟩ := exists_passes _ hstates
  obtain ⟨hpc, hcode, hlocal⟩ := of_decide_eq_true hplace
  exact ⟨vm, s, hs, hpc, hcode, hlocal,
    fetchesHandled_of_minusFree encodable_sample (by decide) hs⟩

/-- `-1` at top level. -/
def minusOne : TopLevel := .stat (.expr (.unaryOp .unknwn .unaryMinus (.literalInt 1)) .nil)

/-- The opcode of the minus has no handler. -/
theorem minusOne_not_fetchesHandled :
    ∃ vm s, Passes zeroHost true [minusOne] vm s ∧ ¬ FetchesHandled zeroHost s.current := by
  refine ⟨vmStaticInit, vmStart pushedOne [opcodeIneg], ⟨2,
    [.execute [opcodeIconst, 0, 0, 0, 1], .execute [opcodeIneg]], by decide +kernel, ?_⟩, ?_⟩
  · exact .execute vmRuns_pushOne (.here .refl)
  · rintro ⟨code, pc, hcode, hpc, hend | ⟨i, hat, hinstalled⟩⟩
    · have hlen := congrArg List.length hcode
      change 1 = codeSize code at hlen
      have : (0 : ℤ) = pc := hpc
      omega
    · -- the instruction there is the minus
      obtain ⟨rest, hdrop⟩ := drop_of_at hat
      have hzero : pc = 0 := by
        have : (0 : ℤ) = pc := hpc
        omega
      rw [hzero, ← hcode] at hdrop
      have hop : i.opcode = opcodeIneg := (List.cons_eq_cons.mp hdrop).1.symm
      rw [hop] at hinstalled
      rcases hinstalled with hcall | hlookup
      · exact absurd hcall (by decide)
      · cases hlookup

end PhantomShell
