import PhantomShell.Compiler.Codegen
import PhantomShell.Vm.Rules

/-!
# Running the code of a value

The code of a value expression is straight: it pushes the word that `evalWord` computes, or
stops as `evalWord` does (`runStraight_value`). `exprWords` is the room it needs.
-/

namespace PhantomShell

variable {host : Host}

/-- The words that the code of a value has on the stack at most. -/
def exprWords : Expr → ℕ
  | .group _ expr => exprWords expr
  | .unaryOp _ _ operand => exprWords operand
  | .binaryOp _ _ left right => max (exprWords left) (exprWords right + 1)
  | _ => 1

/-- The conversion of an operand to the common type. -/
def castWord (host : Host) (source target : Rep) (w : Word) : Word :=
  if source = target then w else ⟨.float, host.ofInt w.bits⟩

/-- The word that the code of a value leaves; the machine has no handler for the unary
minus. -/
def evalWord (host : Host) (vars : Vars) (locals : List Word) : Expr → Except VmStop Word
  | .literalInt value => .ok ⟨.int, value⟩
  | .literalFloat value => .ok ⟨.float, value⟩
  | .ident _ name =>
    match (lookupVar vars name).bind fun var => locals[var.index.toNat]? with
    | some w => .ok w
    | none => .error (.fault .locals)
  | .group _ expr => evalWord host vars locals expr
  | .unaryOp _ _ operand => do
    let _ ← evalWord host vars locals operand
    .error (.panic "")
  | .binaryOp _ operator left right => do
    let a := (valueRep vars left).getD .int
    let b := (valueRep vars right).getD .int
    let u ← evalWord host vars locals left
    let w ← evalWord host vars locals right
    applyOp host ((valueOp (joinRep a b) operator).getD .iadd) (castWord host a (joinRep a b) u)
      (castWord host b (joinRep a b) w)
  | .specialCast _ _ _ => .error (.panic "")
  | .other _ => .error (.panic "")

/-! ## Straight code -/

lemma isBinary_of_valueOp {r : Rep} {operator : Operator} {op : PlainOp}
    (hop : valueOp r operator = some op) : op.isBinary = true := by
  cases r <;> cases operator <;> cases hop <;> rfl

lemma castCode_local {a b : Rep} {i : Instr} (hi : i ∈ castCode a b) : i.Local := by
  unfold castCode at hi
  split at hi
  · cases hi
  · rw [List.mem_singleton.mp hi]
    exact ⟨rfl, by simp⟩

/-- The code of an operand has neither jumps nor calls. -/
lemma operandCode_local {vars : Vars} {e : Expr} {i : Instr} (hi : i ∈ operandCode vars e) :
    i.Local := by
  induction e with
  | literalInt value =>
    rw [List.mem_singleton.mp hi]
    exact ⟨rfl, by simp⟩
  | literalFloat value =>
    rw [List.mem_singleton.mp hi]
    exact ⟨rfl, by simp⟩
  | ident t name =>
    rw [operandCode] at hi
    split at hi
    · rw [List.mem_singleton.mp hi]
      exact ⟨rfl, by simp⟩
    · cases hi
  | group t expr ih => exact ih hi
  | unaryOp t operator operand ih =>
    rw [operandCode, List.mem_append] at hi
    rcases hi with hi | hi
    · exact ih hi
    · rw [List.mem_singleton.mp hi]
      exact ⟨rfl, by simp⟩
  | binaryOp t operator left right ihl ihr =>
    simp only [operandCode] at hi
    split at hi
    · simp only [List.mem_append, List.mem_singleton] at hi
      rcases hi with (hi | hi) | rfl
      · exact ihr hi
      · exact castCode_local hi
      · exact ⟨rfl, by simp⟩
    · simp only [List.mem_append, List.mem_singleton] at hi
      rcases hi with ((hi | hi) | (hi | hi)) | rfl
      · exact ihl hi
      · exact castCode_local hi
      · exact ihr hi
      · exact castCode_local hi
      · exact ⟨rfl, by simp⟩
  | specialCast t opcode operand => cases hi
  | other t => cases hi

lemma assignCode_local {vars : Vars} {name : CStr} {right : Expr} {i : Instr}
    (hi : i ∈ assignCode vars name right) : i.Local := by
  unfold assignCode at hi
  split at hi
  · simp only [List.mem_append, List.mem_singleton] at hi
    rcases hi with (hi | hi) | rfl
    · exact operandCode_local hi
    · exact castCode_local hi
    · exact ⟨rfl, by simp⟩
  · simp only [List.mem_append, List.mem_singleton] at hi
    rcases hi with hi | rfl
    · exact operandCode_local hi
    · exact ⟨rfl, by simp⟩

/-- Outside of statements there are no jumps. -/
lemma exprCode_ne_jump (callIndex : CStr → UInt16) {vars : Vars} {e : Expr} {i : Instr}
    (hi : i ∈ exprCode callIndex vars e) : ∀ n, i ≠ .jez n ∧ i ≠ .jmp n ∧ i ≠ .rjmp n := by
  revert hi
  fun_induction exprCode callIndex vars e with
  | case1 vars _ expr ih => exact ih
  | case2 vars _ _ operand ih =>
    intro hi
    rcases List.mem_append.mp hi with hi | hi
    · exact ih hi
    · split at hi
      · rw [List.mem_singleton.mp hi]
        simp
      · cases hi
  | case3 vars _ _ name right => exact fun hi => (assignCode_local hi).2
  | case4 vars _ _ name _ args ih =>
    intro hi
    rcases List.mem_append.mp hi with hi | hi
    · exact ih hi
    · rw [List.mem_singleton.mp hi]
      simp
  | case5 vars _ left right ihl ihr =>
    intro hi
    rcases List.mem_append.mp hi with hi | hi
    · exact ihl hi
    · exact ihr hi
  | case6 vars e => exact fun hi => (operandCode_local hi).2

lemma exprCode_straight (host : Host) (callIndex : CStr → UInt16) {vars : Vars} {e : Expr}
    {i : Instr} (hi : i ∈ exprCode callIndex vars e) : (vmIsa host).Straight i :=
  straight_of_ne_jump (exprCode_ne_jump callIndex hi)

lemma valueCode_local {vars : Vars} {e : Expr} (h : ValueExpr vars e) {i : Instr}
    (hi : i ∈ valueCode vars e) : i.Local := by
  obtain ⟨r, hr⟩ := Option.isSome_iff_exists.mp h
  rw [← (operandRep_of_valueRep hr).2] at hi
  exact operandCode_local hi

/-- The outcome of code that leaves one word. -/
def Frame.pushResult (frame : Frame) : Except VmStop Word → Except VmStop Frame
  | .ok w => .ok (frame.push w)
  | .error e => .error e

lemma runStraight_single (i : Instr) (frame : Frame) :
    (vmIsa host).runStraight [i] frame = match (vmIsa host).exec i frame with
      | .ok (t, _) => .ok t
      | .error e => .error e := by
  rw [JumpIsa.runStraight]
  cases (vmIsa host).exec i frame <;> rfl

lemma runStraight_cast (a b : Rep) (frame : Frame) (w : Word) :
    (vmIsa host).runStraight (castCode a b) (frame.push w)
      = .ok (frame.push (castWord host a b w)) := by
  unfold castCode castWord
  split
  · rfl
  · rw [runStraight_single, exec_i2f]

/-- Where there is room, the code of a value pushes the word that it stands for. -/
theorem runStraight_value {vars : Vars} {e : Expr} {r : Rep} (hr : valueRep vars e = some r)
    {frame : Frame} (hroom : frame.Room (exprWords e)) :
    (vmIsa host).runStraight (valueCode vars e) frame
      = frame.pushResult (evalWord host vars frame.locals e) := by
  induction e generalizing r frame with
  | literalInt value => rw [valueCode, runStraight_single, exec_iconst, pushWord_room hroom]; rfl
  | literalFloat value => rw [valueCode, runStraight_single, exec_fconst, pushWord_room hroom]; rfl
  | ident t name =>
    obtain ⟨var, hvar, -⟩ := valueRep_ident hr
    simp only [valueCode, evalWord, hvar, Option.bind_some]
    rw [runStraight_single, exec_load]
    cases hw : frame.locals[var.index.toNat]? with
    | none => rfl
    | some w =>
      simp only [pushWord_room hroom]
      rfl
  | group t expr ih => exact ih hr hroom
  | unaryOp t operator operand ih =>
    have hr' := (valueRep_unaryOp hr).2
    rw [valueCode, JumpIsa.runStraight_append, ih hr' hroom, evalWord]
    cases evalWord host vars frame.locals operand with
    | error e => rfl
    | ok w => rfl
  | binaryOp t operator left right ihl ihr =>
    obtain ⟨a, b, op, ha, hb, rfl, hop⟩ := valueRep_binaryOp hr
    have hleft : frame.Room (exprWords left) := hroom.mono (le_max_left _ _)
    have hright : frame.Room (exprWords right + 1) := hroom.mono (le_max_right _ _)
    simp only [valueCode, evalWord, ha, hb, hop, Option.getD_some, JumpIsa.runStraight_append,
      ihl ha hleft]
    cases evalWord host vars frame.locals left with
    | error e => rfl
    | ok u =>
      simp only [Frame.pushResult, runStraight_cast, except_ok_bind]
      rw [ihr hb (hright.push _), Frame.push_locals]
      cases evalWord host vars frame.locals right with
      | error e => rfl
      | ok w =>
        simp only [Frame.pushResult, runStraight_cast, except_ok_bind, runStraight_single,
          exec_binary (isBinary_of_valueOp hop), Frame.push_stack]
        cases applyOp host op (castWord host a (joinRep a b) u) (castWord host b (joinRep a b) w) <;>
          rfl
  | specialCast t opcode operand => cases hr
  | other t => cases hr

lemma push_of_runStraight {i : Instr} {frame frame' : Frame} {w : Word} {d : ℤ}
    (hexec : (vmIsa host).exec i frame = pushWord frame w d)
    (h : (vmIsa host).runStraight [i] frame = .ok frame') : ∃ w, frame' = frame.push w := by
  rw [runStraight_single, hexec] at h
  cases hpushed : pushWord frame w d with
  | error stop => simp [hpushed] at h
  | ok out =>
    simp only [hpushed, Except.ok.injEq] at h
    exact ⟨w, h ▸ pushWord_eq_ok hpushed⟩

/-- Where the code of a value gets to its end, with room or without, it has pushed one word. -/
theorem runStraight_pushes {vars : Vars} {e : Expr} {r : Rep} (hr : valueRep vars e = some r)
    {frame frame' : Frame} (h : (vmIsa host).runStraight (valueCode vars e) frame = .ok frame') :
    ∃ w, frame' = frame.push w := by
  induction e generalizing r frame frame' with
  | literalInt value => exact push_of_runStraight (exec_iconst value) h
  | literalFloat value => exact push_of_runStraight (exec_fconst value) h
  | ident t name =>
    obtain ⟨var, hvar, -⟩ := valueRep_ident hr
    simp only [valueCode, hvar] at h
    cases hw : frame.locals[var.index.toNat]? with
    | none =>
      rw [runStraight_single, exec_load, hw] at h
      cases h
    | some w => exact push_of_runStraight (by rw [exec_load, hw]) h
  | group t expr ih => exact ih hr h
  | unaryOp t operator operand ih =>
    rw [valueCode, JumpIsa.runStraight_append_eq_ok] at h
    obtain ⟨f₁, -, hneg⟩ := h
    rw [runStraight_single, exec_ineg] at hneg
    cases hneg
  | binaryOp t operator left right ihl ihr =>
    obtain ⟨a, b, op, ha, hb, rfl, hop⟩ := valueRep_binaryOp hr
    simp only [valueCode, ha, hb, hop, Option.getD_some, JumpIsa.runStraight_append_eq_ok] at h
    obtain ⟨f₄, ⟨f₂, ⟨f₁, hleft, hcast⟩, f₃, hright, hcast'⟩, hexec⟩ := h
    obtain ⟨u, rfl⟩ := ihl ha hleft
    rw [runStraight_cast] at hcast
    cases hcast
    obtain ⟨w, rfl⟩ := ihr hb hright
    rw [runStraight_cast] at hcast'
    cases hcast'
    -- the operation takes both words
    rw [runStraight_single, exec_binary (isBinary_of_valueOp hop)] at hexec
    simp only [Frame.push_stack] at hexec
    cases happly : applyOp host op (castWord host a (joinRep a b) u)
        (castWord host b (joinRep a b) w) with
    | error stop => simp [happly, Except.map] at hexec
    | ok v =>
      simp only [happly, Except.map, Except.ok.injEq] at hexec
      exact ⟨v, hexec.symm⟩
  | specialCast t opcode operand => cases hr
  | other t => cases hr

end PhantomShell
