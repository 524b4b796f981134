import PhantomShell.Compiler.FuelTheorems
import PhantomShell.Compiler.ValueTheorems
import PhantomShell.Vm.Depth

/-!
# What statements leave on the stack

No opcode discards a word: the value of an expression statement and the arguments of a call stay
where they are. `wordsLeft` counts what an expression leaves and `PathWords` what is left on the
way that the outcomes of the conditions take through a statement: every execution that ends has
left the words of the way that it has taken (`statement_depth`).
-/

namespace PhantomShell

variable {host : Host}

/-! ## Expressions -/

/-- Every variable that the expression reads is declared. -/
def ReadsDeclared (vars : Vars) : Expr → Prop
  | .ident _ name => (lookupVar vars name).isSome
  | .group _ expr => ReadsDeclared vars expr
  | .unaryOp _ _ operand => ReadsDeclared vars operand
  | .binaryOp _ operator left right =>
    (operator = .functionCall ∨ operator = .assignment ∨ ReadsDeclared vars left) ∧
      ReadsDeclared (if operator = .comma then exprVars vars left else vars) right
  | _ => True

instance decidableReadsDeclared : (vars : Vars) → (e : Expr) → Decidable (ReadsDeclared vars e)
  | vars, .ident _ name => inferInstanceAs (Decidable ((lookupVar vars name).isSome = true))
  | vars, .group _ expr => decidableReadsDeclared vars expr
  | vars, .unaryOp _ _ operand => decidableReadsDeclared vars operand
  | vars, .binaryOp _ operator left right =>
    have := decidableReadsDeclared vars left
    have := decidableReadsDeclared (if operator = .comma then exprVars vars left else vars) right
    inferInstanceAs (Decidable ((operator = .functionCall ∨ operator = .assignment ∨
      ReadsDeclared vars left) ∧
        ReadsDeclared (if operator = .comma then exprVars vars left else vars) right))
  | _, .literalInt _ => isTrue trivial
  | _, .literalFloat _ => isTrue trivial
  | _, .specialCast _ _ _ => isTrue trivial
  | _, .other _ => isTrue trivial

/-- The words that an expression leaves on the stack: a value leaves itself, an assignment
nothing, and a call its arguments. -/
def wordsLeft : Expr → ℤ
  | .group _ expr => wordsLeft expr
  | .unaryOp _ _ operand => wordsLeft operand
  | .binaryOp _ .assignment _ right => wordsLeft right - 1
  | .binaryOp _ .functionCall _ right => wordsLeft right
  | .binaryOp _ .comma left right => wordsLeft left + wordsLeft right
  | .binaryOp _ _ left right => wordsLeft left + wordsLeft right - 1
  | _ => 1

/-- The change of the depth by straight code. -/
def netOf (code : List Instr) : ℤ := (code.map Instr.net).sum

lemma netOf_append (a b : List Instr) : netOf (a ++ b) = netOf a + netOf b := by
  simp [netOf]

@[simp] lemma netOf_nil : netOf [] = 0 := rfl

@[simp] lemma netOf_singleton (i : Instr) : netOf [i] = i.net := by simp [netOf]

@[simp] lemma netOf_castCode (a b : Rep) : netOf (castCode a b) = 0 := by
  unfold castCode
  split
  · rfl
  · rfl

lemma net_valueOp {r : Rep} {operator : Operator} {op : PlainOp}
    (h : valueOp r operator = some op) : (Instr.plain op).net = -1 := by
  cases r <;> cases operator <;> cases h <;> rfl

/-- A binary operation of a value leaves one word for two. -/
lemma wordsLeft_operation {r : Rep} {operator : Operator} {op : PlainOp}
    (h : valueOp r operator = some op) (t : StaticType) (left right : Expr) :
    wordsLeft (.binaryOp t operator left right) = wordsLeft left + wordsLeft right - 1 := by
  cases operator <;> first | rfl | (cases r <;> cases h)

lemma netOf_operandCode {vars : Vars} {e : Expr} {r : Rep} (h : operandRep vars e = some r) :
    netOf (operandCode vars e) = wordsLeft e := by
  induction e generalizing r with
  | literalInt value => rfl
  | literalFloat value => rfl
  | ident t name =>
    obtain ⟨var, hvar, -⟩ := operandRep_ident h
    simp only [operandCode, hvar]
    rfl
  | group t expr ih => exact ih h
  | unaryOp t operator operand ih =>
    rw [operandCode, netOf_append, ih (operandRep_unaryOp h).2]
    exact add_zero _
  | binaryOp t operator left right ihl ihr =>
    obtain ⟨a, b, ha, hb, ⟨rfl, -, -, -⟩ | ⟨hne, -, op, hop⟩⟩ := operandRep_binaryOp h
    · simp only [operandCode, if_true, netOf_append, netOf_castCode, netOf_singleton, ihr hb]
      exact congrArg (· + (-1 : ℤ)) (add_zero _)
    · simp only [operandCode, if_neg hne, ha, hb, Option.getD_some, hop, netOf_append,
        netOf_castCode, netOf_singleton, net_valueOp hop, ihl ha, ihr hb, wordsLeft_operation hop]
      ring
  | specialCast t opcode operand => cases h
  | other t => cases h

/-- The code of an expression changes the depth by the words that it leaves. -/
lemma netOf_exprCode (callIndex : CStr → UInt16) {vars : Vars} {e : Expr}
    (hreg : RegularExpr vars e) :
    ReadsDeclared vars e → netOf (exprCode callIndex vars e) = wordsLeft e := by
  refine RegularExpr.forms (P := fun vars e =>
    ReadsDeclared vars e → netOf (exprCode callIndex vars e) = wordsLeft e) ?_ ?_ ?_ ?_ ?_ ?_ ?_ hreg
  · intro vars t name hmissing h
    simp only [ReadsDeclared, hmissing] at h
    cases h
  · intro vars e r hr hcode _ _ _
    rw [hcode, netOf_operandCode hr]
  · exact fun _ ih => ih
  · intro vars t e _ ih h
    rw [exprCode, netOf_append, ih h, wordsLeft]
    split
    · exact add_zero _
    · exact add_zero _
  · intro vars t t' name right r hr _
    have hright := netOf_operandCode hr
    rw [exprCode, assignCode, wordsLeft]
    split
    · simp only [netOf_append, netOf_castCode, netOf_singleton, hright, add_zero]
      rfl
    · simp only [netOf_append, netOf_singleton, hright]
      rfl
  · intro vars t t' t'' name args _ ih h
    rw [exprCode, netOf_append, ih h.2, wordsLeft, wordsLeft]
    exact add_zero _
  · intro vars t left right _ _ ihl ihr h
    have hleft : ReadsDeclared vars left := by
      rcases h.1 with hop | hop | hleft
      · cases hop
      · cases hop
      · exact hleft
    rw [exprCode, netOf_append, ihl hleft, ihr h.2, wordsLeft]

/-! ## Statements -/

/-- The words that the statements leave on the way that the outcomes of their conditions take:
`if` takes one of its blocks, and a loop goes round as long as the outcome is true. The jump
behind a condition takes its word. -/
inductive PathWords : Stat → List Bool → ℤ → Prop
  | nil : PathWords .nil [] 0
  | other {next : Stat} : PathWords (.other next) [] 0
  | notScope {stat : Stat} : PathWords (.notScope stat) [] 0
  | expr {e : Expr} {next : Stat} {outcomes : List Bool} {n : ℤ} :
      PathWords next outcomes n → PathWords (.expr e next) outcomes (wordsLeft e + n)
  | ifTrue {e : Expr} {trueScope falseScope next : Stat} {inside outcomes : List Bool} {m n : ℤ} :
      PathWords trueScope inside m → PathWords next outcomes n →
      PathWords (.ifElse e trueScope falseScope next) (true :: (inside ++ outcomes))
        (wordsLeft e - 1 + m + n)
  | ifFalse {e : Expr} {trueScope falseScope next : Stat} {inside outcomes : List Bool} {m n : ℤ} :
      PathWords falseScope inside m → PathWords next outcomes n →
      PathWords (.ifElse e trueScope falseScope next) (false :: (inside ++ outcomes))
        (wordsLeft e - 1 + m + n)
  | whileRound {e : Expr} {loopScope next : Stat} {inside outcomes : List Bool} {m n : ℤ} :
      PathWords loopScope inside m → PathWords (.while e loopScope next) outcomes n →
      PathWords (.while e loopScope next) (true :: (inside ++ outcomes)) (wordsLeft e - 1 + m + n)
  | whileDone {e : Expr} {loopScope next : Stat} {outcomes : List Bool} {n : ℤ} :
      PathWords next outcomes n →
      PathWords (.while e loopScope next) (false :: outcomes) (wordsLeft e - 1 + n)

/-- The outcomes say where the way through the statements ends, and what it leaves. -/
lemma PathWords.unique {stat : Stat} {outcomes₁ outcomes₂ rest₁ rest₂ : List Bool} {n₁ n₂ : ℤ}
    (h₁ : PathWords stat outcomes₁ n₁) (h₂ : PathWords stat outcomes₂ n₂)
    (heq : outcomes₁ ++ rest₁ = outcomes₂ ++ rest₂) :
    outcomes₁ = outcomes₂ ∧ n₁ = n₂ := by
  induction h₁ generalizing outcomes₂ n₂ rest₁ rest₂ with
  | nil =>
    cases h₂
    exact ⟨rfl, rfl⟩
  | other =>
    cases h₂
    exact ⟨rfl, rfl⟩
  | notScope =>
    cases h₂
    exact ⟨rfl, rfl⟩
  | expr _ ih =>
    cases h₂ with
    | expr hnext =>
      obtain ⟨rfl, rfl⟩ := ih hnext heq
      exact ⟨rfl, rfl⟩
  | ifTrue _ _ ihi ih =>
    cases h₂ with
    | ifTrue hinside hnext =>
      simp only [List.cons_append, List.append_assoc, List.cons.injEq, true_and] at heq
      obtain ⟨rfl, rfl⟩ := ihi hinside heq
      obtain ⟨rfl, rfl⟩ := ih hnext (List.append_cancel_left heq)
      exact ⟨rfl, rfl⟩
    | ifFalse => cases heq
  | ifFalse _ _ ihi ih =>
    cases h₂ with
    | ifTrue => cases heq
    | ifFalse hinside hnext =>
      simp only [List.cons_append, List.append_assoc, List.cons.injEq, true_and] at heq
      obtain ⟨rfl, rfl⟩ := ihi hinside heq
      obtain ⟨rfl, rfl⟩ := ih hnext (List.append_cancel_left heq)
      exact ⟨rfl, rfl⟩
  | whileRound _ _ ihi ih =>
    cases h₂ with
    | whileRound hinside hagain =>
      simp only [List.cons_append, List.append_assoc, List.cons.injEq, true_and] at heq
      obtain ⟨rfl, rfl⟩ := ihi hinside heq
      obtain ⟨rfl, rfl⟩ := ih hagain (List.append_cancel_left heq)
      exact ⟨rfl, rfl⟩
    | whileDone => cases heq
  | whileDone _ ih =>
    cases h₂ with
    | whileRound => cases heq
    | whileDone hnext =>
      simp only [List.cons_append, List.cons.injEq, true_and] at heq
      obtain ⟨rfl, rfl⟩ := ih hnext heq
      exact ⟨rfl, rfl⟩

/-- Expression statements leave nothing, and conditions leave the word that is tested. -/
def Neutral : Stat → Prop
  | .expr e next => wordsLeft e = 0 ∧ Neutral next
  | .ifElse e trueScope falseScope next =>
    wordsLeft e = 1 ∧ Neutral trueScope ∧ Neutral falseScope ∧ Neutral next
  | .while e loopScope next => wordsLeft e = 1 ∧ Neutral loopScope ∧ Neutral next
  | _ => True

lemma PathWords.neutral {stat : Stat} {outcomes : List Bool} {n : ℤ}
    (h : PathWords stat outcomes n) (hneutral : Neutral stat) : n = 0 := by
  induction h with
  | nil => rfl
  | other => rfl
  | notScope => rfl
  | expr _ ih => rw [hneutral.1, ih hneutral.2, add_zero]
  | ifTrue _ _ ihi ih =>
    rw [hneutral.1, ihi hneutral.2.1, ih hneutral.2.2.2]
    rfl
  | ifFalse _ _ ihi ih =>
    rw [hneutral.1, ihi hneutral.2.2.1, ih hneutral.2.2.2]
    rfl
  | whileRound _ _ ihi ih =>
    rw [hneutral.1, ihi hneutral.2.1, ih hneutral]
    rfl
  | whileDone _ ih =>
    rw [hneutral.1, ih hneutral.2.2]
    rfl

/-- The log and the depth of the stack are in `D`. -/
def Logs (D : List Bool → ℤ → Prop) (s : Frame × List Bool) : Prop := D s.2 s.1.stack.length

/-- In front of the statements: every way through them leads to `D`. -/
def Ahead (D : List Bool → ℤ → Prop) (stat : Stat) (log : List Bool) (depth : ℤ) : Prop :=
  ∀ outcomes n, PathWords stat outcomes n → D (log ++ outcomes) (depth + n)

/-- Code without jumps changes the depth by its instructions and logs nothing. -/
lemma line_logs {code : List Instr} (hjump : ∀ i ∈ code, ∀ n, i ≠ .jez n ∧ i ≠ .jmp n ∧ i ≠ .rjmp n)
    (D : List Bool → ℤ → Prop) : (loggedIsa host).Line anyStop
      (Logs fun log depth => D log (depth + netOf code)) code (Logs D) := by
  induction code with
  | nil => exact JumpIsa.line_nil fun s h => by simpa [Logs] using h
  | cons i code ih =>
    refine JumpIsa.Line.append (a := [i]) (JumpIsa.line_instr fun s hs => ?_)
      (ih fun j hj => hjump j (by simp [hj]))
    have hi := hjump i (by simp)
    have hout : i.outcome s.1 = [] := by
      cases i with
      | jez n => exact absurd rfl (hi n).1
      | _ => rfl
    rw [JumpIsa.effect_logged, hout, List.append_nil]
    cases hexec : (vmIsa host).exec i s.1 with
    | error e => trivial
    | ok r =>
      refine ⟨straight_of_ne_jump hi _ _ _ hexec, ?_⟩
      have hsum : netOf (i :: code) = i.net + netOf code := rfl
      simp only [Logs] at hs ⊢
      rw [exec_length hexec, add_assoc, ← hsum]
      exact hs

lemma line_exprLogs (callIndex : CStr → UInt16) {vars : Vars} {e : Expr}
    (hreg : RegularExpr vars e) (hdeclared : ReadsDeclared vars e) (D : List Bool → ℤ → Prop) :
    (loggedIsa host).Line anyStop (Logs fun log depth => D log (depth + wordsLeft e))
      (exprCode callIndex vars e) (Logs D) := by
  rw [← netOf_exprCode callIndex hreg hdeclared]
  exact line_logs (fun i hi => exprCode_ne_jump callIndex hi) D

/-- The word of a condition is taken, and its outcome logged. -/
lemma effect_logged_jez {D T F : List Bool → ℤ → Prop} {n : UInt16} {s : Frame × List Bool}
    (h : Logs D s) (htrue : ∀ log depth, D log depth → T (log ++ [true]) (depth - 1))
    (hfalse : ∀ log depth, D log depth → F (log ++ [false]) (depth - 1)) :
    JumpIsa.Effect anyStop
      (fun u d => (d = 3 ∧ Logs T u) ∨ (d = 3 + n.toNat ∧ Logs F u))
      ((loggedIsa host).exec (.jez n) s) := by
  obtain ⟨⟨stack, size, locals⟩, log⟩ := s
  rw [JumpIsa.effect_logged, exec_jez_stack]
  cases stack with
  | nil => trivial
  | cons w rest =>
    have hdepth : ((w :: rest).length : ℤ) - 1 = rest.length := by simp
    by_cases hw : w.bits = 0
    · have hF := hfalse _ _ h
      simp only [hdepth] at hF
      refine .inr ⟨by rw [if_pos hw], ?_⟩
      simpa [Logs, Instr.outcome, hw] using hF
    · have hT := htrue _ _ h
      simp only [hdepth] at hT
      have hbit : (w.bits != 0) = true := bne_iff_ne.mpr hw
      refine .inl ⟨by rw [if_neg hw, add_zero], ?_⟩
      simp only [Logs, Instr.outcome, hbit]
      exact hT

/-- The chunks of a scope take one of the ways through it. -/
theorem seq_ahead {callIndex : CStr → UInt16} {vars : Vars} {stat : Stat}
    (hreg : RegularScope callIndex vars stat) (hdeclared : EachExpr ReadsDeclared vars stat)
    (D : List Bool → ℤ → Prop) : (loggedIsa host).Seq anyStop (Logs (Ahead D stat))
      (scopeCode callIndex vars stat) (Logs D) := by
  have hjmp : ∀ (n : UInt16) (D : List Bool → ℤ → Prop) s, Logs D s → JumpIsa.Effect anyStop
      (fun u d => d = 3 + n.toNat ∧ Logs D u) ((loggedIsa host).exec (.jmp n) s) := by
    intro n D s h
    rw [JumpIsa.effect_logged, exec_jmp]
    exact ⟨rfl, by simpa [Logs, Instr.outcome] using h⟩
  have hrjmp : ∀ (n : UInt16) (D : List Bool → ℤ → Prop) s, Logs D s → JumpIsa.Effect anyStop
      (fun u d => d = 3 - n.toNat ∧ Logs D u) ((loggedIsa host).exec (.rjmp n) s) := by
    intro n D s h
    rw [JumpIsa.effect_logged, exec_rjmp]
    exact ⟨rfl, by simpa [Logs, Instr.outcome] using h⟩
  induction stat generalizing vars D with
  | expr e next ih =>
    refine JumpIsa.Seq.append ((line_exprLogs callIndex hreg.1 hdeclared.1 _).mono ?_ fun _ h => h)
      (ih hreg.2 hdeclared.2 D)
    intro s hs outcomes n hnext
    rw [add_assoc]
    exact hs _ _ hnext.expr
  | ifElse e trueScope falseScope next iht ihf ih =>
    obtain ⟨hexprR, htrueR, hfalseR, htrueSize, hfalseSize, hnextR⟩ := hreg
    obtain ⟨hexpr, htrue, hfalse, hnext⟩ := hdeclared
    -- behind the condition: the word that is tested is still there
    let Both : List Bool → ℤ → Prop := fun log depth =>
      Ahead (Ahead D next) trueScope (log ++ [true]) (depth - 1) ∧
        Ahead (Ahead D next) falseScope (log ++ [false]) (depth - 1)
    refine JumpIsa.Seq.append (Q := Logs Both)
      ((line_exprLogs callIndex hexprR hexpr _).mono ?_ fun _ h => h) ⟨_, ?_, ih hnextR hnext D⟩
    · intro s hs
      constructor
      · intro inside m hinside outcomes n hnext
        have hall := hs _ _ (hinside.ifTrue hnext)
        convert hall using 1
        · simp
        · ring
      · intro inside m hinside outcomes n hnext
        have hall := hs _ _ (hinside.ifFalse hnext)
        convert hall using 1
        · simp
        · ring
    · exact block_ifCode logged_sizeOf htrueSize hfalseSize
        (fun _ s h => effect_logged_jez h (fun _ _ h => h.1) fun _ _ h => h.2)
        (fun n s h => hjmp n _ s h) (JumpIsa.Seq.flatten (iht htrueR htrue _))
        (JumpIsa.Seq.flatten (ihf hfalseR hfalse _))
  | «while» e loopScope next ihl ih =>
    obtain ⟨hexprR, hloopR, hsize, hnextR⟩ := hreg
    obtain ⟨hexpr, hloop, hnext⟩ := hdeclared
    -- behind the condition: one more round, or the statements behind the loop
    let Both : List Bool → ℤ → Prop := fun log depth =>
      Ahead (Ahead D (.while e loopScope next)) loopScope (log ++ [true]) (depth - 1) ∧
        Ahead D next (log ++ [false]) (depth - 1)
    refine ⟨_, ?_, ih hnextR hnext D⟩
    refine block_whileCode (C := Logs Both) logged_sizeOf hsize ?_
      (fun _ s h => effect_logged_jez h (fun _ _ h => h.1) fun _ _ h => h.2)
      (JumpIsa.Seq.flatten (ihl hloopR hloop _)) (fun n s h => hrjmp n _ s h)
    refine ((line_exprLogs callIndex hexprR hexpr _).mono ?_ fun _ h => h).block
    intro s hs
    constructor
    · intro inside m hinside outcomes n hagain
      have hall := hs _ _ (hinside.whileRound hagain)
      convert hall using 1
      · simp
      · ring
    · intro outcomes n hnext
      have hall := hs _ _ hnext.whileDone
      convert hall using 1
      · simp
      · ring
  | nil => exact fun s hs => by simpa [Logs] using hs _ _ .nil
  | other next => exact fun s hs => by simpa [Logs] using hs _ _ .other
  | notScope stat => exact fun s hs => by simpa [Logs] using hs _ _ .notScope

/-! ## Executions -/

/-- A session executes the chunks one after the other, and these are the outcomes of the
conditional jumps on its way. -/
inductive ChunksTake (host : Host) (vm : Vm) :
    Frame → List (List UInt8) → List Bool → Frame → Prop
  | nil {frame : Frame} : ChunksTake host vm frame [] [] frame
  | cons {frame frame' frame'' : Frame} {code : List UInt8} {chunks : List (List UInt8)}
      {outcomes rest : List Bool} :
      VmTakes host vm frame code outcomes frame' → ChunksTake host vm frame' chunks rest frame'' →
      ChunksTake host vm frame (code :: chunks) (outcomes ++ rest) frame''

lemma sessionEnds_iff_takes {vm vm' : Vm} {frame frame' : Frame} {chunks : List (List UInt8)} :
    SessionEnds host vm frame (chunks.map .execute) vm' frame' ↔
      vm' = vm ∧ ∃ outcomes, ChunksTake host vm frame chunks outcomes frame' := by
  induction chunks generalizing frame with
  | nil =>
    constructor
    · intro hends
      cases hends
      exact ⟨rfl, [], .nil⟩
    · rintro ⟨rfl, outcomes, htake⟩
      cases htake
      exact .nil
  | cons code chunks ih =>
    constructor
    · intro hends
      cases hends with
      | execute hruns hends =>
        obtain ⟨outcomes, htakes⟩ := vmRuns_iff_takes.mp hruns
        obtain ⟨rfl, rest, hrest⟩ := ih.mp hends
        exact ⟨rfl, _, .cons htakes hrest⟩
    · rintro ⟨rfl, outcomes, htake⟩
      cases htake with
      | cons htakes hrest =>
        exact .execute (vmRuns_iff_takes.mpr ⟨_, htakes⟩) (ih.mpr ⟨rfl, _, hrest⟩)

/-- Chunks that are executed one after the other end in the assertion behind them. -/
lemma chunksTake_seq {P Q : Frame × List Bool → Prop} {chunks : List (List Instr)} {vm : Vm}
    {frame frame' : Frame} {log outcomes : List Bool} (h : (loggedIsa host).Seq anyStop P chunks Q)
    (htake : ChunksTake host vm frame (chunks.map encodeAll) outcomes frame')
    (hP : P (frame, log)) : Q (frame', log ++ outcomes) := by
  induction chunks generalizing P frame log outcomes with
  | nil =>
    cases htake
    rw [List.append_nil]
    exact h _ hP
  | cons code chunks ih =>
    obtain ⟨R, hblock, hrest⟩ := h
    cases htake with
    | cons htakes htake =>
      rw [← List.append_assoc]
      exact ih hrest htake (vmTakes_block hblock hP htakes)

/-- The depth has changed by the words on the way that the outcomes take through the statements;
not at all if expression statements leave nothing and conditions one word. -/
def LeavesAlong (stat : Stat) (outcomes : List Bool) (frame frame' : Frame) : Prop :=
  (∃ n, PathWords stat outcomes n ∧ (frame'.stack.length : ℤ) = frame.stack.length + n) ∧
    (Neutral stat → frame'.stack.length = frame.stack.length)

/-- A statement whose names are declared and whose jumps fit: whatever frame its code is executed
in, as one piece or chunk by chunk, if the execution ends then the depth of the stack has changed
by the words on the way that it has taken. -/
theorem statement_depth {fuel : ℕ} {stat : Stat} {vars : Vars} {s s' : CompilerState} {ret : ℤ}
    (hp : stat.single.Parsed) (hreads : EachExpr ReadsWords vars stat.single)
    (hdeclared : EachExpr ReadsDeclared vars stat.single) (hfits : JumpsFit vars stat.single)
    (hvis : s.chain.Visible vars) (hcompile : compileStatement fuel stat s = .ok ret s') :
    ∃ chunks account newVars, Advanced s chunks account newVars s' ∧
      ∀ (host : Host) (vm : Vm) (frame frame' : Frame),
        (VmRuns host vm frame chunks.flatten frame' →
          ∃ outcomes, VmTakes host vm frame chunks.flatten outcomes frame' ∧
            LeavesAlong stat.single outcomes frame frame') ∧
        ∀ vm', SessionEnds host vm frame (chunks.map .execute) vm' frame' →
          ∃ outcomes, ChunksTake host vm frame chunks outcomes frame' ∧
            LeavesAlong stat.single outcomes frame frame' := by
  have hscope := compileStatement_single hcompile
  have hreg := (regularScope_callIndex _ s.callIndex vars stat.single).mp
    ((regularScope_iff vars stat.single).mpr ⟨compileScope_accepted hp hreads hvis hscope, hfits⟩)
  obtain ⟨⟨newVars, hadv⟩, -⟩ := compileScope_coded stat.single hp.untraced hreg hvis hscope
  refine ⟨_, _, newVars, hadv, fun host vm frame frame' => ?_⟩
  have hseq : (loggedIsa host).Seq anyStop _ _ _ := seq_ahead hreg hdeclared fun log depth =>
    ∃ n, PathWords stat.single log n ∧ depth = frame.stack.length + n
  have hstart : Logs (Ahead (fun log depth =>
      ∃ n, PathWords stat.single log n ∧ depth = frame.stack.length + n) stat.single)
      (frame, []) := fun outcomes n hpath => ⟨n, hpath, rfl⟩
  have hleaves : ∀ outcomes, (∃ n, PathWords stat.single outcomes n ∧
      (frame'.stack.length : ℤ) = frame.stack.length + n) →
      LeavesAlong stat.single outcomes frame frame' := by
    rintro outcomes ⟨n, hpath, hsum⟩
    refine ⟨⟨n, hpath, hsum⟩, fun hneutral => ?_⟩
    rw [hpath.neutral hneutral, add_zero] at hsum
    exact_mod_cast hsum
  constructor
  · intro hruns
    obtain ⟨outcomes, htakes⟩ := vmRuns_iff_takes.mp hruns
    refine ⟨outcomes, htakes, hleaves outcomes ?_⟩
    rw [flatten_scopeChunks] at htakes
    exact vmTakes_block (JumpIsa.Seq.flatten hseq) hstart htakes
  · intro vm' hends
    obtain ⟨-, outcomes, htake⟩ := sessionEnds_iff_takes.mp hends
    exact ⟨outcomes, htake, hleaves outcomes (chunksTake_seq hseq htake hstart)⟩

/-- `while x { if x == 1 { f(x) } else { } x = x - 1 }` -/
def callingLoop : Stat :=
  let x : Expr := .ident .unknwn [120]
  .while x
    (.ifElse (.binaryOp .unknwn .equalTo x (.literalInt 1))
      (.expr (.binaryOp .unknwn .functionCall (.ident .unknwn [102]) (.group .unknwn x)) .nil) .nil
      (.expr (.binaryOp .unknwn .assignment x
        (.binaryOp .unknwn .subtraction x (.literalInt 1))) .nil)) .nil

/-- `x = 2` -/
def setTwo : Stat :=
  .expr (.binaryOp .unknwn .assignment (.ident .unknwn [120]) (.literalInt 2)) .nil

def callingEvents : List Event :=
  [.register [102, 40, 73, 41, 73] [0, 2, 0, 4, opcodeIload, 0, opcodeIsave, 1],
    .execute [opcodeIconst, 0, 0, 0, 2], .execute [opcodeIsave, 0]]

def callingCode : List UInt8 :=
  [opcodeIload, 0, opcodeJez, 0, 32, opcodeIload, 0, opcodeIconst, 0, 0, 0, 1, opcodeIeq,
    opcodeJez, 0, 8, opcodeIload, 0, opcodeCall, 0, 0, opcodeJmp, 0, 0,
    opcodeIload, 0, opcodeIconst, 0, 0, 0, 1, opcodeIsub, opcodeIsave, 0, opcodeRjmp, 0, 37]

/-- Behind `sampleFunc` and `x = 2` the loop goes round twice, and calls `f` in the second round: the
argument of the call is left. -/
theorem statement_depth_calling : ∃ s s' chunks account newVars vm frame frame',
    compileProgram 3 [.func sampleFunc, .stat setTwo] (compilerInit true) = .ok () s ∧
      compileStatement 3 callingLoop s = .ok 0 s' ∧ Advanced s chunks account newVars s' ∧
      SessionEnds zeroHost vmStaticInit (rootFrame zeroHost) s.events vm frame ∧
      VmTakes zeroHost vm frame chunks.flatten [true, false, true, true, false] frame' ∧
      PathWords callingLoop.single [true, false, true, true, false] 1 ∧
      frame'.stack.length = frame.stack.length + 1 := by
  have hcompiled : ((okResult (compileProgram 3 [.func sampleFunc, .stat setTwo]
      (compilerInit true))).bind fun r => (okResult (compileStatement 3 callingLoop r.2)).map
        fun r' => (r.2.events, r'.1, r'.2.events))
      = some (callingEvents, 0, callingEvents ++ [.execute callingCode]) := by decide +kernel
  have hexecuted : ((sessionStates zeroHost 9 vmStaticInit (rootFrame zeroHost) callingEvents).bind
      fun r => (vmStates zeroHost r.2.1 50 (vmStart r.2.2 callingCode)).bind fun states =>
        states.getLast?.map fun last => (states.dropLast.flatMap MachineState.outcome,
          r.2.2.stack.length, last.current.frame.stack.length))
      = some ([true, false, true, true, false], 0, 1) := by decide +kernel
  obtain ⟨⟨visited, vm, frame⟩, hsession, hexecuted⟩ := Option.bind_eq_some_iff.mp hexecuted
  obtain ⟨states, hstates, hexecuted⟩ := Option.bind_eq_some_iff.mp hexecuted
  obtain ⟨last, hlast, hexecuted⟩ := Option.map_eq_some_iff.mp hexecuted
  simp only [Prod.mk.injEq] at hexecuted
  obtain ⟨houtcomes, hbefore, hbehind⟩ := hexecuted
  simp only [Option.bind_eq_some_iff, Option.map_eq_some_iff, Prod.exists, okResult_eq_some,
    Prod.mk.injEq] at hcompiled
  obtain ⟨_, s, hprefix, ret, s', hcompile, hevents, rfl, hevents'⟩ := hcompiled
  -- the loop is compiled at root, with `x` visible
  obtain ⟨_, s₁, hfunc, hrest⟩ := compileProgram_cons hprefix
  obtain ⟨_, s₂, hset, hnil⟩ := compileProgram_cons hrest
  obtain ⟨-, rfl⟩ := estate_pure_eq_ok.mp hnil
  have hencodable : EncodableProgram [.func sampleFunc, .stat setTwo] :=
    ⟨by decide, by decide, by decide⟩
  obtain ⟨-, hregS, -⟩ := hencodable.regular hprefix
  obtain ⟨-, huS, -⟩ := hencodable.parsed.untraced
  obtain ⟨hroot, -⟩ :=
    compileStatement_atRoot ((atRoot_init true).compileFunc hfunc) huS hregS hset
  obtain ⟨chunks, account, newVars, hadv, hruns⟩ := statement_depth (by decide) (by decide)
    (by decide) (by decide +kernel) hroot.visible hcompile
  have hchunks : chunks = [callingCode] := by
    obtain ⟨emitter, events, m, hem, rfl⟩ := hadv
    rw [hroot.emitter.mpr rfl, emitChunks_unbuffered] at hem
    cases hem
    change _ ++ chunks.map Event.execute = _ at hevents'
    rw [hevents, List.append_cancel_left_eq] at hevents'
    exact List.map_injective_iff.mpr (fun x y h => Event.execute.inj h) hevents'
  have htakes := vmTakes_of_states hstates hlast
  rw [show callingCode = chunks.flatten by rw [hchunks]; rfl] at htakes
  obtain ⟨outcomes, htakes', ⟨n, hpath, hsum⟩, -⟩ :=
    (hruns zeroHost vm frame _).1 (vmRuns_iff_takes.mpr ⟨_, htakes⟩)
  obtain ⟨rfl, -⟩ := htakes.unique htakes'
  rw [houtcomes] at htakes hpath
  rw [hbefore, hbehind] at hsum
  obtain rfl : n = 1 := by simpa using hsum.symm
  refine ⟨s₂, s', chunks, account, newVars, vm, frame, _, hprefix, hcompile, hadv, ?_, htakes,
    hpath, by rw [hbefore, hbehind]⟩
  rw [hevents]
  exact (sessionEnds_iff hsession).mpr rfl

/-- The statement `1` leaves its word on the stack. -/
theorem literal_not_neutral : ∃ s' code frame',
    compileStatement 1 (.expr (.literalInt 1) .nil) (compilerInit true) = .ok 0 s' ∧
      s'.events = [.execute code] ∧
      VmRuns zeroHost vmStaticInit (rootFrame zeroHost) code frame' ∧
      frame'.stack.length ≠ (rootFrame zeroHost).stack.length :=
  ⟨_, [opcodeIconst, 0, 0, 0, 1], pushedOne, rfl, rfl, vmRuns_pushOne, by decide⟩

end PhantomShell
