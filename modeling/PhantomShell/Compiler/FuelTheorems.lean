import PhantomShell.Compiler.Flow
import PhantomShell.Compiler.InterningTheorems
import PhantomShell.Execution

/-!
# The fuel of the compiler

The fuel only bounds the depth of the calls and the resizes of the tables: what the compiler
accepts it compiles in the same way with more fuel (`compileProgram_more`). So a program has one
list of events (`compiledEvents_unique`), and where the session of these events ends, the states
that it passes can be listed (`passes_iff`).
-/

namespace PhantomShell

variable {host : Host}

section

variable {compile compile' : Expr → CompileM ℤ} (h : ∀ e, Below (compile e) (compile' e))
include h

lemma compileUnaryOp_more (operator : Operator) (operand : Expr) :
    Below (compileUnaryOp compile operator operand) (compileUnaryOp compile' operator operand) :=
  .ite (.refl _) (.bind (h operand) fun _ => .refl _)

lemma compileSpecialCast_more (opcode : UInt8) (operand : Expr) :
    Below (compileSpecialCast compile opcode operand) (compileSpecialCast compile' opcode operand) :=
  .bind (h operand) fun _ => .refl _

lemma compileBinaryOpAssignment_more (left right : Expr) :
    Below (compileBinaryOpAssignment compile left right)
      (compileBinaryOpAssignment compile' left right) := by
  refine .bind (.refl _) fun right' => ?_
  cases left with
  | ident t name => exact .bind (.refl _) fun _ => .bind (h right') fun _ => .refl _
  | _ => exact .refl _

lemma compileArgs_more (args : Expr) : Below (compileArgs compile args) (compileArgs compile' args) := by
  induction args with
  | binaryOp t operator left right _ ih =>
    exact .ite (.bind (h left) fun _ => ih) (.refl _)
  | _ => exact .bind (h _) fun _ => .refl _

lemma compileFunctionCall_more (left right : Expr) :
    Below (compileFunctionCall compile left right) (compileFunctionCall compile' left right) := by
  cases left with
  | ident t name =>
    refine .bind (.refl _) fun s => ?_
    cases hashmapGet id s.globalFuncMap name with
    | none => exact .refl _
    | some funcDesc =>
      refine .bind (.refl _) fun index => ?_
      cases right with
      | group t args => exact .bind (compileArgs_more h args) fun _ => .refl _
      | _ => exact .refl _
  | _ => exact .refl _

lemma compileBinaryOp_more (staticType : StaticType) (operator : Operator) (left right : Expr) :
    Below (compileBinaryOp compile staticType operator left right)
      (compileBinaryOp compile' staticType operator left right) := by
  refine .ite (compileBinaryOpAssignment_more h left right)
    (.ite (compileFunctionCall_more h left right) (.bind (.refl _) fun node => ?_))
  cases node with
  | binaryOp t operator' left' right' =>
    exact .ite (.refl _) (.bind (h left') fun _ => .ite (.refl _) (.bind (h right') fun _ => .refl _))
  | _ => exact .refl _

end

lemma compileExpression_more {fuel fuel' : ℕ} (hle : fuel ≤ fuel') (e : Expr) :
    Below (compileExpression fuel e) (compileExpression fuel' e) := by
  induction fuel generalizing fuel' e with
  | zero => exact below_throw _ _
  | succ fuel ih =>
    obtain ⟨fuel', rfl⟩ : ∃ n, fuel' = n + 1 := ⟨fuel' - 1, by omega⟩
    have h := fun e => ih (Nat.le_of_succ_le_succ hle) e
    cases e with
    | group t expr => exact h expr
    | unaryOp t operator operand => exact compileUnaryOp_more h operator operand
    | binaryOp t operator left right => exact compileBinaryOp_more h t operator left right
    | specialCast t opcode operand => exact compileSpecialCast_more h opcode operand
    | _ => exact .refl _

lemma compileChild_more {bytes stackSize : ℕ} {x y : CompileM Unit} (h : Below x y) :
    Below (compileChild bytes stackSize x) (compileChild bytes stackSize y) :=
  .bind (.refl _) fun _ => .bind (.refl _) fun _ => .bind h fun _ => .refl _

lemma compileIfStatement_more {fuel fuel' : ℕ} (hle : fuel ≤ fuel') (e : Expr)
    {t t' f f' : CompileM Unit} (ht : Below t t') (hf : Below f f') :
    Below (compileIfStatement (compileExpression fuel) e t f)
      (compileIfStatement (compileExpression fuel') e t' f') :=
  .bind (compileExpression_more hle e) fun _ => .bind (.refl _) fun _ =>
    .bind (compileChild_more ht) fun _ => .bind (compileChild_more hf) fun _ => .refl _

lemma compileWhileStatement_more {fuel fuel' : ℕ} (hle : fuel ≤ fuel') (e : Expr)
    {b b' : CompileM Unit} (hb : Below b b') :
    Below (compileWhileStatement (compileExpression fuel) e b)
      (compileWhileStatement (compileExpression fuel') e b') :=
  .bind (.refl _) fun _ => .bind (.refl _) fun _ => .bind (.refl _) fun _ =>
    .bind (compileExpression_more hle e) fun _ => .bind (.refl _) fun _ => .bind (.refl _) fun _ =>
      .bind (compileChild_more hb) fun _ => .refl _

lemma compileScope_more {fuel fuel' : ℕ} (hle : fuel ≤ fuel') (stat : Stat) :
    Below (compileScope fuel stat) (compileScope fuel' stat) := by
  induction stat with
  | expr e next ih => exact .bind (compileExpression_more hle e) fun _ => ih
  | ifElse e trueScope falseScope next iht ihf ih =>
    exact .bind (compileIfStatement_more hle e iht ihf) fun _ => ih
  | «while» e loopScope next ihl ih =>
    exact .bind (compileWhileStatement_more hle e ihl) fun _ => ih
  | _ => exact .refl _

lemma compileStatement_more {fuel fuel' : ℕ} (hle : fuel ≤ fuel') (stat : Stat) :
    Below (compileStatement fuel stat) (compileStatement fuel' stat) := by
  cases stat with
  | expr e next => exact compileExpression_more hle e
  | ifElse e trueScope falseScope next =>
    exact compileIfStatement_more hle e (compileScope_more hle _) (compileScope_more hle _)
  | «while» e loopScope next => exact compileWhileStatement_more hle e (compileScope_more hle _)
  | _ => exact .refl _

lemma compilerDefineFunc_more {fuel fuel' : ℕ} (hle : fuel ≤ fuel') (node : DeclFunc) :
    Below (compilerDefineFunc fuel node) (compilerDefineFunc fuel' node) := by
  refine .bind (.refl _) fun s => .ite (.refl _) (.bind (.refl _) fun argTypes => ?_)
  cases node.retType with
  | none => exact .refl _
  | some retType =>
    refine .bind (.refl _) fun ret => .ite (.refl _) (.bind (.refl _) fun s => ?_)
    intro t desc t'
    cases hput : hashmapPut id (fun _ => true) fuel s.globalFuncMap node.name
      (⟨node.name, node.args, node.name ++ 40 :: (argTypes.flatten ++ 41 :: ret)⟩ : FuncDesc) with
    | none => exact fun h => (estate_throw_eq_ok.mp h).elim
    | some r =>
      rw [hashmapPut_mono hle hput]
      exact fun h => h

lemma compileFunc_more {fuel fuel' : ℕ} (hle : fuel ≤ fuel') (node : DeclFunc) :
    Below (compileFunc fuel node) (compileFunc fuel' node) := by
  have hbody : Below (compileFuncBody fuel node) (compileFuncBody fuel' node) :=
    .bind (.refl _) fun _ => .bind (.refl _) fun _ => .bind (.refl _) fun _ =>
      .bind (compileScope_more hle node.body) fun _ => .refl _
  exact .bind (compilerDefineFunc_more hle node) fun _ => .bind hbody fun _ =>
    .bind (.refl _) fun _ => .bind (fun _ _ _ => constPoolRegisterValue_mono hle) fun _ => .refl _

/-- More fuel does not change what the compiler makes of a program. -/
theorem compileProgram_more {fuel fuel' : ℕ} (hle : fuel ≤ fuel') (program : List TopLevel) :
    Below (compileProgram fuel program) (compileProgram fuel' program) := by
  induction program with
  | nil => exact .refl _
  | cons node program ih =>
    refine .bind (.bind ?_ fun _ => .refl _) fun _ => ih
    cases node with
    | stat stat => exact compileStatement_more hle stat
    | func func => exact compileFunc_more hle func

/-- A program has one list of events. -/
theorem compiledEvents_unique {fuel fuel' : ℕ} {isInteractive : Bool} {program : List TopLevel}
    {events events' : List Event} (h : compiledEvents fuel isInteractive program = some events)
    (h' : compiledEvents fuel' isInteractive program = some events') : events = events' := by
  obtain ⟨s, hcompile, rfl⟩ := compiledEvents_eq_some h
  obtain ⟨s', hcompile', rfl⟩ := compiledEvents_eq_some h'
  have hmore := compileProgram_more (le_max_left fuel fuel') program _ _ _ hcompile
  have hmore' := compileProgram_more (le_max_right fuel fuel') program _ _ _ hcompile'
  cases hmore.symm.trans hmore'
  rfl

/-- The states of the session of a program, if it ends. -/
def programStates (host : Host) (fuel steps : ℕ) (isInteractive : Bool) (program : List TopLevel) :
    Option (List (Vm × MachineState)) := do
  let events ← compiledEvents fuel isInteractive program
  let (states, _) ← sessionStates host steps vmStaticInit (rootFrame host) events
  some states

/-- They are the states that the program passes. -/
theorem passes_iff {fuel steps : ℕ} {isInteractive : Bool} {program : List TopLevel}
    {states : List (Vm × MachineState)} {vm : Vm} {s : MachineState}
    (h : programStates host fuel steps isInteractive program = some states) :
    Passes host isInteractive program vm s ↔ (vm, s) ∈ states := by
  obtain ⟨events, hevents, h⟩ := Option.bind_eq_some_iff.mp h
  obtain ⟨⟨states', ends⟩, hstates, h⟩ := Option.bind_eq_some_iff.mp h
  cases h
  rw [← sessionReach_iff hstates]
  constructor
  · rintro ⟨fuel', events', hevents', hreach⟩
    obtain rfl := compiledEvents_unique hevents hevents'
    exact hreach
  · exact fun hreach => ⟨fuel, events, hevents, hreach⟩

lemma exists_passes {fuel steps : ℕ} {isInteractive : Bool} {program : List TopLevel}
    (p : Vm × MachineState → Bool)
    (h : (programStates host fuel steps isInteractive program).map (·.any p) = some true) :
    ∃ vm s, Passes host isInteractive program vm s ∧ p (vm, s) = true := by
  obtain ⟨states, hstates, hany⟩ := Option.map_eq_some_iff.mp h
  obtain ⟨⟨vm, s⟩, hmem, hp⟩ := List.any_eq_true.mp hany
  exact ⟨vm, s, (passes_iff hstates).mpr hmem, hp⟩

lemma forall_passes {fuel steps : ℕ} {isInteractive : Bool} {program : List TopLevel}
    (p : Vm × MachineState → Bool)
    (h : (programStates host fuel steps isInteractive program).map (·.all p) = some true) {vm : Vm}
    {s : MachineState} (hs : Passes host isInteractive program vm s) : p (vm, s) = true := by
  obtain ⟨states, hstates, hall⟩ := Option.map_eq_some_iff.mp h
  exact List.all_eq_true.mp hall (vm, s) ((passes_iff hstates).mp hs)

/-! ## A program with a function, a loop and a branch -/

/-- `f` with its parameter `a`: `func f(int a) int { b = a }` -/
def sampleFunc : DeclFunc where
  name := [102]
  args := [([97], [105, 110, 116])]
  retType := some [105, 110, 116]
  body := .expr (.binaryOp .unknwn .assignment (.ident .unknwn [98]) (.ident .unknwn [97])) .nil

/-- `while x { if x == 1 { y = y * 0.0 } else { } x = x - 1 }` -/
def countingLoop : Stat :=
  let x : Expr := .ident .unknwn [120]
  let y : Expr := .ident .unknwn [121]
  .while x
    (.ifElse (.binaryOp .unknwn .equalTo x (.literalInt 1))
      (.expr (.binaryOp .unknwn .assignment y
        (.binaryOp .unknwn .multiplication y (.literalFloat 0))) .nil) .nil
      (.expr (.binaryOp .unknwn .assignment x
        (.binaryOp .unknwn .subtraction x (.literalInt 1))) .nil)) .nil

/-- `sampleFunc`, `x = 2`, `y = 1.5`, `countingLoop`, `f(x)` -/
def sampleProgram : List TopLevel :=
  let x : Expr := .ident .unknwn [120]
  let y : Expr := .ident .unknwn [121]
  [.func sampleFunc,
    .stat (.expr (.binaryOp .unknwn .assignment x (.literalInt 2)) .nil),
    .stat (.expr (.binaryOp .unknwn .assignment y (.literalFloat 0x3FC00000)) .nil),
    .stat countingLoop,
    .stat (.expr (.binaryOp .unknwn .functionCall (.ident .unknwn [102]) (.group .unknwn x)) .nil)]

lemma encodable_sample : EncodableProgram sampleProgram where
  parsed := by decide
  reads := by decide
  fits := by decide +kernel

end PhantomShell
