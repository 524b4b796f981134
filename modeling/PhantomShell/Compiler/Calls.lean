import Mathlib.Logic.Relation
import PhantomShell.Compiler.Runs

/-!
# The calls inside a run

Which functions of the compiler a run calls, on what, and in which states: `Calls` has a
constructor for each call of `compile_expression`, of the argument loop, of a statement and of
`compile_scope`.
-/

namespace PhantomShell

/-- A function of the compiler with its argument: `compile_expression`, the argument loop of
`compile_function_call`, `compile_statement`, and `compile_scope` from a statement on. -/
inductive Task
  | expr (expr : Expr)
  | args (args : Expr)
  | stat (stat : Stat)
  | scope (stat : Stat)

/-- The function; the ones that return nothing return 0 here. -/
def Task.run (fuel : ℕ) : Task → CompileM ℤ
  | .expr e => compileExpression fuel e
  | .args e => do
    compileArgs (compileExpression fuel) e
    pure 0
  | .stat node => compileStatement fuel node
  | .scope node => do
    compileScope fuel node
    pure 0

/-- A call: the function, the state it is called in, and the bound on the calls below it. -/
structure Call where
  fuel : ℕ
  task : Task
  state : CompilerState

def Call.run (c : Call) : EStateM.Result CompileStop CompilerState ℤ := c.task.run c.fuel c.state

/-- What `next` leads to. -/
def Stat.next : Stat → Stat
  | .nil => .nil
  | .expr _ next => next
  | .ifElse _ _ _ next => next
  | .while _ _ next => next
  | .other next => next
  | .notScope _ => .nil

/-- The first call makes the second one. -/
inductive Calls : Call → Call → Prop
  | group {fuel t e s} : Calls ⟨fuel + 1, .expr (.group t e), s⟩ ⟨fuel, .expr e, s⟩
  | unaryOp {fuel t operator e s} : intOperatorToOpcode operator ≠ 0 →
      Calls ⟨fuel + 1, .expr (.unaryOp t operator e), s⟩ ⟨fuel, .expr e, s⟩
  | specialCast {fuel t opcode e s} :
      Calls ⟨fuel + 1, .expr (.specialCast t opcode e), s⟩ ⟨fuel, .expr e, s⟩
  | assignment {fuel t t' name right right' target s s₁} :
      traceDataType s.chain right = .ok right' →
      assignmentTarget name right'.staticType s = .ok target s₁ →
      Calls ⟨fuel + 1, .expr (.binaryOp t .assignment (.ident t' name) right), s⟩
        ⟨fuel, .expr right', s₁⟩
  | functionCall {fuel t t' t'' name args funcDesc s} :
      hashmapGet id s.globalFuncMap name = some funcDesc →
      Calls ⟨fuel + 1, .expr (.binaryOp t .functionCall (.ident t' name) (.group t'' args)), s⟩
        ⟨fuel, .args args, s⟩
  | left {fuel t operator left right t' operator' left' right' s} :
      operator ≠ .assignment → operator ≠ .functionCall →
      traceDataType s.chain (.binaryOp t operator left right)
        = .ok (.binaryOp t' operator' left' right') →
      binaryOpcode t' operator' ≠ 0 →
      Calls ⟨fuel + 1, .expr (.binaryOp t operator left right), s⟩ ⟨fuel, .expr left', s⟩
  | right {fuel t operator left right t' operator' left' right' s s₁} :
      operator ≠ .assignment → operator ≠ .functionCall →
      traceDataType s.chain (.binaryOp t operator left right)
        = .ok (.binaryOp t' operator' left' right') →
      binaryOpcode t' operator' ≠ 0 → compileExpression fuel left' s = .ok 0 s₁ →
      Calls ⟨fuel + 1, .expr (.binaryOp t operator left right), s⟩ ⟨fuel, .expr right', s₁⟩
  | argsLeft {fuel t left right s} :
      Calls ⟨fuel, .args (.binaryOp t .comma left right), s⟩ ⟨fuel, .expr left, s⟩
  | argsRight {fuel t left right ret s s₁} : compileExpression fuel left s = .ok ret s₁ →
      Calls ⟨fuel, .args (.binaryOp t .comma left right), s⟩ ⟨fuel, .args right, s₁⟩
  | argsLast {fuel arg s} : arg.isBinaryOp = false →
      Calls ⟨fuel, .args arg, s⟩ ⟨fuel, .expr arg, s⟩
  | exprStat {fuel e next s} : Calls ⟨fuel, .stat (.expr e next), s⟩ ⟨fuel, .expr e, s⟩
  | ifCond {fuel e trueScope falseScope next s} :
      Calls ⟨fuel, .stat (.ifElse e trueScope falseScope next), s⟩ ⟨fuel, .expr e, s⟩
  | ifTrue {fuel e trueScope falseScope next ret s s₁} :
      compileExpression fuel e s = .ok ret s₁ →
      Calls ⟨fuel, .stat (.ifElse e trueScope falseScope next), s⟩
        ⟨fuel, .scope trueScope, childState s₁ 512 s₁.chain.scope.stackSize⟩
  | ifFalse {fuel e trueScope falseScope next ret s s₁ t₁} :
      compileExpression fuel e s = .ok ret s₁ →
      compileScope fuel trueScope (childState s₁ 512 s₁.chain.scope.stackSize) = .ok () t₁ →
      Calls ⟨fuel, .stat (.ifElse e trueScope falseScope next), s⟩
        ⟨fuel, .scope falseScope, childState (t₁.leave s₁) 512 s₁.chain.scope.stackSize⟩
  | whileCond {fuel e loopScope next s} :
      Calls ⟨fuel, .stat (.while e loopScope next), s⟩ ⟨fuel, .expr e, condState s⟩
  | whileBody {fuel e loopScope next ret s s₁} :
      compileExpression fuel e (condState s) = .ok ret s₁ →
      Calls ⟨fuel, .stat (.while e loopScope next), s⟩
        ⟨fuel, .scope loopScope, childState (forgetVars s₁ s.chain.scope.vars.length) 512 0⟩
  | scopeStat {fuel stat s} : stat ≠ .nil → Calls ⟨fuel, .scope stat, s⟩ ⟨fuel, .stat stat, s⟩
  | scopeNext {fuel stat ret s s₁} : stat ≠ .nil → compileStatement fuel stat s = .ok ret s₁ →
      Calls ⟨fuel, .scope stat, s⟩ ⟨fuel, .scope stat.next, s₁⟩

/-! ## What a call does to its caller -/

/-- A scope is compiled statement by statement. -/
lemma compileScope_eq (fuel : ℕ) {stat : Stat} (h : stat ≠ .nil) :
    compileScope fuel stat = compileStatement fuel stat >>= fun _ => compileScope fuel stat.next := by
  cases stat with
  | nil => exact absurd rfl h
  | _ => rfl

lemma astNodeTraceDataType_of_ok {s : CompilerState} {e e' : Expr}
    (h : traceDataType s.chain e = .ok e') : astNodeTraceDataType e s = .ok e' s :=
  astNodeTraceDataType_eq_ok.mpr ⟨h, rfl⟩

lemma compileExpression_assignment (fuel : ℕ) (t : StaticType) (left right : Expr) :
    compileExpression (fuel + 1) (.binaryOp t .assignment left right)
      = compileBinaryOpAssignment (compileExpression fuel) left right := by
  rw [compileExpression, compileBinaryOp, if_pos rfl]

lemma compileExpression_functionCall (fuel : ℕ) (t : StaticType) (left right : Expr) :
    compileExpression (fuel + 1) (.binaryOp t .functionCall left right)
      = compileFunctionCall (compileExpression fuel) left right := by
  rw [compileExpression, compileBinaryOp, if_neg (by decide), if_pos rfl]

/-- A binary operator that is neither an assignment nor a call, behind the selection of its
opcode. -/
lemma compileExpression_operands {fuel : ℕ} {t t' : StaticType} {operator operator' : Operator}
    {left right left' right' : Expr} {s : CompilerState} (hassign : operator ≠ .assignment)
    (hcall : operator ≠ .functionCall)
    (htrace : traceDataType s.chain (.binaryOp t operator left right)
      = .ok (.binaryOp t' operator' left' right')) :
    compileExpression (fuel + 1) (.binaryOp t operator left right) s
      = compileOperands (compileExpression fuel) (binaryOpcode t' operator') left' right' s := by
  rw [compileExpression, compileBinaryOp, if_neg hassign, if_neg hcall,
    estate_bind_of_ok (astNodeTraceDataType_of_ok htrace)]

/-- A call that stops stops its caller. -/
theorem Calls.stops {c c' : Call} (h : Calls c c') {e : CompileStop} {t : CompilerState}
    (hstop : c'.run = .error e t) : c.run = .error e t := by
  have through : ∀ {α β : Type} {x : CompileM α} {f : α → CompileM β} {s : CompilerState},
      x s = .error e t → (x >>= f) s = .error e t := fun hx => estate_bind_eq_error.mpr (.inl hx)
  have behind : ∀ {α β : Type} {x : CompileM α} {f : α → CompileM β} {a : α}
      {s u : CompilerState}, x s = .ok a u → f a u = .error e t → (x >>= f) s = .error e t :=
    fun hx hf => estate_bind_eq_error.mpr (.inr ⟨_, _, hx, hf⟩)
  -- a call that returns nothing stops where its function does
  have inner : ∀ {x : CompileM Unit} {s : CompilerState},
      (x >>= fun _ => (pure 0 : CompileM ℤ)) s = .error e t → x s = .error e t := by
    intro x s hx
    rcases estate_bind_eq_error.mp hx with hx | ⟨_, _, -, hx⟩
    · exact hx
    · cases hx
  cases h with
  | group => exact hstop
  | unaryOp hop =>
    change compileUnaryOp _ _ _ _ = _
    rw [compileUnaryOp, if_neg hop]
    exact through hstop
  | specialCast => exact through hstop
  | assignment htrace htarget =>
    change compileExpression _ _ _ = _
    rw [compileExpression_assignment, compileBinaryOpAssignment,
      estate_bind_of_ok (astNodeTraceDataType_of_ok htrace)]
    dsimp only
    rw [estate_bind_of_ok htarget]
    exact through hstop
  | functionCall hfunc =>
    change compileExpression _ _ _ = _
    rw [compileExpression_functionCall, compileFunctionCall]
    refine behind (estate_get_eq _) ?_
    simp only [hfunc]
    exact behind rfl (through (inner hstop))
  | left hassign hcall htrace hop =>
    change compileExpression _ _ _ = _
    rw [compileExpression_operands hassign hcall htrace, compileOperands, if_neg hop]
    exact through hstop
  | right hassign hcall htrace hop hleft =>
    change compileExpression _ _ _ = _
    rw [compileExpression_operands hassign hcall htrace, compileOperands, if_neg hop,
      estate_bind_of_ok hleft]
    exact through hstop
  | argsLeft => exact through (through hstop)
  | argsRight hleft =>
    refine through ?_
    rw [compileArgs, if_pos rfl, estate_bind_of_ok hleft]
    exact inner hstop
  | argsLast hlast =>
    refine through ?_
    rw [compileArgs_last _ hlast]
    exact through hstop
  | exprStat => exact hstop
  | ifCond => exact through hstop
  | ifTrue hexpr =>
    exact behind hexpr (behind (estate_get_eq _) (through (compileChild_of_error (inner hstop))))
  | ifFalse hexpr htrue =>
    refine behind hexpr (behind (estate_get_eq _) (behind (compileChild_of_ok htrue) ?_))
    exact through (compileChild_of_error (inner hstop))
  | whileCond =>
    exact behind (estate_get_eq _) (behind (estate_get_eq _)
      (behind (estate_modify_eq _ _) (through hstop)))
  | whileBody hexpr =>
    refine behind (estate_get_eq _) (behind (estate_get_eq _) (behind (estate_modify_eq _ _) ?_))
    refine behind hexpr (behind (estate_get_eq _) (behind (estate_modify_eq _ _) ?_))
    exact through (compileChild_of_error (inner hstop))
  | scopeStat hne =>
    refine through ?_
    rw [compileScope_eq _ hne]
    exact through hstop
  | scopeNext hne hstat =>
    refine through ?_
    rw [compileScope_eq _ hne, estate_bind_of_ok hstat]
    exact inner hstop

/-- A relation that runs keep holds between the states before and after a call. -/
theorem CompileRule.returns {R : CompilerState → CompilerState → Prop} (hR : CompileRule R) {c : Call}
    {ret : ℤ} {s' : CompilerState} (h : c.run = .ok ret s') : R c.state s' := by
  obtain ⟨fuel, task, s⟩ := c
  cases task with
  | expr e => exact hR.expression fuel e s ret s' h
  | args args =>
    exact hR.bind (hR.args (hR.expression fuel) args) (fun _ => hR.pure _) s ret s' h
  | stat stat => exact hR.statement fuel stat s ret s' h
  | scope stat => exact hR.bind (hR.scope fuel stat) (fun _ => hR.pure _) s ret s' h

end PhantomShell
