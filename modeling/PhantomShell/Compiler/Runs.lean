import PhantomShell.Lib.Except
import PhantomShell.Compiler.Compile

/-!
# Runs of the compiler

The states that a run goes through where it opens a scope or looks aside, and the runs of the parts
of an assignment, of an `if` and of a `while`. A relation between states that holds across the
primitive steps of the compiler (`CompileRule`) holds across its runs.
-/

namespace PhantomShell

/-! ## States inside a run -/

/-- The state in which the body of a new scope is compiled. -/
def childState (s : CompilerState) (pageSize stackSize : ℕ) : CompilerState :=
  { s with chain :=
    { s.chain with
      scope :=
        { isFunctionScope := false
          stackSize := stackSize
          varsOff := s.chain.scope.vars.length + s.chain.scope.varsOff
          varsCap := s.chain.scope.varsCap
          vars := []
          emitter := .buffered (compilerEmitterBufferedNew pageSize) }
      parents := s.chain.scope :: s.chain.parents } }

/-- `t` behind a scope that was opened in `s`: the scope of `s` is the current one again. -/
def CompilerState.leave (t s : CompilerState) : CompilerState :=
  { t with chain := { t.chain with scope := s.chain.scope, parents := s.chain.parents } }

/-- The current scope emits elsewhere. -/
def CompilerState.withEmitter (s : CompilerState) (emitter : ScopeEmitter) : CompilerState :=
  { s with chain := { s.chain with scope := { s.chain.scope with emitter := emitter } } }

/-- The state in which the condition of a loop is compiled: its code goes elsewhere. -/
def condState (s : CompilerState) : CompilerState :=
  { s with chain := { s.chain with
    scope := { s.chain.scope with emitter := .buffered (compilerEmitterBufferedNew 256) } } }

/-- The state behind the condition: the variables of the condition are forgotten. -/
def forgetVars (s : CompilerState) (varsSize : ℕ) : CompilerState :=
  { s with chain := { s.chain with
    scope := { s.chain.scope with vars := s.chain.scope.vars.take varsSize } } }

lemma compileChild_eq_ok {s s' : CompilerState} {pageSize stackSize : ℕ} {body : CompileM Unit}
    {emitter : ScopeEmitter} (h : compileChild pageSize stackSize body s = .ok emitter s') :
    ∃ t, body (childState s pageSize stackSize) = .ok () t ∧ emitter = t.chain.scope.emitter ∧
      s' = t.leave s := by
  simp only [compileChild, estate_bind_eq_ok, estate_get_eq_ok, estate_modify_eq_ok,
    estate_pure_eq_ok] at h
  obtain ⟨_, _, ⟨rfl, rfl⟩, _, _, rfl, _, t, hbody, _, _, ⟨rfl, rfl⟩, _, _, rfl, rfl, rfl⟩ := h
  exact ⟨t, hbody, rfl, rfl⟩

/-- A block is compiled in a scope of its own. -/
lemma compileChild_of_ok {pageSize stackSize : ℕ} {body : CompileM Unit} {s t : CompilerState}
    (h : body (childState s pageSize stackSize) = .ok () t) :
    compileChild pageSize stackSize body s = .ok t.chain.scope.emitter (t.leave s) := by
  simp only [compileChild, estate_bind_eq_ok, estate_get_eq_ok, estate_modify_eq_ok,
    estate_pure_eq_ok]
  exact ⟨s, s, ⟨rfl, rfl⟩, (), _, rfl, (), t, h, t, t, ⟨rfl, rfl⟩, (), _, rfl, rfl, rfl⟩

/-- A scope that stops stops the statement that it is in. -/
lemma compileChild_of_error {pageSize stackSize : ℕ} {body : CompileM Unit} {s t : CompilerState}
    {e : CompileStop} (h : body (childState s pageSize stackSize) = .error e t) :
    compileChild pageSize stackSize body s = .error e t := by
  rw [compileChild, estate_bind_of_ok (estate_get_eq s), estate_bind_of_ok (estate_modify_eq _ s)]
  exact estate_bind_eq_error.mpr (.inl h)

/-- Sinking an emitter changes nothing. -/
lemma sinkEmitter_state {emitter : ScopeEmitter} {bytes : List UInt8} {s s' : CompilerState}
    (h : sinkEmitter emitter s = .ok bytes s') : s = s' := by
  unfold sinkEmitter at h
  cases emitter with
  | unbuffered => exact (estate_throw_eq_ok.mp h).elim
  | buffered e =>
    cases hsink : compilerEmitterSink e with
    | none =>
      simp only [hsink] at h
      exact (estate_throw_eq_ok.mp h).elim
    | some data =>
      simp only [hsink] at h
      exact (estate_pure_eq_ok.mp h).2

/-- Nor does the jump behind the true block change the state. -/
lemma emitIfJmp_state {emitter emitter' : ScopeEmitter} {falseSize : ℕ} {s s' : CompilerState}
    (h : emitIfJmp emitter falseSize s = .ok emitter' s') : s = s' := by
  unfold emitIfJmp at h
  split at h
  · exact (estate_pure_eq_ok.mp h).2
  · cases hjmp : emitterFunc emitter (opcodeJmp :: htobe16 (UInt16.ofNat falseSize)) with
    | none =>
      simp only [hjmp, estate_throw_eq_ok] at h
    | some r =>
      simp only [hjmp, estate_pure_eq_ok] at h
      exact h.2

/-- The runs of the parts of an `if`: the condition, the two scopes, and what is emitted, if
anything is. -/
lemma compileIfStatement_runs {compile : Expr → CompileM ℤ} {expr : Expr}
    {trueScope falseScope : CompileM Unit} {s s' : CompilerState} {ret : ℤ}
    (h : compileIfStatement compile expr trueScope falseScope s = .ok ret s') :
    ret = 0 ∧ ∃ r s₁ t₁ t₂, compile expr s = .ok r s₁ ∧
      trueScope (childState s₁ 512 s₁.chain.scope.stackSize) = .ok () t₁ ∧
      falseScope (childState (t₁.leave s₁) 512 s₁.chain.scope.stackSize) = .ok () t₂ ∧
      (s' = t₂.leave (t₁.leave s₁) ∨
        ∃ data r', compilerEmit data (t₂.leave (t₁.leave s₁)) = .ok r' s') := by
  simp only [compileIfStatement, estate_bind_eq_ok, estate_get_eq_ok] at h
  obtain ⟨r, s₁, hexpr, _, _, ⟨rfl, rfl⟩, trueEmitter, s₂, htrue, falseEmitter, s₃, hfalse,
    trueEmitter', s₄, hjmp, h⟩ := h
  obtain ⟨t₁, ht₁, -, rfl⟩ := compileChild_eq_ok htrue
  obtain ⟨t₂, ht₂, -, rfl⟩ := compileChild_eq_ok hfalse
  obtain rfl := emitIfJmp_state hjmp
  split at h
  · obtain ⟨rfl, rfl⟩ := estate_pure_eq_ok.mp h
    exact ⟨rfl, r, s₁, t₁, t₂, hexpr, ht₁, ht₂, .inl rfl⟩
  · simp only [estate_bind_eq_ok, estate_pure_eq_ok] at h
    obtain ⟨trueData, _, hsink₁, falseData, _, hsink₂, r', _, hemit, rfl, rfl⟩ := h
    obtain rfl := sinkEmitter_state hsink₁
    obtain rfl := sinkEmitter_state hsink₂
    exact ⟨rfl, r, s₁, t₁, t₂, hexpr, ht₁, ht₂, .inr ⟨_, r', hemit⟩⟩

/-- The runs of the parts of a `while`: the condition, the scope, and what is emitted. -/
lemma compileWhileStatement_runs {compile : Expr → CompileM ℤ} {expr : Expr}
    {loopScope : CompileM Unit} {s s' : CompilerState} {ret : ℤ}
    (h : compileWhileStatement compile expr loopScope s = .ok ret s') :
    ret = 0 ∧ ∃ r s₁ t, compile expr (condState s) = .ok r s₁ ∧
      loopScope (childState (forgetVars s₁ s.chain.scope.vars.length) 512 0) = .ok () t ∧
      ∃ data r', compilerEmit data
        ((t.leave (forgetVars s₁ s.chain.scope.vars.length)).withEmitter s.chain.scope.emitter)
          = .ok r' s' := by
  simp only [compileWhileStatement, estate_bind_eq_ok, estate_get_eq_ok, modifyScope,
    estate_modify_eq_ok] at h
  obtain ⟨_, _, ⟨rfl, rfl⟩, _, _, ⟨rfl, rfl⟩, _, _, rfl, r, s₁, hexpr, _, _, ⟨rfl, rfl⟩, _, _, rfl,
    bodyEmitter, s₂, hbody, _, s₃, rfl, h⟩ := h
  obtain ⟨t, ht, -, rfl⟩ := compileChild_eq_ok hbody
  split at h
  · exact (estate_throw_eq_ok.mp h).elim
  · simp only [estate_bind_eq_ok, estate_pure_eq_ok] at h
    obtain ⟨exprData, _, hsink₁, bodyData, _, hsink₂, r', _, hemit, rfl, rfl⟩ := h
    obtain rfl := sinkEmitter_state hsink₁
    obtain rfl := sinkEmitter_state hsink₂
    exact ⟨rfl, r, s₁, t, hexpr, ht, _, r', hemit⟩

/-- What `compile_binary_op_assignment` stores to: a visible variable, or a new one. -/
lemma assignmentTarget_cases {name : CStr} {rType : StaticType}
    {target : ScopeVar × StaticType × UInt8} {s s' : CompilerState}
    (h : assignmentTarget name rType s = .ok target s') :
    (s.chain.lookup name = some target.1 ∧ s' = s) ∨
      (s.chain.lookup name = none ∧ target.2 = (rType, 0) ∧
        frameDefineVar rType name s = .ok target.1 s') := by
  simp only [assignmentTarget, estate_bind_eq_ok, estate_get_eq_ok] at h
  obtain ⟨_, _, ⟨rfl, rfl⟩, h⟩ := h
  cases hvar : s.chain.lookup name with
  | some var =>
    simp only [hvar] at h
    split at h
    · split at h
      · exact (estate_throw_eq_ok.mp h).elim
      · obtain ⟨rfl, rfl⟩ := estate_pure_eq_ok.mp h
        exact .inl ⟨rfl, rfl⟩
    · obtain ⟨rfl, rfl⟩ := estate_pure_eq_ok.mp h
      exact .inl ⟨rfl, rfl⟩
  | none =>
    simp only [hvar, estate_bind_eq_ok, estate_pure_eq_ok] at h
    obtain ⟨var, _, hdefine, rfl, rfl⟩ := h
    exact .inr ⟨rfl, rfl, hdefine⟩

lemma astNodeTraceDataType_eq_ok {s s' : CompilerState} {e e' : Expr} :
    astNodeTraceDataType e s = .ok e' s' ↔ traceDataType s.chain e = .ok e' ∧ s = s' := by
  simp only [astNodeTraceDataType, estate_bind_eq_ok, estate_get_eq_ok]
  constructor
  · rintro ⟨t, u, ⟨rfl, rfl⟩, h⟩
    cases htrace : traceDataType s.chain e with
    | error stop => simp [htrace, estate_throw_eq_ok] at h
    | ok e₁ => simpa [htrace, estate_pure_eq_ok] using h
  · rintro ⟨h, rfl⟩
    exact ⟨s, s, ⟨rfl, rfl⟩, by simp [h, estate_pure_eq_ok]⟩

/-- `AST_NODE_TYPE_BINARY_OP` -/
def Expr.isBinaryOp : Expr → Bool
  | .binaryOp _ _ _ _ => true
  | _ => false

lemma compileArgs_last (compile : Expr → CompileM ℤ) {arg : Expr} (h : arg.isBinaryOp = false) :
    compileArgs compile arg = (compile arg >>= fun _ => pure ()) := by
  cases arg with
  | binaryOp t operator left right => cases h
  | _ => rfl

/-! ## Relations that runs keep -/

/-- All successful runs of the computation are related. -/
def Keeps {α : Type} (R : CompilerState → CompilerState → Prop) (m : CompileM α) : Prop :=
  ∀ s a s', m s = .ok a s' → R s s'

/-- A relation that holds across the primitive steps of the compilation of an expression. -/
structure ExprRule (R : CompilerState → CompilerState → Prop) : Prop where
  refl : ∀ s, R s s
  trans : ∀ {s t u}, R s t → R t u → R s u
  emit : ∀ data, Keeps R (compilerEmit data)
  increment : ∀ d, Keeps R (frameIncrementStackSize d)
  define : ∀ {s s' t name var}, s.chain.lookup name = none →
    frameDefineVar t name s = .ok var s' → R s s'

namespace ExprRule

variable {R : CompilerState → CompilerState → Prop} (hR : ExprRule R) {α β : Type}
include hR

lemma pure (a : α) : Keeps R (Pure.pure a : CompileM α) := by
  intro s b s' h
  obtain ⟨-, rfl⟩ := estate_pure_eq_ok.mp h
  exact hR.refl s

omit hR in
lemma throw (e : CompileStop) : Keeps R (MonadExcept.throw e : CompileM α) :=
  fun _ _ _ h => (estate_throw_eq_ok.mp h).elim

lemma get : Keeps R (MonadState.get : CompileM CompilerState) := by
  intro s b s' h
  obtain ⟨-, rfl⟩ := estate_get_eq_ok.mp h
  exact hR.refl s

lemma bind {x : CompileM α} {f : α → CompileM β} (hx : Keeps R x) (hf : ∀ a, Keeps R (f a)) :
    Keeps R (x >>= f) := by
  intro s b s' h
  obtain ⟨a, t, h₁, h₂⟩ := estate_bind_eq_ok.mp h
  exact hR.trans (hx s a t h₁) (hf a t b s' h₂)

omit hR in
lemma ite {c : Prop} [Decidable c] {x y : CompileM α} (hx : Keeps R x) (hy : Keeps R y) :
    Keeps R (if c then x else y) := by
  split
  · exact hx
  · exact hy

/-- The compiler goes on if the returned code is 0. -/
lemma thenIf {x : CompileM ℤ} {f : ℤ → CompileM ℤ} (hx : Keeps R x) (hf : ∀ ret, Keeps R (f ret)) :
    Keeps R (x >>= fun ret => if ret ≠ 0 then Pure.pure ret else f ret) :=
  hR.bind hx fun ret => ite (hR.pure ret) (hf ret)

/-- An instruction, counted and emitted. -/
lemma counted (d : ℤ) (data : List UInt8) :
    Keeps R (frameIncrementStackSize d >>= fun _ => compilerEmit data) :=
  hR.bind (hR.increment d) fun _ => hR.emit data

lemma trace (e : Expr) : Keeps R (astNodeTraceDataType e) := by
  intro s e' s' h
  obtain ⟨-, rfl⟩ := astNodeTraceDataType_eq_ok.mp h
  exact hR.refl s

lemma ident (name : CStr) : Keeps R (compileIdent name) := by
  refine hR.bind hR.get fun s => ?_
  split
  · exact hR.counted _ _
  · exact hR.pure _

lemma target (name : CStr) (rType : StaticType) : Keeps R (assignmentTarget name rType) := by
  intro s target s' h
  rcases assignmentTarget_cases h with ⟨-, rfl⟩ | ⟨hnew, -, hdefine⟩
  · exact hR.refl _
  · exact hR.define hnew hdefine

section Compile

variable {compile : Expr → CompileM ℤ} (hcompile : ∀ e, Keeps R (compile e))
include hcompile

lemma unaryOp (operator : Operator) (operand : Expr) :
    Keeps R (compileUnaryOp compile operator operand) :=
  ite (throw _) <| hR.thenIf (hcompile operand) fun _ => hR.counted _ _

lemma assignment (left right : Expr) : Keeps R (compileBinaryOpAssignment compile left right) := by
  refine hR.bind (hR.trace right) fun right => ?_
  split
  · refine hR.bind (hR.target _ _) fun ⟨var, varType, castOpcode⟩ => ?_
    refine hR.thenIf (hcompile right) fun _ => ?_
    exact ite
      (hR.bind (hR.increment _) fun _ => hR.bind (hR.emit _) fun _ => hR.counted _ _)
      (hR.counted _ _)
  · exact throw _

lemma args (args : Expr) : Keeps R (compileArgs compile args) := by
  induction args with
  | binaryOp t operator left right _ ih =>
    unfold compileArgs
    exact ite (hR.bind (hcompile left) fun _ => ih) (throw _)
  | _ =>
    unfold compileArgs
    exact hR.bind (hcompile _) fun _ => hR.pure _

lemma functionCall (left right : Expr) : Keeps R (compileFunctionCall compile left right) := by
  unfold compileFunctionCall
  split
  · refine hR.bind hR.get fun s => ?_
    split
    · exact throw _
    · refine hR.bind (hR.bind hR.get fun _ => hR.pure _) fun _ => ?_
      split
      · exact hR.bind (hR.args hcompile _) fun _ => hR.emit _
      · exact throw _
  · exact throw _

lemma binaryOp (t : StaticType) (operator : Operator) (left right : Expr) :
    Keeps R (compileBinaryOp compile t operator left right) := by
  refine ite (hR.assignment hcompile left right)
    (ite (hR.functionCall hcompile left right) (hR.bind (hR.trace _) fun e => ?_))
  split
  · refine ite (throw _) (hR.thenIf (hcompile _) fun _ => hR.thenIf (hcompile _) fun _ => ?_)
    exact hR.counted _ _
  · exact throw _

lemma specialCast (opcode : UInt8) (operand : Expr) :
    Keeps R (compileSpecialCast compile opcode operand) :=
  hR.thenIf (hcompile operand) fun _ => hR.counted _ _

end Compile

theorem expression (fuel : ℕ) (e : Expr) : Keeps R (compileExpression fuel e) := by
  induction fuel generalizing e with
  | zero => exact throw _
  | succ fuel ih =>
    cases e with
    | literalInt value => exact hR.counted _ _
    | literalFloat value => exact hR.counted _ _
    | ident t name => exact hR.ident name
    | group t expr => exact ih expr
    | unaryOp t operator operand => exact hR.unaryOp ih operator operand
    | binaryOp t operator left right => exact hR.binaryOp ih t operator left right
    | specialCast t opcode operand => exact hR.specialCast ih opcode operand
    | other t => exact throw _

end ExprRule

/-- A relation that also holds across a scope or a loop when it does across its parts. -/
structure CompileRule (R : CompilerState → CompilerState → Prop) extends ExprRule R where
  child : ∀ {s t stackSize}, R (childState s 512 stackSize) t → R s (t.leave s)
  loop : ∀ {s s₁ t}, R (condState s) s₁ →
    R (childState (forgetVars s₁ s.chain.scope.vars.length) 512 0) t →
    R s ((t.leave (forgetVars s₁ s.chain.scope.vars.length)).withEmitter s.chain.scope.emitter)

namespace CompileRule

variable {R : CompilerState → CompilerState → Prop} (hR : CompileRule R)
include hR

lemma ifStatement {compile : Expr → CompileM ℤ} (hcompile : ∀ e, Keeps R (compile e))
    (expr : Expr) {trueScope falseScope : CompileM Unit} (htrue : Keeps R trueScope)
    (hfalse : Keeps R falseScope) :
    Keeps R (compileIfStatement compile expr trueScope falseScope) := by
  intro s ret s' h
  obtain ⟨-, r, s₁, t₁, t₂, hexpr, ht₁, ht₂, hend⟩ := compileIfStatement_runs h
  have hcond := hcompile _ _ _ _ hexpr
  have hscopes := hR.trans (hR.child (htrue _ _ _ ht₁)) (hR.child (hfalse _ _ _ ht₂))
  rcases hend with rfl | ⟨data, r', hemit⟩
  · exact hR.trans hcond hscopes
  · exact hR.trans hcond (hR.trans hscopes (hR.emit _ _ _ _ hemit))

lemma whileStatement {compile : Expr → CompileM ℤ} (hcompile : ∀ e, Keeps R (compile e))
    (expr : Expr) {loopScope : CompileM Unit} (hloop : Keeps R loopScope) :
    Keeps R (compileWhileStatement compile expr loopScope) := by
  intro s ret s' h
  obtain ⟨-, r, s₁, t, hexpr, ht, data, r', hemit⟩ := compileWhileStatement_runs h
  exact hR.trans (hR.loop (hcompile _ _ _ _ hexpr) (hloop _ _ _ ht)) (hR.emit _ _ _ _ hemit)

theorem scope (fuel : ℕ) (stat : Stat) : Keeps R (compileScope fuel stat) := by
  induction stat with
  | nil => exact hR.pure _
  | expr expr next ih => exact hR.bind (hR.expression fuel expr) fun _ => ih
  | ifElse expr trueScope falseScope next iht ihf ih =>
    exact hR.bind (hR.ifStatement (hR.expression fuel) expr iht ihf) fun _ => ih
  | «while» expr loopScope next ihl ih =>
    exact hR.bind (hR.whileStatement (hR.expression fuel) expr ihl) fun _ => ih
  | other next => exact ExprRule.throw _
  | notScope stat => exact ExprRule.throw _

theorem statement (fuel : ℕ) (stat : Stat) : Keeps R (compileStatement fuel stat) := by
  cases stat with
  | nil => exact ExprRule.throw _
  | expr expr next => exact hR.expression fuel expr
  | ifElse expr trueScope falseScope next =>
    exact hR.ifStatement (hR.expression fuel) expr (hR.scope fuel _) (hR.scope fuel _)
  | «while» expr loopScope next =>
    exact hR.whileStatement (hR.expression fuel) expr (hR.scope fuel _)
  | other next => exact ExprRule.throw _
  | notScope stat => exact ExprRule.throw _

end CompileRule

end PhantomShell
