import PhantomShell.Compiler.ProgramTheorems

/-!
# The states that a program reaches

`Reached` has the states in which functions of the compiler are called and return, and those between
the statements and the parameters of a program. A `CompileInvariant` holds in all of them.
-/

namespace PhantomShell

/-! ## Invariants of the states of calls -/

/-- Behind a scope the current one has the variables it had. -/
lemma Grows.leave {s t : CompilerState} {stackSize : ℕ} (h : Grows (childState s 512 stackSize) t) :
    ∃ emitter account events, t.leave s = s.moved emitter account events [] t.chain.varsMaxSize := by
  obtain ⟨chunks, account, newVars, emitter, events, m, -, rfl⟩ := h
  refine ⟨s.chain.scope.emitter, (s.chain.scope.stackSize, account.2), events, ?_⟩
  simp [CompilerState.leave, CompilerState.moved, childState]

/-- So has it when the variables of a condition are forgotten. -/
lemma Grows.forget {s s₁ : CompilerState} (h : Grows (condState s) s₁) :
    ∃ emitter account events, forgetVars s₁ s.chain.scope.vars.length
      = s.moved emitter account events [] s₁.chain.varsMaxSize := by
  obtain ⟨chunks, account, newVars, emitter, events, m, -, rfl⟩ := h
  refine ⟨emitter, account, events, ?_⟩
  simp [forgetVars, CompilerState.moved, condState]

lemma condState_moved (s : CompilerState) :
    condState s = s.moved (.buffered (compilerEmitterBufferedNew 256)) s.account [] []
      s.chain.varsMaxSize := by
  simp [condState, CompilerState.moved, CompilerState.account]

lemma withEmitter_moved (s : CompilerState) (emitter : ScopeEmitter) :
    s.withEmitter emitter = s.moved emitter s.account [] [] s.chain.varsMaxSize := by
  simp [CompilerState.withEmitter, CompilerState.moved, CompilerState.account]

/-- A property of states that emission, declarations and new scopes keep. -/
structure CompileInvariant (I : CompilerState → Prop) : Prop where
  moved : ∀ {s emitter account events m}, I s → s.chain.varsMaxSize ≤ m →
    I (s.moved emitter account events [] m)
  define : ∀ {s s' t name var}, I s → s.chain.lookup name = none →
    frameDefineVar t name s = .ok var s' → I s'
  child : ∀ {s stackSize}, I s → I (childState s 512 stackSize)

namespace CompileInvariant

variable {I : CompilerState → Prop} (hI : CompileInvariant I)
include hI

/-- Runs keep the invariant, and the maximum of the variables does not fall. -/
lemma rule : CompileRule fun s s' => Grows s s' ∧ s.chain.varsMaxSize ≤ s'.chain.varsMaxSize ∧
    (I s → I s') where
  refl s := ⟨Grows.refl s, le_rfl, id⟩
  trans h₁ h₂ := ⟨h₁.1.trans h₂.1, h₁.2.1.trans h₂.2.1, h₂.2.2 ∘ h₁.2.2⟩
  emit data s ret s' h := by
    obtain ⟨-, emitter, events, -, rfl⟩ := compilerEmit_eq_ok h
    exact ⟨growsRule.emit data _ _ _ h, le_rfl, fun hs => hI.moved hs le_rfl⟩
  increment d s _ s' h := by
    refine ⟨growsRule.increment d _ _ _ h, ?_⟩
    obtain rfl := estate_modify_eq_ok.mp h
    refine ⟨le_rfl, fun hs => ?_⟩
    have hmoved : I (s.moved s.chain.scope.emitter (accountAll s.account [d]) [] []
        s.chain.varsMaxSize) := hI.moved hs le_rfl
    simpa [CompilerState.moved, accountAll, CompilerState.account] using hmoved
  define hnew h := by
    refine ⟨growsRule.define hnew h, ?_, fun hs => hI.define hs hnew h⟩
    obtain ⟨-, -, rfl⟩ := frameDefineVar_eq_ok h
    exact le_max_left _ _
  child := by
    rintro s t stackSize ⟨hgrows, hmax, -⟩
    obtain ⟨emitter, account, events, hleave⟩ := hgrows.leave
    refine ⟨growsRule.child hgrows, hmax, fun hs => ?_⟩
    rw [hleave]
    exact hI.moved hs hmax
  loop := by
    rintro s s₁ t ⟨hcond, hmax, -⟩ ⟨hbody, hmax', -⟩
    obtain ⟨emitter, account, events, hforget⟩ := hcond.forget
    obtain ⟨emitter', account', events', hleave⟩ := hbody.leave
    refine ⟨growsRule.loop hcond hbody, hmax.trans hmax', fun hs => ?_⟩
    rw [withEmitter_moved, hleave, hforget]
    exact hI.moved (hI.moved (hI.moved hs hmax) hmax') le_rfl

lemma expression {fuel : ℕ} {e : Expr} {s s' : CompilerState} {ret : ℤ} (hs : I s)
    (h : compileExpression fuel e s = .ok ret s') : I s' :=
  (hI.rule.expression fuel e s ret s' h).2.2 hs

lemma statement {fuel : ℕ} {stat : Stat} {s s' : CompilerState} {ret : ℤ} (hs : I s)
    (h : compileStatement fuel stat s = .ok ret s') : I s' :=
  (hI.rule.statement fuel stat s ret s' h).2.2 hs

lemma leave {fuel : ℕ} {stat : Stat} {s t : CompilerState} {stackSize : ℕ} (hs : I s)
    (h : compileScope fuel stat (childState s 512 stackSize) = .ok () t) : I (t.leave s) :=
  (hI.rule.child (hI.rule.scope fuel stat _ _ _ h)).2.2 hs

/-- What holds where a call is made holds where the calls below it are made. -/
theorem calls {c c' : Call} (h : Calls c c') (hc : I c.state) : I c'.state := by
  cases h with
  | assignment htrace htarget =>
    rcases assignmentTarget_cases htarget with ⟨-, rfl⟩ | ⟨hnew, -, hdefine⟩
    · exact hc
    · exact hI.define hc hnew hdefine
  | right _ _ _ _ hleft => exact hI.expression hc hleft
  | argsRight hleft => exact hI.expression hc hleft
  | ifTrue hexpr => exact hI.child (hI.expression hc hexpr)
  | ifFalse hexpr htrue => exact hI.child (hI.leave (hI.expression hc hexpr) htrue)
  | whileCond =>
    rw [condState_moved]
    exact hI.moved hc le_rfl
  | whileBody hexpr =>
    obtain ⟨hgrows, hmax, -⟩ := hI.rule.expression _ _ _ _ _ hexpr
    obtain ⟨emitter, account, events, hforget⟩ := hgrows.forget
    rw [hforget]
    exact hI.child (hI.moved hc hmax)
  | scopeNext _ hstat => exact hI.statement hc hstat
  | _ => exact hc

/-- And where a call returns. -/
theorem returns {c : Call} {ret : ℤ} {s' : CompilerState} (h : c.run = .ok ret s')
    (hc : I c.state) : I s' :=
  (hI.rule.returns h).2.2 hc

theorem reaches {c c' : Call} (h : Relation.ReflTransGen Calls c c') (hc : I c.state) :
    I c'.state := by
  induction h with
  | refl => exact hc
  | tail _ hstep ih => exact hI.calls hstep ih

end CompileInvariant

/-! ## The states that a program reaches -/

/-- The parameters become variables of the function scope. -/
def defineParams (args : List (CStr × CStr)) : CompileM Unit :=
  args.forM fun arg => do
    let argType ← staticTypeByName arg.2
    let _ ← frameDefineVar argType arg.1

/-- What holds before the first statement and is kept by each of them holds behind a program. -/
lemma compileProgram_keeps {R : CompilerState → CompilerState → Prop} (hrefl : ∀ s, R s s)
    (htrans : ∀ {s t u}, R s t → R t u → R s u) {fuel : ℕ}
    (hnode : ∀ node, Keeps R (compilerCompile fuel node)) (program : List TopLevel) :
    Keeps R (compileProgram fuel program) := by
  induction program with
  | nil =>
    intro s _ s' h
    obtain ⟨-, rfl⟩ := estate_pure_eq_ok.mp h
    exact hrefl s
  | cons node program ih =>
    intro s _ s' h
    obtain ⟨ret, t, hcompile, hrest⟩ := compileProgram_cons h
    exact htrans (hnode node _ _ _ hcompile) (ih _ _ _ hrest)

section Program

variable (isInteractive : Bool) (fuel : ℕ) (program : List TopLevel)

/-- `compiler_compile` is called on the node in this state. -/
def Begins (node : TopLevel) (s : CompilerState) : Prop :=
  ∃ before after, program = before ++ node :: after ∧
    compileProgram fuel before (compilerInit isInteractive) = .ok () s

/-- `compile_func` defines the parameters of the function from this state on. -/
def FuncBegins (func : DeclFunc) (s : CompilerState) : Prop :=
  ∃ s₀ funcDesc s₁, Begins isInteractive fuel program (.func func) s₀ ∧
    compilerDefineFunc fuel func s₀ = .ok funcDesc s₁ ∧ s = s₁.function

/-- The state behind the first parameters of a function. -/
def ParamsDefined (args : List (CStr × CStr)) (s : CompilerState) : Prop :=
  ∃ func s₀ rest, FuncBegins isInteractive fuel program func s₀ ∧ func.args = args ++ rest ∧
    defineParams args s₀ = .ok () s

/-- The calls that statements and functions start with. -/
inductive EntryCall : Call → Prop
  | stat {stat s} : Begins isInteractive fuel program (.stat stat) s →
      EntryCall ⟨fuel, .stat stat, s⟩
  | body {func s₀ s} : FuncBegins isInteractive fuel program func s₀ →
      defineParams func.args s₀ = .ok () s → EntryCall ⟨fuel, .scope func.body, s⟩

/-- The states of the compiler between statements and parameters, and where calls are made and
return. -/
inductive Reached : CompilerState → Prop
  | between {before after s} : program = before ++ after →
      compileProgram fuel before (compilerInit isInteractive) = .ok () s → Reached s
  | params {args s} : ParamsDefined isInteractive fuel program args s → Reached s
  | call {c c'} : EntryCall isInteractive fuel program c → Relation.ReflTransGen Calls c c' →
      Reached c'.state
  | return {c c' ret s} : EntryCall isInteractive fuel program c →
      Relation.ReflTransGen Calls c c' → c'.run = .ok ret s → Reached s

end Program

end PhantomShell
