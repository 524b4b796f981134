import PhantomShell.Compiler.Accepted
import PhantomShell.Compiler.SlotTheorems

/-!
# The slots of a scope

`vars_max_size` against the slots that are emitted: a slot is below the maximum behind the call that
emits it (`EmitsSlot.lt`), and for each place below the maximum there is a call that saves to its
slot (`scopeDeclares`).
-/

namespace PhantomShell

/-! ## Slots in the code -/

/-- The call emits `ILOAD`, `FLOAD`, `ISAVE` or `FSAVE` with the slot as its operand. -/
inductive EmitsSlot : Call → UInt8 → Prop
  | load {fuel t name var s} : s.chain.lookup name = some var → opcodeLoad var.staticType ≠ 0 →
      EmitsSlot ⟨fuel + 1, .expr (.ident t name), s⟩ var.index
  | save {fuel t t' name right right' target s s₁ s₂} :
      traceDataType s.chain right = .ok right' →
      assignmentTarget name right'.staticType s = .ok target s₁ →
      compileExpression fuel right' s₁ = .ok 0 s₂ → opcodeSave target.2.1 ≠ 0 →
      EmitsSlot ⟨fuel + 1, .expr (.binaryOp t .assignment (.ident t' name) right), s⟩
        target.1.index

/-- The call or one below it emits the slot. The slots of a block that is too long count as well,
though the compiler drops what was emitted for it. -/
def UsesSlot (c : Call) (slot : UInt8) : Prop :=
  ∃ c', Relation.ReflTransGen Calls c c' ∧ EmitsSlot c' slot

/-! ## The maximum of the variables -/

lemma maxRule : CompileRule fun s s' => s.chain.varsMaxSize ≤ s'.chain.varsMaxSize where
  refl _ := le_rfl
  trans := le_trans
  emit data s ret s' h := by
    obtain ⟨-, _, _, -, rfl⟩ := compilerEmit_eq_ok h
    exact le_rfl
  increment d s _ s' h := by
    obtain rfl := estate_modify_eq_ok.mp h
    exact le_rfl
  define _ h := by
    obtain ⟨-, -, rfl⟩ := frameDefineVar_eq_ok h
    exact le_max_left _ _
  child h := h
  loop hcond hbody := le_trans hcond hbody

/-- A computation behind another one. -/
lemma Keeps.behind {R : CompilerState → CompilerState → Prop} {α β : Type} {x : CompileM α}
    {f : α → CompileM β} (hf : ∀ a, Keeps R (f a)) {s s' : CompilerState} {b : β}
    (h : (x >>= f) s = .ok b s') : ∃ a t, x s = .ok a t ∧ R t s' := by
  obtain ⟨a, t, hx, hfa⟩ := estate_bind_eq_ok.mp h
  exact ⟨a, t, hx, hf a t b s' hfa⟩

/-- The counts behind the parts of an `if`. -/
lemma ifElse_counts {fuel : ℕ} {e : Expr} {trueScope falseScope : Stat} {s s' : CompilerState}
    {ret : ℤ} (h : compileIfStatement (compileExpression fuel) e (compileScope fuel trueScope)
      (compileScope fuel falseScope) s = .ok ret s') :
    ∃ r s₁ t₁ t₂, compileExpression fuel e s = .ok r s₁ ∧
      compileScope fuel trueScope (childState s₁ 512 s₁.chain.scope.stackSize) = .ok () t₁ ∧
      compileScope fuel falseScope (childState (t₁.leave s₁) 512 s₁.chain.scope.stackSize)
        = .ok () t₂ ∧
      s₁.chain.varsMaxSize ≤ t₁.chain.varsMaxSize ∧ t₁.chain.varsMaxSize ≤ t₂.chain.varsMaxSize ∧
      s'.chain.varsMaxSize = t₂.chain.varsMaxSize ∧
      ∀ vars, s₁.chain.Visible vars → s'.chain.Visible vars := by
  obtain ⟨-, r, s₁, t₁, t₂, hexpr, ht₁, ht₂, hend⟩ := compileIfStatement_runs h
  have hle₁ := maxRule.scope _ _ _ _ _ ht₁
  have hle₂ := maxRule.scope _ _ _ _ _ ht₂
  have hleave : ∀ vars, s₁.chain.Visible vars → (t₂.leave (t₁.leave s₁)).chain.Visible vars :=
    fun _ hvis => ⟨hvis.lookup, hvis.count⟩
  refine ⟨r, s₁, t₁, t₂, hexpr, ht₁, ht₂, hle₁, hle₂, ?_⟩
  rcases hend with rfl | ⟨data, r', hemit⟩
  · exact ⟨rfl, hleave⟩
  · have hemitted := (compilerEmit_eq_ok hemit).2
    refine ⟨?_, fun vars hvis => (hleave vars hvis).advanced hemitted.advanced⟩
    obtain ⟨_, _, -, rfl⟩ := hemitted
    rfl

/-- The counts behind the parts of a `while`. -/
lemma while_counts {fuel : ℕ} {e : Expr} {loopScope : Stat} {s s' : CompilerState} {ret : ℤ}
    (h : compileWhileStatement (compileExpression fuel) e (compileScope fuel loopScope) s
      = .ok ret s') :
    ∃ r s₁ t, compileExpression fuel e (condState s) = .ok r s₁ ∧
      compileScope fuel loopScope (childState (forgetVars s₁ s.chain.scope.vars.length) 512 0)
        = .ok () t ∧
      s₁.chain.varsMaxSize ≤ t.chain.varsMaxSize ∧
      s'.chain.varsMaxSize = t.chain.varsMaxSize := by
  obtain ⟨-, r, s₁, t, hexpr, ht, data, r', hemit⟩ := compileWhileStatement_runs h
  have hle := maxRule.scope _ _ _ _ _ ht
  refine ⟨r, s₁, t, hexpr, ht, hle, ?_⟩
  obtain ⟨-, _, _, -, rfl⟩ := compilerEmit_eq_ok hemit
  rfl

/-- Below a call that returns all calls return, and do not count more variables. -/
theorem Calls.returns_below {c c' : Call} (h : Calls c c') {ret : ℤ} {s' : CompilerState}
    (hrun : c.run = .ok ret s') :
    ∃ ret' t', c'.run = .ok ret' t' ∧ t'.chain.varsMaxSize ≤ s'.chain.varsMaxSize := by
  have hR := maxRule
  -- what follows a part whose code is 0
  have next : ∀ {f : ℤ → CompileM ℤ}, (∀ ret, Keeps _ (f ret)) →
      ∀ ret, Keeps _ (if ret ≠ 0 then pure ret else f ret : CompileM ℤ) :=
    fun hf ret => ExprRule.ite (hR.pure ret) (hf ret)
  -- a call that returns nothing
  have inner : ∀ {x : CompileM Unit} {s t u : CompilerState}, x s = .ok () t →
      t.chain.varsMaxSize ≤ u.chain.varsMaxSize →
      ∃ ret' t', (x >>= fun _ => (pure 0 : CompileM ℤ)) s = .ok ret' t' ∧
        t'.chain.varsMaxSize ≤ u.chain.varsMaxSize :=
    fun hx hle => ⟨0, _, estate_bind_eq_ok.mpr ⟨_, _, hx, rfl⟩, hle⟩
  cases h with
  | group => exact ⟨ret, s', hrun, le_rfl⟩
  | unaryOp hop =>
    change compileUnaryOp _ _ _ _ = _ at hrun
    rw [compileUnaryOp, if_neg hop] at hrun
    exact Keeps.behind (next fun _ => hR.counted _ _) hrun
  | specialCast => exact Keeps.behind (next fun _ => hR.counted _ _) hrun
  | assignment htrace htarget =>
    change compileExpression _ _ _ = _ at hrun
    rw [compileExpression_assignment, compileBinaryOpAssignment,
      estate_bind_of_ok (astNodeTraceDataType_of_ok htrace)] at hrun
    dsimp only at hrun
    rw [estate_bind_of_ok htarget] at hrun
    refine Keeps.behind (next fun _ => ?_) hrun
    exact ExprRule.ite
      (hR.bind (hR.increment _) fun _ => hR.bind (hR.emit _) fun _ => hR.counted _ _)
      (hR.counted _ _)
  | functionCall hfunc =>
    change compileExpression _ _ _ = _ at hrun
    rw [compileExpression_functionCall, compileFunctionCall,
      estate_bind_of_ok (estate_get_eq _)] at hrun
    simp only [hfunc] at hrun
    obtain ⟨index, s₁, hindex, hrun⟩ := estate_bind_eq_ok.mp hrun
    obtain ⟨-, rfl⟩ := estate_pure_eq_ok.mp hindex
    obtain ⟨_, t, hargs, hle⟩ := Keeps.behind (fun _ => hR.emit _) hrun
    exact inner hargs hle
  | left hassign hcall htrace hop =>
    change compileExpression _ _ _ = _ at hrun
    rw [compileExpression_operands hassign hcall htrace, compileOperands, if_neg hop] at hrun
    refine Keeps.behind (next fun _ => ?_) hrun
    exact hR.bind (hR.expression _ _) (next fun _ => hR.counted _ _)
  | right hassign hcall htrace hop hleft =>
    change compileExpression _ _ _ = _ at hrun
    rw [compileExpression_operands hassign hcall htrace, compileOperands, if_neg hop,
      estate_bind_of_ok hleft] at hrun
    exact Keeps.behind (next fun _ => hR.counted _ _) hrun
  | argsLeft =>
    obtain ⟨_, t, hargs, hrun⟩ := estate_bind_eq_ok.mp hrun
    obtain ⟨-, rfl⟩ := estate_pure_eq_ok.mp hrun
    exact Keeps.behind (fun _ => hR.args (hR.expression _) _) hargs
  | argsRight hleft =>
    obtain ⟨_, t, hargs, hrun⟩ := estate_bind_eq_ok.mp hrun
    obtain ⟨-, rfl⟩ := estate_pure_eq_ok.mp hrun
    rw [compileArgs, if_pos rfl, estate_bind_of_ok hleft] at hargs
    exact inner hargs le_rfl
  | argsLast hlast =>
    obtain ⟨_, t, hargs, hrun⟩ := estate_bind_eq_ok.mp hrun
    obtain ⟨-, rfl⟩ := estate_pure_eq_ok.mp hrun
    rw [compileArgs_last _ hlast] at hargs
    exact Keeps.behind (fun _ => hR.pure _) hargs
  | exprStat => exact ⟨ret, s', hrun, le_rfl⟩
  | ifCond =>
    obtain ⟨r, s₁, t₁, t₂, hexpr, -, -, hle₁, hle₂, hmax, -⟩ := ifElse_counts hrun
    exact ⟨r, s₁, hexpr, by omega⟩
  | ifTrue hexpr =>
    obtain ⟨r, s₁, t₁, t₂, hexpr', ht₁, -, hle₁, hle₂, hmax, -⟩ := ifElse_counts hrun
    rw [hexpr] at hexpr'
    cases hexpr'
    exact inner ht₁ (by omega)
  | ifFalse hexpr htrue =>
    obtain ⟨r, s₁, t₁, t₂, hexpr', ht₁, ht₂, hle₁, hle₂, hmax, -⟩ := ifElse_counts hrun
    rw [hexpr] at hexpr'
    cases hexpr'
    rw [htrue] at ht₁
    cases ht₁
    exact inner ht₂ hmax.ge
  | whileCond =>
    obtain ⟨r, s₁, t, hexpr, -, hle, hmax⟩ := while_counts hrun
    exact ⟨r, s₁, hexpr, by omega⟩
  | whileBody hexpr =>
    obtain ⟨r, s₁, t, hexpr', ht, -, hmax⟩ := while_counts hrun
    rw [hexpr] at hexpr'
    cases hexpr'
    exact inner ht hmax.ge
  | scopeStat hne =>
    obtain ⟨_, t, hscope, hrun⟩ := estate_bind_eq_ok.mp hrun
    obtain ⟨-, rfl⟩ := estate_pure_eq_ok.mp hrun
    rw [compileScope_eq _ hne] at hscope
    exact Keeps.behind (fun _ => hR.scope _ _) hscope
  | scopeNext hne hstat =>
    obtain ⟨_, t, hscope, hrun⟩ := estate_bind_eq_ok.mp hrun
    obtain ⟨-, rfl⟩ := estate_pure_eq_ok.mp hrun
    rw [compileScope_eq _ hne, estate_bind_of_ok hstat] at hscope
    exact inner hscope le_rfl

/-- The run lemma: so it is however deep the calls are. -/
theorem returns_below {c c' : Call} (h : Relation.ReflTransGen Calls c c') {ret : ℤ}
    {s' : CompilerState} (hrun : c.run = .ok ret s') :
    ∃ ret' t', c'.run = .ok ret' t' ∧ t'.chain.varsMaxSize ≤ s'.chain.varsMaxSize := by
  induction h with
  | refl => exact ⟨ret, s', hrun, le_rfl⟩
  | tail _ hstep ih =>
    obtain ⟨_, _, hrun₁, hle₁⟩ := ih
    obtain ⟨ret', t', hrun', hle'⟩ := hstep.returns_below hrun₁
    exact ⟨ret', t', hrun', hle'.trans hle₁⟩

/-! ## The slots that are emitted -/

/-- The variables are laid out, and counted. -/
def CountedVars (names : List CStr) (s : CompilerState) : Prop :=
  Laid names s.chain ∧ s.chain.declared.length ≤ s.chain.varsMaxSize

lemma countedVars_invariant (names : List CStr) : CompileInvariant (CountedVars names) where
  moved hs hm := by
    refine ⟨(laid_invariant names).moved hs.1 hm, ?_⟩
    rw [declared_moved, List.append_nil]
    exact hs.2.trans hm
  define hs hnew hdefine := by
    refine ⟨(laid_invariant names).define hs.1 hnew hdefine, ?_⟩
    have hlen := hs.1.nested.length
    obtain ⟨-, hdeclared, -⟩ := hs.1.define hdefine
    obtain ⟨-, -, rfl⟩ := frameDefineVar_eq_ok hdefine
    rw [hdeclared, List.length_append, List.length_singleton]
    change _ ≤ max _ _
    rw [ScopeChain.declared] at *
    omega
  child hs := by
    refine ⟨(laid_invariant names).child hs.1, ?_⟩
    have hdeclared : ∀ s stackSize, (childState s 512 stackSize).chain.declared
        = s.chain.declared := by
      intro s stackSize
      simp [ScopeChain.declared, declaredVars, childState]
    rw [hdeclared]
    exact hs.2

/-- A visible variable has the slot of its place. -/
lemma Laid.slot_lt {names : List CStr} {chain : ScopeChain} (h : Laid names chain) {name : CStr}
    {var : ScopeVar} (hvar : chain.lookup name = some var) :
    var.index.toNat < chain.declared.length := by
  rw [lookup_vars, lookupVar] at hvar
  have hmem := h.nested.perm.mem_iff.mp (List.mem_of_find?_eq_some hvar)
  obtain ⟨i, hi, hget⟩ := List.mem_iff_getElem.mp hmem
  rw [h.numbered i var (List.getElem?_eq_some_iff.mpr ⟨hi, hget⟩), UInt8.toNat_ofNat']
  exact (Nat.mod_le _ _).trans_lt hi

/-- A slot that is emitted is below the maximum behind the call. -/
theorem EmitsSlot.lt {c : Call} {slot : UInt8} (h : EmitsSlot c slot) {names : List CStr}
    (hc : CountedVars names c.state) {ret : ℤ} {s' : CompilerState} (hrun : c.run = .ok ret s') :
    slot.toNat < s'.chain.varsMaxSize := by
  have hmono := maxRule.returns hrun
  cases h with
  | load hvar _ => exact ((hc.1.slot_lt hvar).trans_le hc.2).trans_le hmono
  | save htrace htarget hright _ =>
    obtain ⟨_, t, ht, hle⟩ := (Calls.assignment htrace htarget).returns_below hrun
    have hright := maxRule.returns ht
    rcases assignmentTarget_cases htarget with ⟨hvar, rfl⟩ | ⟨-, -, hdefine⟩
    · exact ((hc.1.slot_lt hvar).trans_le hc.2).trans_le hmono
    · obtain ⟨-, hvar, rfl⟩ := frameDefineVar_eq_ok hdefine
      rw [hvar, UInt8.toNat_ofNat']
      change max _ _ ≤ _ at hright
      omega

/-! ## The slots that are counted -/

/-- The number of variables that are visible where they are nested. -/
def ScopeChain.count (chain : ScopeChain) : ℕ := chain.scope.vars.length + chain.scope.varsOff

lemma frameDefineVar_count {s s' : CompilerState} {t : StaticType} {name : CStr} {var : ScopeVar}
    (h : frameDefineVar t name s = .ok var s') : s'.chain.count = s.chain.count + 1 ∧
      s'.chain.varsMaxSize = max s.chain.varsMaxSize (s.chain.count + 1) := by
  obtain ⟨-, -, rfl⟩ := frameDefineVar_eq_ok h
  have hnext : s.chain.scope.vars.length + 1 + s.chain.scope.varsOff = s.chain.count + 1 := by
    rw [ScopeChain.count]
    omega
  refine ⟨?_, congrArg (max _) hnext⟩
  simp only [ScopeChain.count, CompilerState.moved, List.length_append, List.length_singleton]
  omega

/-- Inside of an expression the maximum follows the variables. -/
lemma countRule : ExprRule fun s s' => s.chain.count ≤ s'.chain.count ∧
    (s.chain.count ≤ s.chain.varsMaxSize →
      s'.chain.varsMaxSize = max s.chain.varsMaxSize s'.chain.count) where
  refl s := ⟨le_rfl, fun h => (max_eq_left h).symm⟩
  trans := by
    rintro s t u ⟨hle, hmax⟩ ⟨hle', hmax'⟩
    refine ⟨hle.trans hle', fun h => ?_⟩
    have hmax := hmax h
    have hmax' := hmax' (by omega)
    omega
  emit data s ret s' h := by
    obtain ⟨-, _, _, -, rfl⟩ := compilerEmit_eq_ok h
    have hcount : ∀ emitter account events m,
        (s.moved emitter account events [] m).chain.count = s.chain.count := by
      simp [ScopeChain.count, CompilerState.moved]
    rw [hcount]
    exact ⟨le_rfl, fun h => (max_eq_left h).symm⟩
  increment d s _ s' h := by
    obtain rfl := estate_modify_eq_ok.mp h
    exact ⟨le_rfl, fun h => (max_eq_left h).symm⟩
  define _ h := by
    obtain ⟨hcount, hmax⟩ := frameDefineVar_count h
    exact ⟨by omega, fun _ => by rw [hmax, hcount]⟩

/-- Behind an expression the maximum counts its variables. -/
lemma compileExpression_max {fuel : ℕ} {e : Expr} {vars : Vars} {s s' : CompilerState} {ret : ℤ}
    (hu : e.Untraced) (hreg : RegularExpr vars e) (hvis : s.chain.Visible vars)
    (hle : vars.length ≤ s.chain.varsMaxSize) (h : compileExpression fuel e s = .ok ret s') :
    s'.chain.varsMaxSize = max s.chain.varsMaxSize (exprVars vars e).length ∧
      s'.chain.Visible (exprVars vars e) := by
  obtain ⟨-, -, hvis'⟩ := compileExpression_coded e hu hreg hvis h
  have hmax := (countRule.expression fuel e s ret s' h).2
  rw [ScopeChain.count, ScopeChain.count, hvis.count, hvis'.count] at hmax
  exact ⟨hmax hle, hvis'⟩

/-- Slots with these numbers are used. -/
def Saved (c : Call) (lo hi : ℕ) : Prop := ∀ i, lo ≤ i → i < hi → UsesSlot c (UInt8.ofNat i)

namespace Saved

variable {c c' : Call} {lo mid hi : ℕ}

lemma empty (c : Call) (lo : ℕ) : Saved c lo lo := fun i hlo hhi => by omega

lemma head (h : Saved c' lo hi) (hstep : Calls c c') : Saved c lo hi := by
  intro i hlo hhi
  obtain ⟨c'', hreaches, hslot⟩ := h i hlo hhi
  exact ⟨c'', .head hstep hreaches, hslot⟩

lemma join (h₁ : Saved c lo mid) (h₂ : Saved c mid hi) : Saved c lo hi := by
  intro i hlo hhi
  rcases Nat.lt_or_ge i mid with hlt | hge
  · exact h₁ i hlo hlt
  · exact h₂ i hge hhi

lemma max (h₁ : Saved c lo mid) (h₂ : Saved c lo hi) : Saved c lo (max mid hi) := by
  intro i hlo hhi
  rcases lt_max_iff.mp hhi with hlt | hlt
  · exact h₁ i hlo hlt
  · exact h₂ i hlo hlt

end Saved

/-- The new variables of an expression are saved to. -/
def ExprSaves (e : Expr) : Prop :=
  ∀ ⦃fuel : ℕ⦄ ⦃vars : Vars⦄ ⦃s s' : CompilerState⦄ ⦃ret : ℤ⦄, e.Untraced → RegularExpr vars e →
    s.chain.Visible vars → compileExpression fuel e s = .ok ret s' →
    Saved ⟨fuel, .expr e, s⟩ vars.length (exprVars vars e).length

/-- So are those of arguments. -/
def ArgsSaves (args : Expr) : Prop :=
  ∀ ⦃fuel : ℕ⦄ ⦃vars : Vars⦄ ⦃s s' : CompilerState⦄, args.Untraced → RegularExpr vars args →
    s.chain.Visible vars → compileArgs (compileExpression fuel) args s = .ok () s' →
    Saved ⟨fuel, .args args, s⟩ vars.length (exprVars vars args).length

lemma opcodeSave_ne_zero (r : Rep) : opcodeSave r.type ≠ 0 := by cases r <;> decide

/-- An assignment to a new variable saves to its slot. -/
lemma exprSaves_assignment (t t' : StaticType) (name : CStr) (right : Expr) :
    ExprSaves (.binaryOp t .assignment (.ident t' name) right) := by
  rintro fuel vars s s' ret ⟨-, -, hu⟩ hreg hvis h
  obtain ⟨r, hr⟩ := Option.isSome_iff_exists.mp hreg
  rw [exprVars, assignVars]
  cases hvar : lookupVar vars name with
  | some var => exact Saved.empty _ _
  | none =>
    intro i hlo hhi
    obtain rfl : i = vars.length := by
      simp only [declareVar, List.length_append, List.length_singleton] at hhi
      omega
    cases fuel with
    | zero => exact (estate_throw_eq_ok.mp h).elim
    | succ fuel =>
      have htrace := traceDataType_eq hvis.sees hu hr
      rw [compileExpression_assignment, compileBinaryOpAssignment,
        estate_bind_of_ok (astNodeTraceDataType_of_ok htrace)] at h
      dsimp only at h
      obtain ⟨target, s₁, htarget, h⟩ := estate_bind_eq_ok.mp h
      obtain ⟨r₁, s₂, hright, -⟩ := estate_bind_eq_ok.mp h
      obtain ⟨rfl, -⟩ :=
        compiles_traced hr _ _ _ _ (assignmentTarget_sees hvis htarget) hright
      rcases assignmentTarget_cases htarget with ⟨hfound, -⟩ | ⟨-, htype, hdefine⟩
      · rw [hvis.lookup, hvar] at hfound
        cases hfound
      · have hsave : opcodeSave target.2.1 ≠ 0 := by
          rw [htype, traced_staticType hr]
          exact opcodeSave_ne_zero r
        obtain ⟨-, hindex, -⟩ := frameDefineVar_eq_ok hdefine
        have hslot : target.1.index = UInt8.ofNat vars.length := by rw [hindex, hvis.count]
        rw [← hslot]
        exact ⟨_, .refl, .save htrace htarget hright hsave⟩

/-- Expressions and arguments, together because a call has arguments and these have calls. -/
lemma exprSaves_argsSaves (e : Expr) :
    ExprSaves e ∧ ArgsSaves e ∧ ∀ t args, e = .group t args → ArgsSaves args := by
  have hone : ∀ {e : Expr}, e.isBinaryOp = false → ExprSaves e → ArgsSaves e := by
    intro e hlast he fuel vars s s' hu hreg hvis h
    rw [compileArgs_last _ hlast] at h
    obtain ⟨ret, s₁, h₁, -⟩ := estate_bind_eq_ok.mp h
    exact (he hu hreg hvis h₁).head (.argsLast hlast)
  have hkeeps : ∀ {e : Expr}, (∀ vars, exprVars vars e = vars) → ExprSaves e := by
    intro e hvars fuel vars s s' ret _ _ _ _
    rw [hvars]
    exact Saved.empty _ _
  induction e with
  | group t expr ih =>
    have he : ExprSaves (.group t expr) := by
      intro fuel vars s s' ret hu hreg hvis h
      cases fuel with
      | zero => exact (estate_throw_eq_ok.mp h).elim
      | succ fuel => exact (ih.1 hu.2 hreg hvis h).head .group
    refine ⟨he, hone rfl he, fun t' args h => ?_⟩
    cases h
    exact ih.2.1
  | unaryOp t operator operand ih =>
    have he : ExprSaves (.unaryOp t operator operand) := by
      rintro fuel vars s s' ret ⟨-, hu⟩ ⟨rfl, hreg⟩ hvis h
      cases fuel with
      | zero => exact (estate_throw_eq_ok.mp h).elim
      | succ fuel =>
        have hop : intOperatorToOpcode .unaryMinus ≠ 0 := by decide
        rw [compileExpression, compileUnaryOp, if_neg hop] at h
        obtain ⟨r₁, s₁, h₁, -⟩ := estate_bind_eq_ok.mp h
        exact (ih.1 hu hreg hvis h₁).head (.unaryOp hop)
    exact ⟨he, hone rfl he, fun _ _ h => by cases h⟩
  | binaryOp t operator left right ihl ihr =>
    by_cases hcomma : operator = .comma
    · subst hcomma
      refine ⟨fun _ _ _ _ _ _ _ _ h => (compileExpression_comma h).elim, ?_, fun _ _ h => by cases h⟩
      rintro fuel vars s s' ⟨-, hul, hur⟩ ⟨hregl, hregr⟩ hvis h
      rw [compileArgs, if_pos rfl] at h
      obtain ⟨r₁, s₁, h₁, h⟩ := estate_bind_eq_ok.mp h
      obtain ⟨-, -, hvis₁⟩ := compileExpression_coded left hul hregl hvis h₁
      exact ((ihl.1 hul hregl hvis h₁).head .argsLeft).join
        ((ihr.2.1 hur hregr hvis₁ h).head (.argsRight h₁))
    -- of the operators only the assignment and the call reach saved slots
    · have he : ExprSaves (.binaryOp t operator left right) := by
        cases operator with
        | comma => exact (hcomma rfl).elim
        | assignment =>
          cases left with
          | ident t' name => exact exprSaves_assignment t t' name right
          | _ => exact hkeeps fun _ => rfl
        | functionCall =>
          cases left with
          | ident t' name =>
            cases right with
            | group t'' args =>
              rintro fuel vars s s' ret ⟨-, -, hu⟩ hreg hvis h
              cases fuel with
              | zero => exact (estate_throw_eq_ok.mp h).elim
              | succ fuel =>
                rw [compileExpression_functionCall, compileFunctionCall,
                  estate_bind_of_ok (estate_get_eq _)] at h
                cases hfunc : hashmapGet id s.globalFuncMap name with
                | none =>
                  simp only [hfunc] at h
                  exact (estate_throw_eq_ok.mp h).elim
                | some funcDesc =>
                  simp only [hfunc] at h
                  obtain ⟨index, s₁, hindex, h⟩ := estate_bind_eq_ok.mp h
                  obtain ⟨-, rfl⟩ := estate_pure_eq_ok.mp hindex
                  obtain ⟨_, s₁, hargs, -⟩ := estate_bind_eq_ok.mp h
                  exact ((ihr.2.2 t'' args rfl) hu.2 hreg hvis hargs).head (.functionCall hfunc)
            | _ => exact hkeeps fun _ => rfl
          | _ => exact hkeeps fun _ => rfl
        | _ => exact hkeeps fun _ => rfl
      exact ⟨he, fun _ _ _ _ _ _ _ h => (compileArgs_binaryOp hcomma h).elim, fun _ _ h => by cases h⟩
  | _ => exact ⟨hkeeps fun _ => rfl, hone rfl (hkeeps fun _ => rfl), fun _ _ h => by cases h⟩

/-- Behind a scope the maximum counts what its statements have visible at a time, and the slots of
these variables are used. -/
def ScopeDeclares (stat : Stat) : Prop :=
  ∀ ⦃fuel : ℕ⦄ ⦃vars : Vars⦄ ⦃s s' : CompilerState⦄, stat.Untraced → EachExpr RegularExpr vars stat →
    s.chain.Visible vars → vars.length ≤ s.chain.varsMaxSize →
    compileScope fuel stat s = .ok () s' →
    s'.chain.varsMaxSize = max s.chain.varsMaxSize (scopeSlots vars stat) ∧
      Saved ⟨fuel, .scope stat, s⟩ vars.length (scopeSlots vars stat)

lemma ScopeDeclares.expr {e : Expr} {next : Stat} (hnext : ScopeDeclares next) :
    ScopeDeclares (.expr e next) := by
  rintro fuel vars s s' ⟨hue, hu⟩ ⟨hrege, hreg⟩ hvis hle h
  obtain ⟨ret, s₁, hexpr, h⟩ := estate_bind_eq_ok.mp h
  obtain ⟨hmax₁, hvis₁⟩ := compileExpression_max hue hrege hvis hle hexpr
  obtain ⟨hmax, hsaved⟩ := hnext hu hreg hvis₁ (hmax₁ ▸ le_max_right _ _) h
  have hslots := length_le_scopeSlots (exprVars vars e) next
  refine ⟨by rw [hmax, hmax₁, max_assoc, max_eq_right hslots, scopeSlots], ?_⟩
  have hcond := (exprSaves_argsSaves e).1 hue hrege hvis hexpr
  exact ((hcond.head .exprStat).head (.scopeStat fun h => by cases h)).join
    (hsaved.head (.scopeNext (fun h => by cases h) hexpr))

lemma ScopeDeclares.ifElse {e : Expr} {trueScope falseScope next : Stat}
    (htrue : ScopeDeclares trueScope) (hfalse : ScopeDeclares falseScope)
    (hnext : ScopeDeclares next) : ScopeDeclares (.ifElse e trueScope falseScope next) := by
  rintro fuel vars s s' ⟨hue, hut, huf, hu⟩ ⟨hrege, hregt, hregf, hreg⟩ hvis hle h
  obtain ⟨ret, s₂, hif, h⟩ := estate_bind_eq_ok.mp h
  obtain ⟨r, s₁, t₁, t₂, hexpr, ht₁, ht₂, -, -, hmax₂, hvis₂⟩ := ifElse_counts hif
  obtain ⟨hmax₁, hvis₁⟩ := compileExpression_max hue hrege hvis hle hexpr
  have hcond := (exprSaves_argsSaves e).1 hue hrege hvis hexpr
  have hle₁ : (exprVars vars e).length ≤ s₁.chain.varsMaxSize := hmax₁ ▸ le_max_right _ _
  obtain ⟨hmaxt, hsavedt⟩ := htrue hut hregt (hvis₁.child _ _) hle₁ ht₁
  have hlet : (exprVars vars e).length ≤ t₁.chain.varsMaxSize :=
    hle₁.trans (hmaxt ▸ le_max_left _ _)
  have hleave : (t₁.leave s₁).chain.Visible (exprVars vars e) := ⟨hvis₁.lookup, hvis₁.count⟩
  obtain ⟨hmaxf, hsavedf⟩ := hfalse huf hregf (hleave.child _ _) hlet ht₂
  have hlef : (exprVars vars e).length ≤ s₂.chain.varsMaxSize :=
    hmax₂ ▸ hlet.trans (hmaxf ▸ le_max_left _ _)
  obtain ⟨hmax, hsaved⟩ := hnext hu hreg (hvis₂ _ hvis₁) hlef h
  have hslots := length_le_scopeSlots (exprVars vars e) next
  have hstart : ∀ {c}, Calls ⟨fuel, .stat (.ifElse e trueScope falseScope next), s⟩ c →
      ∀ {lo hi}, Saved c lo hi → Saved ⟨fuel, .scope (.ifElse e trueScope falseScope next), s⟩ lo hi :=
    fun hstep _ _ hsaved => (hsaved.head hstep).head (.scopeStat nofun)
  constructor
  · change t₁.chain.varsMaxSize = max s₁.chain.varsMaxSize _ at hmaxt
    change t₂.chain.varsMaxSize = max t₁.chain.varsMaxSize _ at hmaxf
    simp only [scopeSlots]
    omega
  · refine (hstart .ifCond hcond).join ?_
    exact (hstart (.ifTrue hexpr) hsavedt).max
      ((hstart (.ifFalse hexpr ht₁) hsavedf).max (hsaved.head (.scopeNext nofun hif)))

lemma ScopeDeclares.while {e : Expr} {loopScope next : Stat} (hloop : ScopeDeclares loopScope)
    (hnext : ScopeDeclares next) : ScopeDeclares (.while e loopScope next) := by
  rintro fuel vars s s' ⟨hue, hul, hu⟩ ⟨hrege, hregl, hreg⟩ hvis hle h
  obtain ⟨ret, s₂, hwhile, h⟩ := estate_bind_eq_ok.mp h
  obtain ⟨r, s₁, t, hexpr, ht, -, hmax₂⟩ := while_counts hwhile
  obtain ⟨hmax₁, -⟩ := compileExpression_max hue hrege hvis.cond hle hexpr
  have hcond := (exprSaves_argsSaves e).1 hue hrege hvis.cond hexpr
  -- the variables of the condition are forgotten, and again behind the body
  obtain ⟨-, ⟨newVars, hcoded⟩, -⟩ := compileExpression_coded e hue hrege hvis.cond hexpr
  have hvis₁ := hvis.cond.advanced hcoded.forget
  have hvis₂ : s₂.chain.Visible vars := by
    obtain ⟨-, _, _, _, hexpr', ht', hadv⟩ := compileWhileStatement_eq_ok hwhile
    rw [hexpr] at hexpr'
    cases hexpr'
    rw [ht] at ht'
    cases ht'
    obtain ⟨_, _, _, hgrow⟩ := grower_scope fuel loopScope _ _ _ ht
    exact hvis.advanced (hadv _ _ _ hcoded _ _ _ hgrow).2
  have hle₁ : vars.length ≤ s₁.chain.varsMaxSize :=
    (prefix_exprVars vars e).length_le.trans (hmax₁ ▸ le_max_right _ _)
  obtain ⟨hmaxl, hsavedl⟩ := hloop hul hregl (hvis₁.child _ _) hle₁ ht
  have hle₂ : vars.length ≤ s₂.chain.varsMaxSize := hmax₂ ▸ hle₁.trans (hmaxl ▸ le_max_left _ _)
  obtain ⟨hmax, hsaved⟩ := hnext hu hreg hvis₂ hle₂ h
  have hstart : ∀ {c}, Calls ⟨fuel, .stat (.while e loopScope next), s⟩ c →
      ∀ {lo hi}, Saved c lo hi → Saved ⟨fuel, .scope (.while e loopScope next), s⟩ lo hi :=
    fun hstep _ _ hsaved => (hsaved.head hstep).head (.scopeStat nofun)
  constructor
  · change t.chain.varsMaxSize = max s₁.chain.varsMaxSize _ at hmaxl
    change s₁.chain.varsMaxSize = max s.chain.varsMaxSize _ at hmax₁
    simp only [scopeSlots]
    omega
  · exact (hstart .whileCond hcond).max
      ((hstart (.whileBody hexpr) hsavedl).max (hsaved.head (.scopeNext nofun hwhile)))

/-- The slots that the statements of a scope take. -/
theorem scopeDeclares (stat : Stat) : ScopeDeclares stat := by
  induction stat with
  | nil =>
    intro fuel vars s s' _ _ _ hle h
    obtain ⟨-, rfl⟩ := estate_pure_eq_ok.mp h
    exact ⟨(max_eq_left hle).symm, Saved.empty _ _⟩
  | expr e next ih => exact ih.expr
  | ifElse e trueScope falseScope next iht ihf ih => exact iht.ifElse ihf ih
  | «while» e loopScope next ihl ih => exact ihl.while ih
  | other next => exact fun _ _ _ _ _ _ _ _ h => (estate_throw_eq_ok.mp h).elim
  | notScope stat => exact fun _ _ _ _ _ _ _ _ h => (estate_throw_eq_ok.mp h).elim

end PhantomShell
