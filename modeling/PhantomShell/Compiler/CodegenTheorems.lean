import PhantomShell.Compiler.Codegen
import PhantomShell.Compiler.EmissionTheorems

/-!
# The compiler emits the code of its source

A successful run of `compileExpression` or `compileScope` on supported source emits exactly
`exprCode` or `scopeCode` (`Emitted`), declares `exprVars` or `scopeVars`, and changes nothing
else but the stack accounting.
-/

namespace PhantomShell

/-! ## Variables -/

lemma prefix_declareVar (vars : Vars) (t : StaticType) (name : CStr) :
    vars <+: declareVar vars t name := List.prefix_append _ _

/-- The variables of a scope are those around it and its own. -/
lemma prefix_exprVars (vars : Vars) (e : Expr) : vars <+: exprVars vars e := by
  unfold exprVars
  split
  · exact prefix_exprVars _ _
  · exact prefix_exprVars _ _
  · unfold assignVars
    split
    · exact List.prefix_refl _
    · exact prefix_declareVar _ _ _
  · exact prefix_exprVars _ _
  · exact (prefix_exprVars _ _).trans (prefix_exprVars _ _)
  · exact List.prefix_refl _

lemma prefix_scopeVars (vars : Vars) (stat : Stat) : vars <+: scopeVars vars stat := by
  induction stat generalizing vars with
  | expr expr next ih => exact (prefix_exprVars vars expr).trans (ih _)
  | ifElse expr trueScope falseScope next _ _ ih => exact (prefix_exprVars vars expr).trans (ih _)
  | «while» expr loopScope next _ ih => exact ih vars
  | _ => exact List.prefix_refl _

lemma length_le_scopeSlots (vars : Vars) (stat : Stat) : vars.length ≤ scopeSlots vars stat := by
  induction stat generalizing vars with
  | expr expr next ih => exact (prefix_exprVars vars expr).length_le.trans (ih _)
  | ifElse expr trueScope falseScope next iht _ _ =>
    exact ((prefix_exprVars vars expr).length_le.trans (iht _)).trans (le_max_left _ _)
  | «while» expr loopScope next _ _ =>
    exact (prefix_exprVars vars expr).length_le.trans (le_max_left _ _)
  | _ => exact le_refl _

lemma Slotted.declare {vars : Vars} (h : Slotted vars) (hlen : vars.length < 256) (t : StaticType)
    (name : CStr) : Slotted (declareVar vars t name) := by
  intro i var hvar
  rw [declareVar] at hvar
  rcases Nat.lt_or_ge i vars.length with hi | hi
  · rw [List.getElem?_append_left hi] at hvar
    exact h i var hvar
  · rw [List.getElem?_append_right hi, List.getElem?_singleton] at hvar
    split at hvar
    · cases hvar
      rw [UInt8.toNat_ofNat']
      omega
    · cases hvar

/-! ## Tracing -/

/-- The chain of scopes finds each of the variables. -/
def ScopeChain.Sees (chain : ScopeChain) (vars : Vars) : Prop :=
  ∀ name var, lookupVar vars name = some var → chain.lookup name = some var

/-- An operand after `ast_node_trace_binary_op_data_type`. -/
def castExpr (source target : Rep) (expr : Expr) : Expr :=
  if source = target then expr else .specialCast target.type opcodeI2f expr

/-- An operand after `ast_node_trace_data_type`. -/
def traced (vars : Vars) : Expr → Expr
  | .ident staticType name =>
    .ident (((lookupVar vars name).map (·.staticType)).getD staticType) name
  | .group _ expr => .group (traced vars expr).staticType (traced vars expr)
  | .unaryOp _ operator operand =>
    .unaryOp (traced vars operand).staticType operator (traced vars operand)
  | .binaryOp _ operator left right =>
    let a := (operandRep vars left).getD .int
    let b := (operandRep vars right).getD .int
    .binaryOp (joinRep a b).type operator (castExpr a (joinRep a b) (traced vars left))
      (castExpr b (joinRep a b) (traced vars right))
  | expr => expr

/-- Tracing assigns the type of the operand. -/
lemma traced_staticType {vars : Vars} {e : Expr} {r : Rep} (h : operandRep vars e = some r) :
    (traced vars e).staticType = r.type := by
  induction e generalizing r with
  | literalInt value =>
    cases h
    rfl
  | literalFloat value =>
    cases h
    rfl
  | ident t name =>
    obtain ⟨var, hvar, ht⟩ := operandRep_ident h
    simp [traced, Expr.staticType, hvar, ht]
  | group t expr ih => exact ih h
  | unaryOp t operator operand ih => exact ih (operandRep_unaryOp h).2
  | binaryOp t operator left right =>
    obtain ⟨a, b, ha, hb, ⟨-, rfl, hab, -⟩ | ⟨-, rfl, -⟩⟩ := operandRep_binaryOp h
    · simp [traced, Expr.staticType, ha, hb, hab]
    · simp [traced, Expr.staticType, ha, hb]
  | specialCast t opcode operand => cases h
  | other t => cases h

/-- An operand is a literal, or its type is not known before it is traced. -/
lemma untraced_staticType {vars : Vars} {e : Expr} {r : Rep} (hu : e.Untraced)
    (h : operandRep vars e = some r) : e.staticType = .unknwn ∨ traced vars e = e := by
  cases e with
  | literalInt value => exact .inr rfl
  | literalFloat value => exact .inr rfl
  | ident t name => exact .inl hu
  | group t expr => exact .inl hu.1
  | unaryOp t operator operand => exact .inl hu.1
  | binaryOp t operator left right => exact .inl hu.1
  | specialCast t opcode operand => cases h
  | other t => cases h

lemma operator_ne_functionCall {r : Rep} {operator : Operator} {op : PlainOp}
    (h : valueOp r operator = some op) : operator ≠ .functionCall := by
  rintro rfl
  cases r <;> cases h

lemma operator_ne_assignment {r : Rep} {operator : Operator} {op : PlainOp}
    (h : valueOp r operator = some op) : operator ≠ .assignment := by
  rintro rfl
  cases r <;> cases h

/-- The cast that two different operand types settle on. -/
lemma typeSelectCastMethod_type {a b : Rep} (h : a ≠ b) :
    typeSelectCastMethod a.type b.type
      = ⟨opcodeI2f, if a = .int then 0 else 1, .float⟩ := by
  cases a <;> cases b <;> first | exact absurd rfl h | rfl

/-- `ast_node_trace_data_type` on an operand as the parser built it. -/
lemma traceDataType_eq {chain : ScopeChain} {vars : Vars} (hsees : chain.Sees vars) {e : Expr}
    {r : Rep} (hu : e.Untraced) (h : operandRep vars e = some r) :
    traceDataType chain e = .ok (traced vars e) := by
  -- the tracer skips an operand whose type is known, and then it is a literal
  have hskip : ∀ {x : Expr} {rx : Rep}, x.Untraced → operandRep vars x = some rx →
      traceDataType chain x = .ok (traced vars x) →
      (if x.staticType = .unknwn then traceDataType chain x else .ok x)
        = .ok (traced vars x) := by
    intro x rx hux hx htrace
    rcases untraced_staticType hux hx with ht | ht
    · rw [if_pos ht, htrace]
    · rw [htrace, ht, ite_self]
  induction e generalizing r with
  | literalInt value => rfl
  | literalFloat value => rfl
  | ident t name =>
    obtain ⟨var, hvar, -⟩ := operandRep_ident h
    have ht : t = .unknwn := hu
    simp [traceDataType, traced, ht, hsees name var hvar, hvar]
  | group t expr ih =>
    obtain ⟨ht, hu⟩ := hu
    rw [traceDataType, if_neg (by simp [ht]), hskip hu h (ih hu h), except_ok_bind]
    rfl
  | unaryOp t operator operand ih =>
    obtain ⟨ht, hu⟩ := hu
    have h' := (operandRep_unaryOp h).2
    rw [traceDataType, if_neg (by simp [ht]), hskip hu h' (ih hu h'), except_ok_bind]
    rfl
  | binaryOp t operator left right ihl ihr =>
    obtain ⟨ht, hul, hur⟩ := hu
    obtain ⟨a, b, ha, hb, hcase⟩ := operandRep_binaryOp h
    have hcall : operator ≠ .functionCall := by
      rcases hcase with ⟨rfl, -⟩ | ⟨-, -, op, hop⟩
      · decide
      · exact operator_ne_functionCall hop
    rw [traceDataType, if_neg (by simp [ht]), if_neg hcall,
      hskip hul ha (ihl hul ha), except_ok_bind, hskip hur hb (ihr hur hb), except_ok_bind,
      traced_staticType ha, traced_staticType hb]
    simp only [traced, ha, hb, Option.getD_some]
    by_cases hab : a = b
    · subst hab
      simp [joinRep, castExpr]
    · rw [if_pos (fun heq => hab (by cases a <;> cases b <;> first | rfl | cases heq)),
        typeSelectCastMethod_type hab]
      cases a <;> cases b <;> first | exact absurd rfl hab | rfl
  | specialCast t opcode operand => cases h
  | other t => cases h

/-- A tree with a type is not traced again. -/
lemma traceDataType_typed {chain : ScopeChain} {e : Expr} {r : Rep} (h : e.staticType = r.type) :
    traceDataType chain e = .ok e := by
  have hne : e.staticType ≠ .unknwn := by
    rw [h]
    exact Rep.type_ne_unknwn r
  cases e with
  | literalInt value => rfl
  | literalFloat value => rfl
  | _ =>
    rw [traceDataType]
    exact if_pos hne

lemma castExpr_staticType {e : Expr} {a b : Rep} (h : e.staticType = a.type) :
    (castExpr a b e).staticType = b.type := by
  unfold castExpr
  split
  · rw [h]
    congr
  · rfl

/-! ## Operands -/

/-- The chunks of straight code: one for each instruction. -/
def chunksOf (code : List Instr) : List (List UInt8) := code.map Instr.encode

/-- What the compiler counts for straight code: everything but calls. -/
def incsOf (code : List Instr) : List ℤ :=
  (code.filter fun i => !i.isCall).map fun i => opcodeToStackIncMap i.opcode

lemma chunksOf_append (a b : List Instr) : chunksOf (a ++ b) = chunksOf a ++ chunksOf b :=
  List.map_append

lemma incsOf_append (a b : List Instr) : incsOf (a ++ b) = incsOf a ++ incsOf b := by
  simp [incsOf]

/-- From `s` the code was emitted, each instruction of it counted. -/
def EmittedCode (s : CompilerState) (code : List Instr) (s' : CompilerState) : Prop :=
  Emitted s (chunksOf code) (incsOf code) s'

lemma EmittedCode.trans {s s₁ s₂ : CompilerState} {a b : List Instr} (h₁ : EmittedCode s a s₁)
    (h₂ : EmittedCode s₁ b s₂) : EmittedCode s (a ++ b) s₂ := by
  unfold EmittedCode
  rw [chunksOf_append, incsOf_append]
  exact Emitted.trans h₁ h₂

lemma Emitted.sees {s s' : CompilerState} {chunks : List (List UInt8)} {incs : List ℤ}
    (h : Emitted s chunks incs s') {vars : Vars} (hsees : s.chain.Sees vars) :
    s'.chain.Sees vars := fun name var hvar => by rw [h.lookup, hsees name var hvar]

/-- One instruction, counted and emitted. -/
lemma emittedCode_instr {s s' : CompilerState} {i : Instr} {ret : ℤ} (hi : i.isCall = false)
    (h : (frameIncrementStackSize (opcodeToStackIncMap i.opcode) >>= fun _ =>
      compilerEmit i.encode) s = .ok ret s') : ret = 0 ∧ EmittedCode s [i] s' := by
  have hincs : incsOf [i] = [opcodeToStackIncMap i.opcode] := by simp [incsOf, hi]
  unfold EmittedCode
  rw [hincs]
  exact emitCounted_eq_ok h

lemma opcodeLoad_type (r : Rep) (slot : UInt8) :
    opcodeLoad r.type = (Instr.load r slot).opcode := by cases r <;> rfl

lemma opcodeSave_type (r : Rep) (slot : UInt8) :
    opcodeSave r.type = (Instr.save r slot).opcode := by cases r <;> rfl

lemma binaryOpcode_eq {r : Rep} {operator : Operator} {op : PlainOp}
    (h : valueOp r operator = some op) : binaryOpcode r.type operator = op.opcode := by
  cases r <;> cases operator <;> cases h <;> rfl

lemma PlainOp.opcode_ne_zero (op : PlainOp) : op.opcode ≠ 0 := by cases op <;> decide

/-- Wherever the variables are seen, compiling the expression emits the code. -/
def Compiles (vars : Vars) (e : Expr) (code : List Instr) : Prop :=
  ∀ fuel s s' ret, s.chain.Sees vars → compileExpression fuel e s = .ok ret s' →
    ret = 0 ∧ EmittedCode s code s'

/-- The code of an operation behind the code of its operands. -/
lemma compileOperands_eq_ok {vars : Vars} {fuel : ℕ} {s s' : CompilerState} {ret : ℤ}
    {op : PlainOp} {left right : Expr} {a b : List Instr} (hsees : s.chain.Sees vars)
    (hleft : Compiles vars left a) (hright : Compiles vars right b)
    (h : compileOperands (compileExpression fuel) op.opcode left right s = .ok ret s') :
    ret = 0 ∧ EmittedCode s (a ++ b ++ [.plain op]) s' := by
  rw [compileOperands, if_neg (PlainOp.opcode_ne_zero op), estate_bind_eq_ok] at h
  obtain ⟨r₁, s₁, h₁, h⟩ := h
  obtain ⟨rfl, he₁⟩ := hleft _ _ _ _ hsees h₁
  rw [if_neg (by decide), estate_bind_eq_ok] at h
  obtain ⟨r₂, s₂, h₂, h⟩ := h
  obtain ⟨rfl, he₂⟩ := hright _ _ _ _ (Emitted.sees he₁ hsees) h₂
  rw [if_neg (by decide)] at h
  obtain ⟨hret, he⟩ := emittedCode_instr (i := .plain op) rfl h
  exact ⟨hret, (he₁.trans he₂).trans he⟩

/-- `compile_special_cast` around a converted operand. -/
lemma Compiles.cast {vars : Vars} {e : Expr} {code : List Instr} (he : Compiles vars e code)
    (a b : Rep) : Compiles vars (castExpr a b e) (code ++ castCode a b) := by
  intro fuel s s' ret hsees h
  unfold castExpr castCode at *
  split at h
  · rw [if_pos (by assumption), List.append_nil]
    exact he fuel s s' ret hsees h
  · rw [if_neg (by assumption)]
    cases fuel with
    | zero => cases h
    | succ fuel =>
      rw [compileExpression, compileSpecialCast, estate_bind_eq_ok] at h
      obtain ⟨r₁, s₁, h₁, h⟩ := h
      obtain ⟨rfl, he₁⟩ := he _ _ _ _ hsees h₁
      rw [if_neg (by decide)] at h
      obtain ⟨hret, he₂⟩ := emittedCode_instr (i := .plain .i2f) rfl h
      exact ⟨hret, he₁.trans he₂⟩

lemma compiles_literalInt (vars : Vars) (value : BitVec 32) :
    Compiles vars (.literalInt value) [.iconst value] := by
  intro fuel s s' ret _ h
  cases fuel with
  | zero => cases h
  | succ fuel => exact emittedCode_instr (i := .iconst value) rfl h

lemma compiles_literalFloat (vars : Vars) (value : BitVec 32) :
    Compiles vars (.literalFloat value) [.fconst value] := by
  intro fuel s s' ret _ h
  cases fuel with
  | zero => cases h
  | succ fuel => exact emittedCode_instr (i := .fconst value) rfl h

/-- `compile_ident` of a variable that is seen, whatever type the node caches. -/
lemma compiles_ident {vars : Vars} {t : StaticType} {name : CStr} {r : Rep}
    (h : operandRep vars (.ident t name) = some r) (t' : StaticType) :
    Compiles vars (.ident t' name) (operandCode vars (.ident t name)) := by
  obtain ⟨var, hvar, ht⟩ := operandRep_ident h
  intro fuel s s' ret hsees h
  cases fuel with
  | zero => cases h
  | succ fuel =>
    simp only [compileExpression, compileIdent, estate_bind_eq_ok, estate_get_eq_ok] at h
    obtain ⟨_, _, ⟨rfl, rfl⟩, h⟩ := h
    simp only [hsees name var hvar, ht, opcodeLoad_type r var.index] at h
    simp only [operandCode, hvar, ht, Rep.rep_type, Option.getD_some]
    exact emittedCode_instr (i := .load r var.index) rfl h

lemma Compiles.group {vars : Vars} {e : Expr} {code : List Instr} (he : Compiles vars e code)
    (t : StaticType) : Compiles vars (.group t e) code := by
  intro fuel s s' ret hsees h
  cases fuel with
  | zero => cases h
  | succ fuel => exact he fuel s s' ret hsees h

lemma Compiles.unaryMinus {vars : Vars} {e : Expr} {code : List Instr}
    (he : Compiles vars e code) (t : StaticType) :
    Compiles vars (.unaryOp t .unaryMinus e) (code ++ [.plain .ineg]) := by
  intro fuel s s' ret hsees h
  cases fuel with
  | zero => cases h
  | succ fuel =>
    have hop : intOperatorToOpcode .unaryMinus = (Instr.plain .ineg).opcode := rfl
    simp only [compileExpression, compileUnaryOp, hop] at h
    rw [if_neg (by decide), estate_bind_eq_ok] at h
    obtain ⟨r₁, s₁, h₁, h⟩ := h
    obtain ⟨rfl, he₁⟩ := he _ _ _ _ hsees h₁
    rw [if_neg (by decide)] at h
    obtain ⟨hret, he₂⟩ := emittedCode_instr (i := .plain .ineg) rfl h
    exact ⟨hret, he₁.trans he₂⟩

/-- `compile_binary_op` of an operation that the tracer turns into one on converted
operands. -/
lemma Compiles.binaryOp {vars : Vars} {r : Rep} {operator : Operator} {op : PlainOp}
    {t : StaticType} {left right left' right' : Expr} {a b : List Instr}
    (hop : valueOp r operator = some op)
    (htrace : ∀ chain : ScopeChain, chain.Sees vars →
      traceDataType chain (.binaryOp t operator left right)
        = .ok (.binaryOp r.type operator left' right'))
    (hleft : Compiles vars left' a) (hright : Compiles vars right' b) :
    Compiles vars (.binaryOp t operator left right) (a ++ b ++ [.plain op]) := by
  intro fuel s s' ret hsees h
  cases fuel with
  | zero => cases h
  | succ fuel =>
    rw [compileExpression, compileBinaryOp, if_neg (operator_ne_assignment hop),
      if_neg (operator_ne_functionCall hop), estate_bind_eq_ok] at h
    obtain ⟨e', s₁, h₁, h⟩ := h
    obtain ⟨he', rfl⟩ := astNodeTraceDataType_eq_ok.mp h₁
    obtain rfl := Except.ok.inj ((htrace _ hsees).symm.trans he')
    simp only [binaryOpcode_eq hop] at h
    exact compileOperands_eq_ok hsees hleft hright h

/-- `compile_binary_op_assignment` to a visible variable of the type of the right side. -/
lemma Compiles.assignment {vars : Vars} {name : CStr} {var : ScopeVar} {r : Rep} {right : Expr}
    {code : List Instr} (hvar : lookupVar vars name = some var) (hty : var.staticType = r.type)
    (htype : right.staticType = r.type) (hright : Compiles vars right code) (t t' : StaticType) :
    Compiles vars (.binaryOp t .assignment (.ident t' name) right)
      (code ++ [.save r var.index]) := by
  intro fuel s s' ret hsees h
  cases fuel with
  | zero => cases h
  | succ fuel =>
    rw [compileExpression, compileBinaryOp, if_pos rfl, compileBinaryOpAssignment,
      estate_bind_eq_ok] at h
    obtain ⟨e, s₁, h₁, h⟩ := h
    obtain ⟨he, rfl⟩ := astNodeTraceDataType_eq_ok.mp h₁
    obtain rfl := Except.ok.inj ((traceDataType_typed htype).symm.trans he)
    simp only [htype, assignmentTarget, estate_bind_eq_ok, estate_get_eq_ok] at h
    obtain ⟨target, s₂, ⟨_, _, ⟨rfl, rfl⟩, htarget⟩, h⟩ := h
    simp only [hsees name var hvar, hty, ne_eq, not_true_eq_false, if_false,
      estate_pure_eq_ok] at htarget
    obtain ⟨rfl, rfl⟩ := htarget
    obtain ⟨r₂, s₂, h₂, h⟩ := h
    obtain ⟨rfl, he₂⟩ := hright _ _ _ _ hsees h₂
    simp only [ne_eq, not_true_eq_false, if_false, opcodeSave_type r var.index] at h
    obtain ⟨hret, he₃⟩ := emittedCode_instr (i := .save r var.index) rfl h
    exact ⟨hret, he₂.trans he₃⟩

/-- A traced operand compiles to its code. -/
lemma compiles_traced {vars : Vars} {e : Expr} {r : Rep} (h : operandRep vars e = some r) :
    Compiles vars (traced vars e) (operandCode vars e) := by
  induction e generalizing r with
  | literalInt value => exact compiles_literalInt vars value
  | literalFloat value => exact compiles_literalFloat vars value
  | ident t name => exact compiles_ident h _
  | group t expr ih => exact (ih h).group _
  | unaryOp t operator operand ih =>
    obtain ⟨rfl, h⟩ := operandRep_unaryOp h
    exact (ih h).unaryMinus _
  | binaryOp t operator left right ihl ihr =>
    obtain ⟨a, b, ha, hb, ⟨rfl, rfl, hab, t', name, rfl⟩ | ⟨hne, rfl, op, hop⟩⟩ :=
      operandRep_binaryOp h
    · -- an assignment to a visible variable
      obtain ⟨var, hvar, hty⟩ := operandRep_ident ha
      have hleft : traced vars (.ident t' name) = .ident var.staticType name := by
        simp [traced, hvar]
      simp only [traced, operandCode, slotOf, ha, hb, hab, hvar, Option.getD_some, Option.map_some,
        if_true, castExpr]
      exact Compiles.assignment hvar hty (castExpr_staticType (traced_staticType hb))
        ((ihr hb).cast _ _) _ _
    · simp only [traced, operandCode, ha, hb, Option.getD_some, hop, if_neg hne]
      exact Compiles.binaryOp hop
        (fun _ _ => traceDataType_typed rfl) ((ihl ha).cast _ _) ((ihr hb).cast _ _)
  | specialCast t opcode operand => cases h
  | other t => cases h

/-- An operation as the parser built it compiles to its code. -/
lemma compiles_binaryOp {vars : Vars} {t : StaticType} {operator : Operator} {left right : Expr}
    {r : Rep} (hu : (Expr.binaryOp t operator left right).Untraced)
    (h : operandRep vars (.binaryOp t operator left right) = some r)
    (hne : operator ≠ .assignment) : Compiles vars (.binaryOp t operator left right)
      (operandCode vars (.binaryOp t operator left right)) := by
  obtain ⟨a, b, ha, hb, ⟨rfl, -⟩ | ⟨-, rfl, op, hop⟩⟩ := operandRep_binaryOp h
  · exact (hne rfl).elim
  · have htrace : ∀ chain : ScopeChain, chain.Sees vars → _ :=
      fun chain hsees => traceDataType_eq hsees hu h
    simp only [traced, ha, hb, Option.getD_some] at htrace
    simp only [operandCode, ha, hb, Option.getD_some, hop, if_neg hne]
    exact Compiles.binaryOp hop htrace ((compiles_traced ha).cast _ _)
      ((compiles_traced hb).cast _ _)

/-! ## What a chain of scopes sees -/

/-- The chain finds the variables and nothing else, and the next slot is behind them. -/
structure ScopeChain.Visible (chain : ScopeChain) (vars : Vars) : Prop where
  lookup : ∀ name, chain.lookup name = lookupVar vars name
  count : chain.scope.vars.length + chain.scope.varsOff = vars.length

lemma ScopeChain.Visible.sees {chain : ScopeChain} {vars : Vars} (h : chain.Visible vars) :
    chain.Sees vars := fun name var hvar => by rw [h.lookup, hvar]

/-- The lookup, one scope at a time. -/
lemma lookup_eq (chain : ScopeChain) (name : CStr) :
    chain.lookup name = match chain.scope.vars.find? (·.name == name) with
      | some var => some var
      | none =>
        match chain.parents with
        | [] => none
        | parent :: rest =>
          if chain.scope.isFunctionScope then none else frameLookupVarByName parent rest name :=
  frameLookupVarByName.eq_def _ _ _

/-- Emission does not change what is seen. -/
lemma ScopeChain.Visible.advanced {s s' : CompilerState} {vars : Vars}
    (hvis : s.chain.Visible vars) {chunks : List (List UInt8)} {account : ℕ × ℕ}
    (h : Advanced s chunks account [] s') : s'.chain.Visible vars := by
  obtain ⟨em, ev, m, -, rfl⟩ := h
  refine ⟨fun name => ?_, ?_⟩
  · rw [← hvis.lookup name, lookup_eq, lookup_eq]
    simp [CompilerState.moved]
  · simpa [CompilerState.moved] using hvis.count

/-- A new scope sees what is around it. -/
lemma ScopeChain.Visible.child {s : CompilerState} {vars : Vars} (hvis : s.chain.Visible vars)
    (pageSize stackSize : ℕ) : (childState s pageSize stackSize).chain.Visible vars := by
  refine ⟨fun name => ?_, ?_⟩
  · rw [← hvis.lookup name, lookup_eq]
    simp [childState, ScopeChain.lookup]
  · simpa [childState] using hvis.count

/-- A variable that shadows nothing outside of its scope is seen behind the others. -/
lemma ScopeChain.Visible.define {s s' : CompilerState} {vars : Vars} {t : StaticType}
    {name : CStr} {var : ScopeVar} (hvis : s.chain.Visible vars)
    (hnew : s.chain.scope.vars.find? (·.name == name) = none → lookupVar vars name = none)
    (h : frameDefineVar t name s = .ok var s') :
    var = ⟨t, name, UInt8.ofNat vars.length⟩ ∧ Advanced s [] s.account [var] s' ∧
      s'.chain.Visible (declareVar vars t name) := by
  obtain ⟨-, hvar, rfl⟩ := frameDefineVar_eq_ok h
  rw [hvis.count] at hvar
  refine ⟨hvar, ⟨_, [], _, rfl, rfl⟩, fun name' => ?_, ?_⟩
  · have hold := hvis.lookup name'
    rw [lookup_eq] at hold ⊢
    simp only [CompilerState.moved, List.find?_append, declareVar, lookupVar, hvar] at hold ⊢
    cases hfind : s.chain.scope.vars.find? (·.name == name') with
    | some v =>
      simp only [hfind] at hold
      simp [← hold]
    | none =>
      simp only [hfind] at hold
      by_cases hname : name = name'
      · subst hname
        have := hnew hfind
        rw [lookupVar] at this
        simp [this]
      · simp [hname, hold]
  · have := hvis.count
    simp only [CompilerState.moved, declareVar, List.length_append, List.length_singleton]
    omega

/-- The operand that `compile_function_call` finds for a function. -/
def CompilerState.callIndex (s : CompilerState) (name : CStr) : UInt16 :=
  match hashmapGet id s.globalFuncMap name with
  | some funcDesc => (hashmapGet id s.constPoolMap funcDesc.signature).getD 0
  | none => 0

lemma Advanced.callIndex {s s' : CompilerState} {chunks : List (List UInt8)} {account : ℕ × ℕ}
    {newVars : List ScopeVar} (h : Advanced s chunks account newVars s') :
    s'.callIndex = s.callIndex := by
  obtain ⟨_, _, _, -, rfl⟩ := h
  rfl

lemma EmittedCode.advanced {s s' : CompilerState} {code : List Instr}
    (h : EmittedCode s code s') :
    Advanced s (chunksOf code) (accountAll s.account (incsOf code)) [] s' :=
  Emitted.advanced h

/-- Code behind what was done before. -/
lemma Advanced.code {s s₁ s' : CompilerState} {newVars : List ScopeVar} {code : List Instr}
    (h : Advanced s [] s.account newVars s₁) (hcode : EmittedCode s₁ code s') :
    Advanced s (chunksOf code) (accountAll s.account (incsOf code)) newVars s' := by
  have h' := h.trans hcode.advanced
  rwa [h.account_eq, List.nil_append, List.append_nil] at h'

/-! ## Expression statements -/

/-- The code was emitted and counted, and the variables are seen. -/
def Coded (s : CompilerState) (code : List Instr) (vars : Vars) (s' : CompilerState) : Prop :=
  (∃ newVars, Advanced s (chunksOf code) (accountAll s.account (incsOf code)) newVars s') ∧
    s'.chain.Visible vars

lemma Coded.of_emitted {s s' : CompilerState} {code : List Instr} {vars : Vars}
    (h : EmittedCode s code s') (hvis : s.chain.Visible vars) : Coded s code vars s' :=
  ⟨⟨[], h.advanced⟩, hvis.advanced h.advanced⟩

/-- Variables in front of others are found first. -/
lemma lookupVar_declareVar {vars : Vars} {name : CStr} {var : ScopeVar}
    (h : lookupVar vars name = some var) (t : StaticType) (name' : CStr) :
    lookupVar (declareVar vars t name') name = some var := by
  unfold lookupVar declareVar at *
  rw [List.find?_append, h]
  rfl

/-- What `compile_binary_op_assignment` settles on for a right side of type `r`: the slot, its type
and the cast of `assignCode`. -/
lemma assignmentTarget_eq_ok {name : CStr} {right : Expr} {vars : Vars} {s s' : CompilerState}
    {r : Rep} {target : ScopeVar × StaticType × UInt8} (hr : operandRep vars right = some r)
    (hvis : s.chain.Visible vars) (h : assignmentTarget name r.type s = .ok target s') :
    ∃ v newVars, target.2.1 = v.type ∧ target.2.2 = (if r = v then 0 else opcodeI2f) ∧
      assignCode vars name right
        = operandCode vars right ++ castCode r v ++ [.save v target.1.index] ∧
      Advanced s [] s.account newVars s' ∧ s'.chain.Sees vars ∧
      s'.chain.Visible (assignVars vars name right) := by
  simp only [assignmentTarget, estate_bind_eq_ok, estate_get_eq_ok] at h
  obtain ⟨_, _, ⟨rfl, rfl⟩, h⟩ := h
  cases hvar : lookupVar vars name with
  | some var =>
    simp only [hvis.lookup, hvar] at h
    simp only [assignCode, assignVars, hr, hvar, Option.getD_some]
    by_cases hty : var.staticType = r.type
    · -- the types agree
      simp only [hty, ne_eq, not_true_eq_false, if_false, estate_pure_eq_ok] at h
      obtain ⟨rfl, rfl⟩ := h
      exact ⟨r, [], rfl, by simp, by simp [castCode, hty], Advanced.refl s, hvis.sees, hvis⟩
    · simp only [ne_eq, hty, not_false_eq_true, if_true] at h
      -- only an `int` stored in a `float` variable is cast implicitly
      obtain ⟨hfloat, rfl⟩ : var.staticType = .float ∧ r = .int := by
        cases hv : var.staticType <;> cases r <;>
          first
          | exact ⟨rfl, rfl⟩
          | (simp only [hv] at h
             exact (estate_throw_eq_ok.mp h).elim)
      simp only [hfloat] at h
      obtain ⟨rfl, rfl⟩ := estate_pure_eq_ok.mp h
      exact ⟨.float, [], rfl, rfl, by simp [hfloat, StaticType.rep, castCode], Advanced.refl s,
        hvis.sees, hvis⟩
  | none =>
    simp only [hvis.lookup, hvar, estate_bind_eq_ok, estate_pure_eq_ok] at h
    obtain ⟨var, _, hdefine, rfl, rfl⟩ := h
    obtain ⟨rfl, hadv, hvis'⟩ := hvis.define (fun _ => hvar) hdefine
    simp only [assignCode, assignVars, hr, hvar, Option.getD_some]
    refine ⟨r, _, rfl, by simp, by simp [castCode], hadv, ?_, hvis'⟩
    intro name' var' hvar'
    rw [hvis'.lookup]
    exact lookupVar_declareVar hvar' _ _

/-- `compile_binary_op_assignment`, whether the variable is visible or new. -/
lemma compileBinaryOpAssignment_eq_ok {fuel : ℕ} (t : StaticType) {name : CStr} {right : Expr}
    {vars : Vars} {s s' : CompilerState} {ret : ℤ} {r : Rep} (hu : right.Untraced)
    (hr : operandRep vars right = some r) (hvis : s.chain.Visible vars)
    (h : compileBinaryOpAssignment (compileExpression fuel) (.ident t name) right s
      = .ok ret s') :
    ret = 0 ∧ Coded s (assignCode vars name right) (assignVars vars name right) s' := by
  rw [compileBinaryOpAssignment, estate_bind_eq_ok] at h
  obtain ⟨e, s₀, htrace, h⟩ := h
  obtain ⟨htraced, rfl⟩ := astNodeTraceDataType_eq_ok.mp htrace
  obtain rfl := Except.ok.inj ((traceDataType_eq hvis.sees hu hr).symm.trans htraced)
  simp only [traced_staticType hr] at h
  rw [estate_bind_eq_ok] at h
  obtain ⟨⟨var, varType, castOpcode⟩, s₁, htarget, h⟩ := h
  obtain ⟨v, newVars, hty, hcast, hcode, hadv, hsees, hvis₁⟩ :=
    assignmentTarget_eq_ok hr hvis htarget
  simp only at hty hcast
  subst hty hcast
  rw [hcode]
  simp only [estate_bind_eq_ok] at h
  obtain ⟨r₁, s₂, hright, h⟩ := h
  obtain ⟨rfl, he₁⟩ := compiles_traced hr _ _ _ _ hsees hright
  rw [if_neg (by decide)] at h
  have hsave : ∀ {s₃ : CompilerState},
      (frameIncrementStackSize (opcodeToStackIncMap (opcodeSave v.type)) >>= fun _ =>
        compilerEmit [opcodeSave v.type, var.index]) s₃ = .ok ret s' →
      ret = 0 ∧ EmittedCode s₃ [.save v var.index] s' := by
    intro s₃ h
    rw [opcodeSave_type v var.index] at h
    exact emittedCode_instr (i := .save v var.index) rfl h
  obtain ⟨hret, hall⟩ : ret = 0 ∧
      EmittedCode s₁ (operandCode vars right ++ castCode r v ++ [.save v var.index]) s' := by
    unfold castCode
    -- a cast stands before the save when the value and the variable differ in type
    by_cases hrv : r = v
    · simp only [hrv, if_true, ne_eq, not_true_eq_false, if_false] at h ⊢
      rw [List.append_nil]
      exact ⟨(hsave h).1, he₁.trans (hsave h).2⟩
    · have hi2f : opcodeI2f ≠ 0 := by decide
      simp only [hrv, if_false, ne_eq, hi2f, not_false_eq_true, if_true] at h ⊢
      rw [estate_bind_eq_ok] at h
      obtain ⟨_, s₃, hinc, h⟩ := h
      rw [estate_bind_eq_ok] at h
      obtain ⟨r₂, s₄, hemit, h⟩ := h
      have he₂ : EmittedCode s₂ [.plain .i2f] s₄ :=
        (emittedCode_instr (i := .plain .i2f) rfl (estate_bind_eq_ok.mpr ⟨_, _, hinc, hemit⟩)).2
      exact ⟨(hsave h).1, (he₁.trans he₂).trans (hsave h).2⟩
  exact ⟨hret, ⟨newVars, hadv.code hall⟩, hvis₁.advanced hall.advanced⟩

/-- A call is emitted but not counted. -/
lemma compilerEmit_call {index : UInt16} {s s' : CompilerState} {ret : ℤ}
    (h : compilerEmit (opcodeCall :: htobe16 index) s = .ok ret s') :
    ret = 0 ∧ EmittedCode s [.call index] s' := compilerEmit_eq_ok h

/-- Code behind code. -/
lemma Coded.trans {s s₁ s' : CompilerState} {a b : List Instr} {vars vars' : Vars}
    (h₁ : Coded s a vars s₁) (h₂ : Coded s₁ b vars' s') : Coded s (a ++ b) vars' s' := by
  obtain ⟨⟨newVars, h₁⟩, -⟩ := h₁
  obtain ⟨⟨newVars', h₂⟩, hvis⟩ := h₂
  refine ⟨⟨newVars ++ newVars', ?_⟩, hvis⟩
  rw [h₁.account_eq] at h₂
  rw [chunksOf_append, incsOf_append, accountAll_append]
  exact h₁.trans h₂

lemma Coded.callIndex {s s' : CompilerState} {code : List Instr} {vars : Vars}
    (h : Coded s code vars s') : s'.callIndex = s.callIndex := by
  obtain ⟨⟨newVars, h⟩, -⟩ := h
  exact h.callIndex

/-- `compile_function_call` of a function with the code of its arguments. -/
lemma compileFunctionCall_coded {fuel : ℕ} (t t' : StaticType) {name : CStr} {args : Expr}
    {code : List Instr} {vars : Vars} {s s' : CompilerState} {ret : ℤ}
    (hargs : ∀ {s₁}, compileArgs (compileExpression fuel) args s = .ok () s₁ →
      Coded s code vars s₁)
    (h : compileFunctionCall (compileExpression fuel) (.ident t name) (.group t' args) s
      = .ok ret s') :
    ret = 0 ∧ Coded s (code ++ [.call (s.callIndex name)]) vars s' := by
  simp only [compileFunctionCall, estate_bind_eq_ok, estate_get_eq_ok] at h
  obtain ⟨_, _, ⟨rfl, rfl⟩, h⟩ := h
  cases hfunc : hashmapGet id s.globalFuncMap name with
  | none =>
    simp only [hfunc] at h
    exact (estate_throw_eq_ok.mp h).elim
  | some funcDesc =>
    simp only [hfunc, constPoolIndexByValue, estate_bind_eq_ok, estate_get_eq_ok,
      estate_pure_eq_ok] at h
    obtain ⟨_, _, ⟨_, _, ⟨rfl, rfl⟩, rfl, rfl⟩, _, s₁, hcomp, h⟩ := h
    have hindex : s.callIndex name = (hashmapGet id s.constPoolMap funcDesc.signature).getD 0 := by
      simp [CompilerState.callIndex, hfunc]
    have hcoded := hargs hcomp
    obtain ⟨hret, hcall⟩ := compilerEmit_call h
    rw [hindex]
    exact ⟨hret, hcoded.trans (Coded.of_emitted hcall hcoded.2)⟩

/-- An identifier that is not found is skipped. -/
lemma compileIdent_coded {fuel : ℕ} {t : StaticType} {name : CStr} {vars : Vars}
    {s s' : CompilerState} {ret : ℤ} (hreg : RegularExpr vars (.ident t name))
    (hvis : s.chain.Visible vars) (h : compileExpression fuel (.ident t name) s = .ok ret s') :
    (ret = 0 ↔ exprFound vars (.ident t name) = true) ∧
      Coded s (operandCode vars (.ident t name)) vars s' := by
  cases hvar : lookupVar vars name with
  | some var =>
    obtain ⟨r, hr⟩ := Option.isSome_iff_exists.mp (hreg var hvar)
    have hrep : operandRep vars (.ident t name) = some r := by simp [operandRep, hvar, hr]
    obtain ⟨rfl, hcode⟩ := compiles_ident hrep t fuel s s' ret hvis.sees h
    exact ⟨by simp [exprFound, hvar], Coded.of_emitted hcode hvis⟩
  | none =>
    cases fuel with
    | zero => exact (estate_throw_eq_ok.mp h).elim
    | succ fuel =>
      simp only [compileExpression, compileIdent, estate_bind_eq_ok, estate_get_eq_ok] at h
      obtain ⟨_, _, ⟨rfl, rfl⟩, h⟩ := h
      simp only [hvis.lookup, hvar, estate_pure_eq_ok] at h
      obtain ⟨rfl, rfl⟩ := h
      refine ⟨by simp [exprFound, hvar], ?_⟩
      simp only [operandCode, hvar]
      exact ⟨⟨[], Advanced.refl s⟩, hvis⟩

/-- Tracing keeps the operator. -/
lemma traceDataType_operator {chain : ScopeChain} {t : StaticType} {operator : Operator}
    {left right e : Expr} (h : traceDataType chain (.binaryOp t operator left right) = .ok e) :
    ∃ t' left' right', e = .binaryOp t' operator left' right' := by
  rw [traceDataType] at h
  split at h
  · exact ⟨_, _, _, (Except.ok.inj h).symm⟩
  · split at h
    · cases h
    · simp only [except_bind_eq_ok] at h
      obtain ⟨left', -, right', -, h⟩ := h
      split at h
      · split at h
        · exact ⟨_, _, _, (Except.ok.inj h).symm⟩
        · exact ⟨_, _, _, (Except.ok.inj h).symm⟩
      · exact ⟨_, _, _, (Except.ok.inj h).symm⟩

/-- A list of arguments is no expression. -/
lemma compileExpression_comma {fuel : ℕ} {t : StaticType} {left right : Expr}
    {s s' : CompilerState} {ret : ℤ} :
    compileExpression fuel (.binaryOp t .comma left right) s ≠ .ok ret s' := by
  intro h
  cases fuel with
  | zero => exact estate_throw_eq_ok.mp h
  | succ fuel =>
    rw [compileExpression, compileBinaryOp, if_neg (by decide), if_neg (by decide),
      estate_bind_eq_ok] at h
    obtain ⟨e, s₁, htrace, h⟩ := h
    obtain ⟨htrace, -⟩ := astNodeTraceDataType_eq_ok.mp htrace
    obtain ⟨t', left', right', rfl⟩ := traceDataType_operator htrace
    have hop : binaryOpcode t' .comma = 0 := by cases t' <;> rfl
    simp only [compileOperands, hop, if_true] at h
    exact estate_throw_eq_ok.mp h

/-- The compiler emits and counts the code of the expression and sees its variables. -/
def ExprCoded (e : Expr) : Prop :=
  ∀ ⦃fuel : ℕ⦄ ⦃vars : Vars⦄ ⦃s s' : CompilerState⦄ ⦃ret : ℤ⦄, e.Untraced → RegularExpr vars e →
    s.chain.Visible vars → compileExpression fuel e s = .ok ret s' →
    (ret = 0 ↔ exprFound vars e = true) ∧ Coded s (exprCode s.callIndex vars e) (exprVars vars e) s'

/-- So it does for the arguments of a call. -/
def ArgsCoded (args : Expr) : Prop :=
  ∀ ⦃fuel : ℕ⦄ ⦃vars : Vars⦄ ⦃s s' : CompilerState⦄, args.Untraced → RegularExpr vars args →
    s.chain.Visible vars → compileArgs (compileExpression fuel) args s = .ok () s' →
    Coded s (exprCode s.callIndex vars args) (exprVars vars args) s'

/-- An argument that is compiled as an expression. -/
lemma ExprCoded.args {e : Expr} (he : ExprCoded e)
    (h : ∀ {fuel s s'}, compileArgs (compileExpression fuel) e s = .ok () s' →
      ∃ ret, compileExpression fuel e s = .ok ret s') : ArgsCoded e := by
  intro fuel vars s s' hu hreg hvis hargs
  obtain ⟨ret, hret⟩ := h hargs
  exact (he hu hreg hvis hret).2

/-- The code of a value is that of an expression. -/
lemma exprCode_value (callIndex : CStr → UInt16) {vars : Vars} {e : Expr} {r : Rep}
    (h : valueRep vars e = some r) :
    exprCode callIndex vars e = valueCode vars e ∧ exprVars vars e = vars ∧
      exprFound vars e = true := by
  induction e generalizing r with
  | literalInt value => exact ⟨rfl, rfl, rfl⟩
  | literalFloat value => exact ⟨rfl, rfl, rfl⟩
  | ident t name =>
    obtain ⟨var, hvar, -⟩ := valueRep_ident h
    exact ⟨(operandRep_of_valueRep h).2, rfl, by simp [exprFound, hvar]⟩
  | group t expr ih => exact ih h
  | unaryOp t operator operand ih =>
    obtain ⟨hcode, hvars, hfound⟩ := ih (valueRep_unaryOp h).2
    refine ⟨?_, hvars, hfound⟩
    rw [exprCode, valueCode, hcode, if_pos hfound]
  | binaryOp t operator left right =>
    obtain ⟨a, b, op, -, -, -, hop⟩ := valueRep_binaryOp h
    have hcode := (operandRep_of_valueRep h).2
    cases operator with
    | assignment => exact (operator_ne_assignment hop rfl).elim
    | functionCall => exact (operator_ne_functionCall hop rfl).elim
    | comma => cases hr : joinRep a b <;> rw [hr] at hop <;> cases hop
    | _ => exact ⟨hcode, rfl, rfl⟩
  | specialCast t opcode operand => cases h
  | other t => cases h

/-- An operand whose own code is compiled and which is found. -/
lemma Compiles.coded {fuel : ℕ} {vars : Vars} {e : Expr} {code : List Instr}
    {s s' : CompilerState} {ret : ℤ} (he : Compiles vars e code) (hvis : s.chain.Visible vars)
    (h : compileExpression fuel e s = .ok ret s') : ret = 0 ∧ Coded s code vars s' := by
  obtain ⟨hret, hemit⟩ := he _ _ _ _ hvis.sees h
  exact ⟨hret, Coded.of_emitted hemit hvis⟩

/-- An operation, compiled as an expression. -/
lemma exprCoded_binaryOp {fuel : ℕ} {t : StaticType} {operator : Operator} {left right : Expr}
    {vars : Vars} {s s' : CompilerState} {ret : ℤ}
    (hu : (Expr.binaryOp t operator left right).Untraced)
    (hrep : (operandRep vars (.binaryOp t operator left right)).isSome)
    (hne : operator ≠ .assignment) (hvis : s.chain.Visible vars)
    (h : compileExpression fuel (.binaryOp t operator left right) s = .ok ret s') :
    ret = 0 ∧ Coded s (operandCode vars (.binaryOp t operator left right)) vars s' := by
  obtain ⟨r, hr⟩ := Option.isSome_iff_exists.mp hrep
  exact (compiles_binaryOp hu hr hne).coded hvis h

lemma ExprCoded.group {e : Expr} (he : ExprCoded e) (t : StaticType) : ExprCoded (.group t e) := by
  intro fuel vars s s' ret hu hreg hvis h
  cases fuel with
  | zero => exact (estate_throw_eq_ok.mp h).elim
  | succ fuel => exact he hu.2 hreg hvis h

lemma ExprCoded.unaryOp {e : Expr} (he : ExprCoded e) (t : StaticType) (operator : Operator) :
    ExprCoded (.unaryOp t operator e) := by
  intro fuel vars s s' ret hu hreg hvis h
  obtain ⟨rfl, hreg⟩ := hreg
  cases fuel with
  | zero => exact (estate_throw_eq_ok.mp h).elim
  | succ fuel =>
    have hop : intOperatorToOpcode .unaryMinus = (Instr.plain .ineg).opcode := rfl
    simp only [compileExpression, compileUnaryOp, hop] at h
    rw [if_neg (by decide), estate_bind_eq_ok] at h
    obtain ⟨r₁, s₁, h₁, h⟩ := h
    obtain ⟨hret, hcoded⟩ := he hu.2 hreg hvis h₁
    rw [exprCode, exprVars, exprFound]
    by_cases hr : r₁ = 0
    · rw [if_neg (by simp [hr])] at h
      obtain ⟨rfl, hemit⟩ := emittedCode_instr (i := .plain .ineg) rfl h
      rw [if_pos (hret.mp hr)]
      exact ⟨by simp [hret.mp hr], hcoded.trans (Coded.of_emitted hemit hcoded.2)⟩
    · rw [if_pos hr] at h
      obtain ⟨rfl, rfl⟩ := estate_pure_eq_ok.mp h
      rw [if_neg (fun hfound => hr (hret.mpr hfound)), List.append_nil]
      exact ⟨hret, hcoded⟩

/-- A call, from its arguments. -/
lemma ArgsCoded.call {args : Expr} (hargs : ArgsCoded args) (t t' t'' : StaticType)
    (name : CStr) : ExprCoded (.binaryOp t .functionCall (.ident t' name) (.group t'' args)) := by
  intro fuel vars s s' ret hu hreg hvis h
  cases fuel with
  | zero => exact (estate_throw_eq_ok.mp h).elim
  | succ fuel =>
    obtain ⟨rfl, hcoded⟩ :=
      compileFunctionCall_coded t' t'' (fun hcomp => hargs hu.2.2.2 hreg hvis hcomp) h
    exact ⟨by simp [exprFound], hcoded⟩

/-- Arguments, from the first of them and the others. -/
lemma ExprCoded.comma {left right : Expr} (hleft : ExprCoded left) (hright : ArgsCoded right)
    (t : StaticType) : ArgsCoded (.binaryOp t .comma left right) := by
  intro fuel vars s s' hu hreg hvis h
  rw [compileArgs, if_pos rfl] at h
  obtain ⟨_, s₁, h₁, h⟩ := estate_bind_eq_ok.mp h
  have hl := (hleft hu.2.1 hreg.1 hvis h₁).2
  have hr := hright hu.2.2 hreg.2 hl.2 h
  rw [hl.callIndex] at hr
  exact hl.trans hr

/-- An operator that is no comma is no list of arguments. -/
lemma compileArgs_binaryOp {compile : Expr → CompileM ℤ} {t : StaticType} {operator : Operator}
    (hop : operator ≠ .comma) {left right : Expr} {s s' : CompilerState} :
    compileArgs compile (.binaryOp t operator left right) s ≠ .ok () s' := by
  intro h
  rw [compileArgs, if_neg hop] at h
  exact estate_throw_eq_ok.mp h

/-- Expressions and arguments, together because a call has arguments and these have calls. -/
lemma exprCoded_argsCoded (e : Expr) :
    ExprCoded e ∧ ArgsCoded e ∧ ∀ t args, e = .group t args → ArgsCoded args := by
  have hone : ∀ {fuel e s s'}, (compileExpression fuel e >>= fun _ => pure ()) s = .ok () s' →
      ∃ ret, compileExpression fuel e s = .ok ret s' := by
    intro fuel e s s' h
    obtain ⟨ret, s₁, h₁, h⟩ := estate_bind_eq_ok.mp h
    obtain ⟨-, rfl⟩ := estate_pure_eq_ok.mp h
    exact ⟨ret, h₁⟩
  induction e with
  | ident t name =>
    have he : ExprCoded (.ident t name) := fun _ _ _ _ _ _ hreg hvis h =>
      compileIdent_coded hreg hvis h
    exact ⟨he, he.args hone, fun _ _ h => by cases h⟩
  | group t expr ih =>
    have he := ih.1.group t
    refine ⟨he, he.args hone, fun t' args h => ?_⟩
    cases h
    exact ih.2.1
  | unaryOp t operator operand ih =>
    have he := ih.1.unaryOp t operator
    exact ⟨he, he.args hone, fun _ _ h => by cases h⟩
  | binaryOp t operator left right ihl ihr =>
    by_cases hcomma : operator = .comma
    · subst hcomma
      exact ⟨fun _ _ _ _ _ _ _ _ h => (compileExpression_comma h).elim,
        ihl.1.comma ihr.2.1 t, fun _ _ h => by cases h⟩
    · have he : ExprCoded (.binaryOp t operator left right) := by
        intro fuel vars s s' ret hu hreg hvis h
        cases operator with
        | comma => exact (hcomma rfl).elim
        | assignment =>
          cases left with
          | ident t' name =>
            cases fuel with
            | zero => exact (estate_throw_eq_ok.mp h).elim
            | succ fuel =>
              obtain ⟨r, hr⟩ := Option.isSome_iff_exists.mp hreg
              obtain ⟨rfl, hcoded⟩ := compileBinaryOpAssignment_eq_ok t' hu.2.2 hr hvis h
              exact ⟨by simp [exprFound], hcoded⟩
          | _ =>
            -- only an identifier is assigned to
            obtain ⟨r, hr⟩ := Option.isSome_iff_exists.mp hreg
            obtain ⟨_, _, _, _, ⟨-, -, -, _, _, hleft⟩ | ⟨hne, -⟩⟩ := operandRep_binaryOp hr
            · cases hleft
            · exact (hne rfl).elim
        | functionCall =>
          cases left with
          | ident t' name =>
            cases right with
            | group t'' args => exact (ihr.2.2 _ _ rfl).call t t' t'' name hu hreg hvis h
            | _ =>
              obtain ⟨rfl, hcoded⟩ := exprCoded_binaryOp hu hreg (by decide) hvis h
              exact ⟨by simp [exprFound], hcoded⟩
          | _ =>
            obtain ⟨rfl, hcoded⟩ := exprCoded_binaryOp hu hreg (by decide) hvis h
            exact ⟨by simp [exprFound], hcoded⟩
        | _ =>
          obtain ⟨rfl, hcoded⟩ := exprCoded_binaryOp hu hreg (by decide) hvis h
          exact ⟨by simp [exprFound], hcoded⟩
      exact ⟨he, he.args fun h => (compileArgs_binaryOp hcomma h).elim, fun _ _ h => by cases h⟩
  | literalInt value =>
    have he : ExprCoded (.literalInt value) := by
      intro fuel vars s s' ret _ _ hvis h
      obtain ⟨rfl, hcoded⟩ := (compiles_literalInt vars value).coded hvis h
      exact ⟨by simp [exprFound], hcoded⟩
    exact ⟨he, he.args hone, fun _ _ h => by cases h⟩
  | literalFloat value =>
    have he : ExprCoded (.literalFloat value) := by
      intro fuel vars s s' ret _ _ hvis h
      obtain ⟨rfl, hcoded⟩ := (compiles_literalFloat vars value).coded hvis h
      exact ⟨by simp [exprFound], hcoded⟩
    exact ⟨he, he.args hone, fun _ _ h => by cases h⟩
  | specialCast t opcode operand =>
    have he : ExprCoded (.specialCast t opcode operand) := fun _ _ _ _ _ hu => hu.elim
    exact ⟨he, he.args hone, fun _ _ h => by cases h⟩
  | other t =>
    have he : ExprCoded (.other t) := by
      intro fuel vars s s' ret _ hreg _ _
      cases hreg
    exact ⟨he, he.args hone, fun _ _ h => by cases h⟩

/-- An expression: its code was emitted and counted. -/
theorem compileExpression_coded (e : Expr) : ExprCoded e := (exprCoded_argsCoded e).1

/-! ## Statements -/

/-- `stack_size` and `stack_max_size` behind the statements of a scope: a branch goes on from
the condition, a loop body starts from 0, and conditional jumps are not counted. -/
def scopeAccount (callIndex : CStr → UInt16) (vars : Vars) (account : ℕ × ℕ) : Stat → ℕ × ℕ
  | .expr expr next =>
    scopeAccount callIndex (exprVars vars expr)
      (accountAll account (incsOf (exprCode callIndex vars expr))) next
  | .ifElse expr trueScope falseScope next =>
    let vars' := exprVars vars expr
    let a := accountAll account (incsOf (exprCode callIndex vars expr))
    let b := scopeAccount callIndex vars' a trueScope
    let c := scopeAccount callIndex vars' (a.1, b.2) falseScope
    scopeAccount callIndex vars' (a.1, c.2) next
  | .while expr loopScope next =>
    let a := accountAll account (incsOf (exprCode callIndex vars expr))
    let b := scopeAccount callIndex vars (0, a.2) loopScope
    scopeAccount callIndex vars (a.1, b.2) next
  | _ => account

/-- The chunks of a scope. -/
def scopeChunks (callIndex : CStr → UInt16) (vars : Vars) (stat : Stat) : List (List UInt8) :=
  (scopeCode callIndex vars stat).map encodeAll

lemma flatten_scopeChunks (callIndex : CStr → UInt16) (vars : Vars) (stat : Stat) :
    (scopeChunks callIndex vars stat).flatten
      = encodeAll (scopeCode callIndex vars stat).flatten := by
  unfold scopeChunks encodeAll
  rw [List.flatMap_def, List.map_flatten, List.flatten_flatten, List.map_map]
  congr 1

lemma map_singleton_chunks (code : List Instr) :
    (code.map ([·])).map encodeAll = chunksOf code := by
  simp [chunksOf, encodeAll]

/-- The bytes that the compiler writes for a jump are those of `htobe16`, as long as the
distance fits into one byte. -/
lemma jump_eq_htobe16 {n : ℕ} (h : n ≤ 255) :
    htobe16 (UInt16.ofNat n) = [jumpHi n, jumpLo n] := by
  have hn : (UInt16.ofNat n).toNat = n := by
    rw [UInt16.toNat_ofNat']
    omega
  rw [htobe16, hn, jumpHi_eq, Nat.div_eq_of_lt (by omega)]
  rfl

/-- The chunk of an `if` whose sizes survive the encoding. -/
lemma ifChunks_eq {trueCode falseCode : List Instr} (htrue : codeSize trueCode + 3 ≤ 255)
    (hfalse : codeSize falseCode ≤ 65535) :
    ifChunks (encodeAll trueCode) (encodeAll falseCode)
      = [encodeAll (ifCode trueCode falseCode)] := by
  have hmax : uint16Max = 65535 := rfl
  have hblock : ifTrueData (encodeAll trueCode) (encodeAll falseCode)
      = encodeAll (trueCode ++ [.jmp (UInt16.ofNat (codeSize falseCode))]) := by
    unfold ifTrueData
    rw [if_neg (by rw [hmax]; exact not_lt.mpr hfalse), encodeAll_append]
    rfl
  have hsize : codeSize (trueCode ++ [.jmp (UInt16.ofNat (codeSize falseCode))])
      = codeSize trueCode + 3 := by
    rw [codeSize_append]
    rfl
  have hjump := jump_eq_htobe16 htrue
  simp only [ifChunks, hblock]
  rw [← codeSize, hsize, hmax, if_neg (by omega), ifCode]
  simp only [hsize, encodeAll_cons, encodeAll_append, Instr.encode, Instr.opcode, Instr.operand,
    hjump, List.cons_append, List.nil_append, List.append_assoc]
  rfl

/-- The chunk of a `while` whose sizes survive the encoding. -/
lemma whileChunk_eq {exprCode bodyCode : List Instr}
    (h : codeSize exprCode + codeSize bodyCode + 6 ≤ 255) :
    whileChunk (encodeAll exprCode) (encodeAll bodyCode)
      = encodeAll (whileCode exprCode bodyCode) := by
  have hbody := jump_eq_htobe16 (n := codeSize bodyCode + 3) (by omega)
  have hsum := jump_eq_htobe16 h
  rw [whileChunk, ← codeSize, ← codeSize, whileCode]
  simp only [encodeAll_cons, encodeAll_append, Instr.encode, Instr.opcode, Instr.operand, hbody,
    hsum, List.cons_append, List.nil_append, List.append_assoc]
  rfl

/-- The variables of a condition are forgotten. -/
lemma Advanced.forget {s s₁ : CompilerState} {chunks : List (List UInt8)} {account : ℕ × ℕ}
    {newVars : List ScopeVar} (h : Advanced (condState s) chunks account newVars s₁) :
    Advanced (condState s) chunks account [] (forgetVars s₁ s.chain.scope.vars.length) := by
  obtain ⟨em, ev, m, hem, rfl⟩ := h
  exact ⟨em, ev, m, hem, by simp [forgetVars, CompilerState.moved, condState]⟩

lemma ScopeChain.Visible.cond {s : CompilerState} {vars : Vars} (hvis : s.chain.Visible vars) :
    (condState s).chain.Visible vars := by
  refine ⟨fun name => ?_, hvis.count⟩
  rw [← hvis.lookup name, lookup_eq, lookup_eq]
  rfl

/-- What a regular scope does to the compiler. -/
def ScopeCoded (stat : Stat) : Prop :=
  ∀ ⦃fuel : ℕ⦄ ⦃vars : Vars⦄ ⦃s s' : CompilerState⦄, stat.Untraced →
    RegularScope s.callIndex vars stat → s.chain.Visible vars →
    compileScope fuel stat s = .ok () s' →
    (∃ newVars, Advanced s (scopeChunks s.callIndex vars stat)
      (scopeAccount s.callIndex vars s.account stat) newVars s') ∧
      s'.chain.Visible (scopeVars vars stat)

/-- A statement in front of others, from what it emits, counts and declares. -/
lemma ScopeCoded.cons {next : Stat} (hnext : ScopeCoded next) {fuel : ℕ} {vars vars₁ : Vars}
    {s s₁ s' : CompilerState} {chunks : List (List UInt8)} {account : ℕ × ℕ}
    {newVars : List ScopeVar} (hadv : Advanced s chunks account newVars s₁)
    (hvis : s₁.chain.Visible vars₁) (hu : next.Untraced)
    (hreg : RegularScope s.callIndex vars₁ next) (h : compileScope fuel next s₁ = .ok () s')
    {stat : Stat} (hchunks : scopeChunks s.callIndex vars stat
      = chunks ++ scopeChunks s.callIndex vars₁ next)
    (haccount : scopeAccount s.callIndex vars s.account stat
      = scopeAccount s.callIndex vars₁ account next)
    (hvars : scopeVars vars stat = scopeVars vars₁ next) :
    (∃ newVars, Advanced s (scopeChunks s.callIndex vars stat)
      (scopeAccount s.callIndex vars s.account stat) newVars s') ∧
      s'.chain.Visible (scopeVars vars stat) := by
  have hindex := hadv.callIndex
  obtain ⟨⟨newVars', hadv'⟩, hvis'⟩ := hnext hu (by rw [hindex]; exact hreg) hvis h
  rw [hindex, hadv.account_eq] at hadv'
  rw [hchunks, haccount, hvars]
  exact ⟨⟨_, hadv.trans hadv'⟩, hvis'⟩

/-- An `if` in front of others. -/
lemma ScopeCoded.ifElse {expr : Expr} {trueScope falseScope next : Stat}
    (htrueScope : ScopeCoded trueScope) (hfalseScope : ScopeCoded falseScope)
    (hnext : ScopeCoded next) : ScopeCoded (.ifElse expr trueScope falseScope next) := by
  rintro fuel vars s s' ⟨hexprU, htrueU, hfalseU, hnextU⟩
    ⟨hexprR, htrue, hfalse, htrueSize, hfalseSize, hnextR⟩ hvis h
  obtain ⟨_, s₂, hif, h⟩ := estate_bind_eq_ok.mp h
  obtain ⟨-, r, s₁, t₁, t₂, hexpr, ht₁, ht₂, hadv⟩ := compileIfStatement_eq_ok hif
  -- the condition
  obtain ⟨-, ⟨newVars, hcond⟩, hvis₁⟩ := compileExpression_coded expr hexprU hexprR hvis hexpr
  have hindex := hcond.callIndex
  have hstack : s₁.chain.scope.stackSize = _ := congrArg Prod.fst hcond.account_eq
  -- the blocks
  have hchild₁ : (childState s₁ 512 s₁.chain.scope.stackSize).callIndex = s.callIndex := hindex
  obtain ⟨⟨_, hadv₁⟩, -⟩ := htrueScope htrueU (by rw [hchild₁]; exact htrue) (hvis₁.child _ _) ht₁
  obtain ⟨hleave, hadv⟩ := hadv _ _ _ hadv₁
  have hchild₂ : (childState (t₁.leave s₁) 512 s₁.chain.scope.stackSize).callIndex
      = s.callIndex := hleave.callIndex.trans hindex
  obtain ⟨⟨_, hadv₂⟩, -⟩ := hfalseScope hfalseU (by rw [hchild₂]; exact hfalse)
    ((hvis₁.advanced hleave).child _ _) ht₂
  have hblocks := hadv _ _ _ hadv₂
  rw [hchild₁, hchild₂, flatten_scopeChunks, flatten_scopeChunks,
    ifChunks_eq htrueSize hfalseSize] at hblocks
  -- their accounting goes on from the condition
  have haccount₁ : (childState s₁ 512 s₁.chain.scope.stackSize).account
      = accountAll s.account (incsOf (exprCode s.callIndex vars expr)) := hcond.account_eq
  have haccount₂ := hleave.account_eq
  change (childState (t₁.leave s₁) 512 s₁.chain.scope.stackSize).account = _ at haccount₂
  rw [haccount₂, hchild₁, haccount₁, hstack] at hblocks
  refine hnext.cons (hcond.trans hblocks) (hvis₁.advanced hblocks) hnextU hnextR h ?_ rfl rfl
  simp only [scopeChunks, scopeCode, List.map_append, map_singleton_chunks, List.map_cons,
    List.append_assoc, List.cons_append, List.nil_append]

/-- A `while` in front of others. -/
lemma ScopeCoded.while {expr : Expr} {loopScope next : Stat} (hloopScope : ScopeCoded loopScope)
    (hnext : ScopeCoded next) : ScopeCoded (.while expr loopScope next) := by
  rintro fuel vars s s' ⟨hexprU, hloopU, hnextU⟩ ⟨hexprR, hloop, hsize, hnextR⟩ hvis h
  obtain ⟨_, s₂, hwhile, h⟩ := estate_bind_eq_ok.mp h
  obtain ⟨-, r, s₁, t, hexpr, ht, hadv⟩ := compileWhileStatement_eq_ok hwhile
  -- the condition
  obtain ⟨-, ⟨newVars, hcond⟩, -⟩ := compileExpression_coded expr hexprU hexprR hvis.cond hexpr
  have hforget := hcond.forget
  have hvis₁ := hvis.cond.advanced hforget
  -- the body
  have hchild : (childState (forgetVars s₁ s.chain.scope.vars.length) 512 0).callIndex
      = s.callIndex := hforget.callIndex
  obtain ⟨⟨_, hadv₁⟩, -⟩ := hloopScope hloopU (by rw [hchild]; exact hloop) (hvis₁.child _ _) ht
  obtain ⟨-, hstat⟩ := hadv _ _ _ hcond _ _ _ hadv₁
  have hcode : (chunksOf (exprCode s.callIndex vars expr)).flatten
      = encodeAll (exprCode s.callIndex vars expr) := by
    unfold chunksOf encodeAll
    rw [List.flatMap_def]
  have hcondIndex : (condState s).callIndex = s.callIndex := rfl
  have hcondAccount : (condState s).account = s.account := rfl
  rw [hcondIndex, hchild, flatten_scopeChunks, hcode, whileChunk_eq hsize] at hstat
  -- its accounting starts from nothing
  have haccount : (childState (forgetVars s₁ s.chain.scope.vars.length) 512 0).account
      = (0, (accountAll s.account (incsOf (exprCode s.callIndex vars expr))).2) :=
    congrArg (fun account : ℕ × ℕ => ((0 : ℕ), account.2)) hforget.account_eq
  rw [haccount, hcondAccount] at hstat
  exact hnext.cons hstat (hvis.advanced hstat) hnextU hnextR h rfl rfl rfl

/-- The code, the accounting and the variables of a scope. -/
theorem compileScope_coded (stat : Stat) : ScopeCoded stat := by
  induction stat with
  | nil =>
    intro fuel vars s s' _ _ hvis h
    obtain ⟨-, rfl⟩ := estate_pure_eq_ok.mp h
    exact ⟨⟨[], Advanced.refl s⟩, hvis⟩
  | expr expr next ih =>
    rintro fuel vars s s' ⟨hexprU, hnextU⟩ ⟨hexprR, hnextR⟩ hvis h
    obtain ⟨_, s₁, hexpr, h⟩ := estate_bind_eq_ok.mp h
    obtain ⟨-, ⟨newVars, hadv⟩, hvis₁⟩ := compileExpression_coded expr hexprU hexprR hvis hexpr
    refine ih.cons hadv hvis₁ hnextU hnextR h ?_ rfl rfl
    simp only [scopeChunks, scopeCode, List.map_append, map_singleton_chunks]
  | ifElse expr trueScope falseScope next iht ihf ih => exact ScopeCoded.ifElse iht ihf ih
  | «while» expr loopScope next ihl ih => exact ScopeCoded.while ihl ih
  | other next => exact fun _ _ _ _ _ _ _ h => (estate_throw_eq_ok.mp h).elim
  | notScope stat => exact fun _ _ _ _ _ _ _ h => (estate_throw_eq_ok.mp h).elim

end PhantomShell
