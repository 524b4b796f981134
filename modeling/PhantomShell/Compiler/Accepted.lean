import PhantomShell.Compiler.ProgramTheorems

/-!
# What the compiler accepts

An expression of the grammar whose variables are words is regular as soon as the compiler accepts
it: the tracer and the opcode tables stop at everything else. So a program that is accepted is
regular, if it reads no variable of type `void` and its jumps fit.
-/

namespace PhantomShell

/-- The operators of unary expressions. -/
def Operator.isUnary : Operator → Bool
  | .logicalNot => true
  | .unaryMinus => true
  | _ => false

/-- The tree is as the parser builds it: no type is cached, no cast is inserted, and each operator
has its arity. -/
def Expr.Parsed : Expr → Prop
  | .literalInt _ => True
  | .literalFloat _ => True
  | .ident staticType _ => staticType = .unknwn
  | .group staticType expr => staticType = .unknwn ∧ expr.Parsed
  | .unaryOp staticType operator operand =>
    staticType = .unknwn ∧ operator.isUnary = true ∧ operand.Parsed
  | .binaryOp staticType operator left right =>
    staticType = .unknwn ∧ operator.isUnary = false ∧ left.Parsed ∧ right.Parsed
  | .specialCast _ _ _ => False
  | .other _ => True

instance Expr.decidableParsed : (e : Expr) → Decidable e.Parsed
  | .literalInt _ => isTrue trivial
  | .literalFloat _ => isTrue trivial
  | .ident staticType _ => inferInstanceAs (Decidable (staticType = .unknwn))
  | .group staticType expr =>
    have := expr.decidableParsed
    inferInstanceAs (Decidable (staticType = .unknwn ∧ expr.Parsed))
  | .unaryOp staticType operator operand =>
    have := operand.decidableParsed
    inferInstanceAs (Decidable (staticType = .unknwn ∧ operator.isUnary = true ∧ operand.Parsed))
  | .binaryOp staticType operator left right =>
    have := left.decidableParsed
    have := right.decidableParsed
    inferInstanceAs (Decidable (staticType = .unknwn ∧ operator.isUnary = false ∧ left.Parsed ∧
      right.Parsed))
  | .specialCast _ _ _ => isFalse id
  | .other _ => isTrue trivial

lemma Expr.Parsed.untraced {e : Expr} (h : e.Parsed) : e.Untraced := by
  induction e with
  | literalInt value => trivial
  | literalFloat value => trivial
  | ident t name => exact h
  | group t expr ih => exact ⟨h.1, ih h.2⟩
  | unaryOp t operator operand ih => exact ⟨h.1, ih h.2.2⟩
  | binaryOp t operator left right ihl ihr => exact ⟨h.1, ihl h.2.2.1, ihr h.2.2.2⟩
  | specialCast t opcode operand => exact h
  | other t => trivial

/-- The variables that the expression reads are of type `int` or `float`, not `void`. -/
def ReadsWords (vars : Vars) : Expr → Prop
  | .ident _ name => ∀ var, lookupVar vars name = some var → var.staticType.rep.isSome
  | .group _ expr => ReadsWords vars expr
  | .unaryOp _ _ operand => ReadsWords vars operand
  | .binaryOp _ operator left right =>
    (operator = .functionCall ∨ ReadsWords vars left) ∧
      ReadsWords (if operator = .comma then exprVars vars left else vars) right
  | _ => True

instance decidableReadsWords : (vars : Vars) → (e : Expr) → Decidable (ReadsWords vars e)
  | vars, .ident _ name =>
    inferInstanceAs (Decidable (∀ var ∈ lookupVar vars name, var.staticType.rep.isSome))
  | vars, .group _ expr => decidableReadsWords vars expr
  | vars, .unaryOp _ _ operand => decidableReadsWords vars operand
  | vars, .binaryOp _ operator left right =>
    have := decidableReadsWords vars left
    have := decidableReadsWords (if operator = .comma then exprVars vars left else vars) right
    inferInstanceAs (Decidable ((operator = .functionCall ∨ ReadsWords vars left) ∧
      ReadsWords (if operator = .comma then exprVars vars left else vars) right))
  | _, .literalInt _ => isTrue trivial
  | _, .literalFloat _ => isTrue trivial
  | _, .specialCast _ _ _ => isTrue trivial
  | _, .other _ => isTrue trivial

/-- The chain looks up the variables. -/
def ScopeChain.Looks (chain : ScopeChain) (vars : Vars) : Prop :=
  ∀ name, chain.lookup name = lookupVar vars name

/-! ## Tracing -/

/-- A tree with a type is not traced again. -/
lemma traceDataType_of_ne {chain : ScopeChain} {e : Expr} (h : e.staticType ≠ .unknwn) :
    traceDataType chain e = .ok e := by
  cases e with
  | literalInt value => rfl
  | literalFloat value => rfl
  | _ =>
    rw [traceDataType]
    exact if_pos h

lemma traceDataType_operand (chain : ScopeChain) (e : Expr) :
    (if e.staticType = .unknwn then traceDataType chain e else .ok e) = traceDataType chain e := by
  by_cases h : e.staticType = .unknwn
  · rw [if_pos h]
  · rw [if_neg h, traceDataType_of_ne h]

lemma traceDataType_group {chain : ScopeChain} {e e' : Expr}
    (h : traceDataType chain (.group .unknwn e) = .ok e') :
    ∃ e₁, traceDataType chain e = .ok e₁ ∧ e' = .group e₁.staticType e₁ := by
  rw [traceDataType, if_neg (by simp), traceDataType_operand, except_bind_eq_ok] at h
  obtain ⟨e₁, h₁, h⟩ := h
  exact ⟨e₁, h₁, (Except.ok.inj h).symm⟩

lemma traceDataType_unaryOp {chain : ScopeChain} {operator : Operator} {e e' : Expr}
    (h : traceDataType chain (.unaryOp .unknwn operator e) = .ok e') :
    ∃ e₁, traceDataType chain e = .ok e₁ ∧ e' = .unaryOp e₁.staticType operator e₁ := by
  rw [traceDataType, if_neg (by simp), traceDataType_operand, except_bind_eq_ok] at h
  obtain ⟨e₁, h₁, h⟩ := h
  exact ⟨e₁, h₁, (Except.ok.inj h).symm⟩

/-- The operands agree, or one of them is converted, or the first one gets a cast without a
type. -/
lemma traceDataType_binaryOp {chain : ScopeChain} {operator : Operator} {left right e' : Expr}
    (h : traceDataType chain (.binaryOp .unknwn operator left right) = .ok e') :
    operator ≠ .functionCall ∧ ∃ l r, traceDataType chain left = .ok l ∧
      traceDataType chain right = .ok r ∧
      ((l.staticType = r.staticType ∧ e' = .binaryOp r.staticType operator l r) ∨
        (l.staticType = .int ∧ r.staticType = .float ∧
          e' = .binaryOp .float operator (.specialCast .float opcodeI2f l) r) ∨
        (l.staticType = .float ∧ r.staticType = .int ∧
          e' = .binaryOp .float operator l (.specialCast .float opcodeI2f r)) ∨
        e' = .binaryOp .unknwn operator (.specialCast .unknwn opcodePanic l) r) := by
  rw [traceDataType, if_neg (by simp)] at h
  split at h
  · cases h
  rename_i hcall
  rw [traceDataType_operand, except_bind_eq_ok] at h
  obtain ⟨l, hl, h⟩ := h
  rw [traceDataType_operand, except_bind_eq_ok] at h
  obtain ⟨r, hr, h⟩ := h
  refine ⟨hcall, l, r, hl, hr, ?_⟩
  split at h
  · rename_i hne
    by_cases hint : l.staticType = .int ∧ r.staticType = .float
    · simp only [hint, typeSelectCastMethod] at h
      exact .inr (.inl ⟨hint.1, hint.2, (Except.ok.inj h).symm⟩)
    · by_cases hfloat : r.staticType = .int ∧ l.staticType = .float
      · simp only [hfloat, typeSelectCastMethod] at h
        exact .inr (.inr (.inl ⟨hfloat.2, hfloat.1, (Except.ok.inj h).symm⟩))
      · have hcast : typeSelectCastMethod l.staticType r.staticType = ⟨opcodePanic, 0, .unknwn⟩ := by
          unfold typeSelectCastMethod
          exact if_neg (not_or.mpr ⟨hint, hfloat⟩)
        simp only [hcast] at h
        exact .inr (.inr (.inr (Except.ok.inj h).symm))
  · rename_i heq
    exact .inl ⟨not_not.mp heq, (Except.ok.inj h).symm⟩

/-- A traced tree without a type cannot be traced again: there is a cast without a type in it. -/
lemma traceDataType_again {chain chain' : ScopeChain} {vars : Vars} (hlooks : chain.Looks vars)
    {e e₁ e₂ : Expr} (hp : e.Parsed) (hreads : ReadsWords vars e)
    (h : traceDataType chain e = .ok e₁) (ht : e₁.staticType = .unknwn) :
    traceDataType chain' e₁ ≠ .ok e₂ := by
  induction e generalizing vars e₁ e₂ with
  | literalInt value =>
    cases h
    cases ht
  | literalFloat value =>
    cases h
    cases ht
  | ident t name =>
    have htype : t = .unknwn := hp
    subst htype
    rw [traceDataType, if_neg (by simp), hlooks] at h
    cases hvar : lookupVar vars name with
    | none => simp [hvar] at h
    | some var =>
      simp only [hvar] at h
      cases h
      -- a variable that is read has a type that is a word
      have hrep := hreads var hvar
      simp only [Expr.staticType] at ht
      simp [ht, StaticType.rep] at hrep
  | group t expr ih =>
    obtain ⟨rfl, hp⟩ := hp
    obtain ⟨e', h', rfl⟩ := traceDataType_group h
    intro h₂
    change e'.staticType = .unknwn at ht
    rw [ht] at h₂
    obtain ⟨e'', h'', -⟩ := traceDataType_group h₂
    exact ih hlooks hp hreads h' ht h''
  | unaryOp t operator operand ih =>
    obtain ⟨rfl, -, hp⟩ := hp
    obtain ⟨e', h', rfl⟩ := traceDataType_unaryOp h
    intro h₂
    change e'.staticType = .unknwn at ht
    rw [ht] at h₂
    obtain ⟨e'', h'', -⟩ := traceDataType_unaryOp h₂
    exact ih hlooks hp hreads h' ht h''
  | binaryOp t operator left right ihl ihr =>
    obtain ⟨rfl, -, hpl, hpr⟩ := hp
    obtain ⟨hcall, l, r, hl, hr, hcase⟩ := traceDataType_binaryOp h
    intro h₂
    -- the operands have one type, one of them is cast, or the cast has no type
    rcases hcase with ⟨hlr, rfl⟩ | ⟨-, -, rfl⟩ | ⟨-, -, rfl⟩ | rfl
    · change r.staticType = .unknwn at ht
      rw [ht] at h₂
      obtain ⟨-, l', r', hl', -⟩ := traceDataType_binaryOp h₂
      exact ihl hlooks hpl (hreads.1.resolve_left hcall) hl (hlr.trans ht) hl'
    · cases ht
    · cases ht
    · obtain ⟨-, l', r', hl', -⟩ := traceDataType_binaryOp h₂
      rw [traceDataType, if_neg (by simp)] at hl'
      cases hl'
  | specialCast t opcode operand => exact hp.elim
  | other t =>
    by_cases hty : t = .unknwn
    · subst hty
      rw [traceDataType, if_neg (by simp)] at h
      cases h
    · rw [traceDataType, if_pos hty] at h
      cases h
      exact (hty ht).elim

/-! ## Operands -/

/-- An operand that is traced and then compiled has a type. -/
def OperandAccepted (e : Expr) : Prop :=
  ∀ ⦃chain : ScopeChain⦄ ⦃vars : Vars⦄ ⦃fuel : ℕ⦄ ⦃s s' : CompilerState⦄ ⦃ret : ℤ⦄ ⦃e₁ : Expr⦄,
    e.Parsed → ReadsWords vars e → chain.Looks vars → s.chain.Sees vars →
    traceDataType chain e = .ok e₁ → compileExpression fuel e₁ s = .ok ret s' →
    ∃ r, operandRep vars e = some r

lemma ScopeChain.Looks.sees {chain : ScopeChain} {vars : Vars} (h : chain.Looks vars) :
    chain.Sees vars := fun name var hvar => by rw [h, hvar]

lemma Rep.type_injective {a b : Rep} (h : a.type = b.type) : a = b := by
  cases a <;> cases b <;> first | rfl | cases h

/-- An operand, or an operand that is converted. -/
def MaybeCast (e L : Expr) : Prop := L = e ∨ ∃ t opcode, L = .specialCast t opcode e

lemma MaybeCast.compiles {e L : Expr} (h : MaybeCast e L) {fuel : ℕ} {s s' : CompilerState}
    {ret : ℤ} (hcompile : compileExpression fuel L s = .ok ret s') :
    ∃ fuel' ret' s₁, compileExpression fuel' e s = .ok ret' s₁ := by
  rcases h with rfl | ⟨t, opcode, rfl⟩
  · exact ⟨fuel, ret, s', hcompile⟩
  · cases fuel with
    | zero => exact (estate_throw_eq_ok.mp hcompile).elim
    | succ fuel =>
      rw [compileExpression, compileSpecialCast, estate_bind_eq_ok] at hcompile
      obtain ⟨ret', s₁, h₁, -⟩ := hcompile
      exact ⟨fuel, ret', s₁, h₁⟩

/-- The type of an operand that was traced and compiled, and its code. -/
lemma OperandAccepted.cast {e : Expr} (he : OperandAccepted e) {chain : ScopeChain} {vars : Vars}
    {fuel : ℕ} {s s' : CompilerState} {ret : ℤ} {e₁ L : Expr} {r : Rep} (hp : e.Parsed)
    (hreads : ReadsWords vars e) (hlooks : chain.Looks vars) (hsees : s.chain.Sees vars)
    (htrace : traceDataType chain e = .ok e₁) (hcast : MaybeCast e₁ L)
    (hL : ∀ a : Rep, e₁.staticType = a.type → L = castExpr a r e₁)
    (h : compileExpression fuel L s = .ok ret s') :
    ∃ a, operandRep vars e = some a ∧ e₁.staticType = a.type ∧ ret = 0 ∧ s'.chain.Sees vars := by
  obtain ⟨fuel', ret', s₁, h₁⟩ := hcast.compiles h
  obtain ⟨a, ha⟩ := he hp hreads hlooks hsees htrace h₁
  have htraced := Except.ok.inj ((traceDataType_eq hlooks.sees hp.untraced ha).symm.trans htrace)
  have htype : e₁.staticType = a.type := by rw [← htraced, traced_staticType ha]
  rw [hL a htype, ← htraced] at h
  obtain ⟨hret, hemit⟩ := (compiles_traced ha).cast a r _ _ _ _ hsees h
  exact ⟨a, ha, htype, hret, Emitted.sees hemit hsees⟩

/-- The opcode tables have an opcode for two operands of one type. -/
lemma valueOp_of_binaryOpcode {t : StaticType} {operator : Operator}
    (hunary : operator.isUnary = false) (h : binaryOpcode t operator ≠ 0) :
    ∃ r op, t = r.type ∧ valueOp r operator = some op := by
  cases t with
  | int =>
    refine ⟨.int, ?_⟩
    cases operator <;> first | exact ⟨_, rfl, rfl⟩ | exact (h rfl).elim | cases hunary
  | float =>
    refine ⟨.float, ?_⟩
    cases operator <;> first | exact ⟨_, rfl, rfl⟩ | exact (h rfl).elim | cases hunary
  | _ => exact (h rfl).elim

lemma operator_ne_comma {r : Rep} {operator : Operator} {op : PlainOp}
    (h : valueOp r operator = some op) : operator ≠ .comma := by
  rintro rfl
  cases r <;> cases h

/-- An operation whose operands were traced, and were compiled with its opcode. -/
lemma operation_accepted {operator : Operator} {left right : Expr} {t : StaticType}
    (hleft : OperandAccepted left) (hright : OperandAccepted right) {chain : ScopeChain}
    {vars : Vars} {fuel : ℕ} {s s' : CompilerState} {ret : ℤ} {t' : StaticType} {L R : Expr}
    (hp : (Expr.binaryOp t operator left right).Parsed)
    (hreads : ReadsWords vars (.binaryOp t operator left right)) (hlooks : chain.Looks vars)
    (hsees : s.chain.Sees vars)
    (htrace : traceDataType chain (.binaryOp t operator left right) = .ok (.binaryOp t' operator L R))
    (h : compileOperands (compileExpression fuel) (binaryOpcode t' operator) L R s = .ok ret s') :
    ∃ r, operandRep vars (.binaryOp t operator left right) = some r := by
  obtain ⟨rfl, hunary, hpl, hpr⟩ := hp
  obtain ⟨hcall, l, r, hl, hr, hcase⟩ := traceDataType_binaryOp htrace
  unfold compileOperands at h
  split at h
  · exact (estate_throw_eq_ok.mp h).elim
  rename_i hopcode
  obtain ⟨v, op, rfl, hop⟩ := valueOp_of_binaryOpcode hunary hopcode
  have hreadsR : ReadsWords vars right := by
    have := hreads.2
    rwa [if_neg (operator_ne_comma hop)] at this
  obtain ⟨r₁, s₁, h₁, h⟩ := estate_bind_eq_ok.mp h
  -- in each of the three ways to join them, the operands are cast to the common type
  obtain ⟨hcastL, hcastR, hL, hR, hjoin⟩ : MaybeCast l L ∧ MaybeCast r R ∧
      (∀ a : Rep, l.staticType = a.type → L = castExpr a v l) ∧
      (∀ b : Rep, r.staticType = b.type → R = castExpr b v r) ∧
      ∀ a b : Rep, l.staticType = a.type → r.staticType = b.type → joinRep a b = v := by
    rcases hcase with ⟨hlr, heq⟩ | ⟨hlt, hrt, heq⟩ | ⟨hlt, hrt, heq⟩ | heq
    · obtain ⟨ht, -, rfl, rfl⟩ := Expr.binaryOp.inj heq
      refine ⟨.inl rfl, .inl rfl, fun a ha => ?_, fun b hb => ?_, fun a b ha hb => ?_⟩
      · rw [hlr, ← ht] at ha
        simp [castExpr, Rep.type_injective ha]
      · rw [← ht] at hb
        simp [castExpr, Rep.type_injective hb]
      · rw [hlr, ← ht] at ha
        rw [← ht] at hb
        simp [joinRep, ← Rep.type_injective ha, ← Rep.type_injective hb]
    · obtain ⟨ht, -, rfl, rfl⟩ := Expr.binaryOp.inj heq
      obtain rfl : v = .float := Rep.type_injective ht
      refine ⟨.inr ⟨_, _, rfl⟩, .inl rfl, fun a ha => ?_, fun b hb => ?_, fun a b ha hb => ?_⟩
      · obtain rfl : a = .int := Rep.type_injective (ha.symm.trans hlt)
        rfl
      · obtain rfl : b = .float := Rep.type_injective (hb.symm.trans hrt)
        rfl
      · obtain rfl : a = .int := Rep.type_injective (ha.symm.trans hlt)
        obtain rfl : b = .float := Rep.type_injective (hb.symm.trans hrt)
        rfl
    · obtain ⟨ht, -, rfl, rfl⟩ := Expr.binaryOp.inj heq
      obtain rfl : v = .float := Rep.type_injective ht
      refine ⟨.inl rfl, .inr ⟨_, _, rfl⟩, fun a ha => ?_, fun b hb => ?_, fun a b ha hb => ?_⟩
      · obtain rfl : a = .float := Rep.type_injective (ha.symm.trans hlt)
        rfl
      · obtain rfl : b = .int := Rep.type_injective (hb.symm.trans hrt)
        rfl
      · obtain rfl : a = .float := Rep.type_injective (ha.symm.trans hlt)
        obtain rfl : b = .int := Rep.type_injective (hb.symm.trans hrt)
        rfl
    · exact (Rep.type_ne_unknwn v (Expr.binaryOp.inj heq).1).elim
  obtain ⟨a, ha, hat, rfl, hsees₁⟩ :=
    hleft.cast hpl (hreads.1.resolve_left hcall) hlooks hsees hl hcastL hL h₁
  rw [if_neg (by decide)] at h
  obtain ⟨r₂, s₂, h₂, -⟩ := estate_bind_eq_ok.mp h
  obtain ⟨b, hb, hbt, -⟩ := hright.cast hpr hreadsR hlooks hsees₁ hr hcastR hR h₂
  refine ⟨v, ?_⟩
  simp only [operandRep, ha, hb, hjoin a b hat hbt, if_neg (operator_ne_assignment hop), hop,
    Option.map_some]

/-- An assignment inside of an expression has a visible variable of the type of its right side. -/
lemma OperandAccepted.assignment {left right : Expr} (hleft : OperandAccepted left)
    (hright : OperandAccepted right) (t : StaticType) :
    OperandAccepted (.binaryOp t .assignment left right) := by
  rintro chain vars fuel s s' ret e₁ ⟨rfl, -, hpl, hpr⟩ ⟨hreadsL, hreadsR⟩ hlooks hsees htrace h
  replace hreadsL := hreadsL.resolve_left (by decide)
  rw [if_neg (by decide)] at hreadsR
  cases fuel with
  | zero => exact (estate_throw_eq_ok.mp h).elim
  | succ fuel =>
    obtain ⟨-, l, r, hl, hr, hcase⟩ := traceDataType_binaryOp htrace
    -- the left side is an identifier, since it still is one behind the tracer
    obtain ⟨t', name, R, rfl, hjoin, hcompile⟩ : ∃ t' name R, l = .ident t' name ∧
        ((l.staticType = r.staticType ∧ R = r) ∨ (l.staticType = .float ∧ r.staticType = .int ∧
          R = .specialCast .float opcodeI2f r)) ∧
        compileBinaryOpAssignment (compileExpression fuel) l R s = .ok ret s' := by
      have hident : ∀ L R, compileBinaryOpAssignment (compileExpression fuel) L R s
          = .ok ret s' → ∃ t' name, L = .ident t' name := by
        intro L R hL
        obtain ⟨R', s₁, -, hL⟩ := estate_bind_eq_ok.mp hL
        cases L with
        | ident t' name => exact ⟨t', name, rfl⟩
        | _ => exact (estate_throw_eq_ok.mp hL).elim
      rcases hcase with ⟨hlr, rfl⟩ | ⟨-, -, rfl⟩ | ⟨hlt, hrt, rfl⟩ | rfl
      · obtain ⟨t', name, rfl⟩ := hident _ _ h
        exact ⟨t', name, r, rfl, .inl ⟨hlr, rfl⟩, h⟩
      · obtain ⟨_, _, hL⟩ := hident (.specialCast .float opcodeI2f l) r h
        cases hL
      · obtain ⟨t', name, rfl⟩ := hident _ _ h
        exact ⟨t', name, _, rfl, .inr ⟨hlt, hrt, rfl⟩, h⟩
      · obtain ⟨_, _, hL⟩ := hident (.specialCast .unknwn opcodePanic l) r h
        cases hL
    obtain ⟨t₀, rfl⟩ : ∃ t₀, left = .ident t₀ name := by
      cases left with
      | ident t₀ name₀ =>
        have ht₀ : t₀ = .unknwn := hpl
        subst ht₀
        rw [traceDataType, if_neg (by simp)] at hl
        split at hl
        · cases hl
        · cases hl
          exact ⟨_, rfl⟩
      | literalInt value => cases hl
      | literalFloat value => cases hl
      | group t₀ e =>
        obtain ⟨rfl, -⟩ := hpl
        obtain ⟨_, -, hgroup⟩ := traceDataType_group hl
        cases hgroup
      | unaryOp t₀ operator e =>
        obtain ⟨rfl, -⟩ := hpl
        obtain ⟨_, -, hunary⟩ := traceDataType_unaryOp hl
        cases hunary
      | binaryOp t₀ operator e₀ e₁ =>
        obtain ⟨rfl, -⟩ := hpl
        obtain ⟨_, _, _, hbinary⟩ := traceDataType_operator hl
        cases hbinary
      | specialCast t₀ opcode e => exact hpl.elim
      | other t₀ =>
        rw [traceDataType] at hl
        split at hl <;> cases hl
    have ht₀ : t₀ = .unknwn := hpl
    subst ht₀
    rw [traceDataType, if_neg (by simp), hlooks] at hl
    cases hvar : lookupVar vars name with
    | none => simp [hvar] at hl
    | some var =>
      simp only [hvar, Except.ok.injEq, Expr.ident.injEq, and_true] at hl
      subst hl
      obtain ⟨a, ha⟩ := Option.isSome_iff_exists.mp (hreadsL var hvar)
      have htype := StaticType.eq_type ha
      have hleftRep : operandRep vars (.ident .unknwn name) = some a := by
        simp [operandRep, hvar, ha]
      -- the right side keeps its type, and there is nothing to convert
      have hR : R.staticType = a.type := by
        rcases hjoin with ⟨hlr, rfl⟩ | ⟨hlt, -, rfl⟩
        · rw [← hlr]
          exact htype
        · rw [← htype]
          exact hlt.symm
      obtain ⟨R', s₁, hretrace, h'⟩ := estate_bind_eq_ok.mp hcompile
      obtain ⟨hR', rfl⟩ := astNodeTraceDataType_eq_ok.mp hretrace
      rw [traceDataType_typed hR] at hR'
      cases hR'
      simp only [assignmentTarget, estate_bind_eq_ok, estate_get_eq_ok] at h'
      obtain ⟨target, s₂, ⟨_, _, ⟨rfl, rfl⟩, htarget⟩, r₁, s₃, h₁, -⟩ := h'
      simp only [hsees name var hvar, htype, hR, ne_eq, not_true_eq_false, if_false,
        estate_pure_eq_ok] at htarget
      obtain ⟨-, rfl⟩ := htarget
      have hcast : MaybeCast r R := by
        rcases hjoin with ⟨-, rfl⟩ | ⟨-, -, rfl⟩
        · exact .inl rfl
        · exact .inr ⟨_, _, rfl⟩
      obtain ⟨fuel', r₁', s₁', hcompiled⟩ := hcast.compiles h₁
      obtain ⟨b, hb⟩ := hright hpr hreadsR hlooks hsees hr hcompiled
      have htraced := Except.ok.inj
        ((traceDataType_eq hlooks.sees hpr.untraced hb).symm.trans hr)
      have hbt : r.staticType = b.type := by rw [← htraced, traced_staticType hb]
      have hab : joinRep a b = a := by
        rcases hjoin with ⟨hlr, -⟩ | ⟨hlt, hrt, -⟩
        · have : a = b := Rep.type_injective (htype.symm.trans (hlr.trans hbt))
          simp [joinRep, this]
        · obtain rfl : a = .float := Rep.type_injective (htype.symm.trans hlt)
          obtain rfl : b = .int := Rep.type_injective (hbt.symm.trans hrt)
          rfl
      exact ⟨a, by rw [operandRep, hleftRep, hb]; simp [hab]⟩

/-- Every operand of the grammar that is traced and then compiled has a type. -/
theorem operandAccepted (e : Expr) : OperandAccepted e := by
  induction e with
  | literalInt value => exact fun _ _ _ _ _ _ _ _ _ _ _ _ _ => ⟨.int, rfl⟩
  | literalFloat value => exact fun _ _ _ _ _ _ _ _ _ _ _ _ _ => ⟨.float, rfl⟩
  | ident t name =>
    intro chain vars fuel s s' ret e₁ hp hreads hlooks _ htrace _
    have ht : t = .unknwn := hp
    subst ht
    rw [traceDataType, if_neg (by simp), hlooks] at htrace
    cases hvar : lookupVar vars name with
    | none => simp [hvar] at htrace
    | some var =>
      obtain ⟨r, hr⟩ := Option.isSome_iff_exists.mp (hreads var hvar)
      exact ⟨r, by simp [operandRep, hvar, hr]⟩
  | group t expr ih =>
    rintro chain vars fuel s s' ret e₁ ⟨rfl, hp⟩ hreads hlooks hsees htrace h
    obtain ⟨e', h', rfl⟩ := traceDataType_group htrace
    cases fuel with
    | zero => exact (estate_throw_eq_ok.mp h).elim
    | succ fuel => exact ih hp hreads hlooks hsees h' h
  | unaryOp t operator operand ih =>
    rintro chain vars fuel s s' ret e₁ ⟨rfl, hunary, hp⟩ hreads hlooks hsees htrace h
    obtain ⟨e', h', rfl⟩ := traceDataType_unaryOp htrace
    cases fuel with
    | zero => exact (estate_throw_eq_ok.mp h).elim
    | succ fuel =>
      rw [compileExpression, compileUnaryOp] at h
      split at h
      · exact (estate_throw_eq_ok.mp h).elim
      rename_i hopcode
      obtain ⟨r₁, s₁, h₁, -⟩ := estate_bind_eq_ok.mp h
      obtain ⟨r, hr⟩ := ih hp hreads hlooks hsees h' h₁
      obtain rfl : operator = .unaryMinus := by
        cases operator <;> first | rfl | exact (hopcode rfl).elim | cases hunary
      exact ⟨r, by rw [operandRep, if_pos rfl, hr]⟩
  | binaryOp t operator left right ihl ihr =>
    by_cases hassign : operator = .assignment
    · subst hassign
      exact ihl.assignment ihr t
    intro chain vars fuel s s' ret e₁ hp hreads hlooks hsees htrace h
    obtain ⟨t', L, R, rfl⟩ := traceDataType_operator htrace
    cases fuel with
    | zero => exact (estate_throw_eq_ok.mp h).elim
    | succ fuel =>
      have hcall : operator ≠ .functionCall := by
        obtain ⟨rfl, -⟩ := hp
        exact (traceDataType_binaryOp htrace).1
      rw [compileExpression, compileBinaryOp, if_neg hassign, if_neg hcall] at h
      obtain ⟨e₂, s₁, hretrace, h⟩ := estate_bind_eq_ok.mp h
      obtain ⟨htrace₂, rfl⟩ := astNodeTraceDataType_eq_ok.mp hretrace
      -- a tree without a type could not be traced again
      have ht' : t' ≠ .unknwn := by
        rintro rfl
        exact traceDataType_again hlooks hp hreads htrace rfl htrace₂
      rw [traceDataType_of_ne (e := .binaryOp t' operator L R) ht'] at htrace₂
      cases htrace₂
      exact operation_accepted ihl ihr hp hreads hlooks hsees htrace h
  | specialCast t opcode operand => exact fun _ _ _ _ _ _ _ hp => hp.elim
  | other t =>
    intro chain vars fuel s s' ret e₁ _ _ _ _ htrace h
    rw [traceDataType] at htrace
    split at htrace
    · cases htrace
      cases fuel with
      | zero => exact (estate_throw_eq_ok.mp h).elim
      | succ fuel => exact (estate_throw_eq_ok.mp h).elim
    · cases htrace

/-! ## Expressions -/

/-- An expression that is compiled is regular. -/
def ExprAccepted (e : Expr) : Prop :=
  ∀ ⦃fuel : ℕ⦄ ⦃vars : Vars⦄ ⦃s s' : CompilerState⦄ ⦃ret : ℤ⦄, e.Parsed → ReadsWords vars e →
    s.chain.Visible vars → compileExpression fuel e s = .ok ret s' → RegularExpr vars e

/-- So are arguments. -/
def ArgsAccepted (args : Expr) : Prop :=
  ∀ ⦃fuel : ℕ⦄ ⦃vars : Vars⦄ ⦃s s' : CompilerState⦄, args.Parsed → ReadsWords vars args →
    s.chain.Visible vars → compileArgs (compileExpression fuel) args s = .ok () s' →
    RegularExpr vars args

/-- The variables are seen behind `assignmentTarget`, which may have defined another one. -/
lemma assignmentTarget_sees {name : CStr} {t : StaticType} {vars : Vars} {s s' : CompilerState}
    {target : ScopeVar × StaticType × UInt8} (hvis : s.chain.Visible vars)
    (h : assignmentTarget name t s = .ok target s') : s'.chain.Sees vars := by
  simp only [assignmentTarget, estate_bind_eq_ok, estate_get_eq_ok] at h
  obtain ⟨_, _, ⟨rfl, rfl⟩, h⟩ := h
  cases hvar : lookupVar vars name with
  | some var =>
    simp only [hvis.lookup, hvar] at h
    split at h
    · split at h
      · exact (estate_throw_eq_ok.mp h).elim
      · obtain ⟨-, rfl⟩ := estate_pure_eq_ok.mp h
        exact hvis.sees
    · obtain ⟨-, rfl⟩ := estate_pure_eq_ok.mp h
      exact hvis.sees
  | none =>
    simp only [hvis.lookup, hvar, estate_bind_eq_ok, estate_pure_eq_ok] at h
    obtain ⟨var, _, hdefine, -, rfl⟩ := h
    obtain ⟨-, -, hvis'⟩ := hvis.define (fun _ => hvar) hdefine
    intro name' var' hvar'
    rw [hvis'.lookup]
    exact lookupVar_declareVar hvar' _ _

/-- An assignment has an identifier on its left side and an operand on its right side. -/
lemma exprAccepted_assignment (t : StaticType) (left right : Expr) :
    ExprAccepted (.binaryOp t .assignment left right) := by
  rintro fuel vars s s' ret ⟨-, -, -, hp⟩ ⟨-, hreads⟩ hvis h
  cases fuel with
  | zero => exact (estate_throw_eq_ok.mp h).elim
  | succ fuel =>
    obtain ⟨right', s₁, hright, h⟩ := estate_bind_eq_ok.mp h
    obtain ⟨htrace, rfl⟩ := astNodeTraceDataType_eq_ok.mp hright
    cases left with
    | ident t' name =>
      obtain ⟨target, s₂, htarget, h⟩ := estate_bind_eq_ok.mp h
      obtain ⟨r₁, s₃, hcompile, -⟩ := estate_bind_eq_ok.mp h
      obtain ⟨r, hr⟩ := operandAccepted right hp hreads hvis.lookup
        (assignmentTarget_sees hvis htarget) htrace hcompile
      exact Option.isSome_iff_exists.mpr ⟨r, hr⟩
    | _ => exact (estate_throw_eq_ok.mp h).elim

/-- An operation, compiled as an expression. -/
lemma exprAccepted_operation {t : StaticType} {operator : Operator} {left right : Expr}
    (hassign : operator ≠ .assignment) (hcall : operator ≠ .functionCall) {fuel : ℕ} {vars : Vars}
    {s s' : CompilerState} {ret : ℤ} (hp : (Expr.binaryOp t operator left right).Parsed)
    (hreads : ReadsWords vars (.binaryOp t operator left right)) (hvis : s.chain.Visible vars)
    (h : compileExpression fuel (.binaryOp t operator left right) s = .ok ret s') :
    (operandRep vars (.binaryOp t operator left right)).isSome := by
  cases fuel with
  | zero => exact (estate_throw_eq_ok.mp h).elim
  | succ fuel =>
    rw [compileExpression, compileBinaryOp, if_neg hassign, if_neg hcall] at h
    obtain ⟨e₁, s₁, hnode, h⟩ := estate_bind_eq_ok.mp h
    obtain ⟨htrace, rfl⟩ := astNodeTraceDataType_eq_ok.mp hnode
    obtain ⟨t', L, R, rfl⟩ := traceDataType_operator htrace
    exact Option.isSome_iff_exists.mpr (operation_accepted (operandAccepted left)
      (operandAccepted right) hp hreads hvis.lookup hvis.sees htrace h)

lemma ExprAccepted.unaryOp {e : Expr} (he : ExprAccepted e) (t : StaticType)
    (operator : Operator) : ExprAccepted (.unaryOp t operator e) := by
  rintro fuel vars s s' ret ⟨-, hunary, hp⟩ hreads hvis h
  cases fuel with
  | zero => exact (estate_throw_eq_ok.mp h).elim
  | succ fuel =>
    rw [compileExpression, compileUnaryOp] at h
    split at h
    · exact (estate_throw_eq_ok.mp h).elim
    rename_i hopcode
    obtain ⟨r₁, s₁, h₁, -⟩ := estate_bind_eq_ok.mp h
    refine ⟨?_, he hp hreads hvis h₁⟩
    cases operator <;> first | rfl | exact (hopcode rfl).elim | cases hunary

/-- A call names a function and has a group of arguments. -/
lemma exprAccepted_call {t : StaticType} {left right : Expr}
    (hargs : ∀ t args, right = .group t args → ArgsAccepted args) :
    ExprAccepted (.binaryOp t .functionCall left right) := by
  rintro fuel vars s s' ret ⟨-, -, -, hp⟩ ⟨-, hreads⟩ hvis h
  cases fuel with
  | zero => exact (estate_throw_eq_ok.mp h).elim
  | succ fuel =>
    change compileFunctionCall (compileExpression fuel) left right s = .ok ret s' at h
    cases left with
    | ident t' name =>
      obtain ⟨s₀, _, hget, h⟩ := estate_bind_eq_ok.mp h
      obtain ⟨rfl, rfl⟩ := estate_get_eq_ok.mp hget
      cases hfunc : hashmapGet id s.globalFuncMap name with
      | none =>
        simp only [hfunc] at h
        exact (estate_throw_eq_ok.mp h).elim
      | some funcDesc =>
        simp only [hfunc] at h
        obtain ⟨index, s₁, hindex, h⟩ := estate_bind_eq_ok.mp h
        simp only [constPoolIndexByValue, estate_bind_eq_ok, estate_get_eq_ok,
          estate_pure_eq_ok] at hindex
        obtain ⟨_, _, ⟨rfl, rfl⟩, -, rfl⟩ := hindex
        cases right with
        | group t'' args =>
          obtain ⟨_, s₂, hcompile, -⟩ := estate_bind_eq_ok.mp h
          exact hargs t'' args rfl hp.2 hreads hvis hcompile
        | _ => exact (estate_throw_eq_ok.mp h).elim
    | _ => exact (estate_throw_eq_ok.mp h).elim

/-- Arguments, from the first of them and the others. -/
lemma ExprAccepted.comma {left right : Expr} (hleft : ExprAccepted left)
    (hright : ArgsAccepted right) (t : StaticType) : ArgsAccepted (.binaryOp t .comma left right) := by
  rintro fuel vars s s' ⟨-, -, hpl, hpr⟩ ⟨hreadsL, hreadsR⟩ hvis h
  rw [compileArgs, if_pos rfl] at h
  obtain ⟨r₁, s₁, h₁, h⟩ := estate_bind_eq_ok.mp h
  have hregL := hleft hpl (hreadsL.resolve_left (by decide)) hvis h₁
  obtain ⟨-, hcoded⟩ := compileExpression_coded left hpl.untraced hregL hvis h₁
  exact ⟨hregL, hright hpr hreadsR hcoded.2 h⟩

/-- Expressions and arguments, together because a call has arguments and these have calls. -/
lemma exprAccepted_argsAccepted (e : Expr) :
    ExprAccepted e ∧ ArgsAccepted e ∧ ∀ t args, e = .group t args → ArgsAccepted args := by
  have hone : ∀ {e : Expr}, (∀ {fuel s s'}, compileArgs (compileExpression fuel) e s = .ok () s' →
      ∃ ret, compileExpression fuel e s = .ok ret s') → ExprAccepted e → ArgsAccepted e := by
    intro e hargs he fuel vars s s' hp hreads hvis h
    obtain ⟨ret, hret⟩ := hargs h
    exact he hp hreads hvis hret
  have hbind : ∀ {fuel e s s'}, (compileExpression fuel e >>= fun _ => pure ()) s = .ok () s' →
      ∃ ret, compileExpression fuel e s = .ok ret s' := by
    intro fuel e s s' h
    obtain ⟨ret, s₁, h₁, h⟩ := estate_bind_eq_ok.mp h
    obtain ⟨-, rfl⟩ := estate_pure_eq_ok.mp h
    exact ⟨ret, h₁⟩
  induction e with
  | ident t name =>
    have he : ExprAccepted (.ident t name) := fun _ _ _ _ _ _ hreads _ _ => hreads
    exact ⟨he, hone hbind he, nofun⟩
  | group t expr ih =>
    have he : ExprAccepted (.group t expr) := by
      intro fuel vars s s' ret hp hreads hvis h
      cases fuel with
      | zero => exact (estate_throw_eq_ok.mp h).elim
      | succ fuel => exact ih.1 hp.2 hreads hvis h
    refine ⟨he, hone hbind he, fun t' args h => ?_⟩
    cases h
    exact ih.2.1
  | unaryOp t operator operand ih =>
    have he := ih.1.unaryOp t operator
    exact ⟨he, hone hbind he, nofun⟩
  | binaryOp t operator left right ihl ihr =>
    by_cases hcomma : operator = .comma
    · subst hcomma
      exact ⟨fun _ _ _ _ _ _ _ _ h => (compileExpression_comma h).elim,
        ihl.1.comma ihr.2.1 t, nofun⟩
    · have he : ExprAccepted (.binaryOp t operator left right) := by
        cases operator with
        | comma => exact (hcomma rfl).elim
        | assignment => exact exprAccepted_assignment t left right
        | functionCall => exact exprAccepted_call ihr.2.2
        | _ => exact fun _ _ _ _ _ hp hreads hvis h =>
            exprAccepted_operation (by decide) (by decide) hp hreads hvis h
      exact ⟨he, hone (fun h => (compileArgs_binaryOp hcomma h).elim) he, nofun⟩
  | literalInt value =>
    have he : ExprAccepted (.literalInt value) := fun _ _ _ _ _ _ _ _ _ => rfl
    exact ⟨he, hone hbind he, nofun⟩
  | literalFloat value =>
    have he : ExprAccepted (.literalFloat value) := fun _ _ _ _ _ _ _ _ _ => rfl
    exact ⟨he, hone hbind he, nofun⟩
  | specialCast t opcode operand =>
    have he : ExprAccepted (.specialCast t opcode operand) := fun _ _ _ _ _ hp => hp.elim
    exact ⟨he, hone hbind he, nofun⟩
  | other t =>
    have he : ExprAccepted (.other t) := by
      intro fuel vars s s' ret _ _ _ h
      cases fuel with
      | zero => exact (estate_throw_eq_ok.mp h).elim
      | succ fuel => exact (estate_throw_eq_ok.mp h).elim
    exact ⟨he, hone hbind he, nofun⟩

/-- What the compiler accepts as an expression is regular. -/
theorem exprAccepted (e : Expr) : ExprAccepted e := (exprAccepted_argsAccepted e).1

/-! ## Statements -/

/-- All expressions of the statements are as the parser builds them. -/
def Stat.Parsed : Stat → Prop
  | .nil => True
  | .expr e next => e.Parsed ∧ next.Parsed
  | .ifElse e trueScope falseScope next =>
    e.Parsed ∧ trueScope.Parsed ∧ falseScope.Parsed ∧ next.Parsed
  | .while e loopScope next => e.Parsed ∧ loopScope.Parsed ∧ next.Parsed
  | .other next => next.Parsed
  | .notScope stat => stat.Parsed

instance Stat.decidableParsed : (stat : Stat) → Decidable stat.Parsed
  | .nil => isTrue trivial
  | .expr e next =>
    have := next.decidableParsed
    inferInstanceAs (Decidable (e.Parsed ∧ next.Parsed))
  | .ifElse e trueScope falseScope next =>
    have := trueScope.decidableParsed
    have := falseScope.decidableParsed
    have := next.decidableParsed
    inferInstanceAs (Decidable (e.Parsed ∧ trueScope.Parsed ∧ falseScope.Parsed ∧ next.Parsed))
  | .while e loopScope next =>
    have := loopScope.decidableParsed
    have := next.decidableParsed
    inferInstanceAs (Decidable (e.Parsed ∧ loopScope.Parsed ∧ next.Parsed))
  | .other next => next.decidableParsed
  | .notScope stat => stat.decidableParsed

lemma Stat.Parsed.untraced {stat : Stat} (h : stat.Parsed) : stat.Untraced := by
  induction stat with
  | nil => trivial
  | expr e next ih => exact ⟨h.1.untraced, ih h.2⟩
  | ifElse e trueScope falseScope next iht ihf ih =>
    exact ⟨h.1.untraced, iht h.2.1, ihf h.2.2.1, ih h.2.2.2⟩
  | «while» e loopScope next ihl ih => exact ⟨h.1.untraced, ihl h.2.1, ih h.2.2⟩
  | other next ih => exact ih h
  | notScope stat ih => exact ih h

/-- The sizes of the blocks survive their encoding: a true block with its jump and a loop with its
jumps have at most 255 bytes, a false block at most 65535. The operands of calls play no role. -/
def JumpsFit (vars : Vars) : Stat → Prop
  | .expr e next => JumpsFit (exprVars vars e) next
  | .ifElse e trueScope falseScope next =>
    let vars' := exprVars vars e
    JumpsFit vars' trueScope ∧ JumpsFit vars' falseScope ∧
      codeSize (scopeCode (fun _ => 0) vars' trueScope).flatten + 3 ≤ 255 ∧
      codeSize (scopeCode (fun _ => 0) vars' falseScope).flatten ≤ 65535 ∧ JumpsFit vars' next
  | .while e loopScope next =>
    JumpsFit vars loopScope ∧
      codeSize (exprCode (fun _ => 0) vars e) +
        codeSize (scopeCode (fun _ => 0) vars loopScope).flatten + 6 ≤ 255 ∧ JumpsFit vars next
  | _ => True

instance decidableJumpsFit : (vars : Vars) → (stat : Stat) → Decidable (JumpsFit vars stat)
  | vars, .expr e next => decidableJumpsFit (exprVars vars e) next
  | vars, .ifElse e trueScope falseScope next =>
    have := decidableJumpsFit (exprVars vars e) trueScope
    have := decidableJumpsFit (exprVars vars e) falseScope
    have := decidableJumpsFit (exprVars vars e) next
    inferInstanceAs (Decidable (JumpsFit (exprVars vars e) trueScope ∧
      JumpsFit (exprVars vars e) falseScope ∧
      codeSize (scopeCode (fun _ => 0) (exprVars vars e) trueScope).flatten + 3 ≤ 255 ∧
      codeSize (scopeCode (fun _ => 0) (exprVars vars e) falseScope).flatten ≤ 65535 ∧
      JumpsFit (exprVars vars e) next))
  | vars, .while e loopScope next =>
    have := decidableJumpsFit vars loopScope
    have := decidableJumpsFit vars next
    inferInstanceAs (Decidable (JumpsFit vars loopScope ∧
      codeSize (exprCode (fun _ => 0) vars e) +
        codeSize (scopeCode (fun _ => 0) vars loopScope).flatten + 6 ≤ 255 ∧ JumpsFit vars next))
  | _, .nil => isTrue trivial
  | _, .other _ => isTrue trivial
  | _, .notScope _ => isTrue trivial

lemma regularScope_iff (vars : Vars) (stat : Stat) :
    RegularScope (fun _ => 0) vars stat ↔ EachExpr RegularExpr vars stat ∧ JumpsFit vars stat := by
  induction stat generalizing vars with
  | expr e next ih =>
    simp only [RegularScope, EachExpr, JumpsFit, ih]
    tauto
  | ifElse e trueScope falseScope next iht ihf ih =>
    simp only [RegularScope, EachExpr, JumpsFit, iht, ihf, ih]
    tauto
  | «while» e loopScope next ihl ih =>
    simp only [RegularScope, EachExpr, JumpsFit, ihl, ih]
    tauto
  | _ => simp [RegularScope, EachExpr, JumpsFit]

/-- What the compiler accepts as the statements of a scope has regular expressions. -/
theorem compileScope_accepted {stat : Stat} {fuel : ℕ} {vars : Vars} {s s' : CompilerState}
    (hp : stat.Parsed) (hreads : EachExpr ReadsWords vars stat) (hvis : s.chain.Visible vars)
    (h : compileScope fuel stat s = .ok () s') : EachExpr RegularExpr vars stat := by
  induction stat generalizing vars s s' with
  | expr e next ih =>
    obtain ⟨_, s₁, hexpr, h⟩ := estate_bind_eq_ok.mp h
    have hreg := exprAccepted e hp.1 hreads.1 hvis hexpr
    obtain ⟨-, -, hvis₁⟩ := compileExpression_coded e hp.1.untraced hreg hvis hexpr
    exact ⟨hreg, ih hp.2 hreads.2 hvis₁ h⟩
  | ifElse e trueScope falseScope next iht ihf ih =>
    obtain ⟨_, s₂, hif, h⟩ := estate_bind_eq_ok.mp h
    obtain ⟨-, r, s₁, t₁, t₂, hexpr, ht₁, ht₂, hadv⟩ := compileIfStatement_eq_ok hif
    have hreg := exprAccepted e hp.1 hreads.1 hvis hexpr
    obtain ⟨-, -, hvis₁⟩ := compileExpression_coded e hp.1.untraced hreg hvis hexpr
    -- behind both blocks the variables of the condition are seen again
    obtain ⟨_, _, _, hgrow₁⟩ := grower_scope fuel trueScope _ _ _ ht₁
    obtain ⟨hleave, hadv⟩ := hadv _ _ _ hgrow₁
    obtain ⟨_, _, _, hgrow₂⟩ := grower_scope fuel falseScope _ _ _ ht₂
    have hvis₂ := hvis₁.advanced (hadv _ _ _ hgrow₂)
    exact ⟨hreg, iht hp.2.1 hreads.2.1 (hvis₁.child _ _) ht₁,
      ihf hp.2.2.1 hreads.2.2.1 ((hvis₁.advanced hleave).child _ _) ht₂,
      ih hp.2.2.2 hreads.2.2.2 hvis₂ h⟩
  | «while» e loopScope next ihl ih =>
    obtain ⟨_, s₂, hwhile, h⟩ := estate_bind_eq_ok.mp h
    obtain ⟨-, r, s₁, t, hexpr, ht, hadv⟩ := compileWhileStatement_eq_ok hwhile
    have hreg := exprAccepted e hp.1 hreads.1 hvis.cond hexpr
    obtain ⟨-, ⟨newVars, hcond⟩, -⟩ :=
      compileExpression_coded e hp.1.untraced hreg hvis.cond hexpr
    obtain ⟨_, _, _, hgrow⟩ := grower_scope fuel loopScope _ _ _ ht
    have hvis₁ := hvis.cond.advanced hcond.forget
    have hvis₂ := hvis.advanced (hadv _ _ _ hcond _ _ _ hgrow).2
    exact ⟨hreg, ihl hp.2.1 hreads.2.1 (hvis₁.child _ _) ht, ih hp.2.2 hreads.2.2 hvis₂ h⟩
  | _ => trivial

lemma WordVars.reads {vars : Vars} (h : WordVars vars) (e : Expr) : ReadsWords vars e := by
  induction e generalizing vars with
  | ident t name => exact fun var hvar => h var (List.mem_of_find?_eq_some hvar)
  | group t expr ih => exact ih h
  | unaryOp t operator operand ih => exact ih h
  | binaryOp t operator left right ihl ihr =>
    refine ⟨.inr (ihl h), ?_⟩
    split
    · exact ihr (h.expr left)
    · exact ihr h
  | _ => trivial

lemma WordVars.eachReads {vars : Vars} (h : WordVars vars) (stat : Stat) :
    EachExpr ReadsWords vars stat := by
  induction stat generalizing vars with
  | expr e next ih => exact ⟨h.reads e, ih (h.expr e)⟩
  | ifElse e trueScope falseScope next iht ihf ih =>
    exact ⟨h.reads e, iht (h.expr e), ihf (h.expr e), ih (h.expr e)⟩
  | «while» e loopScope next ihl ih => exact ⟨h.reads e, ihl h, ih h⟩
  | _ => trivial

/-! ## Programs -/

/-- The program is as the parser builds it. -/
def ParsedProgram (program : List TopLevel) : Prop := EachScope (fun _ stat => stat.Parsed) program

instance (program : List TopLevel) : Decidable (ParsedProgram program) :=
  inferInstanceAs (Decidable (EachScope _ program))

lemma Throughout.mono {P P' : Vars → Stat → Prop} {F F' : DeclFunc → Prop}
    (hP : ∀ vars stat, P vars stat → P' vars stat) (hF : ∀ func, F func → F' func) {vars : Vars}
    {program : List TopLevel} (h : Throughout P F vars program) : Throughout P' F' vars program := by
  induction program generalizing vars with
  | nil => trivial
  | cons node program ih =>
    cases node with
    | stat stat => exact ⟨hP _ _ h.1, ih h.2⟩
    | func func => exact ⟨hF _ h.1, ih h.2⟩

lemma Throughout.and {P P' : Vars → Stat → Prop} {F F' : DeclFunc → Prop} {vars : Vars}
    {program : List TopLevel} (h : Throughout P F vars program) (h' : Throughout P' F' vars program) :
    Throughout (fun vars stat => P vars stat ∧ P' vars stat) (fun func => F func ∧ F' func)
      vars program := by
  induction program generalizing vars with
  | nil => trivial
  | cons node program ih =>
    cases node with
    | stat stat => exact ⟨⟨h.1, h'.1⟩, ih h.2 h'.2⟩
    | func func => exact ⟨⟨h.1, h'.1⟩, ih h.2 h'.2⟩

lemma WordVars.throughout {vars : Vars} (h : WordVars vars) (program : List TopLevel) :
    Throughout (EachExpr ReadsWords) (fun _ => True) vars program := by
  induction program generalizing vars with
  | nil => trivial
  | cons node program ih =>
    cases node with
    | stat stat => exact ⟨h.eachReads _, ih (h.scope _)⟩
    | func func => exact ⟨trivial, ih h⟩

lemma ParsedProgram.untraced {program : List TopLevel} (h : ParsedProgram program) :
    UntracedProgram program :=
  Throughout.mono (fun _ _ h => Stat.Parsed.untraced h) (fun _ h => Stat.Parsed.untraced h) h

/-- The body of a function that the compiler accepts. -/
lemma compileFunc_accepted {fuel : ℕ} {node : DeclFunc} {s s' : CompilerState} {ret : ℤ}
    (hp : node.body.Parsed) (hreads : EachExpr ReadsWords (paramVars node.args) node.body)
    (h : compileFunc fuel node s = .ok ret s') :
    EachExpr RegularExpr (paramVars node.args) node.body := by
  obtain ⟨s₁, s₂, s₃, s₄, body, map, -, hparams, hscope, -⟩ := compileFunc_eq_ok h
  obtain ⟨-, -, hvis₂⟩ := defineParams_eq_ok (visible_function s₁) rfl hparams
  exact compileScope_accepted hp hreads hvis₂ hscope

/-- A program that the compiler accepts from a root scope on, whatever is asked of its functions. -/
lemma compileProgram_accepted {isInteractive : Bool} {fuel : ℕ} {program : List TopLevel}
    {vars : Vars} {s s' : CompilerState} {F G : DeclFunc → Prop} (hroot : AtRoot isInteractive vars s)
    (hfunc : ∀ func s s' ret, G func → compileFunc fuel func s = .ok ret s' → F func)
    (hp : Throughout (fun vars stat => stat.Parsed ∧ EachExpr ReadsWords vars stat ∧ JumpsFit vars stat)
      G vars program)
    (h : compileProgram fuel program s = .ok () s') :
    Throughout (RegularScope fun _ => 0) F vars program := by
  induction program generalizing vars s with
  | nil => trivial
  | cons node program ih =>
    obtain ⟨ret, s₁, h₁, hrest⟩ := compileProgram_cons h
    cases node with
    | stat stat =>
      obtain ⟨⟨hparsed, hreads, hfits⟩, hp⟩ := hp
      have hreg := (regularScope_iff vars stat.single).mpr
        ⟨compileScope_accepted hparsed hreads hroot.visible (compileStatement_single h₁), hfits⟩
      obtain ⟨hroot', -⟩ := compileStatement_atRoot hroot hparsed.untraced hreg h₁
      exact ⟨hreg, ih hroot' hp hrest⟩
    | func func => exact ⟨hfunc func _ _ _ hp.1 h₁, ih (hroot.compileFunc h₁) hp.2 hrest⟩

/-- Outside of the functions no variable is of type `void`, so the statements there need nothing but
jumps that fit. -/
lemma compileProgram_regular {isInteractive : Bool} {fuel : ℕ} {program : List TopLevel}
    {vars : Vars} {s s' : CompilerState} (hroot : AtRoot isInteractive vars s) (hwords : WordVars vars)
    (hp : Throughout (fun _ stat => stat.Parsed) (fun _ => True) vars program)
    (hfits : Throughout JumpsFit (fun _ => True) vars program)
    (h : compileProgram fuel program s = .ok () s') :
    Throughout (RegularScope fun _ => 0) (fun _ => True) vars program :=
  compileProgram_accepted hroot (fun _ _ _ _ _ _ => trivial)
    (hp.and ((hwords.throughout program).and hfits)) h

/-- The program is as the parser builds it, reads no variable of type `void`, and its jumps
fit. -/
structure EncodableProgram (program : List TopLevel) : Prop where
  parsed : ParsedProgram program
  reads : EachScope (EachExpr ReadsWords) program
  fits : EachScope JumpsFit program

/-- An encodable program that the compiler accepts is regular. -/
theorem EncodableProgram.regular {isInteractive : Bool} {fuel : ℕ} {program : List TopLevel}
    {s : CompilerState} (hp : EncodableProgram program)
    (h : compileProgram fuel program (compilerInit isInteractive) = .ok () s) :
    RegularProgram program := by
  refine compileProgram_accepted (atRoot_init isInteractive) ?_
    (Throughout.and hp.parsed (Throughout.and hp.reads hp.fits)) h
  rintro func s s' ret ⟨hparsed, hreads, hfits⟩ hfunc
  exact (regularScope_iff _ _).mpr ⟨compileFunc_accepted hparsed hreads hfunc, hfits⟩

/-- `x = 1` -/
def setOne : Expr := .binaryOp .unknwn .assignment (.ident .unknwn [120]) (.literalInt 1)

/-- The program `x = 1`. -/
def setOneProgram : List TopLevel := [.stat (.expr setOne .nil)]

end PhantomShell
