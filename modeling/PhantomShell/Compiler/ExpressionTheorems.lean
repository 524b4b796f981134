import PhantomShell.Compiler.SemanticsTheorems

/-!
# The code of an expression computes its value

An expression over `int` and `float` variables compiles (`Succeeds`), and the machine, wherever it
stands at the emitted code, pushes the word of `exprValue` and changes nothing else
(`expression_correct_iff`). What the emitted code is comes from `Compiles`, and what it does from
`runStraight_value`.
-/

namespace PhantomShell

variable {host : Host}

/-! ## Types and values -/

/-- The variables of a scope and of those around it that it sees, the innermost first. -/
def visibleVars : ScopeHandler → List ScopeHandler → Vars
  | scope, [] => scope.vars
  | scope, parent :: rest =>
    scope.vars ++ if scope.isFunctionScope then [] else visibleVars parent rest

/-- The variables that the current scope sees. -/
def ScopeChain.vars (chain : ScopeChain) : Vars := visibleVars chain.scope chain.parents

/-- The type that a variable is declared with. -/
def ScopeChain.typeOf (chain : ScopeChain) (name : CStr) : Option Rep :=
  (chain.lookup name).bind (·.staticType.rep)

/-- The word in the slot of a variable. -/
def ScopeChain.valueOf (chain : ScopeChain) (locals : List Word) (name : CStr) :
    Option (BitVec 32) :=
  (chain.lookup name).bind fun var => locals[var.index.toNat]?.map (·.bits)

lemma lookupVar_visibleVars (scope : ScopeHandler) (parents : List ScopeHandler) (name : CStr) :
    lookupVar (visibleVars scope parents) name = frameLookupVarByName scope parents name := by
  induction parents generalizing scope with
  | nil =>
    rw [visibleVars, frameLookupVarByName, lookupVar]
    cases scope.vars.find? (·.name == name) <;> rfl
  | cons parent rest ih =>
    rw [visibleVars, frameLookupVarByName, lookupVar, List.find?_append]
    cases scope.vars.find? (·.name == name) with
    | some var => rfl
    | none =>
      by_cases hscope : scope.isFunctionScope = true
      · simp [hscope]
      · have hparent := ih parent
        rw [lookupVar] at hparent
        simpa [hscope] using hparent

lemma lookup_vars (chain : ScopeChain) (name : CStr) :
    chain.lookup name = lookupVar chain.vars name :=
  (lookupVar_visibleVars chain.scope chain.parents name).symm

lemma sees_vars (chain : ScopeChain) : chain.Sees chain.vars := fun name _ hvar =>
  (lookup_vars chain name).trans hvar

/-- The parts of a binary operation with a type: the machine has an opcode for it. -/
lemma exprType_binaryOp {typeOf : CStr → Option Rep} {t : StaticType} {operator : Operator}
    {left right : Expr} {r : Rep} (h : exprType typeOf (.binaryOp t operator left right) = some r) :
    ∃ a b op, exprType typeOf left = some a ∧ exprType typeOf right = some b ∧
      r = joinRep a b ∧ valueOp (joinRep a b) operator = some op := by
  rw [exprType] at h
  split at h
  · rename_i ha hb
    refine ⟨.int, .int, ?_⟩
    rw [ha, hb]
    cases operator <;> cases h <;> exact ⟨_, rfl, rfl, rfl, rfl⟩
  · rename_i a b hne ha hb
    refine ⟨a, b, ?_⟩
    rw [ha, hb]
    -- one of the operands is a float
    have hjoin : joinRep a b = .float := by
      cases a <;> cases b <;> first | exact (hne rfl rfl).elim | rfl
    rw [hjoin]
    cases operator <;> cases h <;> exact ⟨_, rfl, rfl, rfl, rfl⟩
  · cases h

/-- An expression with a type is a value of that type for the compiler. -/
lemma valueRep_of_exprType {vars : Vars} {e : Expr} {r : Rep}
    (h : exprType (fun name => (lookupVar vars name).bind (·.staticType.rep)) e = some r) :
    valueRep vars e = some r := by
  induction e generalizing r with
  | literalInt value => exact h
  | literalFloat value => exact h
  | ident t name => exact h
  | group t expr ih => exact ih h
  | unaryOp t operator operand => cases h
  | binaryOp t operator left right ihl ihr =>
    obtain ⟨a, b, op, ha, hb, rfl, hop⟩ := exprType_binaryOp h
    rw [valueRep, ihl ha, ihr hb]
    simp only [hop, Option.map_some]
  | specialCast t opcode operand => cases h
  | other t => cases h

lemma castWord_float (a : Rep) (w : Word) :
    (castWord host a .float w).bits = a.toFloat host w.bits := by cases a <;> rfl

/-- The operations of the machine on `float` operands are those of the source. -/
lemma applyOp_float {operator : Operator} {op : PlainOp} (hop : valueOp .float operator = some op)
    {u w : Word} {v : BitVec 32} (h : floatOperator host operator u.bits w.bits = some v) :
    applyOp host op u w = .ok ⟨.float, v⟩ := by
  cases operator <;> cases hop <;> cases h <;> rfl

/-- An operation on converted operands: its value, or a stop at a quotient that overflows. -/
lemma applyOp_value {a b : Rep} {operator : Operator} {op : PlainOp}
    (hop : valueOp (joinRep a b) operator = some op) {u w : Word} {v : BitVec 32}
    (h : (if a = .int ∧ b = .int then evalOperator operator u.bits w.bits
      else floatOperator host operator (a.toFloat host u.bits) (b.toFloat host w.bits)) = some v) :
    (∃ x, applyOp host op (castWord host a (joinRep a b) u) (castWord host b (joinRep a b) w)
        = .ok x ∧ x.bits = v ∧
        (operator = .division → a = .int → b = .int → quotientOverflows u.bits w.bits = false)) ∨
      (∃ stop, applyOp host op (castWord host a (joinRep a b) u) (castWord host b (joinRep a b) w)
        = .error stop ∧ operator = .division ∧ a = .int ∧ b = .int ∧
        quotientOverflows u.bits w.bits = true) := by
  by_cases hint : a = .int ∧ b = .int
  · obtain ⟨rfl, rfl⟩ := hint
    rw [if_pos ⟨rfl, rfl⟩] at h
    have happly := applyOp_int host hop u w
    change (∃ x, applyOp host op u w = .ok x ∧ _) ∨ ∃ stop, applyOp host op u w = .error stop ∧ _
    cases hx : applyOp host op u w with
    | ok x =>
      rw [hx] at happly
      refine .inl ⟨x, rfl, Option.some.inj (happly.symm.trans h), ?_⟩
      rintro rfl - -
      cases hop
      rw [applyOp] at hx
      split at hx
      · cases hx
      · rename_i hdivides
        exact Bool.eq_false_iff.mpr fun hover => hdivides (.inr hover)
    | error stop =>
      rw [hx] at happly
      rcases happly with hnone | ⟨hdivision, hover⟩
      · cases hnone.symm.trans h
      · exact .inr ⟨stop, rfl, hdivision, rfl, rfl, hover⟩
  · rw [if_neg hint] at h
    have hjoin : joinRep a b = .float := by
      cases a <;> cases b <;> first | exact (hint ⟨rfl, rfl⟩).elim | rfl
    rw [hjoin] at hop ⊢
    rw [← castWord_float, ← castWord_float] at h
    exact .inl ⟨_, applyOp_float hop h, rfl, fun _ ha hb => (hint ⟨ha, hb⟩).elim⟩

/-- The types and the values of the variables of a frame. -/
def typeIn (vars : Vars) (name : CStr) : Option Rep := (lookupVar vars name).bind (·.staticType.rep)

def valueIn (vars : Vars) (locals : List Word) (name : CStr) : Option (BitVec 32) :=
  (lookupVar vars name).bind fun var => locals[var.index.toNat]?.map (·.bits)

/-- Where the expression has a value, it is the word that the compiled code leaves, unless a
quotient overflows: then the code stops. -/
lemma evalWord_of_exprValue {vars : Vars} {locals : List Word} {e : Expr} {r : Rep} {v : BitVec 32}
    (htype : exprType (typeIn vars) e = some r)
    (hvalue : exprValue host (typeIn vars) (valueIn vars locals) e = some v) :
    (∃ w, evalWord host vars locals e = .ok w ∧ w.bits = v ∧
        exprInRange host (typeIn vars) (valueIn vars locals) e) ∨
      (∃ stop, evalWord host vars locals e = .error stop ∧
        ¬ exprInRange host (typeIn vars) (valueIn vars locals) e) := by
  induction e generalizing r v with
  | literalInt value => exact .inl ⟨_, rfl, Option.some.inj hvalue, trivial⟩
  | literalFloat value => exact .inl ⟨_, rfl, Option.some.inj hvalue, trivial⟩
  | ident t name =>
    obtain ⟨var, hvar, -⟩ := valueRep_ident (valueRep_of_exprType htype)
    simp only [exprValue, valueIn, hvar, Option.bind_some, Option.map_eq_some_iff] at hvalue
    obtain ⟨w, hw, rfl⟩ := hvalue
    exact .inl ⟨w, by simp only [evalWord, hvar, Option.bind_some, hw], rfl, trivial⟩
  | group t expr ih => exact ih htype hvalue
  | unaryOp t operator operand => cases htype
  | binaryOp t operator left right ihl ihr =>
    obtain ⟨a, b, op, ha, hb, rfl, hop⟩ := exprType_binaryOp htype
    rw [exprValue, ha, hb] at hvalue
    simp only [Option.bind_eq_bind, Option.bind_some, Option.bind_eq_some_iff] at hvalue
    obtain ⟨x, hx, y, hy, hvalue⟩ := hvalue
    simp only [evalWord, valueRep_of_exprType ha, valueRep_of_exprType hb, Option.getD_some, hop]
    rcases ihl ha hx with ⟨u, hu, rfl, hleft⟩ | ⟨stop, hstop, hleft⟩
    · rcases ihr hb hy with ⟨w, hw, rfl, hright⟩ | ⟨stop, hstop, hright⟩
      · simp only [hu, hw, except_ok_bind]
        rcases applyOp_value hop hvalue with
          ⟨z, hz, hbits, hrange⟩ | ⟨stop, hstop, hdivision, rfl, rfl, hover⟩
        · refine .inl ⟨z, hz, hbits, hleft, hright, fun hdivision ha' hb' c d hc hd => ?_⟩
          obtain rfl := Option.some.inj (hx.symm.trans hc)
          obtain rfl := Option.some.inj (hy.symm.trans hd)
          exact hrange hdivision (Option.some.inj (ha.symm.trans ha'))
            (Option.some.inj (hb.symm.trans hb'))
        · refine .inr ⟨stop, hstop, fun hrange => ?_⟩
          rw [hrange.2.2 hdivision ha hb _ _ hx hy] at hover
          cases hover
      · exact .inr ⟨stop, by simp only [hu, hstop, except_ok_bind]; rfl, fun h => hright h.2.1⟩
    · exact .inr ⟨stop, by simp only [hstop]; rfl, fun h => hleft h.1⟩
  | specialCast t opcode operand => cases htype
  | other t => cases htype

/-- The machine behind the code of an expression, with its value pushed: it gets there if and only
if no quotient overflows. -/
lemma vmReach_value_iff {vars : Vars} {e : Expr} {r : Rep} {v : BitVec 32}
    (htype : exprType (typeIn vars) e = some r) (vm : Vm) {m : MachineState} {pc : ℕ}
    {rest : List UInt8} (hpc : m.current.pc = pc)
    (hdrop : m.current.code.drop pc = encodeAll (valueCode vars e) ++ rest)
    (hroom : m.current.frame.Room (exprWords e))
    (hvalue : exprValue host (typeIn vars) (valueIn vars m.current.frame.locals) e = some v) :
    (∃ w : Word, w.bits = v ∧ VmReach host vm m { m with current :=
        { m.current with
          pc := ((pc + codeSize (valueCode vars e) : ℕ) : ℤ)
          frame := m.current.frame.push w } }) ↔
      exprInRange host (typeIn vars) (valueIn vars m.current.frame.locals) e := by
  have hrep := valueRep_of_exprType htype
  have hlocal : ∀ i ∈ valueCode vars e, i.Local := fun i hi =>
    valueCode_local (Option.isSome_of_eq_some hrep) hi
  have hrun : (vmIsa host).runStraight (valueCode vars e) m.current.frame
      = m.current.frame.pushResult (evalWord host vars m.current.frame.locals e) :=
    runStraight_value hrep hroom
  constructor
  · intro hreaches
    obtain ⟨w, -, hreach⟩ := hreaches
    rcases evalWord_of_exprValue htype hvalue with ⟨_, -, -, hrange⟩ | ⟨stop, hstop, -⟩
    · exact hrange
    · rw [hstop] at hrun
      obtain ⟨k, hk, hat⟩ := vmReach_straight_error vm hlocal hpc hdrop hrun hreach
      have hat : ((pc + codeSize (valueCode vars e) : ℕ) : ℤ) = (pc + k : ℕ) := hat
      omega
  · intro hrange
    rcases evalWord_of_exprValue htype hvalue with ⟨w, hw, hbits, -⟩ | ⟨_, -, hnot⟩
    · rw [hw] at hrun
      exact ⟨w, hbits, vmReach_straight vm hlocal hpc hdrop hrun⟩
    · exact (hnot hrange).elim

/-! ## Emitters with room for an instruction -/

/-- The emitter takes any instruction: it is not buffered, or a page of it has the five bytes of
the longest one. -/
def ScopeEmitter.Takes : ScopeEmitter → Prop
  | .unbuffered => True
  | .buffered e => ∃ p log, 5 ≤ p ∧ EmitterHolds p e log

lemma takes_new {p : ℕ} (hp : 5 ≤ p) :
    (ScopeEmitter.buffered (compilerEmitterBufferedNew p)).Takes :=
  ⟨p, [], hp, emitterHolds_new (by omega)⟩

/-- An emitter goes on taking instructions. -/
lemma ScopeEmitter.Takes.emit {emitter emitter' : ScopeEmitter}
    {chunks : List (List UInt8)} {events : List Event} (htakes : emitter.Takes)
    (h : emitChunks emitter chunks = some (emitter', events)) : emitter'.Takes := by
  cases emitter with
  | unbuffered =>
    rw [emitChunks_unbuffered] at h
    cases h
    exact trivial
  | buffered e =>
    obtain ⟨p, log, hp, hholds⟩ := htakes
    rw [emitChunks_buffered, Option.map_eq_some_iff] at h
    obtain ⟨e', hrun, heq⟩ := h
    cases heq
    obtain ⟨e₁, hrun₁, hholds₁⟩ := emitAll_holds hholds (chunksFit_of_emitAll hholds hrun)
    obtain rfl := Option.some.inj (hrun.symm.trans hrun₁)
    exact ⟨p, _, hp, hholds₁⟩

lemma Advanced.takes {s s' : CompilerState} {chunks : List (List UInt8)} {account : ℕ × ℕ}
    {newVars : List ScopeVar} (h : Advanced s chunks account newVars s')
    (htakes : s.chain.scope.emitter.Takes) : s'.chain.scope.emitter.Takes := by
  obtain ⟨emitter, events, m, hem, rfl⟩ := h
  exact htakes.emit hem

lemma Emitted.takes {s s' : CompilerState} {chunks : List (List UInt8)} {incs : List ℤ}
    (h : Emitted s chunks incs s') (htakes : s.chain.scope.emitter.Takes) :
    s'.chain.scope.emitter.Takes := h.advanced.takes htakes

lemma length_encode_le (i : Instr) : i.encode.length ≤ 5 := by
  cases i <;> simp [Instr.encode, Instr.operand, htobe32, bytesLE32, htobe16]

/-- What the emitter takes is emitted. -/
lemma compilerEmit_of_emitterFunc {s : CompilerState} {data : List UInt8} {emitter : ScopeEmitter}
    {events : List Event}
    (hfunc : emitterFunc s.chain.scope.emitter data = some (emitter, events)) :
    ∃ s', compilerEmit data s = .ok 0 s' := by
  let s₁ := { s with chain :=
    { s.chain with scope := { s.chain.scope with emitter := emitter } } }
  refine ⟨{ s₁ with events := s₁.events ++ events }, ?_⟩
  rw [compilerEmit, estate_bind_eq_ok]
  refine ⟨s, s, estate_get_eq_ok.mpr ⟨rfl, rfl⟩, ?_⟩
  simp only [hfunc, modifyScope, estate_bind_eq_ok, estate_modify_eq_ok, estate_pure_eq_ok]
  exact ⟨(), s₁, rfl, (), _, rfl, trivial, rfl⟩

/-- An instruction is emitted. -/
lemma compilerEmit_succeeds {s : CompilerState} (htakes : s.chain.scope.emitter.Takes) (i : Instr) :
    ∃ s', compilerEmit i.encode s = .ok 0 s' := by
  have hfunc : ∃ r, emitterFunc s.chain.scope.emitter i.encode = some r := by
    cases hscope : s.chain.scope.emitter with
    | unbuffered => exact ⟨_, rfl⟩
    | buffered e =>
      rw [hscope] at htakes
      obtain ⟨p, log, hp, hholds⟩ := htakes
      have hroom : i.encode.length ≤ emitterRoom p log.length := by
        have hlen := length_encode_le i
        rw [emitterRoom]
        omega
      obtain ⟨e', he', -⟩ := emitterEmitBuffered_holds hholds hroom
      exact ⟨(.buffered e', []), by rw [emitterFunc, he', Option.map_some]⟩
  obtain ⟨⟨emitter, events⟩, hfunc⟩ := hfunc
  exact compilerEmit_of_emitterFunc hfunc

/-- An instruction is counted and emitted. -/
lemma emitCounted_succeeds {s : CompilerState} (htakes : s.chain.scope.emitter.Takes) (i : Instr)
    (d : ℤ) : ∃ ret s', (frameIncrementStackSize d >>= fun _ => compilerEmit i.encode) s
      = .ok ret s' := by
  obtain ⟨s₁, hcount⟩ : ∃ s₁, frameIncrementStackSize d s = .ok () s₁ := ⟨_, rfl⟩
  have hsame : s₁.chain.scope.emitter = s.chain.scope.emitter := by
    cases hcount
    rfl
  obtain ⟨s', hemit⟩ := compilerEmit_succeeds (hsame ▸ htakes) i
  exact ⟨0, s', estate_bind_eq_ok.mpr ⟨(), s₁, hcount, hemit⟩⟩

/-! ## Compiling succeeds -/

/-- With the variables in sight and this depth of calls, the expression compiles. -/
def SucceedsAt (vars : Vars) (fuel : ℕ) (e : Expr) : Prop :=
  ∀ s, s.chain.Sees vars → s.chain.scope.emitter.Takes →
    ∃ ret s', compileExpression fuel e s = .ok ret s'

/-- Some depth of calls is enough. -/
def Succeeds (vars : Vars) (e : Expr) : Prop :=
  ∃ depth, ∀ fuel, depth ≤ fuel → SucceedsAt vars fuel e

/-- One more call around those of a part. -/
lemma Succeeds.step {vars : Vars} {e e' : Expr} (he : Succeeds vars e)
    (h : ∀ fuel, SucceedsAt vars fuel e → SucceedsAt vars (fuel + 1) e') : Succeeds vars e' := by
  obtain ⟨depth, he⟩ := he
  refine ⟨depth + 1, fun fuel hfuel => ?_⟩
  obtain ⟨n, rfl⟩ : ∃ n, fuel = n + 1 := ⟨fuel - 1, by omega⟩
  exact h n (he n (by omega))

lemma succeeds_literalInt (vars : Vars) (value : BitVec 32) :
    Succeeds vars (.literalInt value) := by
  refine ⟨1, fun fuel hfuel s _ htakes => ?_⟩
  obtain ⟨n, rfl⟩ : ∃ n, fuel = n + 1 := ⟨fuel - 1, by omega⟩
  exact emitCounted_succeeds htakes (.iconst value) _

lemma succeeds_literalFloat (vars : Vars) (value : BitVec 32) :
    Succeeds vars (.literalFloat value) := by
  refine ⟨1, fun fuel hfuel s _ htakes => ?_⟩
  obtain ⟨n, rfl⟩ : ∃ n, fuel = n + 1 := ⟨fuel - 1, by omega⟩
  exact emitCounted_succeeds htakes (.fconst value) _

lemma succeeds_ident {vars : Vars} {t : StaticType} {name : CStr} {r : Rep}
    (h : valueRep vars (.ident t name) = some r) (t' : StaticType) :
    Succeeds vars (.ident t' name) := by
  obtain ⟨var, hvar, hty⟩ := valueRep_ident h
  refine ⟨1, fun fuel hfuel s hsees htakes => ?_⟩
  obtain ⟨n, rfl⟩ : ∃ n, fuel = n + 1 := ⟨fuel - 1, by omega⟩
  simp only [compileExpression, compileIdent, estate_bind_eq_ok, estate_get_eq_ok]
  obtain ⟨ret, s', hemit⟩ := emitCounted_succeeds htakes (.load r var.index)
    (opcodeToStackIncMap (opcodeLoad r.type))
  refine ⟨ret, s', s, s, ⟨rfl, rfl⟩, ?_⟩
  simp only [hsees name var hvar, hty]
  rw [opcodeLoad_type r var.index] at hemit ⊢
  exact hemit

lemma Succeeds.group {vars : Vars} {e : Expr} (he : Succeeds vars e) (t : StaticType) :
    Succeeds vars (.group t e) := he.step fun _ h => h

/-- `compile_special_cast` around an operand that compiles. -/
lemma Succeeds.cast {vars : Vars} {e : Expr} {code : List Instr} (hcode : Compiles vars e code)
    (he : Succeeds vars e) (a b : Rep) : Succeeds vars (castExpr a b e) := by
  unfold castExpr
  split
  · exact he
  · refine he.step fun fuel h s hsees htakes => ?_
    obtain ⟨ret, s₁, h₁⟩ := h s hsees htakes
    obtain ⟨rfl, he₁⟩ := hcode _ _ _ _ hsees h₁
    obtain ⟨ret, s₂, h₂⟩ := emitCounted_succeeds (Emitted.takes he₁ htakes) (.plain .i2f)
      (opcodeToStackIncMap opcodeI2f)
    rw [compileExpression, compileSpecialCast]
    refine ⟨ret, s₂, estate_bind_eq_ok.mpr ⟨0, s₁, h₁, ?_⟩⟩
    rw [if_neg (by decide)]
    exact h₂

/-- `compile_unary_op` on an operand that compiles. -/
lemma Succeeds.unaryMinus {vars : Vars} {e : Expr} {code : List Instr}
    (hcode : Compiles vars e code) (he : Succeeds vars e) (t : StaticType) :
    Succeeds vars (.unaryOp t .unaryMinus e) := by
  refine he.step fun fuel h s hsees htakes => ?_
  obtain ⟨ret, s₁, h₁⟩ := h s hsees htakes
  obtain ⟨rfl, he₁⟩ := hcode _ _ _ _ hsees h₁
  obtain ⟨ret, s₂, h₂⟩ := emitCounted_succeeds (Emitted.takes he₁ htakes) (.plain .ineg)
    (opcodeToStackIncMap opcodeIneg)
  rw [compileExpression, compileUnaryOp]
  refine ⟨ret, s₂, ?_⟩
  rw [if_neg (by decide)]
  refine estate_bind_eq_ok.mpr ⟨0, s₁, h₁, ?_⟩
  rw [if_neg (by decide)]
  exact h₂

/-- `compile_binary_op` of an operation whose operands compile once they are converted. -/
lemma Succeeds.binaryOp {vars : Vars} {r : Rep} {operator : Operator} {op : PlainOp}
    {t : StaticType} {left right left' right' : Expr} {a b : List Instr}
    (hop : valueOp r operator = some op)
    (htrace : ∀ chain : ScopeChain, chain.Sees vars →
      traceDataType chain (.binaryOp t operator left right)
        = .ok (.binaryOp r.type operator left' right'))
    (hleft : Compiles vars left' a) (hright : Compiles vars right' b)
    (hl : Succeeds vars left') (hr : Succeeds vars right') :
    Succeeds vars (.binaryOp t operator left right) := by
  obtain ⟨m, hl⟩ := hl
  obtain ⟨n, hr⟩ := hr
  refine ⟨max m n + 1, fun fuel hfuel s hsees htakes => ?_⟩
  obtain ⟨fuel, rfl⟩ : ∃ k, fuel = k + 1 := ⟨fuel - 1, by omega⟩
  obtain ⟨ret, s₁, h₁⟩ := hl fuel (by omega) s hsees htakes
  obtain ⟨rfl, he₁⟩ := hleft _ _ _ _ hsees h₁
  have hsees₁ := Emitted.sees he₁ hsees
  have htakes₁ := Emitted.takes he₁ htakes
  obtain ⟨ret, s₂, h₂⟩ := hr fuel (by omega) s₁ hsees₁ htakes₁
  obtain ⟨rfl, he₂⟩ := hright _ _ _ _ hsees₁ h₂
  obtain ⟨ret, s₃, h₃⟩ := emitCounted_succeeds (Emitted.takes he₂ htakes₁) (.plain op)
    (opcodeToStackIncMap op.opcode)
  refine ⟨ret, s₃, ?_⟩
  rw [compileExpression, compileBinaryOp, if_neg (operator_ne_assignment hop),
    if_neg (operator_ne_functionCall hop), estate_bind_eq_ok]
  refine ⟨_, s, astNodeTraceDataType_eq_ok.mpr ⟨htrace _ hsees, rfl⟩, ?_⟩
  simp only [binaryOpcode_eq hop]
  rw [compileOperands, if_neg (PlainOp.opcode_ne_zero op), estate_bind_eq_ok]
  refine ⟨0, s₁, h₁, ?_⟩
  rw [if_neg (by decide), estate_bind_eq_ok]
  refine ⟨0, s₂, h₂, ?_⟩
  rw [if_neg (by decide)]
  exact h₃

/-- The operands of a value, converted, with their code. -/
lemma compiles_castTraced {vars : Vars} {e : Expr} {r : Rep} (h : valueRep vars e = some r)
    (b : Rep) : Compiles vars (castExpr r b (traced vars e)) (operandCode vars e ++ castCode r b) :=
  (compiles_traced (operandRep_of_valueRep h).1).cast r b

/-- A traced value compiles. -/
lemma succeeds_traced {vars : Vars} {e : Expr} {r : Rep} (h : valueRep vars e = some r) :
    Succeeds vars (traced vars e) := by
  have hcompiles : ∀ {e : Expr} {r : Rep}, valueRep vars e = some r →
      Compiles vars (traced vars e) (operandCode vars e) :=
    fun h => compiles_traced (operandRep_of_valueRep h).1
  induction e generalizing r with
  | literalInt value => exact succeeds_literalInt vars value
  | literalFloat value => exact succeeds_literalFloat vars value
  | ident t name => exact succeeds_ident h _
  | group t expr ih => exact (ih h).group _
  | unaryOp t operator operand ih =>
    obtain ⟨rfl, h'⟩ := valueRep_unaryOp h
    exact Succeeds.unaryMinus (hcompiles h') (ih h') _
  | binaryOp t operator left right ihl ihr =>
    obtain ⟨a, b, op, ha, hb, rfl, hop⟩ := valueRep_binaryOp h
    simp only [traced, (operandRep_of_valueRep ha).1, (operandRep_of_valueRep hb).1,
      Option.getD_some]
    exact Succeeds.binaryOp hop (fun _ _ => traceDataType_typed rfl) (compiles_castTraced ha _)
      (compiles_castTraced hb _) ((ihl ha).cast (hcompiles ha) _ _)
      ((ihr hb).cast (hcompiles hb) _ _)
  | specialCast t opcode operand => cases h
  | other t => cases h

/-- A value as the parser built it compiles, and to its code. -/
lemma compiles_value {vars : Vars} {e : Expr} {r : Rep} (hu : e.Untraced)
    (h : valueRep vars e = some r) : Compiles vars e (valueCode vars e) ∧ Succeeds vars e := by
  induction e generalizing r with
  | literalInt value => exact ⟨compiles_literalInt vars value, succeeds_literalInt vars value⟩
  | literalFloat value => exact ⟨compiles_literalFloat vars value, succeeds_literalFloat vars value⟩
  | ident t name => exact ⟨compiles_ident (operandRep_of_valueRep h).1 t, succeeds_ident h t⟩
  | group t expr ih =>
    obtain ⟨hcode, he⟩ := ih hu.2 h
    exact ⟨hcode.group t, he.group t⟩
  | unaryOp t operator operand ih =>
    obtain ⟨rfl, h'⟩ := valueRep_unaryOp h
    obtain ⟨hcode, he⟩ := ih hu.2 h'
    exact ⟨hcode.unaryMinus t, Succeeds.unaryMinus hcode he t⟩
  | binaryOp t operator left right =>
    obtain ⟨a, b, op, ha, hb, rfl, hop⟩ := valueRep_binaryOp h
    obtain ⟨hrep, hcode⟩ := operandRep_of_valueRep h
    refine ⟨hcode ▸ compiles_binaryOp hu hrep (operator_ne_assignment hop), ?_⟩
    have htrace : ∀ chain : ScopeChain, chain.Sees vars → _ :=
      fun chain hsees => traceDataType_eq hsees hu hrep
    simp only [traced, (operandRep_of_valueRep ha).1, (operandRep_of_valueRep hb).1,
      Option.getD_some] at htrace
    exact Succeeds.binaryOp hop htrace (compiles_castTraced ha _) (compiles_castTraced hb _)
      ((succeeds_traced ha).cast (compiles_traced (operandRep_of_valueRep ha).1) _ _)
      ((succeeds_traced hb).cast (compiles_traced (operandRep_of_valueRep hb).1) _ _)
  | specialCast t opcode operand => cases h
  | other t => cases h

/-! ## The theorem -/

/-- An expression with a type compiles, and from any state of the machine at the emitted code, with
room for the words of the expression, the machine gets behind the code with the value of the
expression pushed, where it has one, and all else as it was, if and only if no division of it
overflows. -/
theorem expression_correct_iff (host : Host) {s : CompilerState} {e : Expr} {r : Rep}
    (hu : e.Untraced) (htype : exprType s.chain.typeOf e = some r)
    (htakes : s.chain.scope.emitter.Takes) :
    ∃ depth code, ∀ fuel, depth ≤ fuel → ∃ s',
      compileExpression fuel e s = .ok 0 s' ∧ EmittedCode s code s' ∧
      ∀ (vm : Vm) (m : MachineState) (pc : ℕ) (rest : List UInt8) (v : BitVec 32),
        m.current.pc = pc → m.current.code.drop pc = encodeAll code ++ rest →
        m.current.frame.Room (exprWords e) →
        exprValue host s.chain.typeOf (s.chain.valueOf m.current.frame.locals) e = some v →
        ((∃ w : Word, w.bits = v ∧ VmReach host vm m { m with current :=
            { m.current with
              pc := ((pc + codeSize code : ℕ) : ℤ)
              frame := m.current.frame.push w } }) ↔
          exprInRange host s.chain.typeOf (s.chain.valueOf m.current.frame.locals) e) := by
  -- what the chain of scopes finds is a list of variables
  have htypeOf : s.chain.typeOf = typeIn s.chain.vars := by
    funext name
    rw [ScopeChain.typeOf, typeIn, lookup_vars]
  have hvalueOf : ∀ locals : List Word, s.chain.valueOf locals = valueIn s.chain.vars locals := by
    intro locals
    funext name
    rw [ScopeChain.valueOf, valueIn, lookup_vars]
  rw [htypeOf] at htype ⊢
  obtain ⟨hcode, depth, hsucceeds⟩ := compiles_value hu (valueRep_of_exprType htype)
  refine ⟨depth, valueCode s.chain.vars e, fun fuel hfuel => ?_⟩
  obtain ⟨ret, s', hcompile⟩ := hsucceeds fuel hfuel s (sees_vars s.chain) htakes
  obtain ⟨rfl, hemitted⟩ := hcode fuel s s' ret (sees_vars s.chain) hcompile
  refine ⟨s', hcompile, hemitted, fun vm m pc rest v hpc hdrop hroom hvalue => ?_⟩
  rw [hvalueOf] at hvalue ⊢
  exact vmReach_value_iff htype vm hpc hdrop hroom hvalue

/-- `(7 / 2) * 1.5`, where 3 is converted -/
def mixed : Expr :=
  .binaryOp .unknwn .multiplication
    (.group .unknwn (.binaryOp .unknwn .division (.literalInt 7) (.literalInt 2)))
    (.literalFloat 0x3FC00000)

/-- A host that knows one conversion and one product. -/
def mixedHost : Host :=
  { zeroHost with
    ofInt := fun v => if v = 3 then 0x40400000 else 0
    mul := fun a b => if a = 0x40400000 ∧ b = 0x3FC00000 then 0x40900000 else 0 }

/-- It pushes 4.5 on the empty root frame. -/
theorem expression_correct_iff_mixed : ∃ depth code, ∀ fuel, depth ≤ fuel → ∃ s',
    compileExpression fuel mixed (compilerInit false) = .ok 0 s' ∧
    EmittedCode (compilerInit false) code s' ∧
    ∃ w : Word, w.bits = 0x40900000 ∧
      VmReach mixedHost vmStaticInit (vmStart (rootFrame mixedHost) (encodeAll code))
        ⟨⟨encodeAll code, codeSize code, (rootFrame mixedHost).push w⟩, []⟩ := by
  obtain ⟨depth, code, h⟩ := expression_correct_iff mixedHost (s := compilerInit false) (e := mixed)
    (r := .float) ⟨rfl, ⟨rfl, rfl, trivial, trivial⟩, trivial⟩ rfl (takes_new (by decide))
  refine ⟨depth, code, fun fuel hfuel => ?_⟩
  obtain ⟨s', hcompile, hemitted, hrun⟩ := h fuel hfuel
  obtain ⟨w, hw, hreach⟩ := (hrun vmStaticInit (vmStart (rootFrame mixedHost) (encodeAll code)) 0 []
    0x40900000 rfl (List.append_nil _).symm (rootFrame_room mixedHost (by decide)) rfl).mpr (by
      refine ⟨⟨trivial, trivial, fun _ _ _ a b ha _ => ?_⟩, trivial, fun h => nomatch h⟩
      obtain rfl := Option.some.inj ha
      rfl)
  rw [Nat.zero_add] at hreach
  exact ⟨s', hcompile, hemitted, w, hw, hreach⟩

/-- `(0 - 2147483647 - 1) / (0 - 1)` -/
def overflowing : Expr :=
  .binaryOp .unknwn .division
    (.group .unknwn (.binaryOp .unknwn .subtraction
      (.binaryOp .unknwn .subtraction (.literalInt 0) (.literalInt 2147483647)) (.literalInt 1)))
    (.group .unknwn (.binaryOp .unknwn .subtraction (.literalInt 0) (.literalInt 1)))

/-- With arithmetic that wraps around its value is `INT32_MIN`, but the machine never gets behind
its code. -/
theorem expression_not_correct : ∃ fuel code s',
    overflowing.Untraced ∧ exprType (compilerInit false).chain.typeOf overflowing = some .int ∧
    compileExpression fuel overflowing (compilerInit false) = .ok 0 s' ∧
    EmittedCode (compilerInit false) code s' ∧
    (rootFrame zeroHost).Room (exprWords overflowing) ∧
    exprValue zeroHost (compilerInit false).chain.typeOf
      ((compilerInit false).chain.valueOf (rootFrame zeroHost).locals) overflowing
        = some (BitVec.intMin 32) ∧
    ∀ w : Word, w.bits = BitVec.intMin 32 →
      ¬ VmReach zeroHost vmStaticInit (vmStart (rootFrame zeroHost) (encodeAll code))
        ⟨⟨encodeAll code, codeSize code, (rootFrame zeroHost).push w⟩, []⟩ := by
  have hu : overflowing.Untraced := by simp [overflowing, Expr.Untraced]
  have hrep : valueRep [] overflowing = some .int := rfl
  obtain ⟨hcode, depth, hsucceeds⟩ := compiles_value hu hrep
  have hsees : (compilerInit false).chain.Sees [] := by
    simp [ScopeChain.Sees, lookupVar]
  obtain ⟨ret, s', hcompile⟩ := hsucceeds depth (Nat.le_refl _) (compilerInit false) hsees
    (takes_new (by decide))
  obtain ⟨rfl, hemitted⟩ := hcode depth _ s' ret hsees hcompile
  have hroom : (rootFrame zeroHost).Room (exprWords overflowing) := rootFrame_room zeroHost (by decide)
  refine ⟨depth, _, s', hu, rfl, hcompile, hemitted, hroom, rfl, fun w hw hreach => ?_⟩
  have htype : exprType (typeIn []) overflowing = some .int := rfl
  have hrange : exprInRange zeroHost (typeIn []) (valueIn [] (rootFrame zeroHost).locals)
      overflowing :=
    (vmReach_value_iff htype vmStaticInit
      (m := vmStart (rootFrame zeroHost) (encodeAll (valueCode [] overflowing)))
      (Nat.cast_zero (R := ℤ)).symm (List.append_nil _).symm hroom rfl).mp
      ⟨w, hw, by rw [Nat.zero_add]; exact hreach⟩
  exact absurd (hrange.2.2 rfl rfl rfl _ _ rfl rfl) (by decide)

end PhantomShell
