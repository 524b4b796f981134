import PhantomShell.Compiler.SignatureTheorems
import PhantomShell.Compiler.ExpressionTheorems
import PhantomShell.HashmapTheorems
import PhantomShell.Parser.Expression

/-!
# The arguments of a call

`compile_function_call` walks a tree of commas that leans to the right, but the parser builds one
that leans to the left. The walk compiles one argument or two, the last of which must not be a binary
operation, and nobody compares them with the parameters of the function (`arguments_passed_iff`,
`call_matched_iff`).
-/

namespace PhantomShell

/-- The expression between the parentheses of a call, as the parser groups it: `%left ','`
(`buildExpression_call`). -/
def argsTree (first : Expr) (rest : List Expr) : Expr :=
  rest.foldl (fun left right => .binaryOp .unknwn .comma left right) first

/-- The arguments compile one after the other, whatever code `compile_expression` returns for them,
and together they append the bytes. -/
inductive ArgsRun (fuel : ℕ) : CompilerState → List Expr → List UInt8 → CompilerState → Prop
  | nil {s : CompilerState} : ArgsRun fuel s [] [] s
  | cons {s s₁ s' : CompilerState} {arg : Expr} {args : List Expr} {ret : ℤ}
      {code rest : List UInt8} :
      compileExpression fuel arg s = .ok ret s₁ → Appended s code s₁ →
      ArgsRun fuel s₁ args rest s' → ArgsRun fuel s (arg :: args) (code ++ rest) s'

/-- Arguments are what the commas are between. -/
def Expr.isComma : Expr → Bool
  | .binaryOp _ .comma _ _ => true
  | _ => false

/-- The arguments that the walk gets through: one or two, and the last is no binary operation. -/
def Walkable : List Expr → Prop
  | [arg] => arg.isBinaryOp = false
  | [_, arg] => arg.isBinaryOp = false
  | _ => False

/-- The index of a function in the pool of constants, or the one that its signature is going to have
there: it is registered behind the body of the function. -/
def CompilerState.funcIndex (s : CompilerState) (desc : FuncDesc) : UInt16 :=
  (hashmapGet id s.constPoolMap desc.signature).getD s.constPoolMapSize

/-- `compile_function_call` of a function that is found. -/
def callResult (fuel : ℕ) (name : CStr) (first : Expr) (rest : List Expr) (s : CompilerState) :
    EStateM.Result CompileStop CompilerState ℤ :=
  compileFunctionCall (compileExpression fuel) (.ident .unknwn name)
    (.group .unknwn (argsTree first rest)) s

/-- The call emits the code of the arguments, each once and in their order, and `CALL` with the
index of the function. -/
def ArgumentsPassed (fuel : ℕ) (name : CStr) (desc : FuncDesc) (first : Expr) (rest : List Expr)
    (s : CompilerState) : Prop :=
  ∀ code s₁, ArgsRun fuel s (first :: rest) code s₁ → ∃ s',
    callResult fuel name first rest s = .ok 0 s' ∧
      Appended s (code ++ opcodeCall :: htobe16 (s.funcIndex desc)) s'

/-! ## Arguments in the text -/

/-- The arguments in the text of a call, with commas between them. -/
def argsYield (first : ExprTree) (rest : List ExprTree) : List Token :=
  first.yield exprLexicon ++ rest.flatMap fun arg => .char 44 :: arg.yield exprLexicon

/-- The derivation of the arguments. -/
def argsDerivation (first : ExprTree) (rest : List ExprTree) : ExprTree :=
  rest.foldl (fun left right => .binary .comma left right) first

lemma exprNode_argsDerivation (first : ExprTree) (rest : List ExprTree) :
    exprNode (argsDerivation first rest) = argsTree (exprNode first) (rest.map exprNode) := by
  induction rest generalizing first with
  | nil => rfl
  | cons arg rest ih => exact ih (.binary .comma first arg)

lemma yield_argsDerivation (first : ExprTree) (rest : List ExprTree) :
    (argsDerivation first rest).yield exprLexicon = argsYield first rest := by
  induction rest generalizing first with
  | nil => exact (List.append_nil _).symm
  | cons arg rest ih =>
    have h := ih (.binary .comma first arg)
    rw [argsYield, OpTree.yield, List.append_assoc] at h
    exact h

/-- Nothing binds weaker than a comma, and the comma is left associative. -/
lemma yaccReduces_comma (rule : OpRule UnaryOperator BinaryOperator) :
    yaccReduces rule (.binary .comma) = true := by
  rcases rule with ⟨p⟩ | ⟨b⟩
  · cases p <;> decide
  · cases b <;> decide

lemma comma_yaccReduces {next : OpNext BinaryOperator} (h : next ≠ .binary .comma) :
    yaccReduces (.binary .comma) next = false := by
  rcases next with ⟨b⟩ | _
  · cases b <;> first | exact (h rfl).elim | decide
  · decide

/-- An argument that is no comma has none on its left edge either. -/
lemma ne_comma_of_leftEdge {t : ExprTree} (ht : t.Grouped yaccReduces)
    (hcomma : (exprNode t).isComma = false) : ∀ next ∈ t.leftEdge, next ≠ .binary .comma := by
  -- what is followed by something stronger is no comma
  have hfollowed : ∀ {l : ExprTree} {next : OpNext BinaryOperator}, next ≠ .binary .comma →
      (∀ rule ∈ l.rightEdge, yaccReduces rule next) → (exprNode l).isComma = false := by
    intro l next hnext hedge
    cases l with
    | binary b l r =>
      cases b with
      | comma =>
        have hreduces := hedge (.binary .comma) (by simp [OpTree.rightEdge])
        rw [comma_yaccReduces hnext] at hreduces
        cases hreduces
      | _ => rfl
    | atom a =>
      rcases a with value | c
      · rfl
      · cases c <;> rfl
    | _ => rfl
  induction t with
  | binary b l r ihl _ =>
    have hb : b ≠ .comma := by
      rintro rfl
      cases hcomma
    have hnext : OpNext.binary b ≠ .binary .comma := fun h => hb (OpNext.binary.inj h)
    intro next hmem
    rcases List.mem_append.mp hmem with hmem | hmem
    · exact ihl ht.1.1 (hfollowed hnext ht.1.2) next hmem
    · rw [List.mem_singleton.mp hmem]
      exact hnext
  | call f t ihf _ =>
    have hnext : (OpNext.call : OpNext BinaryOperator) ≠ .binary .comma := nofun
    intro next hmem
    rcases List.mem_append.mp hmem with hmem | hmem
    · exact ihf ht.1.1 (hfollowed hnext ht.1.2) next hmem
    · rw [List.mem_singleton.mp hmem]
      exact hnext
  | atom | unary | group =>
    intro next hmem
    cases hmem

lemma grouped_argsDerivation {first : ExprTree} {rest : List ExprTree}
    (hfirst : first.Grouped yaccReduces)
    (hrest : ∀ arg ∈ rest, arg.Grouped yaccReduces ∧ (exprNode arg).isComma = false) :
    (argsDerivation first rest).Grouped yaccReduces := by
  induction rest generalizing first with
  | nil => exact hfirst
  | cons arg rest ih =>
    obtain ⟨harg, hcomma⟩ := hrest arg List.mem_cons_self
    refine ih ⟨⟨hfirst, fun rule _ => yaccReduces_comma rule⟩, harg, fun next hmem => ?_⟩
      fun arg' hmem => hrest arg' (List.mem_cons_of_mem _ hmem)
    exact comma_yaccReduces (ne_comma_of_leftEdge harg hcomma next hmem)

/-- The parser builds this tree for the text of a call. -/
theorem buildExpression_call (name : CStr) {first : ExprTree} {rest : List ExprTree}
    (hfirst : first.Grouped yaccReduces)
    (hrest : ∀ arg ∈ rest, arg.Grouped yaccReduces ∧ (exprNode arg).isComma = false) :
    buildExpression (.identifier name :: .parenOpen :: (argsYield first rest ++ [.parenClose]))
      = some (.binaryOp .unknwn .functionCall (.ident .unknwn name)
        (.group .unknwn (argsTree (exprNode first) (rest.map exprNode)))) := by
  have hparse : parseExpression
      (.identifier name :: .parenOpen :: (argsYield first rest ++ [.parenClose]))
        = some (.call (.atom (.identifier name)) (argsDerivation first rest)) := by
    refine (opParse_eq_some_iff exprLexicon).mpr ⟨⟨⟨trivial, nofun⟩,
      grouped_argsDerivation hfirst hrest⟩, ?_⟩
    rw [OpTree.yield, OpTree.yield, yield_argsDerivation]
    rfl
  rw [buildExpression, hparse, ← exprNode_argsDerivation]
  rfl

/-! ## Appending -/

lemma Appended.trans {s s₁ s₂ : CompilerState} {a b : List UInt8} (h₁ : Appended s a s₁)
    (h₂ : Appended s₁ b s₂) : Appended s (a ++ b) s₂ := by
  obtain ⟨chunks, account, newVars, h₁, rfl⟩ := h₁
  obtain ⟨chunks', account', newVars', h₂, rfl⟩ := h₂
  exact ⟨_, _, _, h₁.trans h₂, List.flatten_append⟩

lemma Appended.takes {s s' : CompilerState} {code : List UInt8} (h : Appended s code s')
    (htakes : s.chain.scope.emitter.Takes) : s'.chain.scope.emitter.Takes := by
  obtain ⟨_, _, _, h, -⟩ := h
  exact h.takes htakes

lemma EmittedCode.appended {s s' : CompilerState} {code : List Instr}
    (h : EmittedCode s code s') : Appended s (encodeAll code) s' :=
  ⟨_, _, _, h.advanced, rfl⟩

lemma ArgsRun.appended {fuel : ℕ} {args : List Expr} {code : List UInt8} {s s' : CompilerState}
    (h : ArgsRun fuel s args code s') : Appended s code s' := by
  induction h with
  | nil => exact ⟨[], _, [], Advanced.refl _, rfl⟩
  | cons _ hcode _ ih => exact hcode.trans ih

/-- An emitter that works tells the bytes that were appended. -/
lemma Appended.unique {s s' : CompilerState} {a b : List UInt8}
    (htakes : s.chain.scope.emitter.Takes) (ha : Appended s a s') (hb : Appended s b s') :
    a = b := by
  obtain ⟨chunks, account, newVars, ⟨emitter, events, m, hem, rfl⟩, rfl⟩ := ha
  obtain ⟨chunks', account', newVars', ⟨emitter', events', m', hem', hs⟩, rfl⟩ := hb
  have hemitter : emitter = emitter' := congrArg (·.chain.scope.emitter) hs
  have hevents : events = events' := List.append_cancel_left (congrArg (·.events) hs)
  subst hemitter hevents
  cases hscope : s.chain.scope.emitter with
  | unbuffered =>
    rw [hscope, emitChunks_unbuffered] at hem hem'
    cases hem
    simp only [Option.some.injEq, Prod.mk.injEq, true_and] at hem'
    rw [List.map_injective_iff.mpr (fun x y h => Event.execute.inj h) hem']
  | buffered e =>
    rw [hscope] at hem hem' htakes
    obtain ⟨p, log, -, hholds⟩ := htakes
    have hlog : ∀ {chunks : List (List UInt8)},
        emitChunks (.buffered e) chunks = some (emitter, events) →
        ∃ e', emitter = .buffered e' ∧ EmitterHolds p e' (log ++ chunks.flatten) := by
      intro chunks hem
      rw [emitChunks_buffered, Option.map_eq_some_iff] at hem
      obtain ⟨e', hrun, heq⟩ := hem
      cases heq
      obtain ⟨e₁, hrun₁, hholds₁⟩ := emitAll_holds hholds (chunksFit_of_emitAll hholds hrun)
      obtain rfl := Option.some.inj (hrun.symm.trans hrun₁)
      exact ⟨_, rfl, hholds₁⟩
    obtain ⟨e₁, rfl, h₁⟩ := hlog hem
    obtain ⟨e₂, he₂, h₂⟩ := hlog hem'
    cases he₂
    exact List.append_cancel_left
      (Option.some.inj ((compilerEmitterSink_eq h₁).symm.trans (compilerEmitterSink_eq h₂)))

/-! ## The walk -/

lemma argsTree_append (first : Expr) (rest : List Expr) (last : Expr) :
    argsTree first (rest ++ [last]) = .binaryOp .unknwn .comma (argsTree first rest) last := by
  rw [argsTree, List.foldl_append]
  exact rfl

/-- Tracing stops with a panic. -/
lemma traceDataType_eq_error {chain : ScopeChain} {e : Expr} {stop : CompileStop}
    (h : traceDataType chain e = .error stop) : ∃ format, stop = .panic format := by
  -- an operand whose type is known is not traced
  have hskip : ∀ {x : Expr}, (traceDataType chain x = .error stop → ∃ format, stop = .panic format) →
      (if x.staticType = .unknwn then traceDataType chain x else .ok x) = .error stop →
      ∃ format, stop = .panic format := by
    intro x ih h
    split at h
    · exact ih h
    · cases h
  induction e with
  | literalInt value => cases h
  | literalFloat value => cases h
  | ident t name =>
    rw [traceDataType] at h
    split at h
    · cases h
    · split at h
      · exact ⟨_, (Except.error.inj h).symm⟩
      · cases h
  | group t expr ih =>
    rw [traceDataType] at h
    split at h
    · cases h
    · rcases except_bind_eq_error.mp h with h | ⟨_, -, h⟩
      · exact hskip ih h
      · cases h
  | unaryOp t operator operand ih =>
    rw [traceDataType] at h
    split at h
    · cases h
    · rcases except_bind_eq_error.mp h with h | ⟨_, -, h⟩
      · exact hskip ih h
      · cases h
  | binaryOp t operator left right ihl ihr =>
    rw [traceDataType] at h
    split at h
    · cases h
    · split at h
      · exact ⟨_, (Except.error.inj h).symm⟩
      · rcases except_bind_eq_error.mp h with h | ⟨_, -, h⟩
        · exact hskip ihl h
        · rcases except_bind_eq_error.mp h with h | ⟨_, -, h⟩
          · exact hskip ihr h
          · -- behind the operands there is always a type
            simp only at h
            split at h
            · split at h <;> cases h
            · cases h
  | specialCast t opcode operand =>
    rw [traceDataType] at h
    split at h
    · cases h
    · exact ⟨_, (Except.error.inj h).symm⟩
  | other t =>
    rw [traceDataType] at h
    split at h
    · cases h
    · exact ⟨_, (Except.error.inj h).symm⟩

/-- A comma is no operation: `compile_expression` panics. -/
lemma panics_comma (fuel : ℕ) (t : StaticType) (left right : Expr) (s : CompilerState) :
    Panics (compileExpression (fuel + 1) (.binaryOp t .comma left right) s) := by
  rw [compileExpression, compileBinaryOp, if_neg (by decide), if_neg (by decide)]
  cases hnode : traceDataType s.chain (.binaryOp t .comma left right) with
  | error stop =>
    obtain ⟨format, rfl⟩ := traceDataType_eq_error hnode
    refine Panics.bind ⟨format, s, ?_⟩
    rw [astNodeTraceDataType, estate_bind_of_ok (estate_get_eq s), hnode]
    rfl
  | ok node =>
    obtain ⟨t', left', right', rfl⟩ := traceDataType_operator hnode
    have htrace : astNodeTraceDataType (.binaryOp t .comma left right) s
        = .ok (.binaryOp t' .comma left' right') s := by
      rw [astNodeTraceDataType, estate_bind_of_ok (estate_get_eq s), hnode]
      rfl
    have hop : binaryOpcode t' .comma = 0 := by cases t' <;> rfl
    refine panics_bind_of_ok htrace ?_
    simp only [compileOperands, hop, if_true]
    exact ⟨_, s, rfl⟩

/-- Behind more than two arguments, the left side of the tree is a comma. -/
lemma argsTree_many (first b c : Expr) (rest : List Expr) : ∃ left right last,
    argsTree first (b :: c :: rest)
      = .binaryOp .unknwn .comma (.binaryOp .unknwn .comma left right) last := by
  obtain ⟨front, last, hfront⟩ : ∃ front last, b :: c :: rest = (b :: front) ++ [last] := by
    rcases List.eq_nil_or_concat (c :: rest) with h | ⟨front, last, h⟩
    · cases h
    · exact ⟨front, last, by rw [h, List.concat_eq_append]; rfl⟩
  rw [hfront, argsTree_append]
  obtain ⟨front', last', hfront'⟩ : ∃ front' last', b :: front = front' ++ [last'] := by
    rcases List.eq_nil_or_concat (b :: front) with h | ⟨front', last', h⟩
    · cases h
    · exact ⟨front', last', by rw [h, List.concat_eq_append]⟩
  rw [hfront', argsTree_append]
  exact ⟨_, _, _, rfl⟩

/-- A binary operation that compiles is no comma, and the walk does not expect it. -/
lemma panics_last {fuel : ℕ} {arg : Expr} {s s' : CompilerState} {ret : ℤ}
    (h : arg.isBinaryOp = true) (hcompile : compileExpression fuel arg s = .ok ret s') :
    Panics (compileArgs (compileExpression fuel) arg s) := by
  cases arg with
  | binaryOp t operator left right =>
    rw [compileArgs]
    by_cases hcomma : operator = .comma
    · rw [hcomma] at hcompile
      exact (compileExpression_comma hcompile).elim
    · rw [if_neg hcomma]
      exact ⟨_, s, rfl⟩
  | _ => cases h

/-- The walk gets through. -/
lemma compileArgs_walkable {fuel : ℕ} {first : Expr} {rest : List Expr} {code : List UInt8}
    {s s₁ : CompilerState} (hwalk : Walkable (first :: rest))
    (hrun : ArgsRun fuel s (first :: rest) code s₁) :
    compileArgs (compileExpression fuel) (argsTree first rest) s = .ok () s₁ := by
  match rest, hwalk with
  | [], hlast =>
    cases hrun with
    | cons hfirst _ hrest =>
      cases hrest
      rw [argsTree, List.foldl_nil, compileArgs_last _ hlast]
      exact estate_bind_eq_ok.mpr ⟨_, _, hfirst, rfl⟩
  | [arg], hlast =>
    cases hrun with
    | cons hfirst _ hrest =>
      cases hrest with
      | cons harg _ hrest =>
        cases hrest
        rw [argsTree, List.foldl_cons, List.foldl_nil, compileArgs, if_pos rfl,
          compileArgs_last _ hlast]
        exact estate_bind_eq_ok.mpr ⟨_, _, hfirst, estate_bind_eq_ok.mpr ⟨_, _, harg, rfl⟩⟩

/-- Otherwise the walk panics, though each argument compiles. -/
lemma compileArgs_panics {fuel : ℕ} {first : Expr} {rest : List Expr} {code : List UInt8}
    {s s₁ : CompilerState} (hwalk : ¬ Walkable (first :: rest))
    (hrun : ArgsRun fuel s (first :: rest) code s₁) :
    Panics (compileArgs (compileExpression fuel) (argsTree first rest) s) := by
  cases hrun with
  | cons hfirst _ hrest =>
    match rest, hwalk with
    | [], hlast => exact panics_last (eq_true_of_ne_false hlast) hfirst
    | [arg], hlast =>
      cases hrest with
      | cons harg _ _ =>
        rw [argsTree, List.foldl_cons, List.foldl_nil, compileArgs, if_pos rfl]
        exact panics_bind_of_ok hfirst (panics_last (eq_true_of_ne_false hlast) harg)
    | b :: c :: rest, _ =>
      obtain ⟨left, right, last, htree⟩ := argsTree_many first b c rest
      rw [htree, compileArgs, if_pos rfl]
      cases fuel with
      | zero => cases hfirst
      | succ fuel => exact (panics_comma fuel .unknwn left right s).bind

/-- What the walk ends with. -/
lemma compileArgs_last_eq_ok {fuel : ℕ} {arg : Expr} {s s₁ : CompilerState}
    (hcomma : arg.isComma = false)
    (h : compileArgs (compileExpression fuel) arg s = .ok () s₁) :
    arg.isBinaryOp = false ∧ ∃ code, ArgsRun fuel s [arg] code s₁ := by
  have hlast : arg.isBinaryOp = false := by
    cases arg with
    | binaryOp t operator left right =>
      rw [compileArgs] at h
      split at h
      · rename_i hop
        rw [hop] at hcomma
        cases hcomma
      · cases h
    | _ => rfl
  rw [compileArgs_last _ hlast, estate_bind_eq_ok] at h
  obtain ⟨ret, t, hcompile, h⟩ := h
  obtain ⟨-, rfl⟩ := estate_pure_eq_ok.mp h
  obtain ⟨chunks, account, newVars, hadv⟩ := grower_expression fuel arg _ _ _ hcompile
  exact ⟨hlast, _, .cons hcompile ⟨chunks, account, newVars, hadv, rfl⟩ .nil⟩

/-- The walk gets through nothing else. -/
lemma compileArgs_eq_ok {fuel : ℕ} {first : Expr} {rest : List Expr} {s s₁ : CompilerState}
    (hcomma : ∀ arg ∈ first :: rest, arg.isComma = false)
    (h : compileArgs (compileExpression fuel) (argsTree first rest) s = .ok () s₁) :
    Walkable (first :: rest) ∧ ∃ code, ArgsRun fuel s (first :: rest) code s₁ := by
  match rest with
  | [] => exact compileArgs_last_eq_ok (hcomma first (by simp)) h
  | [arg] =>
    rw [argsTree, List.foldl_cons, List.foldl_nil, compileArgs, if_pos rfl,
      estate_bind_eq_ok] at h
    obtain ⟨ret, t, hfirst, h⟩ := h
    obtain ⟨hlast, code, hrun⟩ := compileArgs_last_eq_ok (hcomma arg (by simp)) h
    obtain ⟨chunks, account, newVars, hadv⟩ := grower_expression fuel first _ _ _ hfirst
    exact ⟨hlast, _, .cons hfirst ⟨chunks, account, newVars, hadv, rfl⟩ hrun⟩
  | b :: c :: rest =>
    obtain ⟨left, right, last, htree⟩ := argsTree_many first b c rest
    rw [htree, compileArgs, if_pos rfl, estate_bind_eq_ok] at h
    obtain ⟨ret, t, hleft, -⟩ := h
    exact (compileExpression_comma hleft).elim

/-! ## The call -/

/-- A function that is found: the arguments, and the index that is found for it now. -/
lemma callResult_eq {fuel : ℕ} {name : CStr} {desc : FuncDesc} {first : Expr} {rest : List Expr}
    {s : CompilerState} (hfunc : hashmapGet id s.globalFuncMap name = some desc) :
    callResult fuel name first rest s =
      (compileArgs (compileExpression fuel) (argsTree first rest) >>= fun _ =>
        compilerEmit (opcodeCall :: htobe16 (s.callIndex name))) s := by
  have hindex : constPoolIndexByValue desc.signature s = .ok (s.callIndex name) s := by
    simp only [constPoolIndexByValue, CompilerState.callIndex, hfunc, estate_bind_eq_ok,
      estate_get_eq_ok, estate_pure_eq_ok]
    exact ⟨s, s, ⟨rfl, rfl⟩, rfl, rfl⟩
  rw [callResult, compileFunctionCall, estate_bind_of_ok (estate_get_eq s)]
  simp only [hfunc]
  rw [estate_bind_of_ok hindex]

/-- A call whose arguments the walk gets through. -/
lemma callResult_walkable {fuel : ℕ} {name : CStr} {desc : FuncDesc} {first : Expr}
    {rest : List Expr} {code : List UInt8} {s s₁ : CompilerState}
    (hfunc : hashmapGet id s.globalFuncMap name = some desc)
    (htakes : s.chain.scope.emitter.Takes) (hwalk : Walkable (first :: rest))
    (hrun : ArgsRun fuel s (first :: rest) code s₁) :
    ∃ s', callResult fuel name first rest s = .ok 0 s' ∧
      Appended s (code ++ opcodeCall :: htobe16 (s.callIndex name)) s' := by
  have happended : Appended s code s₁ := hrun.appended
  obtain ⟨s', hemit⟩ := compilerEmit_succeeds (happended.takes htakes) (.call (s.callIndex name))
  obtain ⟨-, hcall⟩ := compilerEmit_call hemit
  refine ⟨s', ?_, happended.trans (hcall.appended)⟩
  rw [callResult_eq hfunc]
  exact estate_bind_eq_ok.mpr ⟨(), s₁, compileArgs_walkable hwalk hrun, hemit⟩

/-- The operand of `CALL` is the index of the function where that is registered or the first. -/
lemma callIndex_eq_funcIndex {name : CStr} {desc : FuncDesc} {s : CompilerState}
    (hfunc : hashmapGet id s.globalFuncMap name = some desc) :
    s.callIndex name = s.funcIndex desc ↔
      (hashmapGet id s.constPoolMap desc.signature).isSome ∨ s.constPoolMapSize = 0 := by
  simp only [CompilerState.callIndex, CompilerState.funcIndex, hfunc]
  cases hashmapGet id s.constPoolMap desc.signature with
  | none => simp [eq_comm]
  | some index => simp

lemma htobe16_injective {m n : UInt16} (h : htobe16 m = htobe16 n) : m = n := by
  have hm := readOffset_htobe16 m []
  have hn := readOffset_htobe16 n []
  rw [h, hn] at hm
  exact UInt16.toNat_inj.mp (Except.ok.inj hm).symm

/-- Arguments that are passed are walked through. -/
lemma ArgumentsPassed.walkable {fuel : ℕ} {name : CStr} {desc : FuncDesc} {first : Expr}
    {rest : List Expr} {code : List UInt8} {s s₁ : CompilerState}
    (h : ArgumentsPassed fuel name desc first rest s)
    (hfunc : hashmapGet id s.globalFuncMap name = some desc)
    (hrun : ArgsRun fuel s (first :: rest) code s₁) : Walkable (first :: rest) := by
  by_contra hno
  have hpanic := (compileArgs_panics hno hrun).bind
    (f := fun _ => compilerEmit (opcodeCall :: htobe16 (s.callIndex name)))
  obtain ⟨s', hcall, -⟩ := h code s₁ hrun
  rw [← callResult_eq hfunc, hcall] at hpanic
  obtain ⟨format, t, hpanic⟩ := hpanic
  cases hpanic

/-- The arguments of a call are passed exactly when there is one that is no binary operation, or two
of which the second is none, and the function has an index already or gets the first one. -/
theorem arguments_passed_iff {fuel : ℕ} {name : CStr} {desc : FuncDesc} {first : Expr}
    {rest : List Expr} {code : List UInt8} {s s₁ : CompilerState}
    (hfunc : hashmapGet id s.globalFuncMap name = some desc)
    (htakes : s.chain.scope.emitter.Takes) (hrun : ArgsRun fuel s (first :: rest) code s₁) :
    ArgumentsPassed fuel name desc first rest s ↔ Walkable (first :: rest) ∧
      ((hashmapGet id s.constPoolMap desc.signature).isSome ∨ s.constPoolMapSize = 0) := by
  rw [← callIndex_eq_funcIndex hfunc]
  constructor
  · intro h
    have hwalk := h.walkable hfunc hrun
    obtain ⟨s', hcall, happended⟩ := h code s₁ hrun
    obtain ⟨s₂, hcall', happended'⟩ := callResult_walkable hfunc htakes hwalk hrun
    cases hcall.symm.trans hcall'
    have hcode := List.append_cancel_left (happended'.unique htakes happended)
    exact ⟨hwalk, htobe16_injective (List.cons.inj hcode).2⟩
  · rintro ⟨hwalk, hindex⟩ code s₁ hrun
    rw [← hindex]
    exact callResult_walkable hfunc htakes hwalk hrun

/-- The compiler in the body of the first function of a program. -/
def firstFunction (desc : FuncDesc) : CompilerState :=
  { compilerInit true with
    chain := funcScopeChain
    globalFuncMap := hashmapNew.store ((stringHash desc.name).toNat % initialMapCap) desc.name desc }

lemma firstFunction_found (desc : FuncDesc) :
    hashmapGet id (firstFunction desc).globalFuncMap desc.name = some desc := by
  have hput := hashmapPut_new 0 id (fun _ => true) desc.name desc
  have hhole : ¬ StoredBehindHole id (hashmapNew : Hashmap CStr FuncDesc) desc.name :=
    clean_empty _ _ desc.name
  have hholds := (hashmapPut_holds (fun _ => rfl) (mapHolds_empty _ _) (.inr hhole) hput).2.1
  exact (hashmapGet_eq hholds desc.name).trans (Function.update_self _ _ _)

lemma argsRun_literals (values : List (BitVec 32)) {s : CompilerState}
    (htakes : s.chain.scope.emitter.Takes) :
    ∃ code s₁, ArgsRun 1 s (values.map .literalInt) code s₁ := by
  induction values generalizing s with
  | nil => exact ⟨[], s, .nil⟩
  | cons value values ih =>
    obtain ⟨ret, s₁, hcompile⟩ : ∃ ret s₁, compileExpression 1 (.literalInt value) s = .ok ret s₁ :=
      emitCounted_succeeds htakes (.iconst value) _
    obtain ⟨-, he⟩ := compiles_literalInt [] value 1 s s₁ ret (fun _ _ h => by cases h) hcompile
    obtain ⟨code, s₂, hrun⟩ := ih (Emitted.takes he htakes)
    exact ⟨_, s₂, .cons hcompile he.appended hrun⟩

/-- `f(1, 2)` in the body of `f`. -/
theorem arguments_passed_two :
    let desc : FuncDesc := ⟨[102], [([120], intName), ([121], intName)], [102, 40, 73, 73, 41, 86]⟩
    ArgumentsPassed 1 [102] desc (.literalInt 1) [.literalInt 2] (firstFunction desc) := by
  intro desc
  obtain ⟨code, s₁, hrun⟩ :=
    argsRun_literals [1, 2] (s := firstFunction desc) (takes_new (by decide))
  exact (arguments_passed_iff (firstFunction_found desc) (takes_new (by decide)) hrun).mpr
    ⟨rfl, .inr rfl⟩

/-- `f(1, 2, 3)` panics. -/
theorem arguments_not_passed :
    let desc : FuncDesc := ⟨[102], [([120], intName), ([121], intName), ([122], intName)],
      [102, 40, 73, 73, 73, 41, 86]⟩
    ¬ ArgumentsPassed 1 [102] desc (.literalInt 1) [.literalInt 2, .literalInt 3]
      (firstFunction desc) := by
  intro desc h
  obtain ⟨code, s₁, hrun⟩ :=
    argsRun_literals [1, 2, 3] (s := firstFunction desc) (takes_new (by decide))
  exact h.walkable (firstFunction_found desc) hrun

/-! ## Arguments against parameters -/

/-- The code of arguments that have the types of the parameters, or are converted to them. -/
inductive ArgsMatch (vars : Vars) : List Expr → List (CStr × CStr) → List Instr → Prop
  | nil : ArgsMatch vars [] [] []
  | cons {arg : Expr} {param : CStr × CStr} {args : List Expr} {params : List (CStr × CStr)}
      {code : List Instr} {r d : Rep} :
      valueRep vars arg = some r → namedType param.2 = d.type → r = d ∨ r = .int ∧ d = .float →
      ArgsMatch vars args params code →
      ArgsMatch vars (arg :: args) (param :: params) (valueCode vars arg ++ castCode r d ++ code)

/-- The arguments are values of the types of the parameters. -/
def TypesMatch (vars : Vars) (args : List Expr) (params : List (CStr × CStr)) : Prop :=
  List.Forall₂ (fun arg param => ∃ r, valueRep vars arg = some r ∧ namedType param.2 = r.type)
    args params

/-- Wherever the code of the arguments gets to its end, all that `OPCODE_CALL` copies from below
the stack pointer are words that the code has pushed. -/
def CopiesArguments (host : Host) (vm : Vm) (code : List Instr) (index : UInt16) : Prop :=
  ∀ (frame : Frame) (m : MachineState), (vmIsa host).runStraight code frame = .ok m.current.frame →
    ∃ own, m.current.frame.stack = own ++ frame.stack ∧
      ∀ handle, vm.callHandle index = .ok handle → handle.argSize.toNat ≤ 4 * own.length ∧
        ∀ m', vmExecuteOpcodeCall host vm m (htobe16 index) = .ok m' → ∃ more,
          m'.current.frame.locals = (own.take (handle.argSize.toNat / 4)).reverse ++ more

/-- The call succeeds only with the code of arguments that match the parameters of the function, and
then the machine copies no word but these arguments; and a call whose arguments compile but do not
match is refused. -/
def CallMatched (host : Host) (fuel : ℕ) (name : CStr) (desc : FuncDesc) (first : Expr)
    (rest : List Expr) (s : CompilerState) (vm : Vm) : Prop :=
  (∀ s', callResult fuel name first rest s = .ok 0 s' →
    ∃ code index, ArgsMatch s.chain.vars (first :: rest) desc.args code ∧
      Appended s (encodeAll code ++ opcodeCall :: htobe16 index) s' ∧
      CopiesArguments host vm code index) ∧
  ∀ bytes s₁, ArgsRun fuel s (first :: rest) bytes s₁ →
    (¬ ∃ code, ArgsMatch s.chain.vars (first :: rest) desc.args code) →
    Refused (callResult fuel name first rest s)

/-- There are variables with which the machine gets behind the arguments. -/
def Evaluable (host : Host) (vars : Vars) (args : List Expr) : Prop :=
  ∃ frame frame', (vmIsa host).runStraight (args.flatMap (valueCode vars)) frame = .ok frame'

section

variable {host : Host}

/-- Arguments that get to their end have pushed one word each. -/
lemma runStraight_args {vars : Vars} {args : List Expr} {frame frame' : Frame}
    (hvalues : ∀ arg ∈ args, ValueExpr vars arg)
    (h : (vmIsa host).runStraight (args.flatMap (valueCode vars)) frame = .ok frame') :
    ∃ own, own.length = args.length ∧ frame'.stack = own ++ frame.stack := by
  induction args generalizing frame with
  | nil =>
    cases h
    exact ⟨[], rfl, rfl⟩
  | cons arg args ih =>
    rw [List.flatMap_cons, JumpIsa.runStraight_append_eq_ok] at h
    obtain ⟨f₁, hfirst, hrest⟩ := h
    obtain ⟨r, hr⟩ := Option.isSome_iff_exists.mp (hvalues arg (by simp))
    obtain ⟨w, rfl⟩ := runStraight_pushes hr hfirst
    obtain ⟨own, hlen, hstack⟩ := ih (fun a ha => hvalues a (by simp [ha])) hrest
    refine ⟨own ++ [w], by simp [hlen], ?_⟩
    rw [hstack, Frame.push_stack, List.append_assoc]
    rfl

/-- Only arguments are copied exactly if the function that is found takes no more words than there
are arguments. -/
lemma copiesArguments_iff {vm : Vm} {vars : Vars} {args : List Expr} {index : UInt16}
    {found : FuncHandle} (hvalues : ∀ arg ∈ args, ValueExpr vars arg)
    (hfound : vm.callHandle index = .ok found) :
    CopiesArguments host vm (args.flatMap (valueCode vars)) index ↔
      (Evaluable host vars args → found.argSize.toNat ≤ 4 * args.length) := by
  constructor
  · intro h hevaluable
    obtain ⟨frame, frame', hrun⟩ := hevaluable
    obtain ⟨own, hstack, hown⟩ := h frame ⟨⟨[], 0, frame'⟩, []⟩ hrun
    obtain ⟨own', hlen, hstack'⟩ := runStraight_args hvalues hrun
    obtain rfl := List.append_cancel_right (hstack.symm.trans hstack')
    rw [← hlen]
    exact (hown found hfound).1
  · intro h frame m hrun
    obtain ⟨own, hlen, hstack⟩ := runStraight_args hvalues hrun
    have hsize := h ⟨frame, _, hrun⟩
    refine ⟨own, hstack, fun handle hhandle => ?_⟩
    obtain rfl := Except.ok.inj (hfound.symm.trans hhandle)
    refine ⟨by rw [hlen]; exact hsize, fun m' hcall => ?_⟩
    obtain ⟨offset, handle, hoffset, hhandle', -, -, -, rfl⟩ := vmExecuteOpcodeCall_eq_ok hcall
    have hread := readOffset_htobe16 index []
    rw [List.append_nil, hoffset] at hread
    obtain rfl := Except.ok.inj hread
    rw [UInt16.ofNat_toNat, hfound] at hhandle'
    obtain rfl := Except.ok.inj hhandle'
    have hcopied : m.current.frame.stack.take (found.argSize.toNat / 4)
        = own.take (found.argSize.toNat / 4) := by
      rw [hstack, List.take_append_of_le_length (by omega)]
    rw [← hcopied]
    exact ⟨_, rfl⟩

end

/-- Values append their code. -/
lemma ArgsRun.values {fuel : ℕ} {args : List Expr} {bytes : List UInt8} {s s₁ : CompilerState}
    {vars : Vars} (h : ArgsRun fuel s args bytes s₁) (hsees : s.chain.Sees vars)
    (hu : ∀ arg ∈ args, arg.Untraced) (hvalues : ∀ arg ∈ args, ValueExpr vars arg) :
    Appended s (encodeAll (args.flatMap (valueCode vars))) s₁ := by
  induction h with
  | nil => exact ⟨[], _, [], Advanced.refl _, rfl⟩
  | @cons s s₂ s₁ arg args ret code rest hcompile _ _ ih =>
    obtain ⟨r, hr⟩ := Option.isSome_iff_exists.mp (hvalues arg (by simp))
    obtain ⟨-, he⟩ := (compiles_value (hu arg (by simp)) hr).1 fuel s s₂ ret hsees hcompile
    rw [List.flatMap_cons, encodeAll_append]
    exact he.appended.trans (ih (Emitted.sees he hsees) (fun a ha => hu a (by simp [ha]))
      fun a ha => hvalues a (by simp [ha]))

lemma ArgsMatch.values {vars : Vars} {args : List Expr} {params : List (CStr × CStr)}
    {code : List Instr} (h : ArgsMatch vars args params code) :
    ∀ arg ∈ args, ValueExpr vars arg := by
  induction h with
  | nil => simp
  | cons hr _ _ _ ih =>
    intro a ha
    rcases List.mem_cons.mp ha with rfl | ha
    · exact Option.isSome_iff_exists.mpr ⟨_, hr⟩
    · exact ih a ha

/-- Without a conversion there is nothing but the code of the arguments. -/
lemma TypesMatch.argsMatch {vars : Vars} {args : List Expr} {params : List (CStr × CStr)}
    (h : TypesMatch vars args params) :
    ArgsMatch vars args params (args.flatMap (valueCode vars)) := by
  induction h with
  | nil => exact .nil
  | @cons arg param args params hmatch _ ih =>
    obtain ⟨r, hr, hparam⟩ := hmatch
    have hcons := ArgsMatch.cons hr hparam (.inl rfl) ih
    rw [castCode, if_pos rfl, List.append_nil] at hcons
    exact hcons

/-- Code that is no longer than that of the arguments has no conversion in it. -/
lemma ArgsMatch.types {vars : Vars} {args : List Expr} {params : List (CStr × CStr)}
    {code : List Instr} (h : ArgsMatch vars args params code) :
    codeSize (args.flatMap (valueCode vars)) ≤ codeSize code ∧
      (codeSize code = codeSize (args.flatMap (valueCode vars)) → TypesMatch vars args params) := by
  induction h with
  | nil => exact ⟨le_refl _, fun _ => .nil⟩
  | @cons arg param args params code r d hr hparam hcast _ ih =>
    obtain ⟨hle, htypes⟩ := ih
    rw [List.flatMap_cons, codeSize_append, codeSize_append, codeSize_append]
    refine ⟨by omega, fun hsize => ?_⟩
    have hrd : r = d := by
      by_contra hne
      have hlen : codeSize (castCode r d) = 1 := by
        rw [castCode, if_neg hne]
        exact rfl
      omega
    exact .cons ⟨r, hr, hrd ▸ hparam⟩ (htypes (by omega))

/-- The arguments and the parameters decide on the code. -/
lemma ArgsMatch.unique {vars : Vars} {args : List Expr} {params : List (CStr × CStr)}
    {code code' : List Instr} (h : ArgsMatch vars args params code)
    (h' : ArgsMatch vars args params code') : code = code' := by
  induction h generalizing code' with
  | nil =>
    cases h'
    rfl
  | @cons _ _ _ _ _ r d hr hparam _ _ ih =>
    cases h' with
    | @cons _ _ _ _ _ r' d' hr' hparam' _ hrest =>
      obtain rfl := Option.some.inj (hr.symm.trans hr')
      have hd : d = d' := by
        have htype := hparam.symm.trans hparam'
        cases d <;> cases d' <;> first | rfl | cases htype
      rw [hd, ih hrest]

/-- A call that is walked through and matched has arguments of the types of the parameters. -/
lemma CallMatched.types {host : Host} {fuel : ℕ} {name : CStr} {desc : FuncDesc} {first : Expr}
    {rest : List Expr} {bytes : List UInt8} {s s₁ : CompilerState} {vm : Vm}
    (h : CallMatched host fuel name desc first rest s vm)
    (hfunc : hashmapGet id s.globalFuncMap name = some desc)
    (htakes : s.chain.scope.emitter.Takes) (hu : ∀ arg ∈ first :: rest, arg.Untraced)
    (hrun : ArgsRun fuel s (first :: rest) bytes s₁) (hwalk : Walkable (first :: rest)) :
    TypesMatch s.chain.vars (first :: rest) desc.args ∧
      CopiesArguments host vm ((first :: rest).flatMap (valueCode s.chain.vars))
        (s.callIndex name) := by
  obtain ⟨s', hcall, happended⟩ := callResult_walkable hfunc htakes hwalk hrun
  obtain ⟨code, index, hmatch, happended', hcopies⟩ := h.1 s' hcall
  have hbytes := happended.unique htakes happended'
  have hvalues := hrun.appended.unique htakes
    (hrun.values (sees_vars s.chain) hu hmatch.values)
  rw [hvalues] at hbytes
  -- a conversion would be one byte more
  have htypes : TypesMatch s.chain.vars (first :: rest) desc.args := by
    apply hmatch.types.2
    have hlen := congrArg List.length hbytes
    simp only [htobe16, List.length_append, List.length_cons, List.length_nil] at hlen
    simp only [codeSize]
    omega
  refine ⟨htypes, ?_⟩
  obtain rfl := hmatch.unique htypes.argsMatch
  obtain rfl := htobe16_injective (List.cons.inj (List.append_cancel_left hbytes)).2
  exact hcopies

/-- The call is matched or refused exactly when the arguments have the types of the parameters and
the function that was registered last takes no more words, unless they do not get through: the walk,
or one of them, stops the compiler. -/
theorem call_matched_iff {host : Host} {fuel : ℕ} {name : CStr} {desc : FuncDesc} {first : Expr}
    {rest : List Expr} {s : CompilerState} {last : FuncHandle} {handles : List FuncHandle} {vm : Vm}
    (hfunc : hashmapGet id s.globalFuncMap name = some desc)
    (htakes : s.chain.scope.emitter.Takes) (hu : ∀ arg ∈ first :: rest, arg.Untraced)
    (hcomma : ∀ arg ∈ first :: rest, arg.isComma = false) (hvm : Registered (last :: handles) vm)
    (hindex : (s.callIndex name).toNat ≤ handles.length) :
    CallMatched host fuel name desc first rest s vm ↔
      (Walkable (first :: rest) → (∃ bytes s₁, ArgsRun fuel s (first :: rest) bytes s₁) →
        TypesMatch s.chain.vars (first :: rest) desc.args ∧
          (Evaluable host s.chain.vars (first :: rest) →
            last.argSize.toNat ≤ 4 * (first :: rest).length)) := by
  have hfound : vm.callHandle (s.callIndex name) = .ok last := by
    rw [← hvm.callHandle hindex, UInt16.ofNat_toNat]
  constructor
  · rintro h hwalk ⟨bytes, s₁, hrun⟩
    obtain ⟨htypes, hcopies⟩ := h.types hfunc htakes hu hrun hwalk
    exact ⟨htypes, (copiesArguments_iff htypes.argsMatch.values hfound).mp hcopies⟩
  · intro h
    refine ⟨fun s' hcall => ?_, fun bytes s₁ hrun hno => ?_⟩
    · have hwalked := hcall
      rw [callResult_eq hfunc, estate_bind_eq_ok] at hwalked
      obtain ⟨_, s₁, hargs, -⟩ := hwalked
      obtain ⟨hwalk, bytes, hrun⟩ := compileArgs_eq_ok hcomma hargs
      obtain ⟨htypes, hsize⟩ := h hwalk ⟨bytes, s₁, hrun⟩
      have hmatch := htypes.argsMatch
      obtain ⟨s₂, hcall', happended⟩ := callResult_walkable hfunc htakes hwalk hrun
      cases hcall.symm.trans hcall'
      rw [hrun.appended.unique htakes (hrun.values (sees_vars s.chain) hu hmatch.values)]
        at happended
      exact ⟨_, _, hmatch, happended, (copiesArguments_iff hmatch.values hfound).mpr hsize⟩
    · by_cases hwalk : Walkable (first :: rest)
      · exact (hno ⟨_, (h hwalk ⟨bytes, s₁, hrun⟩).1.argsMatch⟩).elim
      · rw [callResult_eq hfunc]
        exact .inl (compileArgs_panics hwalk hrun).bind

/-- A machine on which one function was registered. -/
lemma registered_one {signature : List UInt8} {argsSize : UInt16} (hfit : signature.length ≤ 4093)
    (hscan : ∀ cells, signatureArgsSize (signature.map some ++ some 0 :: cells) = .ok argsSize) :
    ∃ last vm, Registered [last] vm ∧ last.argSize = argsSize := by
  have hdata : 4 ≤ [(0 : UInt8), 2, 0, 8].length := by decide
  obtain ⟨last, vm, hreg, hsize⟩ := handlesHold_init.register (by decide) hfit hscan hdata 0
  exact ⟨last, vm, .register .init hreg, hsize⟩

/-- `f(1 + 2, 1.5)` in the body of a function `f` of an `int` and a `float`. -/
theorem call_matched_mixed :
    let desc : FuncDesc := ⟨[102], [([120], intName), ([121], floatName)],
      [102, 40, 73, 70, 41, 86]⟩
    ∃ last vm, Registered [last] vm ∧ CallMatched zeroHost 2 [102] desc
      (.binaryOp .unknwn .addition (.literalInt 1) (.literalInt 2)) [.literalFloat 0x3FC00000]
      (firstFunction desc) vm := by
  intro desc
  have hscan : ∀ cells, signatureArgsSize (desc.signature.map some ++ some 0 :: cells) = .ok 8 :=
    fun _ => rfl
  obtain ⟨last, vm, hvm, hsize⟩ := registered_one (by decide) hscan
  refine ⟨last, vm, hvm, (call_matched_iff (firstFunction_found desc) (takes_new (by decide)) ?_ ?_
    hvm ?_).mpr fun _ _ => ⟨.cons ⟨.int, rfl, rfl⟩ (.cons ⟨.float, rfl, rfl⟩ .nil), fun _ => ?_⟩⟩
  · simp [Expr.Untraced]
  · simp [Expr.isComma]
  · decide +kernel
  · rw [hsize]
    decide

/-- `f(1, 2)` in the body of a function `f` of one `int` is compiled. -/
theorem call_not_matched :
    let desc : FuncDesc := ⟨[102], [([120], intName)], [102, 40, 73, 41, 86]⟩
    (∃ s', callResult 1 [102] (.literalInt 1) [.literalInt 2] (firstFunction desc) = .ok 0 s') ∧
      ∃ last vm, Registered [last] vm ∧ last.argSize = 4 ∧
        ¬ CallMatched zeroHost 1 [102] desc (.literalInt 1) [.literalInt 2]
          (firstFunction desc) vm := by
  intro desc
  have htakes : (firstFunction desc).chain.scope.emitter.Takes := takes_new (by decide)
  obtain ⟨bytes, s₁, hrun⟩ := argsRun_literals [1, 2] htakes
  have hwalk : Walkable [.literalInt 1, .literalInt 2] := rfl
  obtain ⟨s', hcall, -⟩ := callResult_walkable (firstFunction_found desc) htakes hwalk hrun
  have hscan : ∀ cells, signatureArgsSize (desc.signature.map some ++ some 0 :: cells) = .ok 4 :=
    fun _ => rfl
  obtain ⟨last, vm, hvm, hsize⟩ := registered_one (by decide) hscan
  refine ⟨⟨s', hcall⟩, last, vm, hvm, hsize, fun h => ?_⟩
  obtain ⟨htypes, -⟩ := h.types (firstFunction_found desc) htakes (by simp [Expr.Untraced]) hrun hwalk
  cases htypes with
  | cons _ hrest => cases hrest

end PhantomShell
