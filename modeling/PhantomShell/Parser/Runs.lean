import PhantomShell.Parser.Nodes

/-!
# Runs of derivations

What a run of a derivation that ends consists of, production by production. The expression of a
statement is where it was made, so that the pointer to it is known.
-/

namespace PhantomShell

/-- The state behind the expression and the flush of a statement. -/
def ParserState.flushed (s : ParserState) (e : Expression) (f : Flush) : ParserState :=
  { s with
    lexer := lexerHandle (some f.token) s.lexer
    ahead := false
    nodes := s.nodes ++ e.nodes s.nodes.length }

/-- The state behind `RETURN` and an expression. -/
def ParserState.returned (s : ParserState) (e : Expression) (next : Option Token) : ParserState :=
  { s with
    lexer := lexerHandle next (s.lexed (some .keywordReturn))
    ahead := true
    nodes := s.nodes ++ e.nodes s.nodes.length }

/-- The state behind `SWITCH`, an expression and the brace. -/
def ParserState.switched (s : ParserState) (e : Expression) : ParserState :=
  (s.header .keywordSwitch e).shifted .braceOpen

/-- The state behind `FUNC`, a name and the parenthesis. -/
def ParserState.named (s : ParserState) (name : CStr) : ParserState :=
  ((s.shifted .keywordFunc).shifted (.identifier name)).shifted .parenOpen

/-- The state behind a function. -/
def ParserState.declared (s : ParserState) (name : CStr) (retType : Option CStr) (args body : Ptr) :
    ParserState :=
  { s with
    lexer := { s.lexer with isInsideFunc := false }
    nodes := s.nodes ++ [.declFunc name retType args body]
    compiled := s.compiled ++ [s.nodes.length] }

/-- A run that ends, with the pointer it gives. -/
inductive Runs : {symbol : Nonterminal} → Derivation symbol → Option Token → ParserState → Ptr →
    ParserState → Prop
  | scope {f : Option Flush} {stats : Derivation .statements} {next : Option Token}
      {s s₁ s₂ : ParserState} {p : Ptr}
      (hflush : shiftFlush f (firstToken stats.yield (some .braceClose)) (s.shifted .braceOpen) =
        some ((), s₁))
      (hstats : Runs stats (some .braceClose) s₁ p s₂) :
      Runs (.scope f stats) next s (some (s₂.shifted .braceClose).nodes.length)
        ((s₂.shifted .braceClose).push [.scope p])
  | empty {next : Option Token} {s : ParserState} :
      Runs .empty next s (some s.nodes.length) (s.push [.statList 0 none none])
  | link {stats : Derivation .statements} {stat : Derivation .statement} {next : Option Token}
      {s s₁ s₂ : ParserState} {i j size : ℕ} {first last : Ptr}
      (hstats : Runs stats (firstToken stat.yield next) s (some i) s₁)
      (hi : s₁.nodes[i]? = some (.statList size first last))
      (hstat : Runs stat next s₁ (some j) s₂) :
      Runs (.link stats stat) next s (some i)
        { s₂.peeked next with nodes := linkNodes s₂.nodes i j size first last }
  | expression {e : Expression} {f : Flush} {next : Option Token} {s s' : ParserState} {p : Ptr}
      (hclose : (s.flushed e f).close (.statExpr none (e.cast (s.nodes.length + e.own))) 0 0 =
        (p, s')) :
      Runs (.expression e f) next s p s'
  | block {body : Derivation .scope} {next : Option Token} {s s' : ParserState} {p : Ptr}
      (hbody : Runs body next s p s') : Runs (.block body) next s p s'
  | ifThen {e : Expression} {trueScope : Derivation .scope} {next : Option Token}
      {s s₁ s' : ParserState} {p₁ p : Ptr} (htrue : Runs trueScope next (s.header .keywordIf e) p₁ s₁)
      (hclose : (s₁.peeked next).close
        (.statIf none (e.cast (s.nodes.length + e.own)) p₁ none) 1 0 = (p, s')) :
      Runs (.ifThen e trueScope) next s p s'
  | ifElse {e : Expression} {trueScope falseScope : Derivation .scope} {next : Option Token}
      {s s₁ s₂ s' : ParserState} {p₁ p₂ p : Ptr}
      (htrue : Runs trueScope (some .keywordElse) (s.header .keywordIf e) p₁ s₁)
      (hfalse : Runs falseScope next (s₁.shifted .keywordElse) p₂ s₂)
      (hclose : s₂.close (.statIf none (e.cast (s.nodes.length + e.own)) p₁ p₂) 1 0 = (p, s')) :
      Runs (.ifElse e trueScope falseScope) next s p s'
  | ifElif {e : Expression} {trueScope : Derivation .scope} {elifs : Derivation .elifSelectionBlock}
      {next : Option Token} {s s₁ s₂ s' : ParserState} {p₁ p₂ p : Ptr}
      (htrue : Runs trueScope (some .keywordElif) (s.header .keywordIf e) p₁ s₁)
      (helifs : Runs elifs next s₁ p₂ s₂)
      (hclose : s₂.close (.statIf none (e.cast (s.nodes.length + e.own)) p₁ p₂) 1 0 = (p, s')) :
      Runs (.ifElif e trueScope elifs) next s p s'
  | switch {e : Expression} {f : Option Flush} {choices : Derivation .switchSelectionBlock}
      {next : Option Token} {s s₁ s₂ : ParserState} {p : Ptr}
      (hflush : shiftFlush f (firstToken choices.yield none) (s.switched e) = some ((), s₁))
      (hchoices : Runs choices (some .braceClose) s₁ p s₂) :
      Runs (.switch e f choices) next s (some (s₂.shifted .braceClose).nodes.length)
        ((s₂.shifted .braceClose).push [.statSwitch none (some (s.nodes.length + e.own)) p])
  | while {e : Expression} {loopScope : Derivation .scope} {next : Option Token}
      {s s₁ s' : ParserState} {p₁ p : Ptr}
      (hloop : Runs loopScope next (s.header .keywordWhile e) p₁ s₁)
      (hclose : s₁.close (.statWhile none (e.cast (s.nodes.length + e.own)) p₁) 0 1 = (p, s')) :
      Runs (.while e loopScope) next s p s'
  | ret {e : Expression} {next : Option Token} {s : ParserState} :
      Runs (.ret e) next s (some (s.returned e next).nodes.length)
        ((s.returned e next).push [.statRet none (e.cast (s.nodes.length + e.own))])
  | func {name : CStr} {args : FuncArgList} {retType : Option CStr} {body : Derivation .scope}
      {next : Option Token} {s s₁ s₂ s₃ s₄ : ParserState} {p₁ p₂ : Ptr}
      (hargs : args.yield.forM shift (s.named name) = some ((), s₁))
      (hreduce : args.reduce s₁ = some (p₁, s₂))
      (hret : (retType.forM fun t => shift (.identifier t)) (s₂.shifted .parenClose) = some ((), s₃))
      (hbody : Runs body next s₃ p₂ s₄) :
      Runs (.func name args retType body) next s none (s₄.declared name retType p₁ p₂)
  | flush {stat : Derivation .statement} {f : Flush} {next : Option Token} {s s₁ : ParserState}
      {p : Ptr} (hstat : Runs stat (some f.token) s p s₁) :
      Runs (.flush stat f) next s p (s₁.shifted f.token)
  | firstChoice {value : Option ConstantExpression} {body : Derivation .scope} {next : Option Token}
      {s s₁ s₂ : ParserState} {p₁ p₂ : Ptr}
      (htokens : (choiceYield value).forM shift s = some ((), s₁))
      (hlabel : reduceLabel value s₁ = some (p₁, s₁.push (labelNodes value)))
      (hbody : Runs body next (s₁.push (labelNodes value)) p₂ s₂) :
      Runs (.firstChoice value body) next s (some s₂.nodes.length)
        (s₂.push [.statSwitchChoice p₁ p₂ none])
  | nextChoice {choices : Derivation .switchSelectionBlock} {value : Option ConstantExpression}
      {body : Derivation .scope} {next : Option Token} {s s₁ s₂ s₃ : ParserState} {i : ℕ}
      {p₁ p₂ : Ptr}
      (hchoices : Runs choices (firstToken (choiceYield value) none) s (some i) s₁)
      (htokens : (choiceYield value).forM shift s₁ = some ((), s₂))
      (hlabel : reduceLabel value s₂ = some (p₁, s₂.push (labelNodes value)))
      (hbody : Runs body next (s₂.push (labelNodes value)) p₂ s₃) :
      Runs (.nextChoice choices value body) next s (some i)
        { s₃ with
          nodes := (s₃.nodes ++ [AstNode.statSwitchChoice p₁ p₂ none]).modify i
            (.setNextChoice (some s₃.nodes.length)) }
  | elifThen {e : Expression} {trueScope : Derivation .scope} {next : Option Token}
      {s s₁ s' : ParserState} {p₁ p : Ptr}
      (htrue : Runs trueScope next (s.header .keywordElif e) p₁ s₁)
      (hclose : (s₁.peeked next).close
        (.statIf none (e.cast (s.nodes.length + e.own)) p₁ none) 1 0 = (p, s')) :
      Runs (.elifThen e trueScope) next s p s'
  | elifElif {e : Expression} {trueScope : Derivation .scope}
      {elifs : Derivation .elifSelectionBlock} {next : Option Token} {s s₁ s₂ s' : ParserState}
      {p₁ p₂ p : Ptr} (htrue : Runs trueScope (some .keywordElif) (s.header .keywordElif e) p₁ s₁)
      (helifs : Runs elifs next s₁ p₂ s₂)
      (hclose : s₂.close (.statIf none (e.cast (s.nodes.length + e.own)) p₁ p₂) 1 0 = (p, s')) :
      Runs (.elifElif e trueScope elifs) next s p s'
  | elifElse {e : Expression} {trueScope falseScope : Derivation .scope} {next : Option Token}
      {s s₁ s₂ s' : ParserState} {p₁ p₂ p : Ptr}
      (htrue : Runs trueScope (some .keywordElse) (s.header .keywordElif e) p₁ s₁)
      (hfalse : Runs falseScope next (s₁.shifted .keywordElse) p₂ s₂)
      (hclose : s₂.close (.statIf none (e.cast (s.nodes.length + e.own)) p₁ p₂) 1 0 = (p, s')) :
      Runs (.elifElse e trueScope falseScope) next s p s'

/-- A choice has a node. -/
lemma run_choices_isSome : ∀ {choices : Derivation .switchSelectionBlock} {next : Option Token}
    {s s' : ParserState} {p : Ptr}, choices.run next s = some (p, s') → ∃ i, p = some i
  | .firstChoice value body, next, s, s', p, h => by
    obtain ⟨⟨⟩, s₁, -, h⟩ := parserM_bind_eq_some.mp h
    obtain ⟨p₁, s₂, -, h⟩ := parserM_bind_eq_some.mp h
    obtain ⟨p₂, s₃, -, h⟩ := parserM_bind_eq_some.mp h
    cases h
    exact ⟨_, rfl⟩
  | .nextChoice choices value body, next, s, s', p, h => by
    obtain ⟨p₁, s₁, hchoices, h⟩ := parserM_bind_eq_some.mp h
    obtain ⟨i, rfl⟩ := run_choices_isSome hchoices
    obtain ⟨⟨⟩, s₂, -, h⟩ := parserM_bind_eq_some.mp h
    obtain ⟨p₂, s₃, -, h⟩ := parserM_bind_eq_some.mp h
    obtain ⟨p₃, s₄, -, h⟩ := parserM_bind_eq_some.mp h
    cases h
    exact ⟨i, rfl⟩

lemma Derivation.runs_of_run {symbol : Nonterminal} {d : Derivation symbol} {next : Option Token}
    {s s' : ParserState} {p : Ptr} (h : d.run next s = some (p, s')) : Runs d next s p s' := by
  induction d generalizing next s s' p with
  | scope f stats ih =>
    obtain ⟨s₁, hflush, -⟩ :=
      shiftFlush_eq f (firstToken stats.yield (some .braceClose)) (s.shifted .braceOpen)
    rw [Derivation.run, parserM_bind_of (shift_eq _ s), parserM_bind_of hflush] at h
    obtain ⟨p₁, s₂, hstats, h⟩ := parserM_bind_eq_some.mp h
    rw [parserM_bind_of (shift_eq _ s₂), astNewNodeScope, newNode_push] at h
    cases h
    exact .scope hflush (ih hstats)
  | empty =>
    cases h
    exact .empty
  | link stats stat ihstats ihstat =>
    obtain ⟨p₁, s₁, hstats, h⟩ := parserM_bind_eq_some.mp h
    obtain ⟨p₂, s₂, hstat, h⟩ := parserM_bind_eq_some.mp h
    -- the node of the list has not been written to by the statement that is linked
    obtain ⟨-, -, hlist⟩ := Derivation.run_extends hstats
    obtain ⟨i, size, first, last, rfl, hi, -⟩ := hlist rfl
    obtain ⟨hext, -⟩ := Derivation.run_extends hstat
    rw [parserM_bind_of (peek_eq next s₂)] at h
    obtain ⟨i', j, size', first', last', heq, rfl, hi', rfl, rfl⟩ := astLinkNodeStatList_eq_some h
    cases heq
    cases Option.some.inj ((hext.getElem? hi).symm.trans hi')
    exact .link (ihstats hstats) hi (ihstat hstat)
  | expression e f =>
    rw [Derivation.run, parserM_bind_of (e.run_eq (some f.token) s), parserM_bind_of (shift_eq _ _),
      astNewNodeStatExpr_eq (e.nodeUpcastExpr_extends (.refl _))] at h
    exact .expression (Option.some.inj h)
  | block body ih => exact .block (ih h)
  | ifThen e trueScope ih =>
    rw [Derivation.run, run_header] at h
    obtain ⟨p₁, s₁, htrue, h⟩ := parserM_bind_eq_some.mp h
    have hcast := e.nodeUpcastExpr_extends (s := s₁.peeked next) (Derivation.run_extends htrue).1
    rw [parserM_bind_of (peek_eq next s₁), astNewNodeStatIf_eq hcast] at h
    exact .ifThen (ih htrue) (Option.some.inj h)
  | elifThen e trueScope ih =>
    rw [Derivation.run, run_header] at h
    obtain ⟨p₁, s₁, htrue, h⟩ := parserM_bind_eq_some.mp h
    have hcast := e.nodeUpcastExpr_extends (s := s₁.peeked next) (Derivation.run_extends htrue).1
    rw [parserM_bind_of (peek_eq next s₁), astNewNodeStatIf_eq hcast] at h
    exact .elifThen (ih htrue) (Option.some.inj h)
  | ifElse e trueScope falseScope iht ihf | elifElse e trueScope falseScope iht ihf =>
    rw [Derivation.run, run_header] at h
    obtain ⟨p₁, s₁, htrue, h⟩ := parserM_bind_eq_some.mp h
    rw [parserM_bind_of (shift_eq _ s₁)] at h
    obtain ⟨p₂, s₂, hfalse, h⟩ := parserM_bind_eq_some.mp h
    have hext := (Derivation.run_extends htrue).1.trans_length (Derivation.run_extends hfalse).1 le_rfl
    rw [astNewNodeStatIf_eq (e.nodeUpcastExpr_extends hext)] at h
    first
      | exact .ifElse (iht htrue) (ihf hfalse) (Option.some.inj h)
      | exact .elifElse (iht htrue) (ihf hfalse) (Option.some.inj h)
  | ifElif e trueScope elifs iht ihf | elifElif e trueScope elifs iht ihf =>
    rw [Derivation.run, run_header] at h
    obtain ⟨p₁, s₁, htrue, h⟩ := parserM_bind_eq_some.mp h
    obtain ⟨p₂, s₂, helifs, h⟩ := parserM_bind_eq_some.mp h
    have hext := (Derivation.run_extends htrue).1.trans_length (Derivation.run_extends helifs).1 le_rfl
    rw [astNewNodeStatIf_eq (e.nodeUpcastExpr_extends hext)] at h
    first
      | exact .ifElif (iht htrue) (ihf helifs) (Option.some.inj h)
      | exact .elifElif (iht htrue) (ihf helifs) (Option.some.inj h)
  | switch e f choices ih =>
    rw [Derivation.run, run_header] at h
    obtain ⟨s₁, hflush, -⟩ := shiftFlush_eq f (firstToken choices.yield none) (s.switched e)
    rw [parserM_bind_of (shift_eq _ _)] at h
    change (shiftFlush f (firstToken choices.yield none) >>= _) (s.switched e) = _ at h
    rw [parserM_bind_of hflush] at h
    obtain ⟨p₁, s₂, hchoices, h⟩ := parserM_bind_eq_some.mp h
    rw [parserM_bind_of (shift_eq _ s₂), astNewNodeStatSwitch, newNode_push] at h
    cases h
    exact .switch hflush (ih hchoices)
  | «while» e loopScope ih =>
    rw [Derivation.run, run_header] at h
    obtain ⟨p₁, s₁, hloop, h⟩ := parserM_bind_eq_some.mp h
    have hcast := e.nodeUpcastExpr_extends (Derivation.run_extends hloop).1
    rw [astNewNodeStatWhile_eq hcast] at h
    exact .while (ih hloop) (Option.some.inj h)
  | ret e =>
    rw [Derivation.run, parserM_bind_of (shift_eq _ s), parserM_bind_of (e.run_eq next _),
      astNewNodeStatRet_eq (e.nodeUpcastExpr_extends (.refl _))] at h
    cases h
    exact .ret
  | func name args retType body ih =>
    rw [Derivation.run, parserM_bind_of (shift_eq _ s), parserM_bind_of (shift_eq _ _),
      parserM_bind_of (shift_eq _ _)] at h
    obtain ⟨⟨⟩, s₁, hargs, h⟩ := parserM_bind_eq_some.mp h
    obtain ⟨p₁, s₂, hreduce, h⟩ := parserM_bind_eq_some.mp h
    rw [parserM_bind_of (shift_eq _ s₂)] at h
    obtain ⟨⟨⟩, s₃, hret, h⟩ := parserM_bind_eq_some.mp h
    obtain ⟨p₂, s₄, hbody, h⟩ := parserM_bind_eq_some.mp h
    cases h
    exact .func hargs hreduce hret (ih hbody)
  | flush stat f ih =>
    obtain ⟨p₁, s₁, hstat, h⟩ := parserM_bind_eq_some.mp h
    cases h
    exact .flush (ih hstat)
  | firstChoice value body ih =>
    obtain ⟨⟨⟩, s₁, htokens, h⟩ := parserM_bind_eq_some.mp h
    obtain ⟨p₁, hlabel⟩ := reduceLabel_eq value s₁
    rw [parserM_bind_of hlabel] at h
    obtain ⟨p₂, s₂, hbody, h⟩ := parserM_bind_eq_some.mp h
    cases h
    exact .firstChoice htokens hlabel (ih hbody)
  | nextChoice choices value body ihchoices ih =>
    obtain ⟨p₁, s₁, hchoices, h⟩ := parserM_bind_eq_some.mp h
    -- `ast_new_node_stat_switch_choice` looks at the pointer, which is not null
    obtain ⟨i, rfl⟩ := run_choices_isSome hchoices
    obtain ⟨⟨⟩, s₂, htokens, h⟩ := parserM_bind_eq_some.mp h
    obtain ⟨p₂, hlabel⟩ := reduceLabel_eq value s₂
    rw [parserM_bind_of hlabel] at h
    obtain ⟨p₃, s₃, hbody, h⟩ := parserM_bind_eq_some.mp h
    cases h
    exact .nextChoice (ihchoices hchoices) htokens hlabel (ih hbody)

end PhantomShell
