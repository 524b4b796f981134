import PhantomShell.Parser.Nodes

/-!
# Nesting

The keywords of a statement count in the lexer, its reduction counts back, and a statement is compiled
when nothing is left. By then the token behind it may have been read, which can be a keyword too.
-/

namespace PhantomShell

/-! ## Inside and outside -/

/-- Before the first statement. -/
def LexerState.outside : LexerState := ⟨false, 0, 0⟩

/-- A function, a selection or an iteration is open. -/
def LexerState.Inside (l : LexerState) : Prop :=
  l.isInsideFunc = true ∨ 1 ≤ l.isInsideSelectionStat ∨ 1 ≤ l.isInsideIterationStat

lemma LexerState.Inside.isOutside_eq_false {l : LexerState} {a b : ℤ} (h : (l.leave a b).Inside) :
    l.isOutside a b = false := by
  simp only [LexerState.isOutside, Bool.and_eq_false_iff, Bool.not_eq_false', beq_eq_false_iff_ne]
  rcases h with h | h | h
  · exact .inl (.inl h)
  · exact .inl (.inr (ne_of_gt h))
  · exact .inr (ne_of_gt h)

/-- A token only opens. -/
lemma lexerHandleKeyword_le (t : Token) (l : LexerState) :
    l.isInsideFunc ≤ (lexerHandleKeyword t l).isInsideFunc ∧
      l.isInsideSelectionStat ≤ (lexerHandleKeyword t l).isInsideSelectionStat ∧
      l.isInsideIterationStat ≤ (lexerHandleKeyword t l).isInsideIterationStat := by
  fun_cases lexerHandleKeyword t l <;> simp [Bool.le_true]

lemma LexerState.Inside.lexerHandleKeyword {l : LexerState} (h : l.Inside) (t : Token) :
    (lexerHandleKeyword t l).Inside := by
  obtain ⟨hfunc, hselection, hiteration⟩ := lexerHandleKeyword_le t l
  rcases h with h | h | h
  · exact .inl (hfunc h)
  · exact .inr (.inl (h.trans hselection))
  · exact .inr (.inr (h.trans hiteration))

lemma LexerState.Inside.lexerHandle {l : LexerState} (h : l.Inside) (next : Option Token) :
    (lexerHandle next l).Inside := by
  cases next with
  | none => exact h
  | some t => exact h.lexerHandleKeyword t

/-- What a keyword counts is counted back, also when one more has been read. -/
lemma lexerHandle_leave_if (next : Option Token) (l : LexerState) :
    (lexerHandle next (lexerHandleKeyword .keywordIf l)).leave 1 0 = lexerHandle next l := by
  cases next with
  | none => simp [lexerHandle, lexerHandleKeyword, LexerState.leave]
  | some t =>
    simp only [lexerHandle]
    fun_cases lexerHandleKeyword t l <;> simp [lexerHandleKeyword, LexerState.leave]

lemma leave_if (l : LexerState) : (lexerHandleKeyword .keywordIf l).leave 1 0 = l := by
  simp [lexerHandleKeyword, LexerState.leave]

lemma leave_while (l : LexerState) : (lexerHandleKeyword .keywordWhile l).leave 0 1 = l := by
  simp [lexerHandleKeyword, LexerState.leave]

/-! ## The token behind -/

/-- The lexer's state is this one, but for the next token if it has been read. -/
def ParserState.At (s : ParserState) (l : LexerState) (next : Option Token) : Prop :=
  s.lexer = if s.ahead then lexerHandle next l else l

lemma ParserState.At.lexed {s : ParserState} {l : LexerState} {next : Option Token}
    (h : s.At l next) : s.lexed next = lexerHandle next l := by
  rw [ParserState.At] at h
  rw [ParserState.lexed]
  split
  · next hahead => rw [h, if_pos hahead]
  · next hahead => rw [h, if_neg hahead]

lemma ParserState.At.quiet {s : ParserState} {l : LexerState} {t : Token} (h : s.At l (some t))
    (ht : t.Quiet) : s.lexer = l := by
  rw [ParserState.At] at h
  split at h
  · exact h.trans (ht l)
  · exact h

lemma ParserState.at_of_ahead_eq_false {s : ParserState} {l : LexerState} (next : Option Token)
    (hahead : s.ahead = false) (hs : s.lexer = l) : s.At l next := by
  rw [ParserState.At, hahead]
  exact hs

lemma ParserState.at_of_quiet {s : ParserState} {l : LexerState} {t : Token} (ht : t.Quiet)
    (hs : s.lexer = l) : s.At l (some t) := by
  rw [ParserState.At, hs]
  split
  · exact (ht l).symm
  · rfl

lemma ParserState.At.peeked {s : ParserState} {l : LexerState} {next : Option Token}
    (h : s.At l next) : (s.peeked next).At l next := by
  rw [ParserState.At, ParserState.peeked, if_pos rfl]
  exact h.lexed

lemma firstToken_append (l r : List Token) (next : Option Token) :
    firstToken (l ++ r) next = firstToken l (firstToken r next) := by
  cases l <;> rfl

lemma Expression.firstToken_yield (e : Expression) (l : List Token) (next : Option Token) :
    ∃ t, firstToken (e.yield ++ l) next = some t ∧ t.Quiet := by
  have hne : e.yield ≠ [] := by
    cases e <;> simp [Expression.yield]
  obtain ⟨t, tokens, heq⟩ := List.exists_cons_of_ne_nil hne
  refine ⟨t, by rw [heq]; rfl, ?_⟩
  apply e.yield_quiet
  rw [heq]
  exact List.mem_cons_self

/-! ## What is nested -/

/-- A derivation that counts back what it counts and hands nothing to the compiler: it has no switch,
no elif and no function, and none of the statements that are compiled unless it is inside. -/
def Derivation.Nests : {symbol : Nonterminal} → Derivation symbol → Bool → Prop
  | _, .scope _ stats, inside => stats.Nests inside
  | _, .empty, _ => True
  | _, .link stats stat, inside => stats.Nests inside ∧ stat.Nests inside
  | _, .expression _ _, inside => inside = true
  | _, .block body, inside => body.Nests inside
  | _, .ifThen _ trueScope, inside => inside = true ∧ trueScope.Nests true
  | _, .ifElse _ trueScope falseScope, inside =>
    inside = true ∧ trueScope.Nests true ∧ falseScope.Nests true
  | _, .while _ loopScope, inside => inside = true ∧ loopScope.Nests true
  | _, .ret _, _ => True
  | _, .flush stat _, inside => stat.Nests inside
  | _, _, _ => False

/-- The state is as it was, but for the nodes and the token behind. -/
structure NestedRun (l : LexerState) (next : Option Token) (s s' : ParserState) : Prop where
  lexer : s'.At l next
  compiled : s'.compiled = s.compiled

lemma run_scope_ahead {body : Derivation .scope} {next : Option Token} {s s' : ParserState} {p : Ptr}
    (h : body.run next s = some (p, s')) : s'.ahead = false := by
  cases body with
  | scope f stats =>
    obtain ⟨s₁, hflush, -⟩ :=
      shiftFlush_eq f (firstToken stats.yield (some .braceClose)) (s.shifted .braceOpen)
    rw [Derivation.run, parserM_bind_of (shift_eq _ s), parserM_bind_of hflush] at h
    obtain ⟨p₁, s₂, -, h⟩ := parserM_bind_eq_some.mp h
    cases h
    rfl

/-- A scope ends in a brace. -/
lemma NestedRun.lexer_eq {l : LexerState} {next : Option Token} {s s' s₀ : ParserState}
    {body : Derivation .scope} {p : Ptr} (h : NestedRun l next s s')
    (hrun : body.run next s₀ = some (p, s')) : s'.lexer = l := by
  have hlexer := h.lexer
  rw [ParserState.At, run_scope_ahead hrun] at hlexer
  exact hlexer

lemma ParserState.close_inside {s : ParserState} {a b : ℤ} (h : (s.lexer.leave a b).Inside)
    (node : AstNode) : s.close node a b = (some s.nodes.length, { s with
      lexer := s.lexer.leave a b
      nodes := s.nodes ++ [node] }) := by
  rw [ParserState.close, h.isOutside_eq_false]
  rfl

lemma firstToken_scope (body : Derivation .scope) (next : Option Token) :
    firstToken body.yield next = some .braceOpen := by
  cases body
  rfl

/-- A keyword has been counted when its scope begins. -/
lemma ParserState.At.header {s : ParserState} {l : LexerState} {keyword : Token}
    (h : s.At l (some keyword)) (e : Expression) (body : Derivation .scope) (next : Option Token) :
    (s.header keyword e).At (lexerHandleKeyword keyword l) (firstToken body.yield next) := by
  rw [firstToken_scope]
  exact ParserState.at_of_quiet (fun _ => rfl) h.lexed

lemma ParserState.At.shifted {s : ParserState} {l : LexerState} {t : Token} (h : s.At l (some t))
    (ht : t.Quiet) (next : Option Token) : (s.shifted t).At l next :=
  ParserState.at_of_ahead_eq_false next rfl ((s.lexed_quiet ht).trans (h.quiet ht))

lemma Flush.token_quiet (f : Flush) : f.token.Quiet := by
  cases f <;> exact fun _ => rfl

/-- The list is there when its next statement has been reduced. -/
lemma link_run {stats : Derivation .statements} {stat : Derivation .statement} {next : Option Token}
    {s s₁ s₂ : ParserState} {p : Ptr} {j : ℕ}
    (hstats : stats.run (firstToken stat.yield next) s = some (p, s₁))
    (hstat : stat.run next s₁ = some (some j, s₂)) :
    ∃ i nodes, (Derivation.link stats stat).run next s =
      some (some i, { s₂.peeked next with nodes := nodes }) := by
  obtain ⟨-, -, hlist⟩ := Derivation.run_extends hstats
  obtain ⟨i, size, first, last, rfl, hi, -⟩ := hlist rfl
  obtain ⟨hext, -⟩ := Derivation.run_extends hstat
  have hlink := astLinkNodeStatList_eq (s := s₂.peeked next) (hext.getElem? hi) j
  rw [Derivation.run, parserM_bind_of hstats, parserM_bind_of hstat,
    parserM_bind_of (peek_eq next s₂), hlink]
  exact ⟨i, _, rfl⟩

/-- A derivation that nests. -/
lemma Derivation.run_nests {symbol : Nonterminal} {d : Derivation symbol} {next : Option Token}
    {s : ParserState} {l : LexerState} {inside : Bool} (hd : d.Nests inside)
    (hl : inside = true → l.Inside) (hs : s.At l (firstToken d.yield next)) :
    ∃ i s', d.run next s = some (some i, s') ∧ NestedRun l next s s' := by
  induction d generalizing next s l inside with
  | scope f stats ih =>
    obtain ⟨s₁, hflush, hs₁, hcompiled⟩ : ∃ s₁, shiftFlush f (firstToken stats.yield
        (some .braceClose)) (s.shifted .braceOpen) = some ((), s₁) ∧
        s₁.At l (firstToken stats.yield (some .braceClose)) ∧ s₁.compiled = s.compiled := by
      have hopen := hs.shifted (t := .braceOpen) (fun _ => rfl)
      cases f with
      | none => exact ⟨_, rfl, (hopen _).peeked, rfl⟩
      | some f => exact ⟨_, rfl, (hopen _).shifted f.token_quiet _, rfl⟩
    obtain ⟨i, s₂, hstats, hnested⟩ := ih hd hl hs₁
    rw [Derivation.run, parserM_bind_of (shift_eq _ s), parserM_bind_of hflush,
      parserM_bind_of hstats]
    exact ⟨_, _, rfl, hnested.lexer.shifted (fun _ => rfl) _, hnested.compiled.trans hcompiled⟩
  | empty => exact ⟨_, _, rfl, hs, rfl⟩
  | link stats stat ihstats ihstat =>
    rw [Derivation.yield, firstToken_append] at hs
    obtain ⟨i, s₁, hstats, hnested₁⟩ := ihstats hd.1 hl hs
    obtain ⟨j, s₂, hstat, hnested₂⟩ := ihstat hd.2 hl hnested₁.lexer
    obtain ⟨i, nodes, hlink⟩ := link_run hstats hstat
    exact ⟨i, _, hlink, hnested₂.lexer.peeked, hnested₂.compiled.trans hnested₁.compiled⟩
  | expression e f =>
    obtain ⟨t, ht, hquiet⟩ := e.firstToken_yield [f.token] next
    rw [Derivation.yield, ht] at hs
    have hlexer : (lexerHandle (some f.token) s.lexer).leave 0 0 = l := by
      rw [LexerState.leave_zero, hs.quiet hquiet]
      exact f.token_quiet l
    rw [Derivation.run, parserM_bind_of (e.run_eq (some f.token) s), parserM_bind_of (shift_eq _ _),
      astNewNodeStatExpr_eq (e.nodeUpcastExpr_extends (.refl _)), ParserState.close_inside]
    · exact ⟨_, _, rfl, ParserState.at_of_ahead_eq_false _ rfl hlexer, rfl⟩
    · exact hlexer ▸ hl hd
  | block body ih => exact ih hd hl hs
  | ifThen e trueScope ih =>
    obtain ⟨rfl, hd⟩ := hd
    have hl := hl rfl
    obtain ⟨i, s₁, htrue, hnested⟩ :=
      ih hd (fun _ => hl.lexerHandleKeyword .keywordIf) (hs.header e trueScope next)
    obtain ⟨hext, -⟩ := Derivation.run_extends htrue
    have hcast := e.nodeUpcastExpr_extends (s := s₁.peeked next) hext
    -- the token behind has been read, and counts, before the statement counts back
    have hlexer : (s₁.peeked next).lexer.leave 1 0 = lexerHandle next l :=
      (congrArg (·.leave 1 0) hnested.lexer.lexed).trans (lexerHandle_leave_if next l)
    rw [Derivation.run, run_header, parserM_bind_of htrue, parserM_bind_of (peek_eq next s₁),
      astNewNodeStatIf_eq hcast, ParserState.close_inside (hlexer ▸ hl.lexerHandle next)]
    refine ⟨_, _, rfl, ?_, hnested.compiled⟩
    rw [ParserState.At, hlexer]
    rfl
  | ifElse e trueScope falseScope iht ihf =>
    obtain ⟨rfl, hdt, hdf⟩ := hd
    have hl := hl rfl
    have hin := hl.lexerHandleKeyword .keywordIf
    obtain ⟨i, s₁, htrue, hnested₁⟩ :=
      iht hdt (fun _ => hin) (hs.header e trueScope (some .keywordElse))
    have helse := hnested₁.lexer.shifted (fun _ => rfl) (firstToken falseScope.yield next)
    obtain ⟨j, s₂, hfalse, hnested₂⟩ := ihf hdf (fun _ => hin) helse
    have hext := (Derivation.run_extends htrue).1.trans_length (Derivation.run_extends hfalse).1 le_rfl
    have hlexer : s₂.lexer.leave 1 0 = l := by
      rw [hnested₂.lexer_eq hfalse, leave_if]
    rw [Derivation.run, run_header, parserM_bind_of htrue, parserM_bind_of (shift_eq _ s₁),
      parserM_bind_of hfalse, astNewNodeStatIf_eq (e.nodeUpcastExpr_extends hext),
      ParserState.close_inside (hlexer ▸ hl)]
    have hahead := run_scope_ahead hfalse
    exact ⟨_, _, rfl, ParserState.at_of_ahead_eq_false _ hahead hlexer,
      hnested₂.compiled.trans hnested₁.compiled⟩
  | «while» e loopScope ih =>
    obtain ⟨rfl, hd⟩ := hd
    have hl := hl rfl
    obtain ⟨i, s₁, hloop, hnested⟩ :=
      ih hd (fun _ => hl.lexerHandleKeyword .keywordWhile) (hs.header e loopScope next)
    have hcast := e.nodeUpcastExpr_extends (Derivation.run_extends hloop).1
    have hlexer : s₁.lexer.leave 0 1 = l := by
      rw [hnested.lexer_eq hloop, leave_while]
    rw [Derivation.run, run_header, parserM_bind_of hloop, astNewNodeStatWhile_eq hcast,
      ParserState.close_inside (hlexer ▸ hl)]
    have hahead := run_scope_ahead hloop
    exact ⟨_, _, rfl, ParserState.at_of_ahead_eq_false _ hahead hlexer, hnested.compiled⟩
  | ret e =>
    have hlexer : s.lexed (some .keywordReturn) = l := hs.lexed
    rw [Derivation.run, parserM_bind_of (shift_eq _ s), parserM_bind_of (e.run_eq next _),
      astNewNodeStatRet_eq (e.nodeUpcastExpr_extends (.refl _))]
    exact ⟨_, _, rfl, congrArg (lexerHandle next) hlexer, rfl⟩
  | flush stat f ih =>
    rw [Derivation.yield, firstToken_append] at hs
    obtain ⟨i, s₁, hstat, hnested⟩ := @ih (some f.token) _ _ _ hd hl hs
    rw [Derivation.run, parserM_bind_of hstat]
    exact ⟨i, _, rfl, hnested.lexer.shifted f.token_quiet next, hnested.compiled⟩
  | ifElif | switch | func | firstChoice | nextChoice | elifThen | elifElif | elifElse => exact hd.elim

/-! ## Top level statements -/

/-- The token is not one that the lexer counts. -/
def Still (next : Option Token) : Prop := ∀ t ∈ next, t.Quiet

/-- No parameter is behind a comma without one in front. -/
def FuncArgList.Proper : FuncArgList → Prop
  | .empty => True
  | .first _ _ => True
  | .next list _ _ => list ≠ .empty ∧ list.Proper

/-- A top level statement that balances: what is inside of it nests. An `if` without an `else` and a
return are reduced when the token behind has been read, so that this is not to be a keyword. -/
def Derivation.Balances : Derivation .statement → Option Token → Prop
  | .expression _ _, _ => True
  | .block body, _ => body.Nests false
  | .ifThen _ trueScope, next => trueScope.Nests true ∧ Still next
  | .ifElse _ trueScope falseScope, _ => trueScope.Nests true ∧ falseScope.Nests true
  | .ifElif _ _ _, _ => False
  | .switch _ _ _, _ => False
  | .while _ loopScope, _ => loopScope.Nests true
  | .ret _, next => Still next
  | .func _ args _ body, _ => args.Proper ∧ body.Nests true
  | .flush stat f, _ => stat.Balances (some f.token)

/-- The node of a top level statement that is to be compiled, when there are `n` nodes before: the
last one that its reductions make. -/
def Derivation.toCompile : Derivation .statement → ℕ → List ℕ
  | .expression e _, n => [n + e.size]
  | .ifThen e trueScope, n => [n + (e.size + trueScope.size)]
  | .ifElse e trueScope falseScope, n => [n + (e.size + (trueScope.size + falseScope.size))]
  | .ifElif e trueScope elifs, n => [n + (e.size + (trueScope.size + elifs.size))]
  | .while e loopScope, n => [n + (e.size + loopScope.size)]
  | .func _ args _ body, n => [n + (args.size + body.size)]
  | .flush stat _, n => stat.toCompile n
  | .block _, _ | .switch _ _ _, _ | .ret _, _ => []

/-- A statement begins and ends outside, and its node has been compiled. -/
structure Compiled (stat : Derivation .statement) (s s' : ParserState) : Prop where
  lexer : s'.lexer = .outside
  compiled : s'.compiled = s.compiled ++ stat.toCompile s.nodes.length

/-- After every top level statement, for the rest of a program. -/
inductive NestingKept : List (Derivation .statement) → ParserState → List ParserState → Prop
  | nil (s : ParserState) : NestingKept [] s []
  | cons {stat : Derivation .statement} {program : List (Derivation .statement)}
      {s s' : ParserState} {states : List ParserState} (hstat : Compiled stat s s')
      (hrest : NestingKept program s' states) : NestingKept (stat :: program) s (s' :: states)

lemma Still.lexerHandle {next : Option Token} (h : Still next) (l : LexerState) :
    lexerHandle next l = l := by
  cases next with
  | none => rfl
  | some t => exact h t rfl l

lemma ParserState.close_outside {s : ParserState} {a b : ℤ} (h : s.lexer.leave a b = .outside)
    (node : AstNode) : s.close node a b = (none, { s with
      lexer := .outside
      nodes := s.nodes ++ [node]
      compiled := s.compiled ++ [s.nodes.length] }) := by
  have hout : s.lexer.isOutside a b = true := by
    simp only [LexerState.leave, LexerState.outside, LexerState.mk.injEq] at h
    simp only [LexerState.isOutside, h]
    rfl
  rw [ParserState.close, if_pos hout, h]

/-- The reductions of parameters leave the lexer alone. -/
lemma FuncArgList.reduce_proper {args : FuncArgList} (h : args.Proper) (s : ParserState) :
    ∃ i firstDecl last nodes, args.reduce s = some (some i, { s with nodes := nodes }) ∧
      nodes[i]? = some (.funcArgList firstDecl last) ∧ (args ≠ .empty → last ≠ none) := by
  induction args with
  | empty =>
    refine ⟨_, none, none, _, rfl, ?_, fun h => absurd rfl h⟩
    simp
  | first varType varName =>
    refine ⟨_, some s.nodes.length, some s.nodes.length, _, rfl, ?_, fun _ => Option.some_ne_none _⟩
    simp
  | next list varType varName ih =>
    obtain ⟨i, firstDecl, last, nodes, hlist, hi, hlast⟩ := ih h.2
    obtain ⟨l, rfl⟩ := Option.ne_none_iff_exists'.mp (hlast h.1)
    have hlt : i < nodes.length := (List.getElem?_eq_some_iff.mp hi).1
    have hread : readNode (some i) { s with nodes := nodes ++ [.declVar varType varName none] } =
        some (.funcArgList firstDecl (some l),
          { s with nodes := nodes ++ [.declVar varType varName none] }) := by
      rw [readNode_eq, Option.bind_some, List.getElem?_append_left hlt, hi]
      rfl
    rw [FuncArgList.reduce, parserM_bind_of hlist, astNewNodeDeclVar, parserM_bind_of (newNode_eq _ _),
      parserM_bind_of hread]
    refine ⟨i, firstDecl, some nodes.length, linkDecls (nodes ++ [.declVar varType varName none]) i
      nodes.length l firstDecl, rfl, ?_, fun _ => Option.some_ne_none _⟩
    rw [linkDecls, List.getElem?_modify_eq, List.getElem?_modify, List.getElem?_append_left hlt, hi]
    rfl

/-- The tokens of the parameters, the return type. -/
lemma forM_shift_still {tokens : List Token} (h : ∀ t ∈ tokens, t.Quiet) {s : ParserState}
    (hahead : s.ahead = false) : tokens.forM shift s = some ((), s) := by
  by_cases hnil : tokens = []
  · rw [hnil]
    rfl
  · rw [forM_shift_quiet h hnil, ← hahead]

/-- A function, when its body nests. -/
lemma run_func {name : CStr} {args : FuncArgList} {retType : Option CStr} {body : Derivation .scope}
    {next : Option Token} {s : ParserState} (hargs : args.Proper) (hbody : body.Nests true)
    (hs : s.At .outside (some .keywordFunc)) : ∃ s',
      (Derivation.func name args retType body).run next s = some (none, s') ∧
      s'.ahead = false ∧ s'.lexer = .outside ∧
      s'.compiled = s.compiled ++ [s.nodes.length + (args.size + body.size)] := by
  have hlexer : s.lexed (some .keywordFunc) = ⟨true, 0, 0⟩ := hs.lexed
  let s₁ : ParserState := { s with lexer := ⟨true, 0, 0⟩, ahead := false }
  have hopen : ((s.shifted .keywordFunc).shifted (.identifier name)).shifted .parenOpen = s₁ := by
    change ParserState.mk (s.lexed (some .keywordFunc)) _ _ _ = _
    rw [hlexer]
    rfl
  obtain ⟨i, firstDecl, last, nodes, hreduce, -, -⟩ := FuncArgList.reduce_proper hargs s₁
  obtain ⟨hext₁, -⟩ := FuncArgList.reduce_extends hreduce
  let s₂ : ParserState := { s₁ with nodes := nodes }
  have hclose : s₂.shifted .parenClose = s₂ := rfl
  have hret : (retType.forM fun t => shift (.identifier t)) s₂ = some ((), s₂) := by
    cases retType <;> rfl
  obtain ⟨j, s₃, hrun, hnested⟩ := @Derivation.run_nests _ _ next _ _ _ hbody
    (fun _ => .inl rfl) (ParserState.at_of_ahead_eq_false (s := s₂) _ rfl rfl)
  obtain ⟨hext₂, -⟩ := Derivation.run_extends hrun
  have hlength : s₃.nodes.length = s.nodes.length + (args.size + body.size) :=
    (hext₁.trans_length hext₂ le_rfl).length
  rw [Derivation.run, parserM_bind_of (shift_eq _ s), parserM_bind_of (shift_eq _ _),
    parserM_bind_of (shift_eq _ _), hopen, parserM_bind_of (forM_shift_still args.yield_quiet rfl),
    parserM_bind_of hreduce, parserM_bind_of (shift_eq _ _), hclose, parserM_bind_of hret,
    parserM_bind_of hrun, astNewNodeDeclFunc_eq]
  have hahead := run_scope_ahead hrun
  refine ⟨_, rfl, hahead, ?_, ?_⟩
  · rw [hnested.lexer_eq hrun]
    rfl
  · change s₃.compiled ++ [s₃.nodes.length] = _
    rw [hnested.compiled, hlength]

/-- A top level statement that balances. -/
lemma Derivation.run_balances : ∀ {d : Derivation .statement} {next : Option Token}
    {s : ParserState}, d.Balances next → s.At .outside (firstToken d.yield next) →
    ∃ p s', d.run next s = some (p, s') ∧ s'.At .outside next ∧ Compiled d s s'
  | .expression e f, next, s, hd, hs => by
    obtain ⟨t, ht, hquiet⟩ := e.firstToken_yield [f.token] next
    rw [Derivation.yield, ht] at hs
    have hlexer : (lexerHandle (some f.token) s.lexer).leave 0 0 = .outside := by
      rw [LexerState.leave_zero, hs.quiet hquiet]
      exact f.token_quiet _
    have hlength := (e.extends_nodes s.nodes).length
    rw [Derivation.run, parserM_bind_of (e.run_eq (some f.token) s), parserM_bind_of (shift_eq _ _),
      astNewNodeStatExpr_eq (e.nodeUpcastExpr_extends (.refl _)), ParserState.close_outside hlexer]
    refine ⟨_, _, rfl, ParserState.at_of_ahead_eq_false _ rfl rfl, rfl, ?_⟩
    rw [Derivation.toCompile, ← hlength]
    rfl
  | .block body, next, s, hd, hs => by
    rw [Derivation.Balances] at hd
    obtain ⟨i, s₁, hrun, hnested⟩ := Derivation.run_nests hd (fun h => by cases h) hs
    refine ⟨_, _, hrun, hnested.lexer, hnested.lexer_eq hrun, ?_⟩
    rw [hnested.compiled, Derivation.toCompile, List.append_nil]
  | .ifThen e trueScope, next, s, hd, hs => by
    rw [Derivation.Balances] at hd
    obtain ⟨hd, hstill⟩ := hd
    obtain ⟨i, s₁, htrue, hnested⟩ :=
      Derivation.run_nests hd (fun _ => .inr (.inl le_rfl)) (hs.header e trueScope next)
    obtain ⟨hext, -⟩ := Derivation.run_extends htrue
    have hcast := e.nodeUpcastExpr_extends (s := s₁.peeked next) hext
    have hlength := ((e.extends_nodes s.nodes).trans_length hext le_rfl).length
    have hlexer : (s₁.peeked next).lexer.leave 1 0 = .outside := by
      -- the token behind has been read before the statement is reduced
      refine (congrArg (·.leave 1 0) hnested.lexer.lexed).trans ?_
      rw [lexerHandle_leave_if, hstill.lexerHandle]
    rw [Derivation.run, run_header, parserM_bind_of htrue, parserM_bind_of (peek_eq next s₁),
      astNewNodeStatIf_eq hcast, ParserState.close_outside hlexer]
    refine ⟨_, _, rfl, ?_, rfl, ?_⟩
    · rw [ParserState.At, hstill.lexerHandle]
      exact (ite_self _).symm
    · rw [Derivation.toCompile, ← hlength]
      exact congrArg (· ++ [s₁.nodes.length]) hnested.compiled
  | .ifElse e trueScope falseScope, next, s, hd, hs => by
    rw [Derivation.Balances] at hd
    obtain ⟨hdt, hdf⟩ := hd
    obtain ⟨i, s₁, htrue, hnested₁⟩ := Derivation.run_nests hdt (fun _ => .inr (.inl le_rfl))
      (hs.header e trueScope (some .keywordElse))
    -- `else` does not count in the lexer
    have helse := hnested₁.lexer.shifted (fun _ => rfl) (firstToken falseScope.yield next)
    obtain ⟨j, s₂, hfalse, hnested₂⟩ :=
      Derivation.run_nests hdf (fun _ => .inr (.inl le_rfl)) helse
    have hext := (Derivation.run_extends htrue).1.trans_length (Derivation.run_extends hfalse).1 le_rfl
    have hlength := ((e.extends_nodes s.nodes).trans_length hext le_rfl).length
    have hlexer : s₂.lexer.leave 1 0 = .outside := by
      rw [hnested₂.lexer_eq hfalse, leave_if]
    have hahead := run_scope_ahead hfalse
    rw [Derivation.run, run_header, parserM_bind_of htrue, parserM_bind_of (shift_eq _ s₁),
      parserM_bind_of hfalse, astNewNodeStatIf_eq (e.nodeUpcastExpr_extends hext),
      ParserState.close_outside hlexer]
    refine ⟨_, _, rfl, ParserState.at_of_ahead_eq_false _ hahead rfl, rfl, ?_⟩
    rw [Derivation.toCompile, ← hlength]
    exact congrArg (· ++ [s₂.nodes.length]) (hnested₂.compiled.trans hnested₁.compiled)
  | .ifElif e trueScope elifs, next, s, hd, hs => by
    rw [Derivation.Balances] at hd
    exact hd.elim
  | .switch e f choices, next, s, hd, hs => by
    rw [Derivation.Balances] at hd
    exact hd.elim
  | .while e loopScope, next, s, hd, hs => by
    rw [Derivation.Balances] at hd
    obtain ⟨i, s₁, hloop, hnested⟩ :=
      Derivation.run_nests hd (fun _ => .inr (.inr le_rfl)) (hs.header e loopScope next)
    obtain ⟨hext, -⟩ := Derivation.run_extends hloop
    have hlength := ((e.extends_nodes s.nodes).trans_length hext le_rfl).length
    have hlexer : s₁.lexer.leave 0 1 = .outside := by
      rw [hnested.lexer_eq hloop, leave_while]
    have hahead := run_scope_ahead hloop
    rw [Derivation.run, run_header, parserM_bind_of hloop,
      astNewNodeStatWhile_eq (e.nodeUpcastExpr_extends hext), ParserState.close_outside hlexer]
    refine ⟨_, _, rfl, ParserState.at_of_ahead_eq_false _ hahead rfl, rfl, ?_⟩
    rw [Derivation.toCompile, ← hlength]
    exact congrArg (· ++ [s₁.nodes.length]) hnested.compiled
  | .ret e, next, s, hd, hs => by
    rw [Derivation.Balances] at hd
    have hlexer : s.lexed (some .keywordReturn) = .outside := hs.lexed
    rw [Derivation.run, parserM_bind_of (shift_eq _ s), parserM_bind_of (e.run_eq next _),
      astNewNodeStatRet_eq (e.nodeUpcastExpr_extends (.refl _))]
    refine ⟨_, _, rfl, congrArg (lexerHandle next) hlexer, ?_, ?_⟩
    · exact (congrArg (lexerHandle next) hlexer).trans (hd.lexerHandle _)
    · rw [Derivation.toCompile, List.append_nil]
      rfl
  | .func name args retType body, next, s, hd, hs => by
    rw [Derivation.Balances] at hd
    obtain ⟨s', hrun, hahead, hlexer, hcompiled⟩ := run_func hd.1 hd.2 hs
    refine ⟨_, _, hrun, ParserState.at_of_ahead_eq_false _ hahead hlexer, hlexer, ?_⟩
    rw [hcompiled, Derivation.toCompile]
  | .flush stat f, next, s, hd, hs => by
    rw [Derivation.Balances] at hd
    rw [Derivation.yield, firstToken_append] at hs
    obtain ⟨p, s₁, hstat, hat, hcompiled⟩ := @run_balances _ (some f.token) _ hd hs
    have hshift := hat.shifted f.token_quiet next
    rw [Derivation.run, parserM_bind_of hstat]
    refine ⟨p, _, rfl, hshift, hshift, ?_⟩
    rw [Derivation.toCompile]
    exact hcompiled.compiled

/-- The statements of a program balance. -/
def ProgramBalances : List (Derivation .statement) → Prop
  | [] => True
  | stat :: program =>
    stat.Balances (firstToken (programYield program) none) ∧ ProgramBalances program

/-- The token behind does not matter. -/
lemma NestingKept.of_peeked {program : List (Derivation .statement)} {s : ParserState}
    {next : Option Token} {states : List ParserState} (h : NestingKept program (s.peeked next) states) :
    NestingKept program s states := by
  cases h with
  | nil => exact .nil s
  | cons hstat hrest => exact .cons ⟨hstat.lexer, hstat.compiled⟩ hrest

/-- Statement by statement. -/
lemma runProgram_balances {program : List (Derivation .statement)} (h : ProgramBalances program)
    {s : ParserState} (hs : s.At .outside (firstToken (programYield program) none)) :
    ∃ states, runProgram program s = some states ∧ NestingKept program s states := by
  induction program generalizing s with
  | nil => exact ⟨[], rfl, .nil s⟩
  | cons stat program ih =>
    obtain ⟨hstat, hprogram⟩ := h
    rw [programYield, List.flatMap_cons, firstToken_append] at hs
    obtain ⟨p, s₁, hrun, hat, hcompiled⟩ := Derivation.run_balances hstat hs
    obtain ⟨states, hstates, hkept⟩ := ih hprogram hat.peeked
    refine ⟨s₁ :: states, ?_, .cons hcompiled hkept.of_peeked⟩
    simp [runProgram, hrun, peek_eq, hstates]

/-- In every run of a program that balances, nesting is kept. -/
theorem nesting_kept {program : List (Derivation .statement)} (h : ProgramBalances program) :
    ∃ states, runProgram program parserInit = some states ∧
      NestingKept program parserInit states :=
  runProgram_balances h (ParserState.at_of_ahead_eq_false _ rfl rfl)

/-- `if x { }` -/
def ifEmpty : Derivation .statement :=
  .ifThen (.operand (.identifier [120])) (.scope none .empty)

/-- `func f() { if x { } if x { } }`, a newline, `if x { }` -/
def funcOfIfs : List (Derivation .statement) :=
  [.flush (.func [102] .empty none (.scope none (.link (.link .empty ifEmpty) ifEmpty))) .newline,
    ifEmpty]

theorem nesting_kept_funcOfIfs : ∃ states, runProgram funcOfIfs parserInit = some states ∧
    NestingKept funcOfIfs parserInit states :=
  nesting_kept (by
    simp [funcOfIfs, ifEmpty, ProgramBalances, Derivation.Balances, Derivation.Nests,
      FuncArgList.Proper, Still, programYield, firstToken])

/-- The second `if` has been read when the first one is reduced, which is then never compiled. -/
theorem nesting_not_kept_of_ifs : ¬ ∃ states,
    runProgram [ifEmpty, ifEmpty] parserInit = some states ∧
      NestingKept [ifEmpty, ifEmpty] parserInit states := by
  rintro ⟨states, hrun, hkept⟩
  cases hrun
  cases hkept with
  | cons hstat hrest =>
    have hcompiled := hstat.compiled
    rw [ifEmpty, Derivation.toCompile] at hcompiled
    exact List.cons_ne_nil _ _ hcompiled.symm

end PhantomShell
