import PhantomShell.Parser.Runs
import PhantomShell.Parser.NestingTheorems

/-!
# Chains of elif

The block behind an `elif` is reduced to an if statement, which stands where the statement in front has
its false scope. Its reduction counts back the one `if` of the chain, so that outside of a function it
is compiled alone; in a function it is no scope that can be compiled.
-/

namespace PhantomShell

/-! ## Execution -/

/-- The condition of an if statement is evaluated, or a scope is run; the numbers are the nodes. -/
inductive ChainEvent
  | condition (stat : ℕ)
  | body (scope : ℕ)
deriving DecidableEq

/-- `compile_scope` takes a null pointer or a scope. The `stats` of another node, here the `next` of an
if statement that is in no list, are null, and their `first` is read. -/
def IsScope (nodes : List AstNode) : Ptr → Prop
  | none => True
  | some i => ∃ stats, nodes[i]? = some (.scope stats)

/-- What the code of an if statement does: `compile_if_statement` compiles the condition and both
scopes, and the code branches on the condition. -/
inductive IfRuns (nodes : List AstNode) (truth : ℕ → Bool) : ℕ → List ChainEvent → Prop
  | mk {i c : ℕ} {next trueScope falseScope : Ptr}
      (hi : nodes[i]? = some (.statIf next (some c) trueScope falseScope))
      (htrue : IsScope nodes trueScope) (hfalse : IsScope nodes falseScope) :
      IfRuns nodes truth i
        (.condition i :: ((if truth i then trueScope else falseScope).map ChainEvent.body).toList)

/-- The last node of a derivation, when there are `n` nodes before. -/
def Derivation.last {symbol : Nonterminal} (d : Derivation symbol) (n : ℕ) : ℕ := n + (d.size - 1)

/-- What is to happen from an `elif` on, when there are `n` nodes before. -/
def elifEvents (truth : ℕ → Bool) : Derivation .elifSelectionBlock → ℕ → List ChainEvent
  | .elifThen e trueScope, n =>
    let i := n + (e.size + trueScope.size)
    .condition i :: if truth i then [.body (trueScope.last (n + e.size))] else []
  | .elifElif e trueScope elifs, n =>
    let i := n + (e.size + (trueScope.size + elifs.size))
    .condition i :: if truth i then [.body (trueScope.last (n + e.size))]
      else elifEvents truth elifs (n + (e.size + trueScope.size))
  | .elifElse e trueScope falseScope, n =>
    let i := n + (e.size + (trueScope.size + falseScope.size))
    .condition i :: if truth i then [.body (trueScope.last (n + e.size))]
      else [.body (falseScope.last (n + (e.size + trueScope.size)))]

/-- What is to happen in a chain: the conditions are evaluated up to the first that is true, and the
scope behind it is run. -/
def chainEvents (truth : ℕ → Bool) (e : Expression) (trueScope : Derivation .scope)
    (elifs : Derivation .elifSelectionBlock) (n : ℕ) : List ChainEvent :=
  let i := n + (e.size + (trueScope.size + elifs.size))
  .condition i :: if truth i then [.body (trueScope.last (n + e.size))]
    else elifEvents truth elifs (n + (e.size + trueScope.size))

inductive Place
  | topLevel
  | functionBody

/-- The statements whose code is executed: at top level those that have been compiled, in a function
the one that is linked to its list of statements. -/
def executed : Place → Ptr → List ℕ → List ℕ
  | .topLevel, _, compiled => compiled
  | .functionBody, p, _ => p.toList

/-- Where `truth` is what the conditions turn out to be, what the code does is what is to happen. -/
def SelectsFirstTrue (truth : ℕ → Bool) (place : Place) (e : Expression)
    (trueScope : Derivation .scope) (elifs : Derivation .elifSelectionBlock) (next : Option Token)
    (s : ParserState) : Prop :=
  ∃ p s', (Derivation.ifElif e trueScope elifs).run next s = some (p, s') ∧ ∃ traces,
    List.Forall₂ (IfRuns s'.nodes truth) (executed place p (s'.compiled.drop s.compiled.length))
      traces ∧ traces.flatten = chainEvents truth e trueScope elifs s.nodes.length

/-! ## What has been compiled -/

/-- More nodes, and more of them have been compiled. -/
structure ParserState.Grows (s s' : ParserState) : Prop where
  length : s.nodes.length ≤ s'.nodes.length
  compiled : ∃ new, s'.compiled = s.compiled ++ new ∧ ∀ i ∈ new, i < s'.nodes.length

lemma ParserState.Grows.of_compiled_eq {s s' : ParserState}
    (hlength : s.nodes.length ≤ s'.nodes.length) (hcompiled : s'.compiled = s.compiled) :
    s.Grows s' :=
  ⟨hlength, [], by rw [hcompiled, List.append_nil], nofun⟩

lemma ParserState.Grows.trans {s s₁ s' : ParserState} (h : s.Grows s₁) (h' : s₁.Grows s') :
    s.Grows s' := by
  obtain ⟨hlength, new, hnew, hlt⟩ := h
  obtain ⟨hlength', new', hnew', hlt'⟩ := h'
  refine ⟨hlength.trans hlength', new ++ new', ?_, ?_⟩
  · rw [hnew', hnew, List.append_assoc]
  · rw [List.forall_mem_append]
    exact ⟨fun i hi => (hlt i hi).trans_le hlength', hlt'⟩

lemma ParserState.Grows.push {s s' : ParserState} (h : s.Grows s') (nodes : List AstNode) :
    s.Grows (s'.push nodes) :=
  h.trans (.of_compiled_eq (by simp) rfl)

lemma ParserState.Grows.close {s s₁ s' : ParserState} {node : AstNode} {a b : ℤ} {p : Ptr}
    (h : s.Grows s₁) (hclose : s₁.close node a b = (p, s')) : s.Grows s' := by
  refine h.trans ?_
  rw [ParserState.close] at hclose
  split at hclose
  · cases hclose
    exact ⟨by simp, [s₁.nodes.length], rfl, by simp⟩
  · cases hclose
    exact .of_compiled_eq (by simp) rfl

lemma ParserState.Grows.shifted {s s' : ParserState} (h : s.Grows s') (t : Token) :
    s.Grows (s'.shifted t) :=
  h.trans (.of_compiled_eq le_rfl rfl)

lemma ParserState.Grows.peeked {s s' : ParserState} (h : s.Grows s') (next : Option Token) :
    s.Grows (s'.peeked next) :=
  h.trans (.of_compiled_eq le_rfl rfl)

lemma ParserState.grows_shifted (s : ParserState) (t : Token) : s.Grows (s.shifted t) :=
  .of_compiled_eq le_rfl rfl

lemma ParserState.grows_header (s : ParserState) (keyword : Token) (e : Expression) :
    s.Grows (s.header keyword e) :=
  .of_compiled_eq (by simp [ParserState.header]) rfl

lemma ParserState.grows_flushed (s : ParserState) (e : Expression) (f : Flush) :
    s.Grows (s.flushed e f) :=
  .of_compiled_eq (by simp [ParserState.flushed]) rfl

lemma ParserState.grows_returned (s : ParserState) (e : Expression) (next : Option Token) :
    s.Grows (s.returned e next) :=
  .of_compiled_eq (by simp [ParserState.returned]) rfl

lemma ParserState.grows_declared (s : ParserState) (name : CStr) (retType : Option CStr)
    (args body : Ptr) : s.Grows (s.declared name retType args body) :=
  ⟨by simp [ParserState.declared], [s.nodes.length], rfl, by simp [ParserState.declared]⟩

lemma shiftFlush_grows {f : Option Flush} {next : Option Token} {s s' : ParserState}
    (h : shiftFlush f next s = some ((), s')) : s.Grows s' := by
  cases f <;> cases h <;> exact .of_compiled_eq le_rfl rfl

lemma forM_shift_grows {tokens : List Token} {s s' : ParserState}
    (h : tokens.forM shift s = some ((), s')) : s.Grows s' := by
  induction tokens generalizing s with
  | nil =>
    cases h
    exact .of_compiled_eq le_rfl rfl
  | cons t tokens ih =>
    have htail : (s.shifted t).Grows s' := ih h
    exact ⟨htail.length, htail.compiled⟩

lemma FuncArgList.reduce_grows {args : FuncArgList} {s s' : ParserState} {p : Ptr}
    (h : args.reduce s = some (p, s')) : s.Grows s' := by
  induction args generalizing s' p with
  | empty =>
    cases h
    exact .of_compiled_eq (by simp) rfl
  | first varType varName =>
    cases h
    exact .of_compiled_eq (by simp) rfl
  | next list varType varName ih =>
    obtain ⟨p₁, s₁, hlist, -⟩ := parserM_bind_eq_some.mp h
    obtain ⟨-, i, firstDecl, last, rfl, -, hi, -⟩ := FuncArgList.reduce_extends hlist
    obtain ⟨l, -, -, rfl⟩ := FuncArgList.reduce_next hlist hi h
    exact (ih hlist).trans (.of_compiled_eq (by simp [linkDecls]) rfl)

/-- Every production makes nodes, and compiles no others than those. -/
lemma Runs.grows {symbol : Nonterminal} {d : Derivation symbol} {next : Option Token}
    {s s' : ParserState} {p : Ptr} (h : Runs d next s p s') : s.Grows s' := by
  induction h with
  | @scope _ _ _ s _ _ _ hflush _ ih =>
    have hopen := (s.grows_shifted .braceOpen).trans (shiftFlush_grows hflush)
    exact ((hopen.trans ih).shifted _).push _
  | @empty _ s => exact .of_compiled_eq (by simp) rfl
  | link _ _ _ ihstats ihstat =>
    refine (ihstats.trans ihstat).trans (.of_compiled_eq ?_ rfl)
    rw [length_linkNodes]
  | @expression e f _ s _ _ hclose => exact (s.grows_flushed e f).close hclose
  | block _ ih => exact ih
  | @ifThen e _ next s _ _ _ _ _ hclose ih | @elifThen e _ next s _ _ _ _ _ hclose ih =>
    exact (((s.grows_header _ e).trans ih).peeked next).close hclose
  | @ifElse e _ _ _ s _ _ _ _ _ _ _ _ hclose ih₁ ih₂
  | @elifElse e _ _ _ s _ _ _ _ _ _ _ _ hclose ih₁ ih₂ =>
    exact ((((s.grows_header _ e).trans ih₁).shifted _).trans ih₂).close hclose
  | @ifElif e _ _ _ s _ _ _ _ _ _ _ _ hclose ih₁ ih₂
  | @elifElif e _ _ _ s _ _ _ _ _ _ _ _ hclose ih₁ ih₂ =>
    exact (((s.grows_header _ e).trans ih₁).trans ih₂).close hclose
  | @switch e _ _ _ s _ _ _ hflush _ ih =>
    have hopen := ((s.grows_header .keywordSwitch e).shifted .braceOpen).trans
      (shiftFlush_grows hflush)
    exact ((hopen.trans ih).shifted _).push _
  | @«while» e _ _ s _ _ _ _ _ hclose ih =>
    exact ((s.grows_header _ e).trans ih).close hclose
  | @ret e next s => exact (s.grows_returned e next).push _
  | @func name _ retType _ _ s _ _ s₃ _ _ _ hargs hreduce hret _ ih =>
    have hnamed := ((s.grows_shifted .keywordFunc).shifted (.identifier name)).shifted .parenOpen
    have hreduced := (hnamed.trans (forM_shift_grows hargs)).trans (FuncArgList.reduce_grows hreduce)
    have hbody : s.Grows s₃ := by
      cases retType <;> cases hret
      · exact hreduced.shifted _
      · exact (hreduced.shifted _).shifted _
    exact (hbody.trans ih).trans (ParserState.grows_declared ..)
  | flush _ ih => exact ih.shifted _
  | firstChoice htokens _ _ ih =>
    exact (((forM_shift_grows htokens).push _).trans ih).push _
  | nextChoice _ htokens _ _ ihchoices ih =>
    have hbody := ihchoices.trans (((forM_shift_grows htokens).push _).trans ih)
    exact hbody.trans (.of_compiled_eq (by simp) rfl)

/-! ## Inside of a function -/

/-- A function that is open stays open. -/
def ParserState.StaysIn (s s' : ParserState) : Prop :=
  s.lexer.isInsideFunc = true → s'.lexer.isInsideFunc = true

lemma ParserState.StaysIn.lexed {s s' : ParserState} (h : s.StaysIn s') (next : Option Token)
    (hin : s.lexer.isInsideFunc = true) : (s'.lexed next).isInsideFunc = true := by
  have hin' := h hin
  rw [ParserState.lexed]
  split
  · exact hin'
  · cases next with
    | none => exact hin'
    | some t => exact (lexerHandleKeyword_le t s'.lexer).1 hin'

lemma ParserState.StaysIn.close {s s₁ s' : ParserState} {node : AstNode} {a b : ℤ} {p : Ptr}
    (h : s.StaysIn s₁) (hclose : s₁.close node a b = (p, s')) : s.StaysIn s' := by
  rw [ParserState.close] at hclose
  split at hclose <;> cases hclose <;> exact h

lemma shiftFlush_staysIn {f : Option Flush} {next : Option Token} {s s₁ s' : ParserState}
    (h : s.StaysIn s₁) (hflush : shiftFlush f next s₁ = some ((), s')) : s.StaysIn s' := by
  cases f <;> cases hflush <;> exact h.lexed _

lemma forM_shift_staysIn {tokens : List Token} {s s₁ s' : ParserState} (h : s.StaysIn s₁)
    (htokens : tokens.forM shift s₁ = some ((), s')) : s.StaysIn s' := by
  induction tokens generalizing s₁ with
  | nil =>
    cases htokens
    exact h
  | cons t tokens ih =>
    have hshift : s.StaysIn (s₁.shifted t) := h.lexed (some t)
    exact ih hshift htokens

lemma ParserState.StaysIn.trans {s s₁ s' : ParserState} (h : s.StaysIn s₁) (h' : s₁.StaysIn s') :
    s.StaysIn s' :=
  fun hin => h' (h hin)

lemma ParserState.StaysIn.shifted {s s' : ParserState} (h : s.StaysIn s') (t : Token) :
    s.StaysIn (s'.shifted t) :=
  h.lexed (some t)

lemma ParserState.StaysIn.peeked {s s' : ParserState} (h : s.StaysIn s') (next : Option Token) :
    s.StaysIn (s'.peeked next) :=
  h.lexed next

lemma ParserState.staysIn_header (s : ParserState) (keyword : Token) (e : Expression) :
    s.StaysIn (s.header keyword e) :=
  ParserState.StaysIn.lexed id (some keyword)

/-- A statement that closes the function is null, and cannot be linked. -/
lemma Runs.staysIn {symbol : Nonterminal} {d : Derivation symbol} {next : Option Token}
    {s s' : ParserState} {p : Ptr} (h : Runs d next s p s')
    (hp : symbol = .statement → p ≠ none) : s.StaysIn s' := by
  induction h with
  | @scope _ _ _ s _ _ _ hflush _ ih =>
    have hopen : s.StaysIn (s.shifted .braceOpen) := ParserState.StaysIn.shifted id _
    exact ((shiftFlush_staysIn hopen hflush).trans (ih nofun)).shifted .braceClose
  | empty => exact id
  | link _ _ _ ihstats ihstat =>
    exact ((ihstats nofun).trans (ihstat fun _ => Option.some_ne_none _)).lexed _
  | @expression e f _ s _ _ hclose =>
    have hflushed : s.StaysIn (s.flushed e f) := (lexerHandleKeyword_le f.token s.lexer).1
    exact hflushed.close hclose
  | block _ ih => exact ih nofun
  | @ifThen e _ next s _ _ _ _ _ hclose ih | @elifThen e _ next s _ _ _ _ _ hclose ih =>
    have htrue := (s.staysIn_header _ e).trans (ih nofun)
    exact (htrue.peeked next).close hclose
  | @ifElse e _ _ _ s _ _ _ _ _ _ _ _ hclose ih₁ ih₂
  | @elifElse e _ _ _ s _ _ _ _ _ _ _ _ hclose ih₁ ih₂ =>
    have htrue := (s.staysIn_header _ e).trans (ih₁ nofun)
    exact ((htrue.shifted _).trans (ih₂ nofun)).close hclose
  | @ifElif e _ _ _ s _ _ _ _ _ _ _ _ hclose ih₁ ih₂
  | @elifElif e _ _ _ s _ _ _ _ _ _ _ _ hclose ih₁ ih₂ =>
    have htrue := (s.staysIn_header _ e).trans (ih₁ nofun)
    exact (htrue.trans (ih₂ nofun)).close hclose
  | @switch e _ _ _ s _ _ _ hflush _ ih =>
    have hopen := (s.staysIn_header .keywordSwitch e).shifted .braceOpen
    exact ((shiftFlush_staysIn hopen hflush).trans (ih nofun)).shifted .braceClose
  | @«while» e _ _ s _ _ _ _ _ hclose ih =>
    exact ((s.staysIn_header _ e).trans (ih nofun)).close hclose
  | @ret e next s =>
    have hreturn : s.StaysIn (s.shifted .keywordReturn) := ParserState.StaysIn.shifted id _
    exact hreturn.lexed next
  | func => exact absurd rfl (hp rfl)
  | flush _ ih => exact (ih hp).shifted _
  | firstChoice htokens _ _ ih =>
    have hlabel := forM_shift_staysIn id htokens
    exact hlabel.trans (ih nofun)
  | nextChoice _ htokens _ _ ihchoices ih =>
    have hlabel := forM_shift_staysIn (ihchoices nofun) htokens
    exact hlabel.trans (ih nofun)

/-! ## The block behind the first elif -/

/-- An if statement that has been compiled was in no function, and leaves no selection open. -/
lemma close_if_cases {s s' : ParserState} {next c t f p : Ptr}
    (h : s.close (.statIf next c t f) 1 0 = (p, s')) :
    (p = none ∧ s'.lexer.isInsideFunc = false ∧ s'.lexer.isInsideSelectionStat = 0) ∨
    (p = some s.nodes.length ∧ s'.nodes[s.nodes.length]? = some (.statIf next c t f)) := by
  rw [ParserState.close] at h
  split at h
  · next hout =>
    cases h
    simp only [LexerState.isOutside, Bool.and_eq_true, Bool.not_eq_true', beq_iff_eq] at hout
    exact .inl ⟨rfl, hout.1.1, hout.1.2⟩
  · cases h
    exact .inr ⟨rfl, List.getElem?_concat_length ..⟩

/-- The block is null when it has been compiled, and no scope when it has not. -/
lemma Runs.elifs_cases {elifs : Derivation .elifSelectionBlock} {next : Option Token}
    {s s' : ParserState} {p : Ptr} (h : Runs elifs next s p s') :
    (p = none ∧ s'.lexer.isInsideFunc = false ∧ s'.lexer.isInsideSelectionStat = 0) ∨
    ∃ i c t f, p = some i ∧ s'.nodes[i]? = some (.statIf none c t f) := by
  obtain ⟨s₁, c, t, f, hclose⟩ :
      ∃ (s₁ : ParserState) (c t f : Ptr), s₁.close (.statIf none c t f) 1 0 = (p, s') := by
    cases h with
    | elifThen _ hclose => exact ⟨_, _, _, _, hclose⟩
    | elifElif _ _ hclose => exact ⟨_, _, _, _, hclose⟩
    | elifElse _ _ hclose => exact ⟨_, _, _, _, hclose⟩
  exact (close_if_cases hclose).imp_right fun h => ⟨_, c, t, f, h⟩

lemma IfRuns.mem_condition {nodes : List AstNode} {truth : ℕ → Bool} {i j : ℕ} {trace : List ChainEvent}
    (h : IfRuns nodes truth i trace) (hj : .condition j ∈ trace) : j = i := by
  cases h with
  | mk hi htrue hfalse =>
    rcases List.mem_cons.mp hj with heq | hmem
    · exact ChainEvent.condition.inj heq
    · rw [Option.mem_toList, Option.map_eq_some_iff] at hmem
      obtain ⟨_, -, hbody⟩ := hmem
      cases hbody

/-- A condition that is evaluated is that of a statement that is executed. -/
lemma exists_ifRuns {nodes : List AstNode} {truth : ℕ → Bool} {stats : List ℕ}
    {traces : List (List ChainEvent)} {i : ℕ} (h : List.Forall₂ (IfRuns nodes truth) stats traces)
    (hi : .condition i ∈ traces.flatten) : i ∈ stats ∧ ∃ trace, IfRuns nodes truth i trace := by
  induction h with
  | nil => exact absurd hi List.not_mem_nil
  | cons hrun _ ih =>
    rw [List.flatten_cons, List.mem_append] at hi
    rcases hi with hi | hi
    · cases hrun.mem_condition hi
      exact ⟨List.mem_cons_self, _, hrun⟩
    · obtain ⟨hmem, hruns⟩ := ih hi
      exact ⟨List.mem_cons_of_mem _ hmem, hruns⟩

/-! ## A chain -/

/-- The if statement of a chain is not compiled where its block has been. -/
lemma ParserState.Grows.not_mem_executed {s s₁ s' : ParserState} {node : AstNode} {p : Ptr}
    (h : s.Grows s₁) (hclose : s₁.close node 1 0 = (p, s'))
    (hzero : s₁.lexer.isInsideSelectionStat = 0) :
    s₁.nodes.length ∉ s'.compiled.drop s.compiled.length := by
  have hin : s₁.lexer.isOutside 1 0 = false := by
    simp [LexerState.isOutside, hzero]
  rw [ParserState.close, hin] at hclose
  cases hclose
  obtain ⟨-, new, hnew, hlt⟩ := h
  rw [hnew, List.drop_left]
  intro hmem
  exact (hlt _ hmem).false

/-- No chain with an `elif` does what it is to do, whatever its conditions turn out to be, neither at
top level nor in a function. -/
theorem chain_never_selects {place : Place} {e : Expression} {trueScope : Derivation .scope}
    {elifs : Derivation .elifSelectionBlock} {next : Option Token} {s : ParserState}
    (hplace : place = .functionBody → s.lexer.isInsideFunc = true) (truth : ℕ → Bool) :
    ¬ SelectsFirstTrue truth place e trueScope elifs next s := by
  rintro ⟨p, s', hrun, traces, hruns, htrace⟩
  obtain ⟨hext, -⟩ := Derivation.run_extends hrun
  cases Derivation.runs_of_run hrun with
  | @ifElif _ _ _ _ _ s₁ s₂ _ p₁ p₂ _ htrue helifs hclose =>
    obtain ⟨hnodes, -⟩ := s₂.close_eq_some (congrArg some hclose)
    -- The first condition is the one of the last node.
    have hi : s₂.nodes.length =
        s.nodes.length + (e.size + (trueScope.size + elifs.size)) := by
      have hlength := hext.length
      rw [hnodes, List.length_append, List.length_singleton, Derivation.size] at hlength
      omega
    have hfirst : .condition s₂.nodes.length ∈ traces.flatten := by
      rw [htrace, chainEvents, hi]
      exact List.mem_cons_self
    obtain ⟨hmem, trace, hif⟩ := exists_ifRuns hruns hfirst
    have hown : s'.nodes[s₂.nodes.length]? =
        some (.statIf none (e.cast (s.nodes.length + e.own)) p₁ p₂) := by
      rw [hnodes]
      exact List.getElem?_concat_length ..
    rcases helifs.elifs_cases with ⟨rfl, hfunc, hzero⟩ | ⟨i, c, t, f, rfl, helif⟩
    · cases place with
      | topLevel =>
        have hgrows := ((s.grows_header .keywordIf e).trans htrue.grows).trans helifs.grows
        exact hgrows.not_mem_executed hclose hzero hmem
      | functionBody =>
        have hstays := ((s.staysIn_header .keywordIf e).trans (htrue.staysIn nofun)).trans
          (helifs.staysIn nofun)
        exact absurd (hstays (hplace rfl)) (by rw [hfunc]; exact Bool.false_ne_true)
    · cases hif with
      | mk hown' _ hfalse =>
        obtain ⟨-, -, -, rfl⟩ := AstNode.statIf.inj (Option.some.inj (hown.symm.trans hown'))
        obtain ⟨stats, hscope⟩ := hfalse
        rw [hnodes, List.getElem?_append_left (List.getElem?_eq_some_iff.mp helif).1, helif] at hscope
        cases hscope

/-- `x` -/
def conditionX : Expression := .operand (.identifier [120])

/-- `{ }` -/
def blankScope : Derivation .scope := .scope none .empty

theorem chain_never_selects_function :
    ¬ SelectsFirstTrue (fun i => i = 6) .functionBody conditionX blankScope
      (.elifThen conditionX blankScope) none { parserInit with lexer := ⟨true, 0, 0⟩ } :=
  chain_never_selects (fun _ => rfl) _

/-- The nodes of `if x { } elif x { }`. -/
def elifNodes : List AstNode :=
  [.ident [120], .statList 0 none none, .scope (some 1), .ident [120], .statList 0 none none,
    .scope (some 4), .statIf none (some 3) (some 5) none, .statIf none (some 0) (some 2) none]

lemma elif_run : (Derivation.ifElif conditionX blankScope (.elifThen conditionX blankScope)).run none
    parserInit = some (some 7, ⟨⟨false, -1, 0⟩, true, elifNodes, [6]⟩) := rfl

/-- The second condition is all that is compiled. -/
theorem elif_compiled_alone : ¬ SelectsFirstTrue (fun _ => true) .topLevel conditionX blankScope
    (.elifThen conditionX blankScope) none parserInit := by
  rintro ⟨p, s', hrun, traces, hruns, htrace⟩
  cases elif_run.symm.trans hrun
  have hevents : chainEvents (fun _ => true) conditionX blankScope (.elifThen conditionX blankScope)
      0 = [.condition 7, .body 2] := rfl
  obtain ⟨hmem, -⟩ := exists_ifRuns (i := 7) hruns (by
    rw [htrace]
    exact hevents ▸ List.mem_cons_self)
  revert hmem
  decide

end PhantomShell
