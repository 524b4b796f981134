import PhantomShell.Parser.Actions

/-!
# Blank lines

A newline that is written twice ends a statement that has ended, which changes nothing. Only behind an
opening brace, where `_FLUSH` takes one newline and no statement has begun, the second one is a syntax
error.
-/

namespace PhantomShell

/-- The parser finds this program for the text. -/
structure Parses (tokens : List Token) (program : List (Derivation .statement)) : Prop where
  nonempty : program ≠ []
  resolved : ProgramResolved program
  yield : programYield program = tokens

/-! ## Newlines in a text -/

/-- One newline is doubled, and not the one behind a brace; `prev` is the token in front. -/
inductive Doubled : Option Token → List Token → List Token → Prop
  | here {prev : Option Token} (h : prev ≠ some .braceOpen) (l : List Token) :
      Doubled prev (.newline :: l) (.newline :: .newline :: l)
  | there {prev : Option Token} {t : Token} {l l' : List Token} (h : Doubled (some t) l l') :
      Doubled prev (t :: l) (t :: l')

lemma getLast?_cons_or (t : Token) (l : List Token) (prev : Option Token) :
    (t :: l).getLast?.or prev = l.getLast?.or (some t) := by
  rw [List.getLast?_cons]
  cases l.getLast? <;> rfl

lemma Doubled.of_append {prev : Option Token} {before : List Token} (after : List Token)
    (h : before.getLast?.or prev ≠ some .braceOpen) :
    Doubled prev (before ++ .newline :: after) (before ++ .newline :: .newline :: after) := by
  induction before generalizing prev with
  | nil => exact .here h after
  | cons t before ih =>
    rw [getLast?_cons_or] at h
    exact .there (ih h)

lemma Doubled.head? {prev : Option Token} {l l' : List Token} (h : Doubled prev l l') :
    l'.head? = l.head? := by
  cases h <;> rfl

lemma Doubled.mem {prev : Option Token} {l l' : List Token} (h : Doubled prev l l') :
    .newline ∈ l := by
  induction h with
  | here _ l => exact List.mem_cons_self
  | there _ ih => exact List.mem_cons_of_mem _ ih

lemma Doubled.append {prev : Option Token} {a b l' : List Token} (h : Doubled prev (a ++ b) l') :
    (∃ a', Doubled prev a a' ∧ l' = a' ++ b) ∨
      ∃ b', Doubled (a.getLast?.or prev) b b' ∧ l' = a ++ b' := by
  induction a generalizing prev l' with
  | nil => exact .inr ⟨l', h, rfl⟩
  | cons t a ih =>
    cases h with
    | here hprev => exact .inl ⟨_, .here hprev a, rfl⟩
    | there h =>
      rcases ih h with ⟨a', ha, rfl⟩ | ⟨b', hb, rfl⟩
      · exact .inl ⟨_, .there ha, rfl⟩
      · refine .inr ⟨b', ?_, rfl⟩
        rwa [getLast?_cons_or]

/-- A newline that is not in the first part is in the second one. -/
lemma Doubled.append_right {prev : Option Token} {a b l' : List Token}
    (h : Doubled prev (a ++ b) l') (ha : .newline ∉ a) :
    ∃ b', Doubled (a.getLast?.or prev) b b' ∧ l' = a ++ b' := by
  rcases h.append with ⟨a', ha', rfl⟩ | hb
  · exact absurd ha'.mem ha
  · exact hb

lemma Doubled.cons {prev : Option Token} {t : Token} {l l' : List Token}
    (h : Doubled prev (t :: l) l') (ht : t ≠ .newline) :
    ∃ l₁, Doubled (some t) l l₁ ∧ l' = t :: l₁ := by
  cases h with
  | here => exact absurd rfl ht
  | there h => exact ⟨_, h, rfl⟩

/-- The last token is no newline. -/
lemma Doubled.append_left {prev : Option Token} {a : List Token} {t : Token} {l' : List Token}
    (h : Doubled prev (a ++ [t]) l') (ht : t ≠ .newline) :
    ∃ a', Doubled prev a a' ∧ l' = a' ++ [t] := by
  rcases h.append with ha | ⟨b', hb, rfl⟩
  · exact ha
  · exact absurd (List.mem_singleton.mp hb.mem) ht.symm

/-! ## Tokens without newlines -/

lemma Operand.token_ne (a : Operand) : a.token ≠ .newline ∧ a.token ≠ .braceOpen := by
  rcases a with value | c
  · exact ⟨nofun, nofun⟩
  · cases c <;> exact ⟨nofun, nofun⟩

lemma UnaryOperator.token_ne (p : UnaryOperator) : p.token ≠ .newline ∧ p.token ≠ .braceOpen := by
  cases p <;> decide

lemma BinaryOperator.token_ne (b : BinaryOperator) :
    b.token ≠ .newline ∧ b.token ≠ .braceOpen := by
  cases b <;> decide

/-- Neither a newline nor an opening brace is in an expression. -/
lemma Expression.yield_ne (e : Expression) : ∀ t ∈ e.yield, t ≠ .newline ∧ t ≠ .braceOpen := by
  induction e with
  | operand a => simpa [Expression.yield] using a.token_ne
  | unary p e ih =>
    simp only [Expression.yield, List.forall_mem_cons]
    exact ⟨p.token_ne, ih⟩
  | binary b l r ihl ihr =>
    simp only [Expression.yield, List.forall_mem_append, List.forall_mem_cons]
    exact ⟨ihl, b.token_ne, ihr⟩
  | call f e ihf ihe =>
    simp only [Expression.yield, List.forall_mem_append, List.forall_mem_cons]
    exact ⟨ihf, ⟨nofun, nofun⟩, ihe, ⟨nofun, nofun⟩, nofun⟩
  | group e ih =>
    simp only [Expression.yield, List.forall_mem_append, List.forall_mem_cons]
    exact ⟨⟨nofun, nofun⟩, ih, ⟨nofun, nofun⟩, nofun⟩
  | ternary e₁ e₂ e₃ ih₁ ih₂ ih₃ =>
    simp only [Expression.yield, List.forall_mem_append, List.forall_mem_cons]
    exact ⟨⟨nofun, nofun⟩, ih₁, by decide, ih₂, by decide, ih₃, ⟨nofun, nofun⟩, nofun⟩
  | varDeclaration varType varName =>
    simp only [Expression.yield, List.forall_mem_cons]
    exact ⟨⟨nofun, nofun⟩, ⟨nofun, nofun⟩, nofun⟩

lemma FuncArgList.yield_ne (args : FuncArgList) :
    ∀ t ∈ args.yield, t ≠ .newline ∧ t ≠ .braceOpen := by
  induction args with
  | empty => exact nofun
  | first varType varName =>
    simp only [FuncArgList.yield, List.forall_mem_cons]
    exact ⟨⟨nofun, nofun⟩, ⟨nofun, nofun⟩, nofun⟩
  | next list varType varName ih =>
    simp only [FuncArgList.yield, List.forall_mem_append, List.forall_mem_cons]
    exact ⟨ih, by decide, ⟨nofun, nofun⟩, ⟨nofun, nofun⟩, nofun⟩

lemma choiceYield_ne (value : Option ConstantExpression) :
    ∀ t ∈ choiceYield value, t ≠ .newline ∧ t ≠ .braceOpen := by
  cases value with
  | none =>
    simp only [choiceYield, List.forall_mem_cons]
    exact ⟨⟨nofun, nofun⟩, nofun⟩
  | some c =>
    simp only [choiceYield, List.forall_mem_cons]
    exact ⟨⟨nofun, nofun⟩, (Operand.constant c).token_ne, nofun⟩

lemma retType_ne (retType : Option CStr) :
    ∀ t ∈ (retType.map Token.identifier).toList, t ≠ .newline ∧ t ≠ .braceOpen := by
  cases retType with
  | none => exact nofun
  | some retType =>
    simp only [Option.map_some, Option.toList_some, List.forall_mem_cons]
    exact ⟨⟨nofun, nofun⟩, nofun⟩

/-- So the doubled newline is behind such tokens. -/
lemma Doubled.behind {prev : Option Token} {a b l' : List Token} (h : Doubled prev (a ++ b) l')
    (ha : ∀ t ∈ a, t ≠ .newline ∧ t ≠ .braceOpen) :
    ∃ b', Doubled (a.getLast?.or prev) b b' ∧ l' = a ++ b' :=
  h.append_right fun hmem => (ha _ hmem).1 rfl

/-! ## The newline behind a statement -/

/-- A derivation for the doubled text that is reduced in the same way. -/
def DoubledDerivation {symbol : Nonterminal} (d : Derivation symbol) (l' : List Token) : Prop :=
  ∃ d' : Derivation symbol, d'.yield = l' ∧ (∀ follow, d'.run follow = d.run follow) ∧
    ∀ follow, d.Resolved follow → d'.Resolved follow

/-- A newline is no keyword. -/
lemma shift_newline (s : ParserState) :
    shift Flush.newline.token s = some ((), { s with ahead := false }) := by
  obtain ⟨lexer, ahead, nodes, compiled⟩ := s
  cases ahead <;> rfl

/-- Nothing is read by the action of an expression. -/
lemma astNewNodeStatExpr_ahead {expr p : Ptr} {s s' : ParserState}
    (h : astNewNodeStatExpr expr s = some (p, s')) : s'.ahead = s.ahead := by
  obtain ⟨e, s₁, hcast, h⟩ := parserM_bind_eq_some.mp h
  rw [nodeUpcastExpr_eq, Option.map_eq_some_iff] at hcast
  obtain ⟨node, -, hcast⟩ := hcast
  cases hcast
  rw [parserM_bind, newNode_eq, Option.bind_some] at h
  rcases compileOutside_eq_some h with ⟨-, -, rfl⟩ | ⟨-, -, rfl⟩ <;> rfl

/-- Where a newline ends a statement, a second one is a `FLUSH` behind it. -/
lemma doubledDerivation_of_ends {stat : Derivation .statement}
    (h : ∀ {follow s p s'}, stat.run follow s = some (p, s') → s'.ahead = false)
    (hfollow : ∀ follow, stat.run follow = stat.run (some .newline))
    (hresolved : ∀ follow, stat.Resolved follow → stat.Resolved (some .newline)) :
    DoubledDerivation stat (stat.yield ++ [.newline]) := by
  refine ⟨.flush stat .newline, rfl, ?_, hresolved⟩
  intro follow
  funext s
  rw [hfollow follow, Derivation.run, parserM_bind]
  change (stat.run (some .newline) s).bind _ = _
  cases hrun : stat.run (some .newline) s with
  | none => rfl
  | some r =>
    rw [Option.bind_some, parserM_bind, shift_newline, ← h hrun]
    rfl

/-! ## Derivations -/

lemma Doubled.firstToken {prev : Option Token} {l l' : List Token} (h : Doubled prev l l')
    (follow : Option Token) : firstToken l' follow = firstToken l follow := by
  rw [PhantomShell.firstToken, PhantomShell.firstToken, h.head?]

/-- The one newline that `_FLUSH` takes is behind a brace. -/
lemma Doubled.behind_brace {f : Option Flush} {b l' : List Token}
    (h : Doubled (some .braceOpen) (flushYield f ++ b) l') :
    ∃ prev b', Doubled prev b b' ∧ l' = flushYield f ++ b' := by
  rcases h.append with ⟨a', ha, rfl⟩ | ⟨b', hb, rfl⟩
  · rcases f with _ | _ | _
    · cases ha
    · obtain ⟨l, hl, -⟩ := ha.cons (by decide)
      cases hl
    · cases ha with
      | here hprev => exact absurd rfl hprev
      | there hl => cases hl
  · exact ⟨_, b', hb, rfl⟩

/-- A `FLUSH` that is doubled is a newline. -/
lemma Doubled.flush {prev : Option Token} {f : Flush} {l' : List Token}
    (h : Doubled prev [f.token] l') : f = .newline ∧ l' = [f.token, .newline] := by
  cases f with
  | semicolon =>
    obtain ⟨l, hl, -⟩ := h.cons (by decide)
    cases hl
  | newline =>
    cases h with
    | here => exact ⟨rfl, rfl⟩
    | there hl => cases hl

/-- A keyword and an expression have no newline. -/
lemma Doubled.header {prev : Option Token} {t : Token} {e : Expression} {b l' : List Token}
    (h : Doubled prev (t :: (e.yield ++ b)) l') (ht : t ≠ .newline) :
    ∃ prev b', Doubled prev b b' ∧ l' = t :: (e.yield ++ b') := by
  obtain ⟨l₁, h₁, rfl⟩ := h.cons ht
  obtain ⟨b', h₂, rfl⟩ := h₁.behind e.yield_ne
  exact ⟨_, b', h₂, rfl⟩

/-- Every newline of a derivation that is not behind a brace can be doubled. -/
lemma exists_doubledDerivation {symbol : Nonterminal} (d : Derivation symbol) :
    ∀ {prev l'}, Doubled prev d.yield l' → DoubledDerivation d l' := by
  induction d with
  | scope f stats ih =>
    intro prev l' h
    obtain ⟨l₁, h₁, rfl⟩ := h.cons nofun
    -- the newline is not the one behind the brace, so it is in the statements
    obtain ⟨prev₂, l₂, h₂, rfl⟩ := h₁.behind_brace
    obtain ⟨l₃, h₃, rfl⟩ := h₂.append_left nofun
    obtain ⟨stats', rfl, hrun, hresolved⟩ := ih h₃
    refine ⟨.scope f stats', rfl, ?_, fun _ => hresolved _⟩
    intro follow
    rw [Derivation.run, Derivation.run, hrun, h₃.firstToken]
  | empty =>
    intro prev l' h
    cases h
  | link stats stat ihstats ihstat =>
    intro prev l' h
    rcases h.append with ⟨l₁, h₁, rfl⟩ | ⟨l₁, h₁, rfl⟩
    · obtain ⟨stats', rfl, hrun, hresolved⟩ := ihstats h₁
      refine ⟨.link stats' stat, rfl, ?_, fun _ h => ⟨hresolved _ h.1, h.2⟩⟩
      intro follow
      rw [Derivation.run, Derivation.run, hrun]
    · obtain ⟨stat', rfl, hrun, hresolved⟩ := ihstat h₁
      refine ⟨.link stats stat', rfl, ?_, ?_⟩
      · intro follow
        rw [Derivation.run, Derivation.run, hrun, h₁.firstToken]
      · intro follow h
        rw [Derivation.Resolved, h₁.firstToken]
        exact ⟨h.1, hresolved _ h.2⟩
  | expression e f =>
    intro prev l' h
    obtain ⟨l₁, h₁, rfl⟩ := h.behind e.yield_ne
    obtain ⟨rfl, rfl⟩ := h₁.flush
    -- the second newline is a flush of the statement
    have hdoubled : DoubledDerivation (.expression e .newline) _ :=
      doubledDerivation_of_ends ?_ (fun _ => rfl) (fun _ h => h)
    · rw [Derivation.yield, List.append_assoc] at hdoubled
      exact hdoubled
    · intro follow s p s' hrun
      obtain ⟨expr, s₁, -, hrun⟩ := parserM_bind_eq_some.mp hrun
      rw [parserM_bind, shift_newline, Option.bind_some] at hrun
      exact astNewNodeStatExpr_ahead hrun
  | block body ih =>
    intro prev l' h
    obtain ⟨body', rfl, hrun, hresolved⟩ := ih h
    exact ⟨.block body', rfl, hrun, hresolved⟩
  | ifThen e trueScope ih =>
    intro prev l' h
    obtain ⟨prev₂, l₂, h₂, rfl⟩ := h.header nofun
    obtain ⟨trueScope', rfl, hrun, hresolved⟩ := ih h₂
    refine ⟨.ifThen e trueScope', rfl, ?_, fun _ h => ⟨h.1, hresolved _ h.2⟩⟩
    intro follow
    rw [Derivation.run, Derivation.run, hrun]
  | ifElse e trueScope falseScope iht ihf =>
    intro prev l' h
    obtain ⟨prev₂, l₂, h₂, rfl⟩ := h.header nofun
    rcases h₂.append with ⟨l₃, h₃, rfl⟩ | ⟨l₃, h₃, rfl⟩
    · obtain ⟨trueScope', rfl, hrun, hresolved⟩ := iht h₃
      refine ⟨.ifElse e trueScope' falseScope, rfl, ?_, fun _ h => ⟨h.1, hresolved _ h.2.1, h.2.2⟩⟩
      intro follow
      rw [Derivation.run, Derivation.run, hrun]
    · obtain ⟨l₄, h₄, rfl⟩ := h₃.cons nofun
      obtain ⟨falseScope', rfl, hrun, hresolved⟩ := ihf h₄
      refine ⟨.ifElse e trueScope falseScope', rfl, ?_, fun _ h => ⟨h.1, h.2.1, hresolved _ h.2.2⟩⟩
      intro follow
      rw [Derivation.run, Derivation.run, hrun]
  | ifElif e trueScope elifs iht ihf =>
    intro prev l' h
    obtain ⟨prev₂, l₂, h₂, rfl⟩ := h.header nofun
    rcases h₂.append with ⟨l₃, h₃, rfl⟩ | ⟨l₃, h₃, rfl⟩
    · obtain ⟨trueScope', rfl, hrun, hresolved⟩ := iht h₃
      refine ⟨.ifElif e trueScope' elifs, rfl, ?_, fun _ h => ⟨h.1, hresolved _ h.2.1, h.2.2⟩⟩
      intro follow
      rw [Derivation.run, Derivation.run, hrun]
    · obtain ⟨elifs', rfl, hrun, hresolved⟩ := ihf h₃
      refine ⟨.ifElif e trueScope elifs', rfl, ?_, fun _ h => ⟨h.1, h.2.1, hresolved _ h.2.2⟩⟩
      intro follow
      rw [Derivation.run, Derivation.run, hrun]
  | switch e f choices ih =>
    intro prev l' h
    obtain ⟨prev₂, l₂, h₂, rfl⟩ := h.header nofun
    obtain ⟨l₃, h₃, rfl⟩ := h₂.cons nofun
    obtain ⟨prev₄, l₄, h₄, rfl⟩ := h₃.behind_brace
    obtain ⟨l₅, h₅, rfl⟩ := h₄.append_left nofun
    obtain ⟨choices', rfl, hrun, hresolved⟩ := ih h₅
    refine ⟨.switch e f choices', rfl, ?_, fun _ h => ⟨h.1, hresolved _ h.2⟩⟩
    intro follow
    rw [Derivation.run, Derivation.run, hrun, h₅.firstToken]
  | «while» e loopScope ih =>
    intro prev l' h
    obtain ⟨prev₂, l₂, h₂, rfl⟩ := h.header nofun
    obtain ⟨loopScope', rfl, hrun, hresolved⟩ := ih h₂
    refine ⟨.while e loopScope', rfl, ?_, fun _ h => ⟨h.1, hresolved _ h.2⟩⟩
    intro follow
    rw [Derivation.run, Derivation.run, hrun]
  | ret e =>
    intro prev l' h
    obtain ⟨l₁, h₁, rfl⟩ := h.cons nofun
    -- no newline is in an expression
    exact absurd rfl (e.yield_ne _ h₁.mem).1
  | func name args retType body ih =>
    intro prev l' h
    obtain ⟨l₁, h₁, rfl⟩ := h.cons nofun
    obtain ⟨l₂, h₂, rfl⟩ := h₁.cons nofun
    obtain ⟨l₃, h₃, rfl⟩ := h₂.cons nofun
    obtain ⟨l₄, h₄, rfl⟩ := h₃.behind args.yield_ne
    obtain ⟨l₅, h₅, rfl⟩ := h₄.cons nofun
    obtain ⟨l₆, h₆, rfl⟩ := h₅.behind (retType_ne retType)
    obtain ⟨body', rfl, hrun, hresolved⟩ := ih h₆
    refine ⟨.func name args retType body', rfl, ?_, fun _ => hresolved _⟩
    intro follow
    rw [Derivation.run, Derivation.run, hrun]
  | flush stat f ih =>
    intro prev l' h
    rcases h.append with ⟨l₁, h₁, rfl⟩ | ⟨l₁, h₁, rfl⟩
    · obtain ⟨stat', rfl, hrun, hresolved⟩ := ih h₁
      refine ⟨.flush stat' f, rfl, ?_, fun _ => hresolved _⟩
      intro follow
      rw [Derivation.run, Derivation.run, hrun]
    · obtain ⟨rfl, rfl⟩ := h₁.flush
      have hdoubled : DoubledDerivation (.flush stat .newline) _ :=
        doubledDerivation_of_ends ?_ (fun _ => rfl) (fun _ h => h)
      · rw [Derivation.yield, List.append_assoc] at hdoubled
        exact hdoubled
      · intro follow s p s' hrun
        obtain ⟨node, s₁, -, hrun⟩ := parserM_bind_eq_some.mp hrun
        rw [parserM_bind, shift_newline, Option.bind_some] at hrun
        cases hrun
        rfl
  | firstChoice value body ih =>
    intro prev l' h
    obtain ⟨l₁, h₁, rfl⟩ := h.behind (choiceYield_ne value)
    obtain ⟨body', rfl, hrun, hresolved⟩ := ih h₁
    refine ⟨.firstChoice value body', rfl, ?_, fun _ => hresolved _⟩
    intro follow
    rw [Derivation.run, Derivation.run, hrun]
  | nextChoice choices value body ihchoices ih =>
    intro prev l' h
    rcases h.append with ⟨l₁, h₁, rfl⟩ | ⟨l₁, h₁, rfl⟩
    · obtain ⟨choices', rfl, hrun, hresolved⟩ := ihchoices h₁
      refine ⟨.nextChoice choices' value body, rfl, ?_, fun _ h => ⟨hresolved _ h.1, h.2⟩⟩
      intro follow
      rw [Derivation.run, Derivation.run, hrun]
    · obtain ⟨l₂, h₂, rfl⟩ := h₁.behind (choiceYield_ne value)
      obtain ⟨body', rfl, hrun, hresolved⟩ := ih h₂
      refine ⟨.nextChoice choices value body', rfl, ?_, fun _ h => ⟨h.1, hresolved _ h.2⟩⟩
      intro follow
      rw [Derivation.run, Derivation.run, hrun]
  | elifThen e trueScope ih =>
    intro prev l' h
    obtain ⟨prev₂, l₂, h₂, rfl⟩ := h.header nofun
    obtain ⟨trueScope', rfl, hrun, hresolved⟩ := ih h₂
    refine ⟨.elifThen e trueScope', rfl, ?_, fun _ h => ⟨h.1, hresolved _ h.2⟩⟩
    intro follow
    rw [Derivation.run, Derivation.run, hrun]
  | elifElif e trueScope elifs iht ihf =>
    intro prev l' h
    obtain ⟨prev₂, l₂, h₂, rfl⟩ := h.header nofun
    rcases h₂.append with ⟨l₃, h₃, rfl⟩ | ⟨l₃, h₃, rfl⟩
    · obtain ⟨trueScope', rfl, hrun, hresolved⟩ := iht h₃
      refine ⟨.elifElif e trueScope' elifs, rfl, ?_, fun _ h => ⟨h.1, hresolved _ h.2.1, h.2.2⟩⟩
      intro follow
      rw [Derivation.run, Derivation.run, hrun]
    · obtain ⟨elifs', rfl, hrun, hresolved⟩ := ihf h₃
      refine ⟨.elifElif e trueScope elifs', rfl, ?_, fun _ h => ⟨h.1, h.2.1, hresolved _ h.2.2⟩⟩
      intro follow
      rw [Derivation.run, Derivation.run, hrun]
  | elifElse e trueScope falseScope iht ihf =>
    intro prev l' h
    obtain ⟨prev₂, l₂, h₂, rfl⟩ := h.header nofun
    rcases h₂.append with ⟨l₃, h₃, rfl⟩ | ⟨l₃, h₃, rfl⟩
    · obtain ⟨trueScope', rfl, hrun, hresolved⟩ := iht h₃
      refine ⟨.elifElse e trueScope' falseScope, rfl, ?_, fun _ h => ⟨h.1, hresolved _ h.2.1, h.2.2⟩⟩
      intro follow
      rw [Derivation.run, Derivation.run, hrun]
    · obtain ⟨l₄, h₄, rfl⟩ := h₃.cons nofun
      obtain ⟨falseScope', rfl, hrun, hresolved⟩ := ihf h₄
      refine ⟨.elifElse e trueScope falseScope', rfl, ?_,
        fun _ h => ⟨h.1, h.2.1, hresolved _ h.2.2⟩⟩
      intro follow
      rw [Derivation.run, Derivation.run, hrun]

/-- The same for a program. -/
lemma exists_doubledProgram {program : List (Derivation .statement)} {prev : Option Token}
    {l' : List Token} (h : Doubled prev (programYield program) l') :
    ∃ program', programYield program' = l' ∧
      (∀ s, runProgram program' s = runProgram program s) ∧
      (ProgramResolved program → ProgramResolved program') := by
  induction program generalizing prev l' with
  | nil => cases h
  | cons stat program ih =>
    rw [programYield, List.flatMap_cons, ← programYield] at h
    rcases h.append with ⟨l₁, h₁, rfl⟩ | ⟨l₁, h₁, rfl⟩
    · obtain ⟨stat', rfl, hrun, hresolved⟩ := exists_doubledDerivation stat h₁
      refine ⟨stat' :: program, rfl, ?_, fun h => ⟨hresolved _ h.1, h.2⟩⟩
      intro s
      rw [runProgram, runProgram, hrun]
    · obtain ⟨program', rfl, hrun, hresolved⟩ := ih h₁
      refine ⟨stat :: program', rfl, ?_, ?_⟩
      · intro s
        simp only [runProgram, hrun, h₁.firstToken]
      · intro h
        rw [ProgramResolved, h₁.firstToken]
        exact ⟨h.1, hresolved h.2⟩

/-! ## Behind a brace -/

/-- Where a blank line is looked for: behind a brace, behind its newline, or elsewhere. -/
inductive BracePlace
  | brace
  | newline
  | other

/-- A second newline behind a brace is an error. -/
def BracePlace.nextNewline : BracePlace → Option BracePlace
  | .brace => some .newline
  | .newline => none
  | .other => some .other

def BracePlace.next (place : BracePlace) (t : Token) : Option BracePlace :=
  if t = .braceOpen then some .brace
  else if t = .newline then place.nextNewline
  else some .other

/-- The places of a text. -/
def BracePlace.read (place : BracePlace) (tokens : List Token) : Option BracePlace :=
  tokens.foldlM BracePlace.next place

lemma BracePlace.read_append (place : BracePlace) (a b : List Token) :
    place.read (a ++ b) = (place.read a).bind (·.read b) := List.foldlM_append

lemma BracePlace.read_cons (place : BracePlace) (t : Token) (l : List Token) :
    place.read (t :: l) = (place.next t).bind (·.read l) := List.foldlM_cons

lemma BracePlace.next_of_ne (place : BracePlace) {t : Token} (h : t ≠ .newline ∧ t ≠ .braceOpen) :
    place.next t = some .other := by
  rw [BracePlace.next, if_neg h.2, if_neg h.1]

/-- There is no blank line behind a brace, whatever is in front of the text. -/
def NoBlank (l : List Token) : Prop :=
  ∀ place : BracePlace, ∃ place', place.read l = some place'

/-- Nor is there one if the text goes on. -/
def NoBlankBehind (l : List Token) : Prop :=
  ∀ place : BracePlace, place.read l = some .other

lemma NoBlankBehind.noBlank {l : List Token} (h : NoBlankBehind l) : NoBlank l :=
  fun place => ⟨.other, h place⟩

lemma NoBlankBehind.append {a b : List Token} (ha : NoBlank a) (hb : NoBlankBehind b) :
    NoBlankBehind (a ++ b) := by
  intro place
  obtain ⟨place', hplace⟩ := ha place
  rw [BracePlace.read_append, hplace, Option.bind_some, hb place']

lemma NoBlankBehind.cons {t : Token} {l : List Token} (ht : t ≠ .newline ∧ t ≠ .braceOpen)
    (hl : NoBlankBehind l) : NoBlankBehind (t :: l) := by
  intro place
  rw [BracePlace.read_cons, place.next_of_ne ht, Option.bind_some, hl]

/-- Tokens that are neither newlines nor braces. -/
lemma noBlank_of_ne {l : List Token} (h : ∀ t ∈ l, t ≠ .newline ∧ t ≠ .braceOpen) :
    NoBlank l := by
  induction l with
  | nil => exact fun place => ⟨place, rfl⟩
  | cons t l ih =>
    intro place
    obtain ⟨ht, hrest⟩ := List.forall_mem_cons.mp h
    rw [BracePlace.read_cons, place.next_of_ne ht]
    exact ih hrest .other

/-- The last token of an expression is not a brace. -/
lemma Expression.noBlankBehind (e : Expression) : NoBlankBehind e.yield := by
  have hlast : ∀ (l : List Token) (t : Token), (∀ u ∈ l ++ [t], u ≠ .newline ∧ u ≠ .braceOpen) →
      NoBlankBehind (l ++ [t]) := by
    intro l t h
    refine .append (noBlank_of_ne fun u hu => h u (List.mem_append_left _ hu)) ?_
    intro place
    rw [BracePlace.read_cons, place.next_of_ne (h t (by simp))]
    rfl
  have hne := e.yield_ne
  rcases List.eq_nil_or_concat e.yield with hnil | ⟨l, t, heq⟩
  · cases e <;> simp [Expression.yield] at hnil
  · rw [heq, List.concat_eq_append] at hne ⊢
    exact hlast l t hne

/-- A statement may end in newlines. -/
lemma NoBlankBehind.flush {l : List Token} (h : NoBlankBehind l) (f : Flush) :
    NoBlankBehind (l ++ [f.token]) := by
  intro place
  rw [BracePlace.read_append, h place]
  cases f <;> rfl

/-- Braces, with one newline at most. -/
lemma noBlankBehind_braces (f : Option Flush) {l : List Token} (h : NoBlank l) :
    NoBlankBehind (.braceOpen :: (flushYield f ++ (l ++ [.braceClose]))) := by
  intro place
  have hflush : ∃ place', (BracePlace.brace).read (flushYield f) = some place' := by
    rcases f with _ | _ | _ <;> exact ⟨_, rfl⟩
  obtain ⟨place', hflush⟩ := hflush
  rw [BracePlace.read_cons]
  change (BracePlace.brace).read _ = _
  rw [BracePlace.read_append, hflush, Option.bind_some]
  exact NoBlankBehind.append h (fun _ => rfl) place'

/-- A keyword, an expression, and what is behind them. -/
lemma NoBlankBehind.header {t : Token} {l : List Token} (ht : t ≠ .newline ∧ t ≠ .braceOpen)
    (e : Expression) (hl : NoBlankBehind l) : NoBlankBehind (t :: (e.yield ++ l)) :=
  .cons ht (.append e.noBlankBehind.noBlank hl)

/-- There is none in a derivation; only an empty list of statements ends behind a brace. -/
lemma Derivation.noBlank {symbol : Nonterminal} (d : Derivation symbol) :
    NoBlankBehind d.yield ∨ symbol = .statements ∧ d.yield = [] := by
  induction d with
  | scope f stats ih =>
    refine .inl (noBlankBehind_braces f ?_)
    rcases ih with h | ⟨-, h⟩
    · exact h.noBlank
    · exact fun place => ⟨place, by rw [h]; rfl⟩
  | empty => exact .inr ⟨rfl, rfl⟩
  | link stats stat ihstats ihstat =>
    have hstat := ihstat.resolve_right (nomatch ·.1)
    left
    rcases ihstats with hstats | ⟨-, hstats⟩
    · exact .append hstats.noBlank hstat
    · rw [Derivation.yield, hstats]
      exact hstat
  | expression e f => exact .inl (e.noBlankBehind.flush f)
  | block body ih => exact .inl (ih.resolve_right (nomatch ·.1))
  | ifThen e trueScope ih =>
    exact .inl (.header (by exact ⟨nofun, nofun⟩) e (ih.resolve_right (nomatch ·.1)))
  | ifElse e trueScope falseScope iht ihf =>
    have htrue := iht.resolve_right (nomatch ·.1)
    have hfalse := ihf.resolve_right (nomatch ·.1)
    have helse : NoBlankBehind (.keywordElse :: falseScope.yield) :=
      .cons (by exact ⟨nofun, nofun⟩) hfalse
    exact .inl (.header (by exact ⟨nofun, nofun⟩) e (.append htrue.noBlank helse))
  | ifElif e trueScope elifs iht ihf =>
    have htrue := iht.resolve_right (nomatch ·.1)
    have helifs := ihf.resolve_right (nomatch ·.1)
    exact .inl (.header (by exact ⟨nofun, nofun⟩) e (.append htrue.noBlank helifs))
  | switch e f choices ih =>
    have hchoices := ih.resolve_right (nomatch ·.1)
    exact .inl (.header (by exact ⟨nofun, nofun⟩) e (noBlankBehind_braces f hchoices.noBlank))
  | «while» e loopScope ih =>
    exact .inl (.header (by exact ⟨nofun, nofun⟩) e (ih.resolve_right (nomatch ·.1)))
  | ret e => exact .inl (.cons (by exact ⟨nofun, nofun⟩) e.noBlankBehind)
  | func name args retType body ih =>
    have hbody := ih.resolve_right (nomatch ·.1)
    have hret := NoBlankBehind.append (noBlank_of_ne (retType_ne retType)) hbody
    refine .inl (.cons ⟨nofun, nofun⟩ (.cons ⟨nofun, nofun⟩ (.cons ⟨nofun, nofun⟩ ?_)))
    exact .append (noBlank_of_ne args.yield_ne) (.cons (by exact ⟨nofun, nofun⟩) hret)
  | flush stat f ih => exact .inl ((ih.resolve_right (nomatch ·.1)).flush f)
  | firstChoice value body ih =>
    exact .inl (.append (noBlank_of_ne (choiceYield_ne value)) (ih.resolve_right (nomatch ·.1)))
  | nextChoice choices value body ihchoices ih =>
    have hchoices := ihchoices.resolve_right (nomatch ·.1)
    have hbody := ih.resolve_right (nomatch ·.1)
    exact .inl (.append hchoices.noBlank (.append (noBlank_of_ne (choiceYield_ne value)) hbody))
  | elifThen e trueScope ih =>
    exact .inl (.header (by exact ⟨nofun, nofun⟩) e (ih.resolve_right (nomatch ·.1)))
  | elifElif e trueScope elifs iht ihf =>
    have htrue := iht.resolve_right (nomatch ·.1)
    have helifs := ihf.resolve_right (nomatch ·.1)
    exact .inl (.header (by exact ⟨nofun, nofun⟩) e (.append htrue.noBlank helifs))
  | elifElse e trueScope falseScope iht ihf =>
    have htrue := iht.resolve_right (nomatch ·.1)
    have hfalse := ihf.resolve_right (nomatch ·.1)
    have helse : NoBlankBehind (.keywordElse :: falseScope.yield) :=
      .cons (by exact ⟨nofun, nofun⟩) hfalse
    exact .inl (.header (by exact ⟨nofun, nofun⟩) e (.append htrue.noBlank helse))

lemma noBlank_programYield (program : List (Derivation .statement)) :
    NoBlank (programYield program) := by
  induction program with
  | nil => exact fun place => ⟨place, rfl⟩
  | cons stat program ih =>
    intro place
    have hstat := stat.noBlank.resolve_right (nomatch ·.1)
    rw [programYield, List.flatMap_cons, ← programYield, BracePlace.read_append, hstat place]
    exact ih .other

/-- Two newlines behind a brace are a blank line. -/
lemma not_noBlank (before after : List Token) :
    ¬ NoBlank (before ++ .braceOpen :: .newline :: .newline :: after) := by
  intro h
  obtain ⟨place', hplace⟩ := h .other
  rw [BracePlace.read_append] at hplace
  obtain ⟨place, -, hplace⟩ := Option.bind_eq_some_iff.mp hplace
  cases hplace

/-- A newline can be doubled exactly if it is not behind an opening brace. -/
theorem blank_line_iff {program : List (Derivation .statement)} {before after : List Token}
    (h : Parses (before ++ .newline :: after) program) :
    (∃ program', Parses (before ++ .newline :: .newline :: after) program' ∧
      ∀ s, runProgram program' s = runProgram program s) ↔ before.getLast? ≠ some .braceOpen := by
  constructor
  · rintro ⟨program', hparses, -⟩ hlast
    obtain ⟨l, rfl⟩ := List.getLast?_eq_some_iff.mp hlast
    have hblank := noBlank_programYield program'
    rw [hparses.yield, List.append_assoc] at hblank
    exact not_noBlank l after hblank
  · intro hlast
    have hdoubled : Doubled none (programYield program)
        (before ++ .newline :: .newline :: after) := by
      rw [h.yield]
      exact .of_append after (by rwa [Option.or_none])
    obtain ⟨program', hyield, hrun, hresolved⟩ := exists_doubledProgram hdoubled
    refine ⟨program', ⟨?_, hresolved h.resolved, hyield⟩, hrun⟩
    rintro rfl
    simp [programYield] at hyield

/-- `x`, and a newline. -/
def identifierLine : Derivation .statement := .expression (.operand (.identifier [120])) .newline

lemma parses_identifierLine : Parses ([.identifier [120]] ++ .newline :: []) [identifierLine] :=
  ⟨nofun, ⟨trivial, trivial⟩, rfl⟩

/-- A blank line behind it. -/
theorem blank_line_iff_identifierLine :
    ∃ program', Parses [.identifier [120], .newline, .newline] program' ∧
      ∀ s, runProgram program' s = runProgram [identifierLine] s :=
  (blank_line_iff parses_identifierLine).mpr nofun

/-- Braces with a newline in them. -/
def emptyScope : Derivation .statement := .block (.scope (some .newline) .empty)

/-- A blank line in the braces. -/
theorem blank_line_not_accepted :
    Parses [.braceOpen, .newline, .braceClose] [emptyScope] ∧
      ∀ program, ¬ Parses [.braceOpen, .newline, .newline, .braceClose] program := by
  refine ⟨⟨nofun, ⟨trivial, trivial⟩, rfl⟩, fun program' hparses => ?_⟩
  have hblank := noBlank_programYield program'
  rw [hparses.yield] at hblank
  exact not_noBlank [] [.braceClose] hblank

end PhantomShell
