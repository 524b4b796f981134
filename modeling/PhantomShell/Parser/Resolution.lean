import Mathlib.Data.List.Chain
import PhantomShell.Parser.Unambiguous

/-!
# What the resolution of the conflicts costs

Grouping by precedence and shifting behind a `return` leave a derivation of nearly every text of the
grammar: the expressions are grouped anew, and a `return` takes what can go on with it. A text is lost
exactly if a `return` has a choice `( ? : )` directly behind it, which is then taken for the
arguments of a call.
-/

namespace PhantomShell

/-! ## Grouping anew -/

/-- The expression of a tree whose operands are expressions. -/
def treeExpression : OpTree Expression UnaryOperator BinaryOperator → Expression
  | .atom e => e
  | .unary p t => .unary p (treeExpression t)
  | .binary b l r => .binary b (treeExpression l) (treeExpression r)
  | .group t => .group (treeExpression t)
  | .call f t => .call (treeExpression f) (treeExpression t)

/-- The tokens of a symbol. -/
def symbolYield : OpHead Expression UnaryOperator ⊕ OpTail BinaryOperator → List Token
  | .inl (.atom e) => e.yield
  | .inl (.unary p) => [p.token]
  | .inl .openParen => [.parenOpen]
  | .inr t => [tailToken t]

/-- The symbol is no operand, or one that has been resolved. -/
def SymbolResolved : OpHead Expression UnaryOperator ⊕ OpTail BinaryOperator → Prop
  | .inl (.atom e) => e.Resolved ∧ e.tree = .atom e
  | _ => True

/-- The symbols of an expression. -/
def Expression.symbols (e : Expression) :
    List (OpHead Expression UnaryOperator ⊕ OpTail BinaryOperator) :=
  e.tree.yield itemLexicon

lemma treeExpression_tree (e : Expression) : treeExpression e.tree = e := by
  induction e with
  | unary p e ih => rw [Expression.tree, treeExpression, ih]
  | binary b l r ihl ihr => rw [Expression.tree, treeExpression, ihl, ihr]
  | call f e ihf ihe => rw [Expression.tree, treeExpression, ihf, ihe]
  | group e ih => rw [Expression.tree, treeExpression, ih]
  | _ => rfl

lemma yield_treeExpression (t : OpTree Expression UnaryOperator BinaryOperator) :
    (treeExpression t).yield = (t.yield itemLexicon).flatMap symbolYield := by
  induction t with
  | atom e => simp [treeExpression, OpTree.yield, itemLexicon, symbolYield]
  | unary p t ih =>
    simp [treeExpression, Expression.yield, OpTree.yield, ih, itemLexicon, symbolYield]
  | binary b l r ihl ihr =>
    simp [treeExpression, Expression.yield, OpTree.yield, ihl, ihr, itemLexicon, symbolYield,
      tailToken]
  | group t ih =>
    simp [treeExpression, Expression.yield, OpTree.yield, ih, itemLexicon, symbolYield, tailToken]
  | call f t ihf iht =>
    simp [treeExpression, Expression.yield, OpTree.yield, ihf, iht, itemLexicon, symbolYield,
      tailToken]

lemma Expression.flatMap_symbols (e : Expression) : e.symbols.flatMap symbolYield = e.yield := by
  rw [symbols, ← yield_treeExpression, treeExpression_tree]

/-- A grouped tree of resolved operands is a resolved expression. -/
lemma resolved_treeExpression {t : OpTree Expression UnaryOperator BinaryOperator}
    (ht : t.Grouped yaccReduces) (h : ∀ x ∈ t.yield itemLexicon, SymbolResolved x) :
    (treeExpression t).Resolved ∧ (treeExpression t).tree = t := by
  induction t with
  | atom e => exact h (.inl (.atom e)) List.mem_cons_self
  | unary p t ih =>
    obtain ⟨hres, htree⟩ := ih ht.1 fun x hx => h x (List.mem_cons_of_mem _ hx)
    refine ⟨⟨hres, ?_⟩, ?_⟩
    · rw [htree]
      exact ht.2
    · rw [treeExpression, Expression.tree, htree]
  | binary b l r ihl ihr =>
    obtain ⟨hl, hltree⟩ := ihl ht.1.1 fun x hx => h x (by simp [OpTree.yield, hx])
    obtain ⟨hr, hrtree⟩ := ihr ht.2.1 fun x hx => h x (by simp [OpTree.yield, hx])
    refine ⟨⟨⟨hl, ?_⟩, hr, ?_⟩, ?_⟩
    · rw [hltree]
      exact ht.1.2
    · rw [hrtree]
      exact ht.2.2
    · rw [treeExpression, Expression.tree, hltree, hrtree]
  | group t ih =>
    obtain ⟨hres, htree⟩ := ih ht fun x hx => h x (by simp [OpTree.yield, hx])
    exact ⟨hres, by rw [treeExpression, Expression.tree, htree]⟩
  | call f t ihf iht =>
    obtain ⟨hf, hftree⟩ := ihf ht.1.1 fun x hx => h x (by simp [OpTree.yield, hx])
    obtain ⟨hres, htree⟩ := iht ht.2 fun x hx => h x (by simp [OpTree.yield, hx])
    refine ⟨⟨⟨hf, ?_⟩, hres⟩, ?_⟩
    · rw [hftree]
      exact ht.1.2
    · rw [treeExpression, Expression.tree, hftree, htree]

/-! ### Both ends -/

/-- The first operand is a choice. -/
def Expression.startsInTernary : Expression → Bool
  | .ternary _ _ _ => true
  | .binary _ l _ => l.startsInTernary
  | .call f _ => f.startsInTernary
  | _ => false

/-- The symbol is a choice. -/
def isTernarySymbol : OpHead Expression UnaryOperator ⊕ OpTail BinaryOperator → Bool
  | .inl (.atom (.ternary _ _ _)) => true
  | _ => false

/-- The symbol is an identifier. -/
def isIdentifierSymbol : OpHead Expression UnaryOperator ⊕ OpTail BinaryOperator → Bool
  | .inl (.atom (.operand (.identifier _))) => true
  | _ => false

lemma Expression.symbols_ne_nil (e : Expression) : e.symbols ≠ [] := by
  cases e <;> simp [symbols, tree, OpTree.yield]

lemma Expression.startsInTernary_eq (e : Expression) :
    e.startsInTernary = e.symbols.head?.any isTernarySymbol := by
  have hhead : ∀ (e : Expression) (l : List _), (e.symbols ++ l).head? = e.symbols.head? := by
    intro e l
    rw [List.head?_append, List.head?_eq_some_head e.symbols_ne_nil]
    rfl
  induction e with
  | binary b l r ihl ihr =>
    rw [startsInTernary, ihl, ← hhead l]
    rfl
  | call f e ihf ihe =>
    rw [startsInTernary, ihf, ← hhead f]
    rfl
  | _ => rfl

lemma Expression.endsInIdentifier_eq (e : Expression) :
    e.endsInIdentifier = e.symbols.getLast?.any isIdentifierSymbol := by
  have hlast : ∀ (e : Expression) (l : List _), (l ++ e.symbols).getLast? = e.symbols.getLast? := by
    intro e l
    rw [List.getLast?_append, List.getLast?_eq_some_getLast e.symbols_ne_nil]
    rfl
  have hclose : ∀ l, (l ++ [Sum.inr .closeParen]).getLast?.any isIdentifierSymbol = false := by
    intro l
    rw [List.getLast?_concat]
    rfl
  induction e with
  | operand a => cases a <;> rfl
  | unary p e ih =>
    rw [endsInIdentifier, ih, ← hlast e [.inl (.unary p)]]
    rfl
  | binary b l r ihl ihr =>
    rw [endsInIdentifier, ihr, ← hlast r (l.symbols ++ [.inr (.binary b)]), List.append_assoc]
    rfl
  | group e ih => exact (hclose (.inl .openParen :: e.symbols)).symm
  | call f e ihf ihe =>
    have h := hclose (f.symbols ++ .inr .openParen :: e.symbols)
    rw [List.append_assoc] at h
    exact h.symm
  | _ => rfl

/-! ### Resolved expressions -/

/-- The same text, and the same at both ends. -/
structure Expression.Like (e e' : Expression) : Prop where
  yield : e'.yield = e.yield
  starts : e'.startsInTernary = e.startsInTernary
  ends : e'.endsInIdentifier = e.endsInIdentifier

lemma Expression.Like.rfl' (e : Expression) : e.Like e := ⟨rfl, rfl, rfl⟩

lemma Expression.Like.trans {e e₁ e₂ : Expression} (h : e.Like e₁) (h' : e₁.Like e₂) : e.Like e₂ :=
  ⟨h'.yield.trans h.yield, h'.starts.trans h.starts, h'.ends.trans h.ends⟩

/-- There is a grouped tree for the operators. -/
lemma Expression.exists_like_of_symbols {e : Expression} (h : ∀ x ∈ e.symbols, SymbolResolved x) :
    ∃ e', e.Like e' ∧ e'.Resolved := by
  obtain ⟨t, ht, hyield⟩ := exists_grouped itemLexicon yaccReduces e.tree
  obtain ⟨hres, htree⟩ := resolved_treeExpression ht (by rw [hyield]; exact h)
  have hsymbols : (treeExpression t).symbols = e.symbols := by
    rw [symbols, htree, hyield, symbols]
  refine ⟨treeExpression t, ⟨?_, ?_, ?_⟩, hres⟩
  · rw [← flatMap_symbols, hsymbols, flatMap_symbols]
  · rw [startsInTernary_eq, hsymbols, ← startsInTernary_eq]
  · rw [endsInIdentifier_eq, hsymbols, ← endsInIdentifier_eq]

/-- The choices inside of an expression can be resolved. -/
lemma Expression.exists_symbols (e : Expression) :
    ∃ e₁, e.Like e₁ ∧ ∀ x ∈ e₁.symbols, SymbolResolved x := by
  induction e with
  | operand a =>
    refine ⟨.operand a, .rfl' _, ?_⟩
    intro x hx
    rw [List.mem_singleton.mp hx]
    exact ⟨trivial, rfl⟩
  | varDeclaration varType varName =>
    refine ⟨.varDeclaration varType varName, .rfl' _, ?_⟩
    intro x hx
    rw [List.mem_singleton.mp hx]
    exact ⟨trivial, rfl⟩
  | unary p e ih =>
    obtain ⟨e₁, hlike, hres⟩ := ih
    refine ⟨.unary p e₁, ⟨?_, rfl, hlike.ends⟩, List.forall_mem_cons.mpr ⟨trivial, hres⟩⟩
    rw [yield, yield, hlike.yield]
  | binary b l r ihl ihr =>
    obtain ⟨l₁, hl, hlres⟩ := ihl
    obtain ⟨r₁, hr, hrres⟩ := ihr
    refine ⟨.binary b l₁ r₁, ⟨?_, hl.starts, hr.ends⟩, ?_⟩
    · rw [yield, yield, hl.yield, hr.yield]
    · exact List.forall_mem_append.mpr ⟨hlres, List.forall_mem_cons.mpr ⟨trivial, hrres⟩⟩
  | group e ih =>
    obtain ⟨e₁, hlike, hres⟩ := ih
    refine ⟨.group e₁, ⟨?_, rfl, rfl⟩, ?_⟩
    · rw [yield, yield, hlike.yield]
    · exact List.forall_mem_cons.mpr ⟨trivial, List.forall_mem_append.mpr
        ⟨hres, List.forall_mem_singleton.mpr trivial⟩⟩
  | call f e ihf ihe =>
    obtain ⟨f₁, hf, hfres⟩ := ihf
    obtain ⟨e₁, he, heres⟩ := ihe
    refine ⟨.call f₁ e₁, ⟨?_, hf.starts, rfl⟩, ?_⟩
    · rw [yield, yield, hf.yield, he.yield]
    · exact List.forall_mem_append.mpr ⟨hfres, List.forall_mem_cons.mpr ⟨trivial,
        List.forall_mem_append.mpr ⟨heres, List.forall_mem_singleton.mpr trivial⟩⟩⟩
  | ternary e₁ e₂ e₃ ih₁ ih₂ ih₃ =>
    -- the parts of a choice are resolved as wholes, the choice itself is one symbol
    obtain ⟨f₁, hf₁, hsymbols₁⟩ := ih₁
    obtain ⟨f₂, hf₂, hsymbols₂⟩ := ih₂
    obtain ⟨f₃, hf₃, hsymbols₃⟩ := ih₃
    obtain ⟨g₁, hg₁, hres₁⟩ := exists_like_of_symbols hsymbols₁
    obtain ⟨g₂, hg₂, hres₂⟩ := exists_like_of_symbols hsymbols₂
    obtain ⟨g₃, hg₃, hres₃⟩ := exists_like_of_symbols hsymbols₃
    refine ⟨.ternary g₁ g₂ g₃, ⟨?_, rfl, rfl⟩, ?_⟩
    · rw [yield, yield, (hf₁.trans hg₁).yield, (hf₂.trans hg₂).yield, (hf₃.trans hg₃).yield]
    · intro x hx
      rw [List.mem_singleton.mp hx]
      exact ⟨⟨hres₁, hres₂, hres₃⟩, rfl⟩

/-- The text of an expression is that of a resolved one. -/
theorem Expression.exists_resolved (e : Expression) : ∃ e', e.Like e' ∧ e'.Resolved := by
  obtain ⟨e₁, hlike, hsymbols⟩ := e.exists_symbols
  obtain ⟨e', hlike', hres⟩ := exists_like_of_symbols hsymbols
  exact ⟨e', hlike.trans hlike', hres⟩

/-! ## Shifting behind a return -/

/-- The last identifier becomes the type of a variable. -/
lemma Expression.exists_declaration {e : Expression} (h : e.endsInIdentifier = true) (w : CStr) :
    ∃ e' : Expression, e'.yield = e.yield ++ [.identifier w] ∧ e'.endsInIdentifier = false := by
  induction e with
  | operand a =>
    cases a with
    | identifier v => exact ⟨.varDeclaration v w, rfl, rfl⟩
    | constant c => cases h
  | unary p e ih =>
    obtain ⟨e', hyield, hends⟩ := ih h
    exact ⟨.unary p e', by rw [yield, yield, hyield]; rfl, hends⟩
  | binary b l r ihl ihr =>
    obtain ⟨r', hyield, hends⟩ := ihr h
    exact ⟨.binary b l r', by rw [yield, yield, hyield]; simp, hends⟩
  | _ => cases h

/-- The first operand is a declaration. -/
def Expression.startsInDeclaration : Expression → Bool
  | .varDeclaration _ _ => true
  | .binary _ l _ => l.startsInDeclaration
  | .call f _ => f.startsInDeclaration
  | _ => false

/-- The rest of it. -/
lemma Expression.exists_name {e : Expression} (h : e.startsInDeclaration = true) :
    ∃ w z, ∃ e' : Expression,
      e.yield = .identifier w :: e'.yield ∧ e'.yield.head? = some (.identifier z) := by
  induction e with
  | varDeclaration varType varName =>
    exact ⟨varType, varName, .operand (.identifier varName), rfl, rfl⟩
  | binary b l r ihl ihr =>
    obtain ⟨w, z, e', hyield, hhead⟩ := ihl h
    refine ⟨w, z, .binary b e' r, by rw [yield, hyield]; rfl, ?_⟩
    rw [yield, List.head?_append, hhead]
    rfl
  | call f x ihf ihx =>
    obtain ⟨w, z, e', hyield, hhead⟩ := ihf h
    refine ⟨w, z, .call e' x, by rw [yield, hyield]; rfl, ?_⟩
    rw [yield, List.head?_append, hhead]
    rfl
  | _ => cases h

lemma Expression.head?_yield (e : Expression) (l : List Token) :
    (e.yield ++ l).head? = e.yield.head? := by
  obtain ⟨t, tokens, heq, -⟩ := e.head
  rw [heq]
  rfl

/-- An expression goes on with another one whose first token can be behind it. -/
lemma Expression.exists_joined {e e₂ : Expression} {t : Token} (ht : e₂.yield.head? = some t)
    (hcontinues : e.continues t = true) (hternary : e₂.startsInTernary = false)
    (hdeclaration : e₂.startsInDeclaration = false) :
    ∃ e' : Expression, e'.yield = e.yield ++ e₂.yield := by
  induction e₂ with
  | operand a =>
    cases a with
    | identifier w =>
      cases Option.some.inj ht
      obtain ⟨e', hyield, -⟩ := exists_declaration hcontinues w
      exact ⟨e', hyield⟩
    | constant c =>
      cases Option.some.inj ht
      cases c <;> cases hcontinues
  | unary p x ih =>
    cases Option.some.inj ht
    cases p with
    | logicalNot => cases hcontinues
    | unaryMinus => exact ⟨.binary .subtraction e x, rfl⟩
  | binary b l r ihl ihr =>
    rw [yield, head?_yield] at ht
    obtain ⟨e', hyield⟩ := ihl ht hternary hdeclaration
    exact ⟨.binary b e' r, by rw [yield, yield, hyield, List.append_assoc]⟩
  | call f x ihf ihx =>
    rw [yield, head?_yield] at ht
    obtain ⟨e', hyield⟩ := ihf ht hternary hdeclaration
    exact ⟨.call e' x, by rw [yield, yield, hyield, List.append_assoc]⟩
  | group x ih => exact ⟨.call e x, rfl⟩
  | ternary e₁ e₂ e₃ ih₁ ih₂ ih₃ => cases hternary
  | varDeclaration varType varName => cases hdeclaration

/-! ### Statements with separators -/

/-- The statement with separators behind it. -/
def flushed (stat : Derivation .statement) (flushes : List Flush) : Derivation .statement :=
  flushes.foldl .flush stat

lemma yield_flushed (stat : Derivation .statement) (flushes : List Flush) :
    (flushed stat flushes).yield = stat.yield ++ flushes.flatMap flushToken := by
  induction flushes generalizing stat with
  | nil => simp [flushed]
  | cons f flushes ih =>
    have h := ih (.flush stat f)
    rw [Derivation.yield, List.append_assoc] at h
    exact h

lemma resolved_flushed {stat : Derivation .statement} (h : ∀ follow, stat.Resolved follow)
    (flushes : List Flush) (follow : Option Token) : (flushed stat flushes).Resolved follow := by
  induction flushes generalizing stat with
  | nil => exact h follow
  | cons f flushes ih =>
    apply ih
    intro follow'
    rw [Derivation.Resolved]
    exact h _

/-- What starts with no keyword is an expression. -/
lemma exists_flushed_expression : ∀ {stat : Derivation .statement}, stat.keyword = none →
    ∃ e f flushes, stat = flushed (.expression e f) flushes
  | .expression e f, _ => ⟨e, f, [], rfl⟩
  | .flush stat f, h => by
    rw [Derivation.keyword] at h
    obtain ⟨e, f', flushes, rfl⟩ := exists_flushed_expression h
    exact ⟨e, f', flushes ++ [f], by rw [flushed, flushed, List.foldl_append]; rfl⟩
  | .block _, h | .ifThen _ _, h | .ifElse _ _ _, h | .ifElif _ _ _, h | .switch _ _ _, h
  | .while _ _, h | .ret _, h | .func _ _ _ _, h => by simp [Derivation.keyword] at h

def Derivation.isReturn : Derivation .statement → Bool
  | .ret _ => true
  | _ => false

/-- The statement starts with a choice `( ? : )`. -/
def Derivation.startsInTernary : Derivation .statement → Bool
  | .expression e _ => e.startsInTernary
  | .flush stat _ => stat.startsInTernary
  | _ => false

lemma startsInTernary_flushed (stat : Derivation .statement) (flushes : List Flush) :
    (flushed stat flushes).startsInTernary = stat.startsInTernary := by
  induction flushes generalizing stat with
  | nil => rfl
  | cons f flushes ih =>
    have h := ih (.flush stat f)
    rw [Derivation.startsInTernary] at h
    exact h

/-- Resolved, but for what is behind a `return`. -/
def Derivation.Alone (stat : Derivation .statement) : Prop :=
  ∀ follow, (∀ e, stat = .ret e → ∀ t ∈ follow, e.continues t = false) → stat.Resolved follow

/-- A choice is not directly behind a `return`. -/
def Apart (stat next : Derivation .statement) : Prop :=
  stat.isReturn = true → next.startsInTernary = false

/-- The statements are resolved, with this token behind them. -/
def StatsResolved : List (Derivation .statement) → Option Token → Prop
  | [], _ => True
  | stat :: l, follow =>
    stat.Resolved (firstToken (programYield l) follow) ∧ StatsResolved l follow

lemma exists_ret_of_isReturn {stat : Derivation .statement} (h : stat.isReturn = true) :
    ∃ e, stat = .ret e := by
  cases stat with
  | ret e => exact ⟨e, rfl⟩
  | _ => simp [Derivation.isReturn] at h

/-- What can go on with an expression starts an expression. -/
lemma operandToken_of_continues {e : Expression} {t : Token} (h : e.continues t = true) :
    (operandToken t).isSome := by
  unfold Expression.continues at h
  split at h
  · rfl
  · rfl
  · rw [beq_iff_eq] at h
    rw [h]
    rfl

/-- A `return` takes what can go on with its expression: of the statement behind it all, or the first
identifier. -/
lemma exists_shifted {e : Expression} {stat : Derivation .statement}
    {l : List (Derivation .statement)} {follow : Option Token} {t : Token}
    (ht : stat.yield.head? = some t) (hcontinues : e.continues t = true)
    (hternary : stat.startsInTernary = false) (hl : StatsResolved l follow) :
    ∃ l', programYield l' = programYield (.ret e :: stat :: l) ∧ StatsResolved l' follow ∧
      l'.head?.any Derivation.startsInTernary = false := by
  have hkeyword : stat.keyword = none := by
    obtain ⟨t', tokens, hyield, -, hkeyword⟩ := stat.head
    rw [hyield] at ht
    cases Option.some.inj ht
    rw [← hkeyword, Token.keyword, if_pos (operandToken_of_continues hcontinues)]
  obtain ⟨e₂, f, flushes, rfl⟩ := exists_flushed_expression hkeyword
  rw [startsInTernary_flushed, Derivation.startsInTernary] at hternary
  rw [yield_flushed, Derivation.yield, List.append_assoc, e₂.head?_yield] at ht
  cases hdeclaration : e₂.startsInDeclaration with
  | true =>
    -- the type becomes the name of a variable, and the name starts the next statement
    obtain ⟨w, z, e₃, hyield, hhead⟩ := Expression.exists_name hdeclaration
    rw [hyield] at ht
    cases Option.some.inj ht
    obtain ⟨e', hyield', hends⟩ := Expression.exists_declaration hcontinues w
    obtain ⟨r', hlike', hres'⟩ := e'.exists_resolved
    obtain ⟨r₃, hlike₃, hres₃⟩ := e₃.exists_resolved
    refine ⟨.ret r' :: flushed (.expression r₃ f) flushes :: l, ?_, ⟨?_, ?_, hl⟩, ?_⟩
    · simp [programYield, Derivation.yield, yield_flushed, hlike'.yield, hyield', hlike₃.yield,
        hyield]
    · rw [Derivation.Resolved]
      refine ⟨hres', ?_⟩
      intro t ht
      rw [programYield, List.flatMap_cons, yield_flushed, Derivation.yield, List.append_assoc,
        List.append_assoc, firstToken, r₃.head?_yield, hlike₃.yield, hhead] at ht
      cases Option.some.inj ht
      rw [Expression.continues, hlike'.ends, hends]
    · apply resolved_flushed
      intro follow'
      rw [Derivation.Resolved]
      exact hres₃
    · simp [Derivation.startsInTernary]
  | false =>
    obtain ⟨e', hyield'⟩ := Expression.exists_joined ht hcontinues hternary hdeclaration
    obtain ⟨r', hlike', hres'⟩ := e'.exists_resolved
    refine ⟨flushed (.flush (.ret r') f) flushes :: l, ?_, ⟨?_, hl⟩, ?_⟩
    · simp [programYield, Derivation.yield, yield_flushed, hlike'.yield, hyield']
    · apply resolved_flushed
      intro follow'
      rw [Derivation.Resolved, Derivation.Resolved]
      refine ⟨hres', ?_⟩
      intro t ht
      cases Option.some.inj ht
      cases f <;> rfl
    · rw [List.head?_cons, Option.any_some, startsInTernary_flushed]
      simp [Derivation.startsInTernary]

/-- Statements that are resolved each for itself are, when each `return` has taken what it can. -/
lemma exists_statsResolved {l : List (Derivation .statement)} {follow : Option Token}
    (halone : ∀ stat ∈ l, stat.Alone) (hapart : l.IsChain Apart)
    (hfollow : ∀ e : Expression, ∀ t ∈ follow, e.continues t = false) :
    ∃ l', programYield l' = programYield l ∧ StatsResolved l' follow ∧
      l'.head?.any Derivation.startsInTernary = l.head?.any Derivation.startsInTernary := by
  induction l with
  | nil => exact ⟨[], rfl, trivial, rfl⟩
  | cons stat l ih =>
    obtain ⟨l', hyield, hres, hstart⟩ :=
      ih (fun stat hstat => halone stat (List.mem_cons_of_mem _ hstat)) hapart.tail
    -- either nothing behind the statement continues it, or it is a `return` that takes the first
    -- token of the next one
    by_cases hstop : ∀ e, stat = .ret e → ∀ t ∈ firstToken (programYield l') follow,
        e.continues t = false
    · refine ⟨stat :: l', ?_, ⟨halone stat List.mem_cons_self _ hstop, hres⟩, rfl⟩
      rw [programYield, List.flatMap_cons, ← programYield, hyield]
      rfl
    · push Not at hstop
      obtain ⟨e, rfl, t, ht, hcontinues⟩ := hstop
      rw [Bool.ne_false_iff] at hcontinues
      cases l' with
      | nil =>
        have hnot := hfollow e t ht
        rw [hcontinues] at hnot
        cases hnot
      | cons next l' =>
        have hternary : next.startsInTernary = false := by
          cases l with
          | nil => exact hstart
          | cons next' l =>
            have hapart' : Apart (.ret e) next' := hapart.rel
            exact hstart.trans (hapart' rfl)
        have hhead : next.yield.head? = some t := by
          obtain ⟨t', tokens, heq, -⟩ := next.head
          rw [programYield, List.flatMap_cons, heq] at ht
          rw [heq]
          exact ht
        obtain ⟨l'', hyield'', hres'', hstart''⟩ := exists_shifted hhead hcontinues hternary hres.2
        refine ⟨l'', ?_, hres'', by simpa [Derivation.startsInTernary] using hstart''⟩
        rw [hyield'', programYield, List.flatMap_cons, ← programYield, hyield]
        rfl

/-! ## Every text but some -/

/-- The last statement is a `return`. -/
def Derivation.endsInReturn : Derivation .statements → Bool
  | .empty => false
  | .link _ stat => stat.isReturn

/-- No `return` in it has a choice directly behind it. -/
def Derivation.returnsClear : {symbol : Nonterminal} → Derivation symbol → Bool
  | _, .scope _ stats => stats.returnsClear
  | _, .empty => true
  | _, .link stats stat =>
    stats.returnsClear && stat.returnsClear && !(stats.endsInReturn && stat.startsInTernary)
  | _, .expression _ _ => true
  | _, .block body => body.returnsClear
  | _, .ifThen _ trueScope => trueScope.returnsClear
  | _, .ifElse _ trueScope falseScope => trueScope.returnsClear && falseScope.returnsClear
  | _, .ifElif _ trueScope elifs => trueScope.returnsClear && elifs.returnsClear
  | _, .switch _ _ choices => choices.returnsClear
  | _, .while _ loopScope => loopScope.returnsClear
  | _, .ret _ => true
  | _, .func _ _ _ body => body.returnsClear
  | _, .flush stat _ => stat.returnsClear
  | _, .firstChoice _ body => body.returnsClear
  | _, .nextChoice choices _ body => choices.returnsClear && body.returnsClear
  | _, .elifThen _ trueScope => trueScope.returnsClear
  | _, .elifElif _ trueScope elifs => trueScope.returnsClear && elifs.returnsClear
  | _, .elifElse _ trueScope falseScope => trueScope.returnsClear && falseScope.returnsClear

/-- The statements of a program. -/
def programReturnsClear : List (Derivation .statement) → Bool
  | [] => true
  | stat :: program => stat.returnsClear && programReturnsClear program &&
      !(stat.isReturn && program.head?.any Derivation.startsInTernary)

/-- There is a resolved derivation of the same text; of a list, there are the statements, each for
itself. -/
def Derivation.Resolvable : {symbol : Nonterminal} → Derivation symbol → Prop
  | .statement, stat => ∃ stat' : Derivation .statement, stat'.yield = stat.yield ∧ stat'.Alone ∧
      stat'.isReturn = stat.isReturn ∧ stat'.startsInTernary = stat.startsInTernary
  | .statements, stats => ∃ l : List (Derivation .statement), programYield l = stats.yield ∧
      (∀ stat ∈ l, stat.Alone) ∧ l.IsChain Apart ∧
      ∀ stat ∈ l.getLast?, stat.isReturn = stats.endsInReturn
  | symbol, d => ∃ d' : Derivation symbol, d'.yield = d.yield ∧ ∀ follow, d'.Resolved follow

/-- Statements that are not `return`. -/
lemma resolvable_of {stat stat' : Derivation .statement} (hyield : stat'.yield = stat.yield)
    (hres : ∀ follow, stat'.Resolved follow) (hreturn : stat'.isReturn = stat.isReturn)
    (hstart : stat'.startsInTernary = stat.startsInTernary) : stat.Resolvable :=
  ⟨stat', hyield, fun follow _ => hres follow, hreturn, hstart⟩

/-- The derivation of a list. -/
def statsOf (l : List (Derivation .statement)) : Derivation .statements := l.foldl .link .empty

lemma statsOf_concat (l : List (Derivation .statement)) (stat : Derivation .statement) :
    statsOf (l ++ [stat]) = .link (statsOf l) stat := by
  rw [statsOf, List.foldl_append]
  rfl

lemma yield_statsOf (l : List (Derivation .statement)) : (statsOf l).yield = programYield l := by
  induction l using List.reverseRecOn with
  | nil => rw [statsOf, List.foldl_nil, Derivation.yield]; rfl
  | append_singleton l stat ih =>
    rw [statsOf_concat, Derivation.yield, ih, programYield, programYield, List.flatMap_append,
      List.flatMap_singleton]

lemma statsResolved_concat {l : List (Derivation .statement)} {stat : Derivation .statement}
    {follow : Option Token} : StatsResolved (l ++ [stat]) follow ↔
      StatsResolved l (firstToken stat.yield follow) ∧ stat.Resolved follow := by
  induction l with
  | nil => simp [StatsResolved, programYield, firstToken]
  | cons stat' l ih =>
    rw [List.cons_append, StatsResolved, StatsResolved, ih, and_assoc, programYield,
      List.flatMap_append, List.flatMap_singleton, ← programYield, firstToken, firstToken,
      firstToken, List.head?_append, Option.or_assoc]

lemma resolved_statsOf {l : List (Derivation .statement)} {follow : Option Token} :
    (statsOf l).Resolved follow ↔ StatsResolved l follow := by
  induction l using List.reverseRecOn generalizing follow with
  | nil => simp [statsOf, Derivation.Resolved, StatsResolved]
  | append_singleton l stat ih =>
    rw [statsOf_concat, Derivation.Resolved, statsResolved_concat, ih]

/-- What is behind the last statement of a scope goes on with nothing. -/
lemma Derivation.Resolvable.scope {stats : Derivation .statements} (h : stats.Resolvable)
    (f : Option Flush) : (Derivation.scope f stats).Resolvable := by
  obtain ⟨l, hyield, halone, hapart, -⟩ := h
  have hclose : ∀ e : Expression, ∀ t ∈ some Token.braceClose, e.continues t = false := by
    intro e t ht
    cases ht
    rfl
  obtain ⟨l', hyield', hres, -⟩ := exists_statsResolved halone hapart hclose
  refine ⟨.scope f (statsOf l'), ?_, ?_⟩
  · rw [yield, yield, yield_statsOf, hyield', hyield]
  · intro follow
    rw [Resolved]
    exact resolved_statsOf.mpr hres

/-- A statement is put behind a list whose `return` it does not go on with. -/
lemma Derivation.Resolvable.link {stats : Derivation .statements} {stat : Derivation .statement}
    (hstats : stats.Resolvable) (hstat : stat.Resolvable)
    (hclear : (stats.endsInReturn && stat.startsInTernary) = false) :
    (Derivation.link stats stat).Resolvable := by
  obtain ⟨l, hyield, halone, hapart, hlast⟩ := hstats
  obtain ⟨stat', hyield', halone', hreturn, hstart⟩ := hstat
  refine ⟨l ++ [stat'], ?_, ?_, ?_, ?_⟩
  · rw [yield, ← hyield, ← hyield', programYield, programYield, List.flatMap_append,
      List.flatMap_singleton]
  · intro stat₁ hstat₁
    rcases List.mem_append.mp hstat₁ with hstat₁ | hstat₁
    · exact halone stat₁ hstat₁
    · rw [List.mem_singleton.mp hstat₁]
      exact halone'
  · apply List.isChain_append.mpr
    refine ⟨hapart, List.isChain_singleton _, ?_⟩
    -- only the last statement of the list can be a `return` that the new one goes on with
    intro last hlast' next hnext
    cases hnext
    intro hret
    rw [hlast last hlast'] at hret
    rw [hret, Bool.true_and] at hclear
    exact hstart.trans hclear
  · intro last hlast'
    rw [List.getLast?_concat] at hlast'
    cases hlast'
    rw [endsInReturn]
    exact hreturn

lemma Derivation.resolvable {symbol : Nonterminal} (d : Derivation symbol)
    (h : d.returnsClear = true) : d.Resolvable := by
  induction d with
  | scope f stats ih =>
    rw [returnsClear] at h
    exact (ih h).scope f
  | empty =>
    refine ⟨[], ?_, ?_, List.isChain_nil, ?_⟩
    · rw [yield]
      rfl
    · intro stat hstat
      cases hstat
    · intro stat hstat
      cases hstat
  | link stats stat ihs ih =>
    rw [returnsClear, Bool.and_eq_true, Bool.and_eq_true, Bool.not_eq_true'] at h
    exact (ihs h.1.1).link (ih h.1.2) h.2
  | expression e f =>
    obtain ⟨e', hlike, hres⟩ := e.exists_resolved
    have hyield : (expression e' f).yield = (expression e f).yield := by
      rw [yield, yield, hlike.yield]
    apply resolvable_of hyield
    · intro follow
      rw [Resolved]
      exact hres
    · simp [isReturn]
    · simp [startsInTernary, hlike.starts]
  | block body ih =>
    rw [returnsClear] at h
    obtain ⟨body', hyield, hres⟩ := ih h
    apply @resolvable_of _ (block body')
    · rw [yield, yield, hyield]
    · intro follow
      rw [Resolved]
      exact hres follow
    · simp [isReturn]
    · simp [startsInTernary]
  | ifThen e trueScope ih =>
    rw [returnsClear] at h
    obtain ⟨e', hlike, he⟩ := e.exists_resolved
    obtain ⟨trueScope', hyield, hres⟩ := ih h
    apply @resolvable_of _ (ifThen e' trueScope')
    · rw [yield, yield, hlike.yield, hyield]
    · intro follow
      rw [Resolved]
      exact ⟨he, hres follow⟩
    · simp [isReturn]
    · simp [startsInTernary]
  | ifElse e trueScope falseScope ih ihf =>
    rw [returnsClear, Bool.and_eq_true] at h
    obtain ⟨e', hlike, he⟩ := e.exists_resolved
    obtain ⟨trueScope', hyield, hres⟩ := ih h.1
    obtain ⟨falseScope', hyieldf, hresf⟩ := ihf h.2
    apply @resolvable_of _ (ifElse e' trueScope' falseScope')
    · rw [yield, yield, hlike.yield, hyield, hyieldf]
    · intro follow
      rw [Resolved]
      exact ⟨he, hres _, hresf follow⟩
    · simp [isReturn]
    · simp [startsInTernary]
  | ifElif e trueScope elifs ih ihe =>
    rw [returnsClear, Bool.and_eq_true] at h
    obtain ⟨e', hlike, he⟩ := e.exists_resolved
    obtain ⟨trueScope', hyield, hres⟩ := ih h.1
    obtain ⟨elifs', hyielde, hrese⟩ := ihe h.2
    apply @resolvable_of _ (ifElif e' trueScope' elifs')
    · rw [yield, yield, hlike.yield, hyield, hyielde]
    · intro follow
      rw [Resolved]
      exact ⟨he, hres _, hrese follow⟩
    · simp [isReturn]
    · simp [startsInTernary]
  | switch e f choices ih =>
    rw [returnsClear] at h
    obtain ⟨e', hlike, he⟩ := e.exists_resolved
    obtain ⟨choices', hyield, hres⟩ := ih h
    apply @resolvable_of _ (switch e' f choices')
    · rw [yield, yield, hlike.yield, hyield]
    · intro follow
      rw [Resolved]
      exact ⟨he, hres _⟩
    · simp [isReturn]
    · simp [startsInTernary]
  | «while» e loopScope ih =>
    rw [returnsClear] at h
    obtain ⟨e', hlike, he⟩ := e.exists_resolved
    obtain ⟨loopScope', hyield, hres⟩ := ih h
    apply @resolvable_of _ («while» e' loopScope')
    · rw [yield, yield, hlike.yield, hyield]
    · intro follow
      rw [Resolved]
      exact ⟨he, hres follow⟩
    · simp [isReturn]
    · simp [startsInTernary]
  | ret e =>
    obtain ⟨e', hlike, hres⟩ := e.exists_resolved
    refine ⟨.ret e', ?_, ?_, ?_, ?_⟩
    · rw [yield, yield, hlike.yield]
    · intro follow hfollow
      rw [Resolved]
      exact ⟨hres, hfollow e' rfl⟩
    · simp [isReturn]
    · simp [startsInTernary]
  | func name args retType body ih =>
    rw [returnsClear] at h
    obtain ⟨body', hyield, hres⟩ := ih h
    apply @resolvable_of _ (func name args retType body')
    · rw [yield, yield, hyield]
    · intro follow
      rw [Resolved]
      exact hres follow
    · simp [isReturn]
    · simp [startsInTernary]
  | flush stat f ih =>
    rw [returnsClear] at h
    -- behind the statement there is the flush, which goes on with no expression
    obtain ⟨stat', hyield, halone, -, hstart⟩ := ih h
    apply @resolvable_of _ (flush stat' f)
    · rw [yield, yield, hyield]
    · intro follow
      rw [Resolved]
      apply halone
      rintro e - t ht
      cases ht
      cases f <;> rfl
    · simp [isReturn]
    · rw [startsInTernary, startsInTernary, hstart]
  | firstChoice value body ih =>
    rw [returnsClear] at h
    obtain ⟨body', hyield, hres⟩ := ih h
    refine ⟨firstChoice value body', ?_, ?_⟩
    · rw [yield, yield, hyield]
    · intro follow
      rw [Resolved]
      exact hres follow
  | nextChoice choices value body ihs ih =>
    rw [returnsClear, Bool.and_eq_true] at h
    obtain ⟨choices', hyields, hress⟩ := ihs h.1
    obtain ⟨body', hyield, hres⟩ := ih h.2
    refine ⟨nextChoice choices' value body', ?_, ?_⟩
    · rw [yield, yield, hyields, hyield]
    · intro follow
      rw [Resolved]
      exact ⟨hress _, hres follow⟩
  | elifThen e trueScope ih =>
    rw [returnsClear] at h
    obtain ⟨e', hlike, he⟩ := e.exists_resolved
    obtain ⟨trueScope', hyield, hres⟩ := ih h
    refine ⟨elifThen e' trueScope', ?_, ?_⟩
    · rw [yield, yield, hlike.yield, hyield]
    · intro follow
      rw [Resolved]
      exact ⟨he, hres follow⟩
  | elifElif e trueScope elifs ih ihe =>
    rw [returnsClear, Bool.and_eq_true] at h
    obtain ⟨e', hlike, he⟩ := e.exists_resolved
    obtain ⟨trueScope', hyield, hres⟩ := ih h.1
    obtain ⟨elifs', hyielde, hrese⟩ := ihe h.2
    refine ⟨elifElif e' trueScope' elifs', ?_, ?_⟩
    · rw [yield, yield, hlike.yield, hyield, hyielde]
    · intro follow
      rw [Resolved]
      exact ⟨he, hres _, hrese follow⟩
  | elifElse e trueScope falseScope ih ihf =>
    rw [returnsClear, Bool.and_eq_true] at h
    obtain ⟨e', hlike, he⟩ := e.exists_resolved
    obtain ⟨trueScope', hyield, hres⟩ := ih h.1
    obtain ⟨falseScope', hyieldf, hresf⟩ := ihf h.2
    refine ⟨elifElse e' trueScope' falseScope', ?_, ?_⟩
    · rw [yield, yield, hlike.yield, hyield, hyieldf]
    · intro follow
      rw [Resolved]
      exact ⟨he, hres _, hresf follow⟩

lemma statsResolved_none : ∀ {program : List (Derivation .statement)},
    StatsResolved program none ↔ ProgramResolved program
  | [] => Iff.rfl
  | stat :: program => by rw [StatsResolved, ProgramResolved, statsResolved_none]

lemma exists_alone : ∀ {program : List (Derivation .statement)},
    programReturnsClear program = true →
    ∃ l : List (Derivation .statement), programYield l = programYield program ∧
      (∀ stat ∈ l, stat.Alone) ∧ l.IsChain Apart ∧
      l.head?.any Derivation.startsInTernary = program.head?.any Derivation.startsInTernary
  | [], _ => ⟨[], rfl, by simp, List.isChain_nil, rfl⟩
  | stat :: program, h => by
    rw [programReturnsClear, Bool.and_eq_true, Bool.and_eq_true, Bool.not_eq_true'] at h
    obtain ⟨⟨hstat, hprogram⟩, hclear⟩ := h
    obtain ⟨l, hyield, halone, hapart, hhead⟩ := exists_alone hprogram
    obtain ⟨stat', hyield', halone', hreturn, hstart⟩ := stat.resolvable hstat
    refine ⟨stat' :: l, ?_, List.forall_mem_cons.mpr ⟨halone', halone⟩, ?_, ?_⟩
    · rw [programYield, programYield, List.flatMap_cons, List.flatMap_cons, hyield', ← programYield,
        hyield, ← programYield]
    · apply List.isChain_cons.mpr
      refine ⟨?_, hapart⟩
      intro next hnext hret
      rw [hreturn.symm.trans hret, Bool.true_and, ← hhead, hnext] at hclear
      exact hclear
    · exact hstart

/-- A program whose returns are clear has a derivation that the parser could find. -/
lemma exists_programResolved {program : List (Derivation .statement)}
    (h : programReturnsClear program = true) :
    ∃ program', ProgramResolved program' ∧ programYield program' = programYield program := by
  obtain ⟨l, hyield, halone, hapart, -⟩ := exists_alone h
  have hend : ∀ e : Expression, ∀ t ∈ (none : Option Token), e.continues t = false := by
    intro e t ht
    cases ht
  obtain ⟨program', hyield', hres, -⟩ := exists_statsResolved halone hapart hend
  exact ⟨program', statsResolved_none.mp hres, hyield'.trans hyield⟩

/-! ## Choices behind an operand -/

/-- An operand ends with it. -/
def Token.endsOperand : Token → Bool
  | .identifier _ | .booleanLiteral _ | .integerLiteral _ | .floatLiteral _ | .charLiteral _
  | .stringLiteral _ => true
  | _ => false

/-- The text is read up to a choice that has an operand directly in front of it. The state is, for
each open parenthesis, whether it has, and whether an operand has just ended. -/
def choiceStep : List Bool × Bool → Token → Option (List Bool × Bool)
  | (opens, behind), .parenOpen => some (behind :: opens, false)
  | (opens, _), .parenClose => some (opens.tail, true)
  | (opens, _), .char c =>
    if c = 63 ∧ opens.head? = some true then none else some (opens, false)
  | (opens, _), t => some (opens, t.endsOperand)

def choiceScan (s : List Bool × Bool) (tokens : List Token) : Option (List Bool × Bool) :=
  tokens.foldlM choiceStep s

lemma choiceScan_cons (s : List Bool × Bool) (t : Token) (tokens : List Token) :
    choiceScan s (t :: tokens) = (choiceStep s t).bind (choiceScan · tokens) := rfl

lemma choiceScan_append (s : List Bool × Bool) (l r : List Token) :
    choiceScan s (l ++ r) = (choiceScan s l).bind (choiceScan · r) := by
  rw [choiceScan, List.foldlM_append]
  rfl

lemma choiceScan_nil (s : List Bool × Bool) : choiceScan s [] = some s := rfl

lemma choiceStep_binary (opens : List Bool) (behind : Bool) (b : BinaryOperator) :
    choiceStep (opens, behind) b.token = some (opens, false) := by
  cases b <;> simp [BinaryOperator.token, choiceStep, Token.endsOperand]

lemma choiceStep_unary (opens : List Bool) (behind : Bool) (p : UnaryOperator) :
    choiceStep (opens, behind) p.token = some (opens, false) := by
  cases p <;> simp [UnaryOperator.token, choiceStep]

lemma choiceStep_operand (opens : List Bool) (behind : Bool) (a : Operand) :
    choiceStep (opens, behind) a.token = some (opens, true) := by
  cases a with
  | identifier v => rfl
  | constant c => cases c <;> rfl

lemma choiceScan_expression (e : Expression) (opens : List Bool) (behind : Bool) :
    choiceScan (opens, behind) e.yield =
      bif behind && e.startsInTernary then none else some (opens, true) := by
  induction e generalizing opens behind with
  | operand a =>
    simp [Expression.yield, choiceScan_cons, choiceScan_nil, choiceStep_operand,
      Expression.startsInTernary]
  | unary p e ih =>
    simp [Expression.yield, choiceScan_cons, choiceStep_unary, Expression.startsInTernary, ih]
  | binary b l r ihl ihr =>
    rw [Expression.yield, choiceScan_append, ihl, Expression.startsInTernary]
    cases behind && l.startsInTernary <;> simp [choiceScan_cons, choiceStep_binary, ihr]
  | call f e ihf ihe =>
    rw [Expression.yield, choiceScan_append, ihf, Expression.startsInTernary]
    cases behind && f.startsInTernary <;>
      simp [choiceScan_cons, choiceScan_append, choiceScan_nil, choiceStep, ihe]
  | group e ih =>
    simp [Expression.yield, choiceScan_cons, choiceScan_append, choiceScan_nil, choiceStep, ih,
      Expression.startsInTernary]
  | ternary e₁ e₂ e₃ ih₁ ih₂ ih₃ =>
    cases behind <;>
      simp [Expression.yield, choiceScan_cons, choiceScan_append, choiceScan_nil, choiceStep, ih₁,
        ih₂, ih₃, Expression.startsInTernary]
  | varDeclaration varType varName =>
    simp [Expression.yield, choiceScan_cons, choiceScan_nil, choiceStep, Token.endsOperand,
      Expression.startsInTernary]

lemma choiceStep_flush (opens : List Bool) (behind : Bool) (f : Flush) :
    choiceStep (opens, behind) f.token = some (opens, false) := by
  cases f <;> simp [Flush.token, Token.semicolon, Token.newline, choiceStep]

lemma choiceScan_flushYield (opens : List Bool) (f : Option Flush) :
    choiceScan (opens, false) (flushYield f) = some (opens, false) := by
  cases f with
  | none => rfl
  | some f => simp [flushYield, choiceScan_cons, choiceScan_nil, choiceStep_flush]

lemma choiceScan_choiceYield (opens : List Bool) (behind : Bool) (value : Option ConstantExpression) :
    choiceScan (opens, behind) (choiceYield value) = some (opens, value.isSome) := by
  cases value with
  | none => rfl
  | some c =>
    have hc : choiceStep (opens, false) c.token = some (opens, true) :=
      choiceStep_operand opens false (.constant c)
    rw [choiceYield, choiceScan_cons]
    show choiceScan (opens, false) [c.token] = some (opens, true)
    rw [choiceScan_cons, hc]
    rfl

lemma choiceScan_args (args : FuncArgList) (opens : List Bool) :
    ∃ behind, choiceScan (opens, false) args.yield = some (opens, behind) := by
  induction args with
  | empty => exact ⟨false, rfl⟩
  | first varType varName => exact ⟨true, rfl⟩
  | next list varType varName ih =>
    obtain ⟨behind, h⟩ := ih
    refine ⟨true, ?_⟩
    rw [FuncArgList.yield, choiceScan_append, h]
    simp [choiceScan_cons, choiceScan_nil, choiceStep, Token.endsOperand]

lemma choiceScan_retType (opens : List Bool) (retType : Option CStr) :
    ∃ behind, choiceScan (opens, true) (retType.map Token.identifier).toList =
      some (opens, behind) := by
  cases retType with
  | none => exact ⟨true, rfl⟩
  | some v => exact ⟨true, rfl⟩

/-- What a derivation needs to be read to its end, and whether an operand has ended there. -/
def Derivation.ReadClear : {symbol : Nonterminal} → Derivation symbol → Prop
  | .statement, stat => ∀ opens behind, choiceScan (opens, behind) stat.yield =
      bif stat.returnsClear && !(behind && stat.startsInTernary) then some (opens, stat.isReturn)
      else none
  | .statements, stats => ∀ opens, choiceScan (opens, false) stats.yield =
      bif stats.returnsClear then some (opens, stats.endsInReturn) else none
  | _, d => ∀ opens behind, choiceScan (opens, behind) d.yield =
      bif d.returnsClear then some (opens, false) else none

/-- A condition and its scope are read, behind one of the keywords. -/
lemma choiceScan_header {body : Derivation .scope} (h : body.ReadClear) {keyword : Token}
    (hkeyword : keyword = .keywordIf ∨ keyword = .keywordElif ∨ keyword = .keywordWhile)
    (e : Expression) (opens : List Bool) (behind : Bool) (tokens : List Token) :
    choiceScan (opens, behind) (keyword :: (e.yield ++ (body.yield ++ tokens))) =
      bif body.returnsClear then choiceScan (opens, false) tokens else none := by
  have hstep : choiceStep (opens, behind) keyword = some (opens, false) := by
    rcases hkeyword with rfl | rfl | rfl <;> rfl
  rw [choiceScan_cons, hstep, Option.bind_some, choiceScan_append, choiceScan_expression,
    Bool.false_and, cond_false, Option.bind_some, choiceScan_append, h opens true]
  cases body.returnsClear <;> rfl

lemma Derivation.readClear {symbol : Nonterminal} (d : Derivation symbol) : d.ReadClear := by
  induction d with
  | scope f stats ih =>
    intro opens behind
    simp only [yield, choiceScan_cons, choiceStep, Token.endsOperand, Option.bind_some,
      choiceScan_append, choiceScan_flushYield, ih opens, returnsClear]
    cases stats.returnsClear <;> rfl
  | empty =>
    intro opens
    rw [yield, returnsClear, endsInReturn]
    rfl
  | link stats stat ihs ih =>
    intro opens
    rw [yield, returnsClear, choiceScan_append, ihs opens, endsInReturn]
    cases stats.returnsClear with
    | false => rfl
    | true => rw [cond_true, Option.bind_some, ih opens, Bool.true_and]
  | expression e f =>
    intro opens behind
    simp only [yield, returnsClear, choiceScan_append, choiceScan_expression, startsInTernary,
      isReturn]
    cases behind && e.startsInTernary <;> simp [choiceScan_cons, choiceScan_nil, choiceStep_flush]
  | block body ih =>
    intro opens behind
    simp [yield, returnsClear, ih opens, isReturn, startsInTernary]
  | ifThen e trueScope ih =>
    intro opens behind
    have h := choiceScan_header ih (.inl rfl) e opens behind []
    rw [List.append_nil] at h
    simp [yield, h, returnsClear, isReturn, startsInTernary, choiceScan_nil]
  | ifElse e trueScope falseScope ih ihf =>
    intro opens behind
    have hf : choiceScan (opens, false) (.keywordElse :: falseScope.yield) =
        bif falseScope.returnsClear then some (opens, false) else none := ihf opens false
    rw [yield, choiceScan_header ih (.inl rfl), hf, returnsClear]
    cases trueScope.returnsClear <;> simp [isReturn, startsInTernary]
  | ifElif e trueScope elifs ih ihe =>
    intro opens behind
    rw [yield, choiceScan_header ih (.inl rfl), ihe opens, returnsClear]
    cases trueScope.returnsClear <;> simp [isReturn, startsInTernary]
  | switch e f choices ih =>
    intro opens behind
    -- a brace ends what can be behind a `return`
    have hstep : choiceStep (opens, behind) .keywordSwitch = some (opens, false) := rfl
    have hbrace : ∀ tokens : List Token,
        choiceScan (opens, true) (.braceOpen :: tokens) = choiceScan (opens, false) tokens :=
      fun _ => rfl
    rw [yield, choiceScan_cons, hstep, Option.bind_some, choiceScan_append, choiceScan_expression,
      Bool.false_and, cond_false, Option.bind_some, hbrace, choiceScan_append,
      choiceScan_flushYield, Option.bind_some, choiceScan_append, ih opens, returnsClear]
    cases choices.returnsClear <;>
      simp [choiceScan_cons, choiceScan_nil, choiceStep, Token.endsOperand, isReturn,
        startsInTernary]
  | «while» e loopScope ih =>
    intro opens behind
    have h := choiceScan_header ih (.inr (.inr rfl)) e opens behind []
    rw [List.append_nil] at h
    simp [yield, h, returnsClear, isReturn, startsInTernary, choiceScan_nil]
  | ret e =>
    intro opens behind
    simp [yield, returnsClear, choiceScan_cons, choiceStep, choiceScan_expression,
      Token.endsOperand, isReturn, startsInTernary]
  | func name args retType body ih =>
    intro opens behind
    obtain ⟨behind₁, hargs⟩ := choiceScan_args args (true :: opens)
    obtain ⟨behind₂, hret⟩ := choiceScan_retType opens retType
    simp [yield, returnsClear, choiceScan_cons, choiceScan_append, choiceStep, Token.endsOperand,
      hargs, hret, ih opens, isReturn, startsInTernary]
  | flush stat f ih =>
    intro opens behind
    simp only [yield, returnsClear, choiceScan_append, ih opens, startsInTernary, isReturn]
    cases stat.returnsClear && !(behind && stat.startsInTernary) <;>
      simp [choiceScan_cons, choiceScan_nil, choiceStep_flush]
  | firstChoice value body ih =>
    intro opens behind
    simp [yield, returnsClear, choiceScan_append, choiceScan_choiceYield, ih opens]
  | nextChoice choices value body ihs ih =>
    intro opens behind
    simp only [yield, returnsClear, choiceScan_append, ihs opens]
    cases choices.returnsClear <;> simp [choiceScan_choiceYield, ih opens]
  | elifThen e trueScope ih =>
    intro opens behind
    have h := choiceScan_header ih (.inr (.inl rfl)) e opens behind []
    rw [List.append_nil] at h
    rw [yield, h, returnsClear, choiceScan_nil]
  | elifElif e trueScope elifs ih ihe =>
    intro opens behind
    rw [yield, choiceScan_header ih (.inr (.inl rfl)), ihe opens, returnsClear]
    cases trueScope.returnsClear <;> rfl
  | elifElse e trueScope falseScope ih ihf =>
    intro opens behind
    have hf : choiceScan (opens, false) (.keywordElse :: falseScope.yield) =
        bif falseScope.returnsClear then some (opens, false) else none := ihf opens false
    rw [yield, choiceScan_header ih (.inr (.inl rfl)), hf, returnsClear]
    cases trueScope.returnsClear <;> rfl

lemma choiceScan_program (program : List (Derivation .statement)) (behind : Bool) :
    (choiceScan ([], behind) (programYield program)).isSome =
      (programReturnsClear program && !(behind && program.head?.any Derivation.startsInTernary)) := by
  induction program generalizing behind with
  | nil => simp [programYield, choiceScan_nil, programReturnsClear]
  | cons stat program ih =>
    have hstat : ∀ program : List (Derivation .statement),
        choiceScan ([], behind) (programYield (stat :: program)) =
          bif stat.returnsClear && !(behind && stat.startsInTernary)
          then choiceScan ([], stat.isReturn) (programYield program) else none := by
      intro program
      rw [programYield, List.flatMap_cons, choiceScan_append, stat.readClear]
      cases stat.returnsClear && !(behind && stat.startsInTernary) <;> rfl
    rw [hstat, programReturnsClear, List.head?_cons, Option.any_some]
    cases stat.returnsClear <;> cases behind && stat.startsInTernary <;> simp [ih]

/-! ## The resolved programs -/

lemma Expression.head?_of_startsInTernary {e : Expression} (h : e.startsInTernary = true) :
    e.yield.head? = some .parenOpen := by
  induction e with
  | ternary e₁ e₂ e₃ ih₁ ih₂ ih₃ => rfl
  | binary b l r ihl ihr =>
    rw [yield, head?_yield]
    exact ihl h
  | call f e ihf ihe =>
    rw [yield, head?_yield]
    exact ihf h
  | _ => cases h

lemma Derivation.head?_of_startsInTernary : ∀ {stat : Derivation .statement},
    stat.startsInTernary = true → stat.yield.head? = some .parenOpen
  | .expression e f, h => by
    rw [startsInTernary] at h
    rw [yield, e.head?_yield]
    exact e.head?_of_startsInTernary h
  | .flush stat f, h => by
    rw [startsInTernary] at h
    rw [yield, List.head?_append, head?_of_startsInTernary h]
    rfl
  | .block _, h | .ifThen _ _, h | .ifElse _ _ _, h | .ifElif _ _ _, h | .switch _ _ _, h
  | .while _ _, h | .ret _, h | .func _ _ _ _, h => by simp [startsInTernary] at h

/-- Behind a `return` the parser does not stop at a parenthesis. -/
lemma Derivation.Resolved.apart {stat next : Derivation .statement} {follow : Option Token}
    (h : stat.Resolved (firstToken next.yield follow)) :
    (stat.isReturn && next.startsInTernary) = false := by
  by_contra hboth
  rw [Bool.not_eq_false, Bool.and_eq_true] at hboth
  obtain ⟨hreturn, hstart⟩ := hboth
  obtain ⟨e, rfl⟩ := exists_ret_of_isReturn hreturn
  rw [Derivation.Resolved, firstToken, head?_of_startsInTernary hstart] at h
  cases h.2 .parenOpen rfl

lemma Derivation.Resolved.returnsClear {symbol : Nonterminal} {d : Derivation symbol}
    {follow : Option Token} (h : d.Resolved follow) : d.returnsClear = true := by
  induction d generalizing follow with
  | scope f stats ih =>
    rw [Derivation.Resolved] at h
    rw [Derivation.returnsClear]
    exact ih h
  | link stats stat ihs ih =>
    rw [Derivation.Resolved] at h
    have hapart : (stats.endsInReturn && stat.startsInTernary) = false := by
      have hstats := h.1
      cases stats with
      | empty => simp [endsInReturn]
      | link stats' stat' =>
        rw [Derivation.Resolved] at hstats
        rw [endsInReturn]
        exact hstats.2.apart
    rw [Derivation.returnsClear, ihs h.1, ih h.2, hapart]
    rfl
  | ifElse e trueScope falseScope ih ihf =>
    rw [Derivation.Resolved] at h
    rw [Derivation.returnsClear, ih h.2.1, ihf h.2.2]
    rfl
  | ifElif e trueScope elifs ih ihe =>
    rw [Derivation.Resolved] at h
    rw [Derivation.returnsClear, ih h.2.1, ihe h.2.2]
    rfl
  | nextChoice choices value body ihs ih =>
    rw [Derivation.Resolved] at h
    rw [Derivation.returnsClear, ihs h.1, ih h.2]
    rfl
  | elifElif e trueScope elifs ih ihe =>
    rw [Derivation.Resolved] at h
    rw [Derivation.returnsClear, ih h.2.1, ihe h.2.2]
    rfl
  | elifElse e trueScope falseScope ih ihf =>
    rw [Derivation.Resolved] at h
    rw [Derivation.returnsClear, ih h.2.1, ihf h.2.2]
    rfl
  | block body ih =>
    rw [Derivation.Resolved] at h
    rw [Derivation.returnsClear, ih h]
  | ifThen e trueScope ih =>
    rw [Derivation.Resolved] at h
    rw [Derivation.returnsClear, ih h.2]
  | switch e f choices ih =>
    rw [Derivation.Resolved] at h
    rw [Derivation.returnsClear, ih h.2]
  | «while» e loopScope ih =>
    rw [Derivation.Resolved] at h
    rw [Derivation.returnsClear, ih h.2]
  | func name args retType body ih =>
    rw [Derivation.Resolved] at h
    rw [Derivation.returnsClear, ih h]
  | flush stat f ih =>
    rw [Derivation.Resolved] at h
    rw [Derivation.returnsClear, ih h]
  | firstChoice value body ih =>
    rw [Derivation.Resolved] at h
    rw [Derivation.returnsClear, ih h]
  | elifThen e trueScope ih =>
    rw [Derivation.Resolved] at h
    rw [Derivation.returnsClear, ih h.2]
  | _ => rw [Derivation.returnsClear]

lemma ProgramResolved.returnsClear : ∀ {program : List (Derivation .statement)},
    ProgramResolved program → programReturnsClear program = true
  | [], _ => rfl
  | [stat], h => by
    rw [ProgramResolved] at h
    simp [programReturnsClear, h.1.returnsClear]
  | stat :: next :: program, h => by
    rw [ProgramResolved] at h
    have hapart : (stat.isReturn && next.startsInTernary) = false := by
      have hstat := h.1
      rw [programYield, List.flatMap_cons, firstToken, List.head?_append, Option.or_assoc] at hstat
      exact hstat.apart
    rw [programReturnsClear, h.1.returnsClear, returnsClear h.2, List.head?_cons, Option.any_some,
      hapart]
    rfl

/-- What the parser can find for the text of a program shows that its returns are clear. -/
lemma ProgramResolved.clear_of_yield {program program' : List (Derivation .statement)}
    (h : ProgramResolved program') (hyield : programYield program' = programYield program) :
    programReturnsClear program = true := by
  have hscan := choiceScan_program program' false
  rw [hyield, choiceScan_program, h.returnsClear] at hscan
  simpa using hscan

/-- A text of the grammar has one derivation that the parser could find, unless a `return` has a
choice directly behind it: then it has none. -/
theorem existsUnique_resolved_iff (program : List (Derivation .statement)) :
    ((∃! program', ProgramResolved program' ∧ programYield program' = programYield program) ↔
      programReturnsClear program = true) ∧
    (programReturnsClear program = false →
      ∀ program', ProgramResolved program' → programYield program' ≠ programYield program) := by
  refine ⟨⟨?_, ?_⟩, ?_⟩
  · intro h
    obtain ⟨program', ⟨hres, hyield⟩, -⟩ := h
    exact hres.clear_of_yield hyield
  · intro h
    obtain ⟨program', hres, hyield⟩ := exists_programResolved h
    refine ⟨program', ⟨hres, hyield⟩, ?_⟩
    intro program₂ h₂
    exact program_unique h₂.1 hres (h₂.2.trans hyield.symm)
  · intro h program' hres hyield
    rw [hres.clear_of_yield hyield] at h
    cases h

/-- `return a` and `(b ? c : d);` behind it -/
example : programReturnsClear [.ret (.operand (.identifier (ascii ['a']))),
    .expression (.ternary (.operand (.identifier (ascii ['b'])))
      (.operand (.identifier (ascii ['c']))) (.operand (.identifier (ascii ['d'])))) .semicolon] =
    false := by
  simp [programReturnsClear, Derivation.returnsClear, Derivation.isReturn,
    Derivation.startsInTernary, Expression.startsInTernary]

end PhantomShell
