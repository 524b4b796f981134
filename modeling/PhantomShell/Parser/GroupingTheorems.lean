import PhantomShell.Parser.Expression

/-!
# Grouping of operators

The declarations of `parser.y` and the documented table resolve every conflict the same way, but for
one: the rule of the minus sign is reduced before the parenthesis of a call.
-/

namespace PhantomShell

/-- The tree that the documented table gives for a text. -/
structure DocumentedTree (tokens : List Token) (t : ExprTree) : Prop where
  grouped : t.Grouped documentedReduces
  yield : t.yield exprLexicon = tokens

/-- The nodes that are built for the text are those of this tree. -/
def BuildsDocumented (tokens : List Token) : Prop :=
  ∃ t, DocumentedTree tokens t ∧ buildExpression tokens = some (exprNode t)

/-- A call. -/
def IsCall : Expr → Prop
  | .binaryOp _ .functionCall _ _ => True
  | _ => False

/-- No minus sign has a call for its operand. -/
def NoMinusCall : Expr → Prop
  | .unaryOp _ operator operand =>
    (operator = .unaryMinus → ¬ IsCall operand) ∧ NoMinusCall operand
  | .binaryOp _ _ left right => NoMinusCall left ∧ NoMinusCall right
  | .group _ expr => NoMinusCall expr
  | .specialCast _ _ operand => NoMinusCall operand
  | _ => True

/-! ## The two tables -/

lemma yaccReduces_binary (rule : OpRule UnaryOperator BinaryOperator) (b : BinaryOperator) :
    yaccReduces rule (.binary b) = documentedReduces rule (.binary b) := by
  rcases rule with ⟨p⟩ | ⟨a⟩
  · cases p <;> cases b <;> decide
  · cases a <;> cases b <;> decide

/-- Behind the minus sign a call is not shifted. -/
lemma yaccReduces_unary_call (p : UnaryOperator) :
    yaccReduces (.unary p) .call = (p == .unaryMinus) := by
  cases p <;> decide

/-- In the table a call is, behind any operator. -/
lemma documentedReduces_call (rule : OpRule UnaryOperator BinaryOperator) :
    documentedReduces rule .call = false := by
  rcases rule with ⟨p⟩ | ⟨a⟩
  · rfl
  · cases a <;> rfl

lemma documentedReduces_unary_binary (p : UnaryOperator) (b : BinaryOperator) :
    documentedReduces (.unary p) (.binary b) = true := by
  cases b <;> rfl

/-! ## Trees of both -/

lemma not_isCall_node (a : Operand) : ¬ IsCall a.node := by
  rcases a with value | c
  · exact id
  · cases c <;> exact id

lemma noMinusCall_node (a : Operand) : NoMinusCall a.node := by
  rcases a with value | c
  · trivial
  · cases c <;> trivial

/-- What the table allows behind an operator is a call or nothing. -/
lemma leftEdge_operand {p : UnaryOperator} {t : ExprTree}
    (h : ∀ next ∈ t.leftEdge, documentedReduces (.unary p) next = false) :
    (∀ next ∈ t.leftEdge, yaccReduces (.unary p) next = false) ↔
      (p.operator = .unaryMinus → ¬ IsCall (exprNode t)) := by
  cases t with
  | atom a => simp [OpTree.leftEdge, exprNode, not_isCall_node]
  | unary p' t => simp [OpTree.leftEdge, exprNode, IsCall]
  | group t => simp [OpTree.leftEdge, exprNode, IsCall]
  | binary b l r =>
    have hb := h (.binary b) (by simp [OpTree.leftEdge])
    rw [documentedReduces_unary_binary] at hb
    cases hb
  | call f t =>
    constructor
    · intro hcall hp
      have hnot := hcall .call (by simp [OpTree.leftEdge])
      cases p with
      | logicalNot => cases hp
      | unaryMinus => cases hnot
    · intro hp next hnext
      cases next with
      | binary b => rw [yaccReduces_binary, h _ hnext]
      | call =>
        rw [yaccReduces_unary_call, beq_eq_false_iff_ne]
        rintro rfl
        exact hp rfl trivial

/-- A tree of the table is one of the parser unless there is a minus sign in front of a call. -/
lemma grouped_yacc_iff {t : ExprTree} (ht : t.Grouped documentedReduces) :
    t.Grouped yaccReduces ↔ NoMinusCall (exprNode t) := by
  induction t with
  | atom a => exact iff_of_true trivial (noMinusCall_node a)
  | unary p t ih =>
    obtain ⟨ht, hshift⟩ := ht
    rw [OpTree.Grouped, exprNode, NoMinusCall, ih ht, leftEdge_operand hshift, and_comm]
  | binary b l r ihl ihr =>
    obtain ⟨⟨hl, hedge⟩, hr, hshift⟩ := ht
    have hedge' : ∀ rule ∈ l.rightEdge, yaccReduces rule (.binary b) := fun rule hrule =>
      (yaccReduces_binary rule b).trans (hedge rule hrule)
    have hshift' : ∀ next ∈ r.leftEdge, yaccReduces (.binary b) next = false := by
      intro next hnext
      cases next with
      | binary b' => rw [yaccReduces_binary, hshift _ hnext]
      | call => cases b <;> decide
    rw [OpTree.Grouped, exprNode, NoMinusCall, ihl hl, ihr hr]
    exact ⟨fun h => ⟨h.1.1, h.2.1⟩, fun h => ⟨⟨h.1, hedge'⟩, h.2, hshift'⟩⟩
  | group t ih => exact ih ht
  | call f t ihf iht =>
    obtain ⟨⟨hf, hedge⟩, ht⟩ := ht
    have hedge' : ∀ rule ∈ f.rightEdge, yaccReduces rule .call := by
      intro rule hrule
      have hnot := hedge rule hrule
      rw [documentedReduces_call] at hnot
      cases hnot
    rw [OpTree.Grouped, exprNode, NoMinusCall, NoMinusCall, ihf hf, iht ht]
    exact ⟨fun h => ⟨h.1.1, h.2⟩, fun h => ⟨⟨h.1, hedge'⟩, h.2⟩⟩

/-- The parser never puts a minus sign in front of a call. -/
lemma noMinusCall_of_grouped {t : ExprTree} (ht : t.Grouped yaccReduces) :
    NoMinusCall (exprNode t) := by
  induction t with
  | atom a => exact noMinusCall_node a
  | unary p t ih =>
    obtain ⟨ht, hshift⟩ := ht
    refine ⟨?_, ih ht⟩
    intro hp hcall
    cases t with
    | call f t =>
      have hnot := hshift .call (by simp [OpTree.leftEdge])
      rw [yaccReduces_unary_call] at hnot
      cases p with
      | logicalNot => cases hp
      | unaryMinus => cases hnot
    | atom a => exact not_isCall_node a hcall
    | binary b l r => cases b <;> exact hcall
    | _ => exact hcall
  | binary b l r ihl ihr => exact ⟨ihl ht.1.1, ihr ht.2.1⟩
  | group t ih => exact ih ht
  | call f t ihf iht => exact ⟨ihf ht.1.1, iht ht.2⟩

/-- The parser accepts the texts of the grammar. -/
theorem parseExpression_isSome_iff {tokens : List Token} :
    (parseExpression tokens).isSome ↔ ∃ d : ExprTree, d.yield exprLexicon = tokens := by
  rw [Option.isSome_iff_exists]
  constructor
  · rintro ⟨t, hparse⟩
    exact ⟨t, ((opParse_eq_some_iff exprLexicon).mp hparse).2⟩
  · rintro ⟨d, rfl⟩
    obtain ⟨t, ht, hyield⟩ := exists_grouped exprLexicon yaccReduces d
    exact ⟨t, (opParse_eq_some_iff exprLexicon).mpr ⟨ht, hyield⟩⟩

/-- The tree of the table is built unless it has a minus sign in front of a call. -/
theorem builds_documented_iff (d : ExprTree) :
    ∃ t, DocumentedTree (d.yield exprLexicon) t ∧
      (BuildsDocumented (d.yield exprLexicon) ↔ NoMinusCall (exprNode t)) := by
  obtain ⟨t, ht, hyield⟩ := exists_grouped exprLexicon documentedReduces d
  refine ⟨t, ⟨ht, hyield⟩, ?_⟩
  constructor
  · rintro ⟨t', ht', hbuilt⟩
    obtain rfl := ht.unique exprLexicon ht'.grouped (hyield.trans ht'.yield.symm)
    obtain ⟨t', hparse, hnode⟩ := Option.map_eq_some_iff.mp hbuilt
    rw [← hnode]
    exact noMinusCall_of_grouped ((opParse_eq_some_iff exprLexicon).mp hparse).1
  · intro hcall
    have hparse : parseExpression (d.yield exprLexicon) = some t :=
      (opParse_eq_some_iff exprLexicon).mpr ⟨(grouped_yacc_iff ht).mpr hcall, hyield⟩
    refine ⟨t, ⟨ht, hyield⟩, ?_⟩
    rw [buildExpression, hparse]
    rfl

/-- `-f(1)` -/
def minusCall : ExprTree :=
  .unary .unaryMinus (.call (.atom (.identifier (ascii ['f']))) (.atom (.constant (.integerLiteral 1))))

/-- It is built as `(-f)(1)`. -/
theorem not_buildsDocumented : DocumentedTree (minusCall.yield exprLexicon) minusCall ∧
    buildExpression (minusCall.yield exprLexicon) = some (.binaryOp .unknwn .functionCall
      (.unaryOp .unknwn .unaryMinus (.ident .unknwn (ascii ['f'])))
      (.group .unknwn (.literalInt 1))) ∧
    ¬ BuildsDocumented (minusCall.yield exprLexicon) := by
  have hgrouped : minusCall.Grouped documentedReduces := by
    refine ⟨⟨⟨trivial, nofun⟩, trivial⟩, ?_⟩
    intro next hnext
    cases List.mem_singleton.mp hnext
    rfl
  have hbuilt : buildExpression (minusCall.yield exprLexicon) = some (.binaryOp .unknwn .functionCall
      (.unaryOp .unknwn .unaryMinus (.ident .unknwn (ascii ['f'])))
      (.group .unknwn (.literalInt 1))) := by decide
  refine ⟨⟨hgrouped, rfl⟩, hbuilt, fun h => ?_⟩
  obtain ⟨t, ht, hnode⟩ := h
  obtain rfl := ht.grouped.unique exprLexicon hgrouped ht.yield
  rw [hbuilt] at hnode
  cases hnode

end PhantomShell
