import PhantomShell.Parser.Free

/-!
# What is freed of a tree

A formed tree is freed without a look at what is gone and without a block that is freed twice
(`Derivation.frees`). What is freed is all that was made, except for the choices of a switch between
the first one and the last one (`Derivation.freeOrder_leaked`).
-/

namespace PhantomShell

/-! ## Blocks -/

lemma blocksFrom_append (n : ℕ) (l r : List AstNode) :
    blocksFrom n (l ++ r) = blocksFrom n l ++ blocksFrom (n + l.length) r := by
  induction l generalizing n with
  | nil => rfl
  | cons node l ih =>
    rw [List.cons_append, blocksFrom, blocksFrom, ih, List.append_assoc, List.length_cons,
      show n + 1 + l.length = n + (l.length + 1) from by omega]

lemma blocksFrom_singleton (n : ℕ) (node : AstNode) : blocksFrom n [node] = node.blocks n :=
  List.append_nil _

lemma AstNode.blocks_linked (node : AstNode) (q : Option Ptr) (i : ℕ) :
    (node.linked q).blocks i = node.blocks i := by
  cases q with
  | none => rfl
  | some next => cases node <;> rfl

lemma AstNode.blocks_linkedChoice (node : AstNode) (q : Option Ptr) (i : ℕ) :
    (node.linkedChoice q).blocks i = node.blocks i := by
  cases q with
  | none => rfl
  | some next => cases node <;> rfl

/-! ## Nodes -/

lemma loadNode_eq {nodes : List AstNode} {i : ℕ} {freed : List Block} (hi : Block.node i ∉ freed) :
    loadNode nodes (some i) freed = nodes[i]?.map fun node => ((i, node), freed) := by
  change (touch (.node i) freed).bind (fun r => (nodes[i]?.bind fun node =>
    some (node, r.2)).bind fun r => some ((i, r.1), r.2)) = _
  rw [touch, if_neg hi, Option.bind_some]
  cases nodes[i]? <;> rfl

/-- A node that will be freed can be read. -/
lemma frees_load {nodes : List AstNode} {i : ℕ} {node : AstNode} {k : ℕ × AstNode → AstFreeM Unit}
    {l : List Block} (hnode : nodes[i]? = some node) (hi : Block.node i ∈ l)
    (h : Frees (k (i, node)) l) : Frees (loadNode nodes (some i) >>= k) l := by
  intro hnodup freed hfresh
  rw [freeM_bind, loadNode_eq (hfresh _ hi), hnode]
  exact h hnodup freed hfresh

section

variable {free : Ptr → AstFreeM Unit} {nodes : List AstNode} {fuel i : ℕ}

/-- A child, and then the node. -/
lemma Frees.own {m : AstFreeM Unit} {l : List Block} (h : Frees m l) :
    Frees (m >>= fun _ => release (.node i)) (l ++ [.node i]) := h.bind (frees_release _)

lemma frees_group {expr : Ptr} (hnode : nodes[i]? = some (.group expr)) {l : List Block}
    (h : Frees (free expr) l) : Frees (astFreeNodeGroup free nodes (some i)) (l ++ [.node i]) :=
  frees_load hnode (by simp) h.own

lemma frees_unaryOp {operator : Operator} {operand : Ptr}
    (hnode : nodes[i]? = some (.unaryOp operator operand)) {l : List Block}
    (h : Frees (free operand) l) : Frees (astFreeNodeUnaryOp free nodes (some i)) (l ++ [.node i]) :=
  frees_load hnode (by simp) h.own

lemma frees_binaryOp {operator : Operator} {left right : Ptr}
    (hnode : nodes[i]? = some (.binaryOp operator left right)) {l r : List Block}
    (hl : Frees (free left) l) (hr : Frees (free right) r) :
    Frees (astFreeNodeBinaryOp free nodes (some i)) (l ++ (r ++ [.node i])) :=
  frees_load hnode (by simp) (hl.bind hr.own)

lemma frees_ternaryOp {operand₁ operand₂ operand₃ : Ptr}
    (hnode : nodes[i]? = some (.ternaryOp operand₁ operand₂ operand₃)) {l₁ l₂ l₃ : List Block}
    (h₁ : Frees (free operand₁) l₁) (h₂ : Frees (free operand₂) l₂) (h₃ : Frees (free operand₃) l₃) :
    Frees (astFreeNodeTernaryOp free nodes (some i)) (l₁ ++ (l₂ ++ (l₃ ++ [.node i]))) :=
  frees_load hnode (by simp) (h₁.bind (h₂.bind h₃.own))

lemma frees_ident {value : CStr} (hnode : nodes[i]? = some (.ident value)) :
    Frees (astFreeNodeIdent nodes (some i)) ((AstNode.ident value).blocks i) :=
  frees_load hnode (by simp [AstNode.blocks])
    ((frees_release (Block.string i)).bind (frees_release (Block.node i)))

lemma frees_literal {value : ConstantExpression} (hnode : nodes[i]? = some (.literal value)) :
    Frees (astFreeNodeLiteral nodes (some i)) ((AstNode.literal value).blocks i) := by
  cases value with
  | stringLiteral value =>
    exact frees_load hnode (by simp [AstNode.blocks])
      ((frees_release (Block.string i)).bind (frees_release (Block.node i)))
  | _ => exact frees_load hnode (by simp [AstNode.blocks]) (frees_release (Block.node i))

lemma frees_statExpr {next expr : Ptr} (hnode : nodes[i]? = some (.statExpr next expr))
    {l : List Block} (h : Frees (free expr) l) :
    Frees (astFreeNodeStatExpr free nodes (some i)) (l ++ [.node i]) :=
  frees_load hnode (by simp) h.own

lemma frees_statRet {next expr : Ptr} (hnode : nodes[i]? = some (.statRet next expr))
    {l : List Block} (h : Frees (free expr) l) :
    Frees (astFreeNodeStatRet free nodes (some i)) (l ++ [.node i]) :=
  frees_load hnode (by simp) h.own

/-- A scope frees its list, which frees its statements. -/
lemma frees_scope {j size : ℕ} {firstStat last : Ptr} (hnode : nodes[i]? = some (.scope (some j)))
    (hlist : nodes[j]? = some (.statList size firstStat last)) {elements : List ℕ}
    (hchain : LinkedList AstNode.statNext nodes firstStat last elements) {orders : List (List Block)}
    (horders : List.Forall₂ (fun i order => Block.node i ∈ order ∧ Frees (free (some i)) order) elements
      orders) (hfuel : elements.length ≤ fuel) :
    Frees (astFreeNodeScope free nodes fuel (some i)) (orders.flatten ++ [.node j] ++ [.node i]) := by
  have hget : ∀ (cell : AstNode) p, cell.statNext = some p → cell.getNext = some p := by
    intro cell p hp
    cases cell with
    | scope => cases hp
    | _ => exact hp
  have hstats := (hchain.segment.mono hget).frees horders hfuel
  exact frees_load hnode (by simp) (Frees.own (frees_load hlist (by simp) hstats.own))

lemma frees_statIf {next expr trueScope : Ptr}
    (hnode : nodes[i]? = some (.statIf next expr trueScope none)) {l l₁ : List Block}
    (h : Frees (free expr) l) (htrue : Frees (astFreeNodeScope free nodes fuel trueScope) l₁) :
    Frees (astFreeNodeStatIf free nodes fuel (some i)) (l ++ (l₁ ++ [.node i])) :=
  frees_load hnode (by simp) (h.bind htrue.own)

lemma frees_statIfElse {next expr trueScope : Ptr} {j : ℕ}
    (hnode : nodes[i]? = some (.statIf next expr trueScope (some j))) {l l₁ l₂ : List Block}
    (h : Frees (free expr) l) (htrue : Frees (astFreeNodeScope free nodes fuel trueScope) l₁)
    (hfalse : Frees (astFreeNodeScope free nodes fuel (some j)) l₂) :
    Frees (astFreeNodeStatIf free nodes fuel (some i)) (l ++ (l₁ ++ (l₂ ++ [.node i]))) :=
  frees_load hnode (by simp) (h.bind (htrue.bind hfalse.own))

lemma frees_statWhile {next loopScope : Ptr} {j : ℕ}
    (hnode : nodes[i]? = some (.statWhile next (some j) loopScope)) {l l₁ : List Block}
    (h : Frees (free (some j)) l) (hloop : Frees (free loopScope) l₁) :
    Frees (astFreeNodeStatWhile free nodes (some i)) (l ++ (l₁ ++ [.node i])) :=
  frees_load hnode (by simp) (h.bind hloop.own)

lemma frees_statSwitchChoice {body next : Ptr} {value : Option ConstantExpression} {n : ℕ}
    (hnode : nodes[i]? = some (.statSwitchChoice (labelPtr value n) body next))
    (hlabel : ∀ c ∈ value, Frees (free (some n)) ((AstNode.literal c).blocks n)) {l : List Block}
    (hbody : Frees (free body) l) : Frees (astFreeNodeStatSwitchChoice free nodes (some i))
      (blocksFrom n (labelNodes value) ++ (l ++ [.node i])) := by
  cases value with
  | none => exact frees_load hnode (by simp) hbody.own
  | some value =>
    show Frees _ (blocksFrom n [.literal value] ++ _)
    rw [blocksFrom_singleton]
    exact frees_load hnode (by simp) ((hlabel value rfl).bind hbody.own)

lemma frees_statSwitch {next expr choice : Ptr} (hnode : nodes[i]? = some (.statSwitch next expr choice))
    {l : List Block} (h : Frees (free expr) l) {choices : List ℕ}
    (hchain : Segment AstNode.choiceNext nodes choice choices none) {orders : List (List Block)}
    (horders : List.Forall₂ (fun i order => Block.node i ∈ order ∧
      Frees (astFreeNodeStatSwitchChoice free nodes (some i)) order) choices orders)
    (hfuel : choices.length ≤ fuel) :
    Frees (astFreeNodeStatSwitch free nodes fuel (some i)) (l ++ (orders.flatten ++ [.node i])) :=
  frees_load hnode (by simp) (h.bind (hchain.frees horders hfuel).own)

lemma frees_declVar {varType varName : CStr} {next : Ptr}
    (hnode : nodes[i]? = some (.declVar varType varName next)) :
    Frees (astFreeNodeDeclVar nodes (some i)) [.string i, .typeName i, .node i] :=
  frees_load hnode (by simp) ((frees_release (Block.string i)).bind
    ((frees_release (Block.typeName i)).bind (frees_release (Block.node i))))

/-- The blocks of a parameter. -/
def declBlocks (i : ℕ) : List Block := [.string i, .typeName i, .node i]

lemma frees_funcArgList {firstDecl last : Ptr}
    (hnode : nodes[i]? = some (.funcArgList firstDecl last)) {elements : List ℕ}
    (hchain : Segment AstNode.declNext nodes firstDecl elements none)
    (hfuel : elements.length ≤ fuel) : Frees (astFreeNodeFuncArgList nodes fuel (some i))
      (elements.flatMap declBlocks ++ [.node i]) := by
  rw [List.flatMap_def]
  refine frees_load hnode (by simp) (Frees.own (hchain.frees ?_ hfuel))
  rw [List.forall₂_map_right_iff, List.forall₂_same]
  intro i hi
  obtain ⟨node, next, hnode, hnext⟩ := hchain.exists_of_mem hi
  cases node with
  | declVar => exact ⟨by simp [declBlocks], frees_declVar hnode⟩
  | _ => cases hnext

lemma frees_declFunc {name : CStr} {retType : Option CStr} {args body : Ptr}
    (hnode : nodes[i]? = some (.declFunc name retType args body)) {l l₁ : List Block}
    (hbody : Frees (free body) l) (hargs : Frees (astFreeNodeFuncArgList nodes fuel args) l₁) :
    Frees (astFreeNodeDeclFunc free nodes fuel (some i)) (l ++ (.string i :: (l₁ ++
      ((retType.map fun _ => Block.typeName i).toList ++ [.node i])))) := by
  refine frees_load hnode (by simp) (hbody.bind ((frees_release (Block.string i)).bind (hargs.bind ?_)))
  cases retType with
  | none => exact frees_release (Block.node i)
  | some _ => exact (frees_release (Block.typeName i)).own

end

/-! ## Expressions -/

lemma Expression.cast_of_isExpr {e : Expression} (h : e.IsExpr) (i : ℕ) : e.cast i = some i := by
  cases e with
  | varDeclaration => exact h.elim
  | _ => rfl

lemma Expression.exists_fuel {e : Expression} {fuel : ℕ} (h : e.size ≤ fuel) :
    ∃ k, fuel = k + 1 ∧ e.own ≤ k := by
  rw [Expression.size] at h
  exact ⟨fuel - 1, by omega, by omega⟩

/-- All that was made for an expression is freed. -/
lemma Expression.frees {e : Expression} (he : e.IsExpr) (hformed : e.Formed) {nodes : List AstNode}
    {n fuel : ℕ} (h : LiesAt nodes n (e.nodes n)) (hfuel : e.size ≤ fuel) :
    Frees (astFreeNode nodes fuel (some (n + e.own))) (blocksFrom n (e.nodes n)) := by
  induction e generalizing n fuel with
  | varDeclaration => exact he.elim
  | operand a =>
    obtain ⟨k, rfl, -⟩ := Expression.exists_fuel hfuel
    cases a with
    | identifier value =>
      have hnode := liesAt_singleton.mp h
      rw [Expression.nodes, blocksFrom_singleton]
      exact frees_load hnode (by simp [AstNode.blocks, Expression.own]) (frees_ident hnode)
    | constant c =>
      have hnode := liesAt_singleton.mp h
      rw [Expression.nodes, blocksFrom_singleton]
      refine frees_load hnode ?_ (frees_literal hnode)
      cases c <;> simp [AstNode.blocks, Expression.own]
  | unary p e ih =>
    obtain ⟨he, hformed⟩ := hformed
    obtain ⟨k, rfl, hk⟩ := Expression.exists_fuel hfuel
    rw [Expression.nodes, liesAt_append, liesAt_singleton, e.length_nodes,
      Expression.cast_of_isExpr he] at h
    rw [Expression.nodes, blocksFrom_append, blocksFrom_singleton, e.length_nodes]
    exact frees_load h.2 (by simp [AstNode.blocks, Expression.own])
      (frees_unaryOp h.2 (ih he hformed h.1 hk))
  | group e ih =>
    obtain ⟨he, hformed⟩ := hformed
    obtain ⟨k, rfl, hk⟩ := Expression.exists_fuel hfuel
    rw [Expression.nodes, liesAt_append, liesAt_singleton, e.length_nodes,
      Expression.cast_of_isExpr he] at h
    rw [Expression.nodes, blocksFrom_append, blocksFrom_singleton, e.length_nodes]
    exact frees_load h.2 (by simp [AstNode.blocks, Expression.own])
      (frees_group h.2 (ih he hformed h.1 hk))
  | binary b l r ihl ihr =>
    obtain ⟨⟨hl, hlformed⟩, hr, hrformed⟩ := hformed
    obtain ⟨k, rfl, hk⟩ := Expression.exists_fuel hfuel
    rw [Expression.nodes, liesAt_append, liesAt_append, liesAt_singleton, l.length_nodes,
      r.length_nodes, Expression.cast_of_isExpr hl, Expression.cast_of_isExpr hr, Nat.add_assoc] at h
    rw [Expression.nodes, blocksFrom_append, blocksFrom_append, blocksFrom_singleton, l.length_nodes,
      r.length_nodes, Nat.add_assoc]
    exact frees_load h.2.2 (by simp [AstNode.blocks, Expression.own])
      (frees_binaryOp h.2.2 (ihl hl hlformed h.1 ((Nat.le_add_right _ _).trans hk))
        (ihr hr hrformed h.2.1 ((Nat.le_add_left _ _).trans hk)))
  | call f e ihf ihe =>
    obtain ⟨⟨hf, hfformed⟩, he, heformed⟩ := hformed
    obtain ⟨k, rfl, hk⟩ := Expression.exists_fuel hfuel
    have hk' : f.own + 1 + (e.own + 1 + 1) ≤ k := hk
    have hown : n + (f.own + 1) + (e.own + 1) + 1 = n + (Expression.call f e).own := by
      show _ = n + (f.own + 1 + (e.own + 1 + 1))
      omega
    rw [Expression.nodes, liesAt_append, liesAt_append, liesAt_cons, liesAt_singleton, f.length_nodes,
      e.length_nodes, hown, Expression.cast_of_isExpr hf, Expression.cast_of_isExpr he] at h
    -- the second node below a call is the group of its arguments
    have hgroup : Frees (astFreeNode nodes k (some (n + f.size + e.size)))
        (blocksFrom (n + f.size) (e.nodes (n + f.size)) ++ [.node (n + f.size + e.size)]) := by
      obtain ⟨k, rfl⟩ : ∃ j, k = j + 1 := ⟨k - 1, by omega⟩
      exact frees_load h.2.2.1 (by simp)
        (frees_group h.2.2.1 (ihe he heformed h.2.1 (by rw [Expression.size]; omega)))
    have hnodes : blocksFrom n ((Expression.call f e).nodes n) = blocksFrom n (f.nodes n) ++
        ((blocksFrom (n + f.size) (e.nodes (n + f.size)) ++ [.node (n + f.size + e.size)]) ++
          [.node (n + (Expression.call f e).own)]) := by
      rw [Expression.nodes, blocksFrom_append, blocksFrom_append, f.length_nodes, e.length_nodes, ← hown,
        List.append_assoc]
      rfl
    rw [hnodes]
    exact frees_load h.2.2.2 (by simp)
      (frees_binaryOp h.2.2.2 (ihf hf hfformed h.1 (by rw [Expression.size]; omega)) hgroup)
  | ternary e₁ e₂ e₃ ih₁ ih₂ ih₃ =>
    obtain ⟨⟨h₁, hformed₁⟩, ⟨h₂, hformed₂⟩, h₃, hformed₃⟩ := hformed
    obtain ⟨k, rfl, hk⟩ := Expression.exists_fuel hfuel
    have hk' : e₁.own + 1 + (e₂.own + 1 + (e₃.own + 1)) ≤ k := hk
    have hown : n + (e₁.own + 1) + (e₂.own + 1) + (e₃.own + 1) =
        n + (Expression.ternary e₁ e₂ e₃).own := by
      show _ = n + (e₁.own + 1 + (e₂.own + 1 + (e₃.own + 1)))
      omega
    rw [Expression.nodes, liesAt_append, liesAt_append, liesAt_append, liesAt_singleton,
      e₁.length_nodes, e₂.length_nodes, e₃.length_nodes, hown, Expression.cast_of_isExpr h₁,
      Expression.cast_of_isExpr h₂, Expression.cast_of_isExpr h₃] at h
    rw [Expression.nodes, blocksFrom_append, blocksFrom_append, blocksFrom_append,
      blocksFrom_singleton, e₁.length_nodes, e₂.length_nodes, e₃.length_nodes, hown]
    exact frees_load h.2.2.2 (by simp [AstNode.blocks])
      (frees_ternaryOp h.2.2.2 (ih₁ h₁ hformed₁ h.1 (by rw [Expression.size]; omega))
        (ih₂ h₂ hformed₂ h.2.1 (by rw [Expression.size]; omega))
        (ih₃ h₃ hformed₃ h.2.2.1 (by rw [Expression.size]; omega)))

/-! ## Statements -/

/-- What is freed of a choice with this body. -/
def choiceOrder (value : Option ConstantExpression) (n own : ℕ) (body : List Block) : List Block :=
  blocksFrom n (labelNodes value) ++ (body ++ [.node own])

/-- What is freed of a derivation, in this order; of choices the first one. -/
def Derivation.freeOrder : {symbol : Nonterminal} → Derivation symbol → ℕ → List Block
  | _, .scope f stats, n => stats.freeOrder n ++ [.node n] ++ [.node ((Derivation.scope f stats).last n)]
  | _, .empty, _ => []
  | _, .link stats stat, n => stats.freeOrder n ++ stat.freeOrder (n + stats.size)
  | _, .expression e f, n =>
    blocksFrom n (e.nodes n) ++ [.node ((Derivation.expression e f).last n)]
  | _, .ret e, n => blocksFrom n (e.nodes n) ++ [.node ((Derivation.ret e).last n)]
  | _, .block body, n => body.freeOrder n
  | _, .ifThen e trueScope, n => blocksFrom n (e.nodes n) ++
      (trueScope.freeOrder (n + e.size) ++ [.node ((Derivation.ifThen e trueScope).last n)])
  | _, .ifElse e trueScope falseScope, n => blocksFrom n (e.nodes n) ++
      (trueScope.freeOrder (n + e.size) ++ (falseScope.freeOrder (n + e.size + trueScope.size) ++
        [.node ((Derivation.ifElse e trueScope falseScope).last n)]))
  | _, .switch e f (.firstChoice value body), n => blocksFrom n (e.nodes n) ++
      (choiceOrder value (n + e.size) ((Derivation.firstChoice value body).firstChoiceNode (n + e.size))
        (body.freeOrder (n + e.size + (labelNodes value).length)) ++
        [.node ((Derivation.switch e f (.firstChoice value body)).last n)])
  | _, .switch e f (.nextChoice choices value body), n => blocksFrom n (e.nodes n) ++
      (choices.freeOrder (n + e.size) ++
        choiceOrder value (n + e.size + choices.size)
          ((Derivation.nextChoice choices value body).last (n + e.size))
          (body.freeOrder (n + e.size + choices.size + (labelNodes value).length)) ++
        [.node ((Derivation.switch e f (.nextChoice choices value body)).last n)])
  | _, .while e loopScope, n => blocksFrom n (e.nodes n) ++
      (loopScope.freeOrder (n + e.size) ++ [.node ((Derivation.while e loopScope).last n)])
  | _, .func name args retType body, n => body.freeOrder (n + args.size) ++
      (.string ((Derivation.func name args retType body).last n) ::
        ((args.declNodes n).flatMap declBlocks ++ [.node (args.own n)] ++
          ((retType.map fun _ =>
            Block.typeName ((Derivation.func name args retType body).last n)).toList ++
            [.node ((Derivation.func name args retType body).last n)])))
  | _, .flush stat _, n => stat.freeOrder n
  | _, .firstChoice value body, n => choiceOrder value n
      ((Derivation.firstChoice value body).firstChoiceNode n)
      (body.freeOrder (n + (labelNodes value).length))
  | _, .nextChoice choices _ _, n => choices.freeOrder n
  | _, .ifElif _ _ _, _ | _, .elifThen _ _, _ | _, .elifElif _ _ _, _ | _, .elifElse _ _ _, _ => []

/-- What stays: the choices between the first and the last one. -/
def Derivation.leaked : {symbol : Nonterminal} → Derivation symbol → ℕ → List Block
  | _, .scope _ stats, n => stats.leaked n
  | _, .link stats stat, n => stats.leaked n ++ stat.leaked (n + stats.size)
  | _, .block body, n => body.leaked n
  | _, .ifThen e trueScope, n => trueScope.leaked (n + e.size)
  | _, .ifElse e trueScope falseScope, n =>
    trueScope.leaked (n + e.size) ++ falseScope.leaked (n + e.size + trueScope.size)
  | _, .switch e _ (.firstChoice value body), n => body.leaked (n + e.size + (labelNodes value).length)
  | _, .switch e _ (.nextChoice choices value body), n => choices.leaked (n + e.size) ++
      body.leaked (n + e.size + choices.size + (labelNodes value).length)
  | _, .while e loopScope, n => loopScope.leaked (n + e.size)
  | _, .func _ args _ body, n => body.leaked (n + args.size)
  | _, .flush stat _, n => stat.leaked n
  | _, .firstChoice value body, n => body.leaked (n + (labelNodes value).length)
  | _, .nextChoice choices value body, n => choices.leaked n ++
      blocksFrom (n + choices.size) (labelNodes value ++
        (body.nodes (n + choices.size + (labelNodes value).length) none ++
          [.statSwitchChoice none none none]))
  | _, .empty, _ | _, .expression _ _, _ | _, .ret _, _ | _, .ifElif _ _ _, _ | _, .elifThen _ _, _
  | _, .elifElif _ _ _, _ | _, .elifElse _ _ _, _ => []

/-- No switch has more than two choices. -/
def Derivation.FewChoices : {symbol : Nonterminal} → Derivation symbol → Prop
  | _, .scope _ stats => stats.FewChoices
  | _, .link stats stat => stats.FewChoices ∧ stat.FewChoices
  | _, .block body => body.FewChoices
  | _, .ifThen _ trueScope => trueScope.FewChoices
  | _, .ifElse _ trueScope falseScope => trueScope.FewChoices ∧ falseScope.FewChoices
  | _, .switch _ _ (.firstChoice _ body) => body.FewChoices
  | _, .switch _ _ (.nextChoice choices _ body) => choices.FewChoices ∧ body.FewChoices
  | _, .while _ loopScope => loopScope.FewChoices
  | _, .func _ _ _ body => body.FewChoices
  | _, .flush stat _ => stat.FewChoices
  | _, .firstChoice _ body => body.FewChoices
  | _, .nextChoice _ _ _ => False
  | _, .empty | _, .expression _ _ | _, .ret _ | _, .ifElif _ _ _ | _, .elifThen _ _
  | _, .elifElif _ _ _ | _, .elifElse _ _ _ => True

lemma Derivation.leaked_eq_nil : ∀ {symbol : Nonterminal} (d : Derivation symbol) (n : ℕ),
    d.leaked n = [] ↔ d.FewChoices
  | _, .empty, _ | _, .expression _ _, _ | _, .ret _, _ | _, .ifElif _ _ _, _ | _, .elifThen _ _, _
  | _, .elifElif _ _ _, _ | _, .elifElse _ _ _, _ => iff_of_true rfl trivial
  | _, .scope _ stats, n => stats.leaked_eq_nil n
  | _, .link stats stat, n => by
    rw [Derivation.leaked, List.append_eq_nil_iff, stats.leaked_eq_nil, stat.leaked_eq_nil]
    exact Iff.rfl
  | _, .block body, n => body.leaked_eq_nil n
  | _, .flush stat _, n => stat.leaked_eq_nil n
  | _, .ifThen _ trueScope, _ => trueScope.leaked_eq_nil _
  | _, .ifElse e trueScope falseScope, n => by
    rw [Derivation.leaked, List.append_eq_nil_iff, trueScope.leaked_eq_nil, falseScope.leaked_eq_nil]
    exact Iff.rfl
  | _, .while _ loopScope, _ => loopScope.leaked_eq_nil _
  | _, .func _ _ _ body, _ => body.leaked_eq_nil _
  | _, .firstChoice _ body, _ => body.leaked_eq_nil _
  | _, .switch _ _ (.firstChoice _ body), _ => body.leaked_eq_nil _
  | _, .switch e _ (.nextChoice choices value body), n => by
    rw [Derivation.leaked, List.append_eq_nil_iff, choices.leaked_eq_nil, body.leaked_eq_nil]
    exact Iff.rfl
  | _, .nextChoice choices value body, n => by
    refine iff_of_false (fun h => ?_) id
    rw [Derivation.leaked, List.append_eq_nil_iff, blocksFrom_append, blocksFrom_append] at h
    simp [blocksFrom, AstNode.blocks] at h

/-- The own node of a derivation is its last one. -/
lemma blocksFrom_own {l : List AstNode} {node : AstNode} {n k : ℕ} {q : Option Ptr}
    (hk : n + l.length = k) :
    blocksFrom n (l ++ [AstNode.linked q node]) = blocksFrom n l ++ node.blocks k := by
  rw [blocksFrom_append, blocksFrom_singleton, AstNode.blocks_linked, hk]

lemma Expression.length_size (e : Expression) (n : ℕ) : (e.nodes n).length = e.size := e.length_nodes n

lemma FuncArgList.count_blocks (args : FuncArgList) (n : ℕ) (behind last : Ptr) (b : Block) :
    ((args.declNodes n).flatMap declBlocks).count b + [Block.node (args.own n)].count b =
      (blocksFrom n (args.nodes n behind last)).count b := by
  induction args generalizing behind with
  | empty => exact Nat.zero_add _
  | first varType varName => exact (List.count_append ..).symm
  | next list varType varName ih =>
    rw [FuncArgList.nodes, blocksFrom_append, blocksFrom_singleton, list.length_nodes,
      FuncArgList.declNodes, List.flatMap_append, List.flatMap_singleton, List.count_append,
      List.count_append, ← ih]
    show _ + _ + [Block.node (list.own n)].count b = _ + _ + (declBlocks (n + list.size)).count b
    omega

/-- What was made is freed or stays. -/
lemma Derivation.count_freeOrder : ∀ {symbol : Nonterminal} {d : Derivation symbol}, d.WithoutElif →
    ∀ (n : ℕ) (q : Option Ptr) (b : Block), (d.freeOrder n).count b + (d.leaked n).count b =
      (blocksFrom (n + Derivation.extra symbol) (d.nodes n q)).count b
  | _, .scope f stats, hd, n, q, b => by
    have hstats := Derivation.count_freeOrder (show stats.WithoutElif from hd) n (some none) b
    have hlength := stats.length_nodes n (some none)
    -- the node of the list is in front of the statements, the node of the scope behind them
    simp only [Derivation.extra] at hstats hlength
    have hlast : n + 1 + (stats.nodes n (some none)).length = (Derivation.scope f stats).last n := by
      rw [Derivation.last, Derivation.size]
      omega
    simp only [Derivation.nodes, Derivation.extra, Nat.add_zero, blocksFrom, blocksFrom_own hlast,
      List.count_append, AstNode.blocks, Derivation.freeOrder, Derivation.leaked] at hstats ⊢
    omega
  | _, .empty, _, n, q, b => by
    rw [Derivation.nodes]
    rfl
  | _, .link stats stat, hd, n, q, b => by
    have hstats := Derivation.count_freeOrder (show stats.WithoutElif from hd.1) n
      (some (some (stat.last (n + stats.size)))) b
    have hstat := Derivation.count_freeOrder (show stat.WithoutElif from hd.2) (n + stats.size) q b
    have hlength := stats.length_nodes n (some (some (stat.last (n + stats.size))))
    simp only [Derivation.extra, Nat.add_zero] at hstats hstat hlength
    rw [Derivation.nodes, Derivation.extra, blocksFrom_append,
      show n + 1 + (stats.nodes n _).length = n + stats.size from by omega]
    simp only [List.count_append, Derivation.freeOrder, Derivation.leaked]
    omega
  | _, .expression e f, _, n, q, b => by
    have hlast : n + (e.nodes n).length = (Derivation.expression e f).last n := by
      rw [e.length_size, Derivation.last, Derivation.size]
      omega
    simp only [Derivation.nodes, Derivation.extra, Nat.add_zero, blocksFrom_own hlast,
      List.count_append, List.count_nil, AstNode.blocks, Derivation.freeOrder, Derivation.leaked]
  | _, .ret e, _, n, q, b => by
    have hlast : n + (e.nodes n).length = (Derivation.ret e).last n := by
      rw [e.length_size, Derivation.last, Derivation.size]
      omega
    simp only [Derivation.nodes, Derivation.extra, Nat.add_zero, blocksFrom_own hlast,
      List.count_append, List.count_nil, AstNode.blocks, Derivation.freeOrder, Derivation.leaked]
  | _, .block body, hd, n, q, b => Derivation.count_freeOrder (show body.WithoutElif from hd) n q b
  | _, .flush stat _, hd, n, q, b => Derivation.count_freeOrder (show stat.WithoutElif from hd) n q b
  | _, .ifThen e trueScope, hd, n, q, b => by
    have htrue := Derivation.count_freeOrder (show trueScope.WithoutElif from hd) (n + e.size) none b
    have hlast : n + e.size + (trueScope.nodes (n + e.size) none).length =
        (Derivation.ifThen e trueScope).last n := by
      rw [trueScope.length_scope, Derivation.last, Derivation.size]
      omega
    simp only [Derivation.extra, Nat.add_zero] at htrue
    rw [Derivation.nodes, Derivation.extra, Nat.add_zero, blocksFrom_append, e.length_size,
      blocksFrom_own hlast]
    simp only [List.count_append, AstNode.blocks, Derivation.freeOrder, Derivation.leaked]
    omega
  | _, .while e loopScope, hd, n, q, b => by
    have hloop := Derivation.count_freeOrder (show loopScope.WithoutElif from hd) (n + e.size) none b
    have hlast : n + e.size + (loopScope.nodes (n + e.size) none).length =
        (Derivation.while e loopScope).last n := by
      rw [loopScope.length_scope, Derivation.last, Derivation.size]
      omega
    simp only [Derivation.extra, Nat.add_zero] at hloop
    rw [Derivation.nodes, Derivation.extra, Nat.add_zero, blocksFrom_append, e.length_size,
      blocksFrom_own hlast]
    simp only [List.count_append, AstNode.blocks, Derivation.freeOrder, Derivation.leaked]
    omega
  | _, .ifElse e trueScope falseScope, hd, n, q, b => by
    have htrue := Derivation.count_freeOrder (show trueScope.WithoutElif from hd.1) (n + e.size) none b
    have hfalse := Derivation.count_freeOrder (show falseScope.WithoutElif from hd.2)
      (n + e.size + trueScope.size) none b
    have hlast : n + e.size + trueScope.size +
        (falseScope.nodes (n + e.size + trueScope.size) none).length =
        (Derivation.ifElse e trueScope falseScope).last n := by
      rw [falseScope.length_scope, Derivation.last, Derivation.size]
      omega
    simp only [Derivation.extra, Nat.add_zero] at htrue hfalse
    rw [Derivation.nodes, Derivation.extra, Nat.add_zero, blocksFrom_append, blocksFrom_append,
      e.length_size, trueScope.length_scope, blocksFrom_own hlast]
    simp only [List.count_append, AstNode.blocks, Derivation.freeOrder, Derivation.leaked]
    omega
  | _, .func name args retType body, hd, n, q, b => by
    have hbody := Derivation.count_freeOrder (show body.WithoutElif from hd) (n + args.size) none b
    have hargs := args.count_blocks n none (args.lastDecl n) b
    have hlast : n + args.size + (body.nodes (n + args.size) none).length =
        (Derivation.func name args retType body).last n := by
      rw [body.length_scope, Derivation.last, Derivation.size]
      omega
    simp only [Derivation.extra, Nat.add_zero] at hbody
    rw [Derivation.nodes, Derivation.extra, Nat.add_zero, blocksFrom_append, FuncArgList.made,
      args.length_nodes, blocksFrom_own hlast]
    -- the type that is returned is a string of the node, if there is one
    cases retType <;>
    · simp only [List.count_append, List.count_cons, AstNode.blocks, Derivation.freeOrder,
        Derivation.leaked, Option.map_none, Option.map_some, Option.toList_none, Option.toList_some,
        List.count_nil] at hargs ⊢
      omega
  | _, .firstChoice value body, hd, n, q, b => by
    have hbody := Derivation.count_freeOrder (show body.WithoutElif from hd)
      (n + (labelNodes value).length) none b
    have hlast : n + (labelNodes value).length +
        (body.nodes (n + (labelNodes value).length) none).length =
        (Derivation.firstChoice value body).firstChoiceNode n := by
      rw [body.length_scope, Derivation.firstChoiceNode, Nat.add_assoc]
    simp only [Derivation.extra, Nat.add_zero] at hbody
    rw [Derivation.nodes, Derivation.extra, Nat.add_zero, blocksFrom_append, blocksFrom_append, hlast,
      blocksFrom_singleton, AstNode.blocks_linkedChoice]
    simp only [List.count_append, AstNode.blocks, Derivation.freeOrder, Derivation.leaked, choiceOrder]
    omega
  | _, .nextChoice choices value body, hd, n, q, b => by
    have hchoices := fun next =>
      Derivation.count_freeOrder (show choices.WithoutElif from hd.1) n next b
    have hlength := choices.length_nodes n
    simp only [Derivation.extra, Nat.add_zero] at hchoices hlength
    rw [Derivation.nodes, Derivation.extra, Nat.add_zero, blocksFrom_append, hlength, List.count_append,
      ← hchoices]
    simp only [List.count_append, Derivation.freeOrder, Derivation.leaked, blocksFrom_append,
      blocksFrom_singleton, AstNode.blocks]
    omega
  | _, .switch e f (.firstChoice value body), hd, n, q, b => by
    have hchoices := Derivation.count_freeOrder
      (show (Derivation.firstChoice value body).WithoutElif from hd) (n + e.size) none b
    have hlength := (Derivation.firstChoice value body).length_nodes (n + e.size) none
    simp only [Derivation.extra, Nat.add_zero] at hchoices hlength
    have hlast : n + e.size + ((Derivation.firstChoice value body).nodes (n + e.size) none).length =
        (Derivation.switch e f (.firstChoice value body)).last n := by
      rw [hlength, Derivation.last, Derivation.size]
      omega
    rw [Derivation.nodes, Derivation.extra, Nat.add_zero, blocksFrom_append, e.length_size,
      blocksFrom_own hlast, List.count_append, List.count_append, ← hchoices]
    simp only [List.count_append, AstNode.blocks, Derivation.freeOrder, Derivation.leaked]
    omega
  | _, .switch e f (.nextChoice choices value body), hd, n, q, b => by
    have hchoices := Derivation.count_freeOrder (show choices.WithoutElif from hd.1) (n + e.size)
      (some (some (n + e.size + choices.size + ((labelNodes value).length + body.size)))) b
    have hbody := Derivation.count_freeOrder (show body.WithoutElif from hd.2)
      (n + e.size + choices.size + (labelNodes value).length) none b
    have hlength := choices.length_nodes (n + e.size)
      (some (some (n + e.size + choices.size + ((labelNodes value).length + body.size))))
    have hwhole := (Derivation.nextChoice choices value body).length_nodes (n + e.size) none
    simp only [Derivation.extra, Nat.add_zero] at hchoices hbody hlength hwhole
    have hlast : n + e.size +
        ((Derivation.nextChoice choices value body).nodes (n + e.size) none).length =
        (Derivation.switch e f (.nextChoice choices value body)).last n := by
      rw [hwhole, Derivation.last, Derivation.size]
      omega
    -- the last choice is freed, what is between it and the first one stays
    have hown : n + e.size + choices.size + (labelNodes value).length + body.size =
        (Derivation.nextChoice choices value body).last (n + e.size) := by
      rw [Derivation.last, Derivation.size]
      omega
    rw [Derivation.nodes, Derivation.extra, Nat.add_zero, blocksFrom_append, e.length_size,
      blocksFrom_own hlast, Derivation.nodes, Option.getD_none, blocksFrom_append, hlength,
      blocksFrom_append, blocksFrom_append, blocksFrom_singleton, body.length_scope, hown]
    simp only [List.count_append, AstNode.blocks, Derivation.freeOrder, Derivation.leaked, choiceOrder]
    omega
  | _, .ifElif _ _ _, hd, _, _, _ | _, .elifThen _ _, hd, _, _, _ | _, .elifElif _ _ _, hd, _, _, _
  | _, .elifElse _ _ _, hd, _, _, _ => hd.elim

/-! ## Freeing -/

lemma Derivation.count_le_size : ∀ (stats : Derivation .statements), stats.count + 1 ≤ stats.size
  | .empty => by
    rw [Derivation.count, Derivation.size]
  | .link stats stat => by
    have hcount := stats.count_le_size
    have hpos := stat.size_pos
    rw [Derivation.count, Derivation.size]
    omega

/-- What frees the node of a derivation. -/
def Derivation.FreesAt : {symbol : Nonterminal} → Derivation symbol → List AstNode → ℕ → Prop
  | .scope, body, nodes, n => ∀ fuel, body.size ≤ fuel + 2 → LiesAt nodes n (body.nodes n none) →
    Frees (astFreeNodeScope (astFreeNode nodes fuel) nodes fuel (some (body.last n)))
      (body.freeOrder n)
  | .statement, stat, nodes, n => ∀ fuel q, stat.size ≤ fuel → (stat.isBlock = true → q = none) →
    LiesAt nodes n (stat.nodes n q) → Block.node (stat.last n) ∈ stat.freeOrder n ∧
      Frees (astFreeNode nodes fuel (some (stat.last n))) (stat.freeOrder n)
  | .statements, stats, nodes, n => ∀ fuel next, stats.size ≤ fuel + 1 →
    LiesAt nodes (n + 1) (stats.nodes n (some next)) → ∃ orders, List.Forall₂ (fun i order =>
      Block.node i ∈ order ∧ Frees (astFreeNode nodes fuel (some i)) order) (stats.statNodes n) orders ∧
      orders.flatten = stats.freeOrder n
  | .switchSelectionBlock, choices, nodes, n => ∀ fuel q, choices.size ≤ fuel →
    LiesAt nodes n (choices.nodes n q) → Block.node (choices.firstChoiceNode n) ∈ choices.freeOrder n ∧
      Frees (astFreeNodeStatSwitchChoice (astFreeNode nodes fuel) nodes
        (some (choices.firstChoiceNode n))) (choices.freeOrder n)
  | .elifSelectionBlock, _, _, _ => True

lemma Derivation.last_mem_freeOrder (body : Derivation .scope) (n : ℕ) :
    Block.node (body.last n) ∈ body.freeOrder n := by
  cases body with
  | scope f stats =>
    rw [Derivation.freeOrder]
    exact List.mem_append_right _ (List.mem_singleton_self _)

/-- A scope that `ast_free_node` is called with. -/
lemma Derivation.FreesAt.body {body : Derivation .scope} {nodes : List AstNode} {n fuel : ℕ}
    (h : body.FreesAt nodes n) (hfuel : body.size ≤ fuel) (hlies : LiesAt nodes n (body.nodes n none)) :
    Frees (astFreeNode nodes fuel (some (body.last n))) (body.freeOrder n) := by
  have hpos := body.size_pos
  obtain ⟨k, rfl⟩ : ∃ k, fuel = k + 1 := ⟨fuel - 1, by omega⟩
  obtain ⟨i, node, hi, hnode, hkind⟩ := Derivation.points_scope hlies
  cases hi
  cases node with
  | scope => exact frees_load hnode (body.last_mem_freeOrder n) (h k (by omega) hlies)
  | _ => cases hkind

lemma Derivation.exists_fuel {symbol : Nonterminal} {d : Derivation symbol} {fuel : ℕ}
    (h : d.size ≤ fuel) : ∃ k, fuel = k + 1 ∧ d.size ≤ k + 1 := by
  have hpos := d.size_pos
  exact ⟨fuel - 1, by omega, by omega⟩

lemma FuncArgList.length_declNodes (args : FuncArgList) (n : ℕ) :
    (args.declNodes n).length + 1 = args.size := by
  induction args with
  | empty | first => rfl
  | next list varType varName ih =>
    rw [FuncArgList.declNodes, List.length_append, FuncArgList.size, ← ih]
    rfl

/-- A choice frees its label and its scope. -/
lemma Derivation.FreesAt.choice {body : Derivation .scope} {value : Option ConstantExpression}
    {nodes : List AstNode} {n fuel own : ℕ} {next : Ptr}
    (h : body.FreesAt nodes (n + (labelNodes value).length)) (hlabel : LiesAt nodes n (labelNodes value))
    (hlies : LiesAt nodes (n + (labelNodes value).length)
      (body.nodes (n + (labelNodes value).length) none))
    (hown : nodes[own]? = some (.statSwitchChoice (labelPtr value n)
      (some (body.last (n + (labelNodes value).length))) next)) (hfuel : body.size ≤ fuel) :
    Block.node own ∈ choiceOrder value n own (body.freeOrder (n + (labelNodes value).length)) ∧
      Frees (astFreeNodeStatSwitchChoice (astFreeNode nodes fuel) nodes (some own))
        (choiceOrder value n own (body.freeOrder (n + (labelNodes value).length))) := by
  have hpos := body.size_pos
  obtain ⟨k, rfl⟩ : ∃ k, fuel = k + 1 := ⟨fuel - 1, by omega⟩
  refine ⟨by simp [choiceOrder], frees_statSwitchChoice hown (fun c hc => ?_) (h.body hfuel hlies)⟩
  obtain rfl : value = some c := hc
  have hnode : nodes[n]? = some (.literal c) := liesAt_singleton.mp hlabel
  refine frees_load hnode ?_ (frees_literal hnode)
  cases c <;> simp [AstNode.blocks]

/-- The link of the first choice. -/
lemma Derivation.choiceNext_first : ∀ {choices : Derivation .switchSelectionBlock}
    {nodes : List AstNode} {n : ℕ} {next : Ptr}, LiesAt nodes n (choices.nodes n (some next)) →
    ∃ node, nodes[choices.firstChoiceNode n]? = some node ∧ node.choiceNext = some next
  | .firstChoice value body, nodes, n, next, h => by
    rw [Derivation.nodes, liesAt_append, liesAt_append, liesAt_singleton, body.length_scope,
      Nat.add_assoc] at h
    rw [Derivation.firstChoiceNode]
    exact ⟨_, h.2.2, rfl⟩
  | .nextChoice choices value body, nodes, n, next, h => by
    rw [Derivation.nodes, liesAt_append, Option.getD_some] at h
    rw [Derivation.firstChoiceNode]
    exact Derivation.choiceNext_first h.1

/-- A switch of one choice. -/
lemma Derivation.FreesAt.switch_first {e : Expression} {f : Option Flush}
    {value : Option ConstantExpression} {body : Derivation .scope} {nodes : List AstNode} {n : ℕ}
    (he : e.IsExpr ∧ e.Formed)
    (hbody : body.FreesAt nodes (n + e.size + (labelNodes value).length)) :
    (Derivation.switch e f (.firstChoice value body)).FreesAt nodes n := by
  intro fuel q hfuel _ h
  obtain ⟨k, rfl, hk⟩ := Derivation.exists_fuel hfuel
  rw [Derivation.size, Derivation.size] at hk
  have hlength := (Derivation.firstChoice value body).length_nodes (n + e.size) none
  rw [Derivation.extra, Nat.add_zero] at hlength
  rw [Derivation.nodes, liesAt_append, liesAt_append, liesAt_singleton, e.length_size, hlength] at h
  obtain ⟨next, hown⟩ : ∃ next, nodes[(Derivation.switch e f (.firstChoice value body)).last n]? =
      some (.statSwitch next (some (n + e.own))
        (some ((Derivation.firstChoice value body).firstChoiceNode (n + e.size)))) := by
    have hown := Derivation.getElem?_last (.switch e f (.firstChoice value body)) (n := n) h.2.2
      (by rw [Derivation.size]; omega)
    cases q <;> exact ⟨_, hown⟩
  have hexpr := Expression.frees he.1 he.2 h.1 (by omega : e.size ≤ k)
  have hchoices := h.2.1
  rw [Derivation.nodes, liesAt_append, liesAt_append, liesAt_singleton, body.length_scope,
    Nat.add_assoc (n + e.size)] at hchoices
  have hchoice := hbody.choice hchoices.1 hchoices.2.1 hchoices.2.2 (by omega : body.size ≤ k)
  rw [Derivation.firstChoiceNode] at hown
  have hfrees := frees_statSwitch hown hexpr (.single hchoices.2.2 rfl) (.cons hchoice .nil)
    (show [_].length ≤ k by rw [List.length_singleton]; omega)
  rw [List.flatten_singleton] at hfrees
  rw [Derivation.freeOrder, Derivation.firstChoiceNode]
  exact ⟨by simp, frees_load hown (by simp) hfrees⟩

/-- A switch of more choices frees the first one and the last one: the links between them are not
followed. -/
lemma Derivation.FreesAt.switch_next {e : Expression} {f : Option Flush}
    {choices : Derivation .switchSelectionBlock} {value : Option ConstantExpression}
    {body : Derivation .scope} {nodes : List AstNode} {n : ℕ} (he : e.IsExpr ∧ e.Formed)
    (hchoicesFree : choices.FreesAt nodes (n + e.size))
    (hbody : body.FreesAt nodes (n + e.size + choices.size + (labelNodes value).length)) :
    (Derivation.switch e f (.nextChoice choices value body)).FreesAt nodes n := by
  intro fuel q hfuel _ h
  obtain ⟨k, rfl, hk⟩ := Derivation.exists_fuel hfuel
  have hpos := choices.size_pos
  have hpos' := body.size_pos
  rw [Derivation.size, Derivation.size] at hk
  have hlength := (Derivation.nextChoice choices value body).length_nodes (n + e.size) none
  have hlength' := choices.length_nodes (n + e.size)
    (some (some (n + e.size + choices.size + ((labelNodes value).length + body.size))))
  rw [Derivation.extra, Nat.add_zero] at hlength hlength'
  rw [Derivation.nodes, liesAt_append, liesAt_append, liesAt_singleton, e.length_size, hlength] at h
  obtain ⟨next, hown⟩ : ∃ next,
      nodes[(Derivation.switch e f (.nextChoice choices value body)).last n]? =
        some (.statSwitch next (some (n + e.own)) (some (choices.firstChoiceNode (n + e.size)))) := by
    have hown := Derivation.getElem?_last (.switch e f (.nextChoice choices value body)) (n := n) h.2.2
      (by rw [Derivation.size]; omega)
    rw [Derivation.firstChoiceNode] at hown
    cases q <;> exact ⟨_, hown⟩
  have hexpr := Expression.frees he.1 he.2 h.1 (by omega : e.size ≤ k)
  have hchoices := h.2.1
  rw [Derivation.nodes, Option.getD_none, liesAt_append, liesAt_append, liesAt_append,
    liesAt_singleton, hlength', body.length_scope, Nat.add_assoc (n + e.size + choices.size)]
    at hchoices
  -- the first choice is linked to the last one, over the head of those between them
  obtain ⟨node, hnode, hnext⟩ := Derivation.choiceNext_first hchoices.1
  have hfirst := hchoicesFree k _ (by omega) hchoices.1
  have hlast := hbody.choice hchoices.2.1 hchoices.2.2.1 hchoices.2.2.2 (by omega : body.size ≤ k)
  have hfrees := frees_statSwitch hown hexpr
    (.cons hnode hnext (.single hchoices.2.2.2 rfl)) (.cons hfirst (.cons hlast .nil))
    (show [_, _].length ≤ k by simp only [List.length_cons, List.length_nil]; omega)
  have hlastNode : (Derivation.nextChoice choices value body).last (n + e.size) =
      n + e.size + choices.size + ((labelNodes value).length + body.size) := by
    rw [Derivation.last, Derivation.size]
    omega
  rw [List.flatten_cons, List.flatten_singleton] at hfrees
  rw [Derivation.freeOrder, hlastNode]
  exact ⟨by simp, frees_load hown (by simp) hfrees⟩

/-- A formed derivation is freed. -/
lemma Derivation.freesAt : ∀ {symbol : Nonterminal} {d : Derivation symbol}, d.WithoutElif → d.Built →
    d.Formed → ∀ (nodes : List AstNode) (n : ℕ), d.FreesAt nodes n
  | _, .scope f stats, hd, hbuilt, hformed, nodes, n => by
    intro fuel hfuel h
    have hlength := stats.length_nodes n (some none)
    rw [Derivation.extra] at hlength
    rw [Derivation.size] at hfuel
    rw [Derivation.nodes, liesAt_cons, liesAt_append, liesAt_singleton] at h
    have hown : nodes[(Derivation.scope f stats).last n]? = some (.scope (some n)) :=
      Derivation.getElem?_last _ h.2.2 (by rw [Derivation.size]; omega)
    obtain ⟨orders, horders, hflatten⟩ := Derivation.freesAt (show stats.WithoutElif from hd) hbuilt
      hformed nodes n fuel none (by omega) h.2.1
    rw [Derivation.freeOrder, ← hflatten]
    refine frees_scope hown h.1 (Derivation.linkedList hformed hbuilt h.2.1) horders ?_
    have hcount := stats.count_le_size
    rw [stats.length_statNodes]
    omega
  | _, .empty, _, _, _, nodes, n => by
    intro fuel next hfuel h
    rw [Derivation.statNodes]
    exact ⟨[], .nil, rfl⟩
  | _, .link stats stat, hd, hbuilt, hformed, nodes, n => by
    intro fuel next hfuel h
    have hpos := stats.size_pos
    have hpos' := stat.size_pos
    have hlength := stats.length_nodes n (some (some (stat.last (n + stats.size))))
    rw [Derivation.extra] at hlength
    rw [Derivation.size] at hfuel
    rw [Derivation.nodes, liesAt_append,
      show n + 1 + (stats.nodes n _).length = n + stats.size from by omega] at h
    obtain ⟨orders, horders, hflatten⟩ := Derivation.freesAt (show stats.WithoutElif from hd.1) hbuilt.1
      hformed.1 nodes n fuel _ (by omega) h.1
    have hstat := Derivation.freesAt (show stat.WithoutElif from hd.2) hbuilt.2.1 hformed.2.1 nodes
      (n + stats.size) fuel _ (by omega) (fun hblock => by rw [hformed.2.2] at hblock; cases hblock) h.2
    -- the statement is the last one of the list, behind the orders of the others
    refine ⟨orders ++ [stat.freeOrder (n + stats.size)], ?_, ?_⟩
    · rw [Derivation.statNodes]
      exact List.rel_append horders (.cons hstat .nil)
    · rw [List.flatten_append, hflatten, Derivation.freeOrder]
      simp
  | _, .expression e f, _, _, hformed, nodes, n => by
    intro fuel q hfuel _ h
    obtain ⟨k, rfl, hk⟩ := Derivation.exists_fuel hfuel
    rw [Derivation.size] at hk
    rw [Derivation.nodes, liesAt_append, liesAt_singleton, e.length_size,
      Expression.cast_of_isExpr hformed.1] at h
    have hown := Derivation.getElem?_last (.expression e f) (n := n) h.2 (by rw [Derivation.size]; omega)
    have hmem : Block.node ((Derivation.expression e f).last n) ∈
        (Derivation.expression e f).freeOrder n := by simp [Derivation.freeOrder]
    have hexpr := Expression.frees hformed.1 hformed.2 h.1 (by omega : e.size ≤ k)
    refine ⟨hmem, ?_⟩
    cases q <;> exact frees_load hown hmem (frees_statExpr hown hexpr)
  | _, .ret e, _, _, hformed, nodes, n => by
    intro fuel q hfuel _ h
    obtain ⟨k, rfl, hk⟩ := Derivation.exists_fuel hfuel
    rw [Derivation.size] at hk
    rw [Derivation.nodes, liesAt_append, liesAt_singleton, e.length_size,
      Expression.cast_of_isExpr hformed.1] at h
    have hown := Derivation.getElem?_last (.ret e) (n := n) h.2 (by rw [Derivation.size]; omega)
    have hmem : Block.node ((Derivation.ret e).last n) ∈ (Derivation.ret e).freeOrder n := by
      simp [Derivation.freeOrder]
    have hexpr := Expression.frees hformed.1 hformed.2 h.1 (by omega : e.size ≤ k)
    refine ⟨hmem, ?_⟩
    cases q <;> exact frees_load hown hmem (frees_statRet hown hexpr)
  | _, .block body, hd, hbuilt, hformed, nodes, n => by
    intro fuel q hfuel hblock h
    -- a block has no link to a next statement
    obtain rfl := hblock rfl
    refine ⟨body.last_mem_freeOrder n, ?_⟩
    exact (Derivation.freesAt (show body.WithoutElif from hd) hbuilt hformed nodes n).body hfuel h
  | _, .flush stat _, hd, hbuilt, hformed, nodes, n =>
    Derivation.freesAt (show stat.WithoutElif from hd) hbuilt hformed nodes n
  | _, .ifThen e trueScope, hd, hbuilt, hformed, nodes, n => by
    intro fuel q hfuel _ h
    obtain ⟨k, rfl, hk⟩ := Derivation.exists_fuel hfuel
    rw [Derivation.size] at hk
    rw [Derivation.nodes, liesAt_append, liesAt_append, liesAt_singleton, e.length_size,
      trueScope.length_scope, Expression.cast_of_isExpr hformed.1.1] at h
    have hown := Derivation.getElem?_last (.ifThen e trueScope) (n := n) h.2.2 (by rw [Derivation.size]; omega)
    have hmem : Block.node ((Derivation.ifThen e trueScope).last n) ∈
        (Derivation.ifThen e trueScope).freeOrder n := by simp [Derivation.freeOrder]
    have hexpr := Expression.frees hformed.1.1 hformed.1.2 h.1 (by omega : e.size ≤ k)
    have htrue := Derivation.freesAt (show trueScope.WithoutElif from hd) hbuilt hformed.2 nodes
      (n + e.size) k (by omega) h.2.1
    refine ⟨hmem, ?_⟩
    cases q <;> exact frees_load hown hmem (frees_statIf hown hexpr htrue)
  | _, .ifElse e trueScope falseScope, hd, hbuilt, hformed, nodes, n => by
    intro fuel q hfuel _ h
    obtain ⟨k, rfl, hk⟩ := Derivation.exists_fuel hfuel
    rw [Derivation.size] at hk
    rw [Derivation.nodes, liesAt_append, liesAt_append, liesAt_append, liesAt_singleton, e.length_size,
      trueScope.length_scope, falseScope.length_scope, Expression.cast_of_isExpr hformed.1.1] at h
    have hown := Derivation.getElem?_last (.ifElse e trueScope falseScope) (n := n) h.2.2.2
      (by rw [Derivation.size]; omega)
    have hmem : Block.node ((Derivation.ifElse e trueScope falseScope).last n) ∈
        (Derivation.ifElse e trueScope falseScope).freeOrder n := by simp [Derivation.freeOrder]
    have hexpr := Expression.frees hformed.1.1 hformed.1.2 h.1 (by omega : e.size ≤ k)
    have htrue := Derivation.freesAt (show trueScope.WithoutElif from hd.1) hbuilt.1 hformed.2.1 nodes
      (n + e.size) k (by omega) h.2.1
    have hfalse := Derivation.freesAt (show falseScope.WithoutElif from hd.2) hbuilt.2 hformed.2.2 nodes
      (n + e.size + trueScope.size) k (by omega) h.2.2.1
    refine ⟨hmem, ?_⟩
    cases q <;> exact frees_load hown hmem (frees_statIfElse hown hexpr htrue hfalse)
  | _, .while e loopScope, hd, hbuilt, hformed, nodes, n => by
    intro fuel q hfuel _ h
    obtain ⟨k, rfl, hk⟩ := Derivation.exists_fuel hfuel
    rw [Derivation.size] at hk
    rw [Derivation.nodes, liesAt_append, liesAt_append, liesAt_singleton, e.length_size,
      loopScope.length_scope, Expression.cast_of_isExpr hformed.1.1] at h
    have hown := Derivation.getElem?_last (.while e loopScope) (n := n) h.2.2 (by rw [Derivation.size]; omega)
    have hmem : Block.node ((Derivation.while e loopScope).last n) ∈
        (Derivation.while e loopScope).freeOrder n := by simp [Derivation.freeOrder]
    have hexpr := Expression.frees hformed.1.1 hformed.1.2 h.1 (by omega : e.size ≤ k)
    have hloop := (Derivation.freesAt (show loopScope.WithoutElif from hd) hbuilt hformed.2 nodes
      (n + e.size)).body (by omega : loopScope.size ≤ k) h.2.1
    refine ⟨hmem, ?_⟩
    cases q <;> exact frees_load hown hmem (frees_statWhile hown hexpr hloop)
  | _, .func name args retType body, hd, hbuilt, hformed, nodes, n => by
    intro fuel q hfuel _ h
    obtain ⟨k, rfl, hk⟩ := Derivation.exists_fuel hfuel
    rw [Derivation.size] at hk
    rw [Derivation.nodes, liesAt_append, liesAt_append, liesAt_singleton, FuncArgList.made,
      args.length_nodes, body.length_scope] at h
    have hown := Derivation.getElem?_last (.func name args retType body) (n := n) h.2.2
      (by rw [Derivation.size]; omega)
    have hmem : Block.node ((Derivation.func name args retType body).last n) ∈
        (Derivation.func name args retType body).freeOrder n := by simp [Derivation.freeOrder]
    have hbody := (Derivation.freesAt (show body.WithoutElif from hd) hbuilt.2 hformed nodes
      (n + args.size)).body (by omega : body.size ≤ k) h.2.1
    -- the declarations are nodes themselves, so that the fuel is enough for their list
    have hcount : (args.declNodes n).length ≤ k := by
      have hlength := args.length_declNodes n
      omega
    have hargs := frees_funcArgList (FuncArgList.reads hbuilt.1 h.1).1
      (FuncArgList.linkedList hbuilt.1 h.1).segment hcount
    refine ⟨hmem, ?_⟩
    cases q <;> exact frees_load hown hmem (frees_declFunc hown hbody hargs)
  | _, .firstChoice value body, hd, hbuilt, hformed, nodes, n => by
    intro fuel q hfuel h
    rw [Derivation.size] at hfuel
    rw [Derivation.nodes, liesAt_append, liesAt_append, liesAt_singleton, body.length_scope,
      Nat.add_assoc] at h
    have hbody := Derivation.freesAt (show body.WithoutElif from hd) hbuilt hformed nodes
      (n + (labelNodes value).length)
    rw [Derivation.freeOrder, Derivation.firstChoiceNode]
    cases q <;> exact hbody.choice h.1 h.2.1 h.2.2 (by omega)
  | _, .nextChoice choices value body, hd, hbuilt, hformed, nodes, n => by
    intro fuel q hfuel h
    rw [Derivation.size] at hfuel
    rw [Derivation.nodes, liesAt_append] at h
    rw [Derivation.freeOrder, Derivation.firstChoiceNode]
    exact Derivation.freesAt (show choices.WithoutElif from hd.1) hbuilt.1 hformed.1 nodes n fuel _
      (by omega) h.1
  | _, .switch e f (.firstChoice value body), hd, hbuilt, hformed, nodes, n =>
    Derivation.FreesAt.switch_first hformed.1
      (Derivation.freesAt (show body.WithoutElif from hd) hbuilt hformed.2 nodes _)
  | _, .switch e f (.nextChoice choices value body), hd, hbuilt, hformed, nodes, n =>
    Derivation.FreesAt.switch_next hformed.1
      (Derivation.freesAt (show choices.WithoutElif from hd.1) hbuilt.1 hformed.2.1 nodes _)
      (Derivation.freesAt (show body.WithoutElif from hd.2) hbuilt.2 hformed.2.2 nodes _)
  | _, .ifElif _ _ _, hd, _, _, _, _ | _, .elifThen _ _, hd, _, _, _, _
  | _, .elifElif _ _ _, hd, _, _, _, _ | _, .elifElse _ _ _, hd, _, _, _, _ => hd.elim

/-! ## Programs -/

/-- The node that a block belongs to. -/
def Block.index : Block → ℕ
  | .node i | .string i | .typeName i => i

lemma AstNode.index_of_mem_blocks {node : AstNode} {i : ℕ} {b : Block} (h : b ∈ node.blocks i) :
    b.index = i := by
  unfold AstNode.blocks at h
  split at h <;> simp only [List.mem_cons, List.not_mem_nil, or_false] at h <;>
    rcases h with rfl | rfl | rfl <;> rfl

lemma AstNode.nodup_blocks (node : AstNode) (i : ℕ) : (node.blocks i).Nodup := by
  unfold AstNode.blocks
  split <;> simp

lemma index_of_mem_blocksFrom {l : List AstNode} {n : ℕ} {b : Block} (h : b ∈ blocksFrom n l) :
    n ≤ b.index ∧ b.index < n + l.length := by
  induction l generalizing n with
  | nil => exact absurd h List.not_mem_nil
  | cons node l ih =>
    rw [blocksFrom, List.mem_append] at h
    rw [List.length_cons]
    cases h with
    | inl h =>
      rw [AstNode.index_of_mem_blocks h]
      omega
    | inr h =>
      have hrange := ih h
      omega

lemma nodup_blocksFrom (n : ℕ) (l : List AstNode) : (blocksFrom n l).Nodup := by
  induction l generalizing n with
  | nil => exact List.nodup_nil
  | cons node l ih =>
    rw [blocksFrom, List.nodup_append]
    refine ⟨node.nodup_blocks n, ih (n + 1), fun b hb b' hb' heq => ?_⟩
    have hindex := AstNode.index_of_mem_blocks hb
    have hrange := index_of_mem_blocksFrom hb'
    rw [← heq] at hrange
    omega

/-- The statement is compiled, and freed then. -/
def Derivation.isCompiled : Derivation .statement → Bool
  | .flush stat _ => stat.isCompiled
  | .block _ | .switch _ _ _ | .ret _ => false
  | .expression _ _ | .ifThen _ _ | .ifElse _ _ _ | .ifElif _ _ _ | .while _ _
  | .func _ _ _ _ => true

/-- What was made for the statements that are compiled. -/
def programBlocks : List (Derivation .statement) → ℕ → List Block
  | [], _ => []
  | stat :: program, n =>
    (if stat.isCompiled then blocksFrom n (stat.nodes n none) else []) ++
      programBlocks program (n + stat.size)

/-- What is freed of it. -/
def programOrder : List (Derivation .statement) → ℕ → List Block
  | [], _ => []
  | stat :: program, n =>
    (if stat.isCompiled then stat.freeOrder n else []) ++ programOrder program (n + stat.size)

/-- What nests has no switch. -/
lemma Derivation.Nests.fewChoices {symbol : Nonterminal} {d : Derivation symbol} {inside : Bool}
    (h : d.Nests inside) : d.FewChoices := by
  induction d generalizing inside with
  | scope f stats ih => exact ih h
  | empty | expression | ret => trivial
  | link stats stat ih₁ ih₂ => exact ⟨ih₁ h.1, ih₂ h.2⟩
  | block body ih => exact ih h
  | ifThen e trueScope ih => exact ih h.2
  | ifElse e trueScope falseScope ih₁ ih₂ => exact ⟨ih₁ h.2.1, ih₂ h.2.2⟩
  | «while» e loopScope ih => exact ih h.2
  | flush stat f ih => exact ih h
  | ifElif | switch | func | firstChoice | nextChoice | elifThen | elifElif | elifElse => exact h.elim

lemma Derivation.Balances.fewChoices : ∀ {stat : Derivation .statement} {next : Option Token},
    stat.Balances next → stat.FewChoices
  | .expression _ _, _, _ | .ret _, _, _ => trivial
  | .block _, _, h => by
    rw [Derivation.Balances] at h
    exact h.fewChoices
  | .ifThen _ _, _, h => by
    rw [Derivation.Balances] at h
    exact h.1.fewChoices
  | .ifElse _ _ _, _, h => by
    rw [Derivation.Balances] at h
    exact ⟨h.1.fewChoices, h.2.fewChoices⟩
  | .ifElif _ _ _, _, h | .switch _ _ _, _, h => by
    rw [Derivation.Balances] at h
    exact h.elim
  | .while _ _, _, h => by
    rw [Derivation.Balances] at h
    exact h.fewChoices
  | .func _ _ _ _, _, h => by
    rw [Derivation.Balances] at h
    exact h.2.fewChoices
  | .flush stat _, _, h => by
    rw [Derivation.Balances] at h
    exact h.fewChoices

/-- All that was made for a program that balances is freed. -/
lemma programOrder_perm : ∀ {program : List (Derivation .statement)}, ProgramBalances program →
    ∀ n, (programOrder program n).Perm (programBlocks program n)
  | [], _, _ => .nil
  | stat :: program, h, n => by
    rw [programOrder, programBlocks]
    refine List.Perm.append ?_ (programOrder_perm h.2 (n + stat.size))
    split
    · refine List.perm_iff_count.mpr fun b => ?_
      have hcount := Derivation.count_freeOrder h.1.withoutElif n none b
      rw [(stat.leaked_eq_nil n).mpr h.1.fewChoices, Derivation.extra] at hcount
      exact hcount
    · exact .nil

lemma nodup_programBlocks (program : List (Derivation .statement)) (n : ℕ) :
    (programBlocks program n).Nodup ∧ ∀ b ∈ programBlocks program n, n ≤ b.index := by
  induction program generalizing n with
  | nil => exact ⟨List.nodup_nil, fun b hb => absurd hb List.not_mem_nil⟩
  | cons stat program ih =>
    obtain ⟨hnodup, hindex⟩ := ih (n + stat.size)
    have hlength := stat.length_nodes n none
    rw [Derivation.extra, Nat.add_zero] at hlength
    rw [programBlocks]
    split
    · refine ⟨List.nodup_append.mpr ⟨nodup_blocksFrom _ _, hnodup, fun b hb b' hb' heq => ?_⟩,
        fun b hb => ?_⟩
      · have hrange := (index_of_mem_blocksFrom hb).2
        have hbehind := hindex b' hb'
        rw [← heq] at hbehind
        omega
      · cases List.mem_append.mp hb with
        | inl hb => exact (index_of_mem_blocksFrom hb).1
        | inr hb => exact (Nat.le_add_right _ _).trans (hindex b hb)
    · exact ⟨hnodup, fun b hb => (Nat.le_add_right _ _).trans (hindex b hb)⟩

/-- A statement is compiled as a whole, or not at all. -/
lemma Derivation.toCompile_eq : ∀ (stat : Derivation .statement) (n : ℕ),
    stat.toCompile n = if stat.isCompiled then [stat.last n] else []
  | .flush stat _, n => by
    rw [Derivation.toCompile, Derivation.isCompiled, stat.toCompile_eq n]
    rfl
  | .block _, _ | .switch _ _ _, _ | .ret _, _ => by
    rw [Derivation.toCompile, Derivation.isCompiled]
    rfl
  | .expression e f, n | .ifThen e trueScope, n | .ifElse e trueScope falseScope, n
  | .ifElif e trueScope elifs, n | .while e loopScope, n | .func name args retType body, n => by
    rw [Derivation.toCompile, Derivation.isCompiled, Derivation.last, Derivation.size]
    refine congrArg (fun i => [i]) ?_
    omega

lemma runProgram_frees {program : List (Derivation .statement)} (hbal : ProgramBalances program)
    (hformed : ∀ stat ∈ program, stat.Formed) {s : ParserState}
    (hs : s.At .outside (firstToken (programYield program) none)) :
    ∃ states, runProgram program s = some states ∧
      Frees (freeProgram s states) (programOrder program s.nodes.length) := by
  induction program generalizing s with
  | nil => exact ⟨[], rfl, frees_nil⟩
  | cons stat program ih =>
    obtain ⟨hstat, hrest⟩ := hbal
    rw [List.forall_mem_cons] at hformed
    rw [programYield, List.flatMap_cons, firstToken_append] at hs
    obtain ⟨p, s₁, hrun, hat, hcompiled⟩ := Derivation.run_balances hstat hs
    have hruns := Derivation.runs_of_run hrun
    have hnodes : s₁.nodes = s.nodes ++ stat.nodes s.nodes.length none :=
      (hruns.laid hstat.withoutElif).nodes
    have hlies : LiesAt s₁.nodes s.nodes.length (stat.nodes s.nodes.length none) := by
      rw [hnodes]
      exact liesAt_length _ _
    have hlength := stat.length_nodes s.nodes.length none
    rw [Derivation.extra, Nat.add_zero] at hlength
    have hlength₁ : s₁.nodes.length = s.nodes.length + stat.size := by
      rw [hnodes, List.length_append, hlength]
    obtain ⟨states, hstates, hfrees⟩ := ih hrest hformed.2 hat.peeked
    refine ⟨s₁ :: states, ?_, ?_⟩
    · rw [runProgram]
      simp only [hrun, peek_eq]
      show (runProgram program (s₁.peeked _)).bind _ = _
      rw [hstates]
      rfl
    · have hfrees₁ : Frees (freeProgram s₁ states) (programOrder program s₁.nodes.length) := by
        cases states with
        | nil => exact hfrees
        | cons s₂ states => exact hfrees
      have hcall := (Derivation.freesAt hstat.withoutElif hruns.built hformed.1 s₁.nodes
        s.nodes.length s₁.nodes.length none (by omega) (fun _ => rfl) hlies).2
      rw [freeProgram, hcompiled.compiled, List.drop_left, programOrder, ← hlength₁]
      refine .bind ?_ hfrees₁
      rw [stat.toCompile_eq]
      cases stat.isCompiled with
      | false => exact frees_nil
      | true =>
        rw [if_pos rfl, if_pos rfl, ← List.append_nil (stat.freeOrder _)]
        exact hcall.bind frees_nil

/-- In every run of a program each statement that has been compiled is freed without a look into a
block that is gone, no block is freed twice, and all that was made for these statements is freed. -/
theorem program_freed {program : List (Derivation .statement)} (hbal : ProgramBalances program)
    (hformed : ∀ stat ∈ program, stat.Formed) : ∃ states freed,
      runProgram program parserInit = some states ∧
      freeProgram parserInit states [] = some ((), freed) ∧ freed.Nodup ∧
      freed.Perm (programBlocks program 0) := by
  obtain ⟨states, hrun, hfrees⟩ := runProgram_frees hbal hformed
    (ParserState.at_of_ahead_eq_false (s := parserInit) _ rfl rfl)
  have hperm := programOrder_perm hbal 0
  have hnodup := hperm.nodup_iff.mpr (nodup_programBlocks program 0).1
  exact ⟨states, programOrder program 0, hrun, hfrees hnodup [] (fun _ _ => List.not_mem_nil), hnodup,
    hperm⟩

theorem program_freed_funcAndIf : ∃ states freed, runProgram funcAndIf parserInit = some states ∧
    freeProgram parserInit states [] = some ((), freed) ∧ freed.Nodup ∧
    freed.Perm (programBlocks funcAndIf 0) :=
  program_freed
    (by
      simp [funcAndIf, ProgramBalances, Derivation.Balances, Derivation.Nests, FuncArgList.Proper,
        Still, Flush.token_quiet, programYield, firstToken, scopeX, lineX, blankScope])
    (by
      simp [funcAndIf, Derivation.Formed, Derivation.isBlock, Expression.Formed, Expression.IsExpr,
        scopeX, lineX, blankScope, conditionX])

/-- Whatever statement the parser has built as a formed tree: `ast_free_node` frees it without a look
into a block that is gone, each block once, and nothing else. Nothing stays if and only if no switch
has more than two choices; then what stays are the choices between the first and the last one. -/
theorem statement_freed {stat : Derivation .statement} {next : Option Token} {s s' : ParserState}
    {p : Ptr} (hrun : stat.run next s = some (p, s')) (hd : stat.WithoutElif) (hformed : stat.Formed) :
    ∃ freed, astFreeNode s'.nodes s'.nodes.length (some (stat.last s.nodes.length)) [] =
        some ((), freed) ∧ freed.Nodup ∧
      (freed ++ stat.leaked s.nodes.length).Perm
        (blocksFrom s.nodes.length (stat.nodes s.nodes.length none)) ∧
      (stat.leaked s.nodes.length = [] ↔ stat.FewChoices) := by
  have hruns := Derivation.runs_of_run hrun
  have hnodes : s'.nodes = s.nodes ++ stat.nodes s.nodes.length none := (hruns.laid hd).nodes
  have hlies : LiesAt s'.nodes s.nodes.length (stat.nodes s.nodes.length none) := by
    rw [hnodes]
    exact liesAt_length _ _
  have hlength := stat.length_nodes s.nodes.length none
  rw [Derivation.extra, Nat.add_zero] at hlength
  have hfuel : stat.size ≤ s'.nodes.length := by
    rw [hnodes, List.length_append, hlength]
    omega
  have hfrees := (Derivation.freesAt hd hruns.built hformed s'.nodes s.nodes.length _ none hfuel
    (fun _ => rfl) hlies).2
  have hperm : (stat.freeOrder s.nodes.length ++ stat.leaked s.nodes.length).Perm
      (blocksFrom s.nodes.length (stat.nodes s.nodes.length none)) :=
    List.perm_iff_count.mpr fun b => by
      rw [List.count_append, Derivation.count_freeOrder hd s.nodes.length none b, Derivation.extra]
      rfl
  have hnodup := (List.nodup_append.mp (hperm.nodup_iff.mpr (nodup_blocksFrom _ _))).1
  exact ⟨_, hfrees hnodup [] (fun _ _ => List.not_mem_nil), hnodup, hperm, stat.leaked_eq_nil _⟩

/-- `switch x { case 'a' { } case 'b' { } other { } }` -/
def switchOfThree : Derivation .statement :=
  .switch conditionX none (.nextChoice (.nextChoice (.firstChoice (some (.charLiteral 97)) blankScope)
    (some (.charLiteral 98)) blankScope) none blankScope)

theorem statement_freed_switchOfThree : ∃ s' p,
    switchOfThree.run none parserInit = some (p, s') ∧
    ∃ freed, astFreeNode s'.nodes s'.nodes.length (some (switchOfThree.last 0)) [] =
        some ((), freed) ∧ freed.Nodup ∧
      (freed ++ switchOfThree.leaked 0).Perm (blocksFrom 0 (switchOfThree.nodes 0 none)) ∧
      (switchOfThree.leaked 0 = [] ↔ switchOfThree.FewChoices) := by
  obtain ⟨⟨p, s'⟩, hrun⟩ := Option.isSome_iff_exists.mp
    (show (switchOfThree.run none parserInit).isSome = true by decide +kernel)
  refine ⟨s', p, hrun, statement_freed hrun ?_ ?_⟩
  · exact ⟨⟨trivial, trivial⟩, trivial⟩
  · simp [switchOfThree, Derivation.Formed, Expression.IsExpr, Expression.Formed, conditionX,
      blankScope]

end PhantomShell
