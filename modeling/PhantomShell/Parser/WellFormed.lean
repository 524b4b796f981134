import PhantomShell.Lib.Chain
import PhantomShell.Parser.Trees

/-!
# Well-formed trees

A node is formed if its children are what the compiler and `ast_free_...` take them for: an
expression has the bit of `AST_NODE_EXPR_MASK`, a scope and its list are of these types, and a list
leads from its first to its last element. All nodes of a derivation are formed if and only if no
declaration of a variable is an expression in it and no block is a statement in a list
(`formed_iff`): the link of a block overwrites its own statements.
-/

namespace PhantomShell

/-! ## Nodes -/

def AstNode.isScope : AstNode → Bool
  | .scope _ => true
  | _ => false

def AstNode.isStatList : AstNode → Bool
  | .statList _ _ _ => true
  | _ => false

def AstNode.isChoice : AstNode → Bool
  | .statSwitchChoice _ _ _ => true
  | _ => false

def AstNode.isFuncArgList : AstNode → Bool
  | .funcArgList _ _ => true
  | _ => false

/-- `next` of an `ast_node_stat_t` -/
def AstNode.statNext : AstNode → Option Ptr
  | .statExpr next _ | .statRet next _ | .statIf next _ _ _ | .statSwitch next _ _
  | .statWhile next _ _ => some next
  | _ => none

/-- `next` of an `ast_node_decl_var_t` -/
def AstNode.declNext : AstNode → Option Ptr
  | .declVar _ _ next => some next
  | _ => none

/-- A pointer to a node of this kind, which is not null. -/
def Points (nodes : List AstNode) (kind : AstNode → Bool) (p : Ptr) : Prop :=
  ∃ i node, p = some i ∧ nodes[i]? = some node ∧ kind node = true

/-- A pointer to a node of this kind, or null. -/
def PointsOrNull (nodes : List AstNode) (kind : AstNode → Bool) (p : Ptr) : Prop :=
  p = none ∨ Points nodes kind p

/-- The children of a node are what they are taken for. The elements of a list were made in its
order. -/
def AstNode.Formed (nodes : List AstNode) : AstNode → Prop
  | .ident _ | .literal _ | .declVar _ _ _ => True
  | .unaryOp _ operand => Points nodes isExpr operand
  | .binaryOp _ left right => Points nodes isExpr left ∧ Points nodes isExpr right
  | .ternaryOp operand₁ operand₂ operand₃ =>
    Points nodes isExpr operand₁ ∧ Points nodes isExpr operand₂ ∧ Points nodes isExpr operand₃
  | .group expr => Points nodes isExpr expr
  | .funcArgList first last =>
    ∃ l, LinkedList declNext nodes first last l ∧ l.Pairwise (· < ·)
  | .scope stats => Points nodes isStatList stats
  | .statList size first last =>
    ∃ l, LinkedList statNext nodes first last l ∧ l.Pairwise (· < ·) ∧ l.length = size
  | .statExpr _ expr | .statRet _ expr => Points nodes isExpr expr
  | .statIf _ expr trueScope falseScope =>
    Points nodes isExpr expr ∧ Points nodes isScope trueScope ∧ PointsOrNull nodes isScope falseScope
  | .statSwitch _ expr choice => Points nodes isExpr expr ∧ Points nodes isChoice choice
  | .statSwitchChoice expr body next =>
    PointsOrNull nodes isExpr expr ∧ Points nodes isScope body ∧ PointsOrNull nodes isChoice next
  | .statWhile _ expr loopScope => Points nodes isExpr expr ∧ Points nodes isScope loopScope
  | .declFunc _ _ args body => Points nodes isFuncArgList args ∧ Points nodes isScope body

/-! ## Derivations -/

/-- What `NODE_UPCAST_EXPR` takes. -/
def Expression.IsExpr : Expression → Prop
  | .varDeclaration _ _ => False
  | _ => True

/-- The operands are expressions. -/
def Expression.Formed : Expression → Prop
  | .operand _ | .varDeclaration _ _ => True
  | .unary _ e | .group e => e.IsExpr ∧ e.Formed
  | .binary _ l r => (l.IsExpr ∧ l.Formed) ∧ r.IsExpr ∧ r.Formed
  | .call f e => (f.IsExpr ∧ f.Formed) ∧ e.IsExpr ∧ e.Formed
  | .ternary e₁ e₂ e₃ => (e₁.IsExpr ∧ e₁.Formed) ∧ (e₂.IsExpr ∧ e₂.Formed) ∧ e₃.IsExpr ∧ e₃.Formed

/-- The statement is a block, maybe with something to flush behind it. -/
def Derivation.isBlock : {symbol : Nonterminal} → Derivation symbol → Bool
  | _, .scope _ _ | _, .block _ => true
  | _, .flush stat _ => stat.isBlock
  | _, _ => false

/-- The statement is a function, which no list can take. -/
def Derivation.isFunc : Derivation .statement → Bool
  | .func _ _ _ _ => true
  | .flush stat _ => stat.isFunc
  | .expression _ _ | .block _ | .ifThen _ _ | .ifElse _ _ _ | .ifElif _ _ _ | .switch _ _ _
  | .while _ _ | .ret _ => false

/-- What is stored as an expression is one, and no block is a statement in a list. -/
def Derivation.Formed : {symbol : Nonterminal} → Derivation symbol → Prop
  | _, .scope _ stats => stats.Formed
  | _, .empty => True
  | _, .link stats stat => stats.Formed ∧ stat.Formed ∧ stat.isBlock = false
  | _, .expression e _ | _, .ret e => e.IsExpr ∧ e.Formed
  | _, .block body => body.Formed
  | _, .ifThen e trueScope | _, .elifThen e trueScope => (e.IsExpr ∧ e.Formed) ∧ trueScope.Formed
  | _, .ifElse e trueScope falseScope | _, .elifElse e trueScope falseScope =>
    (e.IsExpr ∧ e.Formed) ∧ trueScope.Formed ∧ falseScope.Formed
  | _, .ifElif e trueScope elifs | _, .elifElif e trueScope elifs =>
    (e.IsExpr ∧ e.Formed) ∧ trueScope.Formed ∧ elifs.Formed
  | _, .switch e _ choices => (e.IsExpr ∧ e.Formed) ∧ choices.Formed
  | _, .while e loopScope => (e.IsExpr ∧ e.Formed) ∧ loopScope.Formed
  | _, .func _ _ _ body => body.Formed
  | _, .flush stat _ => stat.Formed
  | _, .firstChoice _ body => body.Formed
  | _, .nextChoice choices _ body => choices.Formed ∧ body.Formed

/-- What the actions can build: no function is in a list, and a parameter is behind another one. -/
def Derivation.Built : {symbol : Nonterminal} → Derivation symbol → Prop
  | _, .scope _ stats => stats.Built
  | _, .empty | _, .expression _ _ | _, .ret _ => True
  | _, .link stats stat => stats.Built ∧ stat.Built ∧ stat.isFunc = false
  | _, .block body => body.Built
  | _, .ifThen _ trueScope | _, .elifThen _ trueScope => trueScope.Built
  | _, .ifElse _ trueScope falseScope | _, .elifElse _ trueScope falseScope =>
    trueScope.Built ∧ falseScope.Built
  | _, .ifElif _ trueScope elifs | _, .elifElif _ trueScope elifs => trueScope.Built ∧ elifs.Built
  | _, .switch _ _ choices => choices.Built
  | _, .while _ loopScope => loopScope.Built
  | _, .func _ args _ body => args.Proper ∧ body.Built
  | _, .flush stat _ => stat.Built
  | _, .firstChoice _ body => body.Built
  | _, .nextChoice choices _ body => choices.Built ∧ body.Built

/-! ## Expressions -/

/-- The own node of an expression, which has the bit unless it is a declaration. -/
lemma Expression.points_own {e : Expression} {nodes : List AstNode} {n : ℕ}
    (h : LiesAt nodes n (e.nodes n)) :
    Points nodes AstNode.isExpr (some (n + e.own)) ↔ e.IsExpr := by
  obtain ⟨l, node, hnodes, hcast⟩ := e.nodes_eq n
  have hlength := e.length_nodes n
  rw [hnodes, List.length_append, List.length_singleton, Nat.add_right_cancel_iff] at hlength
  rw [hnodes, liesAt_append, liesAt_singleton, hlength] at h
  have hcast := hcast 0
  constructor
  · intro h'
    obtain ⟨i, node', hi, hnode', hexpr⟩ := h'
    cases hi
    cases h.2.symm.trans hnode'
    rw [if_pos hexpr] at hcast
    cases e with
    | varDeclaration => cases hcast
    | _ => trivial
  · intro he
    refine ⟨_, node, rfl, h.2, ?_⟩
    by_contra hexpr
    rw [if_neg hexpr] at hcast
    cases e with
    | varDeclaration => exact he
    | _ => cases hcast

lemma Expression.points_cast {e : Expression} {nodes : List AstNode} {n : ℕ}
    (h : LiesAt nodes n (e.nodes n)) :
    Points nodes AstNode.isExpr (e.cast (n + e.own)) ↔ e.IsExpr := by
  cases e with
  | varDeclaration =>
    constructor
    · intro h'
      obtain ⟨i, node, hi, -⟩ := h'
      cases hi
    · exact False.elim
  | _ => exact Expression.points_own h

/-- All nodes of an expression are formed if all of its operands are expressions. -/
lemma Expression.formed_iff {e : Expression} {nodes : List AstNode} {n : ℕ}
    (h : LiesAt nodes n (e.nodes n)) : (∀ node ∈ e.nodes n, node.Formed nodes) ↔ e.Formed := by
  induction e generalizing n with
  | operand a => cases a <;> simp [Expression.nodes, AstNode.Formed, Expression.Formed]
  | varDeclaration => simp [Expression.nodes, AstNode.Formed, Expression.Formed]
  | unary p e ih =>
    rw [Expression.nodes, liesAt_append] at h
    rw [Expression.nodes, List.forall_mem_append, ih h.1, List.forall_mem_singleton, Expression.Formed,
      and_comm]
    simp only [AstNode.Formed, Expression.points_cast h.1]
  | group e ih =>
    rw [Expression.nodes, liesAt_append] at h
    rw [Expression.nodes, List.forall_mem_append, ih h.1, List.forall_mem_singleton, Expression.Formed,
      and_comm]
    simp only [AstNode.Formed, Expression.points_cast h.1]
  | binary b l r ihl ihr =>
    rw [Expression.nodes, liesAt_append, liesAt_append, l.length_nodes] at h
    have hr : LiesAt nodes (n + l.size) (r.nodes (n + l.size)) := h.2.1
    rw [Expression.nodes, List.forall_mem_append, List.forall_mem_append, ihl h.1, ihr hr,
      List.forall_mem_singleton, Expression.Formed]
    simp only [AstNode.Formed, Expression.points_cast h.1, Expression.points_cast hr]
    tauto
  | call f e ihf ihe =>
    rw [Expression.nodes, liesAt_append, liesAt_append, liesAt_cons, f.length_nodes,
      e.length_nodes] at h
    have he : LiesAt nodes (n + f.size) (e.nodes (n + f.size)) := h.2.1
    have hgroup : Points nodes AstNode.isExpr (some (n + f.size + e.size)) :=
      ⟨_, _, rfl, h.2.2.1, rfl⟩
    rw [Expression.nodes, List.forall_mem_append, List.forall_mem_append, ihf h.1, ihe he,
      List.forall_mem_cons, List.forall_mem_singleton, Expression.Formed]
    simp only [AstNode.Formed, Expression.points_cast h.1, Expression.points_cast he, hgroup]
    tauto
  | ternary e₁ e₂ e₃ ih₁ ih₂ ih₃ =>
    rw [Expression.nodes, liesAt_append, liesAt_append, liesAt_append, e₁.length_nodes,
      e₂.length_nodes] at h
    have h₂ : LiesAt nodes (n + e₁.size) (e₂.nodes (n + e₁.size)) := h.2.1
    have h₃ : LiesAt nodes (n + e₁.size + e₂.size) (e₃.nodes (n + e₁.size + e₂.size)) := h.2.2.1
    rw [Expression.nodes, List.forall_mem_append, List.forall_mem_append, List.forall_mem_append,
      ih₁ h.1, ih₂ h₂, ih₃ h₃, List.forall_mem_singleton, Expression.Formed]
    simp only [AstNode.Formed, Expression.points_cast h.1, Expression.points_cast h₂,
      Expression.points_cast h₃]
    tauto

/-! ## Own nodes -/

lemma Derivation.getElem?_own {symbol : Nonterminal} (d : Derivation symbol)
    (hlist : symbol ≠ .statements) (hchoices : symbol ≠ .switchSelectionBlock) {nodes : List AstNode}
    {n : ℕ} {q : Option Ptr} (h : LiesAt nodes n (d.nodes n q)) :
    nodes[d.last n]? = (d.nodes n q).getLast? := by
  obtain ⟨l, node, hsize, hnodes⟩ := d.nodes_eq_concat hlist hchoices n
  rw [hnodes, liesAt_append, liesAt_singleton] at h
  rw [hnodes, List.getLast?_concat, d.getElem?_last h.2 (by omega)]

lemma Derivation.points_scope {body : Derivation .scope} {nodes : List AstNode} {n : ℕ}
    (h : LiesAt nodes n (body.nodes n none)) : Points nodes AstNode.isScope (some (body.last n)) := by
  have hown := body.getElem?_own (by decide) (by decide) h
  cases body with
  | scope f stats =>
    rw [Derivation.nodes, ← List.cons_append, List.getLast?_concat] at hown
    exact ⟨_, _, rfl, hown, rfl⟩

/-- The own node of a statement is none of a list. -/
lemma Derivation.isStatList_getLast : ∀ {stat : Derivation .statement} {n : ℕ} {q : Option Ptr}
    {node : AstNode}, (stat.nodes n q).getLast? = some node → node.isStatList = false
  | .flush stat f, n, q, node, h => by
    rw [Derivation.nodes] at h
    exact Derivation.isStatList_getLast h
  | .block (.scope f stats), n, q, node, h | .expression _ _, n, q, node, h
  | .ret _, n, q, node, h | .ifThen _ _, n, q, node, h | .ifElse _ _ _, n, q, node, h
  | .ifElif _ _ _, n, q, node, h | .switch _ _ _, n, q, node, h | .while _ _, n, q, node, h
  | .func _ _ _ _, n, q, node, h => by
    simp [Derivation.nodes, List.getLast?_append, List.getLast?_cons] at h
    rw [← h]
    cases q <;> rfl

lemma Derivation.points_stat {stat : Derivation .statement} {nodes : List AstNode} {n : ℕ}
    {q : Option Ptr} (h : LiesAt nodes n (stat.nodes n q)) :
    Points nodes (fun node => !node.isStatList) (some (stat.last n)) := by
  have hown := stat.getElem?_own (by decide) (by decide) h
  obtain ⟨l, node, -, hnodes⟩ := stat.nodes_eq_concat (by decide) (by decide) n
  rw [hnodes, List.getLast?_concat] at hown
  refine ⟨_, _, rfl, hown, ?_⟩
  show (!AstNode.isStatList _) = true
  rw [Derivation.isStatList_getLast (hnodes q ▸ List.getLast?_concat), Bool.not_false]

/-- A statement that a list can take has its link. -/
lemma Derivation.statNext_getLast : ∀ {stat : Derivation .statement}, stat.isBlock = false →
    stat.isFunc = false → ∀ {n : ℕ} {next : Ptr} {node : AstNode},
    (stat.nodes n (some next)).getLast? = some node → node.statNext = some next
  | .flush stat f, hblock, hfunc, n, next, node, h => by
    rw [Derivation.nodes] at h
    rw [Derivation.isFunc] at hfunc
    exact Derivation.statNext_getLast (show stat.isBlock = false from hblock) hfunc h
  | .expression _ _, _, _, n, next, node, h | .ret _, _, _, n, next, node, h
  | .ifThen _ _, _, _, n, next, node, h | .ifElse _ _ _, _, _, n, next, node, h
  | .ifElif _ _ _, _, _, n, next, node, h | .switch _ _ _, _, _, n, next, node, h
  | .while _ _, _, _, n, next, node, h => by
    simp [Derivation.nodes, List.getLast?_append] at h
    rw [← h]
    rfl
  | .block _, hblock, _, _, _, _, _ => Bool.noConfusion hblock
  | .func _ _ _ _, _, hfunc, _, _, _, _ => by
    rw [Derivation.isFunc] at hfunc
    exact Bool.noConfusion hfunc

/-- The first choice is one. -/
lemma Derivation.points_choice : ∀ {choices : Derivation .switchSelectionBlock} {nodes : List AstNode}
    {n : ℕ} {q : Option Ptr}, LiesAt nodes n (choices.nodes n q) →
    Points nodes AstNode.isChoice (some (choices.firstChoiceNode n))
  | .firstChoice value body, nodes, n, q, h => by
    have hlength := body.length_scope (n + (labelNodes value).length) none
    rw [Derivation.nodes, liesAt_append, liesAt_append, liesAt_singleton, hlength] at h
    rw [Derivation.firstChoiceNode, ← Nat.add_assoc]
    refine ⟨_, _, rfl, h.2.2, ?_⟩
    cases q <;> rfl
  | .nextChoice choices value body, nodes, n, q, h => by
    rw [Derivation.nodes, liesAt_append] at h
    rw [Derivation.firstChoiceNode]
    exact Derivation.points_choice h.1

/-! ## Lists -/

/-- The statements of a list, in source order. -/
def Derivation.statNodes : Derivation .statements → ℕ → List ℕ
  | .empty, _ => []
  | .link stats stat, n => stats.statNodes n ++ [stat.last (n + stats.size)]

lemma Derivation.length_statNodes : ∀ (stats : Derivation .statements) (n : ℕ),
    (stats.statNodes n).length = stats.count
  | .empty, _ => by rw [Derivation.statNodes, Derivation.count, List.length_nil]
  | .link stats stat, n => by
    rw [Derivation.statNodes, Derivation.count, List.length_append, stats.length_statNodes]
    rfl

lemma Derivation.getLast?_statNodes : ∀ (stats : Derivation .statements) (n : ℕ),
    (stats.statNodes n).getLast? = stats.lastStat n
  | .empty, _ => by rw [Derivation.statNodes, Derivation.lastStat, List.getLast?_nil]
  | .link stats stat, n => by
    rw [Derivation.statNodes, Derivation.lastStat, List.getLast?_concat]

lemma Derivation.lt_of_mem_statNodes : ∀ {stats : Derivation .statements} {n i : ℕ},
    i ∈ stats.statNodes n → i < n + stats.size
  | .empty, n, i, h => by
    rw [Derivation.statNodes] at h
    exact absurd h List.not_mem_nil
  | .link stats stat, n, i, h => by
    have hpos := stat.size_pos
    rw [Derivation.statNodes, List.mem_append, List.mem_singleton] at h
    rw [Derivation.size]
    cases h with
    | inl h =>
      have hlt := Derivation.lt_of_mem_statNodes h
      omega
    | inr h =>
      rw [Derivation.last] at h
      omega

lemma Derivation.pairwise_statNodes : ∀ (stats : Derivation .statements) (n : ℕ),
    (stats.statNodes n).Pairwise (· < ·)
  | .empty, _ => by
    rw [Derivation.statNodes]
    exact .nil
  | .link stats stat, n => by
    rw [Derivation.statNodes, List.pairwise_append]
    refine ⟨stats.pairwise_statNodes n, List.pairwise_singleton .., fun i hi j hj => ?_⟩
    have hlt := Derivation.lt_of_mem_statNodes hi
    rw [List.mem_singleton, Derivation.last] at hj
    omega

/-- The statements up to the pointer behind them. -/
lemma Derivation.segment : ∀ {stats : Derivation .statements}, stats.Formed → stats.Built →
    ∀ {nodes : List AstNode} {n : ℕ} {next : Ptr}, LiesAt nodes (n + 1) (stats.nodes n (some next)) →
    Segment AstNode.statNext nodes ((stats.firstStat n).or next) (stats.statNodes n) next
  | .empty, _, _, nodes, n, next, _ => by
    rw [Derivation.firstStat, Derivation.statNodes, Option.none_or]
    exact .nil next
  | .link stats stat, hformed, hbuilt, nodes, n, next, h => by
    have hlength := stats.length_nodes n (some (some (stat.last (n + stats.size))))
    rw [Derivation.extra] at hlength
    rw [Derivation.nodes, liesAt_append,
      show n + 1 + (stats.nodes n _).length = n + stats.size from by omega] at h
    have hown := stat.getElem?_own (by decide) (by decide) h.2
    obtain ⟨l, node, -, hnodes⟩ := stat.nodes_eq_concat (by decide) (by decide) (n + stats.size)
    have hlast : (stat.nodes (n + stats.size) (some next)).getLast? =
        some (node.linked (some next)) := by rw [hnodes, List.getLast?_concat]
    have hnext := Derivation.statNext_getLast hformed.2.2 hbuilt.2.2 hlast
    rw [Derivation.firstStat, Derivation.statNodes, Option.or_assoc, Option.some_or]
    exact (Derivation.segment hformed.1 hbuilt.1 h.1).append (.single (hown.trans hlast) hnext)

/-- A list of statements is linked. -/
lemma Derivation.linkedList {stats : Derivation .statements} (hformed : stats.Formed)
    (hbuilt : stats.Built) {nodes : List AstNode} {n : ℕ}
    (h : LiesAt nodes (n + 1) (stats.nodes n (some none))) :
    LinkedList AstNode.statNext nodes (stats.firstStat n) (stats.lastStat n) (stats.statNodes n) where
  segment := by
    have hsegment := Derivation.segment hformed hbuilt h
    rwa [Option.or_none] at hsegment
  getLast := stats.getLast?_statNodes n

/-- The parameters, in source order. -/
def FuncArgList.declNodes : FuncArgList → ℕ → List ℕ
  | .empty, _ => []
  | .first _ _, n => [n]
  | .next list _ _, n => list.declNodes n ++ [n + list.size]

lemma FuncArgList.lt_of_mem_declNodes {args : FuncArgList} {n i : ℕ} (h : i ∈ args.declNodes n) :
    i < n + args.size := by
  induction args with
  | empty => exact absurd h List.not_mem_nil
  | first varType varName =>
    rw [FuncArgList.declNodes, List.mem_singleton] at h
    rw [FuncArgList.size]
    omega
  | next list varType varName ih =>
    rw [FuncArgList.declNodes, List.mem_append, List.mem_singleton] at h
    rw [FuncArgList.size]
    cases h with
    | inl h =>
      have hlt := ih h
      omega
    | inr h => omega

lemma FuncArgList.pairwise_declNodes (args : FuncArgList) (n : ℕ) :
    (args.declNodes n).Pairwise (· < ·) := by
  induction args with
  | empty => exact .nil
  | first varType varName => exact List.pairwise_singleton ..
  | next list varType varName ih =>
    rw [FuncArgList.declNodes, List.pairwise_append]
    refine ⟨ih, List.pairwise_singleton .., fun i hi j hj => ?_⟩
    have hlt := FuncArgList.lt_of_mem_declNodes hi
    rw [List.mem_singleton] at hj
    omega

/-- The parameters up to the pointer behind them. -/
lemma FuncArgList.segment {args : FuncArgList} (hargs : args.Proper) (hne : args ≠ .empty)
    {nodes : List AstNode} {n : ℕ} {behind last : Ptr} (h : LiesAt nodes n (args.nodes n behind last)) :
    Segment AstNode.declNext nodes (args.firstDecl n) (args.declNodes n) behind := by
  induction args generalizing behind with
  | empty => exact absurd rfl hne
  | first varType varName =>
    rw [FuncArgList.nodes, liesAt_cons] at h
    exact .single h.1 rfl
  | next list varType varName ih =>
    rw [FuncArgList.nodes, liesAt_append, liesAt_singleton, list.length_nodes] at h
    exact (ih hargs.2 hargs.1 h.1).append (.single h.2 rfl)

/-- A list of parameters is linked. -/
lemma FuncArgList.linkedList {args : FuncArgList} (hargs : args.Proper) {nodes : List AstNode} {n : ℕ}
    (h : LiesAt nodes n (args.made n)) :
    LinkedList AstNode.declNext nodes (args.firstDecl n) (args.lastDecl n) (args.declNodes n) where
  segment := by
    by_cases hne : args = .empty
    · rw [hne]
      exact .nil none
    · exact FuncArgList.segment hargs hne h
  getLast := by
    cases args with
    | next list varType varName => rw [FuncArgList.declNodes, FuncArgList.lastDecl, List.getLast?_concat]
    | _ => rfl

/-- All nodes of a list of parameters are formed. -/
lemma FuncArgList.formed {args : FuncArgList} (hargs : args.Proper) {nodes : List AstNode} {n : ℕ}
    (h : LiesAt nodes n (args.made n)) : ∀ node ∈ args.made n, node.Formed nodes := by
  have hlist := FuncArgList.linkedList hargs h
  have hpairwise := args.pairwise_declNodes n
  intro node hnode
  suffices hkind : (∃ varType varName next, node = .declVar varType varName next) ∨
      node = .funcArgList (args.firstDecl n) (args.lastDecl n) by
    rcases hkind with ⟨varType, varName, next, rfl⟩ | rfl
    · trivial
    · exact ⟨_, hlist, hpairwise⟩
  clear h hlist hpairwise
  rw [FuncArgList.made] at hnode
  generalize args.lastDecl n = last, (none : Ptr) = behind at hnode ⊢
  induction args generalizing behind with
  | empty =>
    exact .inr (List.mem_singleton.mp hnode)
  | first varType varName =>
    rw [FuncArgList.nodes, List.mem_cons, List.mem_singleton] at hnode
    exact hnode.imp_left fun h => ⟨_, _, _, h⟩
  | next list varType varName ih =>
    rw [FuncArgList.nodes, List.mem_append, List.mem_singleton] at hnode
    exact hnode.elim (ih hargs.2 _) fun h => .inl ⟨_, _, _, h⟩

/-! ## Statements -/

/-- What a link leads to. -/
def Derivation.nextKind : Nonterminal → AstNode → Bool
  | .switchSelectionBlock => AstNode.isChoice
  | _ => fun node => !node.isStatList

/-- When the nodes of a derivation are formed. The own node of a block is not, once it is linked. -/
def Derivation.Formation : {symbol : Nonterminal} → Derivation symbol → List AstNode → ℕ → Prop
  | .statements, stats, nodes, n => ∀ next : Ptr,
    (∀ i, next = some i → Points nodes (Derivation.nextKind .statements) (some i)) →
    LiesAt nodes (n + 1) (stats.nodes n (some next)) →
    ((∀ node ∈ stats.nodes n (some next), node.Formed nodes) ↔ stats.Formed)
  | symbol, d, nodes, n => ∀ q : Option Ptr,
    (∀ i, q = some (some i) → Points nodes (Derivation.nextKind symbol) (some i)) →
    LiesAt nodes n (d.nodes n q) →
    ((∀ node ∈ d.nodes n q, node.Formed nodes) ↔ d.Formed ∧ (d.isBlock = true → q = none))

/-- The link of a statement does not matter, unless it is a scope. -/
lemma AstNode.formed_linked {node : AstNode} (h : node.isScope = false) (nodes : List AstNode)
    (q : Option Ptr) : (node.linked q).Formed nodes ↔ node.Formed nodes := by
  cases q with
  | none => exact Iff.rfl
  | some next =>
    cases node with
    | scope => exact Bool.noConfusion h
    | _ => exact Iff.rfl

/-- A scope that is no statement. -/
lemma Derivation.Formation.scope {body : Derivation .scope} {nodes : List AstNode} {n : ℕ}
    (h : body.Formation nodes n) (hlies : LiesAt nodes n (body.nodes n none)) :
    (∀ node ∈ body.nodes n none, node.Formed nodes) ↔ body.Formed :=
  (h none (fun _ hi => by cases hi) hlies).trans (and_iff_left fun _ => rfl)

lemma pointsOrNull_none (nodes : List AstNode) (kind : AstNode → Bool) :
    PointsOrNull nodes kind none := .inl rfl

/-- The label of a choice is formed, and an expression. -/
lemma formed_label {value : Option ConstantExpression} {nodes : List AstNode} {n : ℕ}
    (h : LiesAt nodes n (labelNodes value)) : (∀ node ∈ labelNodes value, node.Formed nodes) ∧
      PointsOrNull nodes AstNode.isExpr (labelPtr value n) := by
  cases value with
  | none => exact ⟨fun node hnode => (by cases hnode), .inl rfl⟩
  | some value =>
    refine ⟨fun node hnode => ?_, .inr ⟨n, _, rfl, liesAt_singleton.mp h, rfl⟩⟩
    obtain rfl := List.mem_singleton.mp hnode
    trivial

lemma formed_choice {nodes : List AstNode} {expr body : Ptr} {q : Option Ptr}
    (hexpr : PointsOrNull nodes AstNode.isExpr expr) (hbody : Points nodes AstNode.isScope body)
    (hq : ∀ i, q = some (some i) → Points nodes AstNode.isChoice (some i)) :
    AstNode.Formed nodes (AstNode.linkedChoice q (.statSwitchChoice expr body none)) := by
  cases q with
  | none => exact ⟨hexpr, hbody, .inl rfl⟩
  | some next =>
    refine ⟨hexpr, hbody, ?_⟩
    cases next with
    | none => exact .inl rfl
    | some i => exact .inr (hq i rfl)

/-- The nodes of a derivation are formed if it is. -/
lemma Derivation.formation {symbol : Nonterminal} {d : Derivation symbol} (hd : d.WithoutElif)
    (hbuilt : d.Built) (nodes : List AstNode) (n : ℕ) : d.Formation nodes n := by
  induction d generalizing n with
  | scope f stats ih =>
    intro q hq h
    have hlength := stats.length_nodes n (some none)
    rw [Derivation.extra] at hlength
    rw [Derivation.nodes, liesAt_cons, liesAt_append, liesAt_singleton] at h
    rw [Derivation.nodes, List.forall_mem_cons, List.forall_mem_append, List.forall_mem_singleton,
      ih hd hbuilt n none (fun _ hi => by cases hi) h.2.1]
    have hlist : stats.Formed → AstNode.Formed nodes
        (.statList stats.count (stats.firstStat n) (stats.lastStat n)) := fun hformed =>
      ⟨_, Derivation.linkedList hformed hbuilt h.2.1, stats.pairwise_statNodes n,
        stats.length_statNodes n⟩
    have hown : AstNode.Formed nodes (AstNode.linked q (.scope (some n))) ↔ q = none := by
      cases q with
      | none => exact iff_of_true ⟨n, _, rfl, h.1, rfl⟩ rfl
      | some next =>
        -- the link took the place of the statements
        refine iff_of_false (fun hformed => ?_) (Option.some_ne_none next)
        obtain ⟨i, node, rfl, hnode, hkind⟩ : Points nodes AstNode.isStatList next := hformed
        obtain ⟨i', node', hi, hnode', hkind'⟩ := hq i rfl
        cases hi
        cases hnode.symm.trans hnode'
        have hnot : (!node.isStatList) = true := hkind'
        rw [hkind] at hnot
        exact Bool.noConfusion hnot
    rw [hown]
    show _ ↔ stats.Formed ∧ (true = true → _)
    tauto
  | empty =>
    intro next hnext h
    exact iff_of_true (fun node hnode => by cases hnode) trivial
  | link stats stat ih₁ ih₂ =>
    intro next hnext h
    have hlength := stats.length_nodes n (some (some (stat.last (n + stats.size))))
    rw [Derivation.extra] at hlength
    rw [Derivation.nodes, liesAt_append,
      show n + 1 + (stats.nodes n _).length = n + stats.size from by omega] at h
    rw [Derivation.nodes, List.forall_mem_append,
      ih₁ hd.1 hbuilt.1 n _ (fun i hi => Option.some.inj hi ▸ Derivation.points_stat h.2) h.1,
      ih₂ hd.2 hbuilt.2.1 (n + stats.size) _ (fun i hi => hnext i (Option.some.inj hi)) h.2]
    simp [Derivation.Formed]
  | expression e f | ret e =>
    intro q hq h
    rw [Derivation.nodes, liesAt_append] at h
    rw [Derivation.nodes, List.forall_mem_append, List.forall_mem_singleton, Expression.formed_iff h.1,
      AstNode.formed_linked rfl]
    simp only [AstNode.Formed, Expression.points_cast h.1, Derivation.Formed, Derivation.isBlock]
    tauto
  | block body ih =>
    intro q hq h
    cases body with
    | scope f stats => exact ih hd hbuilt n q hq h
  | ifThen e trueScope ih =>
    intro q hq h
    rw [Derivation.nodes, liesAt_append, liesAt_append, e.length_nodes] at h
    have htrue : LiesAt nodes (n + e.size) (trueScope.nodes (n + e.size) none) := h.2.1
    rw [Derivation.nodes, List.forall_mem_append, List.forall_mem_append, List.forall_mem_singleton,
      Expression.formed_iff h.1, (ih hd hbuilt (n + e.size)).scope htrue, AstNode.formed_linked rfl]
    simp only [AstNode.Formed, Expression.points_cast h.1, Derivation.points_scope htrue,
      pointsOrNull_none, Derivation.Formed, Derivation.isBlock]
    tauto
  | «while» e loopScope ih =>
    intro q hq h
    rw [Derivation.nodes, liesAt_append, liesAt_append, e.length_nodes] at h
    have hloop : LiesAt nodes (n + e.size) (loopScope.nodes (n + e.size) none) := h.2.1
    rw [Derivation.nodes, List.forall_mem_append, List.forall_mem_append, List.forall_mem_singleton,
      Expression.formed_iff h.1, (ih hd hbuilt (n + e.size)).scope hloop, AstNode.formed_linked rfl]
    simp only [AstNode.Formed, Expression.points_cast h.1, Derivation.points_scope hloop,
      Derivation.Formed, Derivation.isBlock]
    tauto
  | ifElse e trueScope falseScope ih₁ ih₂ =>
    intro q hq h
    rw [Derivation.nodes, liesAt_append, liesAt_append, liesAt_append, e.length_nodes,
      trueScope.length_scope] at h
    have htrue : LiesAt nodes (n + e.size) (trueScope.nodes (n + e.size) none) := h.2.1
    have hfalse : LiesAt nodes (n + e.size + trueScope.size)
        (falseScope.nodes (n + e.size + trueScope.size) none) := h.2.2.1
    rw [Derivation.nodes, List.forall_mem_append, List.forall_mem_append, List.forall_mem_append,
      List.forall_mem_singleton, Expression.formed_iff h.1,
      (ih₁ hd.1 hbuilt.1 (n + e.size)).scope htrue,
      (ih₂ hd.2 hbuilt.2 (n + e.size + trueScope.size)).scope hfalse, AstNode.formed_linked rfl]
    simp only [AstNode.Formed, Expression.points_cast h.1, Derivation.points_scope htrue,
      PointsOrNull, Derivation.points_scope hfalse, Derivation.Formed, Derivation.isBlock]
    tauto
  | switch e f choices ih =>
    intro q hq h
    rw [Derivation.nodes, liesAt_append, liesAt_append, e.length_nodes] at h
    have hchoices : LiesAt nodes (n + e.size) (choices.nodes (n + e.size) none) := h.2.1
    rw [Derivation.nodes, List.forall_mem_append, List.forall_mem_append, List.forall_mem_singleton,
      Expression.formed_iff h.1, ih hd hbuilt (n + e.size) none (fun _ hi => by cases hi) hchoices,
      AstNode.formed_linked rfl]
    simp only [AstNode.Formed, Expression.points_own h.1, Derivation.points_choice hchoices,
      Derivation.Formed, Derivation.isBlock]
    tauto
  | func name args retType body ih =>
    intro q hq h
    rw [Derivation.nodes, liesAt_append, liesAt_append, FuncArgList.made, args.length_nodes] at h
    rw [Derivation.nodes, List.forall_mem_append, List.forall_mem_append, List.forall_mem_singleton,
      (ih hd hbuilt.2 (n + args.size)).scope h.2.1, AstNode.formed_linked rfl]
    -- the parameters are formed whenever they can be built
    have hargs : Points nodes AstNode.isFuncArgList (some (args.own n)) :=
      ⟨_, _, rfl, (FuncArgList.reads hbuilt.1 h.1).1, rfl⟩
    have hmade := FuncArgList.formed hbuilt.1 h.1
    simp only [AstNode.Formed, hargs, Derivation.points_scope h.2.1, Derivation.Formed,
      Derivation.isBlock]
    tauto
  | flush stat f ih => exact ih hd hbuilt n
  | firstChoice value body ih =>
    intro q hq h
    rw [Derivation.nodes, liesAt_append, liesAt_append] at h
    rw [Derivation.nodes, List.forall_mem_append, List.forall_mem_append, List.forall_mem_singleton,
      (ih hd hbuilt (n + (labelNodes value).length)).scope h.2.1]
    have hlabel := formed_label h.1
    have hown := formed_choice hlabel.2 (Derivation.points_scope h.2.1) hq
    simp only [hown, Derivation.Formed, Derivation.isBlock]
    tauto
  | nextChoice choices value body ih₁ ih₂ =>
    intro q hq h
    have hlength := body.length_scope (n + choices.size + (labelNodes value).length) none
    have hsize := choices.length_nodes n
      (some (q.getD (some (n + choices.size + ((labelNodes value).length + body.size)))))
    rw [Derivation.extra, Nat.add_zero] at hsize
    rw [Derivation.nodes, liesAt_append, liesAt_append, liesAt_append, liesAt_singleton, hsize,
      hlength] at h
    have hlabel := formed_label h.2.1
    have hbody := h.2.2.1
    have hlast : nodes[n + choices.size + ((labelNodes value).length + body.size)]? =
        some (.statSwitchChoice (labelPtr value (n + choices.size))
          (some (body.last (n + choices.size + (labelNodes value).length))) none) := by
      rw [← Nat.add_assoc]
      exact h.2.2.2
    -- the first choice is linked to the last one: to this, or to one that is still to come
    have hnext : ∀ i, some (q.getD (some (n + choices.size + ((labelNodes value).length +
        body.size)))) = some (some i) → Points nodes AstNode.isChoice (some i) := by
      intro i hi
      cases q with
      | none =>
        rw [Option.getD_none, Option.some_inj] at hi
        exact hi ▸ ⟨_, _, rfl, hlast, rfl⟩
      | some next => exact hq i hi
    have hown := formed_choice (q := none) hlabel.2 (Derivation.points_scope hbody)
      (fun _ hi => by cases hi)
    rw [Derivation.nodes, List.forall_mem_append, List.forall_mem_append, List.forall_mem_append,
      List.forall_mem_singleton, ih₁ hd.1 hbuilt.1 n _ hnext h.1,
      (ih₂ hd.2 hbuilt.2 (n + choices.size + (labelNodes value).length)).scope hbody]
    rw [AstNode.linkedChoice, Option.elim_none] at hown
    simp only [hown, Derivation.Formed, Derivation.isBlock]
    tauto
  | ifElif | elifThen | elifElif | elifElse => exact hd.elim

/-! ## Runs -/

lemma FuncArgList.proper_of_reduce {args : FuncArgList} {s s' : ParserState} {p : Ptr}
    (h : args.reduce s = some (p, s')) : args.Proper := by
  induction args generalizing s' p with
  | empty | first => trivial
  | next list varType varName ih =>
    obtain ⟨p₁, s₁, hlist, -⟩ := parserM_bind_eq_some.mp h
    refine ⟨fun hempty => ?_, ih hlist⟩
    subst hempty
    -- the list has no last parameter, which the next one would be linked to
    have hi : (s.nodes ++ [AstNode.funcArgList none none])[s.nodes.length]? =
        some (.funcArgList none none) := List.getElem?_concat_length ..
    cases hlist
    obtain ⟨l, hl, -⟩ := FuncArgList.reduce_next rfl hi h
    cases hl

/-- A function is freed when it has been compiled. -/
lemma Runs.ptr_of_isFunc : ∀ {stat : Derivation .statement}, stat.isFunc = true →
    ∀ {next : Option Token} {s s' : ParserState} {p : Ptr}, Runs stat next s p s' → p = none
  | .func _ _ _ _, _, next, s, s', p, h => by
    cases h
    rfl
  | .flush stat f, hfunc, next, s, s', p, h => by
    rw [Derivation.isFunc] at hfunc
    cases h with
    | flush hstat => exact Runs.ptr_of_isFunc hfunc hstat
  | .expression _ _, hfunc, _, _, _, _, _ | .ret _, hfunc, _, _, _, _, _
  | .block _, hfunc, _, _, _, _, _ | .ifThen _ _, hfunc, _, _, _, _, _
  | .ifElse _ _ _, hfunc, _, _, _, _, _ | .ifElif _ _ _, hfunc, _, _, _, _, _
  | .switch _ _ _, hfunc, _, _, _, _, _ | .while _ _, hfunc, _, _, _, _, _ => by
    rw [Derivation.isFunc] at hfunc
    exact Bool.noConfusion hfunc

/-- What runs has been built. -/
lemma Runs.built {symbol : Nonterminal} {d : Derivation symbol} {next : Option Token}
    {s s' : ParserState} {p : Ptr} (h : Runs d next s p s') : d.Built := by
  induction h with
  | scope _ _ ih => exact ih
  | empty | expression | ret => trivial
  | link _ _ hstat ih₁ ih₂ =>
    refine ⟨ih₁, ih₂, Bool.eq_false_iff.mpr fun hfunc => ?_⟩
    cases Runs.ptr_of_isFunc hfunc hstat
  | block _ ih | flush _ ih => exact ih
  | ifThen _ _ ih | elifThen _ _ ih | «while» _ _ ih => exact ih
  | ifElse _ _ _ ih₁ ih₂ | elifElse _ _ _ ih₁ ih₂ | ifElif _ _ _ ih₁ ih₂ | elifElif _ _ _ ih₁ ih₂ =>
    exact ⟨ih₁, ih₂⟩
  | switch _ _ ih => exact ih
  | func _ hreduce _ _ ih => exact ⟨FuncArgList.proper_of_reduce hreduce, ih⟩
  | firstChoice _ _ _ ih => exact ih
  | nextChoice _ _ _ _ ih₁ ih₂ => exact ⟨ih₁, ih₂⟩

lemma Points.append {nodes : List AstNode} {kind : AstNode → Bool} {p : Ptr}
    (h : Points nodes kind p) (l : List AstNode) : Points (nodes ++ l) kind p := by
  obtain ⟨i, node, hi, hnode, hkind⟩ := h
  refine ⟨i, node, hi, ?_, hkind⟩
  rw [List.getElem?_append_left (List.getElem?_eq_some_iff.mp hnode).1, hnode]

lemma PointsOrNull.append {nodes : List AstNode} {kind : AstNode → Bool} {p : Ptr}
    (h : PointsOrNull nodes kind p) (l : List AstNode) : PointsOrNull (nodes ++ l) kind p :=
  h.imp_right fun h => h.append l

/-- More nodes do no harm. -/
lemma AstNode.Formed.append {nodes : List AstNode} {node : AstNode} (h : node.Formed nodes)
    (l : List AstNode) : node.Formed (nodes ++ l) := by
  cases node with
  | ident | literal | declVar => trivial
  | unaryOp | group | scope | statExpr | statRet => exact Points.append h l
  | binaryOp | statSwitch | statWhile | declFunc => exact ⟨h.1.append l, h.2.append l⟩
  | ternaryOp => exact ⟨h.1.append l, h.2.1.append l, h.2.2.append l⟩
  | statIf | statSwitchChoice => exact ⟨h.1.append l, h.2.1.append l, h.2.2.append l⟩
  | funcArgList =>
    obtain ⟨elements, hlist, hpairwise⟩ := h
    exact ⟨elements, hlist.extend l, hpairwise⟩
  | statList =>
    obtain ⟨elements, hlist, hpairwise⟩ := h
    exact ⟨elements, hlist.extend l, hpairwise⟩

/-- A run makes formed nodes if and only if the statement is formed. -/
lemma Derivation.run_formed_iff {stat : Derivation .statement} {next : Option Token}
    {s s' : ParserState} {p : Ptr} (hrun : stat.run next s = some (p, s')) (hd : stat.WithoutElif) :
    s'.nodes = s.nodes ++ stat.nodes s.nodes.length none ∧
      ((∀ node ∈ stat.nodes s.nodes.length none, node.Formed s'.nodes) ↔ stat.Formed) := by
  have hruns := Derivation.runs_of_run hrun
  have hnodes : s'.nodes = s.nodes ++ stat.nodes s.nodes.length none := (hruns.laid hd).nodes
  refine ⟨hnodes, ?_⟩
  have hlies : LiesAt s'.nodes s.nodes.length (stat.nodes s.nodes.length none) := by
    rw [hnodes]
    exact liesAt_length _ _
  exact ((Derivation.formation hd hruns.built s'.nodes s.nodes.length) none
    (fun _ hi => by cases hi) hlies).trans (and_iff_left fun _ => rfl)

/-- All nodes in the memory of a state are formed. -/
def ParserState.Formed (s : ParserState) : Prop := ∀ node ∈ s.nodes, node.Formed s.nodes

/-- The first statement runs, and the others behind it. -/
lemma runProgram_cons {stat : Derivation .statement} {program : List (Derivation .statement)}
    {s : ParserState} {states : List ParserState}
    (h : runProgram (stat :: program) s = some states) :
    ∃ p s₁ rest, stat.run (firstToken (programYield program) none) s = some (p, s₁) ∧
      runProgram program (s₁.peeked (firstToken (programYield program) none)) = some rest ∧
      states = s₁ :: rest := by
  obtain ⟨⟨p, s₁⟩, hrun, h⟩ := Option.bind_eq_some_iff.mp h
  change (runProgram program (s₁.peeked _)).bind (fun rest => some (s₁ :: rest)) = _ at h
  obtain ⟨rest, hrest, hstates⟩ := Option.bind_eq_some_iff.mp h
  exact ⟨p, s₁, rest, hrun, hrest, (Option.some.inj hstates).symm⟩

lemma runProgram_formed_iff {program : List (Derivation .statement)}
    (hd : ∀ stat ∈ program, stat.WithoutElif) {s : ParserState} (hs : s.Formed)
    {states : List ParserState} (hrun : runProgram program s = some states) :
    (∀ s' ∈ states, s'.Formed) ↔ ∀ stat ∈ program, stat.Formed := by
  induction program generalizing s states with
  | nil =>
    cases hrun
    exact iff_of_true (fun _ h => by cases h) (fun _ h => by cases h)
  | cons stat program ih =>
    rw [List.forall_mem_cons] at hd
    obtain ⟨p, s₁, rest, hstat, hrest, rfl⟩ := runProgram_cons hrun
    obtain ⟨hnodes, hiff⟩ := Derivation.run_formed_iff hstat hd.1
    have hs₁ : s₁.Formed ↔ stat.Formed := by
      rw [← hiff, ParserState.Formed, hnodes, List.forall_mem_append]
      exact and_iff_right fun node hnode => (hs node hnode).append _
    rw [List.forall_mem_cons, List.forall_mem_cons, hs₁]
    refine and_congr_right fun hformed => ih hd.2 ?_ hrest
    show ∀ node ∈ s₁.nodes, node.Formed s₁.nodes
    exact hs₁.mpr hformed

/-- In every run of a program the nodes in memory are formed after each statement if and only if
each statement is formed: exactly a declaration as an expression and a block as a statement of a
list break the tree. -/
theorem ast_well_formed_iff {program : List (Derivation .statement)}
    (hd : ∀ stat ∈ program, stat.WithoutElif) {states : List ParserState}
    (hrun : runProgram program parserInit = some states) :
    (∀ s ∈ states, s.Formed) ↔ ∀ stat ∈ program, stat.Formed :=
  runProgram_formed_iff hd (fun _ h => by cases h) hrun

theorem ast_well_formed_iff_funcAndIf : ∃ states, runProgram funcAndIf parserInit = some states ∧
    ((∀ s ∈ states, s.Formed) ↔ ∀ stat ∈ funcAndIf, stat.Formed) := by
  obtain ⟨states, hrun⟩ := Option.isSome_iff_exists.mp
    (show (runProgram funcAndIf parserInit).isSome = true by decide +kernel)
  refine ⟨states, hrun, ast_well_formed_iff ?_ hrun⟩
  simp [funcAndIf, Derivation.WithoutElif, scopeX, lineX, blankScope]

end PhantomShell
