import PhantomShell.Compiler.Ast
import PhantomShell.Parser.Layout

/-!
# The trees that the compiler is called with

`compiler_compile` gets a pointer to a node. What `compile_statement`, `compile_scope` and
`compile_func` find behind it is read off the nodes (`ReadsStat`, `ReadsScope`, `ReadsTop`), and
the derivation says which tree that is to be. A tree that was laid out is read back
(`Derivation.reads`), and a program that balances hands over its statements in order
(`front_end_hands_over`).
-/

namespace PhantomShell

/-! ## Reading -/

/-- An expression behind a pointer. A ternary operator is not looked into. -/
inductive ReadsExpr (nodes : List AstNode) : Ptr → Expr → Prop
  | ident {i : ℕ} {value : CStr} (h : nodes[i]? = some (.ident value)) :
      ReadsExpr nodes (some i) (.ident .unknwn value)
  | literal {i : ℕ} {value : ConstantExpression} (h : nodes[i]? = some (.literal value)) :
      ReadsExpr nodes (some i) value.node
  | unaryOp {i : ℕ} {operator : Operator} {p : Ptr} {operand : Expr}
      (h : nodes[i]? = some (.unaryOp operator p)) (hoperand : ReadsExpr nodes p operand) :
      ReadsExpr nodes (some i) (.unaryOp .unknwn operator operand)
  | binaryOp {i : ℕ} {operator : Operator} {p₁ p₂ : Ptr} {left right : Expr}
      (h : nodes[i]? = some (.binaryOp operator p₁ p₂)) (hleft : ReadsExpr nodes p₁ left)
      (hright : ReadsExpr nodes p₂ right) :
      ReadsExpr nodes (some i) (.binaryOp .unknwn operator left right)
  | ternaryOp {i : ℕ} {p₁ p₂ p₃ : Ptr} (h : nodes[i]? = some (.ternaryOp p₁ p₂ p₃)) :
      ReadsExpr nodes (some i) (.other .unknwn)
  | group {i : ℕ} {p : Ptr} {expr : Expr} (h : nodes[i]? = some (.group p))
      (hexpr : ReadsExpr nodes p expr) : ReadsExpr nodes (some i) (.group .unknwn expr)

/-- `next` of an `ast_node_stat_t` that `compile_statement` does not know. -/
def AstNode.otherNext : AstNode → Option Ptr
  | .scope stats => some stats
  | .statRet next _ => some next
  | .statSwitch next _ _ => some next
  | _ => none

mutual

/-- The statements from a pointer on. -/
inductive ReadsStat (nodes : List AstNode) : Ptr → Stat → Prop
  | nil : ReadsStat nodes none .nil
  | expr {i : ℕ} {next c : Ptr} {expr : Expr} {rest : Stat}
      (h : nodes[i]? = some (.statExpr next c)) (hexpr : ReadsExpr nodes c expr)
      (hnext : ReadsStat nodes next rest) : ReadsStat nodes (some i) (.expr expr rest)
  | ifElse {i : ℕ} {next c t f : Ptr} {expr : Expr} {trueScope falseScope rest : Stat}
      (h : nodes[i]? = some (.statIf next c t f)) (hexpr : ReadsExpr nodes c expr)
      (htrue : ReadsScope nodes t trueScope) (hfalse : ReadsScope nodes f falseScope)
      (hnext : ReadsStat nodes next rest) :
      ReadsStat nodes (some i) (.ifElse expr trueScope falseScope rest)
  | while {i : ℕ} {next c b : Ptr} {expr : Expr} {loopScope rest : Stat}
      (h : nodes[i]? = some (.statWhile next c b)) (hexpr : ReadsExpr nodes c expr)
      (hloop : ReadsScope nodes b loopScope) (hnext : ReadsStat nodes next rest) :
      ReadsStat nodes (some i) (.while expr loopScope rest)
  | other {i : ℕ} {node : AstNode} {next : Ptr} {rest : Stat} (h : nodes[i]? = some node)
      (hnode : node.otherNext = some next) (hnext : ReadsStat nodes next rest) :
      ReadsStat nodes (some i) (.other rest)

/-- The statements of the scope behind a pointer. -/
inductive ReadsScope (nodes : List AstNode) : Ptr → Stat → Prop
  | nil : ReadsScope nodes none .nil
  | scope {i j size : ℕ} {first last : Ptr} {stat : Stat} (h : nodes[i]? = some (.scope (some j)))
      (hlist : nodes[j]? = some (.statList size first last)) (hstat : ReadsStat nodes first stat) :
      ReadsScope nodes (some i) stat

end

/-- The parameters from a pointer on, each with its name and its type. -/
inductive ReadsDecls (nodes : List AstNode) : Ptr → List (CStr × CStr) → Prop
  | nil : ReadsDecls nodes none []
  | cons {i : ℕ} {varType varName : CStr} {next : Ptr} {rest : List (CStr × CStr)}
      (h : nodes[i]? = some (.declVar varType varName next)) (hnext : ReadsDecls nodes next rest) :
      ReadsDecls nodes (some i) ((varName, varType) :: rest)

/-- What `compiler_compile` is called with. -/
inductive ReadsTop (nodes : List AstNode) : ℕ → TopLevel → Prop
  | stat {i : ℕ} {stat : Stat} (h : ReadsStat nodes (some i) stat) : ReadsTop nodes i (.stat stat)
  | func {i j : ℕ} {name : CStr} {retType : Option CStr} {p first last : Ptr}
      {args : List (CStr × CStr)} {body : Stat}
      (h : nodes[i]? = some (.declFunc name retType (some j) p))
      (hlist : nodes[j]? = some (.funcArgList first last)) (hargs : ReadsDecls nodes first args)
      (hbody : ReadsScope nodes p body) : ReadsTop nodes i (.func ⟨name, args, retType, body⟩)

/-! ## The trees of a derivation -/

/-- The tree of an expression. -/
def Expression.expr : Expression → Expr
  | .operand a => a.node
  | .unary p e => .unaryOp .unknwn p.operator e.expr
  | .binary b l r => .binaryOp .unknwn b.operator l.expr r.expr
  | .call f e => .binaryOp .unknwn .functionCall f.expr (.group .unknwn e.expr)
  | .group e => .group .unknwn e.expr
  | .ternary _ _ _ | .varDeclaration _ _ => .other .unknwn

/-- No declaration of a variable is in the expression, which `NODE_UPCAST_EXPR` makes a null pointer. -/
def Expression.Declares : Expression → Prop
  | .operand _ | .ternary _ _ _ => False
  | .unary _ e => e.Declares
  | .binary _ l r => l.Declares ∨ r.Declares
  | .call f e => f.Declares ∨ e.Declares
  | .group e => e.Declares
  | .varDeclaration _ _ => True

/-- The statements of a derivation in front of others. -/
def Derivation.stat : {symbol : Nonterminal} → Derivation symbol → Stat → Stat
  | _, .scope _ stats, _ => stats.stat .nil
  | _, .empty, rest => rest
  | _, .link stats stat, rest => stats.stat (stat.stat rest)
  | _, .expression e _, rest => .expr e.expr rest
  | _, .block _, rest | _, .switch _ _ _, rest | _, .ret _, rest => .other rest
  | _, .ifThen e trueScope, rest => .ifElse e.expr (trueScope.stat .nil) .nil rest
  | _, .ifElse e trueScope falseScope, rest =>
    .ifElse e.expr (trueScope.stat .nil) (falseScope.stat .nil) rest
  | _, .ifElif e trueScope elifs, rest =>
    .ifElse e.expr (trueScope.stat .nil) (elifs.stat .nil) rest
  | _, .while e loopScope, rest => .while e.expr (loopScope.stat .nil) rest
  | _, .flush stat _, rest => stat.stat rest
  | _, .elifThen e trueScope, _ => .notScope (.ifElse e.expr (trueScope.stat .nil) .nil .nil)
  | _, .elifElse e trueScope falseScope, _ =>
    .notScope (.ifElse e.expr (trueScope.stat .nil) (falseScope.stat .nil) .nil)
  | _, .elifElif e trueScope elifs, _ =>
    .notScope (.ifElse e.expr (trueScope.stat .nil) (elifs.stat .nil) .nil)
  | _, .func _ _ _ _, _ | _, .firstChoice _ _, _ | _, .nextChoice _ _ _, _ => .nil

/-- The parameters of a list, in source order. -/
def FuncArgList.params : FuncArgList → List (CStr × CStr)
  | .empty => []
  | .first varType varName => [(varName, varType)]
  | .next list varType varName => list.params ++ [(varName, varType)]

/-- What the compiler is to be called with for a top level statement. -/
def Derivation.topLevel : Derivation .statement → List TopLevel
  | .expression e _ => [.stat (.expr e.expr .nil)]
  | .ifThen e trueScope => [.stat (.ifElse e.expr (trueScope.stat .nil) .nil .nil)]
  | .ifElse e trueScope falseScope =>
    [.stat (.ifElse e.expr (trueScope.stat .nil) (falseScope.stat .nil) .nil)]
  | .ifElif e trueScope elifs =>
    [.stat (.ifElse e.expr (trueScope.stat .nil) (elifs.stat .nil) .nil)]
  | .while e loopScope => [.stat (.while e.expr (loopScope.stat .nil) .nil)]
  | .func name args retType body => [.func ⟨name, args.params, retType, body.stat .nil⟩]
  | .flush stat _ => stat.topLevel
  | .block _ | .switch _ _ _ | .ret _ => []

/-! ## Nodes at their places -/

/-- These nodes are in memory from the place `n` on. -/
def LiesAt (nodes : List AstNode) (n : ℕ) (l : List AstNode) : Prop :=
  ∀ i node, l[i]? = some node → nodes[n + i]? = some node

lemma liesAt_cons {nodes l : List AstNode} {n : ℕ} {node : AstNode} :
    LiesAt nodes n (node :: l) ↔ nodes[n]? = some node ∧ LiesAt nodes (n + 1) l := by
  constructor
  · intro h
    refine ⟨h 0 node rfl, fun i node hi => ?_⟩
    rw [show n + 1 + i = n + (i + 1) from by omega]
    exact h (i + 1) node hi
  · intro h i node hi
    cases i with
    | zero =>
      obtain rfl := Option.some.inj hi
      exact h.1
    | succ i =>
      rw [show n + (i + 1) = n + 1 + i from by omega]
      exact h.2 i node hi

lemma liesAt_append {nodes l r : List AstNode} {n : ℕ} :
    LiesAt nodes n (l ++ r) ↔ LiesAt nodes n l ∧ LiesAt nodes (n + l.length) r := by
  induction l generalizing n with
  | nil => exact ⟨fun h => ⟨fun i node hi => (by cases hi), h⟩, fun h => h.2⟩
  | cons node l ih =>
    rw [List.cons_append, liesAt_cons, liesAt_cons, ih, List.length_cons, and_assoc,
      show n + 1 + l.length = n + (l.length + 1) from by omega]

lemma liesAt_singleton {nodes : List AstNode} {n : ℕ} {node : AstNode} :
    LiesAt nodes n [node] ↔ nodes[n]? = some node := by
  rw [liesAt_cons]
  exact and_iff_left fun i node hi => by cases hi

lemma liesAt_length (nodes l : List AstNode) : LiesAt (nodes ++ l) nodes.length l := by
  intro i node hi
  rw [List.getElem?_append_right (by omega), Nat.add_sub_cancel_left, hi]

/-! ## Expressions -/

lemma Expression.cast_eq_some (e : Expression) (h : ¬ e.Declares) (i : ℕ) : e.cast i = some i := by
  cases e with
  | varDeclaration => exact absurd trivial h
  | _ => rfl

/-- An expression is read back from its nodes. -/
lemma Expression.reads {e : Expression} (he : ¬ e.Declares) {nodes : List AstNode} {n : ℕ}
    (h : LiesAt nodes n (e.nodes n)) : ReadsExpr nodes (some (n + e.own)) e.expr := by
  induction e generalizing n with
  | operand a =>
    cases a with
    | identifier value => exact .ident (liesAt_singleton.mp h)
    | constant c => exact .literal (liesAt_singleton.mp h)
  | unary p e ih =>
    rw [Expression.nodes, liesAt_append, liesAt_singleton, e.length_nodes,
      e.cast_eq_some he] at h
    exact .unaryOp h.2 (ih he h.1)
  | binary b l r ihl ihr =>
    obtain ⟨hl, hr⟩ := not_or.mp he
    rw [Expression.nodes, liesAt_append, liesAt_append, liesAt_singleton, l.length_nodes, r.length_nodes,
      l.cast_eq_some hl, r.cast_eq_some hr] at h
    refine .binaryOp ?_ (ihl hl h.1) (ihr hr h.2.1)
    show nodes[n + (l.own + 1 + (r.own + 1))]? = _
    rw [← Nat.add_assoc]
    exact h.2.2
  | call f e ihf ihe =>
    obtain ⟨hf, he⟩ := not_or.mp he
    rw [Expression.nodes, liesAt_append, liesAt_append, liesAt_cons, liesAt_singleton, f.length_nodes,
      e.length_nodes, f.cast_eq_some hf, e.cast_eq_some he] at h
    refine .binaryOp ?_ (ihf hf h.1) (.group h.2.2.1 (ihe he h.2.1))
    show nodes[n + (f.own + 1 + (e.own + 1 + 1))]? = _
    rw [show n + (f.own + 1 + (e.own + 1 + 1)) = n + (f.own + 1) + (e.own + 1) + 1 from by omega]
    exact h.2.2.2
  | group e ih =>
    rw [Expression.nodes, liesAt_append, liesAt_singleton, e.length_nodes,
      e.cast_eq_some he] at h
    exact .group h.2 (ih he h.1)
  | ternary e₁ e₂ e₃ =>
    rw [Expression.nodes, liesAt_append, liesAt_append, liesAt_append, liesAt_singleton,
      e₁.length_nodes, e₂.length_nodes, e₃.length_nodes] at h
    apply ReadsExpr.ternaryOp
    show nodes[n + (e₁.own + 1 + (e₂.own + 1 + (e₃.own + 1)))]? = _
    rw [show n + (e₁.own + 1 + (e₂.own + 1 + (e₃.own + 1))) =
      n + (e₁.own + 1) + (e₂.own + 1) + (e₃.own + 1) from by omega]
    exact h.2.2.2
  | varDeclaration => exact absurd trivial he

/-! ## Statements -/

/-- What the compiler looks into has no declarations as expressions, and no chains of `elif`. -/
def Derivation.Readable : {symbol : Nonterminal} → Derivation symbol → Prop
  | _, .scope _ stats => stats.Readable
  | _, .empty | _, .block _ | _, .switch _ _ _ | _, .ret _ => True
  | _, .link stats stat => stats.Readable ∧ stat.Readable
  | _, .expression e _ => ¬ e.Declares
  | _, .ifThen e trueScope => ¬ e.Declares ∧ trueScope.Readable
  | _, .ifElse e trueScope falseScope =>
    ¬ e.Declares ∧ trueScope.Readable ∧ falseScope.Readable
  | _, .while e loopScope => ¬ e.Declares ∧ loopScope.Readable
  | _, .flush stat _ => stat.Readable
  | _, .func _ _ _ _ | _, .firstChoice _ _ | _, .nextChoice _ _ _ => False
  | _, .ifElif _ _ _ | _, .elifThen _ _ | _, .elifElif _ _ _ | _, .elifElse _ _ _ => False

/-- How the statements of a derivation are read: a list up to the pointer behind it. -/
def Derivation.Reads : {symbol : Nonterminal} → Derivation symbol → List AstNode → ℕ → Prop
  | .scope, body, nodes, n =>
    LiesAt nodes n (body.nodes n none) → ReadsScope nodes (some (body.last n)) (body.stat .nil)
  | .statement, stat, nodes, n =>
    ∀ {next rest}, ReadsStat nodes next rest → LiesAt nodes n (stat.nodes n (some next)) →
      ReadsStat nodes (some (stat.last n)) (stat.stat rest)
  | .statements, stats, nodes, n => ∀ {next rest}, ReadsStat nodes next rest →
      LiesAt nodes (n + 1) (stats.nodes n (some next)) →
      ReadsStat nodes ((stats.firstStat n).or next) (stats.stat rest)
  | _, _, _, _ => True

lemma Derivation.size_pos {symbol : Nonterminal} (d : Derivation symbol) : 0 < d.size := by
  induction d with
  | link stats stat ih₁ ih₂ => exact Nat.add_pos_left ih₁ _
  | block body ih => exact ih
  | flush stat f ih => exact ih
  | _ => exact Nat.succ_pos _

/-- The own node is behind all others. -/
lemma Derivation.getElem?_last {symbol : Nonterminal} (d : Derivation symbol) {nodes : List AstNode}
    {n k : ℕ} {node : AstNode} (h : nodes[k]? = some node) (hk : k + 1 = n + d.size) :
    nodes[d.last n]? = some node := by
  have hpos := d.size_pos
  rw [Derivation.last, show n + (d.size - 1) = k from by omega, h]

lemma Derivation.length_scope (body : Derivation .scope) (n : ℕ) (q : Option Ptr) :
    (body.nodes n q).length = body.size := body.length_nodes n q

/-- Statements are read back from their nodes. -/
lemma Derivation.reads {symbol : Nonterminal} {d : Derivation symbol} (hd : d.Readable)
    (nodes : List AstNode) (n : ℕ) : d.Reads nodes n := by
  induction d generalizing n with
  | scope f stats ih =>
    intro h
    have hlength := stats.length_nodes n (some none)
    rw [Derivation.nodes, liesAt_cons, liesAt_append, liesAt_singleton] at h
    rw [Derivation.extra] at hlength
    have hstats := ih hd n .nil h.2.1
    rw [Option.or_none] at hstats
    refine .scope (Derivation.getElem?_last _ h.2.2 ?_) h.1 hstats
    rw [Derivation.size]
    omega
  | empty =>
    intro next rest hrest h
    show ReadsStat nodes (Option.or (Derivation.firstStat .empty n) next) rest
    rw [Derivation.firstStat, Option.none_or]
    exact hrest
  | link stats stat ih₁ ih₂ =>
    intro next rest hrest h
    have hlength := stats.length_nodes n (some (some (stat.last (n + stats.size))))
    rw [Derivation.extra] at hlength
    rw [Derivation.nodes, liesAt_append,
      show n + 1 + (stats.nodes n _).length = n + stats.size from by omega] at h
    -- the rest of the list starts with this statement
    have hstats := ih₁ hd.1 n (ih₂ hd.2 (n + stats.size) hrest h.2) h.1
    rw [Derivation.firstStat, Option.or_assoc]
    exact hstats
  | expression e f =>
    intro next rest hrest h
    rw [Derivation.nodes, liesAt_append, liesAt_singleton, e.length_nodes, e.cast_eq_some hd] at h
    exact .expr h.2 (e.reads hd h.1) hrest
  | block body =>
    intro next rest hrest h
    cases body with
    | scope f stats =>
      have hlength := stats.length_nodes n (some none)
      rw [Derivation.nodes, Derivation.nodes, liesAt_cons, liesAt_append, liesAt_singleton] at h
      rw [Derivation.extra] at hlength
      refine .other (Derivation.getElem?_last _ h.2.2 ?_) rfl hrest
      rw [Derivation.size, Derivation.size]
      omega
  | ifThen e trueScope ih =>
    intro next rest hrest h
    rw [Derivation.nodes, liesAt_append, liesAt_append, liesAt_singleton, e.length_nodes,
      trueScope.length_scope, e.cast_eq_some hd.1] at h
    refine .ifElse (Derivation.getElem?_last _ h.2.2 ?_) (e.reads hd.1 h.1) (ih hd.2 _ h.2.1) .nil hrest
    rw [Derivation.size, Expression.size]
    omega
  | ifElse e trueScope falseScope ih₁ ih₂ =>
    intro next rest hrest h
    rw [Derivation.nodes, liesAt_append, liesAt_append, liesAt_append, liesAt_singleton, e.length_nodes,
      trueScope.length_scope, falseScope.length_scope, e.cast_eq_some hd.1] at h
    refine .ifElse (Derivation.getElem?_last _ h.2.2.2 ?_) (e.reads hd.1 h.1) (ih₁ hd.2.1 _ h.2.1)
      (ih₂ hd.2.2 _ h.2.2.1) hrest
    rw [Derivation.size, Expression.size]
    omega
  | «while» e loopScope ih =>
    intro next rest hrest h
    rw [Derivation.nodes, liesAt_append, liesAt_append, liesAt_singleton, e.length_nodes,
      loopScope.length_scope, e.cast_eq_some hd.1] at h
    refine .while (Derivation.getElem?_last _ h.2.2 ?_) (e.reads hd.1 h.1) (ih hd.2 _ h.2.1) hrest
    rw [Derivation.size, Expression.size]
    omega
  | ret e =>
    intro next rest hrest h
    rw [Derivation.nodes, liesAt_append, liesAt_singleton, e.length_nodes] at h
    exact .other h.2 rfl hrest
  | switch e f choices =>
    intro next rest hrest h
    have hlength := choices.length_nodes (n + (e.own + 1)) none
    rw [Derivation.nodes, liesAt_append, liesAt_append, liesAt_singleton, e.length_nodes] at h
    refine .other (Derivation.getElem?_last _ h.2.2 ?_) rfl hrest
    rw [Derivation.extra] at hlength
    rw [Derivation.size, Expression.size]
    omega
  | flush stat f ih => exact ih hd n
  | func | firstChoice | nextChoice | ifElif | elifThen | elifElif | elifElse => exact hd.elim

/-! ## There is one tree -/

lemma ReadsExpr.unique {nodes : List AstNode} {p : Ptr} {e e' : Expr} (h : ReadsExpr nodes p e)
    (h' : ReadsExpr nodes p e') : e = e' := by
  induction h generalizing e' with
  | ident h | literal h | ternaryOp h =>
    cases h' <;> cases h.symm.trans ‹_›
    rfl
  | unaryOp h _ ih =>
    cases h' with
    | unaryOp h' hoperand =>
      cases h.symm.trans h'
      rw [ih hoperand]
    | _ => cases h.symm.trans ‹_›
  | group h _ ih =>
    cases h' with
    | group h' hexpr =>
      cases h.symm.trans h'
      rw [ih hexpr]
    | _ => cases h.symm.trans ‹_›
  | binaryOp h _ _ ihl ihr =>
    cases h' with
    | binaryOp h' hleft hright =>
      cases h.symm.trans h'
      rw [ihl hleft, ihr hright]
    | _ => cases h.symm.trans ‹_›

mutual

theorem ReadsStat.unique {nodes : List AstNode} {p : Ptr} {stat stat' : Stat} :
    ReadsStat nodes p stat → ReadsStat nodes p stat' → stat = stat'
  | .nil, h' => by
    cases h'
    rfl
  | .expr h hexpr hnext, h' => by
    cases h' with
    | expr h' hexpr' hnext' =>
      cases h.symm.trans h'
      rw [hexpr.unique hexpr', ReadsStat.unique hnext hnext']
    | ifElse h' | «while» h' => cases h.symm.trans h'
    | other h' hnode =>
      cases h.symm.trans h'
      cases hnode
  | .ifElse h hexpr htrue hfalse hnext, h' => by
    cases h' with
    | ifElse h' hexpr' htrue' hfalse' hnext' =>
      cases h.symm.trans h'
      rw [hexpr.unique hexpr', ReadsScope.unique htrue htrue', ReadsScope.unique hfalse hfalse',
        ReadsStat.unique hnext hnext']
    | expr h' | «while» h' => cases h.symm.trans h'
    | other h' hnode =>
      cases h.symm.trans h'
      cases hnode
  | .while h hexpr hloop hnext, h' => by
    cases h' with
    | «while» h' hexpr' hloop' hnext' =>
      cases h.symm.trans h'
      rw [hexpr.unique hexpr', ReadsScope.unique hloop hloop', ReadsStat.unique hnext hnext']
    | expr h' | ifElse h' => cases h.symm.trans h'
    | other h' hnode =>
      cases h.symm.trans h'
      cases hnode
  | .other h hnode hnext, h' => by
    cases h' with
    | other h' hnode' hnext' =>
      cases h.symm.trans h'
      cases hnode.symm.trans hnode'
      rw [ReadsStat.unique hnext hnext']
    | expr h' | ifElse h' | «while» h' =>
      cases h.symm.trans h'
      cases hnode

theorem ReadsScope.unique {nodes : List AstNode} {p : Ptr} {stat stat' : Stat} :
    ReadsScope nodes p stat → ReadsScope nodes p stat' → stat = stat'
  | .nil, h' => by
    cases h'
    rfl
  | .scope h hlist hstat, h' => by
    cases h' with
    | scope h' hlist' hstat' =>
      cases h.symm.trans h'
      cases hlist.symm.trans hlist'
      exact ReadsStat.unique hstat hstat'

end

lemma ReadsDecls.unique {nodes : List AstNode} {p : Ptr} {args args' : List (CStr × CStr)}
    (h : ReadsDecls nodes p args) (h' : ReadsDecls nodes p args') : args = args' := by
  induction h generalizing args' with
  | nil =>
    cases h'
    rfl
  | cons h _ ih =>
    cases h' with
    | cons h' hnext =>
      cases h.symm.trans h'
      rw [ih hnext]

lemma ReadsTop.unique {nodes : List AstNode} {i : ℕ} {top top' : TopLevel} (h : ReadsTop nodes i top)
    (h' : ReadsTop nodes i top') : top = top' := by
  cases h with
  | stat h =>
    cases h' with
    | stat h' => rw [h.unique h']
    | func h' =>
      cases h with
      | other h hnode =>
        cases h.symm.trans h'
        cases hnode
      | _ => cases h'.symm.trans ‹_›
  | func h hlist hargs hbody =>
    cases h' with
    | stat h' =>
      cases h' with
      | other h' hnode =>
        cases h.symm.trans h'
        cases hnode
      | _ => cases h.symm.trans ‹_›
    | func h' hlist' hargs' hbody' =>
      cases h.symm.trans h'
      cases hlist.symm.trans hlist'
      rw [hargs.unique hargs', hbody.unique hbody']

/-! ## Parameters -/

/-- The parameters up to the pointer behind them. -/
lemma FuncArgList.readsDecls {args : FuncArgList} (hargs : args.Proper) (hne : args ≠ .empty)
    {nodes : List AstNode} {n : ℕ} {behind last : Ptr} {rest : List (CStr × CStr)}
    (hrest : ReadsDecls nodes behind rest) (h : LiesAt nodes n (args.nodes n behind last)) :
    ReadsDecls nodes (args.firstDecl n) (args.params ++ rest) := by
  induction args generalizing behind rest with
  | empty => exact absurd rfl hne
  | first varType varName =>
    rw [FuncArgList.nodes, liesAt_cons] at h
    exact .cons h.1 hrest
  | next list varType varName ih =>
    rw [FuncArgList.nodes, liesAt_append, liesAt_singleton, list.length_nodes] at h
    rw [FuncArgList.params, List.append_assoc]
    exact ih hargs.2 hargs.1 (.cons h.2 hrest) h.1

/-- A list of parameters is read back from its nodes. -/
lemma FuncArgList.reads {args : FuncArgList} (hargs : args.Proper) {nodes : List AstNode} {n : ℕ}
    (h : LiesAt nodes n (args.made n)) :
    nodes[args.own n]? = some (.funcArgList (args.firstDecl n) (args.lastDecl n)) ∧
      ReadsDecls nodes (args.firstDecl n) args.params := by
  obtain ⟨a, b, hown, hnodes⟩ := args.nodes_own n none
  constructor
  · rw [FuncArgList.made, hnodes, liesAt_append, liesAt_cons] at h
    rw [hown]
    exact h.2.1
  · by_cases hne : args = .empty
    · rw [hne]
      exact .nil
    · rw [← List.append_nil args.params]
      exact FuncArgList.readsDecls hargs hne .nil h

/-! ## Top level statements -/

/-- What is compiled of a top level statement can be read. -/
def Derivation.Clean : Derivation .statement → Prop
  | .expression e _ => ¬ e.Declares
  | .ifThen e trueScope => ¬ e.Declares ∧ trueScope.Readable
  | .ifElse e trueScope falseScope => ¬ e.Declares ∧ trueScope.Readable ∧ falseScope.Readable
  | .while e loopScope => ¬ e.Declares ∧ loopScope.Readable
  | .func _ _ _ body => body.Readable
  | .flush stat _ => stat.Clean
  | .ifElif _ _ _ | .block _ | .switch _ _ _ | .ret _ => True

/-- What nests has no `elif`. -/
lemma Derivation.Nests.withoutElif {symbol : Nonterminal} {d : Derivation symbol} {inside : Bool}
    (h : d.Nests inside) : d.WithoutElif := by
  induction d generalizing inside with
  | scope f stats ih => exact ih h
  | empty | expression | ret => trivial
  | link stats stat ih₁ ih₂ => exact ⟨ih₁ h.1, ih₂ h.2⟩
  | block body ih => exact ih h
  | ifThen e trueScope ih => exact ih h.2
  | ifElse e trueScope falseScope ih₁ ih₂ => exact ⟨ih₁ h.2.1, ih₂ h.2.2⟩
  | «while» e loopScope ih => exact ih h.2
  | flush stat f ih => exact ih h
  | ifElif | switch | func | firstChoice | nextChoice | elifThen | elifElif | elifElse => exact h.elim

lemma Derivation.Balances.withoutElif : ∀ {stat : Derivation .statement} {next : Option Token},
    stat.Balances next → stat.WithoutElif
  | .expression _ _, _, _ | .ret _, _, _ => trivial
  | .block _, _, h => by
    rw [Derivation.Balances] at h
    exact h.withoutElif
  | .ifThen _ _, _, h => by
    rw [Derivation.Balances] at h
    exact h.1.withoutElif
  | .ifElse _ _ _, _, h => by
    rw [Derivation.Balances] at h
    exact ⟨h.1.withoutElif, h.2.withoutElif⟩
  | .ifElif _ _ _, _, h | .switch _ _ _, _, h => by
    rw [Derivation.Balances] at h
    exact h.elim
  | .while _ _, _, h => by
    rw [Derivation.Balances] at h
    exact h.withoutElif
  | .func _ _ _ _, _, h => by
    rw [Derivation.Balances] at h
    exact h.2.withoutElif
  | .flush stat _, _, h => by
    rw [Derivation.Balances] at h
    exact h.withoutElif

/-- A statement that is compiled alone. -/
lemma Derivation.reads_single {stat : Derivation .statement} (h : stat.Readable) {nodes : List AstNode}
    {n : ℕ} (hlies : LiesAt nodes n (stat.nodes n (some none))) :
    List.Forall₂ (ReadsTop nodes) [stat.last n] [.stat (stat.stat .nil)] :=
  .cons (.stat (Derivation.reads h nodes n .nil hlies)) .nil

/-- What is compiled of a statement is what is to be compiled. -/
lemma Derivation.reads_toCompile : ∀ {stat : Derivation .statement} {next : Option Token},
    stat.Balances next → stat.Clean → ∀ {nodes : List AstNode} {n : ℕ},
    LiesAt nodes n (stat.nodes n none) →
    List.Forall₂ (ReadsTop nodes) (stat.toCompile n) stat.topLevel
  | .expression e f, _, _, hclean, _, _, h => by
    rw [Derivation.Clean] at hclean
    rw [Derivation.toCompile, Derivation.topLevel]
    exact @Derivation.reads_single (.expression e f) hclean _ _ h
  | .ifThen e trueScope, _, _, hclean, _, _, h => by
    rw [Derivation.Clean] at hclean
    rw [Derivation.toCompile, Derivation.topLevel]
    exact @Derivation.reads_single (.ifThen e trueScope) hclean _ _ h
  | .ifElse e trueScope falseScope, _, _, hclean, _, _, h => by
    rw [Derivation.Clean] at hclean
    rw [Derivation.toCompile, Derivation.topLevel]
    exact @Derivation.reads_single (.ifElse e trueScope falseScope) hclean _ _ h
  | .while e loopScope, _, _, hclean, _, _, h => by
    rw [Derivation.Clean] at hclean
    rw [Derivation.toCompile, Derivation.topLevel]
    exact @Derivation.reads_single (.while e loopScope) hclean _ _ h
  | .ifElif _ _ _, _, hbal, _, _, _, _ => by
    rw [Derivation.Balances] at hbal
    exact hbal.elim
  | .block _, _, _, _, _, _, _ | .switch _ _ _, _, _, _, _, _, _ | .ret _, _, _, _, _, _, _ => by
    rw [Derivation.toCompile, Derivation.topLevel]
    exact .nil
  | .func name args retType body, next, hbal, hclean, nodes, n, h => by
    rw [Derivation.Balances] at hbal
    rw [Derivation.Clean] at hclean
    rw [Derivation.nodes, liesAt_append, liesAt_append, liesAt_singleton, FuncArgList.made,
      args.length_nodes, body.length_scope] at h
    obtain ⟨hlist, hargs⟩ := FuncArgList.reads hbal.1 h.1
    rw [Derivation.toCompile, Derivation.topLevel, ← Nat.add_assoc]
    exact .cons (.func h.2.2 hlist hargs (Derivation.reads hclean nodes _ h.2.1)) .nil
  | .flush stat f, next, hbal, hclean, nodes, n, h => by
    rw [Derivation.Balances] at hbal
    rw [Derivation.Clean] at hclean
    rw [Derivation.toCompile, Derivation.topLevel]
    exact Derivation.reads_toCompile hbal hclean h

/-! ## Programs -/

/-- What the compiler was called with, statement by statement: each tree is read off the nodes at the
time of the call. -/
inductive HandedOver : ParserState → List ParserState → List TopLevel → Prop
  | nil (s : ParserState) : HandedOver s [] []
  | cons {s s' : ParserState} {new : List ℕ} {states : List ParserState} {tops rest : List TopLevel}
      (hcompiled : s'.compiled = s.compiled ++ new) (htops : List.Forall₂ (ReadsTop s'.nodes) new tops)
      (hrest : HandedOver s' states rest) : HandedOver s (s' :: states) (tops ++ rest)

lemma HandedOver.unique {s : ParserState} {states : List ParserState} {tops tops' : List TopLevel}
    (h : HandedOver s states tops) (h' : HandedOver s states tops') : tops = tops' := by
  induction h generalizing tops' with
  | nil =>
    cases h'
    rfl
  | cons hcompiled htops _ ih =>
    cases h' with
    | cons hcompiled' htops' hrest' =>
      obtain rfl := List.append_cancel_left (hcompiled.symm.trans hcompiled')
      rw [ih hrest', List.right_unique_forall₂' (fun _ _ _ h h' => h.unique h') htops htops']

lemma HandedOver.of_peeked {s : ParserState} {next : Option Token} {states : List ParserState}
    {tops : List TopLevel} (h : HandedOver (s.peeked next) states tops) : HandedOver s states tops := by
  cases h with
  | nil => exact .nil s
  | cons hcompiled htops hrest => exact .cons hcompiled htops hrest

/-- Statement by statement. -/
lemma runProgram_hands_over {program : List (Derivation .statement)} (hbal : ProgramBalances program)
    (hclean : ∀ stat ∈ program, stat.Clean) {s : ParserState}
    (hs : s.At .outside (firstToken (programYield program) none)) :
    ∃ states, runProgram program s = some states ∧
      HandedOver s states (program.flatMap Derivation.topLevel) := by
  induction program generalizing s with
  | nil => exact ⟨[], rfl, .nil s⟩
  | cons stat program ih =>
    obtain ⟨hstat, hrest⟩ := hbal
    rw [programYield, List.flatMap_cons, firstToken_append] at hs
    obtain ⟨p, s₁, hrun, hat, hcompiled⟩ := Derivation.run_balances hstat hs
    have hlaid := (Derivation.runs_of_run hrun).laid hstat.withoutElif
    have hlies : LiesAt s₁.nodes s.nodes.length (stat.nodes s.nodes.length none) := by
      rw [hlaid.nodes]
      exact liesAt_length _ _
    obtain ⟨states, hstates, hover⟩ :=
      ih hrest (fun stat h => hclean stat (List.mem_cons_of_mem _ h)) hat.peeked
    refine ⟨s₁ :: states, ?_, ?_⟩
    · rw [runProgram]
      simp only [hrun, peek_eq]
      show (runProgram program (s₁.peeked _)).bind _ = _
      rw [hstates]
      rfl
    · rw [List.flatMap_cons]
      exact .cons hcompiled.compiled
        (Derivation.reads_toCompile hstat (hclean stat List.mem_cons_self) hlies) hover.of_peeked

/-- The front end is a translation to trees: whatever the program, the compiler is called with the
trees of its statements, in source order, and finds no others. -/
theorem front_end_hands_over {program : List (Derivation .statement)} (hbal : ProgramBalances program)
    (hclean : ∀ stat ∈ program, stat.Clean) :
    ∃ states, runProgram program parserInit = some states ∧
      ∀ tops, HandedOver parserInit states tops ↔ tops = program.flatMap Derivation.topLevel := by
  obtain ⟨states, hrun, hover⟩ := runProgram_hands_over hbal hclean
    (ParserState.at_of_ahead_eq_false (s := parserInit) _ rfl rfl)
  refine ⟨states, hrun, fun tops => ⟨fun h => h.unique hover, ?_⟩⟩
  rintro rfl
  exact hover

/-- `x` and a newline -/
def lineX : Derivation .statement := .expression conditionX .newline

/-- `int` -/
def typeInt : CStr := [105, 110, 116]

/-- `{ x }` with a newline before the brace -/
def scopeX : Derivation .scope := .scope none (.link .empty lineX)

/-- `func f(int a, int b) int { while x { x } if x { x } else { } }` and `if x { x }`, each with its
newline -/
def funcAndIf : List (Derivation .statement) :=
  [.flush (.func [102] (.next (.first typeInt [97]) typeInt [98]) (some typeInt)
      (.scope none (.link (.link .empty (.while conditionX scopeX))
        (.ifElse conditionX scopeX blankScope)))) .newline,
    .flush (.ifThen conditionX scopeX) .newline]

theorem front_end_hands_over_funcAndIf : ∃ states, runProgram funcAndIf parserInit = some states ∧
    ∀ tops, HandedOver parserInit states tops ↔ tops = funcAndIf.flatMap Derivation.topLevel :=
  front_end_hands_over
    (by
      simp [funcAndIf, ProgramBalances, Derivation.Balances, Derivation.Nests, FuncArgList.Proper,
        Still, Flush.token_quiet, programYield, firstToken, scopeX,
        lineX, blankScope])
    (by
      simp [funcAndIf, Derivation.Clean, Derivation.Readable, Expression.Declares, scopeX, lineX,
        blankScope, conditionX])

end PhantomShell
