import PhantomShell.Parser.Actions

/-!
# The nodes of a derivation

How many nodes the reductions of a derivation make, which ones those of an expression are, and that
the nodes from before are not written to.
-/

namespace PhantomShell

/-! ## Expressions -/

/-- The number of nodes that are made before the own one of an expression. -/
def Expression.own : Expression → ℕ
  | .operand _ => 0
  | .unary _ e => e.own + 1
  | .binary _ l r => l.own + 1 + (r.own + 1)
  | .call f e => f.own + 1 + (e.own + 1 + 1)
  | .group e => e.own + 1
  | .ternary e₁ e₂ e₃ => e₁.own + 1 + (e₂.own + 1 + (e₃.own + 1))
  | .varDeclaration _ _ => 0

/-- The number of nodes of an expression. -/
def Expression.size (e : Expression) : ℕ := e.own + 1

/-- What `NODE_UPCAST_EXPR` makes of the pointer to the node of an expression. -/
def Expression.cast : Expression → ℕ → Ptr
  | .varDeclaration _ _, _ => none
  | _, i => some i

/-- The nodes of an expression, the first of which is made when there are `n` nodes; its own is the
last one. -/
def Expression.nodes : Expression → ℕ → List AstNode
  | .operand (.identifier value), _ => [.ident value]
  | .operand (.constant c), _ => [.literal c]
  | .unary p e, n => e.nodes n ++ [.unaryOp p.operator (e.cast (n + e.own))]
  | .binary b l r, n =>
    l.nodes n ++ (r.nodes (n + l.size) ++
      [.binaryOp b.operator (l.cast (n + l.own)) (r.cast (n + l.size + r.own))])
  | .call f e, n =>
    f.nodes n ++ (e.nodes (n + f.size) ++ [.group (e.cast (n + f.size + e.own)),
      .binaryOp .functionCall (f.cast (n + f.own)) (some (n + f.size + e.size))])
  | .group e, n => e.nodes n ++ [.group (e.cast (n + e.own))]
  | .ternary e₁ e₂ e₃, n =>
    e₁.nodes n ++ (e₂.nodes (n + e₁.size) ++ (e₃.nodes (n + e₁.size + e₂.size) ++
      [.ternaryOp (e₁.cast (n + e₁.own)) (e₂.cast (n + e₁.size + e₂.own))
        (e₃.cast (n + e₁.size + e₂.size + e₃.own))]))
  | .varDeclaration varType varName, _ => [.declVar varType varName none]

lemma Expression.length_nodes (e : Expression) (n : ℕ) : (e.nodes n).length = e.own + 1 := by
  induction e generalizing n with
  | operand a => cases a <;> rfl
  | unary p e ih => simp [Expression.nodes, Expression.own, ih]
  | binary b l r ihl ihr => simp [Expression.nodes, Expression.own, ihl, ihr, Nat.add_assoc]
  | call f e ihf ihe => simp [Expression.nodes, Expression.own, ihf, ihe, Nat.add_assoc]
  | group e ih => simp [Expression.nodes, Expression.own, ih]
  | ternary e₁ e₂ e₃ ih₁ ih₂ ih₃ =>
    simp [Expression.nodes, Expression.own, ih₁, ih₂, ih₃, Nat.add_assoc]
  | varDeclaration varType varName => rfl

/-- The last node is an expression unless it is a declaration. -/
lemma Expression.nodes_eq (e : Expression) (n : ℕ) :
    ∃ l node, e.nodes n = l ++ [node] ∧ ∀ i : ℕ, (if node.isExpr then some i else none) = e.cast i := by
  cases e with
  | operand a => cases a <;> exact ⟨[], _, rfl, fun _ => rfl⟩
  | unary p e => exact ⟨_, _, rfl, fun _ => rfl⟩
  | binary b l r => exact ⟨_, _, (List.append_assoc ..).symm, fun _ => rfl⟩
  | call f e =>
    refine ⟨f.nodes n ++ (e.nodes (n + f.size) ++ [.group (e.cast (n + f.size + e.own))]),
      .binaryOp .functionCall (f.cast (n + f.own)) (some (n + f.size + e.size)), ?_, fun _ => rfl⟩
    simp [Expression.nodes]
  | group e => exact ⟨_, _, rfl, fun _ => rfl⟩
  | ternary e₁ e₂ e₃ =>
    refine ⟨e₁.nodes n ++ (e₂.nodes (n + e₁.size) ++ e₃.nodes (n + e₁.size + e₂.size)),
      .ternaryOp (e₁.cast (n + e₁.own)) (e₂.cast (n + e₁.size + e₂.own))
        (e₃.cast (n + e₁.size + e₂.size + e₃.own)), ?_, fun _ => rfl⟩
    simp [Expression.nodes]
  | varDeclaration varType varName => exact ⟨[], _, rfl, fun _ => rfl⟩

/-- The state when more nodes have been made. -/
def ParserState.push (s : ParserState) (nodes : List AstNode) : ParserState :=
  { s with nodes := s.nodes ++ nodes }

@[simp] lemma ParserState.push_nodes (s : ParserState) (nodes : List AstNode) :
    (s.push nodes).nodes = s.nodes ++ nodes := rfl

@[simp] lemma ParserState.push_push (s : ParserState) (l r : List AstNode) :
    (s.push l).push r = s.push (l ++ r) := by
  simp [ParserState.push]

lemma newNode_push (node : AstNode) (s : ParserState) :
    newNode node s = some (some s.nodes.length, s.push [node]) := rfl

/-- The pointer to an expression leads there, and is null for a declaration. -/
lemma Expression.nodeUpcastExpr_push (e : Expression) (s : ParserState) {l r : List AstNode}
    {n : ℕ} (hn : n = s.nodes.length + l.length) :
    nodeUpcastExpr (some (n + e.own)) (s.push (l ++ (e.nodes n ++ r))) =
      some (e.cast (n + e.own), s.push (l ++ (e.nodes n ++ r))) := by
  obtain ⟨before, node, hnodes, hcast⟩ := e.nodes_eq n
  have hlength := e.length_nodes n
  rw [hnodes, List.length_append, List.length_singleton, Nat.add_right_cancel_iff] at hlength
  have hget : (s.nodes ++ (l ++ (e.nodes n ++ r)))[n + e.own]? = some node := by
    rw [hnodes, ← List.append_assoc, List.getElem?_append_right (by simp; omega), List.append_assoc,
      List.getElem?_append_right (by simp; omega)]
    simp [show n + e.own - (s.nodes.length + l.length) - before.length = 0 from by omega]
  rw [nodeUpcastExpr_eq, Option.bind_some, ParserState.push_nodes, hget, Option.map_some, hcast]

/-- A group, when its expression has been reduced. -/
lemma Expression.reduce_group {e : Expression} {s : ParserState}
    (h : e.reduce s = some (some (s.nodes.length + e.own), s.push (e.nodes s.nodes.length))) :
    (Expression.group e).reduce s = some (some (s.nodes.length + (Expression.group e).own),
      s.push ((Expression.group e).nodes s.nodes.length)) := by
  have hcast := e.nodeUpcastExpr_push s (l := []) (r := []) (n := s.nodes.length) rfl
  rw [List.nil_append, List.append_nil] at hcast
  rw [Expression.reduce, parserM_bind_of h, astNewNodeGroup, parserM_bind_of hcast, newNode_push]
  simp [Expression.own, Expression.nodes, Expression.length_nodes]

/-- A binary operator, when its operands have been reduced. -/
lemma astNewNodeBinaryOp_push (l r : Expression) (operator : Operator) (s : ParserState) :
    astNewNodeBinaryOp operator (some (s.nodes.length + l.own))
      (some (s.nodes.length + l.size + r.own))
      (s.push (l.nodes s.nodes.length ++ r.nodes (s.nodes.length + l.size))) =
      some (some (s.nodes.length + (l.own + 1 + (r.own + 1))), s.push (l.nodes s.nodes.length ++
        (r.nodes (s.nodes.length + l.size) ++ [.binaryOp operator (l.cast (s.nodes.length + l.own))
          (r.cast (s.nodes.length + l.size + r.own))]))) := by
  have hl := l.nodeUpcastExpr_push s (l := []) (r := r.nodes (s.nodes.length + l.size))
    (n := s.nodes.length) rfl
  have hr := r.nodeUpcastExpr_push s (l := l.nodes s.nodes.length) (r := [])
    (n := s.nodes.length + l.size) (by rw [l.length_nodes]; rfl)
  rw [List.nil_append] at hl
  rw [List.append_nil] at hr
  rw [astNewNodeBinaryOp, parserM_bind_of hl, parserM_bind_of hr, newNode_push]
  simp [Expression.length_nodes]

/-- The reductions of an expression. -/
lemma Expression.reduce_eq (e : Expression) (s : ParserState) :
    e.reduce s = some (some (s.nodes.length + e.own), s.push (e.nodes s.nodes.length)) := by
  induction e generalizing s with
  | operand a => cases a <;> rfl
  | unary p e ih =>
    have hcast := e.nodeUpcastExpr_push s (l := []) (r := []) (n := s.nodes.length) rfl
    rw [List.nil_append, List.append_nil] at hcast
    rw [Expression.reduce, parserM_bind_of (ih s), astNewNodeUnaryOp, parserM_bind_of hcast,
      newNode_push]
    simp [Expression.own, Expression.nodes, Expression.length_nodes]
  | binary b l r ihl ihr =>
    rw [Expression.reduce, parserM_bind_of (ihl s), parserM_bind_of (ihr _)]
    simp only [ParserState.push_push, ParserState.push_nodes, List.length_append, l.length_nodes]
    exact astNewNodeBinaryOp_push l r b.operator s
  | call f e ihf ihe =>
    -- the arguments of a call are reduced as a group
    have hgroup := Expression.reduce_group (ihe (s.push (f.nodes s.nodes.length)))
    simp only [ParserState.push_push, ParserState.push_nodes, List.length_append, f.length_nodes]
      at hgroup
    have hcall : (Expression.call f e).reduce = (do
        let left ← f.reduce
        let right ← (Expression.group e).reduce
        astNewNodeBinaryOp .functionCall left right) := by
      simp only [Expression.reduce, bind_assoc]
    rw [hcall, parserM_bind_of (ihf s), parserM_bind_of hgroup]
    refine (astNewNodeBinaryOp_push f (.group e) .functionCall s).trans ?_
    rw [Expression.nodes, Expression.nodes, List.append_assoc]
    rfl
  | group e ih => exact Expression.reduce_group (ih s)
  | ternary e₁ e₂ e₃ ih₁ ih₂ ih₃ =>
    have h₁ := e₁.nodeUpcastExpr_push s (l := [])
      (r := e₂.nodes (s.nodes.length + e₁.size) ++ e₃.nodes (s.nodes.length + e₁.size + e₂.size))
      (n := s.nodes.length) rfl
    have h₂ := e₂.nodeUpcastExpr_push s (l := e₁.nodes s.nodes.length)
      (r := e₃.nodes (s.nodes.length + e₁.size + e₂.size)) (n := s.nodes.length + e₁.size)
      (by rw [e₁.length_nodes]; rfl)
    have h₃ := e₃.nodeUpcastExpr_push s
      (l := e₁.nodes s.nodes.length ++ e₂.nodes (s.nodes.length + e₁.size)) (r := [])
      (n := s.nodes.length + e₁.size + e₂.size)
      (by rw [List.length_append, e₁.length_nodes, e₂.length_nodes, Nat.add_assoc]; rfl)
    rw [List.nil_append] at h₁
    rw [List.append_nil, List.append_assoc] at h₃
    rw [Expression.reduce, parserM_bind_of (ih₁ s), parserM_bind_of (ih₂ _),
      parserM_bind_of (ih₃ _)]
    simp only [ParserState.push_push, ParserState.push_nodes, List.length_append, List.append_assoc,
      e₁.length_nodes, e₂.length_nodes, ← Nat.add_assoc s.nodes.length]
    rw [astNewNodeTernaryOp]
    refine (parserM_bind_of h₁ _).trans ((parserM_bind_of h₂ _).trans ((parserM_bind_of h₃ _).trans ?_))
    rw [newNode_push]
    simp [Expression.own, Expression.nodes, Expression.length_nodes]
  | varDeclaration varType varName => rfl

/-! ### Their tokens -/

/-- A token that does nothing in the lexer. -/
def Token.Quiet (t : Token) : Prop := ∀ l, lexerHandleKeyword t l = l

lemma Operand.token_quiet (a : Operand) : a.token.Quiet := by
  rcases a with value | c
  · exact fun _ => rfl
  · cases c <;> exact fun _ => rfl

lemma Expression.yield_quiet (e : Expression) : ∀ t ∈ e.yield, t.Quiet := by
  induction e with
  | operand a => simpa [Expression.yield] using a.token_quiet
  | unary p e ih =>
    simp only [Expression.yield, List.forall_mem_cons]
    refine ⟨?_, ih⟩
    cases p <;> exact fun _ => rfl
  | binary b l r ihl ihr =>
    simp only [Expression.yield, List.forall_mem_append, List.forall_mem_cons]
    refine ⟨ihl, ?_, ihr⟩
    cases b <;> exact fun _ => rfl
  | call f e ihf ihe =>
    simp only [Expression.yield, List.forall_mem_append, List.forall_mem_cons]
    exact ⟨ihf, fun _ => rfl, ihe, fun _ => rfl, nofun⟩
  | group e ih =>
    simp only [Expression.yield, List.forall_mem_append, List.forall_mem_cons]
    exact ⟨fun _ => rfl, ih, fun _ => rfl, nofun⟩
  | ternary e₁ e₂ e₃ ih₁ ih₂ ih₃ =>
    simp only [Expression.yield, List.forall_mem_append, List.forall_mem_cons]
    exact ⟨fun _ => rfl, ih₁, fun _ => rfl, ih₂, fun _ => rfl, ih₃, fun _ => rfl, nofun⟩
  | varDeclaration varType varName =>
    simp only [Expression.yield, List.forall_mem_cons]
    exact ⟨fun _ => rfl, fun _ => rfl, nofun⟩

lemma FuncArgList.yield_quiet (args : FuncArgList) : ∀ t ∈ args.yield, t.Quiet := by
  induction args with
  | empty => exact nofun
  | first varType varName =>
    simp only [FuncArgList.yield, List.forall_mem_cons]
    exact ⟨fun _ => rfl, fun _ => rfl, nofun⟩
  | next list varType varName ih =>
    simp only [FuncArgList.yield, List.forall_mem_append, List.forall_mem_cons]
    exact ⟨ih, fun _ => rfl, fun _ => rfl, fun _ => rfl, nofun⟩

/-- The state when the next token has been taken. -/
def ParserState.shifted (s : ParserState) (t : Token) : ParserState :=
  { s with lexer := s.lexed (some t), ahead := false }

/-- The state when the next token has been read. -/
def ParserState.peeked (s : ParserState) (next : Option Token) : ParserState :=
  { s with lexer := s.lexed next, ahead := true }

lemma shift_eq (t : Token) (s : ParserState) : shift t s = some ((), s.shifted t) := rfl

lemma peek_eq (next : Option Token) (s : ParserState) : peek next s = some ((), s.peeked next) := rfl

lemma ParserState.lexed_quiet {t : Token} (ht : t.Quiet) (s : ParserState) :
    s.lexed (some t) = s.lexer := by
  rw [ParserState.lexed]
  split
  · rfl
  · exact ht s.lexer

lemma shift_quiet {t : Token} (ht : t.Quiet) (s : ParserState) :
    shift t s = some ((), { s with ahead := false }) := by
  rw [shift_eq, ParserState.shifted, s.lexed_quiet ht]

lemma forM_shift_quiet {tokens : List Token} (h : ∀ t ∈ tokens, t.Quiet) (hne : tokens ≠ [])
    (s : ParserState) : tokens.forM shift s = some ((), { s with ahead := false }) := by
  induction tokens generalizing s with
  | nil => exact absurd rfl hne
  | cons t tokens ih =>
    obtain ⟨ht, hrest⟩ := List.forall_mem_cons.mp h
    change (shift t >>= fun _ => tokens.forM shift) s = _
    rw [parserM_bind_of (shift_quiet ht s)]
    by_cases hnil : tokens = []
    · rw [hnil]
      rfl
    · exact ih hrest hnil _

/-- An expression, and the token behind it. -/
lemma Expression.run_eq (e : Expression) (next : Option Token) (s : ParserState) :
    e.run next s = some (some (s.nodes.length + e.own),
      { s with
        lexer := lexerHandle next s.lexer
        ahead := true
        nodes := s.nodes ++ e.nodes s.nodes.length }) := by
  have hne : e.yield ≠ [] := by
    cases e <;> simp [Expression.yield]
  rw [Expression.run, parserM_bind_of (forM_shift_quiet e.yield_quiet hne s),
    parserM_bind_of (peek_eq next _), e.reduce_eq]
  rfl

/-! ## Statements -/

/-- The statement's own keyword counts no longer. -/
def LexerState.leave (l : LexerState) (ownSelection ownIteration : ℤ) : LexerState :=
  { l with
    isInsideSelectionStat := l.isInsideSelectionStat - ownSelection
    isInsideIterationStat := l.isInsideIterationStat - ownIteration }

lemma LexerState.leave_zero (l : LexerState) : l.leave 0 0 = l := by
  simp [LexerState.leave]

/-- A statement has been made, and compiled if it is outside. -/
def ParserState.close (s : ParserState) (node : AstNode) (ownSelection ownIteration : ℤ) :
    Ptr × ParserState :=
  if s.lexer.isOutside ownSelection ownIteration then
    (none, { s with
      lexer := s.lexer.leave ownSelection ownIteration
      nodes := s.nodes ++ [node]
      compiled := s.compiled ++ [s.nodes.length] })
  else
    (some s.nodes.length, { s with
      lexer := s.lexer.leave ownSelection ownIteration
      nodes := s.nodes ++ [node] })

/-- The pointer leads to the new node. -/
lemma ParserState.close_eq_some {s s' : ParserState} {node : AstNode} {a b : ℤ} {p : Ptr}
    (h : some (s.close node a b) = some (p, s')) :
    s'.nodes = s.nodes ++ [node] ∧ ∀ i ∈ p, i = s.nodes.length := by
  rw [ParserState.close] at h
  split at h
  · cases h
    exact ⟨rfl, nofun⟩
  · cases h
    refine ⟨rfl, ?_⟩
    rintro i ⟨⟩
    rfl

lemma astNewNodeStatExpr_eq {expr c : Ptr} {s : ParserState}
    (h : nodeUpcastExpr expr s = some (c, s)) :
    astNewNodeStatExpr expr s = some (s.close (.statExpr none c) 0 0) := by
  rw [astNewNodeStatExpr, parserM_bind_of h, parserM_bind_of (newNode_push _ s), ParserState.close,
    s.lexer.leave_zero]
  change (if s.lexer.isOutside 0 0 then _ else _ : ParserM Ptr) _ = _
  split <;> rfl

lemma astNewNodeStatIf_eq {expr c trueScope falseScope : Ptr} {s : ParserState}
    (h : nodeUpcastExpr expr s = some (c, s)) :
    astNewNodeStatIf expr trueScope falseScope s =
      some (s.close (.statIf none c trueScope falseScope) 1 0) := by
  rw [astNewNodeStatIf, parserM_bind_of h, parserM_bind_of (newNode_push _ s), ParserState.close,
    parserM_bind]
  change ((if s.lexer.isOutside 1 0 then _ else _ : ParserM Ptr) _).bind _ = _
  split <;> simp [LexerState.leave] <;> rfl

lemma astNewNodeStatWhile_eq {expr c loopScope : Ptr} {s : ParserState}
    (h : nodeUpcastExpr expr s = some (c, s)) :
    astNewNodeStatWhile expr loopScope s = some (s.close (.statWhile none c loopScope) 0 1) := by
  rw [astNewNodeStatWhile, parserM_bind_of h, parserM_bind_of (newNode_push _ s), ParserState.close,
    parserM_bind]
  change ((if s.lexer.isOutside 0 1 then _ else _ : ParserM Ptr) _).bind _ = _
  split <;> simp [LexerState.leave] <;> rfl

lemma astNewNodeStatRet_eq {expr c : Ptr} {s : ParserState}
    (h : nodeUpcastExpr expr s = some (c, s)) :
    astNewNodeStatRet expr s = some (some s.nodes.length, s.push [.statRet none c]) := by
  rw [astNewNodeStatRet, parserM_bind_of h, newNode_push]

lemma astNewNodeDeclFunc_eq (name : CStr) (args : Ptr) (retType : Option CStr) (body : Ptr)
    (s : ParserState) :
    astNewNodeDeclFunc name args retType body s = some (none, { s with
      lexer := { s.lexer with isInsideFunc := false }
      nodes := s.nodes ++ [.declFunc name retType args body]
      compiled := s.compiled ++ [s.nodes.length] }) := rfl

/-! ## Nodes from before -/

/-- `n` nodes have been made, and those below `base` are as they were. -/
structure Extends (base n : ℕ) (nodes nodes' : List AstNode) : Prop where
  length : nodes'.length = nodes.length + n
  frame : ∀ i < base, nodes'[i]? = nodes[i]?

lemma Extends.append {base n : ℕ} {nodes : List AstNode} (new : List AstNode)
    (hn : new.length = n) (hbase : base ≤ nodes.length) : Extends base n nodes (nodes ++ new) := by
  refine ⟨by rw [List.length_append, hn], ?_⟩
  intro i hi
  rw [List.getElem?_append_left (hi.trans_le hbase)]

lemma Extends.trans {base n m : ℕ} {l l₁ l₂ : List AstNode} (h : Extends base n l l₁)
    (h' : Extends base m l₁ l₂) : Extends base (n + m) l l₂ := by
  refine ⟨by rw [h'.length, h.length, Nat.add_assoc], ?_⟩
  intro i hi
  rw [h'.frame i hi, h.frame i hi]

lemma Extends.mono {base base' n : ℕ} {l l' : List AstNode} (h : Extends base n l l')
    (hbase : base' ≤ base) : Extends base' n l l' :=
  ⟨h.length, fun i hi => h.frame i (hi.trans_le hbase)⟩

lemma Extends.refl {base : ℕ} (nodes : List AstNode) : Extends base 0 nodes nodes :=
  ⟨rfl, fun _ _ => rfl⟩

/-- What was made later is not below. -/
lemma Extends.trans_length {base n m : ℕ} {l l₁ l₂ : List AstNode} (h : Extends base n l l₁)
    (h' : Extends l₁.length m l₁ l₂) (hbase : base ≤ l.length) : Extends base (n + m) l l₂ :=
  h.trans (h'.mono (by rw [h.length]; omega))

/-- A node from before is still there. -/
lemma Extends.getElem? {n : ℕ} {l l' : List AstNode} (h : Extends l.length n l l') {i : ℕ}
    {node : AstNode} (hi : l[i]? = some node) : l'[i]? = some node := by
  rw [h.frame i (List.getElem?_eq_some_iff.mp hi).1, hi]

/-! ### Lists -/

/-- The nodes when the statement `j` has been linked to the list `i`. -/
def linkNodes (nodes : List AstNode) (i j size : ℕ) (first last : Ptr) : List AstNode :=
  let nodes := last.elim nodes fun l => nodes.modify l (.setNext (some j))
  (nodes.modify j (.setNext none)).modify i fun _ =>
    .statList (size + 1) (if last.isNone then some j else first) (some j)

lemma length_linkNodes (nodes : List AstNode) (i j size : ℕ) (first last : Ptr) :
    (linkNodes nodes i j size first last).length = nodes.length := by
  cases last <;> simp [linkNodes]

/-- Other nodes are not written to. -/
lemma linkNodes_frame {nodes : List AstNode} {i j size k : ℕ} {first last : Ptr} (hi : k ≠ i)
    (hj : k ≠ j) (hlast : some k ≠ last) :
    (linkNodes nodes i j size first last)[k]? = nodes[k]? := by
  rw [linkNodes, List.getElem?_modify_ne _ _ hi.symm, List.getElem?_modify_ne _ _ hj.symm]
  cases last with
  | none => rfl
  | some l => exact List.getElem?_modify_ne _ _ fun h => hlast (congrArg some h.symm)

/-- The list has one more statement. -/
lemma linkNodes_list {nodes : List AstNode} {i j size : ℕ} {first last : Ptr}
    (hi : i < nodes.length) : (linkNodes nodes i j size first last)[i]? =
      some (.statList (size + 1) (if last.isNone then some j else first) (some j)) := by
  have hlt : i < ((last.elim nodes fun l => nodes.modify l (.setNext (some j))).modify j
      (.setNext none)).length := by
    cases last <;> simpa using hi
  rw [linkNodes, List.getElem?_modify_eq, List.getElem?_eq_getElem hlt]
  rfl

lemma astLinkNodeStatList_eq {s : ParserState} {i size : ℕ} {first last : Ptr}
    (hi : s.nodes[i]? = some (.statList size first last)) (j : ℕ) :
    astLinkNodeStatList (some i) (some j) s =
      some (some i, { s with nodes := linkNodes s.nodes i j size first last }) := by
  have hread : readNode (some i) s = some (.statList size first last, s) := by
    rw [readNode_eq, Option.bind_some, hi]
    rfl
  rw [astLinkNodeStatList, parserM_bind_of hread]
  cases last <;> rfl

/-- A null pointer is not linked. -/
lemma astLinkNodeStatList_eq_some {p₁ p₂ q : Ptr} {s s' : ParserState}
    (h : astLinkNodeStatList p₁ p₂ s = some (q, s')) :
    ∃ i j size first last, p₁ = some i ∧ p₂ = some j ∧
      s.nodes[i]? = some (.statList size first last) ∧ q = some i ∧
      s' = { s with nodes := linkNodes s.nodes i j size first last } := by
  obtain ⟨node, s₁, hread, hlink⟩ := parserM_bind_eq_some.mp h
  rw [readNode_eq, Option.map_eq_some_iff] at hread
  obtain ⟨node, hread, heq⟩ := hread
  cases heq
  obtain ⟨i, rfl, hi⟩ := Option.bind_eq_some_iff.mp hread
  cases node with
  | statList size first last =>
    cases p₂ with
    | none => cases last <;> cases hlink
    | some j =>
      rw [astLinkNodeStatList_eq hi] at h
      cases h
      exact ⟨i, j, size, first, last, rfl, rfl, hi, rfl, rfl⟩
  | _ => cases hlink

/-! ### Parameters -/

/-- The number of nodes of the parameters. -/
def FuncArgList.size : FuncArgList → ℕ
  | .empty => 1
  | .first _ _ => 2
  | .next list _ _ => list.size + 1

/-- The nodes when the parameter `j` has been linked to the list `i` behind the parameter `l`. -/
def linkDecls (nodes : List AstNode) (i j l : ℕ) (firstDecl : Ptr) : List AstNode :=
  (nodes.modify l (.setNextDecl (some j))).modify i fun _ => .funcArgList firstDecl (some j)

/-- One more parameter; an empty list has no last one. -/
lemma FuncArgList.reduce_next {list : FuncArgList} {varType varName : CStr} {s s₁ s' : ParserState}
    {i : ℕ} {firstDecl last p : Ptr} (hlist : list.reduce s = some (some i, s₁))
    (hi : s₁.nodes[i]? = some (.funcArgList firstDecl last))
    (h : (FuncArgList.next list varType varName).reduce s = some (p, s')) :
    ∃ l, last = some l ∧ p = some i ∧ s' = { s₁ with
      nodes := linkDecls (s₁.nodes ++ [.declVar varType varName none]) i s₁.nodes.length l
        firstDecl } := by
  have hlt : i < s₁.nodes.length := (List.getElem?_eq_some_iff.mp hi).1
  have hread : readNode (some i) (s₁.push [.declVar varType varName none]) =
      some (.funcArgList firstDecl last, s₁.push [.declVar varType varName none]) := by
    rw [readNode_eq, Option.bind_some, ParserState.push_nodes, List.getElem?_append_left hlt, hi]
    rfl
  rw [FuncArgList.reduce, parserM_bind_of hlist, astNewNodeDeclVar,
    parserM_bind_of (newNode_push _ s₁), parserM_bind_of hread] at h
  cases last with
  | none => cases h
  | some l =>
    cases h
    exact ⟨l, rfl, rfl, rfl⟩

/-- Their list, and the nodes from before. -/
lemma FuncArgList.reduce_extends {args : FuncArgList} {s s' : ParserState} {p : Ptr}
    (h : args.reduce s = some (p, s')) :
    Extends s.nodes.length args.size s.nodes s'.nodes ∧ ∃ i firstDecl last, p = some i ∧ s.nodes.length ≤ i ∧
      s'.nodes[i]? = some (.funcArgList firstDecl last) ∧ ∀ l ∈ last, s.nodes.length ≤ l := by
  induction args generalizing s' p with
  | empty =>
    cases h
    refine ⟨.append _ rfl le_rfl, _, none, none, rfl, le_rfl, ?_, nofun⟩
    simp
  | first varType varName =>
    cases h
    refine ⟨?_, s.nodes.length + 1, some s.nodes.length, some s.nodes.length, ?_, by omega, ?_, ?_⟩
    · exact (Extends.append [_] rfl le_rfl).trans_length (.append [_] rfl le_rfl) le_rfl
    · simp
    · simp
    · rintro l ⟨⟩
      exact le_rfl
  | next list varType varName ih =>
    obtain ⟨p₁, s₁, hlist, -⟩ := parserM_bind_eq_some.mp h
    obtain ⟨hext, i, firstDecl, last, rfl, hle, hi, hlast⟩ := ih hlist
    obtain ⟨l, rfl, rfl, rfl⟩ := FuncArgList.reduce_next hlist hi h
    have hlt : i < s₁.nodes.length := (List.getElem?_eq_some_iff.mp hi).1
    have hl : s.nodes.length ≤ l := hlast l rfl
    refine ⟨⟨?_, ?_⟩, i, firstDecl, some s₁.nodes.length, rfl, hle, ?_, ?_⟩
    · simp [linkDecls, hext.length, FuncArgList.size, Nat.add_assoc]
    · intro k hk
      change (linkDecls _ _ _ _ _)[k]? = _
      rw [linkDecls, List.getElem?_modify_ne _ _ (by omega), List.getElem?_modify_ne _ _ (by omega),
        List.getElem?_append_left (by omega), hext.frame k hk]
    · change (linkDecls _ _ _ _ _)[i]? = _
      rw [linkDecls, List.getElem?_modify_eq, List.getElem?_modify, List.getElem?_append_left hlt, hi]
      rfl
    · rintro l ⟨⟩
      omega

/-! ### Derivations -/

/-- The node of a label. -/
def labelNodes (value : Option ConstantExpression) : List AstNode :=
  (value.map AstNode.literal).toList

/-- The number of nodes of a derivation. -/
def Derivation.size : {symbol : Nonterminal} → Derivation symbol → ℕ
  | _, .scope _ stats => stats.size + 1
  | _, .empty => 1
  | _, .link stats stat => stats.size + stat.size
  | _, .expression e _ => e.size + 1
  | _, .block body => body.size
  | _, .ifThen e trueScope => e.size + trueScope.size + 1
  | _, .ifElse e trueScope falseScope => e.size + (trueScope.size + falseScope.size) + 1
  | _, .ifElif e trueScope elifs => e.size + (trueScope.size + elifs.size) + 1
  | _, .switch e _ choices => e.size + choices.size + 1
  | _, .while e loopScope => e.size + loopScope.size + 1
  | _, .ret e => e.size + 1
  | _, .func _ args _ body => args.size + body.size + 1
  | _, .flush stat _ => stat.size
  | _, .firstChoice value body => (labelNodes value).length + body.size + 1
  | _, .nextChoice choices value body => choices.size + ((labelNodes value).length + body.size) + 1
  | _, .elifThen e trueScope => e.size + trueScope.size + 1
  | _, .elifElif e trueScope elifs => e.size + (trueScope.size + elifs.size) + 1
  | _, .elifElse e trueScope falseScope => e.size + (trueScope.size + falseScope.size) + 1

/-- The state behind a keyword and an expression, when the brace has been read. -/
def ParserState.header (s : ParserState) (keyword : Token) (e : Expression) : ParserState :=
  { s with
    lexer := s.lexed (some keyword)
    ahead := true
    nodes := s.nodes ++ e.nodes s.nodes.length }

lemma run_header {α : Type} (keyword : Token) (e : Expression) (k : Ptr → ParserM α)
    (s : ParserState) :
    (do shift keyword; let expr ← e.run (some .braceOpen); k expr : ParserM α) s =
      k (some (s.nodes.length + e.own)) (s.header keyword e) := by
  rw [parserM_bind_of (shift_eq keyword s), parserM_bind_of (e.run_eq (some .braceOpen) _)]
  rfl

lemma Expression.extends_nodes (e : Expression) (nodes : List AstNode) :
    Extends nodes.length e.size nodes (nodes ++ e.nodes nodes.length) :=
  .append _ (e.length_nodes _) le_rfl

/-- The expression is still there. -/
lemma Expression.nodeUpcastExpr_extends (e : Expression) {nodes : List AstNode} {n : ℕ}
    {s : ParserState} (h : Extends (nodes ++ e.nodes nodes.length).length n
      (nodes ++ e.nodes nodes.length) s.nodes) :
    nodeUpcastExpr (some (nodes.length + e.own)) s =
      some (e.cast (nodes.length + e.own), s) := by
  obtain ⟨before, node, hnodes, hcast⟩ := e.nodes_eq nodes.length
  have hlength := e.length_nodes nodes.length
  rw [hnodes, List.length_append, List.length_singleton, Nat.add_right_cancel_iff] at hlength
  have hget : (nodes ++ e.nodes nodes.length)[nodes.length + e.own]? = some node := by
    rw [hnodes, List.getElem?_append_right (by omega)]
    simp [hlength]
  rw [nodeUpcastExpr_eq, Option.bind_some, h.getElem? hget, Option.map_some, hcast]

/-- The pointer that a derivation gives leads to new nodes, and so do those of a list. -/
def Returns (symbol : Nonterminal) (base : ℕ) (p : Ptr) (nodes : List AstNode) : Prop :=
  (∀ i ∈ p, base ≤ i) ∧ (symbol = .statements → ∃ i size first last, p = some i ∧
    nodes[i]? = some (.statList size first last) ∧ ∀ l ∈ last, base ≤ l)

lemma Returns.own {symbol : Nonterminal} {base i : ℕ} {nodes : List AstNode} (hbase : base ≤ i)
    (hsymbol : symbol ≠ .statements) : Returns symbol base (some i) nodes := by
  refine ⟨?_, fun h => absurd h hsymbol⟩
  rintro i ⟨⟩
  exact hbase

/-- One more node, and the pointer to it. -/
lemma Extends.own {symbol : Nonterminal} {n : ℕ} {nodes nodes' : List AstNode}
    (h : Extends nodes.length n nodes nodes') (node : AstNode) (hsymbol : symbol ≠ .statements) :
    Extends nodes.length (n + 1) nodes (nodes' ++ [node]) ∧
      Returns symbol nodes.length (some nodes'.length) (nodes' ++ [node]) :=
  ⟨h.trans_length (.append _ rfl le_rfl) le_rfl,
    .own ((Nat.le_add_right _ _).trans_eq h.length.symm) hsymbol⟩

/-- A statement that may be compiled. -/
lemma Extends.close {symbol : Nonterminal} {n : ℕ} {nodes : List AstNode} {s s' : ParserState}
    {node : AstNode} {a b : ℤ} {p : Ptr} (hext : Extends nodes.length n nodes s.nodes)
    (h : some (s.close node a b) = some (p, s')) (hsymbol : symbol ≠ .statements) :
    Extends nodes.length (n + 1) nodes s'.nodes ∧ Returns symbol nodes.length p s'.nodes := by
  obtain ⟨hnodes, hp⟩ := s.close_eq_some h
  obtain ⟨hown, hreturns, -⟩ := hext.own node hsymbol
  rw [hnodes]
  refine ⟨hown, ?_, fun h => absurd h hsymbol⟩
  intro i hi
  rw [hp i hi]
  exact hreturns _ rfl

/-- A list of statements is written to when one more is linked. -/
lemma Extends.link {base n i j size : ℕ} {first last : Ptr} {nodes nodes' : List AstNode}
    (h : Extends base n nodes nodes') (hi : base ≤ i) (hj : base ≤ j) (hlast : ∀ l ∈ last, base ≤ l) :
    Extends base n nodes (linkNodes nodes' i j size first last) := by
  refine ⟨by rw [length_linkNodes, h.length], ?_⟩
  intro k hk
  rw [linkNodes_frame (by omega) (by omega), h.frame k hk]
  intro heq
  have := hlast k heq.symm
  omega

/-- `_FLUSH` makes no nodes. -/
lemma shiftFlush_eq (f : Option Flush) (next : Option Token) (s : ParserState) :
    ∃ s₁, shiftFlush f next s = some ((), s₁) ∧ s₁.nodes = s.nodes := by
  cases f <;> exact ⟨_, rfl, rfl⟩

lemma forM_shift_eq (tokens : List Token) (s : ParserState) :
    ∃ s₁, tokens.forM shift s = some ((), s₁) ∧ s₁.nodes = s.nodes := by
  induction tokens generalizing s with
  | nil => exact ⟨s, rfl, rfl⟩
  | cons t tokens ih => exact ih (s.shifted t)

lemma reduceLabel_eq (value : Option ConstantExpression) (s : ParserState) :
    ∃ p, reduceLabel value s = some (p, s.push (labelNodes value)) := by
  cases value with
  | none =>
    refine ⟨none, ?_⟩
    simp [reduceLabel, labelNodes, ParserState.push]
    rfl
  | some value => exact ⟨_, rfl⟩

/-- A derivation makes its nodes and writes to no others. -/
lemma Derivation.run_extends {symbol : Nonterminal} {d : Derivation symbol} {next : Option Token}
    {s s' : ParserState} {p : Ptr} (h : d.run next s = some (p, s')) :
    Extends s.nodes.length d.size s.nodes s'.nodes ∧ Returns symbol s.nodes.length p s'.nodes := by
  induction d generalizing next s s' p with
  | scope f stats ih =>
    obtain ⟨s₁, hflush, hs₁⟩ :=
      shiftFlush_eq f (firstToken stats.yield (some .braceClose)) (s.shifted .braceOpen)
    rw [Derivation.run, parserM_bind_of (shift_eq _ s), parserM_bind_of hflush] at h
    obtain ⟨p₁, s₂, hstats, h⟩ := parserM_bind_eq_some.mp h
    obtain ⟨hext, -⟩ := ih hstats
    rw [hs₁] at hext
    cases h
    exact hext.own _ nofun
  | empty =>
    cases h
    refine ⟨.append _ rfl le_rfl, ?_, fun _ => ⟨_, 0, none, none, rfl, ?_, nofun⟩⟩
    · rintro i ⟨⟩
      exact le_rfl
    · simp
  | link stats stat ihstats ihstat =>
    obtain ⟨p₁, s₁, hstats, h⟩ := parserM_bind_eq_some.mp h
    obtain ⟨p₂, s₂, hstat, h⟩ := parserM_bind_eq_some.mp h
    obtain ⟨hext₁, hle₁, hlist⟩ := ihstats hstats
    obtain ⟨hext₂, hle₂, -⟩ := ihstat hstat
    obtain ⟨i, size, first, last, rfl, hi, hlast⟩ := hlist rfl
    rw [parserM_bind_of (peek_eq next s₂)] at h
    obtain ⟨i', j, size', first', last', heq, rfl, hi', rfl, rfl⟩ := astLinkNodeStatList_eq_some h
    cases heq
    cases Option.some.inj ((hext₂.getElem? hi).symm.trans hi')
    -- both nodes that are written to are of this list
    have hj : s.nodes.length ≤ j := by
      have := hle₂ j rfl
      rw [hext₁.length] at this
      omega
    refine ⟨(hext₁.trans_length hext₂ le_rfl).link (hle₁ i rfl) hj hlast, hle₁, ?_⟩
    intro _
    refine ⟨i, size + 1, if last.isNone then some j else first, some j, rfl, ?_, ?_⟩
    · exact linkNodes_list (List.getElem?_eq_some_iff.mp hi').1
    · rintro l ⟨⟩
      exact hj
  | expression e f =>
    rw [Derivation.run, parserM_bind_of (e.run_eq (some f.token) s), parserM_bind_of (shift_eq _ _),
      astNewNodeStatExpr_eq (e.nodeUpcastExpr_extends (.refl _))] at h
    exact Extends.close (e.extends_nodes _) h nofun
  | block body ih =>
    obtain ⟨hext, hle, -⟩ := ih h
    exact ⟨hext, hle, nofun⟩
  | ifThen e trueScope ih | elifThen e trueScope ih =>
    rw [Derivation.run, run_header] at h
    obtain ⟨p₁, s₁, htrue, h⟩ := parserM_bind_eq_some.mp h
    obtain ⟨hext, -⟩ := ih htrue
    have hcast := e.nodeUpcastExpr_extends (s := s₁.peeked next) hext
    rw [parserM_bind_of (peek_eq next s₁), astNewNodeStatIf_eq hcast] at h
    exact ((e.extends_nodes _).trans_length hext le_rfl).close (s := s₁.peeked next) h nofun
  | ifElse e trueScope falseScope iht ihf | elifElse e trueScope falseScope iht ihf =>
    rw [Derivation.run, run_header] at h
    obtain ⟨p₁, s₁, htrue, h⟩ := parserM_bind_eq_some.mp h
    rw [parserM_bind_of (shift_eq _ s₁)] at h
    obtain ⟨p₂, s₂, hfalse, h⟩ := parserM_bind_eq_some.mp h
    have hext := (iht htrue).1.trans_length (ihf hfalse).1 le_rfl
    rw [astNewNodeStatIf_eq (e.nodeUpcastExpr_extends hext)] at h
    exact ((e.extends_nodes _).trans_length hext le_rfl).close h nofun
  | ifElif e trueScope elifs iht ihf | elifElif e trueScope elifs iht ihf =>
    rw [Derivation.run, run_header] at h
    obtain ⟨p₁, s₁, htrue, h⟩ := parserM_bind_eq_some.mp h
    obtain ⟨p₂, s₂, helifs, h⟩ := parserM_bind_eq_some.mp h
    have hext := (iht htrue).1.trans_length (ihf helifs).1 le_rfl
    rw [astNewNodeStatIf_eq (e.nodeUpcastExpr_extends hext)] at h
    exact ((e.extends_nodes _).trans_length hext le_rfl).close h nofun
  | switch e f choices ih =>
    rw [Derivation.run, run_header] at h
    obtain ⟨s₁, hflush, hs₁⟩ := shiftFlush_eq f (firstToken choices.yield none)
      ((s.header .keywordSwitch e).shifted .braceOpen)
    rw [parserM_bind_of (shift_eq _ _), parserM_bind_of hflush] at h
    obtain ⟨p₁, s₂, hchoices, h⟩ := parserM_bind_eq_some.mp h
    obtain ⟨hext, -⟩ := ih hchoices
    rw [hs₁] at hext
    cases h
    exact ((e.extends_nodes _).trans_length hext le_rfl).own _ nofun
  | «while» e loopScope ih =>
    rw [Derivation.run, run_header] at h
    obtain ⟨p₁, s₁, hloop, h⟩ := parserM_bind_eq_some.mp h
    obtain ⟨hext, -⟩ := ih hloop
    rw [astNewNodeStatWhile_eq (e.nodeUpcastExpr_extends hext)] at h
    exact ((e.extends_nodes _).trans_length hext le_rfl).close h nofun
  | ret e =>
    rw [Derivation.run, parserM_bind_of (shift_eq _ s), parserM_bind_of (e.run_eq next _),
      astNewNodeStatRet_eq (e.nodeUpcastExpr_extends (.refl _))] at h
    cases h
    exact (e.extends_nodes _).own _ nofun
  | func name args retType body ih =>
    obtain ⟨s₁, hargs, hs₁⟩ := forM_shift_eq args.yield
      (((s.shifted .keywordFunc).shifted (.identifier name)).shifted .parenOpen)
    rw [Derivation.run, parserM_bind_of (shift_eq _ s), parserM_bind_of (shift_eq _ _),
      parserM_bind_of (shift_eq _ _), parserM_bind_of hargs] at h
    obtain ⟨p₁, s₂, hreduce, h⟩ := parserM_bind_eq_some.mp h
    obtain ⟨hext₁, -⟩ := FuncArgList.reduce_extends hreduce
    obtain ⟨s₃, hret, hs₃⟩ : ∃ s₃, (retType.forM fun t => shift (.identifier t))
        (s₂.shifted .parenClose) = some ((), s₃) ∧ s₃.nodes = s₂.nodes := by
      cases retType <;> exact ⟨_, rfl, rfl⟩
    rw [parserM_bind_of (shift_eq _ s₂), parserM_bind_of hret] at h
    obtain ⟨p₂, s₄, hbody, h⟩ := parserM_bind_eq_some.mp h
    obtain ⟨hext₂, -⟩ := ih hbody
    rw [hs₃] at hext₂
    rw [hs₁] at hext₁
    cases h
    have hext := hext₁.trans_length hext₂ le_rfl
    exact ⟨hext.trans_length (.append _ rfl le_rfl) le_rfl, nofun, nofun⟩
  | flush stat f ih =>
    obtain ⟨p₁, s₁, hstat, h⟩ := parserM_bind_eq_some.mp h
    obtain ⟨hext, hle, -⟩ := ih hstat
    cases h
    exact ⟨hext, hle, nofun⟩
  | firstChoice value body ih =>
    obtain ⟨s₁, htokens, hs₁⟩ := forM_shift_eq (choiceYield value) s
    obtain ⟨p₁, hlabel⟩ := reduceLabel_eq value s₁
    rw [Derivation.run, parserM_bind_of htokens, parserM_bind_of hlabel] at h
    obtain ⟨p₂, s₂, hbody, h⟩ := parserM_bind_eq_some.mp h
    obtain ⟨hext, -⟩ := ih hbody
    rw [ParserState.push_nodes, hs₁] at hext
    cases h
    exact ((Extends.append _ rfl le_rfl).trans_length hext le_rfl).own _ nofun
  | nextChoice choices value body ihchoices ih =>
    obtain ⟨p₁, s₁, hchoices, h⟩ := parserM_bind_eq_some.mp h
    obtain ⟨hext₁, hle, -⟩ := ihchoices hchoices
    obtain ⟨s₂, htokens, hs₂⟩ := forM_shift_eq (choiceYield value) s₁
    obtain ⟨p₂, hlabel⟩ := reduceLabel_eq value s₂
    rw [parserM_bind_of htokens, parserM_bind_of hlabel] at h
    obtain ⟨p₃, s₃, hbody, h⟩ := parserM_bind_eq_some.mp h
    obtain ⟨hext₂, -⟩ := ih hbody
    rw [ParserState.push_nodes, hs₂] at hext₂
    have hext := hext₁.trans_length ((Extends.append _ rfl le_rfl).trans_length hext₂ le_rfl) le_rfl
    have hnot : Nonterminal.switchSelectionBlock ≠ .statements := nofun
    obtain ⟨hown, -⟩ := hext.own (.statSwitchChoice p₂ p₃ none) hnot
    cases p₁ with
    | none =>
      cases h
      exact ⟨hown, nofun, nofun⟩
    | some i =>
      cases h
      refine ⟨⟨by rw [List.length_modify, hown.length]; rfl, ?_⟩, hle, nofun⟩
      -- the first choice, which is written to, is not below the first new node
      intro k hk
      have hi := hle i rfl
      rw [List.getElem?_modify_ne _ _ (by omega), hown.frame k hk]

end PhantomShell
