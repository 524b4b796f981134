import PhantomShell.Parser.ChainTheorems

/-!
# The layout of a derivation

The nodes that the reductions of a derivation make, in the order in which they are made, as a function
of the derivation and of the number of nodes before. A statement in a list is made first and linked
later, so that its own node depends on the link. `Runs.laid` is the connection to the actions: a run
without an `elif` adds exactly these nodes.
-/

namespace PhantomShell

deriving instance DecidableEq for Nonterminal

/-! ## Links -/

/-- The node of a statement, which has not been linked or has got this `next`. -/
def AstNode.linked (link : Option Ptr) (node : AstNode) : AstNode :=
  link.elim node fun next => node.setNext next

/-- The node of a choice, likewise. -/
def AstNode.linkedChoice (link : Option Ptr) (node : AstNode) : AstNode :=
  link.elim node fun next => node.setNextChoice next

/-- The later link counts. -/
lemma AstNode.setNext_linked (link : Option Ptr) (next : Ptr) (node : AstNode) :
    (node.linked link).setNext next = node.linked (some next) := by
  cases link with
  | none => rfl
  | some next' => cases node <;> rfl

lemma AstNode.setNextChoice_linkedChoice (link : Option Ptr) (next : Ptr) (node : AstNode) :
    (node.linkedChoice link).setNextChoice next = node.linkedChoice (some next) := by
  cases link with
  | none => rfl
  | some next' => cases node <;> rfl

/-! ## Parameters -/

/-- The first parameter, when there are `n` nodes before. -/
def FuncArgList.firstDecl : FuncArgList → ℕ → Ptr
  | .empty, _ => none
  | .first _ _, n => some n
  | .next list _ _, n => list.firstDecl n

/-- The last parameter. -/
def FuncArgList.lastDecl : FuncArgList → ℕ → Ptr
  | .empty, _ => none
  | .first _ _, n => some n
  | .next list _ _, n => some (n + list.size)

/-- The node of the list, which is made behind the first parameter. -/
def FuncArgList.own : FuncArgList → ℕ → ℕ
  | .empty, n => n
  | .first _ _, n => n + 1
  | .next list _ _, n => list.own n

/-- The nodes of parameters: `behind` is the `next` of the last one, and `last` that one in the end. -/
def FuncArgList.nodes : FuncArgList → ℕ → Ptr → Ptr → List AstNode
  | .empty, _, _, last => [.funcArgList none last]
  | .first varType varName, n, behind, last =>
    [.declVar varType varName behind, .funcArgList (some n) last]
  | .next list varType varName, n, behind, last =>
    list.nodes n (some (n + list.size)) last ++ [.declVar varType varName behind]

/-- The nodes of a whole list. -/
def FuncArgList.made (args : FuncArgList) (n : ℕ) : List AstNode :=
  args.nodes n none (args.lastDecl n)

/-! ## Statements -/

/-- The number of statements in a list. -/
def Derivation.count : Derivation .statements → ℕ
  | .empty => 0
  | .link stats _ => stats.count + 1

/-- The first statement of a list, whose own node is the first one when there are `n` before. -/
def Derivation.firstStat : Derivation .statements → ℕ → Ptr
  | .empty, _ => none
  | .link stats stat, n => (stats.firstStat n).or (some (stat.last (n + stats.size)))

/-- The last one. -/
def Derivation.lastStat : Derivation .statements → ℕ → Ptr
  | .empty, _ => none
  | .link stats stat, n => some (stat.last (n + stats.size))

/-- The first choice, which stands for all of them. -/
def Derivation.firstChoiceNode : Derivation .switchSelectionBlock → ℕ → ℕ
  | .firstChoice value body, n => n + ((labelNodes value).length + body.size)
  | .nextChoice choices _ _, n => choices.firstChoiceNode n

/-- The label of a choice. -/
def labelPtr (value : Option ConstantExpression) (n : ℕ) : Ptr := value.map fun _ => n

/-- The nodes of a derivation when there are `n` nodes before. The own node of a statement is linked,
and so are the last statement of a list and the first one of the choices; the own node of a list is
made with its scope. -/
def Derivation.nodes : {symbol : Nonterminal} → Derivation symbol → ℕ → Option Ptr → List AstNode
  | _, .scope _ stats, n, q =>
    .statList stats.count (stats.firstStat n) (stats.lastStat n) ::
      (stats.nodes n (some none) ++ [AstNode.linked q (.scope (some n))])
  | _, .empty, _, _ => []
  | _, .link stats stat, n, q =>
    stats.nodes n (some (some (stat.last (n + stats.size)))) ++ stat.nodes (n + stats.size) q
  | _, .expression e _, n, q =>
    e.nodes n ++ [AstNode.linked q (.statExpr none (e.cast (n + e.own)))]
  | _, .block body, n, q => body.nodes n q
  | _, .ifThen e trueScope, n, q | _, .elifThen e trueScope, n, q =>
    e.nodes n ++ (trueScope.nodes (n + e.size) none ++ [AstNode.linked q
      (.statIf none (e.cast (n + e.own)) (some (trueScope.last (n + e.size))) none)])
  | _, .ifElse e trueScope falseScope, n, q | _, .elifElse e trueScope falseScope, n, q =>
    e.nodes n ++ (trueScope.nodes (n + e.size) none ++
      (falseScope.nodes (n + e.size + trueScope.size) none ++ [AstNode.linked q
        (.statIf none (e.cast (n + e.own)) (some (trueScope.last (n + e.size)))
          (some (falseScope.last (n + e.size + trueScope.size))))]))
  | _, .ifElif e trueScope elifs, n, q | _, .elifElif e trueScope elifs, n, q =>
    e.nodes n ++ (trueScope.nodes (n + e.size) none ++
      (elifs.nodes (n + e.size + trueScope.size) none ++ [AstNode.linked q
        (.statIf none (e.cast (n + e.own)) (some (trueScope.last (n + e.size)))
          (some (elifs.last (n + e.size + trueScope.size))))]))
  | _, .switch e _ choices, n, q =>
    e.nodes n ++ (choices.nodes (n + e.size) none ++ [AstNode.linked q
      (.statSwitch none (some (n + e.own)) (some (choices.firstChoiceNode (n + e.size))))])
  | _, .while e loopScope, n, q =>
    e.nodes n ++ (loopScope.nodes (n + e.size) none ++ [AstNode.linked q
      (.statWhile none (e.cast (n + e.own)) (some (loopScope.last (n + e.size))))])
  | _, .ret e, n, q => e.nodes n ++ [AstNode.linked q (.statRet none (e.cast (n + e.own)))]
  | _, .func name args retType body, n, q =>
    args.made n ++ (body.nodes (n + args.size) none ++ [AstNode.linked q
      (.declFunc name retType (some (args.own n)) (some (body.last (n + args.size))))])
  | _, .flush stat _, n, q => stat.nodes n q
  | _, .firstChoice value body, n, q =>
    labelNodes value ++ (body.nodes (n + (labelNodes value).length) none ++
      [AstNode.linkedChoice q (.statSwitchChoice (labelPtr value n)
        (some (body.last (n + (labelNodes value).length))) none)])
  | _, .nextChoice choices value body, n, q =>
    let m := n + choices.size
    choices.nodes n (some (q.getD (some (m + ((labelNodes value).length + body.size))))) ++
      (labelNodes value ++ (body.nodes (m + (labelNodes value).length) none ++
        [.statSwitchChoice (labelPtr value m)
          (some (body.last (m + (labelNodes value).length))) none]))

/-- The nodes that a run makes: a list has its own node in front. -/
def Derivation.made : {symbol : Nonterminal} → Derivation symbol → ℕ → List AstNode
  | .statements, stats, n =>
    .statList stats.count (stats.firstStat n) (stats.lastStat n) :: stats.nodes n (some none)
  | _, d, n => d.nodes n none

/-- Where the pointer leads that a run gives, unless it is null. -/
def Derivation.pointer : {symbol : Nonterminal} → Derivation symbol → ℕ → ℕ
  | .statements, _, n => n
  | .switchSelectionBlock, choices, n => choices.firstChoiceNode n
  | _, d, n => d.last n

/-- A block behind an `elif` is an if statement that may be compiled on its own. -/
def Derivation.WithoutElif : {symbol : Nonterminal} → Derivation symbol → Prop
  | _, .scope _ stats => stats.WithoutElif
  | _, .link stats stat => stats.WithoutElif ∧ stat.WithoutElif
  | _, .block body => body.WithoutElif
  | _, .ifThen _ trueScope => trueScope.WithoutElif
  | _, .ifElse _ trueScope falseScope => trueScope.WithoutElif ∧ falseScope.WithoutElif
  | _, .switch _ _ choices => choices.WithoutElif
  | _, .while _ loopScope => loopScope.WithoutElif
  | _, .func _ _ _ body => body.WithoutElif
  | _, .flush stat _ => stat.WithoutElif
  | _, .firstChoice _ body => body.WithoutElif
  | _, .nextChoice choices _ body => choices.WithoutElif ∧ body.WithoutElif
  | _, .empty | _, .expression _ _ | _, .ret _ => True
  | _, .ifElif _ _ _ | _, .elifThen _ _ | _, .elifElif _ _ _ | _, .elifElse _ _ _ => False

/-! ## Sizes -/

/-- A list is one node longer than its statements. -/
def Derivation.extra : Nonterminal → ℕ
  | .statements => 1
  | .scope | .statement | .switchSelectionBlock | .elifSelectionBlock => 0

lemma FuncArgList.length_nodes (args : FuncArgList) (n : ℕ) (behind last : Ptr) :
    (args.nodes n behind last).length = args.size := by
  induction args generalizing behind with
  | empty => rfl
  | first varType varName => rfl
  | next list varType varName ih => simp [FuncArgList.nodes, FuncArgList.size, ih]

lemma Derivation.length_nodes {symbol : Nonterminal} (d : Derivation symbol) (n : ℕ)
    (q : Option Ptr) : (d.nodes n q).length + Derivation.extra symbol = d.size := by
  induction d generalizing n q with
  | scope f stats ih =>
    have h := ih n (some none)
    simp only [Derivation.nodes, Derivation.size, Derivation.extra, List.length_cons, List.length_append,
      List.length_nil] at h ⊢
    omega
  | empty => rfl
  | link stats stat ih₁ ih₂ =>
    have h₁ := ih₁ n (some (some (stat.last (n + stats.size))))
    have h₂ := ih₂ (n + stats.size) q
    simp only [Derivation.nodes, Derivation.size, Derivation.extra, List.length_append] at h₁ h₂ ⊢
    omega
  | expression e f =>
    simp [Derivation.nodes, Derivation.size, Derivation.extra, e.length_nodes, Expression.size]
  | block body ih => exact ih n q
  | ifThen e trueScope ih | elifThen e trueScope ih | «while» e trueScope ih | switch e _ trueScope ih =>
    have h := ih (n + e.size) none
    simp only [Derivation.nodes, Derivation.size, Derivation.extra, List.length_append, e.length_nodes,
      List.length_cons, List.length_nil, Expression.size] at h ⊢
    omega
  | ifElse e trueScope falseScope ih₁ ih₂ | elifElse e trueScope falseScope ih₁ ih₂
  | ifElif e trueScope falseScope ih₁ ih₂ | elifElif e trueScope falseScope ih₁ ih₂ =>
    have h₁ := ih₁ (n + e.size) none
    have h₂ := ih₂ (n + e.size + trueScope.size) none
    simp only [Derivation.nodes, Derivation.size, Derivation.extra, List.length_append, e.length_nodes,
      List.length_cons, List.length_nil, Expression.size] at h₁ h₂ ⊢
    omega
  | ret e => simp [Derivation.nodes, Derivation.size, Derivation.extra, e.length_nodes, Expression.size]
  | func name args retType body ih =>
    have h := ih (n + args.size) none
    simp only [Derivation.nodes, Derivation.size, Derivation.extra, List.length_append,
      FuncArgList.made, args.length_nodes, List.length_cons, List.length_nil] at h ⊢
    omega
  | flush stat f ih => exact ih n q
  | firstChoice value body ih =>
    have h := ih (n + (labelNodes value).length) none
    simp only [Derivation.nodes, Derivation.size, Derivation.extra, List.length_append,
      List.length_cons, List.length_nil] at h ⊢
    omega
  | nextChoice choices value body ih₁ ih₂ =>
    have h₁ := ih₁ n (some (q.getD
      (some (n + choices.size + ((labelNodes value).length + body.size)))))
    have h₂ := ih₂ (n + choices.size + (labelNodes value).length) none
    simp only [Derivation.nodes, Derivation.size, Derivation.extra, List.length_append,
      List.length_cons, List.length_nil] at h₁ h₂ ⊢
    omega

/-! ## The node that is linked -/

/-- The own node is the last one, and only it knows the link. -/
lemma Derivation.nodes_eq_concat {symbol : Nonterminal} (d : Derivation symbol)
    (hlist : symbol ≠ .statements) (hchoices : symbol ≠ .switchSelectionBlock) (n : ℕ) :
    ∃ l node, l.length + 1 = d.size ∧ ∀ q, d.nodes n q = l ++ [AstNode.linked q node] := by
  have hlength : ∀ {l node}, (∀ q, d.nodes n q = l ++ [AstNode.linked q node]) → l.length + 1 = d.size := by
    intro l node hnodes
    have h := d.length_nodes n none
    rw [hnodes, List.length_append] at h
    have hextra : Derivation.extra symbol = 0 := by cases symbol <;> first | rfl | exact absurd rfl hlist
    rw [← h, hextra]
    rfl
  suffices h : ∃ l node, ∀ q, d.nodes n q = l ++ [AstNode.linked q node] by
    obtain ⟨l, node, hnodes⟩ := h
    exact ⟨l, node, hlength hnodes, hnodes⟩
  clear hlength
  induction d with
  | scope f stats => exact ⟨_ :: stats.nodes n (some none), _, fun _ => rfl⟩
  | empty | link => exact absurd rfl hlist
  | firstChoice | nextChoice => exact absurd rfl hchoices
  | expression e f => exact ⟨_, _, fun _ => rfl⟩
  | ret e => exact ⟨_, _, fun _ => rfl⟩
  | block body ih => exact ih (by decide) (by decide)
  | flush stat f ih => exact ih (by decide) (by decide)
  | ifThen e trueScope | elifThen e trueScope | «while» e trueScope | switch e _ trueScope =>
    exact ⟨_, _, fun _ => (List.append_assoc ..).symm⟩
  | ifElse e trueScope falseScope | elifElse e trueScope falseScope
  | ifElif e trueScope falseScope | elifElif e trueScope falseScope =>
    refine ⟨e.nodes n ++ (trueScope.nodes (n + e.size) none ++
      falseScope.nodes (n + e.size + trueScope.size) none),
      .statIf none (e.cast (n + e.own)) (some (trueScope.last (n + e.size)))
        (some (falseScope.last (n + e.size + trueScope.size))), fun _ => ?_⟩
    rw [List.append_assoc, List.append_assoc]
    rfl
  | func name args retType body => exact ⟨_, _, fun _ => (List.append_assoc ..).symm⟩

/-- In a list it is that of the last statement. -/
lemma Derivation.nodes_eq_lastStat : ∀ {stats : Derivation .statements} {n l : ℕ},
    stats.lastStat n = some l → ∃ a node, l = n + 1 + a.length ∧
      ∀ q, stats.nodes n q = a ++ [AstNode.linked q node]
  | .empty, n, l, h => by cases h
  | .link stats stat, n, l, h => by
    obtain ⟨b, node, hb, hnodes⟩ := stat.nodes_eq_concat (by decide) (by decide) (n + stats.size)
    have hlength := stats.length_nodes n (some (some (stat.last (n + stats.size))))
    obtain rfl : stat.last (n + stats.size) = l := Option.some.inj h
    refine ⟨stats.nodes n (some (some (stat.last (n + stats.size)))) ++ b, node, ?_, ?_⟩
    · have hlast : stat.last (n + stats.size) = n + stats.size + (stat.size - 1) := rfl
      rw [Derivation.extra] at hlength
      rw [List.length_append]
      omega
    · intro q
      rw [Derivation.nodes, hnodes, List.append_assoc]

/-- Among the choices it is the first one. -/
lemma Derivation.nodes_eq_firstChoice : ∀ (choices : Derivation .switchSelectionBlock) (n : ℕ),
    ∃ a node b, choices.firstChoiceNode n = n + a.length ∧
      ∀ q, choices.nodes n q = a ++ AstNode.linkedChoice q node :: b
  | .firstChoice value body, n => by
    refine ⟨labelNodes value ++ body.nodes (n + (labelNodes value).length) none,
      .statSwitchChoice (labelPtr value n) (some (body.last (n + (labelNodes value).length))) none, [],
      ?_, fun q => ?_⟩
    · have hlength := body.length_nodes (n + (labelNodes value).length) none
      rw [Derivation.extra] at hlength
      rw [Derivation.firstChoiceNode, List.length_append]
      omega
    · rw [Derivation.nodes, List.append_assoc]
  | .nextChoice choices value body, n => by
    obtain ⟨a, node, b, hfirst, hnodes⟩ := choices.nodes_eq_firstChoice n
    let m := n + choices.size
    refine ⟨a, AstNode.linkedChoice (some (some (m + ((labelNodes value).length + body.size)))) node,
      b ++ (labelNodes value ++ (body.nodes (m + (labelNodes value).length) none ++
        [.statSwitchChoice (labelPtr value m) (some (body.last (m + (labelNodes value).length))) none])),
      ?_, fun q => ?_⟩
    · rw [Derivation.firstChoiceNode, hfirst]
    · rw [Derivation.nodes, hnodes, List.append_assoc, List.cons_append]
      cases q with
      | none => rfl
      | some q =>
        show _ = a ++ AstNode.setNextChoice q _ :: _
        rw [AstNode.setNextChoice_linkedChoice]
        rfl

/-! ## Writes -/

lemma modify_length_append {α : Type} (l r : List α) (x : α) (f : α → α) {i : ℕ}
    (hi : i = l.length) : (l ++ x :: r).modify i f = l ++ f x :: r := by
  subst hi
  induction l with
  | nil => rfl
  | cons y l ih => exact congrArg (y :: ·) ih

/-- The first statement of the list behind `l`. -/
lemma linkNodes_first (l b : List AstNode) (list node : AstNode) {i j : ℕ} (size : ℕ) (first : Ptr)
    (hi : i = l.length) (hj : j = l.length + 1 + b.length) :
    linkNodes (l ++ list :: (b ++ [node])) i j size first none =
      l ++ .statList (size + 1) (some j) (some j) :: (b ++ [node.setNext none]) := by
  have hsplit : l ++ list :: (b ++ [node]) = (l ++ list :: b) ++ node :: [] := by simp
  have hback : (l ++ list :: b) ++ node.setNext none :: [] =
      l ++ list :: (b ++ [node.setNext none]) := by simp
  rw [linkNodes]
  simp only [Option.elim_none, Option.isNone_none, if_true]
  rw [hsplit, modify_length_append _ _ _ _ (by simp; omega), hback, modify_length_append _ _ _ _ hi]

/-- One more statement: the last one is linked to it. -/
lemma linkNodes_last (l a b : List AstNode) (list prev node : AstNode) {i j k : ℕ} (size : ℕ)
    (first : Ptr) (hi : i = l.length) (hk : k = l.length + 1 + a.length)
    (hj : j = l.length + 1 + a.length + 1 + b.length) :
    linkNodes (l ++ list :: (a ++ prev :: (b ++ [node]))) i j size first (some k) =
      l ++ .statList (size + 1) first (some j) ::
        (a ++ prev.setNext (some j) :: (b ++ [node.setNext none])) := by
  have hsplit : l ++ list :: (a ++ prev :: (b ++ [node])) =
      (l ++ list :: a) ++ prev :: (b ++ [node]) := by simp
  have hsplit' : (l ++ list :: a) ++ prev.setNext (some j) :: (b ++ [node]) =
      (l ++ list :: (a ++ prev.setNext (some j) :: b)) ++ node :: [] := by simp
  have hback : (l ++ list :: (a ++ prev.setNext (some j) :: b)) ++ node.setNext none :: [] =
      l ++ list :: (a ++ prev.setNext (some j) :: (b ++ [node.setNext none])) := by simp
  rw [linkNodes]
  simp only [Option.elim_some, Option.isNone_some, Bool.false_eq_true, if_false]
  rw [hsplit, modify_length_append _ _ _ _ (by simp; omega), hsplit',
    modify_length_append _ _ _ _ (by simp; omega), hback, modify_length_append _ _ _ _ hi]

lemma shiftFlush_nodes {f : Option Flush} {next : Option Token} {s s' : ParserState}
    (h : shiftFlush f next s = some ((), s')) : s'.nodes = s.nodes := by
  obtain ⟨s₁, h₁, hnodes⟩ := shiftFlush_eq f next s
  cases h₁.symm.trans h
  exact hnodes

lemma forM_shift_nodes {tokens : List Token} {s s' : ParserState}
    (h : tokens.forM shift s = some ((), s')) : s'.nodes = s.nodes := by
  obtain ⟨s₁, h₁, hnodes⟩ := forM_shift_eq tokens s
  cases h₁.symm.trans h
  exact hnodes

lemma reduceLabel_ptr {value : Option ConstantExpression} {s s' : ParserState} {p : Ptr}
    (h : reduceLabel value s = some (p, s')) : p = labelPtr value s.nodes.length := by
  cases value <;> cases h <;> rfl

/-! ### Parameters -/

/-- The node of the list knows the last parameter. -/
lemma FuncArgList.nodes_own (args : FuncArgList) (n : ℕ) (behind : Ptr) :
    ∃ a b, args.own n = n + a.length ∧
      ∀ last, args.nodes n behind last = a ++ .funcArgList (args.firstDecl n) last :: b := by
  induction args generalizing behind with
  | empty => exact ⟨[], [], rfl, fun _ => rfl⟩
  | first varType varName => exact ⟨[.declVar varType varName behind], [], rfl, fun _ => rfl⟩
  | next list varType varName ih =>
    obtain ⟨a, b, hown, hnodes⟩ := ih (some (n + list.size))
    refine ⟨a, b ++ [.declVar varType varName behind], hown, fun last => ?_⟩
    rw [FuncArgList.nodes, hnodes, List.append_assoc]
    rfl

/-- The last parameter knows what is behind. -/
lemma FuncArgList.nodes_lastDecl {args : FuncArgList} {n l : ℕ} (h : args.lastDecl n = some l)
    (last : Ptr) : ∃ a varType varName b, l = n + a.length ∧
      ∀ behind, args.nodes n behind last = a ++ .declVar varType varName behind :: b := by
  cases args with
  | empty => cases h
  | first varType varName =>
    cases h
    exact ⟨[], varType, varName, [.funcArgList (some n) last], rfl, fun _ => rfl⟩
  | next list varType varName =>
    cases h
    refine ⟨list.nodes n (some (n + list.size)) last, varType, varName, [], ?_, fun _ => rfl⟩
    rw [list.length_nodes]

/-- One more parameter. -/
lemma linkDecls_nodes {list : FuncArgList} {nodes : List AstNode} {l : ℕ} (node : AstNode)
    (h : list.lastDecl nodes.length = some l) (j : ℕ) :
    linkDecls (nodes ++ (list.made nodes.length ++ [node])) (list.own nodes.length) j l
        (list.firstDecl nodes.length) =
      nodes ++ (list.nodes nodes.length (some j) (some j) ++ [node]) := by
  obtain ⟨a, varType, varName, b, rfl, hlast⟩ := FuncArgList.nodes_lastDecl h (some l)
  obtain ⟨a', b', hi, hown⟩ := list.nodes_own nodes.length (some j)
  have hfirst : nodes ++ (list.made nodes.length ++ [node]) =
      (nodes ++ a) ++ .declVar varType varName none :: (b ++ [node]) := by
    rw [FuncArgList.made, h, hlast]
    simp
  have hsecond : (nodes ++ a) ++ .declVar varType varName (some j) :: (b ++ [node]) =
      (nodes ++ a') ++ .funcArgList (list.firstDecl nodes.length) (some (nodes.length + a.length)) ::
        (b' ++ [node]) := by
    have hnodes := (hlast (some j)).symm.trans (hown (some (nodes.length + a.length)))
    simpa using congrArg (fun l => nodes ++ (l ++ [node])) hnodes
  rw [linkDecls, hfirst, modify_length_append _ _ _ _ (by rw [List.length_append]), AstNode.setNextDecl,
    hsecond, modify_length_append _ _ _ _ (by rw [List.length_append, hi]), hown]
  simp

/-- The reductions of parameters make these nodes. -/
lemma FuncArgList.reduce_nodes {args : FuncArgList} {s s' : ParserState} {p : Ptr}
    (h : args.reduce s = some (p, s')) :
    s'.nodes = s.nodes ++ args.made s.nodes.length ∧ p = some (args.own s.nodes.length) := by
  induction args generalizing s' p with
  | empty =>
    cases h
    exact ⟨rfl, rfl⟩
  | first varType varName =>
    cases h
    constructor
    · show (s.nodes ++ [_]) ++ [_] = _
      rw [List.append_assoc]
      rfl
    · show some (s.nodes ++ [_]).length = _
      rw [List.length_append]
      rfl
  | next list varType varName ih =>
    obtain ⟨p₁, s₁, hlist, -⟩ := parserM_bind_eq_some.mp h
    obtain ⟨hnodes, rfl⟩ := ih hlist
    obtain ⟨a, b, hown, hmade⟩ := list.nodes_own s.nodes.length none
    have hi : s₁.nodes[list.own s.nodes.length]? =
        some (.funcArgList (list.firstDecl s.nodes.length) (list.lastDecl s.nodes.length)) := by
      rw [hnodes, FuncArgList.made, hmade, hown, List.getElem?_append_right (by omega)]
      simp
    have hlength : s₁.nodes.length = s.nodes.length + list.size := by
      rw [hnodes, List.length_append, FuncArgList.made, list.length_nodes]
    obtain ⟨l, hlast, rfl, rfl⟩ := FuncArgList.reduce_next hlist hi h
    refine ⟨?_, rfl⟩
    show linkDecls _ _ _ _ _ = _
    rw [hlength, hnodes, List.append_assoc, linkDecls_nodes _ hlast]
    rfl

/-! ## Runs -/

/-- A run adds these nodes, and its pointer leads to the own one. -/
structure LaidOut {symbol : Nonterminal} (d : Derivation symbol) (s : ParserState) (p : Ptr)
    (s' : ParserState) : Prop where
  nodes : s'.nodes = s.nodes ++ d.made s.nodes.length
  pointer : ∀ i ∈ p, i = d.pointer s.nodes.length

/-- The own node is made last. -/
lemma LaidOut.of_own {symbol : Nonterminal} {d : Derivation symbol} {s s₁ s' : ParserState} {p : Ptr}
    (hlist : symbol ≠ .statements) (hchoices : symbol ≠ .switchSelectionBlock) {node : AstNode}
    (hnodes : s'.nodes = s₁.nodes ++ [node]) (hp : ∀ i ∈ p, i = s₁.nodes.length)
    (h : s₁.nodes ++ [node] = s.nodes ++ d.nodes s.nodes.length none) : LaidOut d s p s' := by
  obtain ⟨l, own, hsize, hown⟩ := d.nodes_eq_concat hlist hchoices s.nodes.length
  have hlength := congrArg List.length h
  rw [hown] at hlength
  simp only [List.length_append, List.length_singleton] at hlength
  have hlast : d.last s.nodes.length = s.nodes.length + (d.size - 1) := rfl
  cases symbol with
  | statements => exact absurd rfl hlist
  | switchSelectionBlock => exact absurd rfl hchoices
  | scope | statement | elifSelectionBlock =>
    refine ⟨hnodes.trans h, fun i hi => ?_⟩
    have hi := hp i hi
    show i = d.last s.nodes.length
    omega

/-- A statement that may be compiled. -/
lemma LaidOut.of_close {symbol : Nonterminal} {d : Derivation symbol} {s s₁ s' : ParserState} {p : Ptr}
    (hlist : symbol ≠ .statements) (hchoices : symbol ≠ .switchSelectionBlock) {node : AstNode} {a b : ℤ}
    (hclose : s₁.close node a b = (p, s'))
    (h : s₁.nodes ++ [node] = s.nodes ++ d.nodes s.nodes.length none) : LaidOut d s p s' := by
  obtain ⟨hnodes, hp⟩ := s₁.close_eq_some (congrArg some hclose)
  exact .of_own hlist hchoices hnodes hp h

lemma Runs.scope_ptr {body : Derivation .scope} {next : Option Token} {s s' : ParserState} {p : Ptr}
    (h : Runs body next s p s') (hlaid : LaidOut body s p s') : p = some (body.last s.nodes.length) := by
  cases h with
  | scope hflush hstats => rw [hlaid.pointer _ rfl]; rfl

lemma ParserState.length_header (s : ParserState) (keyword : Token) (e : Expression) :
    (s.header keyword e).nodes.length = s.nodes.length + e.size := (e.extends_nodes _).length

lemma ParserState.length_laid {symbol : Nonterminal} {d : Derivation symbol} {s s' : ParserState}
    {p : Ptr} (h : LaidOut d s p s') (hlist : symbol ≠ .statements) :
    s'.nodes.length = s.nodes.length + d.size := by
  have hsize := d.length_nodes s.nodes.length none
  rw [h.nodes, List.length_append]
  cases symbol with
  | statements => exact absurd rfl hlist
  | _ =>
    rw [Derivation.extra] at hsize
    exact congrArg (s.nodes.length + ·) hsize

/-- A list with a last statement has a first one. -/
lemma Derivation.firstStat_isSome {stats : Derivation .statements} {n l : ℕ}
    (h : stats.lastStat n = some l) : (stats.firstStat n).isSome := by
  cases stats with
  | empty => cases h
  | link stats stat =>
    rw [Derivation.firstStat]
    cases stats.firstStat n <;> rfl

/-- One more statement in a list. -/
lemma linkNodes_made (stats : Derivation .statements) (stat : Derivation .statement)
    (nodes : List AstNode) : linkNodes
        (nodes ++ (stats.made nodes.length ++ stat.nodes (nodes.length + stats.size) none))
        nodes.length (stat.last (nodes.length + stats.size)) stats.count (stats.firstStat nodes.length)
        (stats.lastStat nodes.length) =
      nodes ++ (Derivation.link stats stat).made nodes.length := by
  obtain ⟨b, own, hsize, hown⟩ := stat.nodes_eq_concat (by decide) (by decide) (nodes.length + stats.size)
  have hlength := stats.length_nodes nodes.length (some none)
  have hj : stat.last (nodes.length + stats.size) = nodes.length + stats.size + (stat.size - 1) := rfl
  rw [Derivation.extra] at hlength
  have hlinked : own.setNext none = own.linked (some none) := rfl
  cases hlast : stats.lastStat nodes.length with
  | none =>
    cases stats with
    | link stats prev => cases hlast
    | empty =>
      have hempty : (Derivation.empty.nodes nodes.length (some none)).length = 0 := rfl
      rw [hown]
      show linkNodes (nodes ++ AstNode.statList _ _ _ :: (b ++ [own])) _ _ _ _ none = _
      rw [linkNodes_first _ _ _ _ _ _ rfl (by omega), hlinked, ← hown]
      simp only [Derivation.made, Derivation.nodes, Derivation.count, Derivation.firstStat,
        Derivation.lastStat, Option.none_or, List.nil_append]
  | some k =>
    obtain ⟨a, prev, hk, hprev⟩ := Derivation.nodes_eq_lastStat hlast
    rw [hprev, List.length_append, List.length_singleton] at hlength
    have hmade : stats.made nodes.length ++ stat.nodes (nodes.length + stats.size) none =
        .statList stats.count (stats.firstStat nodes.length) (stats.lastStat nodes.length) ::
          (a ++ prev.linked (some none) :: (b ++ [own])) := by
      rw [Derivation.made, hprev, hown]
      simp [AstNode.linked]
    have hfirst : (Derivation.link stats stat).firstStat nodes.length =
        stats.firstStat nodes.length := by
      rw [Derivation.firstStat, Option.or_of_isSome (Derivation.firstStat_isSome hlast)]
    rw [hmade, linkNodes_last _ _ _ _ _ _ _ _ rfl hk (by omega), AstNode.setNext_linked, hlinked]
    show _ = nodes ++ AstNode.statList _ _ _ :: (stats.nodes _ _ ++ stat.nodes _ _)
    rw [hprev, hown, hfirst]
    simp [Derivation.count, Derivation.lastStat]

/-- Without an `elif` a run makes exactly these nodes. -/
theorem Runs.laid {symbol : Nonterminal} {d : Derivation symbol} {next : Option Token}
    {s s' : ParserState} {p : Ptr} (h : Runs d next s p s') (hd : d.WithoutElif) : LaidOut d s p s' := by
  induction h with
  | @scope f stats next s s₁ s₂ p hflush hstats ih =>
    have hs₁ : s₁.nodes = (s.shifted .braceOpen).nodes := shiftFlush_nodes hflush
    have hlaid := ih hd
    obtain ⟨i, rfl⟩ : ∃ i, p = some i := by cases hstats <;> exact ⟨_, rfl⟩
    have hi : i = s₁.nodes.length := hlaid.pointer i rfl
    refine .of_own (by decide) (by decide) (show _ = (s₂.shifted .braceClose).nodes ++ [_] from rfl)
      (fun i hi => ?_) ?_
    · exact (Option.some.inj hi).symm
    · show s₂.nodes ++ _ = _
      rw [hlaid.nodes, hi, hs₁, Derivation.nodes, List.append_assoc]
      rfl
  | @empty next s =>
    refine ⟨?_, fun i hi => (Option.some.inj hi).symm⟩
    simp only [ParserState.push, Derivation.made, Derivation.nodes, Derivation.count,
      Derivation.firstStat, Derivation.lastStat]
  | @link stats stat next s s₁ s₂ i j size first last hstats hi hstat ih₁ ih₂ =>
    have hlaid₁ := ih₁ hd.1
    have hlaid₂ := ih₂ hd.2
    have hsize := stats.length_nodes s.nodes.length (some none)
    obtain rfl : i = s.nodes.length := hlaid₁.pointer i rfl
    -- the node of the list is read again, as the statements before have left it
    have hmade := hlaid₁.nodes
    rw [Derivation.made] at hmade
    have hlist : s₁.nodes[s.nodes.length]? = some (.statList stats.count
        (stats.firstStat s.nodes.length) (stats.lastStat s.nodes.length)) := by
      rw [hmade]
      simp
    obtain ⟨rfl, rfl, rfl⟩ := AstNode.statList.inj (Option.some.inj (hi.symm.trans hlist))
    have hn : s₁.nodes.length = s.nodes.length + stats.size := by
      rw [Derivation.extra] at hsize
      rw [hmade, List.length_append, List.length_cons, hsize]
    obtain rfl : j = stat.last (s.nodes.length + stats.size) := hn ▸ hlaid₂.pointer j rfl
    refine ⟨?_, fun i hi => (Option.some.inj hi).symm⟩
    show linkNodes s₂.nodes _ _ _ _ _ = _
    rw [hlaid₂.nodes, hn, hlaid₁.nodes, List.append_assoc]
    exact linkNodes_made stats stat s.nodes
  | @expression e f next s s' p hclose =>
    refine .of_close (by decide) (by decide) hclose ?_
    show (s.nodes ++ _) ++ _ = _
    rw [List.append_assoc]
    rfl
  | block hbody ih =>
    obtain ⟨hnodes, hpointer⟩ := ih hd
    exact ⟨hnodes, hpointer⟩
  | @ifThen e trueScope next s s₁ s' p₁ p htrue hclose ih =>
    have hlaid := ih hd
    have hp := htrue.scope_ptr hlaid
    refine .of_close (by decide) (by decide) hclose ?_
    show s₁.nodes ++ _ = _
    rw [hlaid.nodes, hp, s.length_header, Derivation.nodes]
    show ((s.nodes ++ _) ++ _) ++ _ = _
    simp only [List.append_assoc]
    rfl
  | @ifElse e trueScope falseScope next s s₁ s₂ s' p₁ p₂ p htrue hfalse hclose ih₁ ih₂ =>
    have hlaid₁ := ih₁ hd.1
    have hlaid₂ := ih₂ hd.2
    have hp₁ := htrue.scope_ptr hlaid₁
    have hp₂ := hfalse.scope_ptr hlaid₂
    have hn : (s₁.shifted .keywordElse).nodes.length = s.nodes.length + e.size + trueScope.size := by
      show s₁.nodes.length = _
      rw [ParserState.length_laid hlaid₁ (by decide), s.length_header]
    refine .of_close (by decide) (by decide) hclose ?_
    rw [hlaid₂.nodes, hn, hp₁, hp₂, hn, s.length_header, Derivation.nodes]
    show (s₁.nodes ++ _) ++ _ = _
    rw [hlaid₁.nodes, s.length_header]
    show (((s.nodes ++ _) ++ _) ++ _) ++ _ = _
    simp only [List.append_assoc]
    rfl
  | @switch e f choices next s s₁ s₂ p hflush hchoices ih =>
    have hlaid := ih hd
    have hs₁ : s₁.nodes = (s.switched e).nodes := shiftFlush_nodes hflush
    have hn : s₁.nodes.length = s.nodes.length + e.size := by
      rw [hs₁]
      exact s.length_header .keywordSwitch e
    obtain ⟨i, rfl⟩ : ∃ i, p = some i := by cases hchoices <;> exact ⟨_, rfl⟩
    have hi : i = choices.firstChoiceNode (s.nodes.length + e.size) := hn ▸ hlaid.pointer i rfl
    refine .of_own (by decide) (by decide) (show _ = (s₂.shifted .braceClose).nodes ++ [_] from rfl)
      (fun i hi => (Option.some.inj hi).symm) ?_
    show s₂.nodes ++ _ = _
    rw [hlaid.nodes, hn, hi, hs₁, Derivation.nodes]
    show ((s.nodes ++ _) ++ _) ++ _ = _
    simp only [List.append_assoc]
    rfl
  | @«while» e loopScope next s s₁ s' p₁ p hloop hclose ih =>
    have hlaid := ih hd
    have hp := hloop.scope_ptr hlaid
    refine .of_close (by decide) (by decide) hclose ?_
    rw [hlaid.nodes, hp, s.length_header, Derivation.nodes]
    show ((s.nodes ++ _) ++ _) ++ _ = _
    simp only [List.append_assoc]
    rfl
  | @ret e next s =>
    refine .of_own (by decide) (by decide) (show _ = (s.returned e next).nodes ++ [_] from rfl)
      (fun i hi => (Option.some.inj hi).symm) ?_
    show (s.nodes ++ _) ++ _ = _
    rw [List.append_assoc]
    rfl
  | @func name args retType body next s s₁ s₂ s₃ s₄ p₁ p₂ hargs hreduce hret hbody ih =>
    -- names are shifted first, and only then the nodes of the parameters are made
    have hs₁ : s₁.nodes = (s.named name).nodes := forM_shift_nodes hargs
    obtain ⟨hs₂, rfl⟩ := FuncArgList.reduce_nodes hreduce
    have hs₃ : s₃.nodes = s₂.nodes := by cases retType <;> cases hret <;> rfl
    have hlaid := ih hd
    have hn : s₃.nodes.length = s.nodes.length + args.size := by
      rw [hs₃, hs₂, List.length_append, FuncArgList.made, args.length_nodes, hs₁]
      rfl
    refine .of_own (by decide) (by decide) (show _ = s₄.nodes ++ [_] from rfl) (fun i hi => by cases hi) ?_
    rw [hlaid.nodes, hbody.scope_ptr hlaid, hn, hs₃, hs₂, hs₁, Derivation.nodes]
    simp only [List.append_assoc]
    rfl
  | flush hstat ih =>
    obtain ⟨hnodes, hpointer⟩ := ih hd
    exact ⟨hnodes, hpointer⟩
  | @firstChoice value body next s s₁ s₂ p₁ p₂ htokens hlabel hbody ih =>
    have hs₁ : s₁.nodes = s.nodes := forM_shift_nodes htokens
    have hp₁ := reduceLabel_ptr hlabel
    have hlaid := ih hd
    have hn : (s₁.push (labelNodes value)).nodes.length =
        s.nodes.length + (labelNodes value).length := by
      rw [ParserState.push_nodes, List.length_append, hs₁]
    refine ⟨?_, fun i hi => ?_⟩
    · show s₂.nodes ++ _ = s.nodes ++ Derivation.nodes (.firstChoice value body) _ none
      rw [hlaid.nodes, hbody.scope_ptr hlaid, hn, hp₁, Derivation.nodes, ParserState.push_nodes, hs₁]
      simp only [List.append_assoc]
      rfl
    · obtain rfl := Option.some.inj hi
      show _ = Derivation.firstChoiceNode _ _
      rw [ParserState.length_laid hlaid (by decide), hn, Derivation.firstChoiceNode, Nat.add_assoc]
  | @nextChoice choices value body next s s₁ s₂ s₃ i p₁ p₂ hchoices htokens hlabel hbody ih₁ ih₂ =>
    have hlaid₁ := ih₁ hd.1
    have hlaid₂ := ih₂ hd.2
    obtain ⟨a, own, b, hfirst, hnodes⟩ := choices.nodes_eq_firstChoice s.nodes.length
    obtain rfl : i = choices.firstChoiceNode s.nodes.length := hlaid₁.pointer i rfl
    have hs₂ : s₂.nodes = s₁.nodes := forM_shift_nodes htokens
    have hp₁ := reduceLabel_ptr hlabel
    have hn₁ : s₁.nodes.length = s.nodes.length + choices.size := ParserState.length_laid hlaid₁ (by decide)
    have hn : (s₂.push (labelNodes value)).nodes.length =
        s.nodes.length + choices.size + (labelNodes value).length := by
      rw [ParserState.push_nodes, List.length_append, hs₂, hn₁]
    have hlength : s₃.nodes.length =
        s.nodes.length + choices.size + ((labelNodes value).length + body.size) := by
      rw [ParserState.length_laid hlaid₂ (by decide), hn, Nat.add_assoc]
    have hmade₁ : s₁.nodes = s.nodes ++ choices.nodes s.nodes.length none := hlaid₁.nodes
    have hmade₂ : s₃.nodes = s₁.nodes ++ (labelNodes value ++
        body.nodes (s.nodes.length + choices.size + (labelNodes value).length) none) := by
      rw [hlaid₂.nodes, hn, ParserState.push_nodes, hs₂, List.append_assoc]
      rfl
    -- the first choice is written to once more, at its place between the nodes
    have hsplit : s₃.nodes ++ [AstNode.statSwitchChoice p₁ p₂ none] = (s.nodes ++ a) ++
        own :: (b ++ (labelNodes value ++
          (body.nodes (s.nodes.length + choices.size + (labelNodes value).length) none ++
            [AstNode.statSwitchChoice p₁ p₂ none]))) := by
      rw [hmade₂, hmade₁, hnodes]
      simp [AstNode.linkedChoice]
    constructor
    · show (s₃.nodes ++ _).modify _ _ = s.nodes ++ Derivation.nodes (.nextChoice choices value body) _ none
      rw [hsplit, modify_length_append _ _ _ _ (by rw [hfirst, List.length_append]), hlength,
        Derivation.nodes, hnodes, hp₁, hbody.scope_ptr hlaid₂, hn, hs₂, hn₁]
      simp [AstNode.linkedChoice]
    · intro i hi
      show i = Derivation.firstChoiceNode _ _
      rw [Derivation.firstChoiceNode]
      exact (Option.some.inj hi).symm
  | ifElif | elifThen | elifElif | elifElse => exact hd.elim

end PhantomShell
