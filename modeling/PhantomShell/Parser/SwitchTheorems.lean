import PhantomShell.Parser.Nodes

/-!
# The choices of a switch

`switchSelectionBlock` carries its first choice from reduction to reduction, and every further choice
is written to the `next` of that one.
-/

namespace PhantomShell

/-- The loop of `ast_free_node_stat_switch`: these choices are reached through `next`. -/
inductive ChoiceList (nodes : List AstNode) : Ptr → List ℕ → Prop
  | nil : ChoiceList nodes none []
  | cons {i : ℕ} {expr scope next : Ptr} {rest : List ℕ}
      (h : nodes[i]? = some (.statSwitchChoice expr scope next)) (htail : ChoiceList nodes next rest) :
      ChoiceList nodes (some i) (i :: rest)

/-- The number of choices. -/
def Derivation.choiceCount : Derivation .switchSelectionBlock → ℕ
  | .firstChoice _ _ => 1
  | .nextChoice choices _ _ => choices.choiceCount + 1

/-- The labels of the choices, in source order. -/
def Derivation.labels : Derivation .switchSelectionBlock → List (Option ConstantExpression)
  | .firstChoice value _ => [value]
  | .nextChoice choices value _ => choices.labels ++ [value]

/-- The nodes that the reductions of the choices make, in source order, when there are `n` nodes
before. Each is made behind the nodes of its label and its scope. -/
def Derivation.choiceNodes : Derivation .switchSelectionBlock → ℕ → List ℕ
  | .firstChoice value body, n => [n + ((labelNodes value).length + body.size)]
  | .nextChoice choices value body, n =>
    choices.choiceNodes n ++ [n + (choices.size + ((labelNodes value).length + body.size))]

lemma ChoiceList.unique {nodes : List AstNode} {p : Ptr} {l l' : List ℕ}
    (h : ChoiceList nodes p l) (h' : ChoiceList nodes p l') : l = l' := by
  induction h generalizing l' with
  | nil =>
    cases h'
    rfl
  | cons hi _ ih =>
    cases h' with
    | cons hi' htail =>
      cases Option.some.inj (hi.symm.trans hi')
      rw [ih htail]

lemma Derivation.length_choiceNodes : ∀ (choices : Derivation .switchSelectionBlock) (n : ℕ),
    (choices.choiceNodes n).length = choices.choiceCount
  | .firstChoice _ _, _ => by rw [Derivation.choiceNodes, Derivation.choiceCount]; rfl
  | .nextChoice choices _ _, n => by
    rw [Derivation.choiceNodes, Derivation.choiceCount, List.length_append,
      choices.length_choiceNodes n]
    rfl

/-- The pointer leads to the label, and is null for `OTHER`. -/
inductive IsLabel (nodes : List AstNode) : Option ConstantExpression → Ptr → Prop
  | other : IsLabel nodes none none
  | case {value : ConstantExpression} {j : ℕ} (h : nodes[j]? = some (.literal value)) :
      IsLabel nodes (some value) (some j)

/-- The node of a choice with this label, and what its `next` is. -/
def IsChoice (nodes : List AstNode) (next : Ptr) (value : Option ConstantExpression) (i : ℕ) : Prop :=
  ∃ expr scope, nodes[i]? = some (.statSwitchChoice expr scope next) ∧ IsLabel nodes value expr

/-- These nodes have these labels. -/
def AreChoices (nodes : List AstNode) (labels : List (Option ConstantExpression))
    (choices : List ℕ) : Prop :=
  List.Forall₂ (fun value i => ∃ next, IsChoice nodes next value i) labels choices

/-! ## One more choice -/

lemma IsLabel.mono {nodes nodes' : List AstNode} {value : Option ConstantExpression} {expr : Ptr}
    (h : IsLabel nodes value expr)
    (hget : ∀ (j : ℕ) (c : ConstantExpression), nodes[j]? = some (.literal c) →
      nodes'[j]? = some (.literal c)) : IsLabel nodes' value expr := by
  cases h with
  | other => exact .other
  | case hj => exact .case (hget _ _ hj)

/-- More nodes have been made. -/
lemma IsChoice.extends {n i : ℕ} {nodes nodes' : List AstNode} {next : Ptr}
    {value : Option ConstantExpression} (h : IsChoice nodes next value i)
    (hext : Extends nodes.length n nodes nodes') : IsChoice nodes' next value i := by
  obtain ⟨expr, scope, hi, hlabel⟩ := h
  exact ⟨expr, scope, hext.getElem? hi, hlabel.mono fun _ _ hj => hext.getElem? hj⟩

lemma IsLabel.modify {nodes : List AstNode} {value : Option ConstantExpression} {expr : Ptr}
    (h : IsLabel nodes value expr) (i : ℕ) (next : Ptr) :
    IsLabel (nodes.modify i (.setNextChoice next)) value expr := by
  refine h.mono ?_
  intro j c hj
  rw [List.getElem?_modify, hj]
  split <;> rfl

/-- `prev_node->next = node` -/
lemma IsChoice.modify_eq {nodes : List AstNode} {value : Option ConstantExpression} {i : ℕ}
    {next : Ptr} (h : IsChoice nodes next value i) (next' : Ptr) :
    IsChoice (nodes.modify i (.setNextChoice next')) next' value i := by
  obtain ⟨expr, scope, hi, hlabel⟩ := h
  refine ⟨expr, scope, ?_, hlabel.modify i next'⟩
  rw [List.getElem?_modify_eq, hi]
  rfl

lemma IsChoice.modify_ne {nodes : List AstNode} {value : Option ConstantExpression} {i j : ℕ}
    {next : Ptr} (h : IsChoice nodes next value i) (hne : j ≠ i) (next' : Ptr) :
    IsChoice (nodes.modify j (.setNextChoice next')) next value i := by
  obtain ⟨expr, scope, hi, hlabel⟩ := h
  refine ⟨expr, scope, ?_, hlabel.modify j next'⟩
  rw [List.getElem?_modify_ne _ _ hne, hi]

/-- The first choice, whose `next` is the last one if there is another; those have no `next`. -/
inductive ChoicesBuilt (nodes : List AstNode) :
    List (Option ConstantExpression) → Ptr → List ℕ → Prop
  | mk {value : Option ConstantExpression} {labels : List (Option ConstantExpression)}
      {first : ℕ} {rest : List ℕ} (hfirst : IsChoice nodes rest.getLast? value first)
      (hrest : List.Forall₂ (fun value i => first < i ∧ IsChoice nodes none value i) labels rest) :
      ChoicesBuilt nodes (value :: labels) (some first) (first :: rest)

lemma ChoicesBuilt.extends {n : ℕ} {nodes nodes' : List AstNode} {p : Ptr} {choices : List ℕ}
    {labels : List (Option ConstantExpression)} (h : ChoicesBuilt nodes labels p choices)
    (hext : Extends nodes.length n nodes nodes') : ChoicesBuilt nodes' labels p choices := by
  obtain ⟨hfirst, hrest⟩ := h
  exact ⟨hfirst.extends hext, hrest.imp fun _ _ h => ⟨h.1, h.2.extends hext⟩⟩

lemma ChoicesBuilt.exists_first {nodes : List AstNode} {p : Ptr} {choices : List ℕ}
    {labels : List (Option ConstantExpression)} (h : ChoicesBuilt nodes labels p choices) :
    ∃ first, p = some first ∧ first < nodes.length := by
  obtain ⟨⟨expr, scope, hfirst, -⟩, -⟩ := h
  exact ⟨_, rfl, (List.getElem?_eq_some_iff.mp hfirst).1⟩

/-- The first choice forgets its `next`. -/
lemma ChoicesBuilt.next {nodes : List AstNode} {value : Option ConstantExpression} {first i : ℕ}
    {labels : List (Option ConstantExpression)} {choices : List ℕ}
    (h : ChoicesBuilt nodes labels (some first) choices) (hi : IsChoice nodes none value i)
    (hlt : first < i) : ChoicesBuilt (nodes.modify first (.setNextChoice (some i)))
      (labels ++ [value]) (some first) (choices ++ [i]) := by
  obtain ⟨hfirst, hrest⟩ := h
  rw [List.cons_append, List.cons_append]
  constructor
  · rw [List.getLast?_concat]
    exact hfirst.modify_eq _
  · refine List.rel_append (hrest.imp ?_) (.cons ⟨hlt, hi.modify_ne hlt.ne _⟩ .nil)
    rintro _ _ ⟨hlt, hi⟩
    exact ⟨hlt, hi.modify_ne hlt.ne _⟩

/-! ## A block of choices -/

lemma reduceLabel_isLabel (value : Option ConstantExpression) (s : ParserState) :
    ∃ expr, reduceLabel value s = some (expr, s.push (labelNodes value)) ∧
      IsLabel (s.push (labelNodes value)).nodes value expr := by
  cases value with
  | none =>
    refine ⟨none, ?_, .other⟩
    simp only [labelNodes, ParserState.push, Option.map_none, Option.toList_none, List.append_nil]
    rfl
  | some value => exact ⟨_, rfl, .case (by simp [labelNodes])⟩

/-- `CASE ConstantExpression Scope`, or `OTHER Scope` -/
def runChoice (value : Option ConstantExpression) (body : Derivation .scope) (next : Option Token)
    (prevChoice : Ptr) : ParserM Ptr := do
  (choiceYield value).forM shift
  let expr ← reduceLabel value
  let scope ← body.run next
  astNewNodeStatSwitchChoice expr scope prevChoice

/-- A label and a scope, and the node of the choice. -/
lemma run_choice {value : Option ConstantExpression} {body : Derivation .scope} {s s' : ParserState}
    {next : Option Token} {p prevChoice : Ptr}
    (h : runChoice value body next prevChoice s = some (p, s')) :
    ∃ nodes, Extends s.nodes.length ((labelNodes value).length + body.size + 1) s.nodes nodes ∧
      IsChoice nodes none value (s.nodes.length + ((labelNodes value).length + body.size)) ∧
      p = some (s.nodes.length + ((labelNodes value).length + body.size)) ∧
      s'.nodes = prevChoice.elim nodes fun i => nodes.modify i (.setNextChoice p) := by
  obtain ⟨s₁, htokens, hs₁⟩ := forM_shift_eq (choiceYield value) s
  obtain ⟨expr, hlabel, hexpr⟩ := reduceLabel_isLabel value s₁
  rw [runChoice, parserM_bind_of htokens, parserM_bind_of hlabel] at h
  obtain ⟨scope, s₂, hbody, h⟩ := parserM_bind_eq_some.mp h
  obtain ⟨hext, -⟩ := Derivation.run_extends hbody
  have hexpr₂ := hexpr.mono fun _ _ hj => hext.getElem? hj
  rw [ParserState.push_nodes, hs₁] at hext
  have hown := (Extends.append (labelNodes value) rfl le_rfl).trans_length hext le_rfl
  have hlength := hown.length
  refine ⟨s₂.nodes ++ [.statSwitchChoice expr scope none],
    hown.trans_length (.append _ rfl le_rfl) le_rfl, ⟨expr, scope, ?_, ?_⟩, ?_⟩
  · rw [← hlength]
    simp
  · refine hexpr₂.mono fun j c hj => ?_
    rw [List.getElem?_append_left (List.getElem?_eq_some_iff.mp hj).1, hj]
  · rw [← hlength]
    cases prevChoice with
    | none =>
      cases h
      exact ⟨rfl, rfl⟩
    | some i =>
      cases h
      exact ⟨rfl, rfl⟩

/-- Every further choice is written to the first one. -/
lemma Derivation.run_choices : ∀ {choices : Derivation .switchSelectionBlock} {next : Option Token}
    {s s' : ParserState} {p : Ptr}, choices.run next s = some (p, s') →
    ChoicesBuilt s'.nodes choices.labels p (choices.choiceNodes s.nodes.length)
  | .firstChoice value body, next, s, s', p, h => by
    obtain ⟨nodes, -, hi, rfl, hs'⟩ := run_choice h
    rw [Option.elim_none] at hs'
    subst hs'
    rw [Derivation.labels, Derivation.choiceNodes]
    exact .mk hi .nil
  | .nextChoice choices value body, next, s, s', p, h => by
    obtain ⟨prevChoice, s₁, hchoices, h⟩ := parserM_bind_eq_some.mp h
    have hbuilt := run_choices hchoices
    obtain ⟨hext₁, -⟩ := Derivation.run_extends hchoices
    obtain ⟨first, rfl, hlt⟩ := hbuilt.exists_first
    -- The pointer to the new choice is dropped.
    have hdrop : (do let _ ← runChoice value body next (some first); return some first) s₁ =
        some (p, s') := by
      simpa only [runChoice, bind_assoc] using h
    obtain ⟨q, s₂, hchoice, h⟩ := parserM_bind_eq_some.mp hdrop
    cases h
    obtain ⟨nodes, hext₂, hi, rfl, hs'⟩ := run_choice hchoice
    rw [hs', Option.elim_some, Derivation.labels, Derivation.choiceNodes]
    rw [hext₁.length, Nat.add_assoc] at hi ⊢
    rw [hext₁.length] at hlt
    exact (hbuilt.extends hext₂).next hi (by omega)

lemma ChoicesBuilt.areChoices {nodes : List AstNode} {p : Ptr} {choices : List ℕ}
    {labels : List (Option ConstantExpression)} (h : ChoicesBuilt nodes labels p choices) :
    AreChoices nodes labels choices := by
  obtain ⟨hfirst, hrest⟩ := h
  exact .cons ⟨_, hfirst⟩ (hrest.imp fun _ _ h => ⟨none, h.2⟩)

/-- The list has the first choice and the last one. -/
lemma ChoicesBuilt.choiceList_iff {nodes : List AstNode} {p : Ptr} {choices : List ℕ}
    {labels : List (Option ConstantExpression)} (h : ChoicesBuilt nodes labels p choices) :
    ChoiceList nodes p choices ↔ choices.length ≤ 2 := by
  obtain ⟨⟨expr, scope, hfirst, -⟩, hrest⟩ := h
  cases hrest with
  | nil => simpa using ChoiceList.cons hfirst .nil
  | @cons _ i _ rest hi hrest =>
    obtain ⟨-, expr', scope', hi, -⟩ := hi
    cases hrest with
    | nil => simpa using ChoiceList.cons hfirst (.cons hi .nil)
    | @cons _ j _ rest hj hrest =>
      -- The `next` of the second choice is null.
      simp only [List.length_cons, Nat.reduceLeDiff, iff_false]
      intro hlist
      cases hlist with
      | cons hfirst' hlist =>
        cases hlist with
        | cons hi' hlist =>
          cases Option.some.inj (hi.symm.trans hi')
          cases hlist

/-- A switch keeps its choices if there are at most two. -/
theorem switch_keeps_choices_iff {e : Expression} {f : Option Flush}
    {choices : Derivation .switchSelectionBlock} {next : Option Token} {s s' : ParserState} {p : Ptr}
    (h : (Derivation.switch e f choices).run next s = some (p, s')) :
    ∃ i expr choice, p = some i ∧ s'.nodes[i]? = some (.statSwitch none expr choice) ∧
      AreChoices s'.nodes choices.labels (choices.choiceNodes (s.nodes.length + e.size)) ∧
      (ChoiceList s'.nodes choice (choices.choiceNodes (s.nodes.length + e.size)) ↔
        choices.choiceCount ≤ 2) := by
  rw [Derivation.run, run_header] at h
  obtain ⟨s₁, hflush, hs₁⟩ := shiftFlush_eq f (firstToken choices.yield none)
    ((s.header .keywordSwitch e).shifted .braceOpen)
  rw [parserM_bind_of (shift_eq _ _), parserM_bind_of hflush] at h
  obtain ⟨choice, s₂, hchoices, h⟩ := parserM_bind_eq_some.mp h
  have hbuilt := Derivation.run_choices hchoices
  rw [hs₁, show ((s.header .keywordSwitch e).shifted .braceOpen).nodes.length =
    s.nodes.length + e.size from (e.extends_nodes _).length] at hbuilt
  cases h
  have hbuilt' := hbuilt.extends (.append [.statSwitch none (some (s.nodes.length + e.own)) choice]
    rfl le_rfl)
  refine ⟨_, some (s.nodes.length + e.own), choice, rfl, ?_, hbuilt'.areChoices, ?_⟩
  · exact List.getElem?_concat_length ..
  · rw [← Derivation.length_choiceNodes choices (s.nodes.length + e.size)]
    exact hbuilt'.choiceList_iff

/-! ## Three choices -/

/-- `{ }` -/
def noStatements : Derivation .scope := .scope none .empty

/-- `other { }`, and this many more of them. -/
def otherChoices : ℕ → Derivation .switchSelectionBlock
  | 0 => .firstChoice none noStatements
  | n + 1 => .nextChoice (otherChoices n) none noStatements

/-- `switch x { … }` -/
def switchOf (n : ℕ) : Derivation .statement :=
  .switch (.operand (.identifier [120])) none (otherChoices n)

/-- The nodes of three choices, when the first one's `next` is this. -/
def threeChoiceNodes : List AstNode :=
  [.ident [120], .statList 0 none none, .scope (some 1), .statSwitchChoice none (some 2) (some 9),
    .statList 0 none none, .scope (some 4), .statSwitchChoice none (some 5) none,
    .statList 0 none none, .scope (some 7), .statSwitchChoice none (some 8) none,
    .statSwitch none (some 0) (some 3)]

lemma switchOf_two_run : (switchOf 2).run none parserInit =
    some (some 10, ⟨⟨false, 1, 0⟩, false, threeChoiceNodes, []⟩) := rfl

lemma choiceNodes_otherChoices_two : (otherChoices 2).choiceNodes 1 = [3, 6, 9] := by
  simp [otherChoices, Derivation.choiceNodes, noStatements, Derivation.size, labelNodes]

theorem switch_keeps_choices_iff_three : ∃ i expr choice, some 10 = some i ∧
    threeChoiceNodes[i]? = some (.statSwitch none expr choice) ∧
      AreChoices threeChoiceNodes (otherChoices 2).labels ((otherChoices 2).choiceNodes 1) ∧
      (ChoiceList threeChoiceNodes choice ((otherChoices 2).choiceNodes 1) ↔
        (otherChoices 2).choiceCount ≤ 2) :=
  switch_keeps_choices_iff switchOf_two_run

/-- The second one is lost. -/
theorem third_choice_replaces_second : ∃ s' expr choice,
    (switchOf 2).run none parserInit = some (some 10, s') ∧
      s'.nodes[10]? = some (.statSwitch none expr choice) ∧
      (otherChoices 2).choiceNodes 1 = [3, 6, 9] ∧
      ∀ l, ChoiceList s'.nodes choice l ↔ l = [3, 9] := by
  refine ⟨_, some 0, some 3, switchOf_two_run, rfl, choiceNodes_otherChoices_two, ?_⟩
  have hlist : ChoiceList threeChoiceNodes (some 3) [3, 9] := .cons rfl (.cons rfl .nil)
  intro l
  exact ⟨fun h => h.unique hlist, fun h => h ▸ hlist⟩

end PhantomShell
