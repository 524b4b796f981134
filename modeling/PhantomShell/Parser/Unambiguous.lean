import PhantomShell.Parser.Items

/-!
# One derivation for a text

The conflicts of the grammar are all resolved: what precedence and shifting leave of the derivations
is one at most for a text (`program_unique`). Every derivation is read off from the left.
-/

namespace PhantomShell

/-! ## Parts of statements -/

/-- A statement without the separators behind it. -/
def Derivation.core : Derivation .statement → Derivation .statement
  | .flush stat _ => stat.core
  | stat => stat

/-- The separators behind it. -/
def Derivation.flushes : Derivation .statement → List Flush
  | .flush stat f => stat.flushes ++ [f]
  | _ => []

/-- The statements of a list. -/
def Derivation.stats : Derivation .statements → List (Derivation .statement)
  | .empty => []
  | .link stats stat => stats.stats ++ [stat]

/-- The choices of a switch. -/
def Derivation.choices :
    Derivation .switchSelectionBlock → List (Option ConstantExpression × Derivation .scope)
  | .firstChoice value body => [(value, body)]
  | .nextChoice choices value body => choices.choices ++ [(value, body)]

def flushToken (f : Flush) : List Token := [f.token]

/-- The tokens of a choice. -/
def choiceTokens (choice : Option ConstantExpression × Derivation .scope) : List Token :=
  choiceYield choice.1 ++ choice.2.yield

lemma Derivation.yield_core : ∀ stat : Derivation .statement,
    stat.yield = stat.core.yield ++ stat.flushes.flatMap flushToken
  | .flush stat f => by
    rw [core, flushes, yield, yield_core stat, List.flatMap_append, List.append_assoc]
    rfl
  | .expression _ _ | .block _ | .ifThen _ _ | .ifElse _ _ _ | .ifElif _ _ _ | .switch _ _ _
  | .while _ _ | .ret _ | .func _ _ _ _ => by simp [core, flushes]

lemma Derivation.eq_foldl_core : ∀ stat : Derivation .statement,
    stat = stat.flushes.foldl .flush stat.core
  | .flush stat f => by
    rw [core, flushes, List.foldl_append, ← eq_foldl_core stat]
    rfl
  | .expression _ _ | .block _ | .ifThen _ _ | .ifElse _ _ _ | .ifElif _ _ _ | .switch _ _ _
  | .while _ _ | .ret _ | .func _ _ _ _ => by simp [core, flushes]

lemma Derivation.flushes_core : ∀ stat : Derivation .statement, stat.core.flushes = []
  | .flush stat f => by
    rw [core, flushes_core stat]
  | .expression _ _ | .block _ | .ifThen _ _ | .ifElse _ _ _ | .ifElif _ _ _ | .switch _ _ _
  | .while _ _ | .ret _ | .func _ _ _ _ => by simp [core, flushes]

lemma Derivation.Resolved.core : ∀ {stat : Derivation .statement} {s : List Token},
    stat.Resolved s.head? → stat.core.Resolved (stat.flushes.flatMap flushToken ++ s).head?
  | .flush stat f, s, h => by
    rw [Derivation.core, flushes, List.flatMap_append, List.append_assoc]
    apply Resolved.core
    exact h
  | .expression _ _, _, h | .block _, _, h | .ifThen _ _, _, h | .ifElse _ _ _, _, h
  | .ifElif _ _ _, _, h | .switch _ _ _, _, h | .while _ _, _, h | .ret _, _, h
  | .func _ _ _ _, _, h => by simpa [Derivation.core, flushes] using h

lemma Derivation.flatMap_stats : ∀ stats : Derivation .statements,
    stats.stats.flatMap Derivation.yield = stats.yield
  | .empty => by rw [Derivation.stats, yield, List.flatMap_nil]
  | .link stats stat => by
    rw [Derivation.stats, List.flatMap_append, flatMap_stats stats, yield, List.flatMap_singleton]

lemma Derivation.flatMap_choices : ∀ choices : Derivation .switchSelectionBlock,
    choices.choices.flatMap choiceTokens = choices.yield
  | .firstChoice value body => by
    rw [Derivation.choices, List.flatMap_singleton, choiceTokens, yield]
  | .nextChoice choices value body => by
    rw [Derivation.choices, List.flatMap_append, flatMap_choices choices, yield,
      List.flatMap_singleton, choiceTokens]

lemma Derivation.stats_injective : ∀ {stats stats' : Derivation .statements},
    stats.stats = stats'.stats → stats = stats'
  | .empty, .empty, _ => rfl
  | .empty, .link stats' stat', h => by simp [Derivation.stats] at h
  | .link stats stat, .empty, h => by simp [Derivation.stats] at h
  | .link stats stat, .link stats' stat', h => by
    rw [Derivation.stats, Derivation.stats] at h
    obtain ⟨hstats, hstat⟩ := List.append_inj' h rfl
    rw [stats_injective hstats, (List.cons.inj hstat).1]

lemma Derivation.choices_ne_nil : ∀ choices : Derivation .switchSelectionBlock,
    choices.choices ≠ []
  | .firstChoice _ _ => by simp [Derivation.choices]
  | .nextChoice _ _ _ => by simp [Derivation.choices]

lemma Derivation.choices_injective : ∀ {choices choices' : Derivation .switchSelectionBlock},
    choices.choices = choices'.choices → choices = choices'
  | .firstChoice value body, .firstChoice value' body', h => by
    simp only [Derivation.choices, List.cons.injEq, Prod.mk.injEq, and_true] at h
    rw [h.1, h.2]
  | .firstChoice value body, .nextChoice choices' value' body', h => by
    have hlength := congrArg List.length h
    simp [Derivation.choices, choices_ne_nil] at hlength
  | .nextChoice choices value body, .firstChoice value' body', h => by
    have hlength := congrArg List.length h
    simp [Derivation.choices, choices_ne_nil] at hlength
  | .nextChoice choices value body, .nextChoice choices' value' body', h => by
    rw [Derivation.choices, Derivation.choices] at h
    obtain ⟨hchoices, hlast⟩ := List.append_inj' h rfl
    simp only [List.cons.injEq, Prod.mk.injEq, and_true] at hlast
    rw [choices_injective hchoices, hlast.1, hlast.2]

/-! ### First tokens -/

/-- The keyword, or the brace, that a statement starts with if it does not start with an
expression. -/
def Derivation.keyword : Derivation .statement → Option Token
  | .expression _ _ => none
  | .block _ => some .braceOpen
  | .ifThen _ _ | .ifElse _ _ _ | .ifElif _ _ _ => some .keywordIf
  | .switch _ _ _ => some .keywordSwitch
  | .while _ _ => some .keywordWhile
  | .ret _ => some .keywordReturn
  | .func _ _ _ _ => some .keywordFunc
  | .flush stat _ => stat.keyword

/-- Of a token at the start of a statement. -/
def Token.keyword (t : Token) : Option Token := if (operandToken t).isSome then none else some t

/-- A statement can start with it. -/
def Token.startsStatement (t : Token) : Bool :=
  match t with
  | .keywordIf | .keywordSwitch | .keywordWhile | .keywordReturn | .keywordFunc | .braceOpen => true
  | t => (operandToken t).isSome

lemma Expression.head (e : Expression) : ∃ t l, e.yield = t :: l ∧ (operandToken t).isSome := by
  have hitems := e.alternates
  rw [← e.flatMap_items]
  cases hl : e.items with
  | nil =>
    rw [hl] at hitems
    cases hitems
  | cons item l =>
    rw [hl] at hitems
    refine ⟨headToken item.head, item.yield.tail ++ l.flatMap Item.yield, ?_, ?_⟩
    · rw [List.flatMap_cons, Item.yield_eq_cons hitems.1]
      rfl
    · rw [(operandToken_eq_some_iff _ _).mpr rfl]
      rfl

lemma Derivation.head : ∀ stat : Derivation .statement, ∃ t l, stat.yield = t :: l ∧
    t.startsStatement ∧ t.keyword = stat.keyword
  | .expression e f => by
    obtain ⟨t, l, hyield, ht⟩ := e.head
    refine ⟨t, l ++ [f.token], by rw [yield, hyield]; rfl, ?_, ?_⟩
    · unfold Token.startsStatement
      split <;> simp [ht]
    · rw [keyword, Token.keyword, if_pos ht]
  | .block body => by
    cases body with
    | scope f stats => exact ⟨_, _, by rw [yield, yield], rfl, by rw [keyword]; rfl⟩
  | .flush stat f => by
    obtain ⟨t, l, hyield, ht⟩ := head stat
    exact ⟨t, l ++ [f.token], by rw [yield, hyield]; rfl, by rwa [keyword]⟩
  | .ifThen _ _ | .ifElse _ _ _ | .ifElif _ _ _ | .switch _ _ _ | .while _ _ | .ret _
  | .func _ _ _ _ => ⟨_, _, by rw [yield], rfl, by rw [keyword]; rfl⟩

/-! ## What is behind a statement -/

/-- It ends a statement. -/
def Token.isFlush (t : Token) : Bool := t == .semicolon || t == .newline

/-- A statement, a separator or the end of the list is behind. -/
def Follows (s : List Token) : Prop :=
  ∀ t ∈ s.head?, t.startsStatement ∨ t.isFlush ∨ t = .braceClose

/-- No separator is behind. -/
def Separated (s : List Token) : Prop := ∀ t ∈ s.head?, t.isFlush = false

lemma Flush.token_isFlush (f : Flush) : f.token.isFlush = true := by
  cases f <;> rfl

lemma Token.isFlush_of_startsStatement {t : Token} (h : t.startsStatement) : t.isFlush = false := by
  by_contra hflush
  rw [Bool.not_eq_false, isFlush, Bool.or_eq_true, beq_iff_eq, beq_iff_eq] at hflush
  rcases hflush with rfl | rfl <;> cases h

lemma follows_flushes (flushes : List Flush) {s : List Token} (h : Follows s) :
    Follows (flushes.flatMap flushToken ++ s) := by
  cases flushes with
  | nil => exact h
  | cons f flushes =>
    intro t ht
    cases ht
    exact .inr (.inl f.token_isFlush)

lemma Derivation.follows (stat : Derivation .statement) (s : List Token) :
    Follows (stat.yield ++ s) ∧ Separated (stat.yield ++ s) := by
  obtain ⟨t, l, hyield, hstart, -⟩ := stat.head
  rw [hyield]
  constructor
  · intro t' ht'
    cases ht'
    exact .inl hstart
  · intro t' ht'
    cases ht'
    exact Token.isFlush_of_startsStatement hstart

lemma follows_braceClose (s : List Token) : Follows (.braceClose :: s) ∧
    Separated (.braceClose :: s) := by
  constructor
  · intro t ht
    cases ht
    exact .inr (.inr rfl)
  · intro t ht
    cases ht
    rfl

/-- No part of an `if` is behind. -/
lemma Follows.not_else {s : List Token} (h : Follows s) (l : List Token) :
    s ≠ .keywordElse :: l ∧ s ≠ .keywordElif :: l := by
  constructor
  · rintro rfl
    have h := h _ rfl
    revert h
    decide
  · rintro rfl
    have h := h _ rfl
    revert h
    decide

/-- What may be behind an expression that ends a statement does not go on with it. -/
lemma Follows.stops {s : List Token} (h : Follows s) {e : Expression}
    (he : ∀ t ∈ s.head?, e.continues t = false) : e.Stops s := by
  intro t ht
  refine ⟨he t ht, ?_⟩
  rintro b rfl
  have hb := h _ ht
  have hc := he _ ht
  cases b with
  | subtraction => cases hc
  | _ =>
    revert hb
    decide

/-! ## Reading derivations off -/

/-- The derivation of the parser, with this behind. -/
def ScopeOk (body : Derivation .scope) (s : List Token) : Prop := body.Resolved s.head?

structure ElifOk (elifs : Derivation .elifSelectionBlock) (s : List Token) : Prop where
  resolved : elifs.Resolved s.head?
  follows : Follows s

structure CoreOk (stat : Derivation .statement) (s : List Token) : Prop where
  flushes : stat.flushes = []
  resolved : stat.Resolved s.head?
  follows : Follows s

/-- All separators belong to the statement. -/
structure StatOk (stat : Derivation .statement) (s : List Token) : Prop where
  resolved : stat.Resolved s.head?
  follows : Follows s
  separated : Separated s

def ChoiceOk (choice : Option ConstantExpression × Derivation .scope) (s : List Token) : Prop :=
  ScopeOk choice.2 s

/-- The separators are read off, to where none is. -/
lemma flushes_readOff {flushes flushes' : List Flush} {s s' : List Token} (hs : Separated s)
    (hs' : Separated s')
    (heq : flushes.flatMap flushToken ++ s = flushes'.flatMap flushToken ++ s') :
    flushes = flushes' ∧ s = s' := by
  have hall : ∀ (l : List Flush) (t : List Token), OkAll flushToken (fun _ _ => True) l t := by
    intro l t
    induction l with
    | nil => trivial
    | cons f l ih => exact ⟨trivial, ih⟩
  have hstart : ∀ {t : List Token}, Separated t → NoStart flushToken (fun _ _ => True) t := by
    rintro t ht f l - rfl
    have hflush := ht f.token rfl
    rw [f.token_isFlush] at hflush
    cases hflush
  have hread : ∀ f ∈ flushes, ReadOff flushToken (fun _ _ => True) f := by
    intro f hf f' t t' _ _ h
    obtain ⟨htoken, ht⟩ := List.cons.inj h
    refine ⟨?_, ht⟩
    cases f <;> cases f' <;> first | rfl | cases htoken
  exact readOff_flatMap hread (hall _ _) (hall _ _) (hstart hs) (hstart hs') heq

/-- A statement is read off with all its separators. -/
lemma ReadOff.of_core {stat : Derivation .statement}
    (h : ReadOff Derivation.yield CoreOk stat.core) : ReadOff Derivation.yield StatOk stat := by
  intro stat' s s' hok hok' heq
  rw [stat.yield_core, stat'.yield_core, List.append_assoc, List.append_assoc] at heq
  have hcore : CoreOk stat.core (stat.flushes.flatMap flushToken ++ s) :=
    ⟨stat.flushes_core, hok.resolved.core, follows_flushes _ hok.follows⟩
  have hcore' : CoreOk stat'.core (stat'.flushes.flatMap flushToken ++ s') :=
    ⟨stat'.flushes_core, hok'.resolved.core, follows_flushes _ hok'.follows⟩
  obtain ⟨hstat, hrest⟩ := h stat'.core _ _ hcore hcore' heq
  obtain ⟨hflushes, hs⟩ := flushes_readOff hok.separated hok'.separated hrest
  refine ⟨?_, hs⟩
  rw [stat.eq_foldl_core, stat'.eq_foldl_core, hstat, hflushes]

/-! ### Lists -/

lemma Derivation.follows_stats : ∀ (stats : Derivation .statements) {s : List Token}, Follows s →
    Separated s → Follows (stats.yield ++ s) ∧ Separated (stats.yield ++ s)
  | .empty, s, hs, hsep => by
    rw [yield]
    exact ⟨hs, hsep⟩
  | .link stats stat, s, hs, hsep => by
    rw [yield, List.append_assoc]
    exact follows_stats stats (stat.follows s).1 (stat.follows s).2

lemma Derivation.Resolved.okAll_stats : ∀ {stats : Derivation .statements} {s : List Token},
    stats.Resolved s.head? → Follows s → Separated s →
    OkAll Derivation.yield StatOk stats.stats s
  | .empty, s, _, _, _ => by
    rw [Derivation.stats]
    trivial
  | .link stats stat, s, h, hs, hsep => by
    rw [Derivation.Resolved, firstToken, ← List.head?_append] at h
    rw [Derivation.stats, okAll_append, List.flatMap_singleton]
    have hstat : OkAll Derivation.yield StatOk [stat] s := ⟨⟨h.2, hs, hsep⟩, trivial⟩
    exact ⟨okAll_stats h.1 (stat.follows s).1 (stat.follows s).2, hstat⟩

lemma noStart_braceClose (s : List Token) :
    NoStart Derivation.yield StatOk (.braceClose :: s) := by
  rintro stat t - heq
  obtain ⟨t', l, hyield, hstart, -⟩ := stat.head
  rw [hyield] at heq
  cases (List.cons.inj heq).1
  cases hstart

/-- The statements of a block are read off, to the brace. -/
lemma stats_readOff {stats stats' : Derivation .statements} {s s' : List Token}
    (h : ∀ stat ∈ stats.stats, ReadOff Derivation.yield CoreOk stat.core)
    (hok : stats.Resolved (some .braceClose)) (hok' : stats'.Resolved (some .braceClose))
    (heq : stats.yield ++ .braceClose :: s = stats'.yield ++ .braceClose :: s') :
    stats = stats' ∧ s = s' := by
  rw [← stats.flatMap_stats, ← stats'.flatMap_stats] at heq
  have hall : OkAll Derivation.yield StatOk stats.stats (.braceClose :: s) :=
    Derivation.Resolved.okAll_stats hok (follows_braceClose s).1 (follows_braceClose s).2
  have hall' : OkAll Derivation.yield StatOk stats'.stats (.braceClose :: s') :=
    Derivation.Resolved.okAll_stats hok' (follows_braceClose s').1 (follows_braceClose s').2
  obtain ⟨hstats, hs⟩ := readOff_flatMap (fun stat hstat => (h stat hstat).of_core) hall hall'
    (noStart_braceClose s) (noStart_braceClose s') heq
  exact ⟨Derivation.stats_injective hstats, (List.cons.inj hs).2⟩

lemma ConstantExpression.token_injective : Function.Injective ConstantExpression.token := by
  intro c c' h
  cases c <;> cases c' <;> cases h <;> rfl

/-- A choice is read off if its scope is. -/
lemma choice_readOff {choice : Option ConstantExpression × Derivation .scope}
    (h : ReadOff Derivation.yield ScopeOk choice.2) : ReadOff choiceTokens ChoiceOk choice := by
  intro choice' s s' hok hok' heq
  rw [choiceTokens, choiceTokens, List.append_assoc, List.append_assoc] at heq
  obtain ⟨value, body⟩ := choice
  obtain ⟨value', body'⟩ := choice'
  have hvalue : value = value' ∧ body.yield ++ s = body'.yield ++ s' := by
    cases value with
    | none =>
      cases value' with
      | none => exact ⟨rfl, (List.cons.inj heq).2⟩
      | some c' => cases (List.cons.inj heq).1
    | some c =>
      cases value' with
      | none => cases (List.cons.inj heq).1
      | some c' =>
        obtain ⟨hc, hrest⟩ := List.cons.inj (List.cons.inj heq).2
        exact ⟨by rw [ConstantExpression.token_injective hc], hrest⟩
  obtain ⟨rfl, hrest⟩ := hvalue
  obtain ⟨rfl, hs⟩ := h body' s s' hok hok' hrest
  exact ⟨rfl, hs⟩

/-- What follows decides nothing in a scope. -/
lemma Derivation.Resolved.scope {body : Derivation .scope} {follow : Option Token}
    (h : body.Resolved follow) (s : List Token) : ScopeOk body s := by
  cases body with
  | scope f stats =>
    rw [Derivation.Resolved] at h
    rw [ScopeOk, Derivation.Resolved]
    exact h

lemma Derivation.Resolved.okAll_choices : ∀ {choices : Derivation .switchSelectionBlock}
    {follow : Option Token} (s : List Token), choices.Resolved follow →
    OkAll choiceTokens ChoiceOk choices.choices s
  | .firstChoice value body, follow, s, h => by
    rw [Derivation.Resolved] at h
    rw [Derivation.choices]
    exact ⟨h.scope _, trivial⟩
  | .nextChoice choices value body, follow, s, h => by
    rw [Derivation.Resolved] at h
    rw [Derivation.choices, okAll_append]
    have hlast : OkAll choiceTokens ChoiceOk [(value, body)] s := ⟨h.2.scope _, trivial⟩
    exact ⟨okAll_choices _ h.1, hlast⟩

/-- The choices of a switch are read off, to the brace. -/
lemma choices_readOff {choices choices' : Derivation .switchSelectionBlock} {s s' : List Token}
    {follow follow' : Option Token}
    (h : ∀ choice ∈ choices.choices, ReadOff Derivation.yield ScopeOk choice.2)
    (hok : choices.Resolved follow) (hok' : choices'.Resolved follow')
    (heq : choices.yield ++ .braceClose :: s = choices'.yield ++ .braceClose :: s') :
    choices = choices' ∧ s = s' := by
  have hstart : ∀ t, NoStart choiceTokens ChoiceOk (.braceClose :: t) := by
    rintro t ⟨value, body⟩ l - heq
    cases value <;> cases heq
  rw [← choices.flatMap_choices, ← choices'.flatMap_choices] at heq
  obtain ⟨hchoices, hs⟩ := readOff_flatMap (fun choice hchoice => choice_readOff (h choice hchoice))
    (hok.okAll_choices _) (hok'.okAll_choices _) (hstart s) (hstart s') heq
  exact ⟨Derivation.choices_injective hchoices, (List.cons.inj hs).2⟩

/-! ### Scopes -/

/-- The separator behind a brace is read off. -/
lemma flushYield_readOff {f f' : Option Flush} {s s' : List Token} (hs : Separated s)
    (hs' : Separated s') (heq : flushYield f ++ s = flushYield f' ++ s') : f = f' ∧ s = s' := by
  have hyield : ∀ g : Option Flush, flushYield g = g.toList.flatMap flushToken := by
    intro g
    cases g <;> rfl
  rw [hyield, hyield] at heq
  obtain ⟨hlist, hs⟩ := flushes_readOff hs hs' heq
  refine ⟨?_, hs⟩
  cases f <;> cases f' <;> simp_all

lemma Derivation.separated_choices : ∀ (choices : Derivation .switchSelectionBlock)
    (s : List Token), Separated (choices.yield ++ s)
  | .firstChoice value body, s => by
    rw [yield]
    cases value with
    | none =>
      intro t ht
      cases ht
      rfl
    | some c =>
      intro t ht
      cases ht
      rfl
  | .nextChoice choices value body, s => by
    rw [yield, List.append_assoc]
    exact separated_choices choices _

/-- A scope is read off, to its brace. -/
lemma scope_readOff {f : Option Flush} {stats : Derivation .statements}
    (h : ∀ stat ∈ stats.stats, ReadOff Derivation.yield CoreOk stat.core) :
    ReadOff Derivation.yield ScopeOk (.scope f stats) := by
  intro body' s s' hok hok' heq
  cases body' with
  | scope f' stats' =>
    rw [ScopeOk, Derivation.Resolved] at hok hok'
    simp only [Derivation.yield, List.cons_append, List.append_assoc, List.nil_append] at heq
    obtain ⟨rfl, hstats⟩ := flushYield_readOff
      (stats.follows_stats (follows_braceClose s).1 (follows_braceClose s).2).2
      (stats'.follows_stats (follows_braceClose s').1 (follows_braceClose s').2).2
      (List.cons.inj heq).2
    obtain ⟨rfl, hs⟩ := stats_readOff h hok hok' hstats
    exact ⟨rfl, hs⟩

/-- A condition and the scope behind it. -/
lemma header_readOff {e e' : Expression} {body body' : Derivation .scope} {s s' : List Token}
    (h : ReadOff Derivation.yield ScopeOk body) (he : e.Resolved) (he' : e'.Resolved)
    (hok : ScopeOk body s) (hok' : ScopeOk body' s')
    (heq : e.yield ++ (body.yield ++ s) = e'.yield ++ (body'.yield ++ s')) :
    e = e' ∧ body = body' ∧ s = s' := by
  have hstops : ∀ (e : Expression) (body : Derivation .scope) (s : List Token),
      e.Stops (body.yield ++ s) := by
    intro e body s
    cases body with
    | scope f stats =>
      rw [Derivation.yield]
      exact e.stops_cons _ (by simp)
  obtain ⟨rfl, hrest⟩ := e.readOff e' _ _ ⟨he, hstops e body s⟩ ⟨he', hstops e' body' s'⟩ heq
  obtain ⟨rfl, hs⟩ := h body' s s' hok hok' hrest
  exact ⟨rfl, rfl, hs⟩

/-! ### Selections -/

/-- What is behind the first scope of an `if`. -/
inductive IfTail
  | nothing
  | elseScope (falseScope : Derivation .scope)
  | elifBlock (elifs : Derivation .elifSelectionBlock)

def IfTail.yield : IfTail → List Token
  | nothing => []
  | elseScope falseScope => .keywordElse :: falseScope.yield
  | elifBlock elifs => elifs.yield

def IfTail.Resolved : IfTail → Option Token → Prop
  | nothing, _ => True
  | elseScope falseScope, follow => falseScope.Resolved follow
  | elifBlock elifs, follow => elifs.Resolved follow

structure IfTail.Ok (tail : IfTail) (s : List Token) : Prop where
  resolved : tail.Resolved s.head?
  follows : Follows s

/-- Its parts are read off. -/
def IfTail.PartsReadOff : IfTail → Prop
  | nothing => True
  | elseScope falseScope => ReadOff Derivation.yield ScopeOk falseScope
  | elifBlock elifs => ReadOff Derivation.yield ElifOk elifs

/-- The `if` with this behind its first scope. -/
def IfTail.ifStat (e : Expression) (trueScope : Derivation .scope) : IfTail → Derivation .statement
  | nothing => .ifThen e trueScope
  | elseScope falseScope => .ifElse e trueScope falseScope
  | elifBlock elifs => .ifElif e trueScope elifs

/-- The `elif`. -/
def IfTail.elif (e : Expression) (trueScope : Derivation .scope) :
    IfTail → Derivation .elifSelectionBlock
  | nothing => .elifThen e trueScope
  | elseScope falseScope => .elifElse e trueScope falseScope
  | elifBlock elifs => .elifElif e trueScope elifs

lemma IfTail.yield_ifStat (e : Expression) (trueScope : Derivation .scope) (tail : IfTail) :
    (tail.ifStat e trueScope).yield =
      .keywordIf :: (e.yield ++ (trueScope.yield ++ tail.yield)) := by
  cases tail <;> simp [ifStat, Derivation.yield, yield]

lemma IfTail.yield_elif (e : Expression) (trueScope : Derivation .scope) (tail : IfTail) :
    (tail.elif e trueScope).yield =
      .keywordElif :: (e.yield ++ (trueScope.yield ++ tail.yield)) := by
  cases tail <;> simp [IfTail.elif, Derivation.yield, yield]

lemma IfTail.resolved_ifStat {e : Expression} {trueScope : Derivation .scope} {tail : IfTail}
    {s : List Token} (h : (tail.ifStat e trueScope).Resolved s.head?) :
    e.Resolved ∧ (∀ t, ScopeOk trueScope t) ∧ tail.Resolved s.head? := by
  cases tail with
  | nothing =>
    rw [ifStat, Derivation.Resolved] at h
    exact ⟨h.1, h.2.scope, trivial⟩
  | elseScope falseScope =>
    rw [ifStat, Derivation.Resolved] at h
    exact ⟨h.1, h.2.1.scope, h.2.2⟩
  | elifBlock elifs =>
    rw [ifStat, Derivation.Resolved] at h
    exact ⟨h.1, h.2.1.scope, h.2.2⟩

lemma IfTail.resolved_elif {e : Expression} {trueScope : Derivation .scope} {tail : IfTail}
    {s : List Token} (h : (tail.elif e trueScope).Resolved s.head?) :
    e.Resolved ∧ (∀ t, ScopeOk trueScope t) ∧ tail.Resolved s.head? := by
  cases tail with
  | nothing =>
    rw [IfTail.elif, Derivation.Resolved] at h
    exact ⟨h.1, h.2.scope, trivial⟩
  | elseScope falseScope =>
    rw [IfTail.elif, Derivation.Resolved] at h
    exact ⟨h.1, h.2.1.scope, h.2.2⟩
  | elifBlock elifs =>
    rw [IfTail.elif, Derivation.Resolved] at h
    exact ⟨h.1, h.2.1.scope, h.2.2⟩

lemma IfTail.exists_ifStat {stat : Derivation .statement} (hflushes : stat.flushes = [])
    (h : stat.keyword = some .keywordIf) : ∃ e trueScope, ∃ tail : IfTail,
      stat = tail.ifStat e trueScope := by
  cases stat with
  | ifThen e trueScope => exact ⟨e, trueScope, .nothing, by rw [ifStat]⟩
  | ifElse e trueScope falseScope => exact ⟨e, trueScope, .elseScope falseScope, by rw [ifStat]⟩
  | ifElif e trueScope elifs => exact ⟨e, trueScope, .elifBlock elifs, by rw [ifStat]⟩
  | flush stat f => simp [Derivation.flushes] at hflushes
  | _ => simp [Derivation.keyword] at h

lemma IfTail.exists_elif (elifs : Derivation .elifSelectionBlock) :
    ∃ e trueScope, ∃ tail : IfTail, elifs = tail.elif e trueScope := by
  cases elifs with
  | elifThen e trueScope => exact ⟨e, trueScope, .nothing, by rw [IfTail.elif]⟩
  | elifElse e trueScope falseScope => exact ⟨e, trueScope, .elseScope falseScope, by rw [IfTail.elif]⟩
  | elifElif e trueScope elifs => exact ⟨e, trueScope, .elifBlock elifs, by rw [IfTail.elif]⟩

lemma elif_head (elifs : Derivation .elifSelectionBlock) :
    ∃ l, elifs.yield = .keywordElif :: l := by
  obtain ⟨e, trueScope, tail, rfl⟩ := IfTail.exists_elif elifs
  exact ⟨_, tail.yield_elif e trueScope⟩

/-- The keyword behind the scope tells what is there. -/
lemma IfTail.readOff {tail : IfTail} (h : tail.PartsReadOff) :
    ReadOff IfTail.yield IfTail.Ok tail := by
  intro tail' s s' hok hok' heq
  obtain ⟨hres, hfollow⟩ := hok
  obtain ⟨hres', hfollow'⟩ := hok'
  cases tail with
  | nothing =>
    cases tail' with
    | nothing => exact ⟨rfl, heq⟩
    | elseScope falseScope => exact absurd heq (hfollow.not_else _).1
    | elifBlock elifs =>
      obtain ⟨l, hl⟩ := elif_head elifs
      rw [yield, yield, hl] at heq
      exact absurd heq (hfollow.not_else _).2
  | elseScope falseScope =>
    cases tail' with
    | nothing => exact absurd heq.symm (hfollow'.not_else _).1
    | elseScope falseScope' =>
      obtain ⟨rfl, hs⟩ := h falseScope' s s' hres hres' (List.cons.inj heq).2
      exact ⟨rfl, hs⟩
    | elifBlock elifs =>
      obtain ⟨l, hl⟩ := elif_head elifs
      rw [yield, yield, hl] at heq
      cases heq
  | elifBlock elifs =>
    obtain ⟨l, hl⟩ := elif_head elifs
    cases tail' with
    | nothing =>
      rw [yield, yield, hl] at heq
      exact absurd heq.symm (hfollow'.not_else _).2
    | elseScope falseScope =>
      rw [yield, yield, hl] at heq
      cases heq
    | elifBlock elifs' =>
      obtain ⟨rfl, hs⟩ := h elifs' s s' ⟨hres, hfollow⟩ ⟨hres', hfollow'⟩ heq
      exact ⟨rfl, hs⟩

/-- A condition, its scope and what is behind it. -/
lemma IfTail.parts_readOff {e e' : Expression} {trueScope trueScope' : Derivation .scope}
    {tail tail' : IfTail} {s s' : List Token} (hscope : ReadOff Derivation.yield ScopeOk trueScope)
    (htail : tail.PartsReadOff) (hfollow : Follows s) (hfollow' : Follows s')
    (hok : e.Resolved ∧ (∀ t, ScopeOk trueScope t) ∧ tail.Resolved s.head?)
    (hok' : e'.Resolved ∧ (∀ t, ScopeOk trueScope' t) ∧ tail'.Resolved s'.head?)
    (heq : e.yield ++ (trueScope.yield ++ tail.yield) ++ s =
      e'.yield ++ (trueScope'.yield ++ tail'.yield) ++ s') :
    e = e' ∧ trueScope = trueScope' ∧ tail = tail' ∧ s = s' := by
  rw [List.append_assoc, List.append_assoc, List.append_assoc, List.append_assoc] at heq
  obtain ⟨rfl, rfl, hrest⟩ := header_readOff hscope hok.1 hok'.1 (hok.2.1 _) (hok'.2.1 _) heq
  obtain ⟨rfl, hs⟩ := IfTail.readOff htail tail' s s' ⟨hok.2.2, hfollow⟩ ⟨hok'.2.2, hfollow'⟩ hrest
  exact ⟨rfl, rfl, rfl, hs⟩

lemma IfTail.ifStat_readOff {e : Expression} {trueScope : Derivation .scope} {tail : IfTail}
    (hscope : ReadOff Derivation.yield ScopeOk trueScope) (htail : tail.PartsReadOff) :
    ReadOff Derivation.yield CoreOk (tail.ifStat e trueScope) := by
  intro stat' s s' hok hok' heq
  have hkeyword : stat'.keyword = some .keywordIf := by
    obtain ⟨t, l, hyield, -, ht⟩ := stat'.head
    rw [yield_ifStat, hyield] at heq
    rw [← ht, ← (List.cons.inj heq).1]
    rfl
  obtain ⟨e', trueScope', tail', rfl⟩ := exists_ifStat hok'.flushes hkeyword
  rw [yield_ifStat, yield_ifStat] at heq
  obtain ⟨rfl, rfl, rfl, hs⟩ := parts_readOff hscope htail hok.follows hok'.follows
    (resolved_ifStat hok.resolved) (resolved_ifStat hok'.resolved) (List.cons.inj heq).2
  exact ⟨rfl, hs⟩

lemma IfTail.elif_readOff {e : Expression} {trueScope : Derivation .scope} {tail : IfTail}
    (hscope : ReadOff Derivation.yield ScopeOk trueScope) (htail : tail.PartsReadOff) :
    ReadOff Derivation.yield ElifOk (tail.elif e trueScope) := by
  intro elifs' s s' hok hok' heq
  obtain ⟨e', trueScope', tail', rfl⟩ := exists_elif elifs'
  rw [yield_elif, yield_elif] at heq
  obtain ⟨rfl, rfl, rfl, hs⟩ := parts_readOff hscope htail hok.follows hok'.follows
    (resolved_elif hok.resolved) (resolved_elif hok'.resolved) (List.cons.inj heq).2
  exact ⟨rfl, hs⟩

/-! ### Functions -/

lemma FuncArgList.yield_injective : Function.Injective FuncArgList.yield := by
  intro args args' h
  induction args generalizing args' with
  | empty =>
    cases args' with
    | empty => rfl
    | first varType varName => cases h
    | next list varType varName => simp [FuncArgList.yield] at h
  | first varType varName =>
    cases args' with
    | empty => cases h
    | first varType' varName' =>
      cases h
      rfl
    | next list varType' varName' =>
      have hlength := congrArg List.length h
      simp [FuncArgList.yield] at hlength
  | next list varType varName ih =>
    cases args' with
    | empty => simp [FuncArgList.yield] at h
    | first varType' varName' =>
      have hlength := congrArg List.length h
      simp [FuncArgList.yield] at hlength
    | next list' varType' varName' =>
      obtain ⟨hlist, hlast⟩ := List.append_inj' h rfl
      cases hlast
      rw [ih hlist]

/-- The arguments of a function are read off, to the parenthesis. -/
lemma args_readOff {args args' : FuncArgList} {s s' : List Token}
    (heq : args.yield ++ .parenClose :: s = args'.yield ++ .parenClose :: s') :
    args = args' ∧ s = s' := by
  have hne : ∀ args : FuncArgList, ∀ t ∈ args.yield, decide (t ≠ .parenClose) = true := by
    intro args
    induction args with
    | empty => simp [FuncArgList.yield]
    | first varType varName => simp [FuncArgList.yield]
    | next list varType varName ih => simpa [FuncArgList.yield, or_imp, forall_and] using ih
  have htake : ∀ (args : FuncArgList) (s : List Token),
      (args.yield ++ .parenClose :: s).takeWhile (fun t => decide (t ≠ .parenClose)) = args.yield := by
    intro args s
    rw [List.takeWhile_append_of_pos (hne args), List.takeWhile_cons_of_neg (by simp), List.append_nil]
  have hyield := congrArg (List.takeWhile fun t => decide (t ≠ .parenClose)) heq
  rw [htake, htake] at hyield
  obtain rfl := FuncArgList.yield_injective hyield
  exact ⟨rfl, (List.cons.inj (List.append_cancel_left heq)).2⟩

/-- The result type is read off, to the brace of the body. -/
lemma retType_readOff {retType retType' : Option CStr} {body body' : Derivation .scope}
    {s s' : List Token}
    (heq : (retType.map Token.identifier).toList ++ (body.yield ++ s) =
      (retType'.map Token.identifier).toList ++ (body'.yield ++ s')) :
    retType = retType' ∧ body.yield ++ s = body'.yield ++ s' := by
  have hhead : ∀ (body : Derivation .scope) (s l : List Token) (v : CStr),
      body.yield ++ s ≠ .identifier v :: l := by
    intro body s l v h
    cases body with
    | scope f stats =>
      rw [Derivation.yield] at h
      cases h
  cases retType with
  | none =>
    cases retType' with
    | none => exact ⟨rfl, heq⟩
    | some v' => exact absurd heq (hhead _ _ _ _)
  | some v =>
    cases retType' with
    | none => exact absurd heq.symm (hhead _ _ _ _)
    | some v' =>
      obtain ⟨hv, hrest⟩ := List.cons.inj heq
      cases hv
      exact ⟨rfl, hrest⟩

/-! ### Statements -/

/-- The first token tells the kind of a statement. -/
lemma keyword_eq_of_yield {stat stat' : Derivation .statement} {s s' : List Token}
    (heq : stat.yield ++ s = stat'.yield ++ s') : stat.keyword = stat'.keyword := by
  obtain ⟨t, l, hyield, -, ht⟩ := stat.head
  obtain ⟨t', l', hyield', -, ht'⟩ := stat'.head
  rw [hyield, hyield'] at heq
  rw [← ht, ← ht', (List.cons.inj heq).1]

lemma Flush.token_injective : Function.Injective Flush.token := by
  intro f f' h
  cases f <;> cases f' <;> first | rfl | cases h

lemma expression_readOff (e : Expression) (f : Flush) :
    ReadOff Derivation.yield CoreOk (.expression e f) := by
  intro stat' s s' hok hok' heq
  have hkeyword := keyword_eq_of_yield heq
  have hres := hok.resolved
  have hres' := hok'.resolved
  cases stat' with
  | expression e' f' =>
    rw [Derivation.Resolved] at hres hres'
    simp only [Derivation.yield, List.append_assoc, List.singleton_append] at heq
    have hstops : ∀ (e : Expression) (f : Flush) (s : List Token), e.Stops (f.token :: s) := by
      intro e f s
      apply e.stops_cons
      cases f <;> simp [Flush.token]
    obtain ⟨rfl, hf, hs⟩ := readOff_parens e.readOff hres hres' (hstops e f s) (hstops e' f' s') heq
    rw [Flush.token_injective hf, hs]
    exact ⟨rfl, rfl⟩
  | flush stat f' => simpa [Derivation.flushes] using hok'.flushes
  | _ => simp [Derivation.keyword] at hkeyword

lemma block_readOff {body : Derivation .scope} (h : ReadOff Derivation.yield ScopeOk body) :
    ReadOff Derivation.yield CoreOk (.block body) := by
  intro stat' s s' hok hok' heq
  have hkeyword := keyword_eq_of_yield heq
  have hres := hok.resolved
  have hres' := hok'.resolved
  cases stat' with
  | block body' =>
    rw [Derivation.Resolved] at hres hres'
    rw [Derivation.yield, Derivation.yield] at heq
    obtain ⟨rfl, hs⟩ := h body' s s' (hres.scope s) (hres'.scope s') heq
    exact ⟨rfl, hs⟩
  | flush stat f' => simpa [Derivation.flushes] using hok'.flushes
  | _ => simp [Derivation.keyword] at hkeyword

lemma switch_readOff {e : Expression} {f : Option Flush}
    {choices : Derivation .switchSelectionBlock}
    (h : ∀ choice ∈ choices.choices, ReadOff Derivation.yield ScopeOk choice.2) :
    ReadOff Derivation.yield CoreOk (.switch e f choices) := by
  intro stat' s s' hok hok' heq
  have hkeyword := keyword_eq_of_yield heq
  have hres := hok.resolved
  have hres' := hok'.resolved
  cases stat' with
  | switch e' f' choices' =>
    rw [Derivation.Resolved] at hres hres'
    simp only [Derivation.yield, List.cons_append, List.append_assoc, List.nil_append] at heq
    obtain ⟨rfl, -, hbody⟩ := readOff_parens e.readOff hres.1 hres'.1 (e.stops_cons _ (by simp))
      (e'.stops_cons _ (by simp)) (List.cons.inj heq).2
    obtain ⟨rfl, hchoices⟩ := flushYield_readOff (choices.separated_choices _)
      (choices'.separated_choices _) hbody
    obtain ⟨rfl, hs⟩ := choices_readOff h hres.2 hres'.2 hchoices
    exact ⟨rfl, hs⟩
  | flush stat f' => simpa [Derivation.flushes] using hok'.flushes
  | _ => simp [Derivation.keyword] at hkeyword

lemma while_readOff {e : Expression} {loopScope : Derivation .scope}
    (h : ReadOff Derivation.yield ScopeOk loopScope) :
    ReadOff Derivation.yield CoreOk (.while e loopScope) := by
  intro stat' s s' hok hok' heq
  have hkeyword := keyword_eq_of_yield heq
  have hres := hok.resolved
  have hres' := hok'.resolved
  cases stat' with
  | «while» e' loopScope' =>
    rw [Derivation.Resolved] at hres hres'
    simp only [Derivation.yield, List.cons_append, List.append_assoc] at heq
    obtain ⟨rfl, rfl, hs⟩ := header_readOff h hres.1 hres'.1 (hres.2.scope s) (hres'.2.scope s')
      (List.cons.inj heq).2
    exact ⟨rfl, hs⟩
  | flush stat f' => simpa [Derivation.flushes] using hok'.flushes
  | _ => simp [Derivation.keyword] at hkeyword

/-- A `return` goes as far as its expression does. -/
lemma ret_readOff (e : Expression) : ReadOff Derivation.yield CoreOk (.ret e) := by
  intro stat' s s' hok hok' heq
  have hkeyword := keyword_eq_of_yield heq
  have hres := hok.resolved
  have hres' := hok'.resolved
  cases stat' with
  | ret e' =>
    rw [Derivation.Resolved] at hres hres'
    rw [Derivation.yield, Derivation.yield] at heq
    obtain ⟨rfl, hs⟩ := e.readOff e' s s' ⟨hres.1, hok.follows.stops hres.2⟩
      ⟨hres'.1, hok'.follows.stops hres'.2⟩ (List.cons.inj heq).2
    exact ⟨rfl, hs⟩
  | flush stat f' => simpa [Derivation.flushes] using hok'.flushes
  | _ => simp [Derivation.keyword] at hkeyword

lemma func_readOff {name : CStr} {args : FuncArgList} {retType : Option CStr}
    {body : Derivation .scope} (h : ReadOff Derivation.yield ScopeOk body) :
    ReadOff Derivation.yield CoreOk (.func name args retType body) := by
  intro stat' s s' hok hok' heq
  have hkeyword := keyword_eq_of_yield heq
  have hres := hok.resolved
  have hres' := hok'.resolved
  cases stat' with
  | func name' args' retType' body' =>
    rw [Derivation.Resolved] at hres hres'
    simp only [Derivation.yield, List.cons_append, List.append_assoc, List.cons.injEq,
      Token.identifier.injEq, true_and] at heq
    obtain ⟨rfl, hargs⟩ := heq
    obtain ⟨rfl, hret⟩ := args_readOff hargs
    obtain ⟨rfl, hbody⟩ := retType_readOff hret
    obtain ⟨rfl, hs⟩ := h body' s s' (hres.scope s) (hres'.scope s') hbody
    exact ⟨rfl, hs⟩
  | flush stat f' => simpa [Derivation.flushes] using hok'.flushes
  | _ => simp [Derivation.keyword] at hkeyword

/-! ### Programs -/

/-- The parts of a derivation that are read off; of a statement, what is in front of its
separators. -/
def Derivation.PartsReadOff : {symbol : Nonterminal} → Derivation symbol → Prop
  | .scope, body => ReadOff Derivation.yield ScopeOk body
  | .statement, stat => ReadOff Derivation.yield CoreOk stat.core
  | .statements, stats => ∀ stat ∈ stats.stats, ReadOff Derivation.yield CoreOk stat.core
  | .switchSelectionBlock, choices =>
    ∀ choice ∈ choices.choices, ReadOff Derivation.yield ScopeOk choice.2
  | .elifSelectionBlock, elifs => ReadOff Derivation.yield ElifOk elifs

lemma Derivation.partsReadOff {symbol : Nonterminal} (d : Derivation symbol) : d.PartsReadOff := by
  induction d with
  | scope f stats ih => exact scope_readOff ih
  | empty =>
    intro stat hstat
    rw [stats] at hstat
    cases hstat
  | link stats stat ihs ih =>
    intro stat' hstat
    rw [Derivation.stats] at hstat
    rcases List.mem_append.mp hstat with hstat | hstat
    · exact ihs stat' hstat
    · rw [List.mem_singleton.mp hstat]
      exact ih
  | expression e f => simpa only [PartsReadOff, core] using expression_readOff e f
  | block body ih => simpa only [PartsReadOff, core] using block_readOff ih
  | ifThen e trueScope ih =>
    simpa only [PartsReadOff, core, IfTail.ifStat] using
      @IfTail.ifStat_readOff e trueScope .nothing ih trivial
  | ifElse e trueScope falseScope ih ihf =>
    simpa only [PartsReadOff, core, IfTail.ifStat] using
      @IfTail.ifStat_readOff e trueScope (.elseScope falseScope) ih ihf
  | ifElif e trueScope elifs ih ihe =>
    simpa only [PartsReadOff, core, IfTail.ifStat] using
      @IfTail.ifStat_readOff e trueScope (.elifBlock elifs) ih ihe
  | switch e f choices ih => simpa only [PartsReadOff, core] using switch_readOff ih
  | «while» e loopScope ih => simpa only [PartsReadOff, core] using while_readOff ih
  | ret e => simpa only [PartsReadOff, core] using ret_readOff e
  | func name args retType body ih => simpa only [PartsReadOff, core] using func_readOff ih
  | flush stat f ih => simpa only [PartsReadOff, core] using ih
  | firstChoice value body ih =>
    intro choice hchoice
    rw [Derivation.choices] at hchoice
    rw [List.mem_singleton.mp hchoice]
    exact ih
  | nextChoice choices value body ihs ih =>
    intro choice hchoice
    rw [Derivation.choices] at hchoice
    rcases List.mem_append.mp hchoice with hchoice | hchoice
    · exact ihs choice hchoice
    · rw [List.mem_singleton.mp hchoice]
      exact ih
  | elifThen e trueScope ih => exact @IfTail.elif_readOff e trueScope .nothing ih trivial
  | elifElif e trueScope elifs ih ihe =>
    exact @IfTail.elif_readOff e trueScope (.elifBlock elifs) ih ihe
  | elifElse e trueScope falseScope ih ihf =>
    exact @IfTail.elif_readOff e trueScope (.elseScope falseScope) ih ihf

lemma follows_program : ∀ program : List (Derivation .statement),
    Follows (programYield program) ∧ Separated (programYield program)
  | [] => by
    constructor <;> intro t ht <;> cases ht
  | stat :: program => stat.follows _

lemma ProgramResolved.okAll : ∀ {program : List (Derivation .statement)},
    ProgramResolved program → OkAll Derivation.yield StatOk program []
  | [], _ => trivial
  | stat :: program, h => by
    rw [ProgramResolved, firstToken, Option.or_none] at h
    rw [OkAll, List.append_nil]
    exact ⟨⟨h.1, (follows_program program).1, (follows_program program).2⟩, okAll h.2⟩

/-- No text has two derivations that the parser could find. -/
theorem program_unique {program program' : List (Derivation .statement)}
    (h : ProgramResolved program) (h' : ProgramResolved program')
    (hyield : programYield program = programYield program') : program = program' := by
  have hread : ∀ stat ∈ program, ReadOff Derivation.yield StatOk stat :=
    fun stat _ => ReadOff.of_core stat.partsReadOff
  have hstart : NoStart Derivation.yield StatOk [] := by
    intro stat t _ heq
    obtain ⟨t', l, hstat, -⟩ := stat.head
    rw [hstat] at heq
    cases heq
  have heq : program.flatMap Derivation.yield ++ [] = program'.flatMap Derivation.yield ++ [] := by
    rw [List.append_nil, List.append_nil]
    exact hyield
  exact (readOff_flatMap hread h.okAll h'.okAll hstart hstart heq).1

end PhantomShell
