import PhantomShell.Lib.ReadOff
import PhantomShell.Parser.Grammar

/-!
# Reading expressions off

An expression is cut into the items that its operators stand between, which are read off from the
left; the table of precedence then leaves one tree for them (`Expression.readOff`).
-/

namespace PhantomShell

/-! ## Items -/

/-- A part of an expression that is no expression of operators again, or is inside of parentheses. -/
inductive Item
  | operand (a : Operand)
  | group (e : Expression)
  | ternary (e₁ e₂ e₃ : Expression)
  | varDeclaration (varType varName : CStr)
  | unary (p : UnaryOperator)
  | binary (b : BinaryOperator)
  | args (e : Expression)

def Item.yield : Item → List Token
  | operand a => [a.token]
  | group e | args e => .parenOpen :: (e.yield ++ [.parenClose])
  | ternary e₁ e₂ e₃ =>
    .parenOpen :: (e₁.yield ++ .char 63 :: (e₂.yield ++ .char 58 :: (e₃.yield ++ [.parenClose])))
  | varDeclaration varType varName => [.identifier varType, .identifier varName]
  | unary p => [p.token]
  | binary b => [b.token]

/-- The expressions inside of its parentheses. -/
def Item.inner : Item → List Expression
  | group e | args e => [e]
  | ternary e₁ e₂ e₃ => [e₁, e₂, e₃]
  | _ => []

/-- The items of an expression, from the left. -/
def Expression.items : Expression → List Item
  | .operand a => [.operand a]
  | .unary p e => .unary p :: e.items
  | .binary b l r => l.items ++ .binary b :: r.items
  | .call f e => f.items ++ [.args e]
  | .group e => [.group e]
  | .ternary e₁ e₂ e₃ => [.ternary e₁ e₂ e₃]
  | .varDeclaration varType varName => [.varDeclaration varType varName]

lemma Expression.flatMap_items (e : Expression) : e.items.flatMap Item.yield = e.yield := by
  induction e with
  | unary p e ih => simp [items, Item.yield, yield, ih]
  | binary b l r ihl ihr => simp [items, Item.yield, yield, ihl, ihr]
  | call f e ihf ihe => simp [items, Item.yield, yield, ihf]
  | _ => simp [items, Item.yield, yield]

/-- It goes on behind an operand. -/
def Item.isBehind : Item → Bool
  | binary _ | args _ => true
  | _ => false

/-- It ends an operand. -/
def Item.ends : Item → Bool
  | unary _ | binary _ => false
  | _ => true

/-- Items in the order of an expression; `behind` tells whether an operand has just ended. -/
def Alternates : Bool → List Item → Prop
  | behind, [] => behind = true
  | behind, item :: l => item.isBehind = behind ∧ Alternates item.ends l

lemma Expression.alternates_append (e : Expression) {l : List Item} (hl : Alternates true l) :
    Alternates false (e.items ++ l) := by
  induction e generalizing l with
  | unary p e ih => exact ⟨rfl, ih hl⟩
  | binary b left right ihl ihr =>
    rw [items, List.append_assoc]
    apply ihl
    exact ⟨rfl, ihr hl⟩
  | call f e ihf ihe =>
    rw [items, List.append_assoc]
    apply ihf
    exact ⟨rfl, hl⟩
  | _ => exact ⟨rfl, hl⟩

lemma Expression.alternates (e : Expression) : Alternates false e.items := by
  have h := @alternates_append e [] rfl
  rwa [List.append_nil] at h

/-! ### The tree of the items -/

/-- The tokens of the table, each for itself. -/
def itemLexicon : OpLexicon (OpHead Expression UnaryOperator ⊕ OpTail BinaryOperator) Expression
    UnaryOperator BinaryOperator where
  head := Sum.getLeft?
  tail := Sum.getRight?
  headToken := .inl
  tailToken := .inr
  head_eq _ _ := Sum.getLeft?_eq_some_iff
  tail_eq _ _ := Sum.getRight?_eq_some_iff

/-- The expression for its operators; what is in parentheses is an operand. -/
def Expression.spine : Expression → OpTree Expression UnaryOperator BinaryOperator
  | .unary p e => .unary p e.spine
  | .binary b l r => .binary b l.spine r.spine
  | .call f e => .call f.spine (.atom e)
  | e => .atom e

/-- What the table has for an item. -/
def Item.symbols : Item → List (OpHead Expression UnaryOperator ⊕ OpTail BinaryOperator)
  | operand a => [.inl (.atom (.operand a))]
  | group e => [.inl (.atom (.group e))]
  | ternary e₁ e₂ e₃ => [.inl (.atom (.ternary e₁ e₂ e₃))]
  | varDeclaration varType varName => [.inl (.atom (.varDeclaration varType varName))]
  | unary p => [.inl (.unary p)]
  | binary b => [.inr (.binary b)]
  | args e => [.inr .openParen, .inl (.atom e), .inr .closeParen]

lemma Expression.yield_spine (e : Expression) :
    e.spine.yield itemLexicon = e.items.flatMap Item.symbols := by
  induction e with
  | unary p e ih => simp [spine, items, OpTree.yield, Item.symbols, itemLexicon, ← ih]
  | binary b l r ihl ihr =>
    simp [spine, items, OpTree.yield, Item.symbols, itemLexicon, ← ihl, ← ihr]
  | call f e ihf ihe => simp [spine, items, OpTree.yield, Item.symbols, itemLexicon, ← ihf]
  | _ => simp [spine, items, OpTree.yield, Item.symbols, itemLexicon]

lemma Expression.leftEdge_spine (e : Expression) : e.spine.leftEdge = e.tree.leftEdge := by
  induction e with
  | binary b l r ihl ihr => simp [spine, tree, OpTree.leftEdge, ihl]
  | call f e ihf ihe => simp [spine, tree, OpTree.leftEdge, ihf]
  | _ => rfl

lemma Expression.rightEdge_spine (e : Expression) : e.spine.rightEdge = e.tree.rightEdge := by
  induction e with
  | unary p e ih => simp [spine, tree, OpTree.rightEdge, ih]
  | binary b l r ihl ihr => simp [spine, tree, OpTree.rightEdge, ihr]
  | _ => rfl

lemma Expression.Resolved.grouped {e : Expression} (h : e.Resolved) :
    e.spine.Grouped yaccReduces := by
  induction e with
  | unary p e ih => exact ⟨ih h.1, by rw [leftEdge_spine]; exact h.2⟩
  | binary b l r ihl ihr =>
    refine ⟨⟨ihl h.1.1, ?_⟩, ihr h.2.1, ?_⟩
    · rw [rightEdge_spine]
      exact h.1.2
    · rw [leftEdge_spine]
      exact h.2.2
  | call f e ihf ihe =>
    refine ⟨⟨ihf h.1.1, ?_⟩, trivial⟩
    rw [rightEdge_spine]
    exact h.1.2
  | _ => trivial

lemma Expression.spine_injective : Function.Injective Expression.spine := by
  intro e e' h
  induction e generalizing e' with
  | unary p e ih =>
    cases e' with
    | unary p' e' =>
      obtain ⟨rfl, heq⟩ := OpTree.unary.inj h
      rw [ih heq]
    | _ => cases h
  | binary b l r ihl ihr =>
    cases e' with
    | binary b' l' r' =>
      obtain ⟨rfl, hl, hr⟩ := OpTree.binary.inj h
      rw [ihl hl, ihr hr]
    | _ => cases h
  | call f e ihf ihe =>
    cases e' with
    | call f' e' =>
      obtain ⟨hf, he⟩ := OpTree.call.inj h
      rw [ihf hf, OpTree.atom.inj he]
    | _ => cases h
  | _ =>
    cases e' with
    | unary p' e' => cases h
    | binary b' l' r' => cases h
    | call f' e' => cases h
    | _ => exact OpTree.atom.inj h

/-- For its items the table leaves one expression. -/
lemma Expression.Resolved.eq_of_items {e e' : Expression} (h : e.Resolved) (h' : e'.Resolved)
    (hitems : e.items = e'.items) : e = e' := by
  apply Expression.spine_injective
  apply h.grouped.unique itemLexicon h'.grouped
  rw [Expression.yield_spine, Expression.yield_spine, hitems]

lemma Expression.Resolved.inner {e : Expression} (h : e.Resolved) :
    ∀ item ∈ e.items, ∀ e₁ ∈ item.inner, e₁.Resolved := by
  induction e with
  | unary p e ih => simpa [items, Item.inner] using ih h.1
  | binary b l r ihl ihr =>
    intro item hitem
    rcases List.mem_append.mp hitem with hitem | hitem
    · exact ihl h.1.1 item hitem
    · rcases List.mem_cons.mp hitem with rfl | hitem
      · exact fun e₁ h₁ => absurd h₁ List.not_mem_nil
      · exact ihr h.2.1 item hitem
  | call f e ihf ihe =>
    intro item hitem
    rcases List.mem_append.mp hitem with hitem | hitem
    · exact ihf h.1.1 item hitem
    · rw [List.mem_singleton.mp hitem]
      intro e₁ h₁
      rw [List.mem_singleton.mp h₁]
      exact h.2
  | group e ih => simpa [items, Item.inner, Resolved] using h
  | ternary e₁ e₂ e₃ ih₁ ih₂ ih₃ => simpa [items, Item.inner, Resolved] using h
  | _ => simp [items, Item.inner]

/-! ## Reading an expression off -/

/-- Nothing that goes on with the expression is behind it. -/
def Expression.Stops (e : Expression) (s : List Token) : Prop :=
  ∀ t ∈ s.head?, e.continues t = false ∧ ∀ b : BinaryOperator, t ≠ b.token

/-- The derivation of the parser, with nothing behind that goes on with it. -/
def Expression.Ok (e : Expression) (s : List Token) : Prop := e.Resolved ∧ e.Stops s

/-- An item in its place; an identifier that has another one behind it is a type. -/
structure Item.Ok (behind : Bool) (item : Item) (s : List Token) : Prop where
  place : item.isBehind = behind
  inner : ∀ e ∈ item.inner, e.Resolved
  noType : ∀ v, item = .operand (.identifier v) → ∀ w, s.head? ≠ some (.identifier w)

lemma headToken_injective : Function.Injective headToken := by
  intro h h' heq
  have hsome := (operandToken_eq_some_iff (headToken h) h').mpr heq
  rw [(operandToken_eq_some_iff _ h).mpr rfl] at hsome
  exact Option.some.inj hsome

lemma tailToken_injective : Function.Injective tailToken := by
  intro h h' heq
  have hsome := (operatorToken_eq_some_iff (tailToken h) h').mpr heq
  rw [(operatorToken_eq_some_iff _ h).mpr rfl] at hsome
  exact Option.some.inj hsome

/-- Behind an expression these are no operators. -/
lemma Expression.stops_cons (e : Expression) {t : Token} (s : List Token)
    (ht : t = .parenClose ∨ t = .char 63 ∨ t = .char 58 ∨ t = .braceOpen ∨ t = .semicolon ∨
      t = .newline) : e.Stops (t :: s) := by
  intro t' ht'
  obtain rfl := Option.some.inj ht'
  rcases ht with rfl | rfl | rfl | rfl | rfl | rfl
  all_goals
    refine ⟨rfl, ?_⟩
    intro b
    cases b <;> decide

/-- In parentheses it is read off up to the closing one. -/
lemma readOff_parens {e e' : Expression} {r r' : List Token}
    (h : ReadOff Expression.yield Expression.Ok e) (he : e.Resolved) (he' : e'.Resolved)
    {t t' : Token} (ht : e.Stops (t :: r)) (ht' : e'.Stops (t' :: r'))
    (heq : e.yield ++ t :: r = e'.yield ++ t' :: r') : e = e' ∧ t = t' ∧ r = r' := by
  obtain ⟨rfl, hrest⟩ := h e' _ _ ⟨he, ht⟩ ⟨he', ht'⟩ heq
  exact ⟨rfl, List.cons.inj hrest⟩

/-- The token that an item in front of an operand starts with. -/
def Item.head : Item → OpHead Operand UnaryOperator
  | operand a => .atom a
  | varDeclaration varType _ => .atom (.identifier varType)
  | unary p => .unary p
  | _ => .openParen

lemma Item.yield_eq_cons {item : Item} (h : item.isBehind = false) :
    item.yield = headToken item.head :: item.yield.tail := by
  cases item with
  | binary b => cases h
  | args e => cases h
  | _ => rfl

/-- Behind an operand there are operators and arguments. -/
lemma Item.readOff_behind {item : Item}
    (h : ∀ e ∈ item.inner, ReadOff Expression.yield Expression.Ok e) :
    ReadOff Item.yield (Item.Ok true) item := by
  intro item' s s' hok hok' heq
  have hplace' := hok'.place
  cases item with
  | binary b =>
    cases item' with
    | binary b' =>
      obtain ⟨hb, hs⟩ := List.cons.inj heq
      cases @tailToken_injective (.binary b) (.binary b') hb
      exact ⟨rfl, hs⟩
    | args e' => cases @tailToken_injective (.binary b) .openParen (List.cons.inj heq).1
    | _ => cases hplace'
  | args e =>
    cases item' with
    | binary b' => cases @tailToken_injective .openParen (.binary b') (List.cons.inj heq).1
    | args e' =>
      simp only [Item.yield, List.cons_append, List.append_assoc, List.nil_append] at heq
      obtain ⟨rfl, -, hs⟩ := readOff_parens (h e List.mem_cons_self)
        (hok.inner e List.mem_cons_self) (hok'.inner e' List.mem_cons_self)
        (e.stops_cons s (.inl rfl)) (e'.stops_cons s' (.inl rfl)) (List.cons.inj heq).2
      exact ⟨rfl, hs⟩
    | _ => cases hplace'
  | _ => cases hok.place

/-- What is behind the first expression in parentheses tells a group from a choice. -/
lemma Item.readOff_open {item item' : Item} {s s' : List Token}
    (h : ∀ e ∈ item.inner, ReadOff Expression.yield Expression.Ok e) (hok : item.Ok false s)
    (hok' : item'.Ok false s') (hopen : item.head = .openParen) (hopen' : item'.head = .openParen)
    (heq : item.yield ++ s = item'.yield ++ s') : item = item' ∧ s = s' := by
  have hin := hok.inner
  have hin' := hok'.inner
  cases item with
  | group e =>
    have he := h e (by simp [Item.inner])
    cases item' with
    | group e' =>
      simp only [Item.yield, List.cons_append, List.append_assoc, List.nil_append] at heq
      obtain ⟨rfl, -, hs⟩ := readOff_parens he (hin e (by simp [Item.inner]))
        (hin' e' (by simp [Item.inner])) (e.stops_cons _ (by simp)) (e'.stops_cons _ (by simp))
        (List.cons.inj heq).2
      exact ⟨rfl, hs⟩
    | ternary e₁ e₂ e₃ =>
      simp only [Item.yield, List.cons_append, List.append_assoc, List.nil_append] at heq
      -- the same expression, so one token behind it: `)` is not `?`
      obtain ⟨-, ht, -⟩ := readOff_parens he (hin e (by simp [Item.inner]))
        (hin' e₁ (by simp [Item.inner])) (e.stops_cons _ (by simp)) (e₁.stops_cons _ (by simp))
        (List.cons.inj heq).2
      cases ht
    | binary b => cases hok'.place
    | args e' => cases hok'.place
    | _ => cases hopen'
  | ternary e₁ e₂ e₃ =>
    have he₁ := h e₁ (by simp [Item.inner])
    cases item' with
    | group e' =>
      simp only [Item.yield, List.cons_append, List.append_assoc, List.nil_append] at heq
      obtain ⟨-, ht, -⟩ := readOff_parens he₁ (hin e₁ (by simp [Item.inner]))
        (hin' e' (by simp [Item.inner])) (e₁.stops_cons _ (by simp)) (e'.stops_cons _ (by simp))
        (List.cons.inj heq).2
      cases ht
    | ternary e₁' e₂' e₃' =>
      simp only [Item.yield, List.cons_append, List.append_assoc, List.nil_append] at heq
      obtain ⟨rfl, -, heq⟩ := readOff_parens he₁ (hin e₁ (by simp [Item.inner]))
        (hin' e₁' (by simp [Item.inner])) (e₁.stops_cons _ (by simp)) (e₁'.stops_cons _ (by simp))
        (List.cons.inj heq).2
      obtain ⟨rfl, -, heq⟩ := readOff_parens (h e₂ (by simp [Item.inner]))
        (hin e₂ (by simp [Item.inner])) (hin' e₂' (by simp [Item.inner]))
        (e₂.stops_cons _ (by simp)) (e₂'.stops_cons _ (by simp)) heq
      obtain ⟨rfl, -, hs⟩ := readOff_parens (h e₃ (by simp [Item.inner]))
        (hin e₃ (by simp [Item.inner])) (hin' e₃' (by simp [Item.inner]))
        (e₃.stops_cons _ (by simp)) (e₃'.stops_cons _ (by simp)) heq
      exact ⟨rfl, hs⟩
    | binary b => cases hok'.place
    | args e' => cases hok'.place
    | _ => cases hopen'
  | binary b => cases hok.place
  | args e => cases hok.place
  | _ => cases hopen

/-- In front of an operand the first token tells the rest. -/
lemma Item.readOff_front {item : Item}
    (h : ∀ e ∈ item.inner, ReadOff Expression.yield Expression.Ok e) :
    ReadOff Item.yield (Item.Ok false) item := by
  intro item' s s' hok hok' heq
  have hplace' := hok'.place
  have hhead : item.head = item'.head := by
    rw [Item.yield_eq_cons hok.place, Item.yield_eq_cons hplace'] at heq
    exact headToken_injective (List.cons.inj heq).1
  cases item with
  | operand a =>
    cases item' with
    | operand a' =>
      cases hhead
      exact ⟨rfl, (List.cons.inj heq).2⟩
    | varDeclaration varType varName =>
      cases hhead
      -- the other name would be behind this one
      have hs : s = .identifier varName :: s' := (List.cons.inj heq).2
      exact absurd (by rw [hs]; rfl) (hok.noType _ rfl varName)
    | unary p => cases hhead
    | binary b => cases hplace'
    | args e => cases hplace'
    | _ => cases hhead
  | varDeclaration varType varName =>
    cases item' with
    | operand a =>
      cases hhead
      have hs : .identifier varName :: s = s' := (List.cons.inj heq).2
      exact absurd (by rw [← hs]; rfl) (hok'.noType _ rfl varName)
    | varDeclaration varType' varName' =>
      obtain ⟨htype, htail⟩ := List.cons.inj heq
      obtain ⟨hname, hs⟩ := List.cons.inj htail
      cases htype
      cases hname
      exact ⟨rfl, hs⟩
    | binary b => cases hplace'
    | args e => cases hplace'
    | _ => cases hhead
  | unary p =>
    cases item' with
    | unary p' =>
      cases hhead
      exact ⟨rfl, (List.cons.inj heq).2⟩
    | binary b => cases hplace'
    | args e => cases hplace'
    | _ => cases hhead
  | group e => exact readOff_open h hok hok' rfl hhead.symm heq
  | ternary e₁ e₂ e₃ => exact readOff_open h hok hok' rfl hhead.symm heq
  | binary b => cases hok.place
  | args e => cases hok.place

/-! ### All items -/

/-- Nothing that goes on with these items is behind them. -/
def ItemsStop (items : List Item) (s : List Token) : Prop :=
  ∀ t ∈ s.head?, t ≠ .parenOpen ∧ (∀ b : BinaryOperator, t ≠ b.token) ∧
    ∀ v, items.getLast? = some (.operand (.identifier v)) → ∀ w, t ≠ .identifier w

lemma ItemsStop.tail {item : Item} {items : List Item} {s : List Token}
    (h : ItemsStop (item :: items) s) : ItemsStop items s := by
  intro t ht
  obtain ⟨hparen, hbinary, hident⟩ := h t ht
  refine ⟨hparen, hbinary, ?_⟩
  intro v hv
  apply hident v
  rw [List.getLast?_cons, hv]
  rfl

/-- No item is behind. -/
lemma ItemsStop.not_item {items l : List Item} {s s' : List Token} {item : Item}
    (h : ItemsStop items s) (hplace : item.isBehind = true)
    (heq : s = item.yield ++ (l.flatMap Item.yield ++ s')) : False := by
  cases item with
  | binary b => exact (h b.token (by rw [heq]; rfl)).2.1 b rfl
  | args e => exact (h .parenOpen (by rw [heq]; rfl)).1 rfl
  | _ => cases hplace

/-- Behind an operand there is no identifier. -/
lemma noType_of_alternates {v : CStr} {items : List Item} {s : List Token}
    (hitems : Alternates true items) (h : ItemsStop (.operand (.identifier v) :: items) s) (w : CStr) :
    (items.flatMap Item.yield ++ s).head? ≠ some (.identifier w) := by
  intro heq
  cases items with
  | nil => exact (h _ heq).2.2 v rfl w rfl
  | cons item items =>
    have hplace := hitems.1
    cases item with
    | binary b => cases b <;> cases heq
    | args e => cases heq
    | _ => cases hplace

/-- The item is in its place. -/
lemma Item.ok_of_alternates {item : Item} {items : List Item} {behind : Bool} {s : List Token}
    (halt : Alternates behind (item :: items)) (hin : ∀ e ∈ item.inner, e.Resolved)
    (hs : ItemsStop (item :: items) s) : item.Ok behind (items.flatMap Item.yield ++ s) where
  place := halt.1
  inner := hin
  noType := by
    rintro v rfl
    exact noType_of_alternates halt.2 hs

/-- The items of an expression are read off, to where they stop. -/
lemma items_readOff {l l' : List Item} {behind : Bool} {s s' : List Token}
    (h : ∀ item ∈ l, ∀ e ∈ item.inner, ReadOff Expression.yield Expression.Ok e)
    (hin : ∀ item ∈ l, ∀ e ∈ item.inner, e.Resolved)
    (hin' : ∀ item ∈ l', ∀ e ∈ item.inner, e.Resolved) (hl : Alternates behind l)
    (hl' : Alternates behind l') (hs : ItemsStop l s) (hs' : ItemsStop l' s')
    (heq : l.flatMap Item.yield ++ s = l'.flatMap Item.yield ++ s') : l = l' ∧ s = s' := by
  induction l generalizing l' behind with
  | nil =>
    cases l' with
    | nil => exact ⟨rfl, heq⟩
    | cons item' l' =>
      rw [List.flatMap_cons, List.append_assoc] at heq
      have hplace : item'.isBehind = true := hl'.1.trans hl
      exact (hs.not_item hplace heq).elim
  | cons item l ih =>
    cases l' with
    | nil =>
      rw [List.flatMap_cons, List.append_assoc] at heq
      have hplace : item.isBehind = true := hl.1.trans hl'
      exact (hs'.not_item hplace heq.symm).elim
    | cons item' l' =>
      rw [List.flatMap_cons, List.flatMap_cons, List.append_assoc, List.append_assoc] at heq
      have hread : ReadOff Item.yield (Item.Ok behind) item := by
        cases behind with
        | true => exact Item.readOff_behind (h item List.mem_cons_self)
        | false => exact Item.readOff_front (h item List.mem_cons_self)
      obtain ⟨rfl, hrest⟩ := hread item' _ _
        (Item.ok_of_alternates hl (hin item List.mem_cons_self) hs)
        (Item.ok_of_alternates hl' (hin' item' List.mem_cons_self) hs') heq
      obtain ⟨rfl, hend⟩ := ih (fun i hi => h i (List.mem_cons_of_mem _ hi))
        (fun i hi => hin i (List.mem_cons_of_mem _ hi))
        (fun i hi => hin' i (List.mem_cons_of_mem _ hi)) hl.2 hl'.2 hs.tail hs'.tail hrest
      exact ⟨rfl, hend⟩

lemma Expression.endsInIdentifier_of_getLast? {e : Expression} {v : CStr}
    (h : e.items.getLast? = some (.operand (.identifier v))) : e.endsInIdentifier = true := by
  induction e with
  | operand a =>
    cases h
    rfl
  | unary p e ih =>
    rw [items, List.getLast?_cons] at h
    apply ih
    cases hlast : e.items.getLast? with
    | none =>
      rw [hlast] at h
      cases h
    | some item =>
      rw [hlast] at h
      exact h
  | binary b l r ihl ihr =>
    rw [items, List.getLast?_append, List.getLast?_cons] at h
    apply ihr
    cases hlast : r.items.getLast? with
    | none =>
      rw [hlast] at h
      cases h
    | some item =>
      rw [hlast] at h
      exact h
  | call f e ihf ihe =>
    rw [items, List.getLast?_append] at h
    cases h
  | _ => cases h

lemma Expression.Stops.items {e : Expression} {s : List Token} (h : e.Stops s) :
    ItemsStop e.items s := by
  intro t ht
  obtain ⟨hcontinues, hbinary⟩ := h t ht
  refine ⟨?_, hbinary, ?_⟩
  · rintro rfl
    cases hcontinues
  · rintro v hv w rfl
    rw [continues, endsInIdentifier_of_getLast? hv] at hcontinues
    cases hcontinues

/-- An expression is read off if what is in its parentheses is. -/
lemma Expression.readOff_of_inner {e : Expression}
    (h : ∀ item ∈ e.items, ∀ e₁ ∈ item.inner, ReadOff Expression.yield Expression.Ok e₁) :
    ReadOff Expression.yield Expression.Ok e := by
  intro e' s s' hok hok' heq
  rw [← e.flatMap_items, ← e'.flatMap_items] at heq
  obtain ⟨hitems, hs⟩ := items_readOff h hok.1.inner hok'.1.inner e.alternates e'.alternates
    hok.2.items hok'.2.items heq
  exact ⟨hok.1.eq_of_items hok'.1 hitems, hs⟩

theorem Expression.inner_readOff (e : Expression) :
    ∀ item ∈ e.items, ∀ e₁ ∈ item.inner, ReadOff Expression.yield Expression.Ok e₁ := by
  induction e with
  | unary p e ih => simpa [items, Item.inner] using ih
  | binary b l r ihl ihr =>
    intro item hitem
    rcases List.mem_append.mp hitem with hitem | hitem
    · exact ihl item hitem
    · rcases List.mem_cons.mp hitem with rfl | hitem
      · exact fun e₁ h₁ => absurd h₁ List.not_mem_nil
      · exact ihr item hitem
  | call f e ihf ihe =>
    intro item hitem
    rcases List.mem_append.mp hitem with hitem | hitem
    · exact ihf item hitem
    · rw [List.mem_singleton.mp hitem]
      intro e₁ h₁
      rw [List.mem_singleton.mp h₁]
      exact readOff_of_inner ihe
  | group e ih => simpa [items, Item.inner] using readOff_of_inner ih
  | ternary e₁ e₂ e₃ ih₁ ih₂ ih₃ =>
    simpa [items, Item.inner] using
      ⟨readOff_of_inner ih₁, readOff_of_inner ih₂, readOff_of_inner ih₃⟩
  | _ => simp [items, Item.inner]

/-- An expression is read off, to where nothing goes on with it. -/
theorem Expression.readOff (e : Expression) : ReadOff Expression.yield Expression.Ok e :=
  readOff_of_inner e.inner_readOff

end PhantomShell
