import Mathlib.Data.List.Basic

/-!
# Operator precedence parsing

Expressions of atoms, unary operators in front of their operand, binary operators, groups in
parentheses, and calls, which are an expression and a group behind it. The grammar is ambiguous, and
a table says whether the rule that ends at the top of the stack is reduced or the operator behind it
is shifted. The parser returns exactly the trees that are grouped as the table says
(`parse_eq_some_iff`), and there is one for every text of the grammar (`exists_grouped`).
-/

namespace PhantomShell

/-! ## Trees -/

/-- A derivation of the ambiguous grammar. -/
inductive OpTree (α π β : Type*)
  | atom (a : α)
  | unary (p : π) (t : OpTree α π β)
  | binary (b : β) (l r : OpTree α π β)
  | group (t : OpTree α π β)
  | call (f t : OpTree α π β)

/-- A token where an operand must start. -/
inductive OpHead (α π : Type*)
  | atom (a : α)
  | unary (p : π)
  | openParen

/-- A token behind an operand. -/
inductive OpTail (β : Type*)
  | binary (b : β)
  | openParen
  | closeParen

/-- What the tokens are in the two places. -/
structure OpLexicon (τ α π β : Type*) where
  head : τ → Option (OpHead α π)
  tail : τ → Option (OpTail β)
  headToken : OpHead α π → τ
  tailToken : OpTail β → τ
  head_eq : ∀ t h, head t = some h ↔ t = headToken h
  tail_eq : ∀ t h, tail t = some h ↔ t = tailToken h

/-- A rule that ends in an expression. -/
inductive OpRule (π β : Type*)
  | unary (p : π)
  | binary (b : β)

/-- An operator that goes on behind an expression; `call` is the parenthesis of one. -/
inductive OpNext (β : Type*)
  | binary (b : β)
  | call

variable {τ α π β : Type*}

namespace OpTree

/-- The tokens of a tree. -/
def yield (lex : OpLexicon τ α π β) : OpTree α π β → List τ
  | atom a => [lex.headToken (.atom a)]
  | unary p t => lex.headToken (.unary p) :: yield lex t
  | binary b l r => yield lex l ++ lex.tailToken (.binary b) :: yield lex r
  | group t => lex.headToken .openParen :: (yield lex t ++ [lex.tailToken .closeParen])
  | call f t => yield lex f ++ lex.tailToken .openParen :: (yield lex t ++ [lex.tailToken .closeParen])

/-- The operators that follow an expression at the start of the tree. -/
def leftEdge : OpTree α π β → List (OpNext β)
  | binary b l _ => leftEdge l ++ [.binary b]
  | call f _ => leftEdge f ++ [.call]
  | _ => []

/-- The rules that end at the end of the tree. -/
def rightEdge : OpTree α π β → List (OpRule π β)
  | unary p t => .unary p :: rightEdge t
  | binary b _ r => .binary b :: rightEdge r
  | _ => []

variable (reduces : OpRule π β → OpNext β → Bool)

/-- The tree has been grouped as the table says: what is behind an expression was not shifted where
the table reduces, nor the other way round. -/
def Grouped : OpTree α π β → Prop
  | atom _ => True
  | unary p t => Grouped t ∧ ∀ next ∈ leftEdge t, reduces (.unary p) next = false
  | binary b l r => (Grouped l ∧ ∀ rule ∈ rightEdge l, reduces rule (.binary b)) ∧
      Grouped r ∧ ∀ next ∈ leftEdge r, reduces (.binary b) next = false
  | group t => Grouped t
  | call f t => (Grouped f ∧ ∀ rule ∈ rightEdge f, reduces rule .call) ∧ Grouped t

end OpTree

/-! ## The parser -/

/-- What is on the stack in front of an expression. -/
inductive OpFrame (α π β : Type*)
  | unary (p : π)
  | binary (b : β) (l : OpTree α π β)
  | group
  | call (f : OpTree α π β)

/-- The stack, and the expression at its top if there is one. -/
abbrev OpState (α π β : Type*) := List (OpFrame α π β) × Option (OpTree α π β)

/-- Rules are reduced as long as they should be. -/
def reduceWhile (red : OpRule π β → Bool) :
    List (OpFrame α π β) → OpTree α π β → List (OpFrame α π β) × OpTree α π β
  | .unary p :: fs, e => if red (.unary p) then reduceWhile red fs (.unary p e) else (.unary p :: fs, e)
  | .binary b l :: fs, e =>
    if red (.binary b) then reduceWhile red fs (.binary b l e) else (.binary b l :: fs, e)
  | fs, e => (fs, e)

section

variable (lex : OpLexicon τ α π β) (reduces : OpRule π β → OpNext β → Bool)

/-- One token. -/
def opStep : OpState α π β → τ → Option (OpState α π β)
  | (fs, none), t =>
    match lex.head t with
    | some (.atom a) => some (fs, some (.atom a))
    | some (.unary p) => some (.unary p :: fs, none)
    | some .openParen => some (.group :: fs, none)
    | none => none
  | (fs, some e), t =>
    match lex.tail t with
    | some (.binary b) =>
      let (fs, e) := reduceWhile (reduces · (.binary b)) fs e
      some (.binary b e :: fs, none)
    | some .openParen =>
      let (fs, e) := reduceWhile (reduces · .call) fs e
      some (.call e :: fs, none)
    | some .closeParen =>
      match reduceWhile (fun _ => true) fs e with
      | (.group :: fs, e) => some (fs, some (.group e))
      | (.call f :: fs, e) => some (fs, some (.call f e))
      | _ => none
    | none => none

/-- A sequence of tokens. -/
def opRun (s : OpState α π β) (tokens : List τ) : Option (OpState α π β) :=
  tokens.foldlM (opStep lex reduces) s

/-- The end of the text. -/
def opFinish : OpState α π β → Option (OpTree α π β)
  | (_, none) => none
  | (fs, some e) =>
    match reduceWhile (fun _ => true) fs e with
    | ([], e) => some e
    | _ => none

/-- The tree of a text. -/
def opParse (tokens : List τ) : Option (OpTree α π β) :=
  (opRun lex reduces ([], none) tokens).bind opFinish

/-! ## Runs -/

variable {lex reduces}

lemma opRun_cons {s s' : OpState α π β} {t : τ} (h : opStep lex reduces s t = some s')
    (tokens : List τ) : opRun lex reduces s (t :: tokens) = opRun lex reduces s' tokens := by
  rw [opRun, List.foldlM_cons, h]
  rfl

lemma opRun_append {s s' : OpState α π β} {as : List τ} (h : opRun lex reduces s as = some s')
    (bs : List τ) : opRun lex reduces s (as ++ bs) = opRun lex reduces s' bs := by
  rw [opRun, List.foldlM_append, ← opRun, h]
  rfl

lemma opStep_head (fs : List (OpFrame α π β)) (h : OpHead α π) :
    opStep lex reduces (fs, none) (lex.headToken h) =
      match h with
      | .atom a => some (fs, some (.atom a))
      | .unary p => some (.unary p :: fs, none)
      | .openParen => some (.group :: fs, none) := by
  have hhead : lex.head (lex.headToken h) = some h := (lex.head_eq _ _).mpr rfl
  rw [opStep, hhead]
  cases h <;> rfl

variable (lex reduces) in
lemma opStep_binary (fs : List (OpFrame α π β)) (e : OpTree α π β) (b : β) :
    opStep lex reduces (fs, some e) (lex.tailToken (.binary b)) =
      some (.binary b (reduceWhile (reduces · (.binary b)) fs e).2 ::
        (reduceWhile (reduces · (.binary b)) fs e).1, none) := by
  have htail : lex.tail (lex.tailToken (.binary b)) = some (.binary b) := (lex.tail_eq _ _).mpr rfl
  rw [opStep, htail]

variable (lex reduces) in
lemma opStep_call (fs : List (OpFrame α π β)) (e : OpTree α π β) :
    opStep lex reduces (fs, some e) (lex.tailToken .openParen) =
      some (.call (reduceWhile (reduces · .call) fs e).2 ::
        (reduceWhile (reduces · .call) fs e).1, none) := by
  have htail : lex.tail (lex.tailToken .openParen) = some .openParen := (lex.tail_eq _ _).mpr rfl
  rw [opStep, htail]

variable (lex reduces) in
lemma opStep_close (fs : List (OpFrame α π β)) (e : OpTree α π β) :
    opStep lex reduces (fs, some e) (lex.tailToken .closeParen) =
      match reduceWhile (fun _ => true) fs e with
      | (.group :: fs, e) => some (fs, some (.group e))
      | (.call f :: fs, e) => some (fs, some (.call f e))
      | _ => none := by
  have htail : lex.tail (lex.tailToken .closeParen) = some .closeParen := (lex.tail_eq _ _).mpr rfl
  rw [opStep, htail]

end

/-- The rule that ends at the top of the stack. -/
def topRule : List (OpFrame α π β) → Option (OpRule π β)
  | .unary p :: _ => some (.unary p)
  | .binary b _ :: _ => some (.binary b)
  | _ => none

/-- A rule that is not reduced stops the parser. -/
lemma reduceWhile_stop {red : OpRule π β → Bool} {fs : List (OpFrame α π β)}
    (h : ∀ rule ∈ topRule fs, red rule = false) (e : OpTree α π β) :
    reduceWhile red fs e = (fs, e) := by
  cases fs with
  | nil => rfl
  | cons frame fs =>
    cases frame with
    | unary p => rw [reduceWhile, if_neg (by simp [h (.unary p) rfl])]
    | binary b l => rw [reduceWhile, if_neg (by simp [h (.binary b) rfl])]
    | group => rfl
    | call f => rfl

/-! ## Grouped trees are returned -/

section

variable (lex : OpLexicon τ α π β) (reduces : OpRule π β → OpNext β → Bool)

/-- The rule at the top lets these operators be shifted. -/
def Shifts (fs : List (OpFrame α π β)) (nexts : List (OpNext β)) : Prop :=
  ∀ rule ∈ topRule fs, ∀ next ∈ nexts, reduces rule next = false

variable {reduces}

/-- Behind the tokens of a grouped tree the rules at its end are still to be reduced. -/
lemma opRun_grouped {t : OpTree α π β} (ht : t.Grouped reduces) {fs : List (OpFrame α π β)}
    (hfs : Shifts reduces fs t.leftEdge) :
    ∃ gs e, opRun lex reduces (fs, none) (t.yield lex) = some (gs, some e) ∧
      ∀ red : OpRule π β → Bool, (∀ rule ∈ t.rightEdge, red rule) →
        reduceWhile red gs e = reduceWhile red fs t := by
  induction t generalizing fs with
  | atom a => exact ⟨fs, .atom a, opRun_cons (opStep_head fs (.atom a)) [], fun red _ => rfl⟩
  | unary p t ih =>
    obtain ⟨ht, hshift⟩ := ht
    have hfs' : Shifts reduces (.unary p :: fs) t.leftEdge := by
      rintro rule ⟨⟩ next hnext
      exact hshift next hnext
    obtain ⟨gs, e, hrun, hred⟩ := ih ht hfs'
    refine ⟨gs, e, (opRun_cons (opStep_head fs (.unary p)) _).trans hrun, ?_⟩
    intro red hrules
    obtain ⟨hp, hrules⟩ := List.forall_mem_cons.mp hrules
    rw [hred red hrules, reduceWhile, if_pos hp]
  | binary b l r ihl ihr =>
    obtain ⟨⟨hl, hedge⟩, hr, hshift⟩ := ht
    have hleft : Shifts reduces fs l.leftEdge := fun rule hrule next hnext =>
      hfs rule hrule next (by simp [OpTree.leftEdge, hnext])
    obtain ⟨gs, e, hrun, hred⟩ := ihl hl hleft
    -- the operator reduces the left operand up to its own frame and no further
    have hstop : reduceWhile (reduces · (.binary b)) fs l = (fs, l) :=
      reduceWhile_stop (fun rule hrule => hfs rule hrule _ (by simp [OpTree.leftEdge])) l
    have hstep := opStep_binary lex reduces gs e b
    rw [hred _ hedge, hstop] at hstep
    have hright : Shifts reduces (.binary b l :: fs) r.leftEdge := by
      rintro rule ⟨⟩ next hnext
      exact hshift next hnext
    obtain ⟨gs', e', hrun', hred'⟩ := ihr hr hright
    refine ⟨gs', e', ?_, ?_⟩
    · rw [OpTree.yield, opRun_append hrun, opRun_cons hstep, hrun']
    · intro red hrules
      obtain ⟨hb, hrules⟩ := List.forall_mem_cons.mp hrules
      rw [hred' red hrules, reduceWhile, if_pos hb]
  | group t ih =>
    have hfs' : Shifts reduces (.group :: fs) t.leftEdge := nofun
    obtain ⟨gs, e, hrun, hred⟩ := ih ht hfs'
    have hstep := opStep_close lex reduces gs e
    rw [hred _ fun _ _ => rfl] at hstep
    refine ⟨fs, .group t, ?_, fun red _ => rfl⟩
    rw [OpTree.yield, opRun_cons (opStep_head fs .openParen), opRun_append hrun]
    exact opRun_cons hstep []
  | call f t ihf iht =>
    obtain ⟨⟨hf, hedge⟩, ht⟩ := ht
    have hleft : Shifts reduces fs f.leftEdge := fun rule hrule next hnext =>
      hfs rule hrule next (by simp [OpTree.leftEdge, hnext])
    obtain ⟨gs, e, hrun, hred⟩ := ihf hf hleft
    have hstop : reduceWhile (reduces · .call) fs f = (fs, f) :=
      reduceWhile_stop (fun rule hrule => hfs rule hrule _ (by simp [OpTree.leftEdge])) f
    have hstep := opStep_call lex reduces gs e
    rw [hred _ hedge, hstop] at hstep
    have hright : Shifts reduces (.call f :: fs) t.leftEdge := nofun
    obtain ⟨gs', e', hrun', hred'⟩ := iht ht hright
    have hclose := opStep_close lex reduces gs' e'
    rw [hred' _ fun _ _ => rfl] at hclose
    refine ⟨fs, .call f t, ?_, fun red _ => rfl⟩
    rw [OpTree.yield, opRun_append hrun, opRun_cons hstep, opRun_append hrun']
    exact opRun_cons hclose []

/-- A grouped tree is the tree of its text. -/
lemma opParse_grouped {t : OpTree α π β} (ht : t.Grouped reduces) :
    opParse lex reduces (t.yield lex) = some t := by
  have hfs : Shifts reduces ([] : List (OpFrame α π β)) t.leftEdge := nofun
  obtain ⟨gs, e, hrun, hred⟩ := opRun_grouped lex ht hfs
  rw [opParse, hrun, Option.bind_some, opFinish, hred _ fun _ _ => rfl]
  rfl

/-! ## Only grouped trees are returned -/

/-- The tokens of the stack. -/
def framesYield : List (OpFrame α π β) → List τ
  | [] => []
  | .unary p :: fs => framesYield fs ++ [lex.headToken (.unary p)]
  | .binary b l :: fs => framesYield fs ++ l.yield lex ++ [lex.tailToken (.binary b)]
  | .group :: fs => framesYield fs ++ [lex.headToken .openParen]
  | .call f :: fs => framesYield fs ++ f.yield lex ++ [lex.tailToken .openParen]

def stateYield : OpState α π β → List τ
  | (fs, none) => framesYield lex fs
  | (fs, some e) => framesYield lex fs ++ e.yield lex

variable (reduces) in
/-- An expression that an operator was shifted behind. -/
def Followed (fs : List (OpFrame α π β)) (e : OpTree α π β) (next : OpNext β) : Prop :=
  e.Grouped reduces ∧ (∀ rule ∈ e.rightEdge, reduces rule next) ∧
    Shifts reduces fs (e.leftEdge ++ [next])

variable (reduces) in
/-- The expressions on the stack are grouped, together with what is behind them. -/
def FramesGrouped : List (OpFrame α π β) → Prop
  | [] => True
  | .unary _ :: fs => FramesGrouped fs
  | .binary b l :: fs => FramesGrouped fs ∧ Followed reduces fs l (.binary b)
  | .group :: fs => FramesGrouped fs
  | .call f :: fs => FramesGrouped fs ∧ Followed reduces fs f .call

variable (reduces) in
/-- So is the expression at the top, at which no rule has been reduced yet. -/
def StateGrouped : OpState α π β → Prop
  | (fs, none) => FramesGrouped reduces fs
  | (fs, some e) => FramesGrouped reduces fs ∧ e.Grouped reduces ∧ Shifts reduces fs e.leftEdge ∧
      e.rightEdge = []

variable (reduces) in
/-- What is left when rules have been reduced. -/
structure Reduced (red : OpRule π β → Bool) (fs : List (OpFrame α π β)) (e : OpTree α π β)
    (fs' : List (OpFrame α π β)) (e' : OpTree α π β) : Prop where
  frames : FramesGrouped reduces fs'
  grouped : e'.Grouped reduces
  shifts : Shifts reduces fs' e'.leftEdge
  reduced : ∀ rule ∈ e'.rightEdge, red rule
  stopped : ∀ rule ∈ topRule fs', red rule = false
  yield : framesYield lex fs' ++ e'.yield lex = framesYield lex fs ++ e.yield lex

lemma reduceWhile_grouped {red : OpRule π β → Bool} {fs : List (OpFrame α π β)} {e : OpTree α π β}
    (hfs : FramesGrouped reduces fs) (he : e.Grouped reduces)
    (hshift : Shifts reduces fs e.leftEdge) (hred : ∀ rule ∈ e.rightEdge, red rule) :
    Reduced lex reduces red fs e (reduceWhile red fs e).1 (reduceWhile red fs e).2 := by
  induction fs generalizing e with
  | nil => exact ⟨hfs, he, hshift, hred, nofun, rfl⟩
  | cons frame fs ih =>
    cases frame with
    | unary p =>
      rw [reduceWhile]
      split
      · next hp =>
        have h := ih (e := .unary p e) hfs ⟨he, fun next hnext => hshift _ rfl next hnext⟩ nofun
          (List.forall_mem_cons.mpr ⟨hp, hred⟩)
        exact { h with yield := by rw [h.yield]; simp [framesYield, OpTree.yield] }
      · next hp =>
        refine ⟨hfs, he, hshift, hred, ?_, rfl⟩
        rintro rule ⟨⟩
        simpa using hp
    | binary b l =>
      obtain ⟨hfs', hl, hedge, hshift'⟩ := hfs
      rw [reduceWhile]
      split
      · next hb =>
        have h := ih (e := .binary b l e) hfs'
          ⟨⟨hl, hedge⟩, he, fun next hnext => hshift _ rfl next hnext⟩ hshift'
          (List.forall_mem_cons.mpr ⟨hb, hred⟩)
        exact { h with yield := by rw [h.yield]; simp [framesYield, OpTree.yield] }
      · next hb =>
        refine ⟨⟨hfs', hl, hedge, hshift'⟩, he, hshift, hred, ?_, rfl⟩
        rintro rule ⟨⟩
        simpa using hb
    | group => exact ⟨hfs, he, hshift, hred, nofun, rfl⟩
    | call f => exact ⟨hfs, he, hshift, hred, nofun, rfl⟩

/-- An operator is shifted behind what has been reduced. -/
lemma Reduced.followed {fs fs' : List (OpFrame α π β)} {e e' : OpTree α π β} {next : OpNext β}
    (h : Reduced lex reduces (reduces · next) fs e fs' e') :
    Followed reduces fs' e' next := by
  refine ⟨h.grouped, h.reduced, ?_⟩
  intro rule hrule next' hnext
  rcases List.mem_append.mp hnext with hnext | hnext
  · exact h.shifts rule hrule next' hnext
  · rw [List.mem_singleton.mp hnext]
    exact h.stopped rule hrule

/-- One token is read. -/
lemma opStep_grouped {s s' : OpState α π β} {t : τ} (h : opStep lex reduces s t = some s')
    (hs : StateGrouped reduces s) :
    StateGrouped reduces s' ∧ stateYield lex s' = stateYield lex s ++ [t] := by
  obtain ⟨fs, top⟩ := s
  cases top with
  | none =>
    rw [opStep] at h
    cases hhead : lex.head t with
    | none => simp [hhead] at h
    | some head =>
      obtain rfl := (lex.head_eq t head).mp hhead
      rw [hhead] at h
      cases head with
      | atom a =>
        cases h
        exact ⟨⟨hs, trivial, fun _ _ => nofun, rfl⟩, rfl⟩
      | unary p =>
        cases h
        exact ⟨hs, rfl⟩
      | openParen =>
        cases h
        exact ⟨hs, rfl⟩
  | some e =>
    obtain ⟨hfs, he, hshift, hedge⟩ := hs
    -- whatever the token is, what it reduces before it is shifted stays grouped
    have hreduced : ∀ red : OpRule π β → Bool,
        Reduced lex reduces red fs e (reduceWhile red fs e).1 (reduceWhile red fs e).2 :=
      fun red => reduceWhile_grouped lex hfs he hshift (by simp [hedge])
    rw [opStep] at h
    cases htail : lex.tail t with
    | none => simp [htail] at h
    | some tail =>
      obtain rfl := (lex.tail_eq t tail).mp htail
      rw [htail] at h
      cases tail with
      | binary b =>
        cases h
        have hr := hreduced (reduces · (.binary b))
        exact ⟨⟨hr.frames, hr.followed⟩, by rw [stateYield, framesYield, hr.yield]; rfl⟩
      | openParen =>
        cases h
        have hr := hreduced (reduces · .call)
        exact ⟨⟨hr.frames, hr.followed⟩, by rw [stateYield, framesYield, hr.yield]; rfl⟩
      | closeParen =>
        have hr := hreduced fun _ => true
        simp only at h
        split at h
        · next gs e' heq =>
          rw [heq] at hr
          cases h
          refine ⟨⟨hr.frames, hr.grouped, fun _ _ => nofun, rfl⟩, ?_⟩
          rw [stateYield, stateYield, ← hr.yield]
          simp [framesYield, OpTree.yield]
        · next f gs e' heq =>
          rw [heq] at hr
          cases h
          obtain ⟨hgs, hf, hfedge, hfshift⟩ := hr.frames
          refine ⟨⟨hgs, ⟨⟨hf, hfedge⟩, hr.grouped⟩, hfshift, rfl⟩, ?_⟩
          rw [stateYield, stateYield, ← hr.yield]
          simp [framesYield, OpTree.yield]
        · cases h

/-- All tokens are read. -/
lemma opRun_stateGrouped {s s' : OpState α π β} {tokens : List τ}
    (h : opRun lex reduces s tokens = some s') (hs : StateGrouped reduces s) :
    StateGrouped reduces s' ∧ stateYield lex s' = stateYield lex s ++ tokens := by
  induction tokens generalizing s with
  | nil =>
    cases h
    exact ⟨hs, (List.append_nil _).symm⟩
  | cons t tokens ih =>
    rw [opRun, List.foldlM_cons, Option.bind_eq_bind, Option.bind_eq_some_iff] at h
    obtain ⟨s₁, hstep, hrun⟩ := h
    obtain ⟨hs₁, hyield₁⟩ := opStep_grouped lex hstep hs
    obtain ⟨hs', hyield⟩ := ih hrun hs₁
    refine ⟨hs', ?_⟩
    rw [hyield, hyield₁, List.append_assoc, List.singleton_append]

/-- The parser returns the tree that is grouped as the table says, if the text has one. -/
theorem opParse_eq_some_iff {tokens : List τ} {t : OpTree α π β} :
    opParse lex reduces tokens = some t ↔ t.Grouped reduces ∧ t.yield lex = tokens := by
  constructor
  · intro h
    obtain ⟨⟨fs, top⟩, hrun, hfinish⟩ := Option.bind_eq_some_iff.mp h
    obtain ⟨hs, hyield⟩ := opRun_stateGrouped lex hrun trivial
    cases top with
    | none => cases hfinish
    | some e =>
      obtain ⟨hfs, he, hshift, hedge⟩ := hs
      have hr : Reduced lex reduces (fun _ => true) fs e (reduceWhile (fun _ => true) fs e).1
          (reduceWhile (fun _ => true) fs e).2 :=
        reduceWhile_grouped lex hfs he hshift (by simp [hedge])
      rw [opFinish] at hfinish
      split at hfinish
      · next e' heq =>
        rw [heq] at hr
        cases hfinish
        exact ⟨hr.grouped, hr.yield.trans hyield⟩
      · cases hfinish
  · rintro ⟨ht, rfl⟩
    exact opParse_grouped lex ht

/-- There is one such tree at most. -/
theorem OpTree.Grouped.unique {t t' : OpTree α π β} (ht : t.Grouped reduces)
    (ht' : t'.Grouped reduces) (hyield : t.yield lex = t'.yield lex) : t = t' := by
  have h := opParse_grouped lex ht
  rw [hyield, opParse_grouped lex ht'] at h
  exact (Option.some.inj h).symm

/-! ## Every text of the grammar is accepted -/

/-- The stack from the last open parenthesis on. -/
def framesBase : List (OpFrame α π β) → List (OpFrame α π β)
  | .unary _ :: fs => framesBase fs
  | .binary _ _ :: fs => framesBase fs
  | fs => fs

lemma framesBase_reduceWhile (red : OpRule π β → Bool) (fs : List (OpFrame α π β))
    (e : OpTree α π β) : framesBase (reduceWhile red fs e).1 = framesBase fs := by
  induction fs generalizing e with
  | nil => rfl
  | cons frame fs ih =>
    cases frame with
    | unary p =>
      rw [reduceWhile]
      split
      · exact ih _
      · rfl
    | binary b l =>
      rw [reduceWhile]
      split
      · exact ih _
      · rfl
    | group => rfl
    | call f => rfl

/-- At a closing parenthesis, and at the end, all rules are reduced. -/
lemma reduceWhile_all (fs : List (OpFrame α π β)) (e : OpTree α π β) :
    ∃ e', reduceWhile (fun _ => true) fs e = (framesBase fs, e') := by
  induction fs generalizing e with
  | nil => exact ⟨e, rfl⟩
  | cons frame fs ih =>
    cases frame with
    | unary p => exact ih (.unary p e)
    | binary b l => exact ih (.binary b l e)
    | group => exact ⟨e, rfl⟩
    | call f => exact ⟨e, rfl⟩

variable (reduces) in
/-- The tokens of any tree lead to an expression, and to no other parenthesis. -/
lemma opRun_yield (d : OpTree α π β) (fs : List (OpFrame α π β)) :
    ∃ gs e, opRun lex reduces (fs, none) (d.yield lex) = some (gs, some e) ∧
      framesBase gs = framesBase fs := by
  induction d generalizing fs with
  | atom a => exact ⟨fs, .atom a, opRun_cons (opStep_head fs (.atom a)) [], rfl⟩
  | unary p d ih =>
    obtain ⟨gs, e, hrun, hbase⟩ := ih (.unary p :: fs)
    exact ⟨gs, e, (opRun_cons (opStep_head fs (.unary p)) _).trans hrun, hbase⟩
  | binary b l r ihl ihr =>
    obtain ⟨gs, e, hrun, hbase⟩ := ihl fs
    have hstep := opStep_binary lex reduces gs e b
    obtain ⟨gs', e', hrun', hbase'⟩ := ihr (.binary b (reduceWhile (reduces · (.binary b)) gs e).2 ::
      (reduceWhile (reduces · (.binary b)) gs e).1)
    refine ⟨gs', e', ?_, ?_⟩
    · rw [OpTree.yield, opRun_append hrun, opRun_cons hstep, hrun']
    · rw [hbase', framesBase, framesBase_reduceWhile, hbase]
  | group d ih =>
    obtain ⟨gs, e, hrun, hbase⟩ := ih (.group :: fs)
    -- a closing parenthesis reduces all that is above the opening one
    obtain ⟨e', hreduce⟩ := reduceWhile_all gs e
    have hstep := opStep_close lex reduces gs e
    rw [hreduce, hbase] at hstep
    refine ⟨fs, .group e', ?_, rfl⟩
    rw [OpTree.yield, opRun_cons (opStep_head fs .openParen), opRun_append hrun]
    exact opRun_cons hstep []
  | call f d ihf ihd =>
    obtain ⟨gs, e, hrun, hbase⟩ := ihf fs
    have hstep := opStep_call lex reduces gs e
    obtain ⟨gs', e', hrun', hbase'⟩ := ihd (.call (reduceWhile (reduces · .call) gs e).2 ::
      (reduceWhile (reduces · .call) gs e).1)
    obtain ⟨e'', hreduce⟩ := reduceWhile_all gs' e'
    have hclose := opStep_close lex reduces gs' e'
    rw [hreduce, hbase'] at hclose
    refine ⟨(reduceWhile (reduces · .call) gs e).1,
      .call (reduceWhile (reduces · .call) gs e).2 e'', ?_, ?_⟩
    · rw [OpTree.yield, opRun_append hrun, opRun_cons hstep, opRun_append hrun']
      exact opRun_cons hclose []
    · rw [framesBase_reduceWhile, hbase]

variable (reduces) in
/-- The text of any derivation has a tree that is grouped as the table says. -/
theorem exists_grouped (d : OpTree α π β) :
    ∃ t : OpTree α π β, t.Grouped reduces ∧ t.yield lex = d.yield lex := by
  obtain ⟨gs, e, hrun, hbase⟩ := opRun_yield lex reduces d []
  obtain ⟨t, hreduce⟩ := reduceWhile_all gs e
  rw [hbase] at hreduce
  refine ⟨t, (opParse_eq_some_iff lex).mp ?_⟩
  rw [opParse, hrun, Option.bind_some, opFinish, hreduce]
  rfl

end

end PhantomShell
