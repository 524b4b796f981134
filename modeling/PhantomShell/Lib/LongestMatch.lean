import PhantomShell.Lib.Scanner

/-!
# Longest matches as a relation

What the rules of a scanner mean: a text is split into lexemes, each of them the longest start of what
is left that any rule describes, with the token of the first rule that describes it. A scanner finds
just these tokens (`tokens_eq_iff`) if no repeated class of a pattern can be confused with what is
behind it, and some rule matches wherever the text goes on.
-/

namespace PhantomShell

variable {σ τ : Type*} {rules : List (ScanRule σ τ)} {rule : ScanRule σ τ}

/-- The rule takes `w` from `w ++ rest`: no rule describes a longer start of this text, and no rule in
front of it describes `w`. -/
structure TakesLongest (rules : List (ScanRule σ τ)) (rule : ScanRule σ τ) (w rest : List σ) :
    Prop where
  describes : Matches rule.pattern w
  longest : ∀ rule' ∈ rules, ∀ s t, w ++ rest = s ++ t → Matches rule'.pattern s →
    s.length ≤ w.length
  first : ∃ before after, rules = before ++ rule :: after ∧
    ∀ rule' ∈ before, ¬ Matches rule'.pattern w

/-- A text and its tokens. -/
inductive Tokenized (rules : List (ScanRule σ τ)) : List σ → List τ → Prop
  | nil : Tokenized rules [] []
  | lexeme {rule : ScanRule σ τ} {w rest : List σ} {toks : List τ} (hw : w ≠ [])
    (htakes : TakesLongest rules rule w rest) (hrest : Tokenized rules rest toks) :
    Tokenized rules (w ++ rest) ((rule.action w).toList ++ toks)

/-! ## Lengths -/

/-- What a rule takes it describes. -/
lemma matches_take {text : List σ} (h : rule.length text ≠ 0) :
    Matches rule.pattern (text.take (rule.length text)) := by
  rw [ScanRule.length] at h ⊢
  cases hgreedy : greedy rule.pattern text with
  | none =>
    rw [hgreedy] at h
    exact absurd rfl h
  | some n => exact (matches_of_greedy hgreedy).2

/-- What a rule describes it takes, with more of the text at most. -/
lemma le_length_of_matches (hrule : Deterministic rule.pattern) {w : List σ}
    (h : Matches rule.pattern w) (rest : List σ) : w.length ≤ rule.length (w ++ rest) := by
  obtain ⟨n, hn, hle⟩ := greedy_longest hrule h rest
  rw [ScanRule.length, hn]
  exact hle

/-- One of the rules has the longest match. -/
lemma exists_length_eq {text : List σ} (h : matchLength rules text ≠ 0) :
    ∃ rule ∈ rules, rule.length text = matchLength rules text := by
  induction rules with
  | nil => exact absurd rfl h
  | cons rule rules ih =>
    rw [matchLength, List.foldr_cons, ← matchLength] at h ⊢
    by_cases hle : matchLength rules text ≤ rule.length text
    · exact ⟨rule, List.mem_cons_self, (max_eq_left hle).symm⟩
    · rw [max_eq_right (by omega)] at h ⊢
      obtain ⟨rule', hmem, hlength⟩ := ih h
      exact ⟨rule', List.mem_cons_of_mem _ hmem, hlength⟩

lemma length_take_matchLength (rules : List (ScanRule σ τ)) (text : List σ) :
    (text.take (matchLength rules text)).length = matchLength rules text := by
  rw [List.length_take, Nat.min_eq_left (matchLength_le rules text)]

/-! ## One lexeme -/

section

variable (hrules : ∀ rule ∈ rules, Deterministic rule.pattern)

include hrules

lemma TakesLongest.matchLength_eq {w rest : List σ} (h : TakesLongest rules rule w rest) :
    matchLength rules (w ++ rest) = w.length := by
  obtain ⟨before, after, heq, -⟩ := h.first
  have hmem : rule ∈ rules := by
    rw [heq]
    exact List.mem_append_right _ List.mem_cons_self
  apply le_antisymm
  · by_cases hzero : matchLength rules (w ++ rest) = 0
    · rw [hzero]
      exact Nat.zero_le _
    obtain ⟨rule', hmem', hlength⟩ := exists_length_eq hzero
    have hmatch := @matches_take _ _ rule' _ (by rw [hlength]; exact hzero)
    rw [hlength] at hmatch
    have hle := h.longest rule' hmem' _ _ (List.take_append_drop _ _).symm hmatch
    rwa [length_take_matchLength] at hle
  · exact matchLength_longest hrules hmem h.describes

/-- The scanner takes what the rule takes. -/
lemma TakesLongest.lexeme_eq {w rest : List σ} (hw : w ≠ []) (h : TakesLongest rules rule w rest) :
    PhantomShell.lexeme rules (w ++ rest) = rule.action w := by
  have hlength := h.matchLength_eq hrules
  obtain ⟨before, after, heq, hfirst⟩ := h.first
  have hmem : rule ∈ rules := by
    rw [heq]
    exact List.mem_append_right _ List.mem_cons_self
  have hfind : rules.find? (fun rule => rule.length (w ++ rest) == w.length) = some rule := by
    rw [List.find?_eq_some_iff_append]
    refine ⟨?_, before, after, heq, ?_⟩
    · have hle := ScanRule.length_le_matchLength hmem (w ++ rest)
      have hge := le_length_of_matches (hrules rule hmem) h.describes rest
      rw [beq_iff_eq]
      omega
    · -- a rule in front of it that took as much would describe the same
      intro rule' hmem'
      rw [Bool.not_eq_true', beq_eq_false_iff_ne]
      intro hlen
      have hpos := List.length_pos_iff.mpr hw
      have hmatch := @matches_take _ _ rule' (w ++ rest) (by omega)
      rw [hlen, List.take_left] at hmatch
      exact hfirst rule' hmem' hmatch
  rw [PhantomShell.lexeme, hlength, hfind, List.take_left]
  rfl

/-- Where some rule matches, one takes the longest match. -/
lemma exists_takesLongest {text : List σ} (hpos : matchLength rules text ≠ 0) :
    ∃ rule, TakesLongest rules rule (text.take (matchLength rules text))
      (text.drop (matchLength rules text)) := by
  obtain ⟨rule₁, hmem₁, hlength₁⟩ := exists_length_eq hpos
  obtain ⟨rule, hfind⟩ : ∃ rule,
      rules.find? (fun rule => rule.length text == matchLength rules text) = some rule := by
    apply Option.isSome_iff_exists.mp
    rw [List.find?_isSome]
    exact ⟨rule₁, hmem₁, by rw [beq_iff_eq]; exact hlength₁⟩
  obtain ⟨hlength, before, after, heq, hbefore⟩ := List.find?_eq_some_iff_append.mp hfind
  rw [beq_iff_eq] at hlength
  have hmatch := @matches_take _ _ rule _ (by rw [hlength]; exact hpos)
  rw [hlength] at hmatch
  refine ⟨rule, hmatch, ?_, before, after, heq, ?_⟩
  · intro rule' hmem' s t hsplit hs
    rw [List.take_append_drop] at hsplit
    rw [length_take_matchLength, hsplit]
    exact matchLength_longest hrules hmem' hs
  · intro rule' hmem' hs
    have hmem : rule' ∈ rules := by
      rw [heq]
      exact List.mem_append_left _ hmem'
    have hle := ScanRule.length_le_matchLength hmem text
    have hge := le_length_of_matches (hrules rule' hmem) hs
      (text.drop (matchLength rules text))
    rw [List.take_append_drop, length_take_matchLength] at hge
    have hne := hbefore rule' hmem'
    rw [Bool.not_eq_true', beq_eq_false_iff_ne] at hne
    exact hne (le_antisymm hle hge)

/-! ## Texts -/

/-- The tokens of a text are what the scanner finds. -/
lemma Tokenized.tokens_eq {text : List σ} {toks : List τ} (h : Tokenized rules text toks) :
    tokens rules text = toks := by
  induction h with
  | nil => rw [tokens, scan_nil]
  | @lexeme rule w rest toks hw htakes _ ih =>
    have hlength := htakes.matchLength_eq hrules
    have hpos := List.length_pos_iff.mpr hw
    rw [tokens_of_pos (by omega), htakes.lexeme_eq hrules hw, hlength, List.drop_left, ih]

/-- What the scanner finds are the tokens of the text. -/
lemma tokenized_tokens (hmatch : ∀ text, text ≠ [] → matchLength rules text ≠ 0) (text : List σ) :
    Tokenized rules text (tokens rules text) := by
  induction hlen : text.length using Nat.strong_induction_on generalizing text with
  | _ n ih =>
    by_cases hnil : text = []
    · rw [hnil, tokens, scan_nil]
      exact .nil
    have hpos := hmatch text hnil
    obtain ⟨rule, htakes⟩ := exists_takesLongest hrules hpos
    have hw : text.take (matchLength rules text) ≠ [] := by
      intro hw
      have hlength := length_take_matchLength rules text
      rw [hw] at hlength
      exact hpos hlength.symm
    have hshorter : (text.drop (matchLength rules text)).length < n := by
      have hle := matchLength_le rules text
      rw [List.length_drop]
      omega
    have hlexeme := htakes.lexeme_eq hrules hw
    rw [List.take_append_drop] at hlexeme
    have htokens := Tokenized.lexeme hw htakes (ih _ hshorter _ rfl)
    rw [List.take_append_drop, ← hlexeme, ← tokens_of_pos hpos] at htokens
    exact htokens

/-- The scanner computes the relation. -/
theorem tokens_eq_iff (hmatch : ∀ text, text ≠ [] → matchLength rules text ≠ 0) {text : List σ}
    {toks : List τ} : tokens rules text = toks ↔ Tokenized rules text toks := by
  constructor
  · intro h
    rw [← h]
    exact tokenized_tokens hrules hmatch text
  · intro h
    exact h.tokens_eq hrules

end

end PhantomShell
