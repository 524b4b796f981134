import PhantomShell.Lib.Scanner

/-!
# Lexemes

The texts of the tokens. A lexeme that is cut out of its text still has the longest match of its rule
(`ScanRule.length_shorter`), so that the lexemes can be put apart and scanned again.
-/

namespace PhantomShell

variable {σ τ : Type*}

/-! ## The texts of tokens -/

/-- The token together with its text. -/
def ScanRule.paired (rule : ScanRule σ τ) : ScanRule σ (List σ × τ) :=
  ⟨rule.pattern, fun text => (rule.action text).map (text, ·)⟩

/-- The lexemes that have a token, each with its token. -/
def lexemes (rules : List (ScanRule σ τ)) (text : List σ) : List (List σ × τ) :=
  tokens (rules.map ScanRule.paired) text

lemma matchLength_paired (rules : List (ScanRule σ τ)) (text : List σ) :
    matchLength (rules.map ScanRule.paired) text = matchLength rules text := by
  rw [matchLength, List.foldr_map]
  rfl

lemma lexeme_paired (rules : List (ScanRule σ τ)) (text : List σ) :
    lexeme (rules.map ScanRule.paired) text =
      (lexeme rules text).map (text.take (matchLength rules text), ·) := by
  rw [lexeme, lexeme, matchLength_paired, List.find?_map, Option.bind_map, Option.map_bind]
  rfl

lemma lexemes_nil (rules : List (ScanRule σ τ)) : lexemes rules [] = [] := scan_nil _ _

/-- One round. -/
lemma lexemes_of_pos {rules : List (ScanRule σ τ)} {text : List σ} (hpos : matchLength rules text ≠ 0) :
    lexemes rules text = ((lexeme rules text).map (text.take (matchLength rules text), ·)).toList ++
      lexemes rules (text.drop (matchLength rules text)) := by
  rw [lexemes, tokens_of_pos (by rw [matchLength_paired]; exact hpos), lexeme_paired, matchLength_paired]
  rfl

lemma lexemes_of_zero {rules : List (ScanRule σ τ)} {text : List σ} (hzero : matchLength rules text = 0) :
    lexemes rules text = [] := by
  rw [lexemes, tokens]
  cases text with
  | nil => rfl
  | cons b text =>
    rw [List.length_cons, scan, if_pos (by rw [matchLength_paired]; exact hzero)]

/-- The induction over the rounds of a scanner. -/
lemma lexemes_induction {rules : List (ScanRule σ τ)} {P : List σ → Prop}
    (zero : ∀ text, matchLength rules text = 0 → P text)
    (step : ∀ text, matchLength rules text ≠ 0 → P (text.drop (matchLength rules text)) → P text)
    (text : List σ) : P text := by
  induction hlen : text.length using Nat.strong_induction_on generalizing text with
  | _ n ih =>
    by_cases hpos : matchLength rules text = 0
    · exact zero text hpos
    · have hle := matchLength_le rules text
      exact step text hpos (ih _ (by rw [List.length_drop]; omega) _ rfl)

/-- The tokens are those of the lexemes. -/
lemma map_lexemes (rules : List (ScanRule σ τ)) (text : List σ) :
    (lexemes rules text).map Prod.snd = tokens rules text := by
  induction text using (@lexemes_induction _ _ rules _) with
  | zero text hzero =>
    rw [lexemes_of_zero hzero, tokens]
    cases text with
    | nil => rfl
    | cons b text =>
      rw [List.length_cons, scan, if_pos hzero]
      rfl
  | step text hpos ih =>
    rw [lexemes_of_pos hpos, tokens_of_pos hpos, List.map_append, ih]
    cases lexeme rules text <;> rfl

/-- A lexeme has only symbols of the text. -/
lemma mem_of_mem_lexemes {rules : List (ScanRule σ τ)} {text : List σ} :
    ∀ l ∈ lexemes rules text, ∀ b ∈ l.1, b ∈ text := by
  induction text using (@lexemes_induction _ _ rules _) with
  | zero text hzero =>
    rw [lexemes_of_zero hzero]
    exact fun l hl => absurd hl List.not_mem_nil
  | step text hpos ih =>
    rw [lexemes_of_pos hpos]
    intro l hl b hb
    cases List.mem_append.mp hl with
    | inl hl =>
      rw [Option.mem_toList] at hl
      obtain ⟨tok, -, rfl⟩ := Option.map_eq_some_iff.mp hl
      exact List.mem_of_mem_take hb
    | inr hl => exact List.mem_of_mem_drop (ih l hl b hb)

/-! ## Lexemes that are cut out -/

/-- What a pattern has taken inside of a text it takes without the rest. -/
lemma greedy_shorter {ps : List (Piece σ)} {w rest : List σ} {n : ℕ}
    (h : greedy ps (w ++ rest) = some n) (hn : n ≤ w.length) : greedy ps w = some n := by
  induction ps generalizing w rest n with
  | nil => exact h
  | cons piece ps ih =>
    cases piece with
    | one p =>
      cases w with
      | nil =>
        cases rest with
        | nil => exact h
        | cons b rest =>
          rw [List.nil_append, greedy_one] at h
          split at h
          · obtain ⟨m, -, rfl⟩ := Option.map_eq_some_iff.mp h
            cases hn
          · cases h
      | cons b w =>
        rw [List.cons_append, greedy_one] at h
        rw [greedy_one]
        split at h
        · next hb =>
          obtain ⟨m, hm, rfl⟩ := Option.map_eq_some_iff.mp h
          rw [if_pos hb, ih hm (by simpa using hn)]
          rfl
        · cases h
    | many p =>
      rw [greedy_many] at h ⊢
      obtain ⟨m, hm, rfl⟩ := Option.map_eq_some_iff.mp h
      rw [List.dropWhile_append] at hm
      rw [List.takeWhile_append] at hn ⊢
      have hsplit := congrArg List.length (List.takeWhile_append_dropWhile (p := p) (l := w))
      rw [List.length_append] at hsplit
      split at hm
      · -- the class takes all of `w`, so that nothing is left for the rest
        next hnil =>
        have hall : w.takeWhile p = w := by
          have happend := List.takeWhile_append_dropWhile (p := p) (l := w)
          rw [List.isEmpty_iff.mp hnil, List.append_nil] at happend
          exact happend
        rw [List.isEmpty_iff.mp hnil] at hsplit ⊢
        rw [if_pos (congrArg List.length hall), List.length_append] at hn
        rw [if_pos (congrArg List.length hall)]
        obtain rfl : m = 0 := by omega
        have hrest : (rest.takeWhile p).length = 0 := by omega
        have hstart := @ih [] (rest.dropWhile p) 0 hm (Nat.le_refl 0)
        rw [hstart, hall, List.length_append, hrest]
        rfl
      · next hcons =>
        have hlt : (w.takeWhile p).length ≠ w.length := by
          intro heq
          rw [heq] at hsplit
          exact hcons (List.isEmpty_iff.mpr (List.length_eq_zero_iff.mp (by omega)))
        rw [if_neg hlt] at hn ⊢
        rw [ih hm (by omega)]
        rfl

/-- What a pattern takes of a text it takes of a longer one, or more. -/
lemma greedy_longer {ps : List (Piece σ)} {w : List σ} {n : ℕ} (h : greedy ps w = some n)
    (rest : List σ) : ∃ m, greedy ps (w ++ rest) = some m := by
  induction ps generalizing w n rest with
  | nil => exact ⟨0, rfl⟩
  | cons piece ps ih =>
    cases piece with
    | one p =>
      cases w with
      | nil => cases h
      | cons b w =>
        rw [greedy_one] at h
        rw [List.cons_append, greedy_one]
        split at h
        · next hb =>
          obtain ⟨k, hk, -⟩ := Option.map_eq_some_iff.mp h
          obtain ⟨m, hm⟩ := ih hk rest
          exact ⟨m + 1, by rw [if_pos hb, hm]; rfl⟩
        · cases h
    | many p =>
      rw [greedy_many] at h
      obtain ⟨k, hk, -⟩ := Option.map_eq_some_iff.mp h
      rw [greedy_many, List.dropWhile_append]
      split
      · next hnil =>
        rw [List.isEmpty_iff.mp hnil] at hk
        obtain ⟨m, hm⟩ := ih hk (rest.dropWhile p)
        rw [List.nil_append] at hm
        exact ⟨_, by rw [hm]; rfl⟩
      · obtain ⟨m, hm⟩ := ih hk rest
        exact ⟨_, by rw [hm]; rfl⟩

/-- A match inside of a text is one without the rest. -/
lemma ScanRule.length_shorter {rule : ScanRule σ τ} {w rest : List σ}
    (h : rule.length (w ++ rest) ≤ w.length) : rule.length w = rule.length (w ++ rest) := by
  unfold ScanRule.length at h ⊢
  cases hlong : greedy rule.pattern (w ++ rest) with
  | some n =>
    rw [hlong] at h
    rw [greedy_shorter hlong h]
  | none =>
    cases hshort : greedy rule.pattern w with
    | none => rfl
    | some n =>
      obtain ⟨m, hm⟩ := greedy_longer hshort rest
      cases hlong.symm.trans hm

end PhantomShell
