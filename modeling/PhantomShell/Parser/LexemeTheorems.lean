import PhantomShell.Lib.Lexemes
import PhantomShell.Parser.CommentTheorems

/-!
# Lexemes and blanks

A text is as good as its lexemes with one blank behind each. The rules do not see what is behind the
blank (`rules_spaced`), apart from those for strings and comments, which depend on a quote or a newline
further on.
-/

namespace PhantomShell

variable {strtod : CStr → BitVec 32} {useNewlineAsFlush : Bool}

/-- The lexemes that `yylex` returns a token for. -/
def yylexemes (strtod : CStr → BitVec 32) (useNewlineAsFlush : Bool) (text : CStr) :
    List (CStr × Token) := lexemes (lexerRules strtod useNewlineAsFlush) text

/-- The lexemes with a blank behind each of them. -/
def spaced (lexemes : List (CStr × Token)) : CStr := lexemes.flatMap fun lexeme => lexeme.1 ++ [32]

/-- `[ \t]` -/
def isBlank (b : UInt8) : Bool := b == 32 || b == 9

/-- The text does not start with a blank. -/
def StartsDense (text : CStr) : Prop := ∀ b ∈ text.head?, isBlank b = false

/-- The lexer takes `w` from the text in front of the rest, and returns the token. -/
structure Takes (strtod : CStr → BitVec 32) (useNewlineAsFlush : Bool) (w : CStr) (token : Token)
    (rest : CStr) : Prop where
  nonempty : w ≠ []
  length : matchLength (lexerRules strtod useNewlineAsFlush) (w ++ rest) = w.length
  token : lexeme (lexerRules strtod useNewlineAsFlush) (w ++ rest) = some token

/-! ## Blanks -/

/-- No rule in front of the one for blanks matches a blank. -/
lemma length_of_isBlank {b : UInt8} (hb : isBlank b) (text : CStr) :
    ∀ rule ∈ wordRules strtod ++ [commentRule, newlineRule useNewlineAsFlush],
      rule.length (b :: text) = 0 := by
  have hb : b = 32 ∨ b = 9 := by simpa [isBlank] using hb
  have hall : (wordRules strtod ++ [commentRule, newlineRule useNewlineAsFlush]).all
      (ScanRule.startsOff b) = true := by
    rcases hb with rfl | rfl
    · rfl
    · rfl
  intro rule hrule
  have hrule := List.all_eq_true.mp hall rule hrule
  unfold ScanRule.startsOff at hrule
  split at hrule
  · next p ps hpattern =>
    rw [Bool.not_eq_true'] at hrule
    exact ScanRule.length_of_not_starts hpattern hrule text
  · cases hrule

lemma length_blankRule {b : UInt8} (hb : isBlank b) (text : CStr) :
    blankRule.length (b :: text) = (text.takeWhile isBlank).length + 1 := by
  have hlength : blankRule.length (b :: text) =
      ((greedy [.one isBlank, .many isBlank] (b :: text)).getD 0) := rfl
  rw [hlength, greedy_one, if_pos hb, greedy_many, greedy]
  simp

/-- Blanks have no token. -/
lemma yylexemes_blanks {b : UInt8} (hb : isBlank b) (text : CStr) :
    yylexemes strtod useNewlineAsFlush (b :: text) =
      yylexemes strtod useNewlineAsFlush (text.dropWhile isBlank) ∧
    lexeme (lexerRules strtod useNewlineAsFlush) (b :: text) = none := by
  have hrules : lexerRules strtod useNewlineAsFlush =
      (wordRules strtod ++ [commentRule, newlineRule useNewlineAsFlush]) ++ [blankRule, charRule] := by
    rw [List.append_assoc]
    rfl
  have hblank := length_blankRule hb text
  have hafter : ∀ rule ∈ [charRule], rule.length (b :: text) ≤ blankRule.length (b :: text) := by
    intro rule hrule
    rw [List.mem_singleton.mp hrule, hblank]
    show (greedy [.one _] (b :: text)).getD 0 ≤ _
    rw [greedy_one]
    split
    · exact Nat.le_add_left 1 _
    · exact Nat.zero_le _
  obtain ⟨hmatch, hlexeme⟩ := lexeme_cons hafter
  have hpos : matchLength [blankRule, charRule] (b :: text) ≠ 0 := by
    rw [hmatch, hblank]
    exact Nat.succ_ne_zero _
  have hnone : lexeme (lexerRules strtod useNewlineAsFlush) (b :: text) = none := by
    rw [hrules, lexeme_append (length_of_isBlank hb text) hpos, hlexeme]
    rfl
  have hmatch' : matchLength (lexerRules strtod useNewlineAsFlush) (b :: text) =
      (text.takeWhile isBlank).length + 1 := by
    rw [hrules, matchLength_append (length_of_isBlank hb text), hmatch, hblank]
  refine ⟨?_, hnone⟩
  rw [yylexemes, lexemes_of_pos (by rw [hmatch']; exact Nat.succ_ne_zero _), hnone, hmatch',
    List.drop_succ_cons]
  have hdrop : text.drop (text.takeWhile isBlank).length = text.dropWhile isBlank := calc
    _ = (text.takeWhile isBlank ++ text.dropWhile isBlank).drop (text.takeWhile isBlank).length := by
      rw [List.takeWhile_append_dropWhile]
    _ = _ := List.drop_left
  rw [hdrop]
  rfl

lemma yylexemes_blank {text : CStr} (h : StartsDense text) :
    yylexemes strtod useNewlineAsFlush (32 :: text) = yylexemes strtod useNewlineAsFlush text := by
  have hdense : text.dropWhile isBlank = text := by
    cases text with
    | nil => rfl
    | cons b text => rw [List.dropWhile_cons_of_neg (by rw [h b rfl]; exact Bool.false_ne_true)]
  rw [(yylexemes_blanks (by rfl) text).1, hdense]

/-- A lexeme with a token does not start with a blank. -/
lemma Takes.dense {w rest : CStr} {token : Token} (h : Takes strtod useNewlineAsFlush w token rest)
    (text : CStr) : StartsDense (w ++ text) := by
  obtain ⟨b, w, rfl⟩ := List.exists_cons_of_ne_nil h.nonempty
  intro b' hb'
  cases hb'
  cases hblank : isBlank b with
  | false => rfl
  | true => cases (yylexemes_blanks hblank (w ++ rest)).2.symm.trans h.token

/-! ## What is behind a blank -/

/-- No class has a blank, apart from four rules. -/
lemma avoids_blank : ∀ rule ∈ lexerRules strtod useNewlineAsFlush,
    (∀ piece ∈ rule.pattern, piece.accepts 32 = false) ∨
      rule = stringRule ∨ rule = commentRule ∨ rule = blankRule ∨ rule = charRule := by
  have hall : ((keywordRules ++ (valueRules strtod).take 5 ++ (valueRules strtod).drop 6 ++
      operatorRules ++ [newlineRule useNewlineAsFlush]).all fun rule =>
        rule.pattern.all fun piece => !piece.accepts 32) = true := rfl
  have hvalues : valueRules strtod
      = (valueRules strtod).take 5 ++ stringRule :: (valueRules strtod).drop 6 := rfl
  intro rule hrule
  by_cases hmem : rule ∈ keywordRules ++ (valueRules strtod).take 5 ++ (valueRules strtod).drop 6 ++
      operatorRules ++ [newlineRule useNewlineAsFlush]
  · refine .inl fun piece hpiece => ?_
    have := List.all_eq_true.mp (List.all_eq_true.mp hall rule hmem) piece hpiece
    rwa [Bool.not_eq_true'] at this
  · rw [lexerRules, hvalues] at hrule
    simp only [List.mem_append, List.mem_cons, List.not_mem_nil, or_false, not_or] at hrule hmem
    tauto

/-- All rules match in front of the blank as they did in the text, if those for strings and comments
do. -/
lemma Takes.rules {w rest : CStr} {token : Token} (h : Takes strtod useNewlineAsFlush w token rest)
    {text : CStr} (hstring : stringRule.length (w ++ 32 :: text) = stringRule.length (w ++ rest))
    (hcomment : commentRule.length (w ++ 32 :: text) = commentRule.length (w ++ rest)) :
    ∀ rule ∈ lexerRules strtod useNewlineAsFlush,
      rule.length (w ++ 32 :: text) = rule.length (w ++ rest) := by
  intro rule hrule
  have hle := ScanRule.length_le_matchLength hrule (w ++ rest)
  rw [h.length] at hle
  have hdense := h.dense rest
  obtain ⟨b, w, rfl⟩ := List.exists_cons_of_ne_nil h.nonempty
  rcases avoids_blank rule hrule with havoid | rfl | rfl | rfl | rfl
  · rw [← ScanRule.length_shorter hle, ScanRule.length, greedy_append]
    · rfl
    · intro c hc piece hpiece
      cases hc
      exact havoid piece hpiece
  · exact hstring
  · exact hcomment
  · have hb : isBlank b = false := hdense b rfl
    rw [List.cons_append, List.cons_append, ScanRule.length_of_not_starts rfl hb,
      ScanRule.length_of_not_starts rfl hb]
  · rfl

/-- So the lexer takes the same lexeme. -/
lemma Takes.spaced {w rest : CStr} {token : Token} (h : Takes strtod useNewlineAsFlush w token rest)
    {text : CStr} (hstring : stringRule.length (w ++ 32 :: text) = stringRule.length (w ++ rest))
    (hcomment : commentRule.length (w ++ 32 :: text) = commentRule.length (w ++ rest))
    (hdense : StartsDense text) : yylexemes strtod useNewlineAsFlush (w ++ 32 :: text) =
      (w, token) :: yylexemes strtod useNewlineAsFlush text := by
  have hrules := h.rules hstring hcomment
  have hmatch := matchLength_congr hrules
  have hlexeme := lexeme_congr hrules (by
    rw [h.length, List.take_left, List.take_left])
  rw [h.length] at hmatch
  rw [h.token] at hlexeme
  rw [yylexemes, lexemes_of_pos (by rw [hmatch]; exact fun hw => h.nonempty (List.length_eq_zero_iff.mp hw)),
    hlexeme, hmatch, List.take_left, List.drop_left]
  show (w, token) :: yylexemes strtod useNewlineAsFlush (32 :: text) = _
  rw [yylexemes_blank hdense]

/-! ## One blank behind each lexeme -/

/-- The quote of a string is behind the blank if it was in the text, and so is the end of a comment. -/
lemma Takes.of_mem {w rest : CStr} {token : Token} (h : Takes strtod useNewlineAsFlush w token rest)
    {text : CStr} (hquote : 34 ∈ text → 34 ∈ rest) (hnewline : 10 ∈ text → 10 ∈ rest) :
    stringRule.length (w ++ 32 :: text) = stringRule.length (w ++ rest) ∧
      commentRule.length (w ++ 32 :: text) = commentRule.length (w ++ rest) := by
  have hle : ∀ rule ∈ lexerRules strtod useNewlineAsFlush, rule.length (w ++ rest) ≤ w.length := by
    intro rule hrule
    rw [← h.length]
    exact ScanRule.length_le_matchLength hrule _
  constructor
  · apply stringRule_replace _ h.nonempty (hle stringRule (by simp [lexerRules, valueRules]))
    intro hmem
    cases List.mem_cons.mp hmem with
    | inl heq => cases heq
    | inr hmem => exact hquote hmem
  · have hle := hle commentRule (by simp [lexerRules])
    obtain ⟨b, w, rfl⟩ := List.exists_cons_of_ne_nil h.nonempty
    cases w with
    | nil =>
      -- a slash alone: no comment is as short
      rw [List.cons_append, List.nil_append, length_commentRule, if_neg (by simp)]
      cases rest with
      | nil =>
        show 0 = (greedy (.one _ :: .one _ :: upTo 10) [b]).getD 0
        rw [greedy_one]
        split <;> rfl
      | cons b' rest =>
        rw [List.cons_append, List.nil_append, length_commentRule] at hle ⊢
        split at hle
        · next hb =>
          rw [if_pos hb]
          cases hlength : greedy (upTo 10) rest with
          | none => rfl
          | some n =>
            rw [hlength, Option.map_some, Option.getD_some, List.length_singleton] at hle
            omega
        · next hb => rw [if_neg hb]
    | cons b' w =>
      simp only [List.cons_append, length_commentRule] at hle ⊢
      by_cases hb : b = 47 ∧ b' = 47
      · rw [if_pos hb] at hle
        rw [if_pos hb, if_pos hb]
        have hmem : (10 : UInt8) ∈ 32 :: text → (10 : UInt8) ∈ rest := by
          intro hmem
          cases List.mem_cons.mp hmem with
          | inl heq => cases heq
          | inr hmem => exact hnewline hmem
        rcases greedy_upTo_replace hmem w with ⟨n, hn, hlt⟩ | heq
        · rw [hn, Option.map_some, Option.getD_some, List.length_cons, List.length_cons] at hle
          omega
        · rw [heq]
      · rw [if_neg hb, if_neg hb]

lemma mem_spaced {ls : List (CStr × Token)} {b : UInt8} (h : b ∈ spaced ls) (hb : b ≠ 32) :
    ∃ l ∈ ls, b ∈ l.1 := by
  obtain ⟨l, hl, hmem⟩ := List.mem_flatMap.mp h
  cases List.mem_append.mp hmem with
  | inl hmem => exact ⟨l, hl, hmem⟩
  | inr hmem => exact absurd (List.mem_singleton.mp hmem) hb

/-- The lexemes of a text are those of its normal form. -/
lemma yylexemes_spaced (text : CStr) :
    yylexemes strtod useNewlineAsFlush (spaced (yylexemes strtod useNewlineAsFlush text)) =
      yylexemes strtod useNewlineAsFlush text ∧
    StartsDense (spaced (yylexemes strtod useNewlineAsFlush text)) := by
  induction text using
    (@lexemes_induction _ _ (lexerRules strtod useNewlineAsFlush) _) with
  | zero text hzero =>
    have hnil : yylexemes strtod useNewlineAsFlush text = [] := lexemes_of_zero hzero
    rw [hnil]
    exact ⟨lexemes_nil _, fun b hb => by cases hb⟩
  | step text hpos ih =>
    obtain ⟨n, hn⟩ : ∃ n, matchLength (lexerRules strtod useNewlineAsFlush) text = n := ⟨_, rfl⟩
    have hle := matchLength_le (lexerRules strtod useNewlineAsFlush) text
    have hround : yylexemes strtod useNewlineAsFlush text =
        ((lexeme (lexerRules strtod useNewlineAsFlush) text).map (text.take n, ·)).toList ++
          yylexemes strtod useNewlineAsFlush (text.drop n) := hn ▸ lexemes_of_pos hpos
    rw [hn] at hpos hle ih
    cases htoken : lexeme (lexerRules strtod useNewlineAsFlush) text with
    | none =>
      rw [htoken] at hround
      rw [hround]
      exact ih
    | some token =>
      rw [htoken] at hround
      have hsplit : text.take n ++ text.drop n = text := List.take_append_drop n text
      have hlength : (text.take n).length = n := List.length_take_of_le hle
      have htakes : Takes strtod useNewlineAsFlush (text.take n) token (text.drop n) := by
        refine ⟨fun hnil => hpos ?_, ?_, ?_⟩
        · rw [← hlength, hnil]
          rfl
        · rw [hsplit, hn, hlength]
        · rw [hsplit, htoken]
      -- the normal form brings in no byte but blanks, so no `"` and no newline that would change
      -- what this lexeme is
      have hmem : ∀ b, b ≠ 32 → b ∈ spaced (yylexemes strtod useNewlineAsFlush (text.drop n)) →
          b ∈ text.drop n := by
        intro b hb hmem
        obtain ⟨l, hl, hmem⟩ := mem_spaced hmem hb
        exact mem_of_mem_lexemes l hl b hmem
      obtain ⟨hstring, hcomment⟩ := htakes.of_mem (hmem 34 (by decide)) (hmem 10 (by decide))
      have hspaced : spaced (yylexemes strtod useNewlineAsFlush text) =
          text.take n ++ 32 :: spaced (yylexemes strtod useNewlineAsFlush (text.drop n)) := by
        rw [hround]
        show (text.take n ++ [32]) ++ _ = _
        rw [List.append_assoc]
        rfl
      rw [hspaced]
      refine ⟨?_, htakes.dense _⟩
      rw [htakes.spaced hstring hcomment ih.2, ih.1, hround]
      rfl

/-- A text can be brought into its normal form: with one blank behind each lexeme, and nothing else in
between, it has the same tokens, and it is its own normal form. -/
theorem yylex_spaced (strtod : CStr → BitVec 32) (useNewlineAsFlush : Bool) (text : CStr) :
    yylex strtod useNewlineAsFlush (spaced (yylexemes strtod useNewlineAsFlush text)) =
      yylex strtod useNewlineAsFlush text ∧
    spaced (yylexemes strtod useNewlineAsFlush (spaced (yylexemes strtod useNewlineAsFlush text))) =
      spaced (yylexemes strtod useNewlineAsFlush text) := by
  have hlexemes := (@yylexemes_spaced strtod useNewlineAsFlush text).1
  constructor
  · have htokens := congrArg (List.map Prod.snd) hlexemes
    rw [yylexemes, yylexemes, map_lexemes, map_lexemes] at htokens
    exact htokens
  · rw [hlexemes]

end PhantomShell
