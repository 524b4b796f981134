import PhantomShell.Lib.LongestMatch
import PhantomShell.Parser.Lexer

/-!
# What the lexer takes

`yylex` computes what the rules of `lexer.l` mean: the longest match at each place, and the first of
the rules that match as much.
-/

namespace PhantomShell

variable {strtod : CStr → BitVec 32} {useNewlineAsFlush : Bool}

/-- A rule matches wherever the text goes on. -/
lemma matchLength_lexerRules {text : CStr} (h : text ≠ []) :
    matchLength (lexerRules strtod useNewlineAsFlush) text ≠ 0 := by
  have hmatches : ∃ rule ∈ lexerRules strtod useNewlineAsFlush, rule.length text = 1 := by
    cases text with
    | nil => exact absurd rfl h
    | cons b text =>
      by_cases hb : b = 10
      · refine ⟨newlineRule useNewlineAsFlush, by simp [lexerRules], ?_⟩
        simp [ScanRule.length, newlineRule, theByte, greedy, hb]
      · refine ⟨charRule, by simp [lexerRules], ?_⟩
        simp [ScanRule.length, charRule, greedy, hb]
  obtain ⟨rule, hmem, hlength⟩ := hmatches
  have hle := ScanRule.length_le_matchLength hmem text
  omega

/-- `yylex` returns the tokens of a text, and no other ones. -/
theorem yylex_eq_iff_tokenized (text : CStr) (toks : List Token) :
    yylex strtod useNewlineAsFlush text = toks ↔
      Tokenized (lexerRules strtod useNewlineAsFlush) text toks :=
  tokens_eq_iff deterministic_lexerRules (fun _ h => matchLength_lexerRules h)

end PhantomShell
