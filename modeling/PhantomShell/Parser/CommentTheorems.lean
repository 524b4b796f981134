import PhantomShell.Parser.Lexer

/-!
# Comments

A comment is taken together with the end of its line, which is a token of its own anywhere else.
-/

namespace PhantomShell

/-! ## Where rules match -/

variable {strtod : CStr → BitVec 32} {useNewlineAsFlush : Bool}

/-- The rules in front of the one for comments. -/
def wordRules (strtod : CStr → BitVec 32) : List (ScanRule UInt8 Token) :=
  keywordRules ++ valueRules strtod ++ operatorRules

/-- The first symbol of the rule's pattern is not this byte. -/
def ScanRule.startsOff (b : UInt8) (rule : ScanRule UInt8 Token) : Bool :=
  match rule.pattern with
  | .one p :: _ => !p b
  | _ => false

/-- They match nothing that starts with a slash or a newline. -/
lemma length_wordRules {b : UInt8} (hb : b = 47 ∨ b = 10) (text : CStr) :
    ∀ rule ∈ wordRules strtod, rule.length (b :: text) = 0 := by
  have hall : (wordRules strtod).all (ScanRule.startsOff b) = true := by
    rcases hb with rfl | rfl
    · rfl
    · rfl
  intro rule hrule
  have hrule := List.all_eq_true.mp hall rule hrule
  unfold ScanRule.startsOff at hrule
  split at hrule
  · next p ps hpattern =>
    rw [Bool.not_eq_true'] at hrule
    exact ScanRule.length_of_not_starts hpattern hrule text
  · cases hrule

/-- No class has a slash or a newline, apart from four rules. -/
lemma avoids_lexerRules : ∀ rule ∈ lexerRules strtod useNewlineAsFlush,
    (∀ piece ∈ rule.pattern, piece.accepts 47 = false ∧ piece.accepts 10 = false) ∨
      rule = stringRule ∨ rule = commentRule ∨ rule = newlineRule useNewlineAsFlush ∨
        rule = charRule := by
  have hall : ((keywordRules ++ (valueRules strtod).take 5 ++ (valueRules strtod).drop 6 ++
      operatorRules ++ [blankRule]).all fun rule =>
        rule.pattern.all fun piece => !piece.accepts 47 && !piece.accepts 10) = true := rfl
  have hvalues : valueRules strtod
      = (valueRules strtod).take 5 ++ stringRule :: (valueRules strtod).drop 6 := rfl
  intro rule hrule
  by_cases hmem : rule ∈ keywordRules ++ (valueRules strtod).take 5 ++ (valueRules strtod).drop 6 ++
      operatorRules ++ [blankRule]
  · refine .inl fun piece hpiece => ?_
    have := List.all_eq_true.mp (List.all_eq_true.mp hall rule hmem) piece hpiece
    rwa [Bool.and_eq_true, Bool.not_eq_true', Bool.not_eq_true'] at this
  · rw [lexerRules, hvalues] at hrule
    simp only [List.mem_append, List.mem_cons, List.not_mem_nil, or_false, not_or] at hrule hmem
    tauto

lemma length_stringRule (b : UInt8) (text : CStr) : stringRule.length (b :: text) =
    if b = 34 then ((greedy (upTo 34) text).map (· + 1)).getD 0 else 0 := by
  change (greedy (.one (· == 34) :: upTo 34) (b :: text)).getD 0 = _
  rw [greedy_one]
  simp only [beq_iff_eq]
  split <;> rfl

lemma length_commentRule (b b' : UInt8) (text : CStr) : commentRule.length (b :: b' :: text) =
    if b = 47 ∧ b' = 47 then ((greedy (upTo 10) text).map (· + 2)).getD 0 else 0 := by
  change (greedy (.one (· == 47) :: .one (· == 47) :: upTo 10) (b :: b' :: text)).getD 0 = _
  rw [greedy_one, greedy_one]
  simp only [beq_iff_eq]
  by_cases hb : b = 47
  · by_cases hb' : b' = 47
    · rw [if_pos hb, if_pos hb', if_pos ⟨hb, hb'⟩, Option.map_map]
      rfl
    · rw [if_pos hb, if_neg hb', if_neg fun h => hb' h.2]
      rfl
  · rw [if_neg hb, if_neg fun h => hb h.1]
    rfl

/-- A string in front of the comment ends in front of it, or not at all. -/
lemma stringRule_replace {x y : CStr} (h : 34 ∈ y → 34 ∈ x) {w : CStr} (hw : w ≠ [])
    (hle : stringRule.length (w ++ x) ≤ w.length) :
    stringRule.length (w ++ y) = stringRule.length (w ++ x) := by
  obtain ⟨b, w, rfl⟩ := List.exists_cons_of_ne_nil hw
  rw [List.cons_append, length_stringRule] at hle ⊢
  rw [List.cons_append, length_stringRule]
  by_cases hb : b = 34
  · rw [if_pos hb] at hle
    rw [if_pos hb, if_pos hb]
    rcases greedy_upTo_replace h w with ⟨n, hn, hlt⟩ | heq
    · rw [hn, Option.map_some, Option.getD_some, List.length_cons] at hle
      omega
    · rw [heq]
  · rw [if_neg hb, if_neg hb]

/-- So does another comment. -/
lemma commentRule_replace {c rest : CStr} (hrest : rest = [] ∨ ∃ v, rest = 10 :: v) {w : CStr}
    (hw : w ≠ []) (hle : commentRule.length (w ++ 47 :: 47 :: (c ++ rest)) ≤ w.length) :
    commentRule.length (w ++ rest) = commentRule.length (w ++ 47 :: 47 :: (c ++ rest)) := by
  have hmem : (10 : UInt8) ∈ rest → (10 : UInt8) ∈ 47 :: 47 :: (c ++ rest) := fun h => by simp [h]
  obtain ⟨b, w, rfl⟩ := List.exists_cons_of_ne_nil hw
  cases w with
  | nil =>
    -- no comment starts with the slash in front of this one, unless it is as long
    have hzero : commentRule.length (b :: rest) = 0 := by
      rcases hrest with rfl | ⟨v, rfl⟩
      · change (greedy (.one (· == 47) :: .one (· == 47) :: upTo 10) [b]).getD 0 = 0
        rw [greedy_one]
        split <;> rfl
      · rw [length_commentRule, if_neg (by simp)]
    rw [List.cons_append, List.nil_append, length_commentRule] at hle
    rw [List.cons_append, List.nil_append, hzero, List.cons_append, List.nil_append,
      length_commentRule]
    split at hle
    · next hb =>
      rw [if_pos hb]
      cases hlength : greedy (upTo 10) (47 :: (c ++ rest)) with
      | none => rfl
      | some n =>
        rw [hlength, Option.map_some, Option.getD_some, List.length_singleton] at hle
        omega
    · next hb => rw [if_neg hb]
  | cons b' w =>
    simp only [List.cons_append, length_commentRule] at hle ⊢
    by_cases hb : b = 47 ∧ b' = 47
    · rw [if_pos hb] at hle
      rw [if_pos hb, if_pos hb]
      rcases greedy_upTo_replace hmem w with ⟨n, hn, hlt⟩ | heq
      · rw [hn, Option.map_some, Option.getD_some, List.length_cons, List.length_cons] at hle
        omega
      · rw [heq]
    · rw [if_neg hb, if_neg hb]

/-- What is in front of a comment is scanned as it would be in front of the end of its line. -/
lemma rules_replace {c rest : CStr} (hrest : rest = [] ∨ ∃ v, rest = 10 :: v) :
    ∀ rule ∈ lexerRules strtod useNewlineAsFlush, ∀ w, w ≠ [] →
      rule.length (w ++ 47 :: 47 :: (c ++ rest)) ≤ w.length →
        rule.length (w ++ rest) = rule.length (w ++ 47 :: 47 :: (c ++ rest)) := by
  intro rule hrule w hw hle
  rcases avoids_lexerRules rule hrule with havoid | rfl | rfl | rfl | rfl
  · refine ScanRule.length_append ?_ ?_ w
    · rintro b ⟨⟩ piece hpiece
      exact (havoid piece hpiece).1
    · rintro b hb piece hpiece
      rcases hrest with rfl | ⟨v, rfl⟩
      · cases hb
      · cases hb
        exact (havoid piece hpiece).2
  · exact stringRule_replace (fun h => by simp [h]) hw hle
  · exact commentRule_replace hrest hw hle
  · obtain ⟨b, w, rfl⟩ := List.exists_cons_of_ne_nil hw
    rfl
  · obtain ⟨b, w, rfl⟩ := List.exists_cons_of_ne_nil hw
    rfl

/-! ## Tokens -/

/-- A newline that is not in a string or a comment. -/
lemma yylex_newline (text : CStr) : yylex strtod useNewlineAsFlush (10 :: text) =
    (if useNewlineAsFlush then [.newline] else []) ++ yylex strtod useNewlineAsFlush text := by
  have hrules : lexerRules strtod useNewlineAsFlush = (wordRules strtod ++ [commentRule]) ++
      newlineRule useNewlineAsFlush :: [blankRule, charRule] := by
    rw [List.append_assoc]
    rfl
  have hbefore : ∀ rule ∈ wordRules strtod ++ [commentRule], rule.length (10 :: text) = 0 := by
    intro rule hrule
    rcases List.mem_append.mp hrule with hrule | hrule
    · exact length_wordRules (.inr rfl) text rule hrule
    · rw [List.mem_singleton.mp hrule]
      rfl
  have hafter : ∀ rule ∈ [blankRule, charRule],
      rule.length (10 :: text) ≤ (newlineRule useNewlineAsFlush).length (10 :: text) := by
    simp only [List.forall_mem_cons]
    exact ⟨Nat.zero_le _, Nat.zero_le _, nofun⟩
  rw [yylex, hrules, tokens_of_rule hbefore hafter (by exact Nat.one_ne_zero), ← hrules]
  cases useNewlineAsFlush <;> rfl

/-- A comment with the end of its line. -/
lemma yylex_comment {c : CStr} (hc : 10 ∉ c) (text : CStr) :
    yylex strtod useNewlineAsFlush (47 :: 47 :: (c ++ 10 :: text))
      = yylex strtod useNewlineAsFlush text := by
  have hrules : lexerRules strtod useNewlineAsFlush = wordRules strtod ++
      commentRule :: [newlineRule useNewlineAsFlush, blankRule, charRule] := rfl
  have hlength : commentRule.length (47 :: 47 :: (c ++ 10 :: text)) = c.length + 3 := by
    rw [length_commentRule, if_pos ⟨rfl, rfl⟩, greedy_upTo hc]
    rfl
  have hafter : ∀ rule ∈ [newlineRule useNewlineAsFlush, blankRule, charRule],
      rule.length (47 :: 47 :: (c ++ 10 :: text))
        ≤ commentRule.length (47 :: 47 :: (c ++ 10 :: text)) := by
    rw [hlength]
    simp only [List.forall_mem_cons]
    exact ⟨Nat.zero_le _, Nat.zero_le _, Nat.le_add_left 1 _, nofun⟩
  rw [yylex, hrules, tokens_of_rule (length_wordRules (.inl rfl) _) hafter (by omega), hlength,
    ← hrules]
  have hdrop : (47 :: 47 :: (c ++ 10 :: text)).drop (c.length + 3) = text := by
    simp
  rw [hdrop]
  rfl

variable (strtod useNewlineAsFlush) in
/-- A comment at the end of the text is not one. -/
lemma yylex_slash {c : CStr} (hc : 10 ∉ c) :
    ∃ toks, yylex strtod useNewlineAsFlush (47 :: 47 :: c) = .char 47 :: toks := by
  have hrules : lexerRules strtod useNewlineAsFlush = (wordRules strtod ++
      [commentRule, newlineRule useNewlineAsFlush, blankRule]) ++ charRule :: [] := by
    rw [List.append_assoc]
    rfl
  have hcomment : commentRule.length (47 :: 47 :: c) = 0 := by
    rw [length_commentRule, if_pos ⟨rfl, rfl⟩, greedy_upTo_none hc]
    rfl
  have hbefore : ∀ rule ∈ wordRules strtod ++ [commentRule, newlineRule useNewlineAsFlush, blankRule],
      rule.length (47 :: 47 :: c) = 0 := by
    intro rule hrule
    rcases List.mem_append.mp hrule with hrule | hrule
    · exact length_wordRules (.inl rfl) _ rule hrule
    · simp only [List.mem_cons, List.not_mem_nil, or_false] at hrule
      rcases hrule with rfl | rfl | rfl
      · exact hcomment
      · rfl
      · rfl
  rw [yylex, hrules, tokens_of_rule hbefore (by simp) (by exact Nat.one_ne_zero)]
  exact ⟨_, rfl⟩

/-! ## Comments without their characters -/

/-- The scanner stands at a comment behind `u`, outside strings and other comments; `rest` is the
end of its line and what follows, or nothing at the end of the text. -/
structure CommentAt (strtod : CStr → BitVec 32) (useNewlineAsFlush : Bool) (u c rest : CStr) :
    Prop where
  reached : ∃ toks, Scans (lexerRules strtod useNewlineAsFlush) (47 :: 47 :: (c ++ rest))
    (u ++ 47 :: 47 :: (c ++ rest)) toks
  line : 10 ∉ c
  lineEnd : rest = [] ∨ ∃ v, rest = 10 :: v

/-- The tokens are the same without the comment exactly if a newline is no token and the comment has
one. -/
theorem comment_transparent_iff {u c rest : CStr}
    (h : CommentAt strtod useNewlineAsFlush u c rest) :
    yylex strtod useNewlineAsFlush (u ++ 47 :: 47 :: (c ++ rest))
        = yylex strtod useNewlineAsFlush (u ++ rest) ↔
      useNewlineAsFlush = false ∧ rest ≠ [] := by
  obtain ⟨toks, hreached⟩ := h.reached
  have htoks := hreached.tokens
  have htoks' := (hreached.replace (rules_replace h.lineEnd)).tokens
  rw [yylex, yylex, htoks, htoks', List.append_cancel_left_eq, ← yylex, ← yylex]
  rcases h.lineEnd with rfl | ⟨v, rfl⟩
  · obtain ⟨toks', hslash⟩ := yylex_slash strtod useNewlineAsFlush h.line
    rw [List.append_nil, hslash]
    simp [yylex, tokens, scan]
  · rw [yylex_comment h.line, yylex_newline]
    cases useNewlineAsFlush with
    | true => simp
    | false => simp

/-- The comment of the line `x//c` in front of the line `y`. -/
lemma commentAt_line (useNewlineAsFlush : Bool) :
    CommentAt (fun _ => 0) useNewlineAsFlush [120] [99] [10, 121] where
  reached := ⟨_, .step (by cases useNewlineAsFlush <;> decide)
    (by cases useNewlineAsFlush <;> exact .done)⟩
  line := by decide
  lineEnd := .inr ⟨[121], rfl⟩

/-- A newline that is no token is not missed. -/
theorem comment_transparent_iff_line :
    yylex (fun _ => 0) false [120, 47, 47, 99, 10, 121] = yylex (fun _ => 0) false [120, 10, 121] :=
  (comment_transparent_iff (commentAt_line false)).mpr ⟨rfl, by decide⟩

/-- The lines `x//c` and `y` are one. -/
theorem comment_not_transparent :
    CommentAt (fun _ => 0) true [120] [99] [10, 121] ∧
      yylex (fun _ => 0) true [120, 47, 47, 99, 10, 121] = [.identifier [120], .identifier [121]] ∧
      yylex (fun _ => 0) true [120, 10, 121]
        = [.identifier [120], .newline, .identifier [121]] :=
  ⟨commentAt_line true, by decide, by decide⟩

end PhantomShell
