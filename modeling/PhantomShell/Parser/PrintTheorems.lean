import Mathlib.Data.Nat.Digits.Defs
import PhantomShell.Parser.LexemeTheorems
import PhantomShell.Parser.LiteralTheorems

/-!
# Printing tokens

Each token is written in its own way, with a blank behind it. Scanning gives the tokens back, unless a
quote that is a token of its own has another quote behind it, with which it makes a string.
-/

namespace PhantomShell

variable {strtod : CStr → BitVec 32} {useNewlineAsFlush : Bool}

/-! ## Texts of tokens -/

/-- The keywords and the literals that are words. -/
def reservedTexts : List CStr :=
  [ascii ['d', 'e', 'f'], ascii ['r', 'e', 't', 'u', 'r', 'n'], ascii ['i', 'f'], ascii ['e', 'l', 'i', 'f'],
   ascii ['e', 'l', 's', 'e'], ascii ['f', 'o', 'r'], ascii ['w', 'h', 'i', 'l', 'e'], ascii ['d', 'o'],
   ascii ['s', 'w', 'i', 't', 'c', 'h'], ascii ['c', 'a', 's', 'e'], ascii ['o', 't', 'h', 'e', 'r'],
   ascii ['c', 'l', 'a', 's', 's'], ascii ['f', 'u', 'n', 'c'], ascii ['t', 'r', 'u', 'e'],
   ascii ['f', 'a', 'l', 's', 'e']]

/-- A number in decimal digits. -/
def decimalText (n : ℕ) : CStr :=
  if n = 0 then [48] else (Nat.digits 10 n).reverse.map fun d => UInt8.ofNat (48 + d)

/-- How a token is written. There is no one way to write a `float`. -/
def Token.text : Token → CStr
  | .parenOpen => ascii ['(']
  | .parenClose => ascii [')']
  | .braceOpen => [123]
  | .braceClose => [125]
  | .equalTo => ascii ['=', '=']
  | .notEqualTo => ascii ['!', '=']
  | .notLessThan => ascii ['>', '=']
  | .lessThan => ascii ['<']
  | .greaterThan => ascii ['>']
  | .notGreaterThan => ascii ['<', '=']
  | .keywordDef => ascii ['d', 'e', 'f']
  | .keywordReturn => ascii ['r', 'e', 't', 'u', 'r', 'n']
  | .keywordIf => ascii ['i', 'f']
  | .keywordElif => ascii ['e', 'l', 'i', 'f']
  | .keywordElse => ascii ['e', 'l', 's', 'e']
  | .keywordFor => ascii ['f', 'o', 'r']
  | .keywordWhile => ascii ['w', 'h', 'i', 'l', 'e']
  | .keywordDo => ascii ['d', 'o']
  | .keywordSwitch => ascii ['s', 'w', 'i', 't', 'c', 'h']
  | .keywordCase => ascii ['c', 'a', 's', 'e']
  | .keywordOther => ascii ['o', 't', 'h', 'e', 'r']
  | .keywordClass => ascii ['c', 'l', 'a', 's', 's']
  | .keywordFunc => ascii ['f', 'u', 'n', 'c']
  | .identifier stringValue => stringValue
  | .booleanLiteral true => ascii ['t', 'r', 'u', 'e']
  | .booleanLiteral false => ascii ['f', 'a', 'l', 's', 'e']
  | .integerLiteral intValue => decimalText intValue.toNat
  | .floatLiteral _ => []
  | .charLiteral charValue => [39, charValue, 39]
  | .stringLiteral stringValue => 34 :: (stringValue ++ [34])
  | .char c => [c]

/-- The bytes that are lexemes of other tokens, or of none. -/
def isTaken (b : UInt8) : Bool :=
  isLetter b || isDigit b || isBlank b || [10, 40, 41, 60, 62, 123, 125].contains b

/-- The tokens that the lexer can return, without those for `float`. -/
def Token.Printable (useNewlineAsFlush : Bool) : Token → Prop
  | .identifier stringValue => stringValue ∉ reservedTexts ∧
    ∃ b rest, stringValue = b :: rest ∧ isLetter b ∧ ∀ c ∈ rest, isLetter c || isDigit c
  | .floatLiteral _ => False
  | .charLiteral charValue => isAlphanumeric charValue
  | .stringLiteral stringValue => 34 ∉ stringValue
  | .char c => isTaken c = false ∨ (c = 10 ∧ useNewlineAsFlush)
  | _ => True

/-- The tokens with a blank behind each of them. -/
def printTokens (toks : List Token) : CStr := toks.flatMap fun token => token.text ++ [32]

/-! ## Texts alone -/

/-- A rule that takes a whole text has the lexeme if no rule in front of it takes the whole text. -/
lemma takes_of_rule {before after : List (ScanRule UInt8 Token)} {rule : ScanRule UInt8 Token}
    (hrules : lexerRules strtod useNewlineAsFlush = before ++ rule :: after) {w : CStr} {token : Token}
    (hbefore : ∀ rule' ∈ before, rule'.length w ≠ w.length) (hlength : rule.length w = w.length)
    (hw : w ≠ []) (htoken : rule.action w = some token) : Takes strtod useNewlineAsFlush w token [] := by
  have hmatch : matchLength (lexerRules strtod useNewlineAsFlush) w = w.length := by
    apply Nat.le_antisymm (matchLength_le _ _)
    rw [← hlength]
    exact ScanRule.length_le_matchLength (by rw [hrules]; simp) w
  refine ⟨hw, ?_, ?_⟩
  · rw [List.append_nil, hmatch]
  · have hnone : before.find? (fun rule' => rule'.length w == w.length) = none := by
      rw [List.find?_eq_none]
      intro rule' hrule'
      rw [beq_iff_eq]
      exact hbefore rule' hrule'
    rw [List.append_nil, lexeme, hmatch, hrules, List.find?_append, hnone, Option.none_or, List.find?_cons,
      hlength, beq_self_eq_true]
    show rule.action (w.take w.length) = _
    rw [List.take_length, htoken]

/-- A pattern that is a text only takes this text. -/
lemma eq_of_pattern {rule : ScanRule UInt8 Token} {text w : CStr}
    (hpattern : rule.pattern = text.map theByte) (h : rule.length w = w.length) (hw : w ≠ []) : w = text := by
  have hgreedy : ∀ {text w : CStr} {n : ℕ}, greedy (text.map theByte) w = some n → w.take n = text := by
    intro text
    induction text with
    | nil =>
      intro w n hn
      cases hn
      rfl
    | cons b text ih =>
      intro w n hn
      cases w with
      | nil => cases hn
      | cons c w =>
        rw [List.map_cons, theByte, greedy_one] at hn
        split at hn
        · next hb =>
          obtain ⟨m, hm, rfl⟩ := Option.map_eq_some_iff.mp hn
          rw [List.take_succ_cons, ih hm, beq_iff_eq.mp hb]
        · cases hn
  rw [ScanRule.length, hpattern] at h
  cases hn : greedy (text.map theByte) w with
  | none =>
    rw [hn] at h
    exact absurd (List.length_eq_zero_iff.mp h.symm) hw
  | some n =>
    rw [hn] at h
    have htake := hgreedy hn
    rw [← htake, show n = w.length from h, List.take_length]

/-- No rule takes a text that its pattern cannot start with. -/
lemma ScanRule.length_of_startsOff {rule : ScanRule UInt8 Token} {b : UInt8}
    (h : rule.startsOff b = true) (text : CStr) : rule.length (b :: text) = 0 := by
  unfold ScanRule.startsOff at h
  split at h
  · next p ps hpattern =>
    rw [Bool.not_eq_true'] at h
    exact ScanRule.length_of_not_starts hpattern h text
  · cases h

lemma length_ne_of_startsOff {rules : List (ScanRule UInt8 Token)} {b : UInt8}
    (h : rules.all (ScanRule.startsOff b) = true) (text : CStr) :
    ∀ rule ∈ rules, rule.length (b :: text) ≠ (b :: text).length := by
  intro rule hrule
  rw [ScanRule.length_of_startsOff (List.all_eq_true.mp h rule hrule)]
  exact (Nat.succ_ne_zero _).symm

/-- A letter is neither a digit nor a quotation mark. -/
lemma isLetter_ne {b : UInt8} (hb : isLetter b) : isDigit b = false ∧ b ≠ 39 ∧ b ≠ 34 := by
  refine ⟨?_, fun heq => ?_, fun heq => ?_⟩
  · rw [Bool.eq_false_iff]
    intro hdigit
    simp only [isLetter, isDigit, Bool.or_eq_true, Bool.and_eq_true, beq_iff_eq, decide_eq_true_eq,
      UInt8.le_iff_toNat_le, ← UInt8.toNat_inj, UInt8.reduceToNat] at hb hdigit
    omega
  · rw [heq] at hb
    cases hb
  · rw [heq] at hb
    cases hb

lemma takes_identifier {b : UInt8} {text : CStr} (hb : isLetter b)
    (htext : ∀ c ∈ text, isLetter c || isDigit c) (hreserved : b :: text ∉ reservedTexts) :
    Takes strtod useNewlineAsFlush (b :: text) (.identifier (b :: text)) [] := by
  have hrules : lexerRules strtod useNewlineAsFlush = (keywordRules ++ (valueRules strtod).take 2) ++
      ((valueRules strtod).drop 2).take 4 ++ ⟨[.one isLetter, .many fun b => isLetter b || isDigit b],
        fun text => some (lexerHandleIdentifier text)⟩ :: (operatorRules ++ [commentRule,
          newlineRule useNewlineAsFlush, blankRule, charRule]) := rfl
  refine takes_of_rule hrules ?_ ?_ (List.cons_ne_nil _ _) rfl
  · intro rule hrule hlength
    cases List.mem_append.mp hrule with
    | inl hrule =>
      have hpatterns : (keywordRules ++ (valueRules strtod).take 2).map (·.pattern) =
          reservedTexts.map (·.map theByte) := rfl
      obtain ⟨word, hword, hpattern⟩ := List.mem_map.mp (hpatterns ▸ List.mem_map_of_mem hrule)
      rw [eq_of_pattern hpattern.symm hlength (List.cons_ne_nil _ _)] at hreserved
      exact hreserved hword
    | inr hrule =>
      obtain ⟨hdigit, hquote, hquotes⟩ := isLetter_ne hb
      refine length_ne_of_startsOff ?_ text rule hrule hlength
      simp [valueRules, ScanRule.startsOff, intRule, stringRule, theByte, hdigit, hquote, hquotes]
  · rw [ScanRule.length, greedy_one, if_pos hb, greedy_many, List.takeWhile_eq_self_iff.mpr htext,
      List.dropWhile_eq_nil_iff.mpr htext]
    simp [greedy]

lemma takes_stringLiteral {text : CStr} (h : 34 ∉ text) :
    Takes strtod useNewlineAsFlush (34 :: (text ++ [34])) (.stringLiteral text) [] := by
  have hrules : lexerRules strtod useNewlineAsFlush = (keywordRules ++ (valueRules strtod).take 5) ++
      stringRule :: ((valueRules strtod).drop 6 ++ (operatorRules ++ [commentRule,
        newlineRule useNewlineAsFlush, blankRule, charRule])) := rfl
  refine takes_of_rule hrules (length_ne_of_startsOff rfl _) ?_ (List.cons_ne_nil _ _) ?_
  · rw [length_stringRule, if_pos rfl, greedy_upTo h]
    simp
  · show some (lexerHandleString _) = _
    simp [lexerHandleString]

lemma takes_charLiteral {c : UInt8} (h : isAlphanumeric c) :
    Takes strtod useNewlineAsFlush [39, c, 39] (.charLiteral c) [] := by
  have hrules : lexerRules strtod useNewlineAsFlush = (keywordRules ++ (valueRules strtod).take 4) ++
      ⟨[theByte 39, .one isAlphanumeric, theByte 39], fun text => some (lexerHandleChar text)⟩ ::
        ((valueRules strtod).drop 5 ++ (operatorRules ++ [commentRule,
          newlineRule useNewlineAsFlush, blankRule, charRule])) := rfl
  refine takes_of_rule hrules (length_ne_of_startsOff rfl _) ?_ (List.cons_ne_nil _ _) rfl
  simp [ScanRule.length, greedy, theByte, h]

/-! ### Numbers -/

/-- Digits in front of one more. -/
lemma decimalValue_concat (text : CStr) (b : UInt8) :
    decimalValue (text ++ [b]) = 10 * decimalValue text + (b.toNat - 48) := by
  rw [decimalValue, List.foldl_append]
  rfl

/-- A number is read back. -/
lemma decimalText_digits (n : ℕ) : isDigits (decimalText n) ∧ decimalValue (decimalText n) = n := by
  by_cases hn : n = 0
  · rw [decimalText, if_pos hn, hn]
    refine ⟨⟨by decide, ?_⟩, rfl⟩
    intro b hb
    rw [List.mem_singleton.mp hb]
    decide
  rw [decimalText, if_neg hn]
  have hlt : ∀ d ∈ Nat.digits 10 n, d < 10 := fun d hd => Nat.digits_lt_base (by decide) hd
  have hbyte : ∀ d < 10, (UInt8.ofNat (48 + d)).toNat = 48 + d := by
    intro d hd
    rw [UInt8.toNat_ofNat']
    omega
  refine ⟨⟨?_, ?_⟩, ?_⟩
  · rw [ne_eq, List.map_eq_nil_iff, List.reverse_eq_nil_iff]
    exact Nat.digits_ne_nil_iff_ne_zero.mpr hn
  · intro b hb
    obtain ⟨d, hd, rfl⟩ := List.mem_map.mp hb
    have hd := hlt d (List.mem_reverse.mp hd)
    have hall : ∀ d < 10, isDigit (UInt8.ofNat (48 + d)) := by decide
    exact hall d hd
  · have hvalue : ∀ ds : List ℕ, (∀ d ∈ ds, d < 10) →
        decimalValue (ds.reverse.map fun d => UInt8.ofNat (48 + d)) = Nat.ofDigits 10 ds := by
      intro ds hds
      induction ds with
      | nil => rfl
      | cons d ds ih =>
        obtain ⟨hd, hds⟩ := List.forall_mem_cons.mp hds
        rw [List.reverse_cons, List.map_append, List.map_singleton, decimalValue_concat, ih hds,
          Nat.ofDigits_cons, hbyte d hd]
        omega
    rw [hvalue _ hlt, Nat.ofDigits_digits]

lemma takes_integerLiteral (value : BitVec 32) :
    Takes strtod useNewlineAsFlush (decimalText value.toNat) (.integerLiteral value) [] := by
  obtain ⟨hdigits, hvalue⟩ := decimalText_digits value.toNat
  obtain ⟨b, text, htext⟩ := List.exists_cons_of_ne_nil hdigits.1
  obtain ⟨before, after, hrules, hbefore⟩ := lexerRules_digit strtod useNewlineAsFlush
  have hall := hdigits.2
  rw [htext, List.forall_mem_cons] at hall
  refine takes_of_rule hrules ?_ ?_ hdigits.1 ?_
  · intro rule hrule
    rw [htext, hbefore rule hrule b text hall.1]
    exact (Nat.succ_ne_zero _).symm
  · rw [htext, ScanRule.length, intRule, greedy_one, if_pos hall.1, greedy_many,
      List.takeWhile_eq_self_iff.mpr hall.2, List.dropWhile_eq_nil_iff.mpr hall.2]
    simp [greedy]
  · show some (lexerHandleInt _) = _
    have hlt := value.isLt
    rw [lexerHandleInt, strtol_digits hdigits.2, hvalue, Nat.min_eq_left (by rw [longMax]; omega),
      BitVec.ofNat_toNat, BitVec.setWidth_eq]

/-! ### Single bytes -/

/-- The pattern has two symbols at least. -/
def ScanRule.isLong (rule : ScanRule UInt8 Token) : Bool :=
  match rule.pattern with
  | .one _ :: .one _ :: _ => true
  | _ => false

lemma ScanRule.length_of_isLong {rule : ScanRule UInt8 Token} (h : rule.isLong) (c : UInt8) :
    rule.length [c] = 0 := by
  unfold ScanRule.isLong at h
  split at h
  · next p q ps hpattern =>
    rw [ScanRule.length, hpattern, greedy_one]
    split <;> rfl
  · cases h

lemma takes_char {c : UInt8} (h : isTaken c = false) :
    Takes strtod useNewlineAsFlush [c] (.char c) [] := by
  have hrules : lexerRules strtod useNewlineAsFlush = (wordRules strtod ++
      [commentRule, newlineRule useNewlineAsFlush, blankRule]) ++ charRule :: [] := by
    rw [List.append_assoc]
    rfl
  simp only [isTaken, Bool.or_eq_false_iff, List.contains_eq_mem, decide_eq_false_iff_not, List.mem_cons,
    List.not_mem_nil, or_false, not_or] at h
  obtain ⟨⟨⟨hletter, hdigit⟩, hblank⟩, hnewline, hopen, hclose, hlt, hgt, hbrace, hbrace'⟩ := h
  have hblank : ¬ c = 32 ∧ ¬ c = 9 := by simpa [isBlank] using hblank
  have hstring : stringRule.length [c] = 0 := by
    rw [length_stringRule]
    split <;> rfl
  have hzero : ∀ rule ∈ wordRules strtod ++ [commentRule, newlineRule useNewlineAsFlush, blankRule],
      rule.length [c] = 0 := by
    simp only [wordRules, keywordRules, valueRules, operatorRules, List.cons_append, List.nil_append,
      List.forall_mem_cons]
    refine ⟨?_, ?_, ?_, ?_, ?_, ?_, ?_, ?_, ?_, ?_, ?_, ?_, ?_, ?_, ?_, ?_, ?_, ?_, hstring, ?_, ?_, ?_, ?_,
      ?_, ?_, ?_, ?_, ?_, ?_, ?_, ?_, ?_, ?_, fun _ h => absurd h List.not_mem_nil⟩
    all_goals first
      | exact ScanRule.length_of_isLong rfl c
      | apply ScanRule.length_of_startsOff
        simp [ScanRule.startsOff, verbatim, theByte, ascii, intRule, newlineRule, blankRule, *]
  refine takes_of_rule hrules (fun rule hrule => ?_) ?_ (List.cons_ne_nil _ _) rfl
  · rw [hzero rule hrule]
    exact Nat.zero_ne_one
  · show (greedy [.one (· != 10)] [c]).getD 0 = 1
    rw [greedy_one, if_pos (bne_iff_ne.mpr hnewline)]
    rfl

lemma takes_newline : Takes strtod true [10] .newline [] := by
  have hrules : lexerRules strtod true = (wordRules strtod ++ [commentRule]) ++
      newlineRule true :: [blankRule, charRule] := by
    rw [List.append_assoc]
    rfl
  refine takes_of_rule hrules (fun rule hrule => ?_) rfl (List.cons_ne_nil _ _) rfl
  cases List.mem_append.mp hrule with
  | inl hrule =>
    rw [length_wordRules (.inr rfl) [] rule hrule]
    exact Nat.zero_ne_one
  | inr hrule =>
    rw [List.mem_singleton.mp hrule]
    exact Nat.zero_ne_one

/-- Alone, the text of a token is the token. -/
lemma Token.takes {token : Token} (h : token.Printable useNewlineAsFlush) :
    Takes strtod useNewlineAsFlush token.text token [] := by
  cases token with
  | identifier stringValue =>
    obtain ⟨hreserved, b, rest, rfl, hb, hrest⟩ := h
    exact takes_identifier hb hrest hreserved
  | integerLiteral intValue => exact takes_integerLiteral intValue
  | floatLiteral floatValue => exact h.elim
  | charLiteral charValue => exact takes_charLiteral h
  | stringLiteral stringValue => exact takes_stringLiteral h
  | booleanLiteral boolValue =>
    cases boolValue
    · exact ⟨by decide, rfl, rfl⟩
    · exact ⟨by decide, rfl, rfl⟩
  | char c =>
    cases h with
    | inl h => exact takes_char h
    | inr h =>
      obtain ⟨rfl, rfl⟩ := h
      exact takes_newline
  | _ => exact ⟨by decide, rfl, rfl⟩

/-! ## Texts with blanks -/

/-- A quote that is a token of its own has no other quote behind it. -/
def QuotesApart : List Token → Prop
  | [] => True
  | token :: toks => (token = .char 34 → 34 ∉ printTokens toks) ∧ QuotesApart toks

/-- What the rules for strings and comments see of a token. -/
lemma Token.exists_head {token : Token} (h : token.Printable useNewlineAsFlush) :
    ∃ b text, token.text = b :: text ∧ (b = 47 → text = []) ∧
      (b = 34 → token = .char 34 ∨ ∃ value, token = .stringLiteral value) := by
  cases token with
  | identifier stringValue =>
    obtain ⟨-, b, rest, rfl, hb, -⟩ := h
    refine ⟨b, rest, rfl, fun heq => ?_, fun heq => absurd heq (isLetter_ne hb).2.2⟩
    rw [heq] at hb
    cases hb
  | integerLiteral intValue =>
    have hdigits := (decimalText_digits intValue.toNat).1
    obtain ⟨b, text, htext⟩ := List.exists_cons_of_ne_nil hdigits.1
    have hb : isDigit b := hdigits.2 b (by rw [htext]; exact List.mem_cons_self)
    refine ⟨b, text, htext, fun heq => ?_, fun heq => ?_⟩
    · rw [heq] at hb
      cases hb
    · rw [heq] at hb
      cases hb
  | floatLiteral floatValue => exact h.elim
  | stringLiteral stringValue =>
    exact ⟨_, _, rfl, fun heq => absurd heq (by decide), fun _ => .inr ⟨_, rfl⟩⟩
  | char c => exact ⟨_, _, rfl, fun _ => rfl, fun heq => .inl (congrArg Token.char heq)⟩
  | booleanLiteral boolValue =>
    cases boolValue
    · exact ⟨_, _, rfl, fun heq => absurd heq (by decide), fun heq => absurd heq (by decide)⟩
    · exact ⟨_, _, rfl, fun heq => absurd heq (by decide), fun heq => absurd heq (by decide)⟩
  | _ => exact ⟨_, _, rfl, fun heq => absurd heq (by decide), fun heq => absurd heq (by decide)⟩

/-- The rules for strings and comments take the same of a token and of its text alone. -/
lemma Token.length_text {token : Token} (h : token.Printable useNewlineAsFlush) {text : CStr}
    (hquote : token = .char 34 → 34 ∉ text) :
    stringRule.length (token.text ++ 32 :: text) = stringRule.length (token.text ++ []) ∧
      commentRule.length (token.text ++ 32 :: text) = commentRule.length (token.text ++ []) := by
  obtain ⟨b, rest, htext, hslash, hstring⟩ := Token.exists_head h
  constructor
  · by_cases hb : b = 34
    · rcases hstring hb with rfl | ⟨value, rfl⟩
      · show stringRule.length (34 :: 32 :: text) = stringRule.length [34]
        have hnone : 34 ∉ 32 :: text := by
          rw [List.mem_cons, not_or]
          exact ⟨by decide, hquote rfl⟩
        rw [length_stringRule, length_stringRule, greedy_upTo_none hnone]
        rfl
      · show stringRule.length (34 :: ((value ++ [34]) ++ 32 :: text)) =
          stringRule.length (34 :: ((value ++ [34]) ++ []))
        rw [length_stringRule, length_stringRule, List.append_assoc, List.append_assoc,
          List.singleton_append, List.singleton_append, greedy_upTo h, greedy_upTo h]
    · rw [htext, List.cons_append, List.cons_append, length_stringRule, length_stringRule, if_neg hb,
        if_neg hb]
  · by_cases hb : b = 47
    · -- a slash is alone
      rw [htext, hslash hb, hb]
      rfl
    · have hoff : commentRule.startsOff b := by
        simp [commentRule, ScanRule.startsOff, theByte, hb]
      rw [htext, List.cons_append, List.cons_append, ScanRule.length_of_startsOff hoff,
        ScanRule.length_of_startsOff hoff]

lemma startsDense_printTokens {toks : List Token} (h : ∀ token ∈ toks, token.Printable useNewlineAsFlush) :
    StartsDense (printTokens toks) := by
  cases toks with
  | nil => exact fun b hb => by cases hb
  | cons token toks =>
    have htakes := @Token.takes (fun _ => 0) _ _ (h token List.mem_cons_self)
    rw [printTokens, List.flatMap_cons, List.append_assoc]
    exact htakes.dense _

/-- One token. -/
lemma yylex_printTokens_cons {token : Token} {toks : List Token}
    (h : ∀ t ∈ token :: toks, t.Printable useNewlineAsFlush)
    (hquote : token = .char 34 → 34 ∉ printTokens toks) :
    yylex strtod useNewlineAsFlush (printTokens (token :: toks)) =
      token :: yylex strtod useNewlineAsFlush (printTokens toks) := by
  have htoken := h token List.mem_cons_self
  have htoks : ∀ t ∈ toks, t.Printable useNewlineAsFlush := fun t ht => h t (List.mem_cons_of_mem _ ht)
  obtain ⟨hstring, hcomment⟩ := Token.length_text htoken hquote
  have hstep := (@Token.takes strtod _ _ htoken).spaced hstring hcomment (startsDense_printTokens htoks)
  have htokens := congrArg (List.map Prod.snd) hstep
  rw [List.map_cons, yylexemes, yylexemes, map_lexemes, map_lexemes] at htokens
  rw [printTokens, List.flatMap_cons, List.append_assoc]
  exact htokens

/-- Two quotes make a string. -/
lemma yylex_quotes {text : CStr} (h : 34 ∈ text) :
    ∃ value toks, yylex strtod useNewlineAsFlush (34 :: text) = .stringLiteral value :: toks := by
  obtain ⟨s, rest, rfl, hs⟩ := List.eq_append_cons_of_mem h
  have hrules : lexerRules strtod useNewlineAsFlush = (keywordRules ++ (valueRules strtod).take 5) ++
      stringRule :: (((valueRules strtod).drop 6 ++ operatorRules ++ [commentRule,
        newlineRule useNewlineAsFlush, blankRule]) ++ [charRule]) := rfl
  have hlength : stringRule.length (34 :: (s ++ 34 :: rest)) = s.length + 2 := by
    rw [length_stringRule, if_pos rfl, greedy_upTo hs]
    rfl
  have hbefore : ∀ rule ∈ keywordRules ++ (valueRules strtod).take 5,
      rule.length (34 :: (s ++ 34 :: rest)) = 0 := by
    have hall : (keywordRules ++ (valueRules strtod).take 5).all (ScanRule.startsOff 34) = true := rfl
    exact fun rule hrule => ScanRule.length_of_startsOff (List.all_eq_true.mp hall rule hrule) _
  have hafter : ∀ rule ∈ ((valueRules strtod).drop 6 ++ operatorRules ++ [commentRule,
      newlineRule useNewlineAsFlush, blankRule]) ++ [charRule],
      rule.length (34 :: (s ++ 34 :: rest)) ≤ stringRule.length (34 :: (s ++ 34 :: rest)) := by
    have hall : ((valueRules strtod).drop 6 ++ operatorRules ++ [commentRule,
        newlineRule useNewlineAsFlush, blankRule]).all (ScanRule.startsOff 34) = true := rfl
    intro rule hrule
    rw [hlength]
    cases List.mem_append.mp hrule with
    | inl hrule =>
      rw [ScanRule.length_of_startsOff (List.all_eq_true.mp hall rule hrule)]
      exact Nat.zero_le _
    | inr hrule =>
      rw [List.mem_singleton.mp hrule]
      exact Nat.le_add_left 1 _
  rw [yylex, hrules, tokens_of_rule hbefore hafter (by rw [hlength]; exact Nat.succ_ne_zero _)]
  exact ⟨_, _, rfl⟩

/-- Printing and scanning: whatever tokens are written with a blank behind each, scanning the text gives
them back exactly if no quote that is a token of its own has a quote behind it. -/
theorem yylex_printTokens_iff (strtod : CStr → BitVec 32) {toks : List Token}
    (h : ∀ token ∈ toks, token.Printable useNewlineAsFlush) :
    yylex strtod useNewlineAsFlush (printTokens toks) = toks ↔ QuotesApart toks := by
  induction toks with
  | nil => exact ⟨fun _ => trivial, fun _ => rfl⟩
  | cons token toks ih =>
    have ih := ih fun t ht => h t (List.mem_cons_of_mem _ ht)
    by_cases hquote : token = .char 34 → 34 ∉ printTokens toks
    · rw [yylex_printTokens_cons h hquote, List.cons.injEq, ih, QuotesApart]
      exact ⟨fun hrest => ⟨hquote, hrest.2⟩, fun hrest => ⟨rfl, hrest.2⟩⟩
    · refine ⟨fun heq => ?_, fun hapart => absurd hapart.1 hquote⟩
      rw [Classical.not_imp, not_not] at hquote
      obtain ⟨rfl, hmem⟩ := hquote
      obtain ⟨value, rest, hstring⟩ :=
        @yylex_quotes strtod useNewlineAsFlush (32 :: printTokens toks) (List.mem_cons_of_mem _ hmem)
      have hprint : printTokens (.char 34 :: toks) = 34 :: 32 :: printTokens toks := rfl
      rw [hprint, hstring] at heq
      cases heq

/-- `if x "y" " 10` and a newline -/
def sampleTokens : List Token :=
  [.keywordIf, .identifier [120], .stringLiteral [121], .char 34, .integerLiteral 10, .newline]

theorem yylex_printTokens_iff_sample :
    yylex (fun _ => 0) true (printTokens sampleTokens) = sampleTokens ↔ QuotesApart sampleTokens := by
  refine yylex_printTokens_iff _ ?_
  simp only [sampleTokens, List.forall_mem_cons]
  refine ⟨trivial, ⟨by decide, 120, [], rfl, by decide, fun _ hc => absurd hc List.not_mem_nil⟩, ?_, ?_,
    trivial, .inr ⟨rfl, rfl⟩, fun _ h => absurd h List.not_mem_nil⟩
  · show 34 ∉ [121]
    decide
  · exact .inl (by decide)

end PhantomShell
