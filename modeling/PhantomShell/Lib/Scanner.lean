import Mathlib.Data.List.Basic
import Mathlib.Data.List.Infix
import Mathlib.Data.List.TakeWhile

/-!
# Longest matches

A scanner splits a text into lexemes: at each place the rule with the longest match is taken, and
the first one of several that match equally much. The patterns are sequences of character classes,
each of which stands for one symbol or for any number of them.
-/

namespace PhantomShell

variable {σ τ : Type*}

/-! ## Patterns -/

/-- One symbol of a class, or any number of them. -/
inductive Piece (σ : Type*)
  | one (p : σ → Bool)
  | many (p : σ → Bool)

/-- The texts that a pattern describes. -/
inductive Matches : List (Piece σ) → List σ → Prop
  | nil : Matches [] []
  | one {p : σ → Bool} {b : σ} {ps : List (Piece σ)} {s : List σ} (hb : p b) (h : Matches ps s) :
    Matches (.one p :: ps) (b :: s)
  | many {p : σ → Bool} {run s : List σ} {ps : List (Piece σ)} (hrun : ∀ b ∈ run, p b)
    (h : Matches ps s) : Matches (.many p :: ps) (run ++ s)

/-- The class of a piece. -/
def Piece.accepts : Piece σ → σ → Bool
  | .one p => p
  | .many p => p

/-- The symbols that a text of the pattern can start with. -/
def starts : List (Piece σ) → σ → Bool
  | [], _ => false
  | .one p :: _, b => p b
  | .many p :: ps, b => p b || starts ps b

/-- No symbol of a repeated class can also start what is behind it. -/
def Deterministic : List (Piece σ) → Prop
  | [] => True
  | .one _ :: ps => Deterministic ps
  | .many p :: ps => (∀ b, p b → starts ps b = false) ∧ Deterministic ps

/-- The length of the match that takes as many symbols as it can for each class. -/
def greedy : List (Piece σ) → List σ → Option ℕ
  | [], _ => some 0
  | .one _ :: _, [] => none
  | .one p :: ps, b :: text => if p b then (greedy ps text).map (· + 1) else none
  | .many p :: ps, text => (greedy ps (text.dropWhile p)).map (· + (text.takeWhile p).length)

lemma greedy_one (p : σ → Bool) (ps : List (Piece σ)) (b : σ) (text : List σ) :
    greedy (.one p :: ps) (b :: text) = if p b then (greedy ps text).map (· + 1) else none := by
  rw [greedy]

lemma greedy_many (p : σ → Bool) (ps : List (Piece σ)) (text : List σ) :
    greedy (.many p :: ps) text =
      (greedy ps (text.dropWhile p)).map (· + (text.takeWhile p).length) := by
  rw [greedy]

/-- What it takes is a text of the pattern. -/
lemma matches_of_greedy {ps : List (Piece σ)} {text : List σ} {n : ℕ}
    (h : greedy ps text = some n) : n ≤ text.length ∧ Matches ps (text.take n) := by
  induction ps generalizing text n with
  | nil =>
    obtain rfl : 0 = n := Option.some.inj h
    exact ⟨Nat.zero_le _, .nil⟩
  | cons piece ps ih =>
    cases piece with
    | one p =>
      cases text with
      | nil => cases h
      | cons b text =>
        rw [greedy_one] at h
        split at h
        · next hb =>
          obtain ⟨m, hm, rfl⟩ := Option.map_eq_some_iff.mp h
          obtain ⟨hle, hmatch⟩ := ih hm
          exact ⟨Nat.succ_le_succ hle, .one hb hmatch⟩
        · cases h
    | many p =>
      rw [greedy_many] at h
      obtain ⟨m, hm, rfl⟩ := Option.map_eq_some_iff.mp h
      obtain ⟨hle, hmatch⟩ := ih hm
      have hsplit : text.takeWhile p ++ text.dropWhile p = text := List.takeWhile_append_dropWhile
      have hlen := congrArg List.length hsplit
      rw [List.length_append] at hlen
      refine ⟨by omega, ?_⟩
      have htake : text.take (m + (text.takeWhile p).length)
          = text.takeWhile p ++ (text.dropWhile p).take m := calc
        _ = (text.takeWhile p ++ text.dropWhile p).take ((text.takeWhile p).length + m) := by
          rw [hsplit, Nat.add_comm]
        _ = _ := List.take_length_add_append m
      rw [htake]
      exact .many (fun b hb => List.mem_takeWhile_imp hb) hmatch

/-- A text of the pattern begins with a symbol that it can start with. -/
lemma Matches.starts {ps : List (Piece σ)} {b : σ} {s : List σ} (h : Matches ps (b :: s)) :
    starts ps b := by
  generalize htext : b :: s = text at h
  induction h with
  | nil => cases htext
  | one hb _ _ =>
    cases htext
    exact hb
  | @many p run s' ps hrun _ ih =>
    cases run with
    | nil => simp [PhantomShell.starts, ih htext]
    | cons c run =>
      cases htext
      simp [PhantomShell.starts, hrun b (by simp)]

/-- If a class cannot be confused with what is behind it, no text of the pattern is longer. -/
lemma greedy_longest {ps : List (Piece σ)} (hps : Deterministic ps) {s : List σ}
    (h : Matches ps s) (rest : List σ) : ∃ n, greedy ps (s ++ rest) = some n ∧ s.length ≤ n := by
  induction h generalizing rest with
  | nil => exact ⟨0, rfl, le_refl _⟩
  | one hb _ ih =>
    obtain ⟨n, hn, hle⟩ := ih hps rest
    refine ⟨n + 1, ?_, Nat.succ_le_succ hle⟩
    rw [List.cons_append, greedy_one, if_pos hb, hn]
    rfl
  | @many p run s ps hrun hs ih =>
    obtain ⟨hdisjoint, hps⟩ := hps
    have htake : (run ++ s ++ rest).takeWhile p = run ++ (s ++ rest).takeWhile p := by
      rw [List.append_assoc, List.takeWhile_append_of_pos hrun]
    have hdrop : (run ++ s ++ rest).dropWhile p = (s ++ rest).dropWhile p := by
      rw [List.append_assoc, List.dropWhile_append_of_pos hrun]
    rw [greedy_many, htake, hdrop, List.length_append]
    cases s with
    | nil =>
      -- the class runs on into the rest, and the empty text is behind it
      obtain ⟨n, hn, -⟩ := ih hps ((([] : List σ) ++ rest).dropWhile p)
      rw [List.nil_append] at hn
      exact ⟨_, by rw [hn]; rfl, by simp only [List.length_append, List.length_nil]; omega⟩
    | cons b s =>
      have hb : p b = false := by
        by_contra hb
        have := hdisjoint b (by simpa using hb)
        rw [hs.starts] at this
        cases this
      obtain ⟨n, hn, hle⟩ := ih hps rest
      have hdropWhile : (b :: s ++ rest).dropWhile p = b :: s ++ rest := by
        simp [hb]
      rw [hdropWhile, hn]
      exact ⟨_, rfl, by simp only [List.length_append]; omega⟩

/-! ### Up to a symbol -/

section

variable [DecidableEq σ]

/-- Everything up to the first `z`. -/
def upTo (z : σ) : List (Piece σ) := [.many (· != z), .one (· == z)]

lemma greedy_upTo {z : σ} {s : List σ} (hs : z ∉ s) (rest : List σ) :
    greedy (upTo z) (s ++ z :: rest) = some (s.length + 1) := by
  have hall : ∀ b ∈ s, (b != z) = true := by
    intro b hb
    rw [bne_iff_ne]
    rintro rfl
    exact hs hb
  rw [upTo, greedy_many, List.takeWhile_append_of_pos hall, List.dropWhile_append_of_pos hall]
  simp [greedy, Nat.add_comm]

lemma greedy_upTo_none {z : σ} {s : List σ} (hs : z ∉ s) : greedy (upTo z) s = none := by
  have hall : ∀ b ∈ s, (b != z) = true := by
    intro b hb
    rw [bne_iff_ne]
    rintro rfl
    exact hs hb
  have hdrop : s.dropWhile (· != z) = [] := List.dropWhile_eq_nil_iff.mpr hall
  rw [upTo, greedy_many, hdrop]
  rfl

/-- The first `z` is behind `w`, or it does not matter what is there. -/
lemma greedy_upTo_replace {z : σ} {x y : List σ} (h : z ∈ y → z ∈ x) (w : List σ) :
    (∃ n, greedy (upTo z) (w ++ x) = some n ∧ w.length < n) ∨
      greedy (upTo z) (w ++ y) = greedy (upTo z) (w ++ x) := by
  by_cases hw : z ∈ w
  · obtain ⟨s, t, rfl, hs⟩ := List.eq_append_cons_of_mem hw
    refine .inr ?_
    simp only [List.append_assoc, List.cons_append]
    rw [greedy_upTo hs, greedy_upTo hs]
  · by_cases hx : z ∈ x
    · obtain ⟨s, t, rfl, hs⟩ := List.eq_append_cons_of_mem hx
      refine .inl ⟨(w ++ s).length + 1, ?_, by rw [List.length_append]; omega⟩
      rw [← List.append_assoc, greedy_upTo (by simp [hw, hs])]
    · have hy : z ∉ y := fun hy => hx (h hy)
      refine .inr ?_
      rw [greedy_upTo_none (by simp [hw, hy]), greedy_upTo_none (by simp [hw, hx])]

end

/-! ## Scanning -/

/-- A pattern, and the token of a match if there is one. -/
structure ScanRule (σ τ : Type*) where
  pattern : List (Piece σ)
  action : List σ → Option τ

/-- The length of the match of a rule, 0 where it has none. -/
def ScanRule.length (rule : ScanRule σ τ) (text : List σ) : ℕ := (greedy rule.pattern text).getD 0

/-- The length of the longest match. -/
def matchLength (rules : List (ScanRule σ τ)) (text : List σ) : ℕ :=
  rules.foldr (fun rule n => max (rule.length text) n) 0

/-- The token of the first rule with the longest match. -/
def lexeme (rules : List (ScanRule σ τ)) (text : List σ) : Option τ :=
  (rules.find? fun rule => rule.length text == matchLength rules text).bind fun rule =>
    rule.action (text.take (matchLength rules text))

/-- The tokens of a text, up to a place where no rule matches. Each match has a symbol at least. -/
def scan (rules : List (ScanRule σ τ)) : (fuel : ℕ) → List σ → List τ
  | 0, _ => []
  | fuel + 1, text =>
    if matchLength rules text = 0 then []
    else (lexeme rules text).toList ++ scan rules fuel (text.drop (matchLength rules text))

/-- A text as a sequence of tokens. -/
def tokens (rules : List (ScanRule σ τ)) (text : List σ) : List τ := scan rules text.length text

lemma ScanRule.length_le (rule : ScanRule σ τ) (text : List σ) : rule.length text ≤ text.length := by
  rw [ScanRule.length]
  cases h : greedy rule.pattern text with
  | none => exact Nat.zero_le _
  | some n => exact (matches_of_greedy h).1

lemma ScanRule.length_le_matchLength {rules : List (ScanRule σ τ)} {rule : ScanRule σ τ}
    (h : rule ∈ rules) (text : List σ) : rule.length text ≤ matchLength rules text := by
  induction rules with
  | nil => cases h
  | cons rule' rules ih =>
    rw [matchLength, List.foldr_cons, ← matchLength]
    rcases List.mem_cons.mp h with rfl | h
    · exact le_max_left _ _
    · exact (ih h).trans (le_max_right _ _)

lemma matchLength_le (rules : List (ScanRule σ τ)) (text : List σ) :
    matchLength rules text ≤ text.length := by
  induction rules with
  | nil => exact Nat.zero_le _
  | cons rule rules ih =>
    rw [matchLength, List.foldr_cons, ← matchLength]
    exact max_le (rule.length_le text) ih

/-- No rule describes a longer start of the text. -/
theorem matchLength_longest {rules : List (ScanRule σ τ)}
    (hrules : ∀ rule ∈ rules, Deterministic rule.pattern) {rule : ScanRule σ τ} (hmem : rule ∈ rules)
    {s rest : List σ} (h : Matches rule.pattern s) : s.length ≤ matchLength rules (s ++ rest) := by
  obtain ⟨n, hn, hle⟩ := greedy_longest (hrules rule hmem) h rest
  have hlength : rule.length (s ++ rest) = n := by rw [ScanRule.length, hn, Option.getD_some]
  exact hle.trans (hlength ▸ ScanRule.length_le_matchLength hmem _)

/-- A rule does not match where no text of its pattern can start. -/
lemma ScanRule.length_of_not_starts {rule : ScanRule σ τ} {p : σ → Bool} {ps : List (Piece σ)}
    (hpattern : rule.pattern = .one p :: ps) {b : σ} (hb : p b = false) (text : List σ) :
    rule.length (b :: text) = 0 := by
  rw [ScanRule.length, hpattern, greedy_one, if_neg (by simp [hb])]
  rfl

/-- Lengths decide what is scanned. -/
lemma matchLength_congr {rules : List (ScanRule σ τ)} {text text' : List σ}
    (h : ∀ rule ∈ rules, rule.length text' = rule.length text) :
    matchLength rules text' = matchLength rules text := by
  induction rules with
  | nil => rfl
  | cons rule rules ih =>
    obtain ⟨hrule, hrules⟩ := List.forall_mem_cons.mp h
    simp only [matchLength, List.foldr_cons] at ih ⊢
    rw [hrule, ih hrules]

lemma find?_matching {rules : List (ScanRule σ τ)} {text text' : List σ} {n : ℕ}
    (h : ∀ rule ∈ rules, rule.length text' = rule.length text) :
    (rules.find? fun rule => rule.length text' == n) =
      rules.find? fun rule => rule.length text == n := by
  induction rules with
  | nil => rfl
  | cons rule rules ih =>
    obtain ⟨hrule, hrules⟩ := List.forall_mem_cons.mp h
    simp only [List.find?_cons, hrule, ih hrules]

lemma lexeme_congr {rules : List (ScanRule σ τ)} {text text' : List σ}
    (h : ∀ rule ∈ rules, rule.length text' = rule.length text)
    (htake : text'.take (matchLength rules text) = text.take (matchLength rules text)) :
    lexeme rules text' = lexeme rules text := by
  rw [lexeme, lexeme, matchLength_congr h, find?_matching h, htake]

/-- Rules that do not match are passed over. -/
lemma matchLength_append {before after : List (ScanRule σ τ)} {text : List σ}
    (h : ∀ rule ∈ before, rule.length text = 0) :
    matchLength (before ++ after) text = matchLength after text := by
  induction before with
  | nil => rfl
  | cons rule before ih =>
    obtain ⟨hrule, hbefore⟩ := List.forall_mem_cons.mp h
    simp only [matchLength, List.cons_append, List.foldr_cons] at ih ⊢
    rw [hrule, ih hbefore, Nat.zero_max]

lemma lexeme_append {before after : List (ScanRule σ τ)} {text : List σ}
    (h : ∀ rule ∈ before, rule.length text = 0) (hpos : matchLength after text ≠ 0) :
    lexeme (before ++ after) text = lexeme after text := by
  have hnone : before.find? (fun rule => rule.length text == matchLength after text) = none := by
    rw [List.find?_eq_none]
    intro rule hrule
    rw [h rule hrule, beq_iff_eq]
    exact fun heq => hpos heq.symm
  rw [lexeme, lexeme, matchLength_append h, List.find?_append, hnone, Option.none_or]

/-- The rule at the head has the longest match. -/
lemma lexeme_cons {rule : ScanRule σ τ} {rules : List (ScanRule σ τ)} {text : List σ}
    (h : ∀ rule' ∈ rules, rule'.length text ≤ rule.length text) :
    matchLength (rule :: rules) text = rule.length text ∧
      lexeme (rule :: rules) text = rule.action (text.take (rule.length text)) := by
  have hmatch : matchLength (rule :: rules) text = rule.length text := by
    rw [matchLength, List.foldr_cons, ← matchLength, max_eq_left]
    induction rules with
    | nil => exact Nat.zero_le _
    | cons rule' rules ih =>
      obtain ⟨hrule, hrules⟩ := List.forall_mem_cons.mp h
      rw [matchLength, List.foldr_cons, ← matchLength]
      exact max_le hrule (ih hrules)
  refine ⟨hmatch, ?_⟩
  rw [lexeme, hmatch, List.find?_cons, beq_self_eq_true]
  rfl

lemma scan_nil (rules : List (ScanRule σ τ)) (fuel : ℕ) : scan rules fuel [] = [] := by
  cases fuel with
  | zero => rfl
  | succ fuel =>
    have hzero : matchLength rules [] = 0 := Nat.le_zero.mp (matchLength_le rules [])
    rw [scan, if_pos hzero]

/-- A round for each symbol is enough. -/
lemma scan_eq_tokens (rules : List (ScanRule σ τ)) {fuel : ℕ} {text : List σ}
    (h : text.length ≤ fuel) : scan rules fuel text = tokens rules text := by
  rw [tokens]
  induction hlen : text.length using Nat.strong_induction_on generalizing fuel text with
  | _ n ih =>
    cases text with
    | nil => rw [scan_nil, scan_nil]
    | cons b text =>
      obtain ⟨fuel, rfl⟩ : ∃ m, fuel = m + 1 :=
        ⟨fuel - 1, by rw [List.length_cons] at h; omega⟩
      obtain ⟨n, rfl⟩ : ∃ m, n = m + 1 := ⟨n - 1, by rw [List.length_cons] at hlen; omega⟩
      rw [scan, scan]
      split
      · rfl
      · next hpos =>
        have hdrop : ((b :: text).drop (matchLength rules (b :: text))).length < n + 1 := by
          rw [List.length_drop]
          omega
        have hfuel : ((b :: text).drop (matchLength rules (b :: text))).length ≤ fuel := by omega
        have hround : ((b :: text).drop (matchLength rules (b :: text))).length ≤ n := by omega
        rw [ih _ hdrop hfuel rfl, ih _ hdrop hround rfl]

/-- One round. -/
lemma tokens_of_pos {rules : List (ScanRule σ τ)} {text : List σ}
    (hpos : matchLength rules text ≠ 0) :
    tokens rules text =
      (lexeme rules text).toList ++ tokens rules (text.drop (matchLength rules text)) := by
  have hle := matchLength_le rules text
  obtain ⟨n, hn⟩ : ∃ n, text.length = n + 1 := ⟨text.length - 1, by omega⟩
  rw [tokens, hn, scan, if_neg hpos, scan_eq_tokens rules (by rw [List.length_drop]; omega)]

/-- One round that a rule decides. -/
theorem tokens_of_rule {before after : List (ScanRule σ τ)} {rule : ScanRule σ τ} {text : List σ}
    (hbefore : ∀ rule' ∈ before, rule'.length text = 0)
    (hafter : ∀ rule' ∈ after, rule'.length text ≤ rule.length text)
    (hpos : rule.length text ≠ 0) :
    tokens (before ++ rule :: after) text =
      (rule.action (text.take (rule.length text))).toList ++
        tokens (before ++ rule :: after) (text.drop (rule.length text)) := by
  obtain ⟨hmatch, hlexeme⟩ := lexeme_cons hafter
  have hmatch' : matchLength (before ++ rule :: after) text = matchLength (rule :: after) text :=
    matchLength_append hbefore
  rw [hmatch] at hmatch'
  rw [tokens_of_pos (by rw [hmatch']; exact hpos), lexeme_append hbefore (by rw [hmatch]; exact hpos),
    hlexeme, hmatch']

/-! ## Places in a text -/

/-- The scanner splits a text into lexemes up to the rest, and these are their tokens. -/
inductive Scans (rules : List (ScanRule σ τ)) (rest : List σ) : List σ → List τ → Prop
  | done : Scans rules rest rest []
  | step {text : List σ} {toks : List τ} (hpos : matchLength rules text ≠ 0)
    (h : Scans rules rest (text.drop (matchLength rules text)) toks) :
    Scans rules rest text ((lexeme rules text).toList ++ toks)

variable {rules : List (ScanRule σ τ)} {rest : List σ}

/-- Scanning goes on from any place that it reaches. -/
theorem Scans.tokens {text : List σ} {toks : List τ} (h : Scans rules rest text toks) :
    tokens rules text = toks ++ tokens rules rest := by
  induction h with
  | done => rfl
  | @step text toks hpos _ ih => rw [tokens_of_pos hpos, List.append_assoc, ih]

lemma Scans.length_le {text : List σ} {toks : List τ} (h : Scans rules rest text toks) :
    rest.length ≤ text.length := by
  induction h with
  | done => exact le_refl _
  | step _ _ ih =>
    rw [List.length_drop] at ih
    omega

/-- What is behind a place decides nothing in front of it, if every rule matches the same whatever
the two texts are behind, unless its match reaches into them. -/
theorem Scans.replace {rest' : List σ}
    (hrules : ∀ rule ∈ rules, ∀ w, w ≠ [] → rule.length (w ++ rest) ≤ w.length →
      rule.length (w ++ rest') = rule.length (w ++ rest))
    {u : List σ} {toks : List τ} (h : Scans rules rest (u ++ rest) toks) :
    Scans rules rest' (u ++ rest') toks := by
  generalize htext : u ++ rest = text at h
  induction h generalizing u with
  | done =>
    obtain rfl : u = [] := List.append_left_eq_self.mp htext
    exact .done
  | @step text toks hpos h ih =>
    subst htext
    have hlen := h.length_le
    have hmax := matchLength_le rules (u ++ rest)
    rw [List.length_drop] at hlen
    rw [List.length_append] at hlen hmax
    have hle : matchLength rules (u ++ rest) ≤ u.length := by omega
    have hne : u ≠ [] := by
      rintro rfl
      exact hpos (Nat.le_zero.mp hle)
    have hsame : ∀ rule ∈ rules, rule.length (u ++ rest') = rule.length (u ++ rest) :=
      fun rule hmem =>
        hrules rule hmem u hne ((ScanRule.length_le_matchLength hmem _).trans hle)
    have htake : (u ++ rest').take (matchLength rules (u ++ rest))
        = (u ++ rest).take (matchLength rules (u ++ rest)) := by
      rw [List.take_append_of_le_length hle, List.take_append_of_le_length hle]
    have hdrop : ∀ t : List σ, (u ++ t).drop (matchLength rules (u ++ rest))
        = u.drop (matchLength rules (u ++ rest)) ++ t := fun t => List.drop_append_of_le_length hle
    have hstep := ih (hdrop rest).symm
    rw [← hdrop rest', ← matchLength_congr hsame] at hstep
    rw [← lexeme_congr hsame htake]
    exact .step (by rw [matchLength_congr hsame]; exact hpos) hstep

/-! ### Rules that match the same -/

/-- No class of the pattern has the first symbol of the text. -/
def Avoids (ps : List (Piece σ)) (text : List σ) : Prop :=
  ∀ b ∈ text.head?, ∀ piece ∈ ps, piece.accepts b = false

/-- A match ends at the latest in front of a symbol that no class has. -/
lemma greedy_append {ps : List (Piece σ)} {rest : List σ} (h : Avoids ps rest) (w : List σ) :
    greedy ps (w ++ rest) = greedy ps w := by
  induction ps generalizing w with
  | nil => rfl
  | cons piece ps ih =>
    have hps : Avoids ps rest := fun b hb piece hpiece =>
      h b hb piece (List.mem_cons_of_mem _ hpiece)
    cases piece with
    | one p =>
      cases w with
      | nil =>
        cases rest with
        | nil => rfl
        | cons b rest =>
          have hb : p b = false := h b rfl (.one p) (by simp)
          rw [List.nil_append, greedy_one, if_neg (by simp [hb])]
          rfl
      | cons b w => rw [List.cons_append, greedy_one, greedy_one, ih hps]
    | many p =>
      have hrest : rest.takeWhile p = [] ∧ rest.dropWhile p = rest := by
        cases rest with
        | nil => exact ⟨rfl, rfl⟩
        | cons b rest =>
          have hb : p b = false := h b rfl (.many p) (by simp)
          exact ⟨by simp [hb], by simp [hb]⟩
      have htake : (w ++ rest).takeWhile p = w.takeWhile p := by
        rw [List.takeWhile_append, hrest.1, List.append_nil]
        split
        · next hlen => exact ((List.takeWhile_prefix p).eq_of_length hlen).symm
        · rfl
      have hdrop : (w ++ rest).dropWhile p = w.dropWhile p ++ rest := by
        rw [List.dropWhile_append, hrest.2]
        split
        · next hnil => rw [List.isEmpty_iff.mp hnil, List.nil_append]
        · rfl
      rw [greedy_many, greedy_many, htake, hdrop, ih hps]

/-- A rule matches the same in front of any two symbols that no class has. -/
lemma ScanRule.length_append {rule : ScanRule σ τ} {rest rest' : List σ}
    (h : Avoids rule.pattern rest) (h' : Avoids rule.pattern rest') (w : List σ) :
    rule.length (w ++ rest') = rule.length (w ++ rest) := by
  rw [ScanRule.length, ScanRule.length, greedy_append h, greedy_append h']

end PhantomShell
