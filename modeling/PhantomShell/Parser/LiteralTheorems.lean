import PhantomShell.Compiler.EncodingTheorems
import PhantomShell.Parser.Lexer
import PhantomShell.Vm.Rules

/-!
# Integer literals

From the digits in the text to the word that the machine pushes: `strtol`, the cast to `int`, the
big-endian operand of `OPCODE_ICONST`, and `be32toh`.
-/

namespace PhantomShell

/-- The text is one literal for the lexer, and wherever the compiler takes it, the machine pushes the
number that the text is written for. -/
def LiteralKept (text : CStr) : Prop :=
  ∀ strtod useNewlineAsFlush, ∃ value,
    yylex strtod useNewlineAsFlush text = [.integerLiteral value] ∧
    ∀ fuel s ret s', compileExpression fuel (.literalInt value) s = .ok ret s' →
      ∃ chunk, Emitted s [chunk] [4] s' ∧ ∀ host vm frame, frame.Room 1 →
        ∃ w : BitVec 32, VmRuns host vm frame chunk (frame.push ⟨.int, w⟩) ∧
          w.toInt = decimalValue text

/-! ## The lexer -/

/-- `[0-9]+` -/
def isDigits (text : CStr) : Prop := text ≠ [] ∧ ∀ b ∈ text, isDigit b

/-- A pattern that starts with another character does not match a digit. -/
lemma length_of_digit {rule : ScanRule UInt8 Token} {c : UInt8} {ps : List (Piece UInt8)}
    (hpattern : rule.pattern = theByte c :: ps) (hc : isDigit c = false) {b : UInt8}
    (hb : isDigit b) (text : CStr) : rule.length (b :: text) = 0 := by
  refine ScanRule.length_of_not_starts hpattern ?_ text
  rw [beq_eq_false_iff_ne]
  rintro rfl
  rw [hb] at hc
  cases hc

/-- The rules in front of the one for integers match nothing that starts with a digit. -/
lemma lexerRules_digit (strtod : CStr → BitVec 32) (useNewlineAsFlush : Bool) :
    ∃ before after, lexerRules strtod useNewlineAsFlush = before ++ intRule :: after ∧
      ∀ rule ∈ before, ∀ b text, isDigit b → rule.length (b :: text) = 0 := by
  refine ⟨keywordRules ++ (valueRules strtod).take 2, _, rfl, ?_⟩
  simp only [keywordRules, valueRules, List.take_succ_cons, List.take_zero, List.cons_append,
    List.nil_append, List.forall_mem_cons]
  refine ⟨?_, ?_, ?_, ?_, ?_, ?_, ?_, ?_, ?_, ?_, ?_, ?_, ?_, ?_, ?_, fun _ h => by cases h⟩ <;>
    exact fun b text hb => length_of_digit rfl (by decide) hb text

/-- Digits are one literal. -/
lemma yylex_digits (strtod : CStr → BitVec 32) (useNewlineAsFlush : Bool) {text : CStr}
    (h : isDigits text) : yylex strtod useNewlineAsFlush text = [lexerHandleInt text] := by
  obtain ⟨hne, hdigits⟩ := h
  obtain ⟨b, rest, rfl⟩ := List.exists_cons_of_ne_nil hne
  obtain ⟨hb, hrest⟩ := List.forall_mem_cons.mp hdigits
  obtain ⟨before, after, hrules, hbefore⟩ := lexerRules_digit strtod useNewlineAsFlush
  have hint : intRule.length (b :: rest) = (b :: rest).length := by
    have htake : rest.takeWhile isDigit = rest := List.takeWhile_eq_self_iff.mpr hrest
    have hdrop : rest.dropWhile isDigit = [] := List.dropWhile_eq_nil_iff.mpr hrest
    rw [ScanRule.length, intRule, greedy_one, if_pos hb, greedy_many, htake, hdrop]
    simp [greedy]
  have hafter : ∀ rule ∈ after, rule.length (b :: rest) ≤ intRule.length (b :: rest) := by
    intro rule _
    rw [hint]
    exact rule.length_le _
  rw [yylex, hrules, tokens_of_rule (fun rule hrule => hbefore rule hrule b rest hb) hafter
    (by rw [hint]; exact Nat.succ_ne_zero _), hint, List.take_length, List.drop_length]
  rfl

/-! ## The value -/

lemma strtol_digits {text : CStr} (h : ∀ b ∈ text, isDigit b) :
    strtol text = min (decimalValue text) longMax := by
  have htake : text.takeWhile isDigit = text := List.takeWhile_eq_self_iff.mpr h
  rw [strtol, htake]

/-- The machine pushes the operand. -/
lemma vmRuns_iconst (host : Host) (vm : Vm) {frame : Frame} (hroom : frame.Room 1)
    (value : BitVec 32) :
    VmRuns host vm frame (opcodeIconst :: htobe32 value) (frame.push ⟨.int, value⟩) := by
  have hruns : (vmIsa host).Runs [.iconst value] frame (frame.push ⟨.int, value⟩) :=
    JumpIsa.runs_instr (by rw [exec_iconst, pushWord_room hroom]; rfl)
  have hcode := @vmRuns_of_runs host vm _ (by simp [Instr.isCall]) _ _ hruns
  rw [encodeAll_cons] at hcode
  exact hcode

/-- The compiler emits one instruction. -/
lemma compileExpression_literalInt {fuel : ℕ} {value : BitVec 32} {s s' : CompilerState} {ret : ℤ}
    (h : compileExpression fuel (.literalInt value) s = .ok ret s') :
    Emitted s [opcodeIconst :: htobe32 value] [4] s' := by
  cases fuel with
  | zero => exact (estate_throw_eq_ok.mp h).elim
  | succ fuel => exact (emitCounted_eq_ok h).2

/-- No word of 32 bits is a larger number. -/
lemma LiteralKept.lt {text : CStr} (h : LiteralKept text) : decimalValue text < 2 ^ 31 := by
  obtain ⟨value, -, hcompiled⟩ := h (fun _ => 0) true
  obtain ⟨ret, s', hcompile⟩ : ∃ ret s',
      compileExpression 1 (.literalInt value) (compilerInit true) = .ok ret s' := ⟨_, _, rfl⟩
  obtain ⟨chunk, -, hpushes⟩ := hcompiled _ _ _ _ hcompile
  obtain ⟨w, -, hw⟩ := hpushes zeroHost vmStaticInit (rootFrame zeroHost)
    (by simp [Frame.Room, rootFrame])
  have hlt := BitVec.toInt_lt (x := w)
  omega

/-- A literal keeps its value exactly if that fits in 31 bits. -/
theorem literal_kept_iff {text : CStr} (h : isDigits text) :
    LiteralKept text ↔ decimalValue text < 2 ^ 31 := by
  refine ⟨LiteralKept.lt, ?_⟩
  intro hlt strtod flag
  refine ⟨_, yylex_digits strtod flag h, ?_⟩
  intro fuel s ret s' hcompile
  refine ⟨_, compileExpression_literalInt hcompile, ?_⟩
  intro host vm frame hroom
  refine ⟨_, vmRuns_iconst host vm hroom _, ?_⟩
  have hvalue : (BitVec.ofNat 32 (strtol text)).toNat = decimalValue text := by
    rw [strtol_digits h.2, BitVec.toNat_ofNat, longMax]
    omega
  rw [BitVec.toInt_eq_toNat_of_lt (by omega), hvalue]

/-- The text of the largest literal that is kept. -/
theorem literal_kept_iff_max :
    LiteralKept (ascii ['2', '1', '4', '7', '4', '8', '3', '6', '4', '7']) :=
  (literal_kept_iff ⟨by decide, by decide +kernel⟩).mpr (by decide)

/-- The next number becomes negative. -/
theorem literal_not_kept :
    let text := ascii ['2', '1', '4', '7', '4', '8', '3', '6', '4', '8']
    isDigits text ∧ decimalValue text = 2147483648 ∧
      (∀ strtod useNewlineAsFlush, ∃ value, value.toInt = -2147483648 ∧
        yylex strtod useNewlineAsFlush text = [.integerLiteral value]) ∧ ¬ LiteralKept text := by
  intro text
  have hdigits : isDigits text := ⟨by decide, by decide +kernel⟩
  refine ⟨hdigits, by decide, fun strtod flag => ?_, fun h => absurd h.lt (by decide)⟩
  exact ⟨_, by decide +kernel, yylex_digits strtod flag hdigits⟩

end PhantomShell
