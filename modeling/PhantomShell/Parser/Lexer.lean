import Mathlib.Data.BitVec
import PhantomShell.Hashmap
import PhantomShell.Lib.Scanner

/-!
# The lexer

`lexer.l`, and the functions of `lexer.c` that give the tokens their values. What the keywords do to
`lexer_state` is not looked at here.
-/

namespace PhantomShell

/-- The tokens of `parser.y`; `char` is a token that is its own character. -/
inductive Token
  | parenOpen
  | parenClose
  | braceOpen
  | braceClose
  | equalTo
  | notEqualTo
  | notLessThan
  | lessThan
  | greaterThan
  | notGreaterThan
  | keywordDef
  | keywordReturn
  | keywordIf
  | keywordElif
  | keywordElse
  | keywordFor
  | keywordWhile
  | keywordDo
  | keywordSwitch
  | keywordCase
  | keywordOther
  | keywordClass
  | keywordFunc
  | identifier (stringValue : CStr)
  | booleanLiteral (boolValue : Bool)
  | integerLiteral (intValue : BitVec 32)
  | floatLiteral (floatValue : BitVec 32)
  | charLiteral (charValue : UInt8)
  | stringLiteral (stringValue : CStr)
  | char (c : UInt8)
deriving DecidableEq

/-- The token that ends a line. -/
def Token.newline : Token := .char 10

def Token.semicolon : Token := .char 59

/-- ASCII. -/
def ascii (text : List Char) : CStr := text.map fun c => UInt8.ofNat c.toNat

/-! ## Values -/

/-- `[0-9]` -/
def isDigit (b : UInt8) : Bool := 48 ≤ b && b ≤ 57

/-- The number that a text of digits is written for. -/
def decimalValue (digits : CStr) : ℕ := digits.foldl (fun n b => 10 * n + (b.toNat - 48)) 0

/-- `LONG_MAX` for a `long` of 64 bits. -/
def longMax : ℕ := 2 ^ 63 - 1

/-- `strtol` to the base 10 of a text without a sign: the digits at its start, and `LONG_MAX` for a
number that is out of range. -/
def strtol (text : CStr) : ℕ := min (decimalValue (text.takeWhile isDigit)) longMax

/-- `lexer_handle_int`: the cast keeps the low 32 bits. -/
def lexerHandleInt (text : CStr) : Token := .integerLiteral (BitVec.ofNat 32 (strtol text))

/-- `lexer_handle_bool` -/
def lexerHandleBool (text : CStr) : Token := .booleanLiteral (text == ascii ['t', 'r', 'u', 'e'])

/-- `lexer_handle_float` -/
def lexerHandleFloat (strtod : CStr → BitVec 32) (text : CStr) : Token :=
  .floatLiteral (strtod text)

/-- `lexer_handle_char`: the second character. -/
def lexerHandleChar (text : CStr) : Token := .charLiteral (text.getD 1 0)

/-- `lexer_handle_string`: the text between the quotes. -/
def lexerHandleString (text : CStr) : Token := .stringLiteral ((text.drop 1).take (text.length - 2))

/-- `lexer_handle_identifier` -/
def lexerHandleIdentifier (text : CStr) : Token := .identifier text

/-! ## Rules -/

/-- `[_a-zA-Z]` -/
def isLetter (b : UInt8) : Bool := b == 95 || (97 ≤ b && b ≤ 122) || (65 ≤ b && b ≤ 90)

/-- `[a-zA-Z0-9]` -/
def isAlphanumeric (b : UInt8) : Bool := (isLetter b && b != 95) || isDigit b

/-- A character of the pattern itself. -/
def theByte (c : UInt8) : Piece UInt8 := .one (· == c)

/-- A pattern in quotes. -/
def verbatim (text : CStr) (token : Token) : ScanRule UInt8 Token :=
  ⟨text.map theByte, fun _ => some token⟩

/-- The keywords. -/
def keywordRules : List (ScanRule UInt8 Token) :=
  [verbatim (ascii ['d', 'e', 'f']) .keywordDef,
   verbatim (ascii ['r', 'e', 't', 'u', 'r', 'n']) .keywordReturn,
   verbatim (ascii ['i', 'f']) .keywordIf,
   verbatim (ascii ['e', 'l', 'i', 'f']) .keywordElif,
   verbatim (ascii ['e', 'l', 's', 'e']) .keywordElse,
   verbatim (ascii ['f', 'o', 'r']) .keywordFor,
   verbatim (ascii ['w', 'h', 'i', 'l', 'e']) .keywordWhile,
   verbatim (ascii ['d', 'o']) .keywordDo,
   verbatim (ascii ['s', 'w', 'i', 't', 'c', 'h']) .keywordSwitch,
   verbatim (ascii ['c', 'a', 's', 'e']) .keywordCase,
   verbatim (ascii ['o', 't', 'h', 'e', 'r']) .keywordOther,
   verbatim (ascii ['c', 'l', 'a', 's', 's']) .keywordClass,
   verbatim (ascii ['f', 'u', 'n', 'c']) .keywordFunc]

/-- `[0-9]+` -/
def intRule : ScanRule UInt8 Token :=
  ⟨[.one isDigit, .many isDigit], fun text => some (lexerHandleInt text)⟩

/-- `["][^"]*["]` -/
def stringRule : ScanRule UInt8 Token :=
  ⟨[theByte 34, .many (· != 34), theByte 34], fun text => some (lexerHandleString text)⟩

/-- Literals and identifiers. `true|false` is a rule for each of the two. -/
def valueRules (strtod : CStr → BitVec 32) : List (ScanRule UInt8 Token) :=
  [⟨(ascii ['t', 'r', 'u', 'e']).map theByte, fun text => some (lexerHandleBool text)⟩,
   ⟨(ascii ['f', 'a', 'l', 's', 'e']).map theByte, fun text => some (lexerHandleBool text)⟩,
   intRule,
   ⟨[.one isDigit, .many isDigit, theByte 46, .one isDigit, .many isDigit],
    fun text => some (lexerHandleFloat strtod text)⟩,
   ⟨[theByte 39, .one isAlphanumeric, theByte 39], fun text => some (lexerHandleChar text)⟩,
   stringRule,
   ⟨[.one isLetter, .many fun b => isLetter b || isDigit b],
    fun text => some (lexerHandleIdentifier text)⟩]

/-- Comparisons and brackets. -/
def operatorRules : List (ScanRule UInt8 Token) :=
  [verbatim (ascii ['=', '=']) .equalTo,
   verbatim (ascii ['!', '=']) .notEqualTo,
   verbatim (ascii ['>', '=']) .notLessThan,
   verbatim (ascii ['<']) .lessThan,
   verbatim (ascii ['>']) .greaterThan,
   verbatim (ascii ['<', '=']) .notGreaterThan,
   verbatim (ascii ['(']) .parenOpen,
   verbatim (ascii [')']) .parenClose,
   verbatim [123] .braceOpen,
   verbatim [125] .braceClose]

/-- `"//".*[\n]`, which gives no token. -/
def commentRule : ScanRule UInt8 Token :=
  ⟨[theByte 47, theByte 47, .many (· != 10), theByte 10], fun _ => none⟩

/-- `\n`; without `use_newline_as_flush` the token is the next one. -/
def newlineRule (useNewlineAsFlush : Bool) : ScanRule UInt8 Token :=
  ⟨[theByte 10], fun _ => if useNewlineAsFlush then some .newline else none⟩

/-- `[ \t]+`, which gives no token. -/
def blankRule : ScanRule UInt8 Token :=
  ⟨[.one fun b => b == 32 || b == 9, .many fun b => b == 32 || b == 9], fun _ => none⟩

/-- Any other character. -/
def charRule : ScanRule UInt8 Token := ⟨[.one (· != 10)], fun text => text.head?.map .char⟩

/-- The rules of `lexer.l` in their order. -/
def lexerRules (strtod : CStr → BitVec 32) (useNewlineAsFlush : Bool) :
    List (ScanRule UInt8 Token) :=
  keywordRules ++ valueRules strtod ++ operatorRules ++
    [commentRule, newlineRule useNewlineAsFlush, blankRule, charRule]

/-- The tokens that `yylex` returns for a text. -/
def yylex (strtod : CStr → BitVec 32) (useNewlineAsFlush : Bool) (text : CStr) : List Token :=
  tokens (lexerRules strtod useNewlineAsFlush) text

/-! ### Longest matches -/

lemma deterministic_verbatim (text : CStr) : Deterministic (text.map theByte) := by
  induction text with
  | nil => trivial
  | cons b text ih => exact ih

/-- The class of digits has no point. -/
lemma digit_ne_point {b : UInt8} (hb : isDigit b) : (b == 46) = false := by
  rw [beq_eq_false_iff_ne]
  rintro rfl
  cases hb

/-- No repeated class of a rule has the character behind it. -/
lemma deterministic_lexerRules {strtod : CStr → BitVec 32} {useNewlineAsFlush : Bool} :
    ∀ rule ∈ lexerRules strtod useNewlineAsFlush, Deterministic rule.pattern := by
  have hlast : ∀ p : UInt8 → Bool, Deterministic [.many p] := fun p => ⟨fun _ _ => rfl, trivial⟩
  have hkeyword : ∀ rule ∈ keywordRules, Deterministic rule.pattern := by
    simp only [keywordRules, List.forall_mem_cons]
    refine ⟨?_, ?_, ?_, ?_, ?_, ?_, ?_, ?_, ?_, ?_, ?_, ?_, ?_, nofun⟩ <;>
      exact deterministic_verbatim _
  have hoperator : ∀ rule ∈ operatorRules, Deterministic rule.pattern := by
    simp only [operatorRules, List.forall_mem_cons]
    refine ⟨?_, ?_, ?_, ?_, ?_, ?_, ?_, ?_, ?_, ?_, nofun⟩ <;> exact deterministic_verbatim _
  have hupTo : ∀ z : UInt8, Deterministic [.many (· != z), theByte z] := by
    intro z
    refine ⟨fun b hb => ?_, trivial⟩
    change (b == z) = false
    simpa using hb
  have hvalue : ∀ rule ∈ valueRules strtod, Deterministic rule.pattern := by
    simp only [valueRules, List.forall_mem_cons]
    refine ⟨deterministic_verbatim _, deterministic_verbatim _, hlast _, ?_, trivial, hupTo 34,
      hlast _, nofun⟩
    exact ⟨fun b hb => digit_ne_point hb, hlast _⟩
  intro rule hrule
  simp only [lexerRules, List.mem_append, List.mem_cons, List.not_mem_nil, or_false] at hrule
  rcases hrule with ((hrule | hrule) | hrule) | rfl | rfl | rfl | rfl
  · exact hkeyword rule hrule
  · exact hvalue rule hrule
  · exact hoperator rule hrule
  · exact hupTo 10
  · trivial
  · exact hlast _
  · trivial

end PhantomShell
