import PhantomShell.Compiler.Compile

/-!
# The code of a program

What the compiler is for, in its own terms: the type, the code and the stack use of an
expression or a statement are functions of its source and of the variables visible to it.
The functions are meant for `RegularExpr` and `RegularScope`. `CodegenTheorems` proves that the
compiler emits this code.
-/

namespace PhantomShell

/-- The visible variables in the order of their declaration. -/
abbrev Vars := List ScopeVar

def lookupVar (vars : Vars) (name : CStr) : Option ScopeVar := vars.find? (·.name == name)

/-- The variables after a declaration in the current scope. -/
def declareVar (vars : Vars) (staticType : StaticType) (name : CStr) : Vars :=
  vars ++ [⟨staticType, name, UInt8.ofNat vars.length⟩]

def StaticType.rep : StaticType → Option Rep
  | .int => some .int
  | .float => some .float
  | _ => Option.none

def Rep.type : Rep → StaticType
  | .int => .int
  | .float => .float

@[simp] lemma Rep.rep_type (r : Rep) : r.type.rep = some r := by cases r <;> rfl

lemma Rep.type_ne_unknwn (r : Rep) : r.type ≠ .unknwn := by cases r <;> decide

lemma StaticType.eq_type {t : StaticType} {r : Rep} (h : t.rep = some r) : t = r.type := by
  cases t <;> cases h <;> rfl

/-- The opcode of a binary operator on operands of one type. -/
def valueOp : Rep → Operator → Option PlainOp
  | .int, .addition => some .iadd
  | .int, .subtraction => some .isub
  | .int, .multiplication => some .imul
  | .int, .division => some .idiv
  | .int, .equalTo => some .ieq
  | .int, .notEqualTo => some .ineq
  | .int, .lessThan => some .ilt
  | .int, .notGreaterThan => some .ingt
  | .int, .greaterThan => some .igt
  | .int, .notLessThan => some .inlt
  | .float, .addition => some .fadd
  | .float, .subtraction => some .fsub
  | .float, .multiplication => some .fmul
  | .float, .division => some .fdiv
  | .float, .equalTo => some .ieq
  | .float, .notEqualTo => some .ineq
  | _, _ => none

/-- The common type of two operands. -/
def joinRep (a b : Rep) : Rep := if a = b then a else .float

/-- The type of a value expression: literals, visible variables, groups, unary minus,
arithmetic and comparisons. `none` for any other expression. -/
def valueRep (vars : Vars) : Expr → Option Rep
  | .literalInt _ => some .int
  | .literalFloat _ => some .float
  | .ident _ name => (lookupVar vars name).bind (·.staticType.rep)
  | .group _ expr => valueRep vars expr
  | .unaryOp _ operator operand =>
    if operator = .unaryMinus then valueRep vars operand else none
  | .binaryOp _ operator left right =>
    match valueRep vars left, valueRep vars right with
    | some a, some b => (valueOp (joinRep a b) operator).map fun _ => joinRep a b
    | _, _ => none
  | _ => none

/-- The parts of a binary operation that is a value. -/
lemma valueRep_binaryOp {vars : Vars} {t : StaticType} {operator : Operator} {left right : Expr}
    {r : Rep} (h : valueRep vars (.binaryOp t operator left right) = some r) :
    ∃ a b op, valueRep vars left = some a ∧ valueRep vars right = some b ∧ r = joinRep a b ∧
      valueOp (joinRep a b) operator = some op := by
  rw [valueRep] at h
  cases ha : valueRep vars left with
  | none => simp [ha] at h
  | some a =>
    cases hb : valueRep vars right with
    | none => simp [ha, hb] at h
    | some b =>
      simp only [ha, hb] at h
      cases hop : valueOp (joinRep a b) operator with
      | none => simp [hop] at h
      | some op =>
        simp only [hop, Option.map_some, Option.some.injEq] at h
        exact ⟨a, b, op, rfl, rfl, h.symm, hop⟩

lemma valueRep_ident {vars : Vars} {t : StaticType} {name : CStr} {r : Rep}
    (h : valueRep vars (.ident t name) = some r) :
    ∃ var, lookupVar vars name = some var ∧ var.staticType = r.type := by
  rw [valueRep] at h
  cases hvar : lookupVar vars name with
  | none => simp [hvar] at h
  | some var =>
    simp only [hvar, Option.bind_some] at h
    exact ⟨var, rfl, StaticType.eq_type h⟩

/-- A unary minus is the only unary operator of a value. -/
lemma valueRep_unaryOp {vars : Vars} {t : StaticType} {operator : Operator} {operand : Expr}
    {r : Rep} (h : valueRep vars (.unaryOp t operator operand) = some r) :
    operator = .unaryMinus ∧ valueRep vars operand = some r := by
  rw [valueRep] at h
  split at h
  · exact ⟨by assumption, h⟩
  · cases h

/-- The conversion of an operand to the common type. -/
def castCode (source target : Rep) : List Instr := if source = target then [] else [.plain .i2f]

/-- The code of a value expression. -/
def valueCode (vars : Vars) : Expr → List Instr
  | .literalInt value => [.iconst value]
  | .literalFloat value => [.fconst value]
  | .ident _ name =>
    match lookupVar vars name with
    | some var => [.load (var.staticType.rep.getD .int) var.index]
    | none => []
  | .group _ expr => valueCode vars expr
  | .unaryOp _ _ operand => valueCode vars operand ++ [.plain .ineg]
  | .binaryOp _ operator left right =>
    let a := (valueRep vars left).getD .int
    let b := (valueRep vars right).getD .int
    valueCode vars left ++ castCode a (joinRep a b) ++
      (valueCode vars right ++ castCode b (joinRep a b)) ++
      [.plain ((valueOp (joinRep a b) operator).getD .iadd)]
  | _ => []

/-- The type of an operand or a right side: a value, or an assignment to a visible variable,
which has the type of the variable although its code leaves no word. -/
def operandRep (vars : Vars) : Expr → Option Rep
  | .literalInt _ => some .int
  | .literalFloat _ => some .float
  | .ident _ name => (lookupVar vars name).bind (·.staticType.rep)
  | .group _ expr => operandRep vars expr
  | .unaryOp _ operator operand =>
    if operator = .unaryMinus then operandRep vars operand else none
  | .binaryOp _ operator left right =>
    match operandRep vars left, operandRep vars right with
    | some a, some b =>
      if operator = .assignment then
        match left with
        | .ident _ _ => if joinRep a b = a then some a else none
        | _ => none
      else (valueOp (joinRep a b) operator).map fun _ => joinRep a b
    | _, _ => none
  | _ => none

/-- The parts of a binary operation that is an operand. -/
lemma operandRep_binaryOp {vars : Vars} {t : StaticType} {operator : Operator}
    {left right : Expr} {r : Rep} (h : operandRep vars (.binaryOp t operator left right) = some r) :
    ∃ a b, operandRep vars left = some a ∧ operandRep vars right = some b ∧
      ((operator = .assignment ∧ r = a ∧ joinRep a b = a ∧ ∃ t' name, left = .ident t' name) ∨
        (operator ≠ .assignment ∧ r = joinRep a b ∧
          ∃ op, valueOp (joinRep a b) operator = some op)) := by
  rw [operandRep] at h
  cases ha : operandRep vars left with
  | none => simp [ha] at h
  | some a =>
    cases hb : operandRep vars right with
    | none => simp [ha, hb] at h
    | some b =>
      simp only [ha, hb] at h
      refine ⟨a, b, rfl, rfl, ?_⟩
      split at h
      · split at h
        · split at h
          · exact .inl ⟨by assumption, (Option.some.inj h).symm, by assumption, _, _, rfl⟩
          · cases h
        · cases h
      · cases hop : valueOp (joinRep a b) operator with
        | none => simp [hop] at h
        | some op =>
          simp only [hop, Option.map_some, Option.some.injEq] at h
          exact .inr ⟨by assumption, h.symm, op, rfl⟩

lemma operandRep_ident {vars : Vars} {t : StaticType} {name : CStr} {r : Rep}
    (h : operandRep vars (.ident t name) = some r) :
    ∃ var, lookupVar vars name = some var ∧ var.staticType = r.type := by
  rw [operandRep] at h
  cases hvar : lookupVar vars name with
  | none => simp [hvar] at h
  | some var =>
    simp only [hvar, Option.bind_some] at h
    exact ⟨var, rfl, StaticType.eq_type h⟩

lemma operandRep_unaryOp {vars : Vars} {t : StaticType} {operator : Operator} {operand : Expr}
    {r : Rep} (h : operandRep vars (.unaryOp t operator operand) = some r) :
    operator = .unaryMinus ∧ operandRep vars operand = some r := by
  rw [operandRep] at h
  split at h
  · exact ⟨by assumption, h⟩
  · cases h

/-- The slot of the variable that an identifier names. -/
def slotOf (vars : Vars) : Expr → UInt8
  | .ident _ name => ((lookupVar vars name).map (·.index)).getD 0
  | _ => 0

/-- The code of an operand or a right side. -/
def operandCode (vars : Vars) : Expr → List Instr
  | .literalInt value => [.iconst value]
  | .literalFloat value => [.fconst value]
  | .ident _ name =>
    match lookupVar vars name with
    | some var => [.load (var.staticType.rep.getD .int) var.index]
    | none => []
  | .group _ expr => operandCode vars expr
  | .unaryOp _ _ operand => operandCode vars operand ++ [.plain .ineg]
  | .binaryOp _ operator left right =>
    let a := (operandRep vars left).getD .int
    let b := (operandRep vars right).getD .int
    if operator = .assignment then
      operandCode vars right ++ castCode b a ++ [.save a (slotOf vars left)]
    else
      operandCode vars left ++ castCode a (joinRep a b) ++
        (operandCode vars right ++ castCode b (joinRep a b)) ++
        [.plain ((valueOp (joinRep a b) operator).getD .iadd)]
  | _ => []

/-- A value is an operand, with the same code. -/
lemma operandRep_of_valueRep {vars : Vars} {e : Expr} {r : Rep} (h : valueRep vars e = some r) :
    operandRep vars e = some r ∧ operandCode vars e = valueCode vars e := by
  induction e generalizing r with
  | literalInt value => exact ⟨h, rfl⟩
  | literalFloat value => exact ⟨h, rfl⟩
  | ident t name => exact ⟨h, rfl⟩
  | group t expr ih => exact ih h
  | unaryOp t operator operand ih =>
    obtain ⟨rfl, h⟩ := valueRep_unaryOp h
    obtain ⟨hrep, hcode⟩ := ih h
    exact ⟨by rw [operandRep, if_pos rfl, hrep], by rw [operandCode, valueCode, hcode]⟩
  | binaryOp t operator left right ihl ihr =>
    obtain ⟨a, b, op, ha, hb, rfl, hop⟩ := valueRep_binaryOp h
    obtain ⟨hal, hcl⟩ := ihl ha
    obtain ⟨har, hcr⟩ := ihr hb
    have hne : operator ≠ .assignment := by
      rintro rfl
      cases hr : joinRep a b <;> rw [hr] at hop <;> cases hop
    constructor
    · simp only [operandRep, hal, har, if_neg hne, hop, Option.map_some]
    · simp only [operandCode, valueCode, hal, har, hcl, hcr, ha, hb, if_neg hne]
  | specialCast t opcode operand => cases h
  | other t => cases h

/-- The code of an assignment to a visible or a new variable. -/
def assignCode (vars : Vars) (name : CStr) (right : Expr) : List Instr :=
  let r := (operandRep vars right).getD .int
  match lookupVar vars name with
  | some var =>
    let v := var.staticType.rep.getD .int
    operandCode vars right ++ castCode r v ++ [.save v var.index]
  | none => operandCode vars right ++ [.save r (UInt8.ofNat vars.length)]

/-- The variables after an assignment. -/
def assignVars (vars : Vars) (name : CStr) (right : Expr) : Vars :=
  match lookupVar vars name with
  | some _ => vars
  | none => declareVar vars ((operandRep vars right).getD .int).type name

/-- The variables after an expression, or after the arguments of a call. -/
def exprVars (vars : Vars) : Expr → Vars
  | .group _ expr => exprVars vars expr
  | .unaryOp _ _ operand => exprVars vars operand
  | .binaryOp _ .assignment (.ident _ name) right => assignVars vars name right
  | .binaryOp _ .functionCall (.ident _ _) (.group _ args) => exprVars vars args
  | .binaryOp _ .comma left right => exprVars (exprVars vars left) right
  | _ => vars

/-- Whether the compiler reports success: it only misses an undeclared variable. -/
def exprFound (vars : Vars) : Expr → Bool
  | .ident _ name => (lookupVar vars name).isSome
  | .group _ expr => exprFound vars expr
  | .unaryOp _ _ operand => exprFound vars operand
  | _ => true

/-- The code of an expression statement, of a condition, or of the arguments of a call, which
are a tree of commas; `callIndex` gives the operands of calls. -/
def exprCode (callIndex : CStr → UInt16) (vars : Vars) : Expr → List Instr
  | .group _ expr => exprCode callIndex vars expr
  | .unaryOp _ _ operand =>
    exprCode callIndex vars operand ++ if exprFound vars operand then [.plain .ineg] else []
  | .binaryOp _ .assignment (.ident _ name) right => assignCode vars name right
  | .binaryOp _ .functionCall (.ident _ name) (.group _ args) =>
    exprCode callIndex vars args ++ [.call (callIndex name)]
  | .binaryOp _ .comma left right =>
    exprCode callIndex vars left ++ exprCode callIndex (exprVars vars left) right
  | expr => operandCode vars expr

/-- The jumps around the blocks of an `if`. -/
def ifCode (trueCode falseCode : List Instr) : List Instr :=
  let jmp := Instr.jmp (UInt16.ofNat (codeSize falseCode))
  .jez (UInt16.ofNat (codeSize (trueCode ++ [jmp]))) :: (trueCode ++ jmp :: falseCode)

/-- The jumps around the condition and the body of a `while`. -/
def whileCode (exprCode bodyCode : List Instr) : List Instr :=
  exprCode ++ .jez (UInt16.ofNat (codeSize bodyCode + 3)) :: bodyCode ++
    [.rjmp (UInt16.ofNat (codeSize exprCode + codeSize bodyCode + 6))]

/-- The chunks that `compile_scope` emits, one for each instruction outside of blocks. -/
def scopeCode (callIndex : CStr → UInt16) (vars : Vars) : Stat → List (List Instr)
  | .expr expr next =>
    (exprCode callIndex vars expr).map ([·]) ++
      scopeCode callIndex (exprVars vars expr) next
  | .ifElse expr trueScope falseScope next =>
    let vars' := exprVars vars expr
    (exprCode callIndex vars expr).map ([·]) ++
      ifCode (scopeCode callIndex vars' trueScope).flatten
        (scopeCode callIndex vars' falseScope).flatten :: scopeCode callIndex vars' next
  | .while expr loopScope next =>
    whileCode (exprCode callIndex vars expr) (scopeCode callIndex vars loopScope).flatten ::
      scopeCode callIndex vars next
  | _ => []

/-- The variables at the end of a scope. -/
def scopeVars (vars : Vars) : Stat → Vars
  | .expr expr next => scopeVars (exprVars vars expr) next
  | .ifElse expr _ _ next => scopeVars (exprVars vars expr) next
  | .while _ _ next => scopeVars vars next
  | _ => vars

/-- The number of variables that the statements have visible at a time. -/
def scopeSlots (vars : Vars) : Stat → ℕ
  | .expr expr next => scopeSlots (exprVars vars expr) next
  | .ifElse expr trueScope falseScope next =>
    let vars' := exprVars vars expr
    max (scopeSlots vars' trueScope) (max (scopeSlots vars' falseScope) (scopeSlots vars' next))
  | .while expr loopScope next =>
    max (exprVars vars expr).length (max (scopeSlots vars loopScope) (scopeSlots vars next))
  | _ => vars.length

/-- Each variable has the slot of its place. -/
def Slotted (vars : Vars) : Prop :=
  ∀ (i : ℕ) (var : ScopeVar), vars[i]? = some var → var.index.toNat = i

/-! ## Variables that are words -/

/-- All variables are of type `int` or `float`. -/
def WordVars (vars : Vars) : Prop := ∀ var ∈ vars, var.staticType.rep.isSome

lemma WordVars.declare {vars : Vars} (h : WordVars vars) {t : StaticType} (ht : t.rep.isSome)
    (name : CStr) : WordVars (declareVar vars t name) := by
  intro var hvar
  rcases List.mem_append.mp hvar with hvar | hvar
  · exact h var hvar
  · rw [List.mem_singleton.mp hvar]
    exact ht

/-- The variables of an expression are words, since an operand is one. -/
lemma WordVars.expr {vars : Vars} (h : WordVars vars) (e : Expr) : WordVars (exprVars vars e) := by
  fun_induction exprVars vars e with
  | case1 vars t e ih => exact ih h
  | case2 vars t operator e ih => exact ih h
  | case3 vars t t' name right =>
    rw [assignVars]
    split
    · exact h
    · exact h.declare (by simp) name
  | case4 vars t t' name t'' args ih => exact ih h
  | case5 vars t left right ihl ihr => exact ihr (ihl h)
  | case6 => exact h

lemma WordVars.scope {vars : Vars} (h : WordVars vars) (stat : Stat) :
    WordVars (scopeVars vars stat) := by
  induction stat generalizing vars with
  | expr e next ih => exact ih (h.expr e)
  | ifElse e trueScope falseScope next iht ihf ih => exact ih (h.expr e)
  | «while» e loopScope next ihl ih => exact ih h
  | _ => exact h

/-! ## What is described -/

/-- No type is cached and no cast is inserted yet: the tree is as the parser built it. -/
def Expr.Untraced : Expr → Prop
  | .literalInt _ => True
  | .literalFloat _ => True
  | .ident staticType _ => staticType = .unknwn
  | .group staticType expr => staticType = .unknwn ∧ expr.Untraced
  | .unaryOp staticType _ operand => staticType = .unknwn ∧ operand.Untraced
  | .binaryOp staticType _ left right =>
    staticType = .unknwn ∧ left.Untraced ∧ right.Untraced
  | .specialCast _ _ _ => False
  | .other _ => True

/-- All expressions of the statements are as the parser built them. -/
def Stat.Untraced : Stat → Prop
  | .nil => True
  | .expr e next => e.Untraced ∧ next.Untraced
  | .ifElse e trueScope falseScope next =>
    e.Untraced ∧ trueScope.Untraced ∧ falseScope.Untraced ∧ next.Untraced
  | .while e loopScope next => e.Untraced ∧ loopScope.Untraced ∧ next.Untraced
  | .other next => next.Untraced
  | .notScope stat => stat.Untraced

/-- A value expression: its code leaves one word. -/
def ValueExpr (vars : Vars) (expr : Expr) : Prop := (valueRep vars expr).isSome

/-- The code of the expression is `exprCode`: the variables in it are `int` or `float`, and the
operands and the right sides have types that the compiler accepts. -/
def RegularExpr (vars : Vars) : Expr → Prop
  | .ident _ name => ∀ var, lookupVar vars name = some var → var.staticType.rep.isSome
  | .group _ expr => RegularExpr vars expr
  | .unaryOp _ operator operand => operator = .unaryMinus ∧ RegularExpr vars operand
  | .binaryOp _ .assignment (.ident _ _) right => (operandRep vars right).isSome
  | .binaryOp _ .functionCall (.ident _ _) (.group _ args) => RegularExpr vars args
  | .binaryOp _ .comma left right =>
    RegularExpr vars left ∧ RegularExpr (exprVars vars left) right
  | expr => (operandRep vars expr).isSome

/-- Regular expressions, by the form of their code. An operand that is a tree of another form
comes under that form. -/
theorem RegularExpr.forms {P : Vars → Expr → Prop}
    (missing : ∀ {vars t name}, lookupVar vars name = none → P vars (.ident t name))
    (operand : ∀ {vars e r}, operandRep vars e = some r →
      (∀ callIndex, exprCode callIndex vars e = operandCode vars e) → exprVars vars e = vars →
      exprFound vars e = true → P vars e)
    (group : ∀ {vars t e}, RegularExpr vars e → P vars e → P vars (.group t e))
    (minus : ∀ {vars t e}, RegularExpr vars e → P vars e → P vars (.unaryOp t .unaryMinus e))
    (assign : ∀ {vars t t' name right r}, operandRep vars right = some r →
      P vars (.binaryOp t .assignment (.ident t' name) right))
    (call : ∀ {vars t t' t'' name args}, RegularExpr vars args → P vars args →
      P vars (.binaryOp t .functionCall (.ident t' name) (.group t'' args)))
    (comma : ∀ {vars t left right}, RegularExpr vars left →
      RegularExpr (exprVars vars left) right → P vars left → P (exprVars vars left) right →
      P vars (.binaryOp t .comma left right))
    {vars : Vars} {e : Expr} (h : RegularExpr vars e) : P vars e := by
  revert h
  fun_induction RegularExpr vars e with
  | case1 vars t name =>
    intro h
    cases hvar : lookupVar vars name with
    | none => exact missing hvar
    | some var =>
      obtain ⟨r, hr⟩ := Option.isSome_iff_exists.mp (h var hvar)
      refine operand (r := r) ?_ (fun _ => rfl) rfl ?_
      · simp [operandRep, hvar, hr]
      · simp [exprFound, hvar]
  | case2 vars t e ih => exact fun h => group h (ih h)
  | case3 vars t operator e ih =>
    rintro ⟨rfl, h⟩
    exact minus h (ih h)
  | case4 vars t t' name right =>
    intro h
    obtain ⟨r, hr⟩ := Option.isSome_iff_exists.mp h
    exact assign hr
  | case5 vars t t' name t'' args ih => exact fun h => call h (ih h)
  | case6 vars t left right ihl ihr => exact fun h => comma h.1 h.2 (ihl h.1) (ihr h.2)
  -- what is left are operands: their code, variables and lookups have no case of their own
  | case7 vars e hident hgroup hunary hassign hcall hcomma =>
    intro h
    obtain ⟨r, hr⟩ := Option.isSome_iff_exists.mp h
    refine operand hr (fun _ => ?_) ?_ ?_
    · unfold exprCode
      split
      · exact (hgroup _ _ rfl).elim
      · exact (hunary _ _ _ rfl).elim
      · exact (hassign _ _ _ _ rfl).elim
      · exact (hcall _ _ _ _ _ rfl).elim
      · exact (hcomma _ _ _ rfl).elim
      · rfl
    · unfold exprVars
      split
      · exact (hgroup _ _ rfl).elim
      · exact (hunary _ _ _ rfl).elim
      · exact (hassign _ _ _ _ rfl).elim
      · exact (hcall _ _ _ _ _ rfl).elim
      · exact (hcomma _ _ _ rfl).elim
      · rfl
    · unfold exprFound
      split
      · exact (hident _ _ rfl).elim
      · exact (hgroup _ _ rfl).elim
      · exact (hunary _ _ _ rfl).elim
      · rfl

/-- The code of the statements is `scopeCode`: their expressions are regular, and the sizes of
their blocks survive the encoding. A true block with its jump and a loop with its jumps have at
most 255 bytes, a false block at most 65535. -/
def RegularScope (callIndex : CStr → UInt16) (vars : Vars) : Stat → Prop
  | .expr expr next => RegularExpr vars expr ∧ RegularScope callIndex (exprVars vars expr) next
  | .ifElse expr trueScope falseScope next =>
    let vars' := exprVars vars expr
    RegularExpr vars expr ∧ RegularScope callIndex vars' trueScope ∧
      RegularScope callIndex vars' falseScope ∧
      codeSize (scopeCode callIndex vars' trueScope).flatten + 3 ≤ 255 ∧
      codeSize (scopeCode callIndex vars' falseScope).flatten ≤ 65535 ∧
      RegularScope callIndex vars' next
  | .while expr loopScope next =>
    RegularExpr vars expr ∧ RegularScope callIndex vars loopScope ∧
      codeSize (exprCode callIndex vars expr) +
        codeSize (scopeCode callIndex vars loopScope).flatten + 6 ≤ 255 ∧
      RegularScope callIndex vars next
  | _ => True

/-- The conditions read declared variables only. -/
def ValueConds (vars : Vars) : Stat → Prop
  | .expr expr next => ValueConds (exprVars vars expr) next
  | .ifElse expr trueScope falseScope next =>
    ValueExpr vars expr ∧ ValueConds vars trueScope ∧ ValueConds vars falseScope ∧
      ValueConds vars next
  | .while expr loopScope next =>
    ValueExpr vars expr ∧ ValueConds vars loopScope ∧ ValueConds vars next
  | _ => True

end PhantomShell
