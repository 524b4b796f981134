import PhantomShell.Compiler.FuelTheorems
import PhantomShell.Compiler.ValueTheorems

/-!
# The types of words

A word is written as an `int` or as a `float`, and the opcodes do not look. The types that the
tracer assigns are those of the words where no comparison and no minus is applied to a `float`,
where operands are values, and where calls pass words of the types of the parameters.
-/

namespace PhantomShell

variable {host : Host}

/-! ## Types of instructions -/

/-- The words that an operation takes, the last one first. -/
def PlainOp.operands : PlainOp → List Rep
  | .ineg => [.int]
  | .i2f => [.int]
  | .fneg => [.float]
  | .fadd => [.float, .float]
  | .fsub => [.float, .float]
  | .fmul => [.float, .float]
  | .fdiv => [.float, .float]
  | _ => [.int, .int]

/-- The word that an operation leaves. -/
def PlainOp.result : PlainOp → Rep
  | .i2f => .float
  | .fadd => .float
  | .fsub => .float
  | .fmul => .float
  | .fdiv => .float
  | .fneg => .float
  | _ => .int

/-- The opcode is applied to words of its type, and a slot that it loads holds one. -/
def Instr.typed (i : Instr) (frame : Frame) : Bool :=
  match i with
  | .plain op => (frame.stack.take op.operands.length).map (·.rep) == op.operands
  | .save rep _ => frame.stack.head?.map (·.rep) == some rep
  | .load rep slot => frame.locals[slot.toNat]?.all (·.rep == rep)
  | _ => true

/-- An operation on words of one type. -/
lemma operands_valueOp {r : Rep} {operator : Operator} {op : PlainOp}
    (h : valueOp r operator = some op)
    (hequal : r = .float → operator ≠ .equalTo ∧ operator ≠ .notEqualTo) :
    op.operands = [r, r] ∧ op.result = r := by
  cases r with
  | int => cases operator <;> cases h <;> exact ⟨rfl, rfl⟩
  | float =>
    obtain ⟨heq, hne⟩ := hequal rfl
    cases operator <;> cases h <;>
      first | exact ⟨rfl, rfl⟩ | exact (heq rfl).elim | exact (hne rfl).elim

lemma applyOp_rep {op : PlainOp} {a b w : Word} (h : applyOp host op a b = .ok w) :
    w.rep = op.result := by
  unfold applyOp at h
  split at h
  all_goals first
    | cases h
      rfl
    | cases h
    | skip
  split at h
  · cases h
  · cases h
    rfl

/-! ## Frames -/

/-- Each slot holds a word of the type of its variable. -/
def TypedLocals (vars : Vars) (locals : List Word) : Prop :=
  ∀ (i : ℕ) (var : ScopeVar) (r : Rep) (w : Word), vars[i]? = some var →
    var.staticType.rep = some r → locals[i]? = some w → w.rep = r

/-- The words at the top are of the types `reps`, and those in the slots of their variables'. -/
structure TypedFrame (vars : Vars) (reps : List Rep) (frame : Frame) : Prop where
  words : reps <+: frame.stack.map (·.rep)
  slotted : Slotted vars
  locals : TypedLocals vars frame.locals

/-- Code that only executes typed instructions, whatever else stops it. -/
abbrev TypedLine (host : Host) (P : Frame → Prop) (code : List Instr) (Q : Frame → Prop) : Prop :=
  (guardedIsa host Instr.typed).Line (Tolerated fun _ => True) P code Q

section

variable {vars vars' : Vars} {reps : List Rep} {frame : Frame} {r : Rep}

/-- What the words at the top are is forgotten. -/
lemma TypedFrame.leave (h : TypedFrame vars reps frame) : TypedFrame vars [] frame :=
  ⟨List.nil_prefix, h.slotted, h.locals⟩

lemma getElem_leading (hvars : vars <+: vars') {i : ℕ} {var : ScopeVar}
    (h : vars[i]? = some var) : vars'[i]? = some var := by
  obtain ⟨more, rfl⟩ := hvars
  rw [List.getElem?_append_left (List.getElem?_eq_some_iff.mp h).1]
  exact h

/-- Variables at the end are forgotten. -/
lemma TypedFrame.forget (hvars : vars <+: vars') (h : TypedFrame vars' reps frame) :
    TypedFrame vars reps frame :=
  ⟨h.words, fun i var hvar => h.slotted i var (getElem_leading hvars hvar),
    fun i var r w hvar => h.locals i var r w (getElem_leading hvars hvar)⟩

/-- The word at the top. -/
lemma TypedFrame.pop (h : TypedFrame vars (r :: reps) frame) : ∃ w rest,
    frame.stack = w :: rest ∧ w.rep = r ∧ TypedFrame vars reps { frame with stack := rest } := by
  cases hstack : frame.stack with
  | nil =>
    have hwords := h.words
    rw [hstack] at hwords
    exact absurd (List.prefix_nil.mp hwords) (by simp)
  | cons w rest =>
    have hwords := h.words
    rw [hstack, List.map_cons, List.cons_prefix_cons] at hwords
    exact ⟨w, rest, rfl, hwords.1.symm, hwords.2, h.slotted, h.locals⟩

lemma TypedFrame.push (h : TypedFrame vars reps frame) {w : Word} (hw : w.rep = r) :
    TypedFrame vars (r :: reps) { frame with stack := w :: frame.stack } := by
  refine ⟨?_, h.slotted, h.locals⟩
  rw [List.map_cons, hw]
  exact List.cons_prefix_cons.mpr ⟨rfl, h.words⟩

/-- A word is pushed where there is room. -/
lemma TypedFrame.pushWord (h : TypedFrame vars reps frame) {w : Word} (hw : w.rep = r)
    (shift : ℤ) : JumpIsa.Effect (fun _ => True)
      (fun t d => d = shift ∧ TypedFrame vars (r :: reps) t)
      (PhantomShell.pushWord frame w shift) := by
  unfold PhantomShell.pushWord
  split
  · exact ⟨rfl, h.push hw⟩
  · trivial

/-! ## Single instructions -/

lemma line_iconst (value : BitVec 32) :
    TypedLine host (TypedFrame vars reps) [.iconst value] (TypedFrame vars (.int :: reps)) := by
  refine JumpIsa.line_instr fun frame h => effect_guarded rfl ?_
  have hexec := vmExecuteOpcodeIconst_encoded frame value []
  rw [List.append_nil] at hexec
  change JumpIsa.Effect _ _ (vmExecuteOpcodeIconst frame (htobe32 value))
  rw [hexec]
  exact h.pushWord rfl 5

lemma line_fconst (value : BitVec 32) :
    TypedLine host (TypedFrame vars reps) [.fconst value] (TypedFrame vars (.float :: reps)) := by
  refine JumpIsa.line_instr fun frame h => effect_guarded rfl ?_
  have hexec := vmExecuteOpcodeFconst_encoded frame value []
  rw [List.append_nil] at hexec
  change JumpIsa.Effect _ _ (vmExecuteOpcodeFconst frame (bytesLE32 value))
  rw [hexec]
  exact h.pushWord rfl 5

/-- A variable is loaded from its slot, which holds a word of its type. -/
lemma line_load {name : CStr} {var : ScopeVar} (hvar : lookupVar vars name = some var)
    (hr : var.staticType.rep = some r) :
    TypedLine host (TypedFrame vars reps) [.load r var.index] (TypedFrame vars (r :: reps)) := by
  refine JumpIsa.line_instr fun frame h => ?_
  obtain ⟨i, hi, hget⟩ := List.getElem_of_mem (List.mem_of_find?_eq_some hvar)
  have hsome : vars[i]? = some var := by rw [List.getElem?_eq_getElem hi, hget]
  have hword : ∀ w, frame.locals[var.index.toNat]? = some w → w.rep = r := by
    intro w hw
    rw [h.slotted i var hsome] at hw
    exact h.locals i var r w hsome hr hw
  refine effect_guarded ?_ ?_
  · unfold Instr.typed
    cases hget : frame.locals[var.index.toNat]? with
    | none => simp [hget]
    | some w => simp [hget, hword w hget]
  · rw [exec_load]
    cases hget : frame.locals[var.index.toNat]? with
    | none => trivial
    | some w => exact h.pushWord (hword w hget) 2

/-- An operation on two words of its types. -/
lemma line_binary {op : PlainOp} (hop : op.isBinary = true) (htyped : op.operands = [r, r])
    (hresult : op.result = r) :
    TypedLine host (TypedFrame vars (r :: r :: reps)) [.plain op] (TypedFrame vars (r :: reps)) := by
  refine JumpIsa.line_instr fun frame h => ?_
  obtain ⟨b, rest₁, hstack₁, hb, h₁⟩ := h.pop
  obtain ⟨a, rest, hstack₂, ha, h₂⟩ := h₁.pop
  replace hstack₂ : rest₁ = a :: rest := hstack₂
  subst hstack₂
  refine effect_guarded ?_ ?_
  · simp [Instr.typed, hstack₁, htyped, ha, hb]
  · rw [exec_binary hop, hstack₁]
    simp only
    cases happly : applyOp host op a b with
    | error e => trivial
    | ok w =>
      simp only [Except.map]
      exact ⟨rfl, h₂.push ((applyOp_rep happly).trans hresult)⟩

/-- An `int` is converted where a `float` is asked for. -/
lemma line_cast {a b : Rep} (h : a = b ∨ b = .float) :
    TypedLine host (TypedFrame vars (a :: reps)) (castCode a b) (TypedFrame vars (b :: reps)) := by
  unfold castCode
  split
  · rename_i hab
    subst hab
    exact JumpIsa.line_nil fun _ hf => hf
  · rename_i hab
    obtain rfl := h.resolve_left hab
    obtain rfl : a = .int := by cases a <;> first | rfl | exact (hab rfl).elim
    refine JumpIsa.line_instr fun frame hf => ?_
    obtain ⟨w, rest, hstack, hw, hrest⟩ := hf.pop
    obtain ⟨stack, size, locals⟩ := frame
    replace hstack : stack = w :: rest := hstack
    subst hstack
    refine effect_guarded ?_ ⟨rfl, hrest.push (w := ⟨.float, host.ofInt w.bits⟩) rfl⟩
    simp [Instr.typed, PlainOp.operands, hw]

/-- A minus stops the machine, for want of a handler. -/
lemma line_ineg : TypedLine host (TypedFrame vars (.int :: reps)) [.plain .ineg]
    (TypedFrame vars (.int :: reps)) := by
  refine JumpIsa.line_instr fun frame h => ?_
  obtain ⟨w, rest, hstack, hw, -⟩ := h.pop
  refine effect_guarded ?_ ?_
  · simp [Instr.typed, PlainOp.operands, hstack, hw]
  · rw [exec_ineg]
    trivial

/-- Variables that differ from others in a slot for words of type `r` at most. -/
structure SavedVars (vars : Vars) (slot : UInt8) (r : Rep) (vars' : Vars) : Prop where
  slotted : Slotted vars → Slotted vars'
  types : Slotted vars → ∀ (i : ℕ) (var : ScopeVar), vars'[i]? = some var →
    if i = slot.toNat then var.staticType.rep = some r else vars[i]? = some var

/-- A word is saved in a slot. -/
lemma line_save {slot : UInt8} (hvars : SavedVars vars slot r vars') :
    TypedLine host (TypedFrame vars (r :: reps)) [.save r slot] (TypedFrame vars' reps) := by
  refine JumpIsa.line_instr fun frame h => ?_
  obtain ⟨w, rest, hstack, hw, hrest⟩ := h.pop
  have hframe : frame = Frame.push { frame with stack := rest } w := by
    obtain ⟨stack, size, locals⟩ := frame
    replace hstack : stack = w :: rest := hstack
    subst hstack
    rfl
  refine effect_guarded ?_ ?_
  · simp [Instr.typed, hstack, hw]
  · rw [hframe, exec_save]
    split
    · rename_i hlt
      refine ⟨rfl, hrest.words, hvars.slotted h.slotted, fun i var r' w' hvar hr' hget => ?_⟩
      have hcase := hvars.types h.slotted i var hvar
      split at hcase
      · rename_i hi
        rw [hi] at hget
        obtain rfl := Option.some.inj ((List.getElem?_set_self hlt).symm.trans hget)
        obtain rfl := Option.some.inj (hcase.symm.trans hr')
        exact hw
      · rename_i hi
        rw [List.getElem?_set_ne fun h => hi h.symm] at hget
        exact h.locals i var r' w' hcase hr' hget
    · trivial

/-- The saved word is one of the type of its variable. -/
lemma savedVars_lookup {name : CStr} {var : ScopeVar} (hvar : lookupVar vars name = some var)
    (hr : var.staticType.rep = some r) : SavedVars vars var.index r vars := by
  obtain ⟨j, hj, hget⟩ := List.getElem_of_mem (List.mem_of_find?_eq_some hvar)
  have hsome : vars[j]? = some var := by rw [List.getElem?_eq_getElem hj, hget]
  refine ⟨fun h => h, fun hslotted i var' hvar' => ?_⟩
  split
  · rename_i hi
    rw [hi, hslotted j var hsome, hsome] at hvar'
    cases hvar'
    exact hr
  · exact hvar'

/-- A new variable. -/
lemma savedVars_declare (hlen : vars.length < 256) (name : CStr) :
    SavedVars vars (UInt8.ofNat vars.length) r (declareVar vars r.type name) := by
  have hslot : (UInt8.ofNat vars.length).toNat = vars.length := by
    rw [UInt8.toNat_ofNat']
    omega
  refine ⟨fun h => h.declare hlen _ _, fun _ i var hvar => ?_⟩
  rw [declareVar] at hvar
  split
  · rename_i hi
    rw [hi, hslot, List.getElem?_concat_length] at hvar
    cases hvar
    exact Rep.rep_type r
  · rename_i hi
    rw [hslot] at hi
    have hlt : i < vars.length := by
      have := (List.getElem?_eq_some_iff.mp hvar).1
      rw [List.length_append, List.length_singleton] at this
      omega
    rwa [List.getElem?_append_left hlt] at hvar

end

/-! ## Values -/

/-- In a value no `float` is negated or compared. -/
def TypableValue (vars : Vars) : Expr → Prop
  | .group _ expr => TypableValue vars expr
  | .unaryOp _ _ operand => valueRep vars operand = some .int ∧ TypableValue vars operand
  | .binaryOp _ operator left right =>
    (operator = .equalTo ∨ operator = .notEqualTo →
      valueRep vars left = some .int ∧ valueRep vars right = some .int) ∧
      TypableValue vars left ∧ TypableValue vars right
  | _ => True

lemma joinRep_cast (a b : Rep) :
    (a = joinRep a b ∨ joinRep a b = .float) ∧ (b = joinRep a b ∨ joinRep a b = .float) := by
  cases a <;> cases b <;> decide

/-- The code of a value leaves a word of its type, from typed instructions only. -/
theorem line_value {vars : Vars} {e : Expr} {r : Rep} (hr : valueRep vars e = some r)
    (htypable : TypableValue vars e) (reps : List Rep) :
    TypedLine host (TypedFrame vars reps) (valueCode vars e) (TypedFrame vars (r :: reps)) := by
  induction e generalizing r reps with
  | literalInt value =>
    cases hr
    exact line_iconst value
  | literalFloat value =>
    cases hr
    exact line_fconst value
  | ident t name =>
    obtain ⟨var, hvar, ht⟩ := valueRep_ident hr
    have hrep : var.staticType.rep = some r := by rw [ht, Rep.rep_type]
    simp only [valueCode, hvar, hrep, Option.getD_some]
    exact line_load hvar hrep
  | group t expr ih => exact ih hr htypable reps
  | unaryOp t operator operand ih =>
    obtain ⟨-, hr⟩ := valueRep_unaryOp hr
    obtain ⟨hint, htypable⟩ := htypable
    rw [hint] at hr
    cases hr
    exact JumpIsa.Line.append (ih hint htypable reps) line_ineg
  | binaryOp t operator left right ihl ihr =>
    obtain ⟨a, b, op, ha, hb, rfl, hop⟩ := valueRep_binaryOp hr
    obtain ⟨hequal, hleft, hright⟩ := htypable
    -- operands that are compared are `int`, and so is their common type
    have htyped := operands_valueOp hop fun hfloat => by
      have hint : ∀ {x y : Rep}, valueRep vars left = some x → valueRep vars right = some y →
          (operator = .equalTo ∨ operator = .notEqualTo) → joinRep x y = .int := by
        intro x y hx hy hor
        obtain ⟨hl, hr⟩ := hequal hor
        rw [hx] at hl
        rw [hy] at hr
        cases hl
        cases hr
        rfl
      constructor
      · intro heq
        rw [hint ha hb (.inl heq)] at hfloat
        cases hfloat
      · intro hne
        rw [hint ha hb (.inr hne)] at hfloat
        cases hfloat
    simp only [valueCode, ha, hb, hop, Option.getD_some]
    refine JumpIsa.Line.append (JumpIsa.Line.append
      (JumpIsa.Line.append (ihl ha hleft reps) (line_cast (joinRep_cast a b).1))
      (JumpIsa.Line.append (ihr hb hright _) (line_cast (joinRep_cast a b).2))) ?_
    exact line_binary (isBinary_of_valueOp hop) htyped.1 htyped.2
  | specialCast t opcode operand => cases hr
  | other t => cases hr

/-! ## Expressions -/

/-- A value of type `r` is assigned to a variable of its type, or an `int` to a `float`. The
compiler accepts no other assignment. -/
def Assignable (vars : Vars) (name : CStr) (r : Rep) : Prop :=
  ∀ var, lookupVar vars name = some var →
    ∃ v, var.staticType.rep = some v ∧ (r = v ∨ v = .float)

/-- The operands and the right sides of the expression are values that can be typed, a minus at
its root is applied to an `int`, and there are slots for the variables. -/
def TypableExpr (vars : Vars) : Expr → Prop
  | .ident _ _ => True
  | .group _ expr => TypableExpr vars expr
  | .unaryOp _ _ operand => TypableExpr vars operand ∧
      (exprFound vars operand = true → valueRep vars operand = some .int)
  | .binaryOp _ .assignment (.ident _ name) right =>
    (∃ r, valueRep vars right = some r ∧ Assignable vars name r) ∧ TypableValue vars right ∧
      (assignVars vars name right).length ≤ 256
  | .binaryOp _ .functionCall (.ident _ _) (.group _ args) => TypableExpr vars args
  | .binaryOp _ .comma left right =>
    TypableExpr vars left ∧ TypableExpr (exprVars vars left) right
  | expr => ValueExpr vars expr ∧ TypableValue vars expr

/-- An expression that is a value is one that can be typed. -/
lemma TypableExpr.value {vars : Vars} {e : Expr} {r : Rep} (h : TypableExpr vars e)
    (hr : valueRep vars e = some r) : TypableValue vars e := by
  induction e generalizing r with
  | group t expr ih => exact ih h hr
  | unaryOp t operator operand ih =>
    have hr' := (valueRep_unaryOp hr).2
    exact ⟨h.2 (exprCode_value (fun _ => 0) hr').2.2, ih h.1 hr'⟩
  | binaryOp t operator left right =>
    obtain ⟨a, b, op, -, -, -, hop⟩ := valueRep_binaryOp hr
    cases operator with
    | assignment => exact (operator_ne_assignment hop rfl).elim
    | functionCall => exact (operator_ne_functionCall hop rfl).elim
    | comma => cases hr : joinRep a b <;> rw [hr] at hop <;> cases hop
    | _ => exact h.2
  | _ => trivial

lemma line_assign {vars : Vars} {name : CStr} {right : Expr} {r : Rep}
    (hr : valueRep vars right = some r) (hassignable : Assignable vars name r)
    (htypable : TypableValue vars right) (hlen : (assignVars vars name right).length ≤ 256)
    (reps : List Rep) :
    TypedLine host (TypedFrame vars reps) (assignCode vars name right)
      (TypedFrame (assignVars vars name right) reps) := by
  obtain ⟨hoperand, hcode⟩ := operandRep_of_valueRep hr
  have hright : TypedLine host (TypedFrame vars reps) (valueCode vars right)
      (TypedFrame vars (r :: reps)) := line_value hr htypable reps
  unfold assignVars at hlen ⊢
  cases hvar : lookupVar vars name with
  | some var =>
    obtain ⟨v, hv, hcast⟩ := hassignable var hvar
    simp only [assignCode, hvar, hoperand, hv, Option.getD_some, hcode]
    exact JumpIsa.Line.append (JumpIsa.Line.append hright (line_cast hcast))
      (line_save (savedVars_lookup hvar hv))
  | none =>
    simp only [hvar, hoperand, Option.getD_some] at hlen ⊢
    simp only [assignCode, hvar, hoperand, Option.getD_some, hcode]
    refine JumpIsa.Line.append hright (line_save (savedVars_declare ?_ name))
    rw [declareVar, List.length_append, List.length_singleton] at hlen
    omega

/-- An expression leaves the slots typed, and executes typed instructions only. -/
theorem line_typable (callIndex : CStr → UInt16) {vars : Vars} {e : Expr}
    (hreg : RegularExpr vars e) (htypable : TypableExpr vars e) :
    TypedLine host (TypedFrame vars []) (exprCode callIndex vars e)
      (TypedFrame (exprVars vars e) []) := by
  revert hreg htypable
  fun_induction TypableExpr vars e with
  | case1 vars t name =>
    intro hreg _
    cases hvar : lookupVar vars name with
    | none =>
      simp only [exprCode, operandCode, hvar]
      exact JumpIsa.line_nil fun _ hf => hf
    | some var =>
      obtain ⟨r, hr⟩ := Option.isSome_iff_exists.mp (hreg var hvar)
      simp only [exprCode, operandCode, hvar, hr, Option.getD_some]
      exact (line_load hvar hr).mono (fun _ hf => hf) fun _ hf => hf.leave
  | case2 vars t e ih => exact fun hreg htypable => ih hreg htypable
  | case3 vars t operator operand ih =>
    rintro ⟨-, hreg⟩ ⟨htypable, hminus⟩
    rw [exprCode]
    split
    · rename_i hfound
      have hr := hminus hfound
      obtain ⟨hcode, hvars, -⟩ := exprCode_value callIndex hr
      rw [hcode, exprVars, hvars]
      exact (JumpIsa.Line.append (line_value hr (htypable.value hr) []) line_ineg).mono
        (fun _ hf => hf) fun _ hf => hf.leave
    · rw [List.append_nil]
      exact ih hreg htypable
  | case4 vars t t' name right =>
    rintro - ⟨⟨r, hr, hassignable⟩, htypable, hlen⟩
    exact line_assign hr hassignable htypable hlen []
  | case5 vars t t' name t'' args ih =>
    intro hreg htypable
    refine JumpIsa.Line.append (ih hreg htypable) (JumpIsa.line_instr fun frame hf => ?_)
    exact effect_guarded rfl ⟨rfl, hf⟩
  | case6 vars t left right ihl ihr =>
    exact fun hreg htypable => JumpIsa.Line.append (ihl hreg.1 htypable.1) (ihr hreg.2 htypable.2)
  | case7 vars e =>
    rintro - ⟨hvalue, htypable⟩
    obtain ⟨r, hr⟩ := Option.isSome_iff_exists.mp hvalue
    obtain ⟨hcode, hvars, -⟩ := exprCode_value callIndex hr
    rw [hcode, hvars]
    exact (line_value hr htypable []).mono (fun _ hf => hf) fun _ hf => hf.leave

/-! ## Programs -/

/-- `JEZ` takes a word of any type. -/
lemma tested_typed {vars : Vars} {frame : Frame} (h : TypedFrame vars [] frame) :
    frame.Tested (fun _ => True) (TypedFrame vars []) (TypedFrame vars []) := by
  unfold Frame.Tested
  cases frame.stack with
  | nil => trivial
  | cons w rest =>
    have hrest : TypedFrame vars [] { frame with stack := rest } :=
      ⟨List.nil_prefix, h.slotted, h.locals⟩
    exact ⟨fun _ => hrest, fun _ => hrest⟩

/-- The slots of the visible variables hold words of their types. -/
def typesFlow : Flow Unit where
  Inv vars _ frame := TypedFrame vars [] frame
  leave _ _ _ := ()
  test _ _ _ := ()
  Good vars _ e := TypableExpr vars e
  GoodCond vars _ e := TypableExpr vars e

lemma typesFlow_sound (callIndex : CStr → UInt16) :
    typesFlow.Sound host (fun _ => True) Instr.typed callIndex where
  jumps := fun _ _ => ⟨rfl, rfl, rfl⟩
  mono _ h := h
  forget hvars h := TypedFrame.forget hvars h
  expr hreg htypable := line_typable callIndex hreg htypable
  cond hreg htypable := (line_typable callIndex hreg htypable).mono (fun _ h => h)
    fun _ h => tested_typed h

/-- The expressions of the program can be typed, and its functions have slots for their
parameters. -/
structure TypableProgram (program : List TopLevel) : Prop where
  exprs : EachScope (EachExpr TypableExpr) program
  params : ∀ func ∈ functionsOf program, func.args.length ≤ 256

/-- The frame that a function is entered with has words of the types of its parameters. -/
def EntryTyped (program : List TopLevel) (handle : FuncHandle) (frame : Frame) : Prop :=
  ∀ n func, (functionsOf program)[n]? = some func → handle.signatureIndex = UInt16.ofNat n →
    TypedLocals (paramVars func.args) frame.locals

/-- The call at which the machine is copies words of the types of the parameters of the function
that it enters. -/
def ArgsTyped (host : Host) (program : List TopLevel) (vm : Vm) (s : MachineState) : Prop :=
  ∀ data index handle, s.current.code.drop s.current.pc.toNat = opcodeCall :: data →
    readOffset data = .ok index → vm.callHandle (UInt16.ofNat index) = .ok handle →
    handle.argSize.toNat ≤ 4 * s.current.frame.stack.length →
    EntryTyped program handle (calleeFrame host handle
      (s.current.frame.stack.take (handle.argSize.toNat / 4)).reverse)

lemma slotted_params (args : List (CStr × CStr)) (h : args.length ≤ 256) :
    Slotted (paramVars args) := by
  have hfold : ∀ (args : List (CStr × CStr)) (vars : Vars), vars.length + args.length ≤ 256 →
      Slotted vars → Slotted (args.foldl (fun vars arg => declareVar vars (namedType arg.2) arg.1)
        vars) := by
    intro args
    induction args with
    | nil => exact fun _ _ hvars => hvars
    | cons arg args ih =>
      intro vars hlen hvars
      rw [List.length_cons] at hlen
      refine ih _ ?_ (hvars.declare (by omega) _ _)
      simp only [declareVar, List.length_append, List.length_singleton]
      omega
  refine hfold args [] (by simpa using h) ?_
  intro i var hvar
  simp at hvar

/-- `vm_execute_opcodes` is at the end of its code, or at an instruction whose operands, and the
word of whose slot, are of its type. -/
def FetchesTyped (host : Host) (a : Activation) : Prop :=
  ∃ code pc, a.code = encodeAll code ∧ a.pc = (pc : ℕ) ∧
    (pc = codeSize code ∨ ∃ i, (vmIsa host).At code pc i ∧ i.typed a.frame = true)

/-- The functions whose expressions can be typed are certified once they are registered. -/
lemma funcsCertified_types {program : List TopLevel}
    (hparams : ∀ func ∈ functionsOf program, func.args.length ≤ 256) :
    Flow.FuncsCertified host (fun _ => True) Instr.typed (EntryTyped program)
      (fun func => typesFlow.Follows (paramVars func.args) () func.body) program := by
  intro n func callIndex varsMaxSize fuel vm handle vm' hget hreg hfollows hregister
  obtain ⟨hindex, hdata, -, -⟩ := vmRegister_handle hregister
  refine (typesFlow_sound callIndex).func hreg hfollows hdata fun frame hentry => ?_
  exact ⟨List.nil_prefix, slotted_params _ (hparams func (List.mem_of_getElem? hget)),
    hentry n func hget hindex⟩

/-- In every state of every run of a program that can be typed, if its calls pass words of the types
of the parameters: the machine is at an instruction whose operands are of its type. -/
theorem fetchesTyped_of_typable {isInteractive : Bool} {program : List TopLevel}
    (hp : EncodableProgram program) (htypable : TypableProgram program)
    (hargs : ∀ vm s, Passes host isInteractive program vm s → ArgsTyped host program vm s) {vm : Vm}
    {s : MachineState} (hs : Passes host isInteractive program vm s) :
    FetchesTyped host s.current := by
  have hroot : TypedFrame [] [] (rootFrame host) :=
    ⟨List.nil_prefix, fun i var h => by simp at h, fun i var r w h => by simp at h⟩
  have hcalls : ∀ vm s n, Passes host isInteractive program vm s →
      VmHolds host (fun _ => True) Instr.typed (EntryTyped program) n vm →
      CallsHold host (fun _ => True) Instr.typed vm s := by
    intro vm s n hs hvm
    refine hvm.calls ?_ fun _ _ _ => trivial
    intro data s' hdrop hcall index handle hindex hhandle
    obtain ⟨index', handle', hindex', hhandle', hsize, -, -, rfl⟩ := vmExecuteOpcodeCall_eq_ok hcall
    obtain rfl := Except.ok.inj (hindex.symm.trans hindex')
    obtain rfl := Except.ok.inj (hhandle.symm.trans hhandle')
    exact hargs vm s hs data index handle hdrop hindex hhandle hsize
  obtain ⟨⟨Q, hstacked⟩, -⟩ := Flow.Sound.session typesFlow_sound
    (funcsCertified_types htypable.params) hp
    (Flow.followsProgram_of_each (fun _ _ h => ⟨h, h⟩) htypable.exprs) hroot hcalls hs
  exact hstacked.at_instr.at_instr

/-- The word that the code of a value leaves is of the type that the tracer assigns. -/
lemma value_leaves_type {chain : ScopeChain} {vars : Vars} {e e' : Expr} {r : Rep}
    (hsees : chain.Sees vars) (hu : e.Untraced) (hr : valueRep vars e = some r)
    (htypable : TypableValue vars e) (htrace : traceDataType chain e = .ok e')
    (hslotted : Slotted vars) {vm : Vm} {frame frame' : Frame}
    (hlocals : TypedLocals vars frame.locals)
    (hruns : VmRuns host vm frame (encodeAll (valueCode vars e)) frame') :
    ∃ w rest, frame'.stack = w :: rest ∧ w.rep.type = e'.staticType := by
  have hoperand := (operandRep_of_valueRep hr).1
  rw [traceDataType_eq hsees hu hoperand] at htrace
  cases htrace
  have hline : TypedLine host (TypedFrame vars []) (valueCode vars e) (TypedFrame vars [r]) :=
    line_value hr htypable []
  have hframe := vmRuns_block (Guarded.block hline.block) ⟨List.nil_prefix, hslotted, hlocals⟩ hruns
  obtain ⟨w, rest, hstack, hw, -⟩ := hframe.pop
  exact ⟨w, rest, hstack, by rw [hw, traced_staticType hoperand]⟩

/-- A program that can be typed and whose calls pass words of the types of the parameters: in every
state of its runs the machine is at an instruction whose operands are of its type, and a value leaves
a word of the type that the tracer assigns wherever the slots hold words of their types. -/
theorem types_hold {isInteractive : Bool} {program : List TopLevel}
    (hp : EncodableProgram program) (htypable : TypableProgram program)
    (hargs : ∀ vm s, Passes host isInteractive program vm s → ArgsTyped host program vm s) :
    (∀ vm s, Passes host isInteractive program vm s → FetchesTyped host s.current) ∧
      ∀ (chain : ScopeChain) (vars : Vars) (e e' : Expr) (r : Rep) (vm : Vm) (frame frame' : Frame),
        chain.Sees vars → e.Untraced → valueRep vars e = some r → TypableValue vars e →
        traceDataType chain e = .ok e' → Slotted vars → TypedLocals vars frame.locals →
        VmRuns host vm frame (encodeAll (valueCode vars e)) frame' →
        ∃ w rest, frame'.stack = w :: rest ∧ w.rep.type = e'.staticType :=
  ⟨fun _ _ hs => fetchesTyped_of_typable hp htypable hargs hs,
    fun _ _ _ _ _ _ _ _ hsees hu hr ht htrace hslotted hlocals hruns =>
      value_leaves_type hsees hu hr ht htrace hslotted hlocals hruns⟩

lemma typable_sample : TypableProgram sampleProgram where
  exprs := by
    refine ⟨⟨⟨⟨.int, rfl, nofun⟩, trivial, by decide⟩, trivial⟩,
      ⟨⟨⟨.int, rfl, nofun⟩, trivial, by decide⟩, trivial⟩,
      ⟨⟨⟨.float, rfl, nofun⟩, trivial, by decide⟩, trivial⟩, ?_, ⟨trivial, trivial⟩, trivial⟩
    refine ⟨trivial, ⟨⟨rfl, fun _ => ⟨rfl, rfl⟩, trivial, trivial⟩, ⟨?_, trivial⟩, trivial, ?_, trivial⟩,
      trivial⟩
    · refine ⟨⟨.float, rfl, fun var h => ?_⟩, ⟨by decide, trivial, trivial⟩, by decide⟩
      cases h
      exact ⟨.float, rfl, .inl rfl⟩
    · refine ⟨⟨.int, rfl, fun var h => ?_⟩, ⟨by decide, trivial, trivial⟩, by decide⟩
      cases h
      exact ⟨.int, rfl, .inl rfl⟩
  params := by decide

/-- The frame that a call enters has an `int` in its first slot. -/
def entersInt (p : Vm × MachineState) : Bool :=
  match p.2.current.code.drop p.2.current.pc.toNat with
  | opcode :: data =>
    if opcode = opcodeCall then
      match readOffset data with
      | .ok index =>
        match p.1.callHandle (UInt16.ofNat index) with
        | .ok handle => (calleeFrame zeroHost handle
            (p.2.current.frame.stack.take (handle.argSize.toNat / 4)).reverse).locals[0]?.all
              (·.rep = .int)
        | .error _ => true
      | .error _ => true
    else true
  | [] => true

lemma argsTyped_sample {vm : Vm} {s : MachineState} (hs : Passes zeroHost true sampleProgram vm s) :
    ArgsTyped zeroHost sampleProgram vm s := by
  have hstates : (programStates zeroHost 3 50 true sampleProgram).map (·.all entersInt)
      = some true := by decide +kernel
  have henters := forall_passes _ hstates hs
  intro data index handle hdrop hread hget _ n func hfunc _ i var r w hvar hr hw
  simp only [entersInt, hdrop, hread, hget, if_true] at henters
  obtain rfl : n = 0 := by
    cases n with
    | zero => rfl
    | succ n => cases hfunc
  cases hfunc
  obtain rfl : i = 0 := by
    cases i with
    | zero => rfl
    | succ i => cases hvar
  cases hvar
  cases hr
  rw [hw] at henters
  simpa using henters

/-- The session calls `f`, whose parameter is an `int`, after a loop over a `float` and a branch. -/
theorem types_hold_sample :
    (∃ vm s, Passes zeroHost true sampleProgram vm s ∧ s.callers.length = 1) ∧
      (∀ vm s, Passes zeroHost true sampleProgram vm s → FetchesTyped zeroHost s.current) ∧
      ∀ (chain : ScopeChain) (vars : Vars) (e e' : Expr) (r : Rep) (vm : Vm) (frame frame' : Frame),
        chain.Sees vars → e.Untraced → valueRep vars e = some r → TypableValue vars e →
        traceDataType chain e = .ok e' → Slotted vars → TypedLocals vars frame.locals →
        VmRuns zeroHost vm frame (encodeAll (valueCode vars e)) frame' →
        ∃ w rest, frame'.stack = w :: rest ∧ w.rep.type = e'.staticType := by
  have hstates : (programStates zeroHost 3 50 true sampleProgram).map (·.any fun p =>
      decide (p.2.callers.length = 1)) = some true := by decide +kernel
  obtain ⟨vm, s, hs, hcallers⟩ := exists_passes _ hstates
  exact ⟨⟨vm, s, hs, of_decide_eq_true hcallers⟩,
    types_hold encodable_sample typable_sample fun _ _ hs => argsTyped_sample hs⟩

/-- The statement `x = 1.0 == 2.0`. -/
def floatsEqual : List TopLevel :=
  [.stat (.expr (.binaryOp .unknwn .assignment (.ident .unknwn [120])
    (.binaryOp .unknwn .equalTo (.literalFloat 0x3f800000) (.literalFloat 0x40000000))) .nil)]

lemma eq_ieq_of_opcode {i : Instr} (h : i.opcode = opcodeIeq) : i = .plain .ieq := by
  cases i with
  | plain op => cases op <;> first | rfl | exact absurd h (by decide)
  | load rep slot =>
    cases rep
    · exact absurd h (by decide : opcodeIload ≠ opcodeIeq)
    · exact absurd h (by decide : opcodeFload ≠ opcodeIeq)
  | save rep slot =>
    cases rep
    · exact absurd h (by decide : opcodeIsave ≠ opcodeIeq)
    · exact absurd h (by decide : opcodeFsave ≠ opcodeIeq)
  | iconst value => exact absurd h (by decide : opcodeIconst ≠ opcodeIeq)
  | fconst value => exact absurd h (by decide : opcodeFconst ≠ opcodeIeq)
  | jez n => exact absurd h (by decide : opcodeJez ≠ opcodeIeq)
  | jmp n => exact absurd h (by decide : opcodeJmp ≠ opcodeIeq)
  | rjmp n => exact absurd h (by decide : opcodeRjmp ≠ opcodeIeq)
  | call index => exact absurd h (by decide : opcodeCall ≠ opcodeIeq)

/-- Two `float` words are compared with `IEQ`. -/
theorem floatsEqual_not_typed :
    ∃ vm s, Passes zeroHost true floatsEqual vm s ∧ ¬ FetchesTyped zeroHost s.current := by
  let one : Frame := { rootFrame zeroHost with stack := [⟨.float, 0x3f800000⟩] }
  let two : Frame := { rootFrame zeroHost with stack := [⟨.float, 0x40000000⟩, ⟨.float, 0x3f800000⟩] }
  have hone : VmRuns zeroHost vmStaticInit (rootFrame zeroHost) [opcodeFconst, 0, 0, 128, 63] one :=
    vmRuns_of_vmRun 2 (by decide +kernel)
  have htwo : VmRuns zeroHost vmStaticInit one [opcodeFconst, 0, 0, 0, 64] two :=
    vmRuns_of_vmRun 2 (by decide +kernel)
  refine ⟨vmStaticInit, vmStart two [opcodeIeq], ⟨3, [.execute [opcodeFconst, 0, 0, 128, 63],
    .execute [opcodeFconst, 0, 0, 0, 64], .execute [opcodeIeq], .execute [opcodeFsave, 0]],
    by decide +kernel, .execute hone (.execute htwo (.here .refl))⟩, ?_⟩
  rintro ⟨code, pc, hcode, hpc, hend | ⟨i, hat, htyped⟩⟩
  · have hlen := congrArg List.length hcode
    change 1 = codeSize code at hlen
    have : (0 : ℤ) = pc := hpc
    omega
  · -- the instruction there is the comparison
    obtain ⟨rest, hdrop⟩ := drop_of_at hat
    have hzero : pc = 0 := by
      have : (0 : ℤ) = pc := hpc
      omega
    rw [hzero, ← hcode] at hdrop
    have hop : i.opcode = opcodeIeq := (List.cons_eq_cons.mp hdrop).1.symm
    have hi := eq_ieq_of_opcode hop
    rw [hi] at htyped
    cases htyped

end PhantomShell
