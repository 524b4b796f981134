import PhantomShell.Compiler.EncodingTheorems
import PhantomShell.Compiler.Program
import PhantomShell.Compiler.Semantics
import PhantomShell.Compiler.ValueTheorems
import PhantomShell.Vm.Outcomes

/-!
# Compiled statements do what the source says

The store of the source lies in the locals of the frame (`envOf`): one slot for each visible
variable, in the order of declaration.
-/

namespace PhantomShell

variable (host : Host)

/-! ## Stores and slots -/

/-- The store in the locals of a frame. -/
def envOf (vars : Vars) (locals : List Word) : Env :=
  List.zipWith (fun var w => (var.name, w.bits)) vars locals

lemma length_envOf {vars : Vars} {locals : List Word} (h : vars.length ≤ locals.length) :
    (envOf vars locals).length = vars.length := by
  simp [envOf, h]

/-- The store finds a variable where the compiler does. -/
lemma findIdx?_envOf {vars : Vars} {locals : List Word} (h : vars.length ≤ locals.length)
    (name : CStr) : (envOf vars locals).findIdx? (·.1 == name) = vars.findIdx? (·.name == name) := by
  have hnames : (envOf vars locals).map (·.1) = vars.map (·.name) := by
    rw [envOf, List.map_zipWith]
    induction vars generalizing locals with
    | nil => rfl
    | cons var vars ih =>
      cases locals with
      | nil => simp at h
      | cons w locals => simp [ih (by simpa using h)]
  have := congrArg (List.findIdx? (· == name)) hnames
  rw [List.findIdx?_map, List.findIdx?_map] at this
  exact this

lemma findIdx?_of_lookup {vars : Vars} {name : CStr} {var : ScopeVar} (hslots : Slotted vars)
    (h : lookupVar vars name = some var) :
    vars.findIdx? (·.name == name) = some var.index.toNat ∧ vars[var.index.toNat]? = some var := by
  rw [lookupVar, List.find?_eq_bind_findIdx?_getElem?] at h
  cases hi : vars.findIdx? (·.name == name) with
  | none => simp [hi] at h
  | some i =>
    simp only [hi, Option.bind_some] at h
    rw [hslots i var h]
    exact ⟨rfl, h⟩

/-- Loading a variable. -/
lemma get?_envOf {vars : Vars} {locals : List Word} {name : CStr} {var : ScopeVar}
    (hslots : Slotted vars) (hlen : vars.length ≤ locals.length)
    (h : lookupVar vars name = some var) :
    ∃ w, locals[var.index.toNat]? = some w ∧ (envOf vars locals).get? name = some w.bits := by
  obtain ⟨hidx, hvar⟩ := findIdx?_of_lookup hslots h
  obtain ⟨hi, -⟩ := List.getElem?_eq_some_iff.mp hvar
  have hw := List.getElem?_eq_getElem (show var.index.toNat < locals.length by omega)
  refine ⟨_, hw, ?_⟩
  rw [Env.get?, List.find?_eq_bind_findIdx?_getElem?, findIdx?_envOf hlen, hidx, envOf]
  simp only [Option.bind_some, List.getElem?_zipWith, hvar, hw, Option.map_some]

/-- Saving a visible variable. -/
lemma envOf_set {vars : Vars} {locals : List Word} {name : CStr} {var : ScopeVar}
    (hslots : Slotted vars) (hlen : vars.length ≤ locals.length)
    (h : lookupVar vars name = some var) (w : Word) :
    envOf vars (locals.set var.index.toNat w) = (envOf vars locals).assign name w.bits := by
  obtain ⟨hidx, hvar⟩ := findIdx?_of_lookup hslots h
  obtain ⟨hi, hget⟩ := List.getElem?_eq_some_iff.mp hvar
  have hname : var.name = name := by
    have := List.find?_some h
    simpa using this
  rw [Env.assign, findIdx?_envOf hlen, hidx]
  apply List.ext_getElem?
  intro j
  rw [envOf, List.getElem?_zipWith, List.getElem?_set]
  simp only [List.getElem?_set, envOf, List.getElem?_zipWith, List.length_zipWith]
  by_cases hj : var.index.toNat = j
  · subst hj
    simp [hget, hname, show var.index.toNat < locals.length by omega, hi]
  · simp [hj]

/-- Saving a new variable. -/
lemma envOf_declare {vars : Vars} {locals : List Word} {name : CStr}
    (hlen : vars.length < locals.length) (h : lookupVar vars name = none) (t : StaticType)
    (w : Word) :
    envOf (declareVar vars t name) (locals.set vars.length w)
      = (envOf vars locals).assign name w.bits := by
  have hidx : vars.findIdx? (·.name == name) = none := by
    rw [List.findIdx?_eq_none_iff]
    intro var hvar
    simpa using List.find?_eq_none.mp h var hvar
  have hsize := length_envOf hlen.le
  have hassign : (envOf vars locals).assign name w.bits
      = envOf vars locals ++ [(name, w.bits)] := by
    rw [Env.assign, findIdx?_envOf hlen.le, hidx]
  rw [hassign]
  apply List.ext_getElem?
  intro j
  rw [envOf, declareVar, List.getElem?_zipWith, List.getElem?_set]
  rcases lt_trichotomy j vars.length with hj | rfl | hj
  · rw [List.getElem?_append_left hj, List.getElem?_append_left (by omega)]
    simp [envOf, List.getElem?_zipWith, show vars.length ≠ j by omega]
  · rw [List.getElem?_append_right (le_refl _), List.getElem?_append_right (by omega), hsize]
    simp [hlen]
  · have h0 : j - vars.length ≠ 0 := by omega
    rw [List.getElem?_append_right hj.le, List.getElem?_append_right (by omega), hsize]
    simp [h0]

/-- At the end of a block its variables are forgotten. -/
lemma take_envOf (vars more : Vars) (locals : List Word) :
    (envOf (vars ++ more) locals).take vars.length = envOf vars locals := by
  unfold envOf
  rw [List.take_zipWith, List.take_left' rfl]
  apply List.ext_getElem?
  intro j
  rw [List.getElem?_zipWith, List.getElem?_zipWith, List.getElem?_take]
  by_cases hj : j < vars.length
  · rw [if_pos hj]
  · rw [if_neg hj, List.getElem?_eq_none (show vars.length ≤ j by omega)]

/-! ## Values -/

/-- All visible variables are of type `int`. -/
def IntVars (vars : Vars) : Prop := ∀ var ∈ vars, var.staticType = .int

lemma IntVars.lookup {vars : Vars} (hint : IntVars vars) {name : CStr} {var : ScopeVar}
    (h : lookupVar vars name = some var) : var.staticType = .int :=
  hint var (List.mem_of_find?_eq_some h)

/-- Every value of the fragment is an `int`. -/
lemma valueRep_int {vars : Vars} (hint : IntVars vars) {e : Expr} {r : Rep} (he : IntExpr e)
    (hr : valueRep vars e = some r) : r = .int := by
  induction e generalizing r with
  | literalInt value =>
    cases hr
    rfl
  | ident t name =>
    obtain ⟨var, hvar, ht⟩ := valueRep_ident hr
    rw [hint.lookup hvar] at ht
    cases r with
    | int => rfl
    | float => cases ht
  | group t expr ih => exact ih he hr
  | binaryOp t operator left right ihl ihr =>
    obtain ⟨a, b, op, ha, hb, rfl, -⟩ := valueRep_binaryOp hr
    rw [ihl he.2.1 ha, ihr he.2.2 hb]
    rfl
  | _ => exact he.elim

/-- An operand of the fragment is a value. -/
lemma IntExpr.value {vars : Vars} {e : Expr} {r : Rep} (he : IntExpr e)
    (hr : operandRep vars e = some r) : valueRep vars e = some r := by
  induction e generalizing r with
  | literalInt value => exact hr
  | ident t name => exact hr
  | group t expr ih => exact ih he hr
  | binaryOp t operator left right ihl ihr =>
    obtain ⟨a, b, ha, hb, ⟨rfl, -⟩ | ⟨-, rfl, op, hop⟩⟩ := operandRep_binaryOp hr
    · cases he.1
    · simp only [valueRep, ihl he.2.1 ha, ihr he.2.2 hb, hop, Option.map_some]
  | _ => exact he.elim

/-- The operations of the machine on `int` operands are those of the source; it stops where the
source has no value, and at a quotient that overflows. -/
lemma applyOp_int {operator : Operator} {op : PlainOp} (hop : valueOp .int operator = some op)
    (u w : Word) : match applyOp host op u w with
      | .ok v => evalOperator operator u.bits w.bits = some v.bits
      | .error _ => evalOperator operator u.bits w.bits = none ∨
          (operator = .division ∧ quotientOverflows u.bits w.bits = true) := by
  cases operator <;> cases hop
  case division =>
    rw [applyOp, evalOperator]
    by_cases hzero : w.bits = 0
    · rw [if_pos (.inl hzero), if_pos hzero]
      exact .inl rfl
    · rw [if_neg hzero]
      by_cases hover : quotientOverflows u.bits w.bits = true
      · rw [if_pos (.inr hover)]
        exact .inr ⟨rfl, hover⟩
      · rw [if_neg (not_or.mpr ⟨hzero, hover⟩)]
  all_goals rfl

/-- The word of a value is its value in the store; the machine stops where there is none, and
where a quotient overflows. -/
lemma evalWord_int {vars : Vars} {locals : List Word} (hint : IntVars vars)
    (hslots : Slotted vars) (hlen : vars.length ≤ locals.length) {e : Expr} {r : Rep}
    (he : IntExpr e) (hr : valueRep vars e = some r) :
    match evalWord host vars locals e with
      | .ok w => (envOf vars locals).eval e = some w.bits
      | .error _ => (envOf vars locals).InRange e → (envOf vars locals).eval e = none := by
  induction e generalizing r with
  | literalInt value => rfl
  | ident t name =>
    obtain ⟨var, hvar, -⟩ := valueRep_ident hr
    obtain ⟨w, hw, hget⟩ := get?_envOf hslots hlen hvar
    simp only [Env.eval, evalWord, hvar, Option.bind_some, hw, hget]
  | group t expr ih => exact ih he hr
  | binaryOp t operator left right ihl ihr =>
    obtain ⟨a, b, op, ha, hb, rfl, hop⟩ := valueRep_binaryOp hr
    obtain rfl := valueRep_int hint he.2.1 ha
    obtain rfl := valueRep_int hint he.2.2 hb
    have hleft := ihl he.2.1 ha
    have hright := ihr he.2.2 hb
    simp only [evalWord, ha, hb, hop, Option.getD_some]
    cases hu : evalWord host vars locals left with
    | error stop =>
      rw [hu] at hleft
      intro hrange
      simp only [Env.eval, hleft hrange.1]
    | ok u =>
      rw [hu] at hleft
      cases hw : evalWord host vars locals right with
      | error stop =>
        rw [hw] at hright
        intro hrange
        simp only [Env.eval, hleft, hright hrange.2.1]
      | ok w =>
        rw [hw] at hright
        have happly := applyOp_int host hop u w
        simp only [Env.eval, hleft, hright, except_ok_bind]
        change match applyOp host op u w with
          | .ok v => evalOperator operator u.bits w.bits = some v.bits
          | .error _ => _ → evalOperator operator u.bits w.bits = none
        cases happlied : applyOp host op u w with
        | ok v =>
          rw [happlied] at happly
          exact happly
        | error stop =>
          rw [happlied] at happly
          intro hrange
          rcases happly with hnone | ⟨hdivision, hover⟩
          · exact hnone
          · rw [hrange.2.2 hdivision _ _ hleft hright] at hover
            cases hover
  | _ => exact he.elim

/-! ## One statement -/

/-- The room for the conditions and right sides of a scope. -/
def scopeWords : Stat → ℕ
  | .expr expr next => max (exprWords expr) (scopeWords next)
  | .ifElse expr trueScope falseScope next =>
    max (exprWords expr) (max (scopeWords trueScope) (max (scopeWords falseScope) (scopeWords next)))
  | .while expr loopScope next =>
    max (exprWords expr) (max (scopeWords loopScope) (scopeWords next))
  | _ => 0

/-- What a scope needs to be compiled and run faithfully on frames like `base`. -/
structure Fits (base : Frame) (callIndex : CStr → UInt16) (vars : Vars) (stat : Stat) : Prop where
  fragment : IntStat stat
  regular : RegularScope callIndex vars stat
  conds : ValueConds vars stat
  int : IntVars vars
  slotted : Slotted vars
  slots : scopeSlots vars stat ≤ 256
  locals : scopeSlots vars stat ≤ base.locals.length
  room : base.Room (scopeWords stat)

/-- A frame like `base` whose locals hold the store. -/
structure Stores (base : Frame) (vars : Vars) (env : Env) (frame : Frame) : Prop where
  stack : frame.stack = base.stack
  stackSize : frame.stackSize = base.stackSize
  locals : frame.locals.length = base.locals.length
  env : envOf vars frame.locals = env

section

variable {base : Frame} {callIndex : CStr → UInt16} {vars : Vars} {env : Env} {frame : Frame}

lemma Stores.lt_locals (h : Stores base vars env frame) {stat : Stat}
    (hfits : Fits base callIndex vars stat) : vars.length ≤ frame.locals.length := by
  rw [h.locals]
  exact (length_le_scopeSlots vars stat).trans hfits.locals

lemma Stores.length (h : Stores base vars env frame) {stat : Stat}
    (hfits : Fits base callIndex vars stat) : env.length = vars.length := by
  rw [← h.env, length_envOf (h.lt_locals hfits)]

lemma Stores.room (h : Stores base vars env frame) {n m : ℕ} (hroom : base.Room n) (hm : m ≤ n) :
    frame.Room m := by
  unfold Frame.Room at *
  rw [h.stack, h.stackSize]
  omega

/-- At the end of a block the store is the part that is still visible. -/
lemma Stores.leave {stat : Stat} (h : Stores base (scopeVars vars stat) env frame) :
    Stores base vars (env.take vars.length) frame := by
  obtain ⟨more, hmore⟩ := prefix_scopeVars vars stat
  refine ⟨h.stack, h.stackSize, h.locals, ?_⟩
  rw [← h.env, ← hmore, take_envOf]

/-- A condition or a right side: the value on top of the stack, or a stop for want of a value or
at an overflow. -/
lemma runStraight_int (h : Stores base vars env frame) {stat : Stat}
    (hfits : Fits base callIndex vars stat) {e : Expr} (he : IntExpr e) (hvalue : ValueExpr vars e)
    (hwords : exprWords e ≤ scopeWords stat) :
    (∃ w, env.eval e = some w.bits ∧
      (vmIsa host).runStraight (valueCode vars e) frame = .ok (frame.push w)) ∨
    ((env.InRange e → env.eval e = none) ∧
      ∃ stop, (vmIsa host).runStraight (valueCode vars e) frame = .error stop) := by
  obtain ⟨r, hr⟩ := Option.isSome_iff_exists.mp hvalue
  have heval := evalWord_int host hfits.int hfits.slotted (h.lt_locals hfits) he hr
  rw [h.env] at heval
  rw [runStraight_value hr (h.room hfits.room hwords)]
  cases hw : evalWord host vars frame.locals e with
  | ok w =>
    rw [hw] at heval
    exact .inl ⟨w, heval, rfl⟩
  | error stop =>
    rw [hw] at heval
    exact .inr ⟨heval, stop, rfl⟩

lemma Fits.next_assign {t t' : StaticType} {name : CStr} {right : Expr} {next : Stat}
    (h : Fits base callIndex vars
      (.expr (.binaryOp t .assignment (.ident t' name) right) next)) :
    Fits base callIndex (assignVars vars name right) next := by
  have hlen : (assignVars vars name right).length ≤ 256 :=
    (length_le_scopeSlots _ _).trans h.slots
  obtain ⟨r, hr⟩ := Option.isSome_iff_exists.mp h.regular.1
  obtain rfl := valueRep_int h.int h.fragment.1 (h.fragment.1.value hr)
  refine ⟨h.fragment.2, h.regular.2, h.conds, ?_, ?_, h.slots, h.locals,
    h.room.mono (le_max_right _ _)⟩
  · unfold assignVars
    split
    · exact h.int
    · intro var hvar
      rcases List.mem_append.mp hvar with hvar | hvar
      · exact h.int var hvar
      · rw [List.mem_singleton.mp hvar, hr]
        rfl
  · unfold assignVars at hlen ⊢
    split
    · exact h.slotted
    · rename_i hnone
      rw [hnone] at hlen
      refine h.slotted.declare ?_ _ _
      simp only [declareVar, List.length_append, List.length_singleton] at hlen
      omega

/-- An assignment updates the store. -/
lemma runStraight_assign (h : Stores base vars env frame) {t t' : StaticType} {name : CStr}
    {right : Expr} {next : Stat} (hfits : Fits base callIndex vars
      (.expr (.binaryOp t .assignment (.ident t' name) right) next)) :
    (∃ v frame', env.eval right = some v ∧
      (vmIsa host).runStraight (assignCode vars name right) frame = .ok frame' ∧
      Stores base (assignVars vars name right) (env.assign name v) frame') ∨
    ((env.InRange right → env.eval right = none) ∧
      ∃ stop, (vmIsa host).runStraight (assignCode vars name right) frame = .error stop) := by
  have hfits' := hfits.next_assign
  obtain ⟨r, hr⟩ := Option.isSome_iff_exists.mp hfits.regular.1
  have hvalue := hfits.fragment.1.value hr
  obtain rfl := valueRep_int hfits.int hfits.fragment.1 hvalue
  have hwords : exprWords right ≤
      scopeWords (.expr (.binaryOp t .assignment (.ident t' name) right) next) := by
    simp only [scopeWords, exprWords]
    omega
  have hlen := h.lt_locals hfits
  have hlen' : (assignVars vars name right).length ≤ frame.locals.length := by
    rw [h.locals]
    exact (length_le_scopeSlots _ next).trans hfits'.locals
  -- the slot: that of the variable, or the first free one
  obtain ⟨slot, hcode, hslot, henv⟩ : ∃ slot : UInt8,
      assignCode vars name right = valueCode vars right ++ [.save .int slot] ∧
      slot.toNat < frame.locals.length ∧ ∀ w : Word,
        envOf (assignVars vars name right) (frame.locals.set slot.toNat w)
          = env.assign name w.bits := by
    unfold assignCode assignVars at *
    cases hvar : lookupVar vars name with
    | some var =>
      obtain ⟨-, hget⟩ := findIdx?_of_lookup hfits.slotted hvar
      obtain ⟨hi, -⟩ := List.getElem?_eq_some_iff.mp hget
      refine ⟨var.index, ?_, by omega, fun w => ?_⟩
      · simp [hr, (operandRep_of_valueRep hvalue).2, hfits.int.lookup hvar, StaticType.rep,
          castCode]
      · rw [envOf_set hfits.slotted hlen hvar, h.env]
    | none =>
      have hslots := hfits'.slots.trans' (length_le_scopeSlots _ _)
      simp only [hvar, declareVar, List.length_append, List.length_singleton] at hlen' hslots
      have hindex : (UInt8.ofNat vars.length).toNat = vars.length := by
        rw [UInt8.toNat_ofNat']
        omega
      refine ⟨UInt8.ofNat vars.length, by simp [hr, (operandRep_of_valueRep hvalue).2],
        by omega, fun w => ?_⟩
      rw [hindex, envOf_declare (by omega) hvar, h.env]
  rw [hcode, JumpIsa.runStraight_append]
  rcases runStraight_int host h hfits hfits.fragment.1 (Option.isSome_of_eq_some hvalue)
      hwords with
    ⟨w, hw, hrun⟩ | ⟨hnone, stop, hrun⟩
  · left
    refine ⟨w.bits, { frame with locals := frame.locals.set slot.toNat w }, hw, ?_, h.stack,
      h.stackSize, ?_, henv w⟩
    · simp only [hrun, runStraight_single, exec_save, if_pos hslot]
    · simp only [List.length_set, h.locals]
  · right
    exact ⟨hnone, stop, by simp only [hrun]⟩

/-! ## Parts of a scope -/

section

variable {expr : Expr} {trueScope falseScope loopScope next : Stat}

/-- A condition that is a value declares nothing. -/
lemma ValueExpr.code {e : Expr} (h : ValueExpr vars e) (callIndex : CStr → UInt16) :
    exprCode callIndex vars e = valueCode vars e ∧ exprVars vars e = vars := by
  obtain ⟨r, hr⟩ := Option.isSome_iff_exists.mp h
  exact ⟨(exprCode_value callIndex hr).1, (exprCode_value callIndex hr).2.1⟩

/-- What an `if` needs, with the variables of its condition. -/
lemma Fits.ifElse (h : Fits base callIndex vars (.ifElse expr trueScope falseScope next)) :
    RegularScope callIndex vars trueScope ∧ RegularScope callIndex vars falseScope ∧
      codeSize (scopeCode callIndex vars trueScope).flatten + 3 ≤ 255 ∧
      codeSize (scopeCode callIndex vars falseScope).flatten ≤ 65535 ∧
      RegularScope callIndex vars next ∧
      scopeSlots vars (.ifElse expr trueScope falseScope next)
        = max (scopeSlots vars trueScope)
          (max (scopeSlots vars falseScope) (scopeSlots vars next)) := by
  have hvars := (h.conds.1.code callIndex).2
  have hregular := h.regular
  rw [RegularScope, hvars] at hregular
  rw [scopeSlots, hvars]
  obtain ⟨-, htrue, hfalse, htrueSize, hfalseSize, hnext⟩ := hregular
  exact ⟨htrue, hfalse, htrueSize, hfalseSize, hnext, rfl⟩

lemma Fits.in_true (h : Fits base callIndex vars (.ifElse expr trueScope falseScope next)) :
    Fits base callIndex vars trueScope where
  fragment := h.fragment.2.1
  regular := h.ifElse.1
  conds := h.conds.2.1
  int := h.int
  slotted := h.slotted
  slots := (le_max_left _ _).trans (h.ifElse.2.2.2.2.2 ▸ h.slots)
  locals := (le_max_left _ _).trans (h.ifElse.2.2.2.2.2 ▸ h.locals)
  room := h.room.mono (by simp only [scopeWords]; omega)

lemma Fits.in_false (h : Fits base callIndex vars (.ifElse expr trueScope falseScope next)) :
    Fits base callIndex vars falseScope where
  fragment := h.fragment.2.2.1
  regular := h.ifElse.2.1
  conds := h.conds.2.2.1
  int := h.int
  slotted := h.slotted
  slots := ((le_max_left _ _).trans (le_max_right _ _)).trans (h.ifElse.2.2.2.2.2 ▸ h.slots)
  locals := ((le_max_left _ _).trans (le_max_right _ _)).trans (h.ifElse.2.2.2.2.2 ▸ h.locals)
  room := h.room.mono (by simp only [scopeWords]; omega)

lemma Fits.next_if (h : Fits base callIndex vars (.ifElse expr trueScope falseScope next)) :
    Fits base callIndex vars next where
  fragment := h.fragment.2.2.2
  regular := h.ifElse.2.2.2.2.1
  conds := h.conds.2.2.2
  int := h.int
  slotted := h.slotted
  slots := ((le_max_right _ _).trans (le_max_right _ _)).trans (h.ifElse.2.2.2.2.2 ▸ h.slots)
  locals := ((le_max_right _ _).trans (le_max_right _ _)).trans (h.ifElse.2.2.2.2.2 ▸ h.locals)
  room := h.room.mono (by simp only [scopeWords]; omega)

lemma Fits.in_loop (h : Fits base callIndex vars (.while expr loopScope next)) :
    Fits base callIndex vars loopScope where
  fragment := h.fragment.2.1
  regular := h.regular.2.1
  conds := h.conds.2.1
  int := h.int
  slotted := h.slotted
  slots := ((le_max_left _ _).trans (le_max_right _ _)).trans h.slots
  locals := ((le_max_left _ _).trans (le_max_right _ _)).trans h.locals
  room := h.room.mono (by simp only [scopeWords]; omega)

lemma Fits.next_while (h : Fits base callIndex vars (.while expr loopScope next)) :
    Fits base callIndex vars next where
  fragment := h.fragment.2.2
  regular := h.regular.2.2.2
  conds := h.conds.2.2
  int := h.int
  slotted := h.slotted
  slots := ((le_max_right _ _).trans (le_max_right _ _)).trans h.slots
  locals := ((le_max_right _ _).trans (le_max_right _ _)).trans h.locals
  room := h.room.mono (by simp only [scopeWords]; omega)

end

/-- The instructions of a scope, without the borders of the chunks. -/
def scopeInstrs (callIndex : CStr → UInt16) (vars : Vars) (stat : Stat) : List Instr :=
  (scopeCode callIndex vars stat).flatten

lemma flatten_singletons_append (code : List Instr) (rest : List (List Instr)) :
    (code.map ([·]) ++ rest).flatten = code ++ rest.flatten := by
  rw [List.flatten_append, ← List.flatMap_def, List.flatMap_singleton']

lemma scopeInstrs_assign (t t' : StaticType) (name : CStr) (right : Expr) (next : Stat) :
    scopeInstrs callIndex vars (.expr (.binaryOp t .assignment (.ident t' name) right) next)
      = assignCode vars name right ++
        scopeInstrs callIndex (assignVars vars name right) next :=
  flatten_singletons_append _ _

lemma scopeInstrs_ifElse {expr : Expr} (hvalue : ValueExpr vars expr)
    (trueScope falseScope next : Stat) :
    scopeInstrs callIndex vars (.ifElse expr trueScope falseScope next)
      = valueCode vars expr ++ ifCode (scopeInstrs callIndex vars trueScope)
          (scopeInstrs callIndex vars falseScope) ++ scopeInstrs callIndex vars next := by
  obtain ⟨hcode, hvars⟩ := hvalue.code callIndex
  rw [scopeInstrs, scopeCode, hcode, hvars, flatten_singletons_append, List.flatten_cons,
    ← List.append_assoc]
  rfl

lemma scopeInstrs_while {expr : Expr} (hvalue : ValueExpr vars expr) (loopScope next : Stat) :
    scopeInstrs callIndex vars (.while expr loopScope next)
      = whileCode (valueCode vars expr) (scopeInstrs callIndex vars loopScope) ++
        scopeInstrs callIndex vars next := by
  rw [scopeInstrs, scopeCode, (hvalue.code callIndex).1]
  rfl

/-! ## The distances of the jumps -/

/-- Where the jumps of an `if` lead. -/
lemma Fits.ifCode_jumps {expr : Expr} {trueScope falseScope next : Stat}
    (h : Fits base callIndex vars (.ifElse expr trueScope falseScope next)) :
    ∃ m n : UInt16, ifCode (scopeInstrs callIndex vars trueScope)
        (scopeInstrs callIndex vars falseScope)
          = .jez m :: scopeInstrs callIndex vars trueScope ++
            .jmp n :: scopeInstrs callIndex vars falseScope ∧
      (m.toNat : ℤ) = (vmIsa host).sizeOf (scopeInstrs callIndex vars trueScope) +
        (vmIsa host).size (.jmp n) ∧
      (n.toNat : ℤ) = (vmIsa host).sizeOf (scopeInstrs callIndex vars falseScope) := by
  have htrue : codeSize (scopeInstrs callIndex vars trueScope) + 3 ≤ 255 := h.ifElse.2.2.1
  have hfalse : codeSize (scopeInstrs callIndex vars falseScope) ≤ 65535 := h.ifElse.2.2.2.1
  refine ⟨_, _, rfl, ?_, ?_⟩
  · have hsize : ∀ n, codeSize [.jmp n] = 3 := fun _ => rfl
    have hsize' : ∀ n, (vmIsa host).size (.jmp n) = 3 := fun _ => rfl
    rw [sizeOf_eq_codeSize, codeSize_append, hsize, hsize', UInt16.toNat_ofNat']
    omega
  · rw [sizeOf_eq_codeSize, UInt16.toNat_ofNat']
    omega

/-- Where the jumps of a `while` lead. -/
lemma Fits.whileCode_jumps {expr : Expr} {loopScope next : Stat}
    (h : Fits base callIndex vars (.while expr loopScope next)) :
    ∃ m n : UInt16, whileCode (valueCode vars expr) (scopeInstrs callIndex vars loopScope)
        = valueCode vars expr ++ .jez m :: scopeInstrs callIndex vars loopScope ++ [.rjmp n] ∧
      (m.toNat : ℤ) = (vmIsa host).sizeOf (scopeInstrs callIndex vars loopScope) +
        (vmIsa host).size (.rjmp n) ∧
      (3 : ℤ) - n.toNat = -((vmIsa host).sizeOf (valueCode vars expr) +
        (vmIsa host).size (.jez m) + (vmIsa host).sizeOf (scopeInstrs callIndex vars loopScope)) := by
  have hsize : codeSize (valueCode vars expr) + codeSize (scopeInstrs callIndex vars loopScope) + 6
      ≤ 255 := by
    have := h.regular.2.2.1
    rwa [(h.conds.1.code callIndex).1] at this
  refine ⟨_, _, rfl, ?_, ?_⟩
  · have hrjmp : ∀ n, (vmIsa host).size (.rjmp n) = 3 := fun _ => rfl
    rw [sizeOf_eq_codeSize, hrjmp, UInt16.toNat_ofNat']
    omega
  · have hjez : ∀ n, (vmIsa host).size (.jez n) = 3 := fun _ => rfl
    rw [sizeOf_eq_codeSize, sizeOf_eq_codeSize, hjez, UInt16.toNat_ofNat']
    omega

/-! ## From the source to the machine -/

/-- A condition that has a value, without an overflow. -/
lemma runs_cond (h : Stores base vars env frame) {stat : Stat}
    (hfits : Fits base callIndex vars stat) {e : Expr} (he : IntExpr e) (hvalue : ValueExpr vars e)
    (hwords : exprWords e ≤ scopeWords stat) {v : BitVec 32} (hv : env.eval e = some v)
    (hrange : env.InRange e) :
    ∃ w, w.bits = v ∧ (vmIsa host).Runs (valueCode vars e) frame (frame.push w) := by
  rcases runStraight_int host h hfits he hvalue hwords with ⟨w, hw, hrun⟩ | ⟨hnone, -⟩
  · rw [hv] at hw
    exact ⟨w, (Option.some.inj hw).symm,
      JumpIsa.runs_straight (fun _ hi => (valueCode_local hvalue hi).straight host) hrun⟩
  · cases hv.symm.trans (hnone hrange)

/-- What the source does without an overflow, the machine does. -/
theorem runs_of_exec {stat : Stat} {env' : Env} (hexec : Exec env stat env')
    (hrange : DividesInRange env stat) (hfits : Fits base callIndex vars stat)
    (h : Stores base vars env frame) :
    ∃ frame', (vmIsa host).Runs (scopeInstrs callIndex vars stat) frame frame' ∧
      Stores base (scopeVars vars stat) env' frame' := by
  induction hexec generalizing vars frame with
  | nil => exact ⟨frame, JumpIsa.runs_nil frame, h⟩
  | @assign env env' t t' name right next value hvalue _ ih =>
    rw [scopeInstrs_assign]
    rcases runStraight_assign host h hfits with ⟨v, f₁, hv, hrun, h₁⟩ | ⟨hnone, -⟩
    · rw [hvalue] at hv
      obtain rfl := Option.some.inj hv
      obtain ⟨f₂, hruns, h₂⟩ := ih (fun _ _ he => hrange _ _ (.assignNext hvalue he))
        hfits.next_assign h₁
      have hassign := JumpIsa.runs_straight (fun _ hi => (assignCode_local hi).straight host) hrun
      exact ⟨f₂, hassign.append hruns, h₂⟩
    · cases hvalue.symm.trans (hnone (hrange _ _ .right))
  | @ifTrue env env₁ env' expr trueScope falseScope next value hvalue hne hexec _ ih₁ ih =>
    obtain ⟨w, rfl, hcond⟩ := runs_cond host h hfits hfits.fragment.1 hfits.conds.1
      (le_max_left _ _) hvalue (hrange _ _ .ifCond)
    obtain ⟨f₁, htrue, h₁⟩ := ih₁ (fun _ _ he => hrange _ _ (.ifTrue hvalue hne he)) hfits.in_true h
    have hrange' : DividesInRange (env₁.take env.length) next :=
      fun _ _ he => hrange _ _ (.ifTrueNext hvalue hne hexec he)
    rw [h.length hfits] at ih hrange'
    obtain ⟨f₂, hnext, h₂⟩ := ih hrange' hfits.next_if h₁.leave
    obtain ⟨m, n, hcode, hm, hn⟩ := hfits.ifCode_jumps host
    have hjez : (vmIsa host).exec (.jez m) (frame.push w)
        = .ok (frame, (vmIsa host).size (.jez m)) := by
      rw [exec_jez, if_neg hne]
      rfl
    have hjmp : (vmIsa host).exec (.jmp n) f₁ = .ok (f₁, (vmIsa host).size (.jmp n) +
        (vmIsa host).sizeOf (scopeInstrs callIndex vars falseScope)) := by
      rw [exec_jmp, hn]
      rfl
    rw [scopeInstrs_ifElse hfits.conds.1, hcode, scopeVars, (hfits.conds.1.code callIndex).2]
    exact ⟨f₂, (hcond.append (JumpIsa.runs_ite_true hjez htrue hjmp)).append hnext, h₂⟩
  | @ifFalse env env₁ env' expr trueScope falseScope next hvalue hexec _ ih₁ ih =>
    obtain ⟨w, hw, hcond⟩ := runs_cond host h hfits hfits.fragment.1 hfits.conds.1
      (le_max_left _ _) hvalue (hrange _ _ .ifCond)
    obtain ⟨f₁, hfalse, h₁⟩ := ih₁ (fun _ _ he => hrange _ _ (.ifFalse hvalue he)) hfits.in_false h
    have hrange' : DividesInRange (env₁.take env.length) next :=
      fun _ _ he => hrange _ _ (.ifFalseNext hvalue hexec he)
    rw [h.length hfits] at ih hrange'
    obtain ⟨f₂, hnext, h₂⟩ := ih hrange' hfits.next_if h₁.leave
    obtain ⟨m, n, hcode, hm, hn⟩ := hfits.ifCode_jumps host
    have hjez : (vmIsa host).exec (.jez m) (frame.push w) = .ok (frame, (vmIsa host).size (.jez m) +
        (vmIsa host).sizeOf (scopeInstrs callIndex vars trueScope) +
          (vmIsa host).size (.jmp n)) := by
      rw [exec_jez, if_pos hw, hm, ← add_assoc]
      rfl
    rw [scopeInstrs_ifElse hfits.conds.1, hcode, scopeVars, (hfits.conds.1.code callIndex).2]
    exact ⟨f₂, (hcond.append (JumpIsa.runs_ite_false hjez hfalse)).append hnext, h₂⟩
  | @whileTrue env env₁ env' expr loopScope next value hvalue hne hexec _ ih₁ ih =>
    obtain ⟨w, rfl, hcond⟩ := runs_cond host h hfits hfits.fragment.1 hfits.conds.1
      (le_max_left _ _) hvalue (hrange _ _ .whileCond)
    obtain ⟨f₁, hbody, h₁⟩ := ih₁ (fun _ _ he => hrange _ _ (.whileBody hvalue hne he)) hfits.in_loop h
    have hrange' : DividesInRange (env₁.take env.length) (.while expr loopScope next) :=
      fun _ _ he => hrange _ _ (.whileAgain hvalue hne hexec he)
    rw [h.length hfits] at ih hrange'
    -- the loop runs again from the store that is left
    obtain ⟨f₂, hloop, h₂⟩ := ih hrange' hfits h₁.leave
    obtain ⟨m, n, hcode, hm, hn⟩ := hfits.whileCode_jumps host
    have hjez : (vmIsa host).exec (.jez m) (frame.push w)
        = .ok (frame, (vmIsa host).size (.jez m)) := by
      rw [exec_jez, if_neg hne]
      rfl
    have hrjmp : (vmIsa host).exec (.rjmp n) f₁ = .ok (f₁,
        -((vmIsa host).sizeOf (valueCode vars expr) + (vmIsa host).size (.jez m) +
          (vmIsa host).sizeOf (scopeInstrs callIndex vars loopScope) : ℤ)) := by
      rw [exec_rjmp, hn]
    rw [scopeInstrs_while hfits.conds.1, hcode] at hloop ⊢
    exact ⟨f₂, JumpIsa.runs_loop_true hcond hjez hbody hrjmp hloop, h₂⟩
  | @whileFalse env env' expr loopScope next hvalue _ ih =>
    obtain ⟨w, hw, hcond⟩ := runs_cond host h hfits hfits.fragment.1 hfits.conds.1
      (le_max_left _ _) hvalue (hrange _ _ .whileCond)
    obtain ⟨f₂, hnext, h₂⟩ := ih (fun _ _ he => hrange _ _ (.whileNext hvalue he)) hfits.next_while h
    obtain ⟨m, n, hcode, hm, hn⟩ := hfits.whileCode_jumps host
    have hjez : (vmIsa host).exec (.jez m) (frame.push w) = .ok (frame, (vmIsa host).size (.jez m) +
        (vmIsa host).sizeOf (scopeInstrs callIndex vars loopScope) +
          (vmIsa host).size (.rjmp n)) := by
      rw [exec_jez, if_pos hw, hm, ← add_assoc]
      rfl
    rw [scopeInstrs_while hfits.conds.1, hcode]
    exact ⟨f₂, (JumpIsa.runs_loop_false hcond hjez).append hnext, h₂⟩

/-! ## From the machine to the source -/

/-- A frame like `base` in which a condition has just been computed. -/
def Tested (base : Frame) (vars : Vars) (env : Env) (e : Expr) (frame : Frame) : Prop :=
  ∃ w frame₀, frame = frame₀.push w ∧ env.eval e = some w.bits ∧ Stores base vars env frame₀

/-- The code of a condition leaves its value, or stops. -/
lemma block_cond {stat : Stat} (hfits : Fits base callIndex vars stat) {e : Expr} (he : IntExpr e)
    (hvalue : ValueExpr vars e) (hwords : exprWords e ≤ scopeWords stat) (env : Env) :
    (vmIsa host).Block anyStop (Stores base vars env) (valueCode vars e)
      (Tested base vars env e) := by
  refine JumpIsa.block_straight (fun _ hi => (valueCode_local hvalue hi).straight host)
    fun f h => ?_
  rcases runStraight_int host h hfits he hvalue hwords with ⟨w, hw, hrun⟩ | ⟨-, stop, hrun⟩
  · rw [hrun]
    exact ⟨w, f, rfl, hw, h⟩
  · rw [hrun]
    trivial

/-- The branch that a conditional jump takes. -/
lemma effect_jez {e : Expr} (h : Tested base vars env e frame) {m : UInt16} {d : ℤ}
    (hm : (m.toNat : ℤ) = d) :
    JumpIsa.Effect anyStop (fun u k =>
      (k = (vmIsa host).size (.jez m) ∧
        (∃ v, v ≠ 0 ∧ env.eval e = some v) ∧ Stores base vars env u) ∨
      (k = (vmIsa host).size (.jez m) + d ∧ env.eval e = some 0 ∧ Stores base vars env u))
      ((vmIsa host).exec (.jez m) frame) := by
  obtain ⟨w, frame₀, rfl, hw, hstores⟩ := h
  rw [exec_jez]
  by_cases hzero : w.bits = 0
  · rw [if_pos hzero, hm]
    rw [hzero] at hw
    exact .inr ⟨rfl, hw, hstores⟩
  · rw [if_neg hzero]
    exact .inl ⟨rfl, ⟨w.bits, hzero, hw⟩, hstores⟩

/-- The statements of the fragment that are expressions. -/
lemma IntStat.assignment {e : Expr} {next : Stat} (h : IntStat (.expr e next)) :
    ∃ t t' name right, e = .binaryOp t .assignment (.ident t' name) right := by
  unfold IntStat at h
  split at h
  · cases ‹Stat.expr e next = .nil›
  · rename_i t t' name right next' heq
    cases heq
    exact ⟨t, t', name, right, rfl⟩
  · cases ‹Stat.expr e next = _›
  · cases ‹Stat.expr e next = _›
  · exact h.elim

/-- What the machine does, the source does: the end of the code is only reached with a store
that the source ends in. -/
theorem block_of_exec {stat : Stat} (hfits : Fits base callIndex vars stat) (env : Env) :
    (vmIsa host).Block anyStop (Stores base vars env) (scopeInstrs callIndex vars stat)
      (fun f => ∃ env', Exec env stat env' ∧ Stores base (scopeVars vars stat) env' f) := by
  induction stat generalizing vars env with
  | nil => exact (JumpIsa.block_nil _).mono (fun _ h => h) fun f h => ⟨env, .nil, h⟩
  | expr e next ih =>
    obtain ⟨t, t', name, right, rfl⟩ := hfits.fragment.assignment
    rw [scopeInstrs_assign]
    have hassign : (vmIsa host).Block anyStop (Stores base vars env) (assignCode vars name right)
        (fun f => ∃ v, env.eval right = some v ∧
          Stores base (assignVars vars name right) (env.assign name v) f) := by
      refine JumpIsa.block_straight (fun _ hi => (assignCode_local hi).straight host) fun f h => ?_
      rcases runStraight_assign host h hfits with ⟨v, f₁, hv, hrun, h₁⟩ | ⟨-, stop, hrun⟩
      · rw [hrun]
        exact ⟨v, hv, h₁⟩
      · rw [hrun]
        trivial
    refine hassign.append (JumpIsa.block_exists fun v => JumpIsa.block_pure fun hv => ?_)
    refine (ih hfits.next_assign (env.assign name v)).mono (fun _ h => h) ?_
    rintro f ⟨env', hexec, h⟩
    exact ⟨env', .assign hv hexec, h⟩
  | ifElse e trueScope falseScope next iht ihf ih =>
    obtain ⟨m, n, hcode, hm, hn⟩ := hfits.ifCode_jumps host
    rw [scopeInstrs_ifElse hfits.conds.1, hcode, scopeVars, (hfits.conds.1.code callIndex).2]
    suffices hblock : env.length = vars.length → _ from
      (JumpIsa.block_pure hblock).mono (fun f h => ⟨h.length hfits, h⟩) fun _ h => h
    intro hlen
    have hcond := block_cond host hfits hfits.fragment.1 hfits.conds.1 (le_max_left _ _) env
    -- behind the branches: a store from which the rest finishes the whole statement
    let Joined : Frame → Prop := fun f => ∃ env₁,
      (∀ env', Exec env₁ next env' → Exec env (.ifElse e trueScope falseScope next) env') ∧
        Stores base vars env₁ f
    have htrue : (vmIsa host).Block anyStop
        (fun u => (∃ v, v ≠ 0 ∧ env.eval e = some v) ∧ Stores base vars env u)
        (scopeInstrs callIndex vars trueScope) Joined := by
      refine JumpIsa.block_pure fun ⟨v, hne, hv⟩ => ?_
      refine (iht hfits.in_true env).mono (fun _ h => h) ?_
      rintro f ⟨env₁, hexec, h⟩
      refine ⟨env₁.take vars.length, fun env' hnext => ?_, h.leave⟩
      rw [← hlen] at hnext
      exact .ifTrue hv hne hexec hnext
    have hfalse : (vmIsa host).Block anyStop
        (fun u => env.eval e = some 0 ∧ Stores base vars env u)
        (scopeInstrs callIndex vars falseScope) Joined := by
      refine JumpIsa.block_pure fun hv => ?_
      refine (ihf hfits.in_false env).mono (fun _ h => h) ?_
      rintro f ⟨env₁, hexec, h⟩
      refine ⟨env₁.take vars.length, fun env' hnext => ?_, h.leave⟩
      rw [← hlen] at hnext
      exact .ifFalse hv hexec hnext
    have hbranches := JumpIsa.block_ite (P := Tested base vars env e)
      (fun f h => (effect_jez host h hm).mono fun u d hu => by rwa [← add_assoc] at hu) htrue
      (fun f h => by
        rw [exec_jmp, hn]
        exact ⟨rfl, h⟩) hfalse
    refine (hcond.append hbranches).append (JumpIsa.block_exists fun env₁ =>
      JumpIsa.block_pure fun hcont => ?_)
    refine (ih hfits.next_if env₁).mono (fun _ h => h) ?_
    rintro f ⟨env', hexec, h⟩
    exact ⟨env', hcont env' hexec, h⟩
  | «while» e loopScope next ihl ih =>
    obtain ⟨m, n, hcode, hm, hn⟩ := hfits.whileCode_jumps host
    rw [scopeInstrs_while hfits.conds.1, hcode]
    -- in front of the condition: a store from which the loop finishes as from `env`
    let Again : Env → Prop := fun envk =>
      ∀ env', Exec envk (.while e loopScope next) env' → Exec env (.while e loopScope next) env'
    let Done : Frame → Prop := fun f => ∃ env₁,
      (∀ env', Exec env₁ next env' → Exec env (.while e loopScope next) env') ∧
        Stores base vars env₁ f
    have hcond : (vmIsa host).Block anyStop (fun f => ∃ envk, Again envk ∧ Stores base vars envk f)
        (valueCode vars e) (fun f => ∃ envk, Again envk ∧ Tested base vars envk e f) := by
      refine JumpIsa.block_exists fun envk => JumpIsa.block_pure fun hagain => ?_
      exact (block_cond host hfits hfits.fragment.1 hfits.conds.1 (le_max_left _ _) envk).mono
        (fun _ h => h) fun f h => ⟨envk, hagain, h⟩
    have hbody : (vmIsa host).Block anyStop
        (fun f => ∃ envk, (Again envk ∧ envk.length = vars.length ∧
          ∃ v, v ≠ 0 ∧ envk.eval e = some v) ∧ Stores base vars envk f)
        (scopeInstrs callIndex vars loopScope)
        (fun f => ∃ envk, Again envk ∧ Stores base vars envk f) := by
      refine JumpIsa.block_exists fun envk => JumpIsa.block_pure ?_
      rintro ⟨hagain, hlen, v, hne, hv⟩
      refine (ihl hfits.in_loop envk).mono (fun _ h => h) ?_
      rintro f ⟨env₁, hexec, h⟩
      refine ⟨env₁.take vars.length, fun env' hloop => hagain env' ?_, h.leave⟩
      rw [← hlen] at hloop
      exact .whileTrue hv hne hexec hloop
    have hloop : (vmIsa host).Block anyStop
        (fun f => ∃ envk, Again envk ∧ Stores base vars envk f)
        (valueCode vars e ++ .jez m :: scopeInstrs callIndex vars loopScope ++ [.rjmp n]) Done := by
      refine JumpIsa.block_loop hcond ?_ hbody ?_
      · rintro f ⟨envk, hagain, h⟩
        refine (effect_jez host h hm).mono fun u d hu => ?_
        rcases hu with ⟨hd, hv, hu⟩ | ⟨hd, hv, hu⟩
        · exact .inl ⟨hd, envk, ⟨hagain, hu.length hfits, hv⟩, hu⟩
        · exact .inr ⟨by rw [hd, add_assoc], envk,
            fun env' hnext => hagain env' (.whileFalse hv hnext), hu⟩
      · rintro f hf
        rw [exec_rjmp]
        exact ⟨hn, hf⟩
    have henter : ∀ f, Stores base vars env f → ∃ envk, Again envk ∧ Stores base vars envk f :=
      fun f h => ⟨env, fun _ hexec => hexec, h⟩
    refine (hloop.mono henter fun _ h => h).append (JumpIsa.block_exists fun env₁ =>
      JumpIsa.block_pure fun hcont => ?_)
    refine (ih hfits.next_while env₁).mono (fun _ h => h) ?_
    rintro f ⟨env', hexec, h⟩
    exact ⟨env', hcont env' hexec, h⟩
  | other next => exact hfits.fragment.elim
  | notScope stat => exact hfits.fragment.elim

/-- The fragment has no calls. -/
lemma isCall_scopeInstrs {stat : Stat} (hstat : IntStat stat) (hconds : ValueConds vars stat) :
    ∀ i ∈ scopeInstrs callIndex vars stat, i.isCall = false := by
  have hcond : ∀ {vars : Vars} {e : Expr} {i : Instr}, ValueExpr vars e → i ∈ valueCode vars e →
      i.isCall = false := fun hvalue hi => (valueCode_local hvalue hi).1
  induction stat generalizing vars with
  | nil =>
    intro i hi
    cases hi
  | expr e next ih =>
    obtain ⟨t, t', name, right, rfl⟩ := hstat.assignment
    intro i hi
    rw [scopeInstrs_assign, List.mem_append] at hi
    rcases hi with hi | hi
    · exact (assignCode_local hi).1
    · exact ih hstat.2 hconds i hi
  | ifElse e trueScope falseScope next iht ihf ih =>
    intro i hi
    simp only [scopeInstrs_ifElse hconds.1, ifCode, List.mem_append, List.mem_cons] at hi
    rcases hi with (hi | rfl | hi | rfl | hi) | hi
    · exact hcond hconds.1 hi
    · rfl
    · exact iht hstat.2.1 hconds.2.1 i hi
    · rfl
    · exact ihf hstat.2.2.1 hconds.2.2.1 i hi
    · exact ih hstat.2.2.2 hconds.2.2.2 i hi
  | «while» e loopScope next ihl ih =>
    intro i hi
    simp only [scopeInstrs_while hconds.1, whileCode, List.mem_append, List.mem_cons, List.not_mem_nil,
      or_false] at hi
    rcases hi with ((hi | rfl | hi) | rfl) | hi
    · exact hcond hconds.1 hi
    · rfl
    · exact ihl hstat.2.1 hconds.2.1 i hi
    · rfl
    · exact ih hstat.2.2 hconds.2.2 i hi
  | other next => exact hstat.elim
  | notScope stat => exact hstat.elim

end

/-! ## Preservation -/

/-- The source goes at most one way. -/
lemma Exec.deterministic {stat : Stat} {env env₁ env₂ : Env} (h₁ : Exec env stat env₁)
    (h₂ : Exec env stat env₂) : env₁ = env₂ := by
  induction h₁ generalizing env₂ with
  | nil =>
    cases h₂
    rfl
  | assign hv _ ih =>
    cases h₂ with
    | assign hv' h =>
      rw [hv] at hv'
      cases hv'
      exact ih h
  | ifTrue hv hne _ _ ih₁ ih =>
    cases h₂ with
    | ifTrue _ _ h h' =>
      obtain rfl := ih₁ h
      exact ih h'
    | ifFalse hv' _ _ =>
      rw [hv] at hv'
      exact absurd (Option.some.inj hv') hne
  | ifFalse hv _ _ ih₁ ih =>
    cases h₂ with
    | ifTrue hv' hne _ _ =>
      rw [hv] at hv'
      exact absurd (Option.some.inj hv').symm hne
    | ifFalse _ h h' =>
      obtain rfl := ih₁ h
      exact ih h'
  | whileTrue hv hne _ _ ih₁ ih =>
    cases h₂ with
    | whileTrue _ _ h h' =>
      obtain rfl := ih₁ h
      exact ih h'
    | whileFalse hv' _ =>
      rw [hv] at hv'
      exact absurd (Option.some.inj hv') hne
  | whileFalse hv _ ih =>
    cases h₂ with
    | whileTrue hv' hne _ _ =>
      rw [hv] at hv'
      exact absurd (Option.some.inj hv').symm hne
    | whileFalse _ h => exact ih h

/-- The bytes that a supported scope leaves in a fresh emitter. -/
lemma sunk_compileScope {fuel p : ℕ} {stat : Stat} {vars : Vars} {s s' : CompilerState}
    {code : List UInt8} (hp : 0 < p)
    (hemitter : s.chain.scope.emitter = .buffered (compilerEmitterBufferedNew p))
    (hvis : s.chain.Visible vars) (hu : stat.Untraced)
    (hreg : RegularScope s.callIndex vars stat) (hcompile : compileScope fuel stat s = .ok () s')
    (hcode : s'.sunk = some code) : code = encodeAll (scopeInstrs s.callIndex vars stat) := by
  obtain ⟨⟨newVars, em, ev, m, hem, rfl⟩, -⟩ := compileScope_coded stat hu hreg hvis hcompile
  rw [hemitter] at hem
  obtain ⟨e, rfl, -, he⟩ := emitChunks_new hp hem
  have hsunk : compilerEmitterSink e = some code := hcode
  rw [compilerEmitterSink_eq he, flatten_scopeChunks] at hsunk
  exact (Option.some.inj hsunk).symm

/-- The code of a scope of assignments, `if` and `while` over `int` variables returns exactly if
the source finishes, with the same value in each variable that is visible at the end, if the
conditions and right sides read declared variables, no division that is evaluated overflows, the
blocks are short enough for the encoding of their jumps, and at most 256 variables are visible at
a time. -/
theorem compileScope_preserves {vm : Vm} {fuel p : ℕ} {stat : Stat} {vars : Vars}
    {s s' : CompilerState} {code : List UInt8} {frame : Frame} (hp : 0 < p)
    (hemitter : s.chain.scope.emitter = .buffered (compilerEmitterBufferedNew p))
    (hvis : s.chain.Visible vars) (hslotted : Slotted vars) (hint : IntVars vars)
    (hstat : IntStat stat) (hu : stat.Untraced) (hreg : RegularScope s.callIndex vars stat)
    (hconds : ValueConds vars stat) (hslots : scopeSlots vars stat ≤ 256)
    (hcompile : compileScope fuel stat s = .ok () s')
    (hcode : s'.sunk = some code) (hlocals : scopeSlots vars stat ≤ frame.locals.length)
    (hroom : frame.Room (scopeWords stat))
    (hrange : DividesInRange (envOf vars frame.locals) stat) :
    ((∃ frame', VmRuns host vm frame code frame') ↔
      ∃ env', Exec (envOf vars frame.locals) stat env') ∧
    ∀ frame' env', VmRuns host vm frame code frame' → Exec (envOf vars frame.locals) stat env' →
      envOf (scopeVars vars stat) frame'.locals = env' := by
  obtain rfl := sunk_compileScope hp hemitter hvis hu hreg hcompile hcode
  have hfits : Fits frame s.callIndex vars stat :=
    ⟨hstat, hreg, hconds, hint, hslotted, hslots, hlocals, hroom⟩
  have hcalls : ∀ i ∈ scopeInstrs s.callIndex vars stat, i.isCall = false :=
    isCall_scopeInstrs hstat hconds
  have hstores : Stores frame vars (envOf vars frame.locals) frame := ⟨rfl, rfl, rfl, rfl⟩
  have hback : ∀ frame', VmRuns host vm frame (encodeAll (scopeInstrs s.callIndex vars stat)) frame' →
      ∃ env', Exec (envOf vars frame.locals) stat env' ∧
        Stores frame (scopeVars vars stat) env' frame' :=
    fun frame' hruns => vmRuns_block (block_of_exec host hfits _) hstores hruns
  refine ⟨⟨?_, ?_⟩, ?_⟩
  · rintro ⟨frame', hruns⟩
    obtain ⟨env', hexec, -⟩ := hback frame' hruns
    exact ⟨env', hexec⟩
  · rintro ⟨env', hexec⟩
    obtain ⟨frame', hruns, -⟩ := runs_of_exec host hexec hrange hfits hstores
    exact ⟨frame', vmRuns_of_runs hcalls hruns⟩
  · intro frame' env' hruns hexec
    obtain ⟨env₁, hexec₁, h⟩ := hback frame' hruns
    rw [hexec.deterministic hexec₁, h.env]

/-- The statement `x = value`. -/
def assignLit (name : UInt8) (value : BitVec 32) (next : Stat) : Stat :=
  .expr (.binaryOp .unknwn .assignment (.ident .unknwn [name]) (.literalInt value)) next

lemma visible_compilerInit (isInteractive : Bool) :
    (compilerInit isInteractive).chain.Visible [] := ⟨fun _ => rfl, rfl⟩

/-- A scope compiled for the root frame of a script, and run there. -/
def scopeRun (fuel steps : ℕ) (stat : Stat) : Option (List UInt8 × Frame) :=
  match compileScope fuel stat (compilerInit false) with
  | .error _ _ => none
  | .ok _ s => s.sunk.bind fun code =>
    (vmRun zeroHost vmStaticInit steps (vmStart (rootFrame zeroHost) code)).map fun frame =>
      (code, frame)

lemma scopeRun_eq_some {fuel steps : ℕ} {stat : Stat} {code : List UInt8} {frame' : Frame}
    (h : scopeRun fuel steps stat = some (code, frame')) :
    ∃ s', compileScope fuel stat (compilerInit false) = .ok () s' ∧ s'.sunk = some code ∧
      VmRuns zeroHost vmStaticInit (rootFrame zeroHost) code frame' := by
  unfold scopeRun at h
  cases hcompile : compileScope fuel stat (compilerInit false) with
  | error e s => simp [hcompile] at h
  | ok u s' =>
    simp only [hcompile, Option.bind_eq_some_iff, Option.map_eq_some_iff, Prod.mk.injEq] at h
    obtain ⟨code', hcode, frame'', hrun, rfl, rfl⟩ := h
    exact ⟨s', rfl, hcode, vmRuns_of_vmRun _ hrun⟩

/-- Where no expression can overflow, none that is evaluated does. -/
lemma dividesInRange_of_each {vars : Vars} {stat : Stat}
    (h : EachExpr (fun _ e => ∀ env : Env, env.InRange e) vars stat) (env : Env) :
    DividesInRange env stat := by
  intro env₁ e he
  induction he generalizing vars with
  | right => exact (h.1 _).2.1
  | assignNext _ _ ih => exact ih h.2
  | ifCond => exact h.1 _
  | ifTrue _ _ _ ih => exact ih h.2.1
  | ifTrueNext _ _ _ _ ih => exact ih h.2.2.2
  | ifFalse _ _ ih => exact ih h.2.2.1
  | ifFalseNext _ _ _ ih => exact ih h.2.2.2
  | whileCond => exact h.1 _
  | whileBody _ _ _ ih => exact ih h.2.1
  | whileAgain _ _ _ _ ih => exact ih h
  | whileNext _ _ ih => exact ih h.2.2

/-- `x = 3; y = 0; while x { if x == 2 { y = 6 / x } else { y = x } x = x - 1 }` -/
def rounds : Stat :=
  let x : Expr := .ident .unknwn [120]
  let saveY (e : Expr) : Stat :=
    .expr (.binaryOp .unknwn .assignment (.ident .unknwn [121]) e) .nil
  assignLit 120 3 <| assignLit 121 0 <| .while x
    (.ifElse (.binaryOp .unknwn .equalTo x (.literalInt 2))
      (saveY (.binaryOp .unknwn .division (.literalInt 6) x)) (saveY x)
      (.expr (.binaryOp .unknwn .assignment x (.binaryOp .unknwn .subtraction x (.literalInt 1)))
        .nil)) .nil

/-- Three rounds of a loop, with both branches. -/
theorem compileScope_preserves_rounds : ∃ s' code frame',
    compileScope 5 rounds (compilerInit false) = .ok () s' ∧ s'.sunk = some code ∧
      VmRuns zeroHost vmStaticInit (rootFrame zeroHost) code frame' ∧
      Exec (envOf [] (rootFrame zeroHost).locals) rounds [([120], 0), ([121], 1)] ∧
      envOf (scopeVars [] rounds) frame'.locals = [([120], 0), ([121], 1)] := by
  have hrun : (scopeRun 5 200 rounds).map (fun r => envOf (scopeVars [] rounds) r.2.locals)
      = some [([120], 0), ([121], 1)] := by decide +kernel
  obtain ⟨⟨code, frame'⟩, hrun, hresult⟩ := Option.map_eq_some_iff.mp hrun
  obtain ⟨s', hcompile, hcode, hruns⟩ := scopeRun_eq_some hrun
  have hrange : DividesInRange (envOf [] (rootFrame zeroHost).locals) rounds := by
    apply dividesInRange_of_each (show EachExpr _ [] rounds from ?_)
    simp [rounds, assignLit, EachExpr, Env.InRange, Env.eval, quotientOverflows]
    intro env a b ha _ hmin
    rw [← ha] at hmin
    exact absurd hmin (by decide)
  have hregular : RegularScope (compilerInit false).callIndex [] rounds := by
    simp [rounds, assignLit, RegularScope, RegularExpr]
    decide
  have hconds : ValueConds [] rounds := by
    simp [rounds, assignLit, ValueConds, ValueExpr]
    decide
  obtain ⟨⟨hends, -⟩, hvalues⟩ := @compileScope_preserves zeroHost vmStaticInit 5 _ rounds [] _ s'
    code (rootFrame zeroHost) (by decide) rfl (visible_compilerInit false)
    (fun i var hvar => by simp at hvar) (fun var hvar => by simp at hvar)
    (by simp [rounds, assignLit, IntStat, IntExpr, valueOp])
    (by simp [rounds, assignLit, Stat.Untraced, Expr.Untraced]) hregular hconds (by decide) hcompile
    hcode (by rw [length_rootFrame_locals]; decide) (rootFrame_room zeroHost (by decide)) hrange
  obtain ⟨env', hexec⟩ := hends ⟨frame', hruns⟩
  obtain rfl := (hvalues frame' env' hruns hexec).symm
  refine ⟨s', code, frame', hcompile, hcode, hruns, ?_, hresult⟩
  rw [← hresult]
  exact hexec

/-- `y = x` -/
def copyX (next : Stat) : Stat :=
  .expr (.binaryOp .unknwn .assignment (.ident .unknwn [121]) (.ident .unknwn [120])) next

/-- `x = 0; if 0 { x = 1; …; y = x; y = x; }` with 253 bytes of code in the block. -/
def skippedBlock : Stat :=
  assignLit 120 0 <| .ifElse (.literalInt 0)
    (Nat.iterate (assignLit 120 1) 35 (copyX (copyX .nil))) .nil .nil

/-- The skipped block is executed: `x` ends as 1 in the machine and as 0 in the source. -/
theorem scope_not_preserved : ∃ s' code frame' env',
    IntStat skippedBlock ∧ skippedBlock.Untraced ∧
      compileScope 3 skippedBlock (compilerInit false) = .ok () s' ∧ s'.sunk = some code ∧
      code.length ≤ uint16Max ∧
      VmRuns zeroHost vmStaticInit (rootFrame zeroHost) code frame' ∧
      Exec (envOf [] (rootFrame zeroHost).locals) skippedBlock env' ∧
      envOf (scopeVars [] skippedBlock) frame'.locals ≠ env' := by
  have hall : (scopeRun 3 200 skippedBlock).map (fun r =>
      (r.1.length, envOf (scopeVars [] skippedBlock) r.2.locals)) = some (271, [([120], 1)]) := by
    decide +kernel
  obtain ⟨⟨code, frame'⟩, hrun, hresult⟩ := Option.map_eq_some_iff.mp hall
  simp only [Prod.mk.injEq] at hresult
  obtain ⟨s', hcompile, hcode, hruns⟩ := scopeRun_eq_some hrun
  have hexec : Exec (envOf [] (rootFrame zeroHost).locals) skippedBlock [([120], 0)] :=
    .assign rfl (.ifFalse rfl .nil .nil)
  refine ⟨s', code, frame', _, ?_, ?_, hcompile, hcode, ?_, hruns, hexec, ?_⟩
  · simp [skippedBlock, assignLit, copyX, IntStat, IntExpr]
  · simp [skippedBlock, assignLit, copyX, Stat.Untraced, Expr.Untraced]
  · rw [hresult.1]
    decide
  · rw [hresult.2]
    decide

end PhantomShell
