import PhantomShell.Compiler.FuelTheorems
import PhantomShell.Compiler.ValueTheorems
import PhantomShell.Vm.Outcomes

/-!
# Script mode and interactive mode

Without an interactive terminal the root emitter keeps the chunks for the end of the file, where
`compiler_finish` does nothing with them. So a script executes nothing, and agrees with the
interactive session on the programs that leave no trace there.
-/

namespace PhantomShell

variable {host : Host}

/-- The events of a program up to the end of the file. -/
def finishedEvents (fuel : ℕ) (isInteractive : Bool) (program : List TopLevel) :
    Option (List Event) :=
  match (compileProgram fuel program >>= fun _ => compilerFinish) (compilerInit isInteractive) with
  | .ok _ s => some s.events
  | .error _ _ => none

lemma finishedEvents_eq_some {fuel : ℕ} {isInteractive : Bool} {program : List TopLevel}
    {events : List Event} (h : finishedEvents fuel isInteractive program = some events) :
    ∃ s, compileProgram fuel program (compilerInit isInteractive) = .ok () s ∧
      s.events = events := by
  unfold finishedEvents at h
  cases hfinish : (compileProgram fuel program >>= fun _ => compilerFinish)
      (compilerInit isInteractive) with
  | ok ret s =>
    rw [hfinish] at h
    obtain ⟨_, s₁, hcompile, hpure⟩ := estate_bind_eq_ok.mp hfinish
    obtain ⟨-, rfl⟩ := estate_pure_eq_ok.mp hpure
    exact ⟨s₁, hcompile, Option.some.inj h⟩
  | error e s =>
    rw [hfinish] at h
    cases h

/-! ## Scripts execute nothing -/

/-- The event is not the execution of a chunk. -/
def Event.IsRegister : Event → Prop
  | .execute _ => False
  | .register _ _ => True

/-- The root emitter keeps its chunks, and nothing was executed. -/
structure Silent (s : CompilerState) : Prop where
  emitter : ∃ e, s.chain.scope.emitter = .buffered e
  events : ∀ event ∈ s.events, event.IsRegister

/-- Chunks of a buffered emitter are no events. -/
lemma Silent.advanced {s s' : CompilerState} (h : Silent s) {chunks : List (List UInt8)}
    {account : ℕ × ℕ} {newVars : List ScopeVar} (hadv : Advanced s chunks account newVars s') :
    Silent s' := by
  obtain ⟨e, he⟩ := h.emitter
  refine ⟨?_, by rw [hadv.events_eq he]; exact h.events⟩
  obtain ⟨emitter, events, m, hem, rfl⟩ := hadv
  rw [he, emitChunks_buffered, Option.map_eq_some_iff] at hem
  obtain ⟨e', -, hem⟩ := hem
  cases hem
  exact ⟨e', rfl⟩

/-- A function is registered from a chain of its own. -/
lemma Silent.func {fuel : ℕ} {node : DeclFunc} {s s' : CompilerState} {ret : ℤ} (h : Silent s)
    (hfunc : compileFunc fuel node s = .ok ret s') : Silent s' := by
  obtain ⟨hchain, varsMaxSize, stackMaxSize, body, hevents⟩ := compileFunc_chain hfunc
  refine ⟨hchain ▸ h.emitter, fun event hevent => ?_⟩
  rw [hevents] at hevent
  rcases List.mem_append.mp hevent with hold | hnew
  · exact h.events event hold
  · rw [List.mem_singleton.mp hnew]
    trivial

/-- The run lemma: compiling a script executes nothing. -/
theorem Silent.program {fuel : ℕ} {program : List TopLevel} {s s' : CompilerState} (h : Silent s)
    (hcompile : compileProgram fuel program s = .ok () s') : Silent s' := by
  induction program generalizing s with
  | nil =>
    obtain ⟨-, rfl⟩ := estate_pure_eq_ok.mp hcompile
    exact h
  | cons node program ih =>
    obtain ⟨ret, s₁, h₁, hrest⟩ := compileProgram_cons hcompile
    refine ih ?_ hrest
    cases node with
    | stat stat =>
      obtain ⟨_, _, _, hadv⟩ := grower_statement fuel stat _ _ _ h₁
      exact h.advanced hadv
    | func func => exact h.func h₁

/-- Registrations leave the root frame as it is, whatever it contains. -/
lemma SessionEnds.silent {vm vm' : Vm} {frame frame' : Frame} {events : List Event}
    (h : SessionEnds host vm frame events vm' frame')
    (hevents : ∀ event ∈ events, event.IsRegister) :
    frame' = frame ∧ ∀ frame, SessionEnds host vm frame events vm' frame := by
  induction h with
  | nil => exact ⟨rfl, fun _ => .nil⟩
  | execute _ _ _ => exact (hevents _ List.mem_cons_self).elim
  | register hregister _ ih =>
    obtain ⟨rfl, hends⟩ := ih fun event hevent => hevents event (List.mem_cons_of_mem _ hevent)
    exact ⟨rfl, fun frame => .register hregister (hends frame)⟩

/-! ## Programs without slots -/

section

variable (host : Host)

/-- The code runs from one stack to the other in a frame that has no slots. -/
def LeadsTo (code : List Instr) (stack stack' : List Word) : Prop :=
  (vmIsa host).runStraight code ⟨stack, 1024, []⟩ = .ok ⟨stack', 1024, []⟩

/-- Big steps where no variable is visible: the statements take one stack to the other, and neither
load nor save a word on their way. -/
inductive Slotless : List Word → Stat → List Word → Prop
  | nil {stack : List Word} : Slotless stack .nil stack
  | other {stack : List Word} {next : Stat} : Slotless stack (.other next) stack
  | notScope {stack : List Word} {stat : Stat} : Slotless stack (.notScope stat) stack
  | expr {stack stack₁ stack' : List Word} {e : Expr} {next : Stat} :
      LeadsTo host (exprCode (fun _ => 0) [] e) stack stack₁ → Slotless stack₁ next stack' →
      Slotless stack (.expr e next) stack'
  | ifTrue {stack stack₁ stack₂ stack' : List Word} {w : Word} {e : Expr}
      {trueScope falseScope next : Stat} :
      LeadsTo host (exprCode (fun _ => 0) [] e) stack (w :: stack₁) → w.bits ≠ 0 →
      Slotless stack₁ trueScope stack₂ → Slotless stack₂ next stack' →
      Slotless stack (.ifElse e trueScope falseScope next) stack'
  | ifFalse {stack stack₁ stack₂ stack' : List Word} {w : Word} {e : Expr}
      {trueScope falseScope next : Stat} :
      LeadsTo host (exprCode (fun _ => 0) [] e) stack (w :: stack₁) → w.bits = 0 →
      Slotless stack₁ falseScope stack₂ → Slotless stack₂ next stack' →
      Slotless stack (.ifElse e trueScope falseScope next) stack'
  | whileTrue {stack stack₁ stack₂ stack' : List Word} {w : Word} {e : Expr}
      {loopScope next : Stat} :
      LeadsTo host (exprCode (fun _ => 0) [] e) stack (w :: stack₁) → w.bits ≠ 0 →
      Slotless stack₁ loopScope stack₂ → Slotless stack₂ (.while e loopScope next) stack' →
      Slotless stack (.while e loopScope next) stack'
  | whileFalse {stack stack₁ stack' : List Word} {w : Word} {e : Expr} {loopScope next : Stat} :
      LeadsTo host (exprCode (fun _ => 0) [] e) stack (w :: stack₁) → w.bits = 0 →
      Slotless stack₁ next stack' → Slotless stack (.while e loopScope next) stack'

/-- The same for the statements of a program outside of its functions. -/
def SlotlessProgram : List Word → List TopLevel → List Word → Prop
  | stack, [], stack' => stack' = stack
  | stack, .stat stat :: program, stack' =>
    ∃ stack₁, Slotless host stack stat.single stack₁ ∧ SlotlessProgram stack₁ program stack'
  | stack, .func _ :: program, stack' => SlotlessProgram stack program stack'

/-! ### What is behind the code and the statements -/

/-- The code leads into `K`. -/
def CodeInto (code : List Instr) (K : List Word → Prop) (stack : List Word) : Prop :=
  ∃ stack', LeadsTo host code stack stack' ∧ K stack'

/-- The statements lead into `K`. -/
def StatInto (stat : Stat) (K : List Word → Prop) (stack : List Word) : Prop :=
  ∃ stack', Slotless host stack stat stack' ∧ K stack'

end

/-- The word at the top decides between `K` and `L`. -/
def BranchInto (K L : List Word → Prop) : List Word → Prop
  | w :: stack => (w.bits ≠ 0 ∧ K stack) ∨ (w.bits = 0 ∧ L stack)
  | [] => False

lemma codeInto_nil {K : List Word → Prop} {stack : List Word} : CodeInto host [] K stack ↔ K stack := by
  constructor
  · rintro ⟨stack', hleads, hK⟩
    cases hleads
    exact hK
  · exact fun hK => ⟨stack, rfl, hK⟩

lemma codeInto_branch {code : List Instr} {K L : List Word → Prop} {stack : List Word} :
    CodeInto host code (BranchInto K L) stack ↔ ∃ w stack', LeadsTo host code stack (w :: stack') ∧
      ((w.bits ≠ 0 ∧ K stack') ∨ (w.bits = 0 ∧ L stack')) := by
  constructor
  · rintro ⟨_ | ⟨w, stack'⟩, hleads, hbranch⟩
    · exact hbranch.elim
    · exact ⟨w, stack', hleads, hbranch⟩
  · rintro ⟨w, stack', hleads, hbranch⟩
    exact ⟨w :: stack', hleads, hbranch⟩

lemma statInto_expr {e : Expr} {next : Stat} {K : List Word → Prop} {stack : List Word} :
    StatInto host (.expr e next) K stack ↔
      CodeInto host (exprCode (fun _ => 0) [] e) (StatInto host next K) stack := by
  constructor
  · rintro ⟨stack', hstat, hK⟩
    cases hstat with
    | expr hcode hnext => exact ⟨_, hcode, stack', hnext, hK⟩
  · rintro ⟨stack₁, hcode, stack', hnext, hK⟩
    exact ⟨stack', .expr hcode hnext, hK⟩

lemma statInto_ifElse {e : Expr} {trueScope falseScope next : Stat} {K : List Word → Prop}
    {stack : List Word} : StatInto host (.ifElse e trueScope falseScope next) K stack ↔
      CodeInto host (exprCode (fun _ => 0) [] e)
        (BranchInto (StatInto host trueScope (StatInto host next K))
          (StatInto host falseScope (StatInto host next K))) stack := by
  rw [codeInto_branch]
  constructor
  · rintro ⟨stack', hstat, hK⟩
    cases hstat with
    | ifTrue hcode hw hinside hnext =>
      exact ⟨_, _, hcode, .inl ⟨hw, _, hinside, _, hnext, hK⟩⟩
    | ifFalse hcode hw hinside hnext =>
      exact ⟨_, _, hcode, .inr ⟨hw, _, hinside, _, hnext, hK⟩⟩
  · rintro ⟨w, stack₁, hcode, ⟨hw, _, hinside, _, hnext, hK⟩ | ⟨hw, _, hinside, _, hnext, hK⟩⟩
    · exact ⟨_, .ifTrue hcode hw hinside hnext, hK⟩
    · exact ⟨_, .ifFalse hcode hw hinside hnext, hK⟩

lemma statInto_while {e : Expr} {loopScope next : Stat} {K : List Word → Prop}
    {stack : List Word} : StatInto host (.while e loopScope next) K stack ↔
      CodeInto host (exprCode (fun _ => 0) [] e)
        (BranchInto (StatInto host loopScope (StatInto host (.while e loopScope next) K))
          (StatInto host next K)) stack := by
  rw [codeInto_branch]
  constructor
  · rintro ⟨stack', hstat, hK⟩
    cases hstat with
    | whileTrue hcode hw hinside hagain =>
      exact ⟨_, _, hcode, .inl ⟨hw, _, hinside, _, hagain, hK⟩⟩
    | whileFalse hcode hw hnext => exact ⟨_, _, hcode, .inr ⟨hw, _, hnext, hK⟩⟩
  · rintro ⟨w, stack₁, hcode, ⟨hw, _, hinside, _, hagain, hK⟩ | ⟨hw, _, hnext, hK⟩⟩
    · exact ⟨_, .whileTrue hcode hw hinside hagain, hK⟩
    · exact ⟨_, .whileFalse hcode hw hnext, hK⟩

lemma statInto_end {stat : Stat} (hend : stat = .nil ∨ (∃ next, stat = .other next) ∨
    ∃ stat', stat = .notScope stat') {K : List Word → Prop} {stack : List Word} :
    StatInto host stat K stack ↔ K stack := by
  rcases hend with rfl | ⟨next, rfl⟩ | ⟨stat', rfl⟩
  · exact ⟨fun ⟨_, h, hK⟩ => by cases h; exact hK, fun hK => ⟨stack, .nil, hK⟩⟩
  · exact ⟨fun ⟨_, h, hK⟩ => by cases h; exact hK, fun hK => ⟨stack, .other, hK⟩⟩
  · exact ⟨fun ⟨_, h, hK⟩ => by cases h; exact hK, fun hK => ⟨stack, .notScope, hK⟩⟩

/-! ## The first save -/

/-- The code saves its first word in slot 0 and loads nothing before; if it saves nothing, `P`. -/
def FirstSave (P : Prop) : List Instr → Prop
  | [] => P
  | .save _ slot :: _ => slot = 0
  | .load _ _ :: _ => False
  | _ :: code => FirstSave P code

lemma FirstSave.mono {P P' : Prop} {code : List Instr} (h : FirstSave P code) (hP : P → P') :
    FirstSave P' code := by
  induction code with
  | nil => exact hP h
  | cons i code ih =>
    cases i with
    | save rep slot => exact h
    | load rep slot => exact h
    | _ => exact ih h

lemma firstSave_cons {P : Prop} {i : Instr} {code : List Instr} (hload : ∀ rep slot, i ≠ .load rep slot)
    (hsave : ∀ rep slot, i ≠ .save rep slot) : FirstSave P (i :: code) ↔ FirstSave P code := by
  cases i with
  | save rep slot => exact (hsave rep slot rfl).elim
  | load rep slot => exact (hload rep slot rfl).elim
  | _ => exact Iff.rfl

lemma firstSave_append {P : Prop} {a b : List Instr} :
    FirstSave P (a ++ b) ↔ FirstSave (FirstSave P b) a := by
  induction a with
  | nil => exact Iff.rfl
  | cons i a ih =>
    cases i with
    | save rep slot => exact Iff.rfl
    | load rep slot => exact Iff.rfl
    | _ => exact ih

lemma firstSave_castCode {P : Prop} (a b : Rep) (hP : P) : FirstSave P (castCode a b) := by
  unfold castCode
  split
  · exact hP
  · exact hP

/-- Where no variable is visible an operand neither loads nor saves. -/
lemma firstSave_operandCode {e : Expr} {r : Rep} (h : operandRep [] e = some r) {P : Prop} (hP : P) :
    FirstSave P (operandCode [] e) := by
  induction e generalizing r P with
  | literalInt value => exact hP
  | literalFloat value => exact hP
  | ident t name =>
    obtain ⟨_, hvar, -⟩ := operandRep_ident h
    cases hvar
  | group t expr ih => exact ih h hP
  | unaryOp t operator operand ih =>
    exact firstSave_append.mpr (ih (operandRep_unaryOp h).2 hP)
  | binaryOp t operator left right ihl ihr =>
    obtain ⟨a, b, ha, hb, ⟨rfl, -, -, t', name, rfl⟩ | ⟨hne, -, -⟩⟩ := operandRep_binaryOp h
    · obtain ⟨_, hvar, -⟩ := operandRep_ident ha
      cases hvar
    · simp only [operandCode, if_neg hne, firstSave_append]
      exact ihl ha (firstSave_castCode _ _ (ihr hb (firstSave_castCode _ _ hP)))
  | specialCast t opcode operand => cases h
  | other t => cases h

/-- Where no variable is visible the first save of an expression declares one. -/
lemma firstSave_exprCode (callIndex : CStr → UInt16) {vars : Vars} {e : Expr}
    (hreg : RegularExpr vars e) :
    vars = [] → FirstSave (exprVars vars e = []) (exprCode callIndex vars e) := by
  refine RegularExpr.forms (P := fun vars e =>
    vars = [] → FirstSave (exprVars vars e = []) (exprCode callIndex vars e)) ?_ ?_ ?_ ?_ ?_ ?_ ?_ hreg
  · rintro vars t name - rfl
    exact rfl
  · rintro vars e r hr hcode hvars - rfl
    rw [hcode, hvars]
    exact firstSave_operandCode hr rfl
  · exact fun _ ih => ih
  · intro vars t e _ ih h
    rw [exprCode, firstSave_append]
    refine (ih h).mono fun hvars => ?_
    split
    · exact hvars
    · exact hvars
  · rintro vars t t' name right r hr rfl
    exact firstSave_append.mpr (firstSave_operandCode hr rfl)
  · intro vars t t' t'' name args _ ih h
    rw [exprCode, firstSave_append]
    exact (ih h).mono fun hvars => hvars
  · intro vars t left right _ _ ihl ihr h
    rw [exprCode, firstSave_append]
    exact (ihl h).mono fun hvars => ihr hvars

/-- The operands of calls change nothing for the caller. -/
lemma runStraight_exprCode (callIndex callIndex' : CStr → UInt16) (vars : Vars) (e : Expr)
    (frame : Frame) : (vmIsa host).runStraight (exprCode callIndex vars e) frame
      = (vmIsa host).runStraight (exprCode callIndex' vars e) frame := by
  fun_induction exprCode callIndex vars e generalizing frame with
  | case1 vars _ expr ih => exact ih frame
  | case2 vars _ _ operand ih =>
    rw [exprCode, JumpIsa.runStraight_append, JumpIsa.runStraight_append, ih]
  | case3 => rfl
  | case4 vars _ _ name _ args ih =>
    rw [exprCode, JumpIsa.runStraight_append, JumpIsa.runStraight_append, ih]
    rfl
  | case5 vars _ left right ihl ihr =>
    rw [exprCode, JumpIsa.runStraight_append, JumpIsa.runStraight_append, ihl]
    simp only [ihr]
  | case6 => rw [exprCode] <;> assumption

/-! ## Two runs with different contents of slot 0 -/

variable (host) in
/-- What an instruction does that neither loads nor saves does not depend on the slots. -/
lemma exec_slotless {i : Instr} (hload : ∀ rep slot, i ≠ .load rep slot)
    (hsave : ∀ rep slot, i ≠ .save rep slot) (stack : List Word) (size : ℕ) :
    (∃ e, ∀ locals, (vmIsa host).exec i ⟨stack, size, locals⟩ = .error e) ∨
      ∃ stack' d, ∀ locals,
        (vmIsa host).exec i ⟨stack, size, locals⟩ = .ok (⟨stack', size, locals⟩, d) := by
  have hpush : ∀ (w : Word) (shift : ℤ),
      (∃ e, ∀ locals, pushWord ⟨stack, size, locals⟩ w shift = .error e) ∨
        ∃ stack' d, ∀ locals, pushWord ⟨stack, size, locals⟩ w shift
          = .ok (⟨stack', size, locals⟩, d) := by
    intro w shift
    by_cases hroom : 4 * (stack.length + 1) ≤ size
    · exact .inr ⟨w :: stack, shift, fun locals => if_pos hroom⟩
    · exact .inl ⟨_, fun locals => if_neg hroom⟩
  cases i with
  | plain op =>
    cases hop : op.isBinary with
    | true =>
      simp only [exec_binary hop]
      rcases stack with _ | ⟨b, _ | ⟨a, rest⟩⟩
      · exact .inl ⟨_, fun _ => rfl⟩
      · exact .inl ⟨_, fun _ => rfl⟩
      · cases happly : applyOp host op a b with
        | error e => exact .inl ⟨e, fun _ => by simp [happly, Except.map]⟩
        | ok w => exact .inr ⟨w :: rest, 1, fun _ => by simp [happly, Except.map]⟩
    | false =>
      cases op with
      | i2f =>
        cases stack with
        | nil => exact .inl ⟨_, fun _ => rfl⟩
        | cons w rest => exact .inr ⟨_, _, fun _ => rfl⟩
      | ineg => exact .inl ⟨_, fun _ => rfl⟩
      | fneg => exact .inl ⟨_, fun _ => rfl⟩
      | _ => cases hop
  | load rep slot => exact (hload rep slot rfl).elim
  | save rep slot => exact (hsave rep slot rfl).elim
  | iconst value =>
    simp only [exec_iconst]
    exact hpush _ _
  | fconst value =>
    simp only [exec_fconst]
    exact hpush _ _
  | jez n =>
    simp only [exec_jez_stack]
    cases stack with
    | nil => exact .inl ⟨_, fun _ => rfl⟩
    | cons w rest => exact .inr ⟨rest, _, fun _ => rfl⟩
  | jmp n => exact .inr ⟨stack, _, fun _ => exec_jmp n⟩
  | rjmp n => exact .inr ⟨stack, _, fun _ => exec_rjmp n⟩
  | call index => exact .inr ⟨stack, 3, fun _ => rfl⟩

section

variable (locals : List Word) (w : Word) (T : Prop)

/-- Before its first save a run has the slots `locals`, and the other one `w` in slot 0 instead; the
stack is in `K` exactly if `T`. Afterwards the runs do not differ, and `T` does not hold. -/
def Alike (P : Prop) (K : List Word → Prop) (p : Frame × Frame) : Prop :=
  (P ∧ ∃ stack, p = (⟨stack, 1024, locals⟩, ⟨stack, 1024, locals.set 0 w⟩) ∧ (K stack ↔ T)) ∨
    (p.1 = p.2 ∧ ¬ T)

end

variable {locals : List Word} {w : Word} {T : Prop}

lemma Alike.mono {P P' : Prop} {K K' : List Word → Prop} {p : Frame × Frame}
    (h : Alike locals w T P K p) (hP : P → P') (hK : P → ∀ stack, K stack ↔ K' stack) :
    Alike locals w T P' K' p := by
  rcases h with ⟨h, stack, hp, hiff⟩ | h
  · exact .inl ⟨hP h, stack, hp, (hK h stack).symm.trans hiff⟩
  · exact .inr h

lemma Alike.stack_eq {P : Prop} {K : List Word → Prop} {p : Frame × Frame}
    (h : Alike locals w T P K p) : p.1.stack = p.2.stack := by
  rcases h with ⟨-, stack, rfl, -⟩ | ⟨heq, -⟩
  · rfl
  · rw [heq]

/-- Two runs that do not differ make the same step. -/
lemma effect_same {i : Instr} {frame : Frame} (hT : ¬ T) {P : Prop} {K : List Word → Prop}
    {D : ℤ → Prop} (hD : ∀ frame' d, (vmIsa host).exec i frame = .ok (frame', d) → D d) :
    JumpIsa.Effect (Tolerated anyStop) (fun q d => D d ∧ Alike locals w T P K q)
      ((twinIsa host).exec i (frame, frame)) := by
  refine JumpIsa.effect_twin.mpr ⟨rfl, ?_⟩
  cases hexec : (vmIsa host).exec i frame with
  | error e => trivial
  | ok r => exact ⟨r.1, rfl, hD _ _ hexec, .inr ⟨rfl, hT⟩⟩

/-- The step lemma for straight code. -/
lemma effect_alike {i : Instr} {code : List Instr} (hstraight : (vmIsa host).Straight i) {P : Prop}
    {K : List Word → Prop} {p : Frame × Frame}
    (h : Alike locals w T (FirstSave P (i :: code)) (CodeInto host (i :: code) K) p) :
    JumpIsa.Effect (Tolerated anyStop)
      (fun q d => d = (twinIsa host).size i ∧ Alike locals w T (FirstSave P code) (CodeInto host code K) q)
      ((twinIsa host).exec i p) := by
  rcases h with ⟨hsave, stack, rfl, hiff⟩ | ⟨heq, hT⟩
  · refine JumpIsa.effect_twin.mpr ⟨rfl, ?_⟩
    by_cases hi : ∃ rep slot, i = .save rep slot
    · obtain ⟨rep, slot, rfl⟩ := hi
      obtain rfl : slot = 0 := hsave
      -- without slots there is nowhere to save the word
      have hT : ¬ T := by
        rw [← hiff]
        rintro ⟨stack', hleads, -⟩
        rw [LeadsTo, JumpIsa.runStraight] at hleads
        cases stack with
        | nil => cases rep <;> cases hleads
        | cons u stack => cases rep <;> cases hleads
      cases stack with
      | nil => cases rep <;> trivial
      | cons u stack =>
        have hexec : ∀ locals' : List Word, (vmIsa host).exec (.save rep 0) ⟨u :: stack, 1024, locals'⟩
            = if 0 < locals'.length then .ok (⟨stack, 1024, locals'.set 0 u⟩, 2)
              else .error (.fault .locals) := fun locals' => by
          cases rep <;> rfl
        simp only [hexec, List.length_set, List.set_set]
        split
        · exact ⟨_, rfl, by cases rep <;> rfl, .inr ⟨rfl, hT⟩⟩
        · trivial
    · have hnosave : ∀ rep slot, i ≠ .save rep slot := fun rep slot h => hi ⟨rep, slot, h⟩
      have hnoload : ∀ rep slot, i ≠ .load rep slot := by
        rintro rep slot rfl
        exact hsave
      rcases exec_slotless host hnoload hnosave stack 1024 with ⟨e, he⟩ | ⟨stack', d, hd⟩
      · rw [he locals]
        trivial
      · rw [hd locals]
        refine ⟨_, hd _, hstraight _ _ _ (hd locals), .inl ⟨(firstSave_cons hnoload hnosave).mp hsave,
          stack', rfl, ?_⟩⟩
        rw [← hiff]
        simp only [CodeInto, LeadsTo, JumpIsa.runStraight, hd]
  · obtain ⟨f, g⟩ := p
    obtain rfl : f = g := heq
    exact effect_same hT (hstraight _)

/-- The conditional jump takes the word that decides. -/
lemma effect_alike_jez {P : Prop} {K L : List Word → Prop} (n : UInt16) {p : Frame × Frame}
    (h : Alike locals w T P (BranchInto K L) p) :
    JumpIsa.Effect (Tolerated anyStop)
      (fun q d => (d = 3 ∧ Alike locals w T P K q) ∨ (d = 3 + n.toNat ∧ Alike locals w T P L q))
      ((twinIsa host).exec (.jez n) p) := by
  rcases h with ⟨hP, stack, rfl, hiff⟩ | ⟨heq, hT⟩
  · refine JumpIsa.effect_twin.mpr ⟨rfl, ?_⟩
    simp only [exec_jez_stack]
    cases stack with
    | nil => trivial
    | cons u stack =>
      refine ⟨_, rfl, ?_⟩
      by_cases hu : u.bits = 0
      · refine .inr ⟨by rw [if_pos hu], .inl ⟨hP, stack, rfl, ?_⟩⟩
        simp only [← hiff, BranchInto, hu, ne_eq, not_true_eq_false, false_and, true_and, false_or]
      · refine .inl ⟨by rw [if_neg hu, add_zero], .inl ⟨hP, stack, rfl, ?_⟩⟩
        simp only [← hiff, BranchInto, hu, ne_eq, not_false_eq_true, false_and, true_and, or_false]
  · obtain ⟨f, g⟩ := p
    obtain rfl : f = g := heq
    refine JumpIsa.effect_twin.mpr ⟨rfl, ?_⟩
    rw [exec_jez_stack]
    cases f.stack with
    | nil => trivial
    | cons u stack =>
      refine ⟨_, rfl, ?_⟩
      by_cases hu : u.bits = 0
      · exact .inr ⟨by rw [if_pos hu], .inr ⟨rfl, hT⟩⟩
      · exact .inl ⟨by rw [if_neg hu, add_zero], .inr ⟨rfl, hT⟩⟩

/-- The other jumps only move. -/
lemma effect_alike_jump {P : Prop} {K : List Word → Prop} {i : Instr} {n : ℤ}
    (hexec : ∀ frame, (vmIsa host).exec i frame = .ok (frame, n)) {p : Frame × Frame}
    (h : Alike locals w T P K p) :
    JumpIsa.Effect (Tolerated anyStop) (fun q d => d = n ∧ Alike locals w T P K q)
      ((twinIsa host).exec i p) := by
  refine JumpIsa.effect_twin.mpr ⟨h.stack_eq, ?_⟩
  rw [hexec p.1]
  exact ⟨p.2, hexec p.2, rfl, h⟩

/-- Straight code, by the step lemma. -/
lemma line_alike {code : List Instr} (hstraight : ∀ i ∈ code, (vmIsa host).Straight i) {P : Prop}
    {K : List Word → Prop} : (twinIsa host).Line (Tolerated anyStop)
      (Alike locals w T (FirstSave P code) (CodeInto host code K)) code (Alike locals w T P K) := by
  induction code with
  | nil => exact JumpIsa.line_nil fun p h => h.mono (fun hP => hP) fun _ _ => codeInto_nil
  | cons i code ih =>
    exact JumpIsa.Line.append (a := [i])
      (JumpIsa.line_instr fun p h => effect_alike (hstraight i (by simp)) h)
      (ih fun j hj => hstraight j (by simp [hj]))

/-- The code of an expression, in front of which `K'` stands for what its code leads into. -/
lemma line_expr (callIndex : CStr → UInt16) {vars : Vars} {e : Expr} (hreg : RegularExpr vars e)
    {K K' : List Word → Prop}
    (hK : ∀ stack, K' stack ↔ CodeInto host (exprCode (fun _ => 0) [] e) K stack) :
    (twinIsa host).Line (Tolerated anyStop) (Alike locals w T (vars = []) K')
      (exprCode callIndex vars e) (Alike locals w T (exprVars vars e = []) K) := by
  refine (line_alike fun i hi => exprCode_straight host callIndex hi).mono (fun p h => ?_) fun _ h => h
  refine h.mono (firstSave_exprCode callIndex hreg) ?_
  rintro rfl stack
  rw [hK]
  simp only [CodeInto, LeadsTo, runStraight_exprCode (fun _ => 0) callIndex]

/-- A block that starts without variables ends without variables that are visible behind it. -/
lemma alike_forget {vars vars' : Vars} (hvars : vars <+: vars') {K : List Word → Prop}
    {p : Frame × Frame} (h : Alike locals w T (vars' = []) K p) : Alike locals w T (vars = []) K p := by
  refine h.mono ?_ fun _ _ => Iff.rfl
  rintro rfl
  exact List.prefix_nil.mp hvars

/-- The chunks of the statements keep the two runs alike. -/
theorem seq_alike {callIndex : CStr → UInt16} {vars : Vars} {stat : Stat}
    (hreg : RegularScope callIndex vars stat) (K : List Word → Prop) :
    (twinIsa host).Seq (Tolerated anyStop) (Alike locals w T (vars = []) (StatInto host stat K))
      (scopeCode callIndex vars stat) (Alike locals w T (scopeVars vars stat = []) K) := by
  induction stat generalizing vars K with
  | expr e next ih =>
    exact JumpIsa.Seq.append (line_expr callIndex hreg.1 fun _ => statInto_expr) (ih hreg.2 K)
  | ifElse e trueScope falseScope next iht ihf ih =>
    obtain ⟨hexpr, htrue, hfalse, htrueSize, hfalseSize, hnext⟩ := hreg
    refine JumpIsa.Seq.append (line_expr callIndex hexpr fun _ => statInto_ifElse)
      ⟨_, ?_, ih hnext K⟩
    exact block_ifCode twin_sizeOf htrueSize hfalseSize (fun n p h => effect_alike_jez n h)
      (fun n p h => effect_alike_jump (fun _ => exec_jmp n) h)
      ((iht htrue _).flatten.mono (fun _ h => h) fun _ h => alike_forget (prefix_scopeVars _ _) h)
      ((ihf hfalse _).flatten.mono (fun _ h => h) fun _ h => alike_forget (prefix_scopeVars _ _) h)
  | «while» e loopScope next ihl ih =>
    obtain ⟨hexpr, hloop, hsize, hnext⟩ := hreg
    refine ⟨_, ?_, ih hnext K⟩
    exact block_whileCode twin_sizeOf hsize (line_expr callIndex hexpr fun _ => statInto_while).block
      (fun n p h => effect_alike_jez n (alike_forget (prefix_exprVars _ _) h))
      ((ihl hloop _).flatten.mono (fun _ h => h) fun _ h => alike_forget (prefix_scopeVars _ _) h)
      fun n p h => effect_alike_jump (fun _ => exec_rjmp n) h
  | nil => exact fun p h => h.mono (fun hvars => hvars) fun _ _ => statInto_end (.inl rfl)
  | other next =>
    exact fun p h => h.mono (fun hvars => hvars) fun _ _ => statInto_end (.inr (.inl ⟨_, rfl⟩))
  | notScope stat =>
    exact fun p h => h.mono (fun hvars => hvars) fun _ _ => statInto_end (.inr (.inr ⟨_, rfl⟩))

/-! ## Agreement -/

/-- The events of a session, of the statements outside of the functions. -/
lemma finishedEvents_roots {fuel : ℕ} {program : List TopLevel} {events : List Event}
    (hparsed : ParsedProgram program) (hfits : Throughout JumpsFit (fun _ => True) [] program)
    (h : finishedEvents fuel true program = some events) :
    RootEvents [] program events ∧
      Throughout (RegularScope fun _ => 0) (fun _ => True) [] program := by
  obtain ⟨s, hcompile, rfl⟩ := finishedEvents_eq_some h
  have hp : Throughout (fun _ stat => stat.Parsed) (fun _ => True) [] program :=
    Throughout.mono (fun _ _ h => h) (fun _ _ => trivial) hparsed
  have hreg := compileProgram_regular (atRoot_init true) (fun _ h => nomatch h) hp hfits hcompile
  obtain ⟨events, hevents, hroots⟩ := compileProgram_rootEvents (atRoot_init true)
    (hp.mono (fun _ _ h => h.untraced) fun _ h => h) hreg hcompile
  obtain rfl : s.events = events := hevents
  exact ⟨hroots, hreg⟩

/-- A script executes nothing. -/
lemma finishedEvents_silent {fuel : ℕ} {program : List TopLevel} {events : List Event}
    (h : finishedEvents fuel false program = some events) : ∀ event ∈ events, event.IsRegister := by
  obtain ⟨s, hcompile, rfl⟩ := finishedEvents_eq_some h
  have hinit : Silent (compilerInit false) := ⟨⟨_, rfl⟩, fun event hevent => nomatch hevent⟩
  exact (hinit.program hcompile).events

/-- Chunks that are executed one after the other on two frames. -/
lemma sessionEnds_twin {P Q : Frame × Frame → Prop} {chunks : List (List Instr)} {events : List Event}
    {vm vm' : Vm} {f f' g : Frame} (h : (twinIsa host).Seq (Tolerated anyStop) P chunks Q)
    (hends : SessionEnds host vm f ((chunks.map fun code => .execute (encodeAll code)) ++ events) vm' f')
    (hP : P (f, g)) :
    ∃ f₁ g₁, Q (f₁, g₁) ∧ SessionEnds host vm f₁ events vm' f' ∧
      ∀ vm'' g', SessionEnds host vm g₁ events vm'' g' →
        SessionEnds host vm g ((chunks.map fun code => .execute (encodeAll code)) ++ events) vm'' g' := by
  induction chunks generalizing P f g with
  | nil => exact ⟨f, g, h _ hP, hends, fun _ _ h => h⟩
  | cons code chunks ih =>
    obtain ⟨R, hblock, hrest⟩ := h
    cases hends with
    | execute hruns hends =>
      obtain ⟨g₁, hruns', hR⟩ := vmRuns_twin hblock hP hruns
      obtain ⟨f₂, g₂, hQ, hends', hback⟩ := ih hrest hends hR
      exact ⟨f₂, g₂, hQ, hends', fun _ _ h => .execute hruns' (hback _ _ h)⟩

/-- The run lemma: with another content of slot 0 the session ends as well, and the ends are alike. -/
theorem session_alike {vars : Vars} {program : List TopLevel} {events : List Event}
    (hevents : RootEvents vars program events)
    (hreg : Throughout (RegularScope fun _ => 0) (fun _ => True) vars program)
    {vm vm' : Vm} {f f' g : Frame} (hends : SessionEnds host vm f events vm' f')
    (h : Alike locals w T (vars = []) (fun stack => SlotlessProgram host stack program []) (f, g)) :
    ∃ g', SessionEnds host vm g events vm' g' ∧ Alike locals w T True (· = []) (f', g') := by
  induction hevents generalizing vm f g with
  | nil =>
    cases hends
    exact ⟨g, .nil, h.mono (fun _ => trivial) fun _ _ => eq_comm⟩
  | @stat callIndex vars stat program events _ ih =>
    obtain ⟨f₁, g₁, h₁, hends, hback⟩ :=
      sessionEnds_twin (seq_alike ((regularScope_callIndex _ _ _ _).mp hreg.1) _) hends h
    obtain ⟨g', hends', h'⟩ := ih hreg.2 hends h₁
    exact ⟨g', hback _ _ hends', h'⟩
  | func _ ih =>
    cases hends with
    | register hregister hends =>
      obtain ⟨g', hends', h'⟩ := ih hreg.2 hends h
      exact ⟨g', .register hregister hends', h'⟩

instance : Nontrivial Word := ⟨⟨.int, 0⟩, ⟨.int, 1⟩, by decide⟩

/-- A program of parsed trees that both modes accept, with jumps that fit outside of its functions,
whose sessions end in both modes: they leave the same locals and the same stack in the root frame,
whatever its slots contain at the start, if and only if the statements lead from the empty stack to
the empty stack without slots. -/
theorem modes_agree_iff {fuel fuel' : ℕ} {program : List TopLevel} {interactive script : List Event}
    (hparsed : ParsedProgram program) (hfits : Throughout JumpsFit (fun _ => True) [] program)
    (hinteractive : finishedEvents fuel true program = some interactive)
    (hscript : finishedEvents fuel' false program = some script) {vm vm' : Vm} {frame frame' : Frame}
    (hends : SessionEnds host vmStaticInit (rootFrame host) interactive vm frame)
    (hends' : SessionEnds host vmStaticInit (rootFrame host) script vm' frame') :
    (∀ locals vm₁ vm₂ frame₁ frame₂, locals.length = 256 →
      SessionEnds host vmStaticInit ⟨[], 1024, locals⟩ interactive vm₁ frame₁ →
      SessionEnds host vmStaticInit ⟨[], 1024, locals⟩ script vm₂ frame₂ →
        frame₁.locals = frame₂.locals ∧ frame₁.stack = frame₂.stack) ↔
      SlotlessProgram host [] program [] := by
  have hsilent := finishedEvents_silent hscript
  obtain ⟨hroots, hreg⟩ := finishedEvents_roots hparsed hfits hinteractive
  have halike : ∀ (locals : List Word) (w : Word), Alike locals w (SlotlessProgram host [] program [])
      (([] : Vars) = []) (fun stack => SlotlessProgram host stack program [])
        (⟨[], 1024, locals⟩, ⟨[], 1024, locals.set 0 w⟩) :=
    fun locals w => .inl ⟨rfl, [], rfl, Iff.rfl⟩
  constructor
  · intro hagree
    let locals := (rootFrame host).locals
    have hlength : locals.length = 256 := length_rootFrame_locals host
    obtain ⟨w, hw⟩ : ∃ w : Word, w ≠ locals[0] := exists_ne _
    obtain ⟨g, hg, hboth⟩ := session_alike hroots hreg hends (halike locals w)
    obtain ⟨-, hscriptEnds⟩ := hends'.silent hsilent
    obtain ⟨hlocals, hstack⟩ := hagree locals _ _ _ _ hlength hends (hscriptEnds _)
    obtain ⟨hlocals', -⟩ := hagree _ _ _ _ _ ((List.length_set ..).trans hlength) hg (hscriptEnds _)
    rcases hboth with ⟨-, stack, hpair, hiff⟩ | ⟨heq, -⟩
    · obtain ⟨rfl, -⟩ := Prod.mk.inj hpair
      exact hiff.mp hstack
    · -- behind the first save the slots are the same, so one of the sessions has changed them
      obtain rfl : frame = g := heq
      have hset : locals = locals.set 0 w := hlocals.symm.trans hlocals'
      have hzero : (locals.set 0 w)[0]? = some w := by simp [hlength]
      rw [← hset, List.getElem?_eq_getElem (by omega)] at hzero
      exact absurd (Option.some.inj hzero).symm hw
  · intro hslotless locals vm₁ vm₂ frame₁ frame₂ _ h₁ h₂
    obtain ⟨rfl, -⟩ := h₂.silent hsilent
    obtain ⟨_, -, ⟨-, stack, hpair, hiff⟩ | ⟨-, hnot⟩⟩ :=
      session_alike hroots hreg h₁ (halike locals ⟨.int, 0⟩)
    · obtain ⟨rfl, -⟩ := Prod.mk.inj hpair
      exact ⟨rfl, hiff.mpr hslotless⟩
    · exact (hnot hslotless).elim

/-- `func f(int a) int { b = a }`, `if f(1) { } else { x = 1 }` and `while 1 == 2 { x = 1 }` -/
def slotlessSample : List TopLevel :=
  let setX : Stat :=
    .expr (.binaryOp .unknwn .assignment (.ident .unknwn [120]) (.literalInt 1)) .nil
  [.func sampleFunc,
    .stat (.ifElse (.binaryOp .unknwn .functionCall (.ident .unknwn [102])
      (.group .unknwn (.literalInt 1))) .nil setX .nil),
    .stat (.while (.binaryOp .unknwn .equalTo (.literalInt 1) (.literalInt 2)) setX .nil)]

/-- A function is called and a loop is passed, but the two assignments are not reached. -/
theorem modes_agree_iff_calling : ∃ interactive script,
    finishedEvents 3 true slotlessSample = some interactive ∧
      finishedEvents 3 false slotlessSample = some script ∧
      ∀ locals vm₁ vm₂ frame₁ frame₂, locals.length = 256 →
        SessionEnds zeroHost vmStaticInit ⟨[], 1024, locals⟩ interactive vm₁ frame₁ →
        SessionEnds zeroHost vmStaticInit ⟨[], 1024, locals⟩ script vm₂ frame₂ →
          frame₁.locals = frame₂.locals ∧ frame₁.stack = frame₂.stack := by
  have hinteractive : ((finishedEvents 3 true slotlessSample).bind
      (sessionStates zeroHost 9 vmStaticInit (rootFrame zeroHost))).isSome := by decide +kernel
  have hscript : ((finishedEvents 3 false slotlessSample).bind
      (sessionStates zeroHost 9 vmStaticInit (rootFrame zeroHost))).isSome := by decide +kernel
  obtain ⟨r, hr⟩ := Option.isSome_iff_exists.mp hinteractive
  obtain ⟨r', hr'⟩ := Option.isSome_iff_exists.mp hscript
  obtain ⟨interactive, hinteractive, hr⟩ := Option.bind_eq_some_iff.mp hr
  obtain ⟨script, hscript, hr'⟩ := Option.bind_eq_some_iff.mp hr'
  refine ⟨interactive, script, hinteractive, hscript, ?_⟩
  refine (modes_agree_iff (by decide) (by decide) hinteractive hscript ((sessionEnds_iff hr).mpr rfl)
    ((sessionEnds_iff hr').mpr rfl)).mpr ?_
  have hone : LeadsTo zeroHost [.iconst 1, .call 0] [] [⟨.int, 1⟩] := rfl
  have hequal : LeadsTo zeroHost [.iconst 1, .iconst 2, .plain .ieq] [] [⟨.int, 0⟩] := rfl
  exact ⟨[], .ifTrue hone (by decide) .nil .nil, [], .whileFalse hequal rfl .nil, rfl⟩

/-- The script forgets the value of `x`. -/
theorem setOne_modes_differ : ∃ interactive script vm₁ vm₂ frame₁ frame₂,
    finishedEvents 3 true setOneProgram = some interactive ∧
      finishedEvents 3 false setOneProgram = some script ∧
      SessionEnds zeroHost vmStaticInit (rootFrame zeroHost) interactive vm₁ frame₁ ∧
      SessionEnds zeroHost vmStaticInit (rootFrame zeroHost) script vm₂ frame₂ ∧
      frame₁.locals ≠ frame₂.locals :=
  ⟨[.execute [opcodeIconst, 0, 0, 0, 1], .execute [opcodeIsave, 0]], [], vmStaticInit,
    vmStaticInit, savedOne, rootFrame zeroHost, by decide +kernel, by decide +kernel,
    .execute vmRuns_pushOne (.execute vmRuns_saveOne .nil), .nil, by decide +kernel⟩

end PhantomShell
