import Mathlib.Order.Lattice.Nat
import PhantomShell.Compiler.FuelTheorems
import PhantomShell.Compiler.ValueTheorems
import PhantomShell.Vm.Depth

/-!
# Frames stay on their operand stacks

`compile_func` counts the words of a function to size its stack, but forgets what branches leave
behind, starts each loop body from nothing, and narrows the count to 16 bits. `DepthsFit` follows
the depth through the statements and compares it with the room that there is; then no instruction
of any run leaves the stack of its frame (`stack_within`).
-/

namespace PhantomShell

variable {host : Host}

/-! ## Spans of depths -/

/-- The least and the greatest depth that a frame may have at a place of the code. -/
abbrev Span := ℕᵒᵈ × ℕ

namespace Span

def between (least greatest : ℕ) : Span := (OrderDual.toDual least, greatest)

def least (a : Span) : ℕ := OrderDual.ofDual a.1

def greatest (a : Span) : ℕ := a.2

/-- The span behind an instruction that takes and leaves some words. -/
def step (a : Span) (effect : ℕ × ℕ) : Span :=
  between (a.least - effect.1 + effect.2) (a.greatest - effect.1 + effect.2)

/-- The span behind straight code. -/
def run (a : Span) (effects : List (ℕ × ℕ)) : Span := effects.foldl step a

/-- Each instruction finds the words that it takes, and room in `size` bytes for those that it
leaves. -/
def Fits (size : ℕ) : Span → List (ℕ × ℕ) → Prop
  | _, [] => True
  | a, effect :: effects => effect.1 ≤ a.least ∧
      4 * (a.greatest - effect.1 + effect.2) ≤ size ∧ Fits size (a.step effect) effects

instance decidableFits (size : ℕ) : (a : Span) → (effects : List (ℕ × ℕ)) →
    Decidable (Fits size a effects)
  | _, [] => isTrue trivial
  | a, effect :: effects =>
    have := decidableFits size (a.step effect) effects
    inferInstanceAs (Decidable (effect.1 ≤ a.least ∧
      4 * (a.greatest - effect.1 + effect.2) ≤ size ∧ Fits size (a.step effect) effects))

instance (a b : Span) : Decidable (a ≤ b) :=
  inferInstanceAs (Decidable (b.least ≤ a.least ∧ a.greatest ≤ b.greatest))

/-- The stack has `size` bytes, and its depth is in the span. -/
structure Holds (size : ℕ) (a : Span) (frame : Frame) : Prop where
  least : a.least ≤ frame.stack.length
  greatest : frame.stack.length ≤ a.greatest
  size : frame.stackSize = size

variable {size : ℕ} {a b : Span} {frame : Frame}

lemma Holds.mono (hab : a ≤ b) (h : a.Holds size frame) : b.Holds size frame := by
  have hleast : b.least ≤ a.least := hab.1
  have hgreatest : a.greatest ≤ b.greatest := hab.2
  exact ⟨hleast.trans h.least, h.greatest.trans hgreatest, h.size⟩

lemma fits_append {as bs : List (ℕ × ℕ)} :
    Fits size a (as ++ bs) ↔ Fits size a as ∧ Fits size (a.run as) bs := by
  induction as generalizing a with
  | nil => simp [Fits, run]
  | cons effect as ih =>
    simp only [List.cons_append, Fits, ih, run, List.foldl_cons]
    tauto

end Span

/-- A stop for another reason than the stack. -/
def OffStack (e : VmStop) : Prop := e ≠ .fault .overflow ∧ e ≠ .fault .underflow

/-- An instruction that fits moves the span. -/
lemma effect_span {size : ℕ} {a : Span} {frame : Frame} {i : Instr} (h : a.Holds size frame)
    (hfits : Span.Fits size a [i.effect]) (hstraight : (vmIsa host).Straight i) :
    JumpIsa.Effect OffStack (fun t d => d = (vmIsa host).size i ∧ (a.step i.effect).Holds size t)
      ((vmIsa host).exec i frame) := by
  obtain ⟨htakes, hroom, -⟩ := hfits
  have hleast := h.least
  have hgreatest := h.greatest
  have hdepth : DepthOutcome frame i.effect ((vmIsa host).exec i frame) := exec_depth i frame
  cases hexec : (vmIsa host).exec i frame with
  | error e =>
    rw [hexec] at hdepth
    refine ⟨fun he => ?_, fun he => ?_⟩
    · have := hdepth.2 he
      rw [h.size] at this
      omega
    · have := hdepth.1 he
      omega
  | ok r =>
    rw [hexec] at hdepth
    obtain ⟨-, hlen, hsize⟩ := hdepth
    refine ⟨hstraight _ _ _ hexec, ⟨?_, ?_, hsize.trans h.size⟩⟩
    · change a.least - i.effect.1 + i.effect.2 ≤ r.1.stack.length
      omega
    · change r.1.stack.length ≤ a.greatest - i.effect.1 + i.effect.2
      omega

/-! ## Code -/

/-- What the instructions take and leave, one after the other. -/
def effectsOf (code : List Instr) : List (ℕ × ℕ) := code.map Instr.effect

/-- Straight code that fits moves the span. -/
lemma line_span {size : ℕ} {code : List Instr} {a : Span} (hfits : Span.Fits size a (effectsOf code))
    (hstraight : ∀ i ∈ code, (vmIsa host).Straight i) :
    (guardedIsa host fun _ _ => true).Line (Tolerated OffStack) (a.Holds size) code
      ((a.run (effectsOf code)).Holds size) := by
  induction code generalizing a with
  | nil => exact JumpIsa.line_nil fun _ h => h
  | cons i code ih =>
    obtain ⟨htakes, hroom, hrest⟩ := hfits
    refine JumpIsa.Line.append (a := [i]) (JumpIsa.line_instr fun frame h => ?_)
      (ih hrest fun j hj => hstraight j (by simp [hj]))
    exact effect_guarded rfl (effect_span h ⟨htakes, hroom, trivial⟩ (hstraight i (by simp)))

/-- What is read off the instructions of an expression, but for the operands of calls. -/
lemma map_exprCode {α : Type} {f : Instr → α} (hf : ∀ i j, f (.call i) = f (.call j))
    (callIndex callIndex' : CStr → UInt16) (vars : Vars) (e : Expr) :
    (exprCode callIndex vars e).map f = (exprCode callIndex' vars e).map f := by
  unfold exprCode
  split
  · exact map_exprCode hf callIndex callIndex' _ _
  · rw [List.map_append, List.map_append, map_exprCode hf callIndex callIndex']
  · rfl
  · rw [List.map_append, List.map_append, map_exprCode hf callIndex callIndex']
    exact congrArg (_ ++ [·]) (hf _ _)
  · rw [List.map_append, List.map_append, map_exprCode hf callIndex callIndex' vars,
      map_exprCode hf callIndex callIndex' (exprVars _ _)]
  · rfl

lemma effectsOf_exprCode (callIndex : CStr → UInt16) (vars : Vars) (e : Expr) :
    effectsOf (exprCode callIndex vars e) = effectsOf (exprCode (fun _ => 0) vars e) :=
  map_exprCode (fun _ _ => rfl) _ _ _ _

lemma incsOf_exprCode (callIndex : CStr → UInt16) (vars : Vars) (e : Expr) :
    incsOf (exprCode callIndex vars e) = incsOf (exprCode (fun _ => 0) vars e) := by
  have hincs : ∀ code, incsOf code = (code.map fun i : Instr =>
      if i.isCall then [] else [opcodeToStackIncMap i.opcode]).flatten := by
    intro code
    induction code with
    | nil => rfl
    | cons i code ih =>
      unfold incsOf at *
      cases hi : i.isCall <;> simp [hi, ih]
  rw [hincs, hincs, map_exprCode (fun _ _ => rfl) callIndex fun _ => 0]

lemma scopeAccount_callIndex (callIndex : CStr → UInt16) (vars : Vars) (account : ℕ × ℕ)
    (stat : Stat) : scopeAccount callIndex vars account stat
      = scopeAccount (fun _ => 0) vars account stat := by
  induction stat generalizing vars account with
  | expr e next ih => simp only [scopeAccount, incsOf_exprCode callIndex, ih]
  | ifElse e trueScope falseScope next iht ihf ih =>
    simp only [scopeAccount, incsOf_exprCode callIndex, iht, ihf, ih]
  | «while» e loopScope next ihl ih =>
    simp only [scopeAccount, incsOf_exprCode callIndex, ihl, ih]
  | _ => rfl

/-- The depth of a stack of `size` bytes; the jump behind a condition takes a word. -/
def depthFlow (size : ℕ) : Flow Span where
  Inv _ a frame := a.Holds size frame
  leave vars e a := a.run (effectsOf (exprCode (fun _ => 0) vars e))
  test vars e a := a.run (effectsOf (exprCode (fun _ => 0) vars e ++ [.jez 0]))
  Good vars a e := Span.Fits size a (effectsOf (exprCode (fun _ => 0) vars e))
  GoodCond vars a e := Span.Fits size a (effectsOf (exprCode (fun _ => 0) vars e ++ [.jez 0]))

/-- The word of a condition is there. -/
lemma tested_span {size : ℕ} {a : Span} {frame : Frame} (h : a.Holds size frame)
    (hfits : Span.Fits size a [(1, 0)]) :
    frame.Tested OffStack ((a.step (1, 0)).Holds size) ((a.step (1, 0)).Holds size) := by
  have hleast := h.least
  have hgreatest := h.greatest
  have hone : 1 ≤ a.least := hfits.1
  unfold Frame.Tested
  cases hstack : frame.stack with
  | nil =>
    rw [hstack, List.length_nil] at hleast
    omega
  | cons w rest =>
    rw [hstack, List.length_cons] at hleast hgreatest
    have hrest : (a.step (1, 0)).Holds size { frame with stack := rest } := by
      refine ⟨?_, ?_, h.size⟩
      · change a.least - 1 + 0 ≤ rest.length
        omega
      · change rest.length ≤ a.greatest - 1 + 0
        omega
    exact ⟨fun _ => hrest, fun _ => hrest⟩

lemma depthFlow_sound (size : ℕ) (callIndex : CStr → UInt16) :
    (depthFlow size).Sound host OffStack (fun _ _ => true) callIndex where
  jumps := fun _ _ => ⟨rfl, rfl, rfl⟩
  mono hab h := Span.Holds.mono hab h
  forget _ h := h
  expr := by
    intro vars a e _ hfits
    simp only [depthFlow, ← effectsOf_exprCode callIndex] at hfits ⊢
    exact line_span hfits fun i hi => exprCode_straight host callIndex hi
  cond := by
    intro vars a e _ hfits
    have hsplit : effectsOf (exprCode (fun _ => 0) vars e ++ [.jez 0])
        = effectsOf (exprCode callIndex vars e) ++ [(1, 0)] := by
      rw [effectsOf_exprCode callIndex]
      exact List.map_append
    simp only [depthFlow, hsplit, Span.fits_append] at hfits ⊢
    refine (line_span hfits.1 fun i hi => exprCode_straight host callIndex hi).mono
      (fun _ h => h) fun frame h => ?_
    have htested := tested_span h hfits.2
    rwa [Span.run, List.foldl_append]

/-! ## Programs -/

/-- The bytes that `compile_func` counts for the stack of a function, as they are in its header. -/
def countedStack (func : DeclFunc) : ℕ :=
  (scopeAccount (fun _ => 0) (paramVars func.args) (0, 0) func.body).2 % 65536

/-- From an empty stack each instruction of the program finds its words and room for its result:
in the 1024 bytes of the root frame, and in those that were counted for a function. Branches are
joined, and a loop ends each round inside the span that it started with. -/
def DepthsFit (program : List TopLevel) : Prop :=
  (depthFlow 1024).FollowsProgram (fun func =>
    (depthFlow (countedStack func)).Follows (paramVars func.args) (.between 0 0) func.body)
    [] (.between 0 0) program

instance (size : ℕ) (vars : Vars) (a : Span) (e : Expr) : Decidable ((depthFlow size).Good vars a e) :=
  inferInstanceAs (Decidable (Span.Fits _ _ _))

instance (size : ℕ) (vars : Vars) (a : Span) (e : Expr) :
    Decidable ((depthFlow size).GoodCond vars a e) :=
  inferInstanceAs (Decidable (Span.Fits _ _ _))

instance (program : List TopLevel) : Decidable (DepthsFit program) :=
  inferInstanceAs (Decidable (Flow.FollowsProgram _ _ _ _ _))

/-- A function is entered with an empty stack of the size in its header. -/
def EmptyStack (handle : FuncHandle) (frame : Frame) : Prop :=
  frame.stack = [] ∧ frame.stackSize = handle.stackSize

/-- The functions that follow the depth are certified once they are registered. -/
lemma funcsCertified_depth (program : List TopLevel) :
    Flow.FuncsCertified host OffStack (fun _ _ => true) EmptyStack (fun func =>
      (depthFlow (countedStack func)).Follows (paramVars func.args) (.between 0 0) func.body)
      program := by
  intro n func callIndex varsMaxSize fuel vm handle vm' _ hreg hfollows hregister
  obtain ⟨-, hdata, ⟨_, _, _, _, _, hbytes, -, hstack⟩, -⟩ := vmRegister_handle hregister
  have hsize : handle.stackSize = countedStack func := by
    simp only [funcHeader, htobe16, List.cons_append, List.nil_append, List.cons.injEq] at hbytes
    obtain ⟨-, -, rfl, rfl, -⟩ := hbytes
    rw [hstack, be16toh_htobe16, UInt16.toNat_ofNat', countedStack,
      scopeAccount_callIndex callIndex]
  refine (depthFlow_sound (countedStack func) callIndex).func hreg hfollows hdata ?_
  rintro frame ⟨hempty, hframe⟩
  exact ⟨Nat.zero_le _, by rw [hempty]; exact Nat.le_refl 0, hframe.trans hsize⟩

/-! ## Frames -/

/-- All frames have their stack pointers inside of their stacks. -/
def AllWithin (s : MachineState) : Prop :=
  s.current.frame.Within ∧ ∀ caller ∈ s.callers, caller.frame.Within

/-- The step lemma. -/
lemma AllWithin.step {vm : Vm} {s s' : MachineState} (h : AllWithin s)
    (hstep : VmStep host vm s s') : AllWithin s' := by
  have hreturn : ∀ {r}, vmStep.returnToCaller s = r → r = some (.ok s') → AllWithin s' := by
    intro r hr hs
    rw [hs, vmStep.returnToCaller] at hr
    split at hr
    · cases hr
    · rename_i caller callers hcallers
      cases hr
      have hall := h.2
      rw [hcallers] at hall
      exact ⟨hall caller List.mem_cons_self, fun a ha => hall a (List.mem_cons_of_mem _ ha)⟩
  unfold VmStep at hstep
  rw [vmStep] at hstep
  split at hstep
  · split at hstep
    · split at hstep
      · obtain ⟨_, handle, -, -, -, -, -, rfl⟩ :=
          vmExecuteOpcodeCall_eq_ok (Option.some.inj hstep)
        refine ⟨Nat.zero_le _, fun caller hcaller => ?_⟩
        rcases List.mem_cons.mp hcaller with rfl | hcaller
        · exact h.1
        · exact h.2 caller hcaller
      · cases hexec : opcodeExecuteFuncs host _ s.current.frame _ with
        | error e =>
          rw [hexec] at hstep
          cases hstep
        | ok r =>
          rw [hexec] at hstep
          cases hstep
          exact ⟨staysWithin _ _ _ _ _ hexec h.1, h.2⟩
    · exact hreturn rfl hstep
  · exact hreturn rfl hstep

lemma AllWithin.reach {vm : Vm} {s s' : MachineState} (h : AllWithin s)
    (hreach : VmReach host vm s s') : AllWithin s' := by
  induction hreach with
  | refl => exact h
  | tail _ hstep ih => exact ih.step hstep

/-- The run lemma. -/
lemma allWithin_session {vm vm' : Vm} {frame : Frame} {events : List Event} {s : MachineState}
    (hframe : frame.Within) (h : SessionReach host vm frame events vm' s) : AllWithin s := by
  have hstart : ∀ {frame : Frame} (code : List UInt8), frame.Within →
      AllWithin (vmStart frame code) := fun _ hframe => ⟨hframe, nofun⟩
  induction h with
  | here hreach => exact (hstart _ hframe).reach hreach
  | execute hruns _ ih =>
    obtain ⟨s, hreach, -, rfl⟩ := hruns
    exact ih ((hstart _ hframe).reach hreach).1
  | register _ _ ih => exact ih hframe

/-- In every state of every run of a program whose depths fit, the stack pointers of all frames are
inside of their stacks, and no instruction pops below the start or pushes past the end. -/
theorem stack_within {isInteractive : Bool} {program : List TopLevel}
    (hp : EncodableProgram program) (hfit : DepthsFit program) {vm : Vm} {s : MachineState}
    (hs : Passes host isInteractive program vm s) :
    AllWithin s ∧ vmStep host vm s ≠ some (.error (.fault .underflow)) ∧
      vmStep host vm s ≠ some (.error (.fault .overflow)) := by
  have hstops := (Flow.Sound.session (depthFlow_sound 1024) (funcsCertified_depth program) hp hfit
    ⟨Nat.zero_le _, Nat.le_refl 0, rfl⟩ (fun vm s n _ hvm => hvm.calls ?_ ?_) hs).2
  · obtain ⟨_, _, -, hreach⟩ := hs
    refine ⟨allWithin_session (Nat.zero_le _) hreach, fun hstop => ?_, fun hstop => ?_⟩
    · exact (hstops _ hstop).2 rfl
    · exact (hstops _ hstop).1 rfl
  · -- a call sets up an empty stack
    intro data s' _ hcall index handle hindex hhandle
    obtain ⟨index', handle', hindex', hhandle', -, -, -, rfl⟩ := vmExecuteOpcodeCall_eq_ok hcall
    obtain rfl := Except.ok.inj (hindex.symm.trans hindex')
    obtain rfl := Except.ok.inj (hhandle.symm.trans hhandle')
    exact ⟨rfl, rfl⟩
  · exact fun data e hcall => vmExecuteOpcodeCall_error hcall

/-- In the function that `sampleProgram` calls behind its loop, where a word is on the stack of the
callee. -/
theorem stack_within_sample : ∃ vm s, Passes zeroHost true sampleProgram vm s ∧
    s.callers.length = 1 ∧ s.current.pc = 2 ∧ s.current.frame.stack.length = 1 ∧ AllWithin s ∧
      vmStep zeroHost vm s ≠ some (.error (.fault .underflow)) ∧
      vmStep zeroHost vm s ≠ some (.error (.fault .overflow)) := by
  have hstates : (programStates zeroHost 3 50 true sampleProgram).map (·.any fun p =>
      decide (p.2.callers.length = 1 ∧ p.2.current.pc = 2 ∧ p.2.current.frame.stack.length = 1))
      = some true := by decide +kernel
  obtain ⟨vm, s, hs, hplace⟩ := exists_passes _ hstates
  obtain ⟨hcallers, hpc, hstack⟩ := of_decide_eq_true hplace
  exact ⟨vm, s, hs, hcallers, hpc, hstack, stack_within encodable_sample (by decide +kernel) hs⟩

/-- An assignment leaves no word, and the jump behind it takes one: `if x = 1 {}` -/
theorem condition_underflows : ∃ vm s,
    Passes zeroHost true [.stat (.ifElse setOne .nil .nil .nil)] vm s ∧
      vmStep zeroHost vm s = some (.error (.fault .underflow)) :=
  ⟨vmStaticInit, vmStart savedOne [opcodeJez, 0, 3, opcodeJmp, 0, 0], ⟨2,
    [.execute [opcodeIconst, 0, 0, 0, 1], .execute [opcodeIsave, 0],
      .execute [opcodeJez, 0, 3, opcodeJmp, 0, 0]], by decide +kernel,
    .execute vmRuns_pushOne (.execute vmRuns_saveOne (.here .refl))⟩, rfl⟩

end PhantomShell
