import Mathlib.Order.Lattice
import PhantomShell.Compiler.Accepted
import PhantomShell.Compiler.BlockRules
import PhantomShell.Session

/-!
# Assertions that follow the statements

A `Flow` asserts something of the frame between statements, in terms of the visible variables and
of a value that expressions and conditions change; branches are joined, and a loop has to come
back below its entry. If the expressions keep the assertions (`Flow.Sound`), then so do the
statements (`Sound.scope`) and the sessions of whole programs (`Sound.session`).
-/

namespace PhantomShell

/-- What a program that the compiler accepts makes the machine do. -/
def compiledEvents (fuel : ℕ) (isInteractive : Bool) (program : List TopLevel) :
    Option (List Event) :=
  match compileProgram fuel program (compilerInit isInteractive) with
  | .ok _ s => some s.events
  | .error _ _ => none

lemma compiledEvents_eq_some {fuel : ℕ} {isInteractive : Bool} {program : List TopLevel}
    {events : List Event} (h : compiledEvents fuel isInteractive program = some events) :
    ∃ s, compileProgram fuel program (compilerInit isInteractive) = .ok () s ∧
      s.events = events := by
  unfold compiledEvents at h
  cases hcompile : compileProgram fuel program (compilerInit isInteractive) with
  | ok _ s =>
    rw [hcompile] at h
    exact ⟨s, rfl, Option.some.inj h⟩
  | error e s =>
    rw [hcompile] at h
    cases h

/-- The states that the machine passes while it runs a program that the compiler accepts. -/
def Passes (host : Host) (isInteractive : Bool) (program : List TopLevel) (vm : Vm)
    (s : MachineState) : Prop :=
  ∃ fuel events, compiledEvents fuel isInteractive program = some events ∧
    SessionReach host vmStaticInit (rootFrame host) events vm s

lemma Passes.regular {host : Host} {isInteractive : Bool} {program : List TopLevel} {vm : Vm}
    {s : MachineState} (hs : Passes host isInteractive program vm s)
    (hp : EncodableProgram program) : RegularProgram program := by
  obtain ⟨fuel, events, hevents, -⟩ := hs
  obtain ⟨s', hcompile, -⟩ := compiledEvents_eq_some hevents
  exact hp.regular hcompile

/-- The root frame after the first chunk of `x = 1`, and after both. -/
def pushedOne : Frame := { rootFrame zeroHost with stack := [⟨.int, 1⟩] }

def savedOne : Frame :=
  { rootFrame zeroHost with locals := (rootFrame zeroHost).locals.set 0 ⟨.int, 1⟩ }

lemma vmRuns_pushOne : VmRuns zeroHost vmStaticInit (rootFrame zeroHost)
    [opcodeIconst, 0, 0, 0, 1] pushedOne := vmRuns_of_vmRun 2 (by decide +kernel)

lemma vmRuns_saveOne : VmRuns zeroHost vmStaticInit pushedOne [opcodeIsave, 0] savedOne :=
  vmRuns_of_vmRun 2 (by decide +kernel)

/-- What is asserted between statements, and what an expression or a condition asks for. -/
structure Flow (α : Type) where
  Inv : Vars → α → Frame → Prop
  leave : Vars → Expr → α → α
  test : Vars → Expr → α → α
  Good : Vars → α → Expr → Prop
  GoodCond : Vars → α → Expr → Prop

namespace Flow

variable {α : Type} [SemilatticeSup α] (F : Flow α)

/-- The value behind the statements. -/
def after (vars : Vars) (a : α) : Stat → α
  | .expr e next => after (exprVars vars e) (F.leave vars e a) next
  | .ifElse e trueScope falseScope next =>
    let vars' := exprVars vars e
    let b := F.test vars e a
    after vars' (after vars' b trueScope ⊔ after vars' b falseScope) next
  | .while e _ next => after vars (F.test vars e a) next
  | _ => a

/-- The statements are such that the assertions follow them. -/
def Follows (vars : Vars) (a : α) : Stat → Prop
  | .expr e next => F.Good vars a e ∧ Follows (exprVars vars e) (F.leave vars e a) next
  | .ifElse e trueScope falseScope next =>
    let vars' := exprVars vars e
    let b := F.test vars e a
    F.GoodCond vars a e ∧ Follows vars' b trueScope ∧ Follows vars' b falseScope ∧
      Follows vars' (F.after vars' b trueScope ⊔ F.after vars' b falseScope) next
  | .while e loopScope next =>
    let b := F.test vars e a
    F.GoodCond vars a e ∧ Follows vars b loopScope ∧ F.after vars b loopScope ≤ a ∧
      Follows vars b next
  | _ => True

/-- The assertions follow the statements of the program, and its functions are fit. -/
def FollowsProgram (FuncOk : DeclFunc → Prop) (vars : Vars) (a : α) : List TopLevel → Prop
  | [] => True
  | .stat stat :: program => F.Follows vars a stat.single ∧
      FollowsProgram FuncOk (scopeVars vars stat.single) (F.after vars a stat.single) program
  | .func func :: program => FuncOk func ∧ FollowsProgram FuncOk vars a program

instance decidableFollows [∀ vars a e, Decidable (F.Good vars a e)]
    [∀ vars a e, Decidable (F.GoodCond vars a e)] [∀ a b : α, Decidable (a ≤ b)] :
    (vars : Vars) → (a : α) → (stat : Stat) → Decidable (F.Follows vars a stat)
  | vars, a, .expr e next =>
    have := decidableFollows (exprVars vars e) (F.leave vars e a) next
    inferInstanceAs (Decidable (F.Good vars a e ∧
      F.Follows (exprVars vars e) (F.leave vars e a) next))
  | vars, a, .ifElse e trueScope falseScope next =>
    have := decidableFollows (exprVars vars e) (F.test vars e a) trueScope
    have := decidableFollows (exprVars vars e) (F.test vars e a) falseScope
    have := decidableFollows (exprVars vars e) (F.after (exprVars vars e) (F.test vars e a) trueScope ⊔
      F.after (exprVars vars e) (F.test vars e a) falseScope) next
    inferInstanceAs (Decidable (F.GoodCond vars a e ∧
      F.Follows (exprVars vars e) (F.test vars e a) trueScope ∧
      F.Follows (exprVars vars e) (F.test vars e a) falseScope ∧
      F.Follows (exprVars vars e) (F.after (exprVars vars e) (F.test vars e a) trueScope ⊔
        F.after (exprVars vars e) (F.test vars e a) falseScope) next))
  | vars, a, .while e loopScope next =>
    have := decidableFollows vars (F.test vars e a) loopScope
    have := decidableFollows vars (F.test vars e a) next
    inferInstanceAs (Decidable (F.GoodCond vars a e ∧ F.Follows vars (F.test vars e a) loopScope ∧
      F.after vars (F.test vars e a) loopScope ≤ a ∧ F.Follows vars (F.test vars e a) next))
  | _, _, .nil => isTrue trivial
  | _, _, .other _ => isTrue trivial
  | _, _, .notScope _ => isTrue trivial

instance decidableFollowsProgram (FuncOk : DeclFunc → Prop) [∀ func, Decidable (FuncOk func)]
    [∀ vars a stat, Decidable (F.Follows vars a stat)] :
    (vars : Vars) → (a : α) → (program : List TopLevel) →
      Decidable (F.FollowsProgram FuncOk vars a program)
  | _, _, [] => isTrue trivial
  | vars, a, .stat stat :: program =>
    have := decidableFollowsProgram FuncOk (scopeVars vars stat.single) (F.after vars a stat.single)
      program
    inferInstanceAs (Decidable (F.Follows vars a stat.single ∧
      F.FollowsProgram FuncOk (scopeVars vars stat.single) (F.after vars a stat.single) program))
  | vars, a, .func func :: program =>
    have := decidableFollowsProgram FuncOk vars a program
    inferInstanceAs (Decidable (FuncOk func ∧ F.FollowsProgram FuncOk vars a program))

variable (host : Host) (ok : VmStop → Prop) (guard : Instr → Frame → Bool)
  (callIndex : CStr → UInt16)

/-- The code of expressions and of conditions keeps the assertions. -/
structure Sound : Prop where
  jumps : JumpsPass guard
  mono : ∀ {vars : Vars} {a b : α} {frame : Frame}, a ≤ b → F.Inv vars a frame → F.Inv vars b frame
  forget : ∀ {vars vars' : Vars} {a : α} {frame : Frame}, vars <+: vars' →
    F.Inv vars' a frame → F.Inv vars a frame
  expr : ∀ {vars : Vars} {a : α} {e : Expr}, RegularExpr vars e → F.Good vars a e →
    (guardedIsa host guard).Line (Tolerated ok) (F.Inv vars a) (exprCode callIndex vars e)
      (F.Inv (exprVars vars e) (F.leave vars e a))
  cond : ∀ {vars : Vars} {a : α} {e : Expr}, RegularExpr vars e → F.GoodCond vars a e →
    (guardedIsa host guard).Line (Tolerated ok) (F.Inv vars a) (exprCode callIndex vars e)
      (Frame.Tested ok (F.Inv (exprVars vars e) (F.test vars e a))
        (F.Inv (exprVars vars e) (F.test vars e a)))

variable {F host ok guard callIndex}

lemma Frame.Tested.mono {T T' G G' : Frame → Prop} {frame : Frame}
    (h : frame.Tested ok T G) (hT : ∀ f, T f → T' f) (hG : ∀ f, G f → G' f) :
    frame.Tested ok T' G' := by
  unfold Frame.Tested at *
  split at h
  · exact ⟨fun hw => hT _ (h.1 hw), fun hw => hG _ (h.2 hw)⟩
  · exact h

/-- The chunks of a scope take the assertion in front of it to the one behind it. -/
theorem Sound.scope (hF : F.Sound host ok guard callIndex) {vars : Vars} {a : α} {stat : Stat}
    (hreg : RegularScope callIndex vars stat) (h : F.Follows vars a stat) :
    (guardedIsa host guard).Seq (Tolerated ok) (F.Inv vars a) (scopeCode callIndex vars stat)
      (F.Inv (scopeVars vars stat) (F.after vars a stat)) := by
  induction stat generalizing vars a with
  | expr e next ih =>
    exact JumpIsa.Seq.append (hF.expr hreg.1 h.1) (ih hreg.2 h.2)
  | ifElse e trueScope falseScope next iht ihf ih =>
    obtain ⟨hexprR, htrueR, hfalseR, htrueSize, hfalseSize, hnextR⟩ := hreg
    obtain ⟨hcond, htrue, hfalse, hnext⟩ := h
    refine JumpIsa.Seq.append (hF.cond hexprR hcond) ⟨_, ?_, ih hnextR hnext⟩
    -- both blocks end below their join, and their variables are forgotten
    refine guarded_ifCode hF.jumps htrueSize hfalseSize (fun _ hf => hf) ?_ ?_
    · exact (JumpIsa.Seq.flatten (iht htrueR htrue)).mono (fun _ hf => hf) fun _ hf =>
        hF.mono le_sup_left (hF.forget (prefix_scopeVars _ _) hf)
    · exact (JumpIsa.Seq.flatten (ihf hfalseR hfalse)).mono (fun _ hf => hf) fun _ hf =>
        hF.mono le_sup_right (hF.forget (prefix_scopeVars _ _) hf)
  | «while» e loopScope next ihl ih =>
    obtain ⟨hexprR, hloopR, hsize, hnextR⟩ := hreg
    obtain ⟨hcond, hloop, hback, hnext⟩ := h
    refine ⟨_, ?_, ih hnextR hnext⟩
    have hforget : ∀ f, F.Inv (exprVars vars e) (F.test vars e a) f →
        F.Inv vars (F.test vars e a) f := fun f hf => hF.forget (prefix_exprVars vars e) hf
    refine guarded_whileCode hF.jumps hsize (hF.cond hexprR hcond).block
      (fun f hf => Frame.Tested.mono hf hforget hforget) ?_
    exact (JumpIsa.Seq.flatten (ihl hloopR hloop)).mono (fun _ hf => hf) fun _ hf =>
      hF.mono hback (hF.forget (prefix_scopeVars _ _) hf)
  | _ => exact fun _ hf => hf

/-! ## Programs -/

variable (host ok guard) in
/-- Each function of the program that is fit for it is certified once it is registered. -/
def FuncsCertified (Entry : FuncHandle → Frame → Prop) (FuncOk : DeclFunc → Prop)
    (program : List TopLevel) : Prop :=
  ∀ n func callIndex varsMaxSize fuel vm handle vm', (functionsOf program)[n]? = some func →
    RegularScope callIndex (paramVars func.args) func.body → FuncOk func →
    vmRegister fuel vm (signatureOf func) (funcHeader varsMaxSize
        (scopeAccount callIndex (paramVars func.args) (0, 0) func.body).2 ++
      encodeAll (scopeCode callIndex (paramVars func.args) func.body).flatten)
        = .ok (UInt16.ofNat n, handle, vm') → FuncHolds host ok guard Entry handle

/-- Nothing is executed where the root emitter keeps the chunks. -/
lemma sessionReach_buffered {vars : Vars} {program : List TopLevel} {events : List Event}
    {vm vm' : Vm} {frame : Frame} {s : MachineState}
    (hevents : ProgramEvents false vars program events)
    (hreach : SessionReach host vm frame events vm' s) : False := by
  induction hevents generalizing vm with
  | nil => cases hreach
  | stat _ ih => exact ih hreach
  | func _ ih =>
    cases hreach with
    | register _ hrest => exact ih hrest

/-- A function whose body follows a flow, for the frames that the flow starts in. -/
lemma Sound.func (hF : F.Sound host ok guard callIndex) {func : DeclFunc} {a : α}
    (hreg : RegularScope callIndex (paramVars func.args) func.body)
    (h : F.Follows (paramVars func.args) a func.body) {Entry : FuncHandle → Frame → Prop}
    {handle : FuncHandle} {varsMaxSize stackMaxSize : ℕ}
    (hdata : handle.bytecodeData = funcHeader varsMaxSize stackMaxSize ++
      encodeAll (scopeCode callIndex (paramVars func.args) func.body).flatten)
    (hentry : ∀ frame, Entry handle frame → F.Inv (paramVars func.args) a frame) :
    FuncHolds host ok guard Entry handle := by
  refine ⟨(scopeCode callIndex (paramVars func.args) func.body).flatten, ?_, ?_⟩
  · rw [hdata]
    rfl
  · exact (JumpIsa.Seq.flatten (hF.scope hreg h)).mono hentry fun _ _ => trivial

variable {Entry : FuncHandle → Frame → Prop} {FuncOk : DeclFunc → Prop} {isInteractive : Bool}

/-- The events of an interactive program take the assertion in front of it; `n` functions of
`whole` come before it. -/
theorem Sound.program (hF : ∀ callIndex, F.Sound host ok guard callIndex)
    {whole program : List TopLevel} (hfuncs : FuncsCertified host ok guard Entry FuncOk whole)
    {vars : Vars} {a : α} {events : List Event} {n : ℕ}
    (hevents : ProgramEvents true vars program events)
    (hreg : Throughout (RegularScope fun _ => 0)
      (fun func => RegularScope (fun _ => 0) (paramVars func.args) func.body) vars program)
    (h : F.FollowsProgram FuncOk vars a program)
    (hn : (functionsOf whole).drop n = functionsOf program) :
    EventsHold host ok guard Entry n (F.Inv vars a) events := by
  induction hevents generalizing a n with
  | nil => trivial
  | @stat callIndex vars stat program events _ ih =>
    exact (ih hreg.2 h.2 hn).execute
      ((hF callIndex).scope ((regularScope_callIndex _ _ _ _).mp hreg.1) h.1)
  | @func callIndex vars func program events varsMaxSize _ ih =>
    have hget : (functionsOf whole)[n]? = some func := by
      have := congrArg List.head? hn
      rwa [List.head?_drop] at this
    refine ⟨fun fuel vm handle vm' hregister => ?_, ih hreg.2 h.2 ?_⟩
    · exact hfuncs n func callIndex varsMaxSize fuel vm handle vm' hget
        ((regularScope_callIndex _ _ _ _).mp hreg.1) h.1 hregister
    · rw [← List.tail_drop, hn]
      rfl

/-- The run lemma: what follows the statements of a program holds of its sessions. -/
theorem Sound.session (hF : ∀ callIndex, F.Sound host ok guard callIndex)
    {program : List TopLevel} (hfuncs : FuncsCertified host ok guard Entry FuncOk program)
    (hp : EncodableProgram program) {a : α} (h : F.FollowsProgram FuncOk [] a program)
    (hroot : F.Inv [] a (rootFrame host))
    (hcalls : ∀ vm s n, Passes host isInteractive program vm s →
      VmHolds host ok guard Entry n vm → CallsHold host ok guard vm s)
    {vm : Vm} {s : MachineState} (hs : Passes host isInteractive program vm s) :
    (∃ Q, Stacked host ok guard Q s.current s.callers) ∧
      ∀ e, vmStep host vm s = some (.error e) → ok e := by
  have hreg := hs.regular hp
  obtain ⟨fuel, events, hevents, hreach⟩ := hs
  obtain ⟨s', hcompile, hs'⟩ := compiledEvents_eq_some hevents
  obtain ⟨events', hevents', hprogram⟩ :=
    compileProgram_events (atRoot_init isInteractive) hp.parsed.untraced hreg hcompile
  obtain rfl : events' = events := hevents'.symm.trans hs'
  cases isInteractive with
  | false => exact (sessionReach_buffered hprogram hreach).elim
  | true =>
    exact session_stacked hreach vmHolds_init (Sound.program hF hfuncs hprogram hreg h rfl) hroot
      fun vm s n hs => hcalls vm s n ⟨fuel, events', hevents, hs⟩

/-! ## Flows of facts -/

/-- A flow that only asks something of each expression. -/
lemma follows_of_each {F : Flow Unit} {P : Vars → Expr → Prop}
    (h : ∀ vars e, P vars e → F.Good vars () e ∧ F.GoodCond vars () e) {vars : Vars} {stat : Stat}
    (hstat : EachExpr P vars stat) : F.Follows vars () stat := by
  induction stat generalizing vars with
  | expr e next ih => exact ⟨(h _ _ hstat.1).1, ih hstat.2⟩
  | ifElse e trueScope falseScope next iht ihf ih =>
    exact ⟨(h _ _ hstat.1).2, iht hstat.2.1, ihf hstat.2.2.1, ih hstat.2.2.2⟩
  | «while» e loopScope next ihl ih =>
    exact ⟨(h _ _ hstat.1).2, ihl hstat.2.1, le_refl _, ih hstat.2.2⟩
  | _ => trivial

lemma followsProgram_of_each {F : Flow Unit} {P : Vars → Expr → Prop}
    (h : ∀ vars e, P vars e → F.Good vars () e ∧ F.GoodCond vars () e) {vars : Vars}
    {program : List TopLevel} (hprogram : Throughout (EachExpr P)
      (fun func => EachExpr P (paramVars func.args) func.body) vars program) :
    F.FollowsProgram (fun func => F.Follows (paramVars func.args) () func.body) vars () program := by
  induction program generalizing vars with
  | nil => trivial
  | cons node program ih =>
    cases node with
    | stat stat => exact ⟨follows_of_each h hprogram.1, ih hprogram.2⟩
    | func func => exact ⟨follows_of_each h hprogram.1, ih hprogram.2⟩

end Flow

end PhantomShell
