import PhantomShell.Lib.Lockstep
import PhantomShell.Vm.Assertions

/-!
# The outcomes of conditional jumps

A run of the machine with the outcomes of the conditional jumps that its outermost activation
executes, in order: the way that it takes through the code. `Beside` follows that activation
through two runs at a time. A call only looks at the stack of its caller and only touches the
activations above it, so `vmTakes_twin` and `vmTakes_block` need no assertion for the callees.
-/

namespace PhantomShell

variable {host : Host} {ok : VmStop → Prop} {guard : Instr → Frame → Bool}

/-- No stop of the machine is a failure. -/
def anyStop : VmStop → Prop := fun _ => True

/-- The outcome of the conditional jump that the outermost activation is about to execute, if it
is about to execute one: whether the word that is tested is different from zero. -/
def MachineState.outcome (s : MachineState) : List Bool :=
  match s.callers, s.current.code.drop s.current.pc.toNat, s.current.frame.stack with
  | [], opcode :: _, w :: _ =>
    if opcode = opcodeJez ∨ opcode = opcodeJnez then [w.bits != 0] else []
  | _, _, _ => []

/-- `vm_execute_opcodes` on `code` returns and leaves `frame'`, and these are the outcomes of the
conditional jumps on its way. -/
def VmTakes (host : Host) (vm : Vm) (frame : Frame) (code : List UInt8) (outcomes : List Bool)
    (frame' : Frame) : Prop :=
  ∃ s, Labelled (VmStep host vm) MachineState.outcome (vmStart frame code) outcomes s ∧
    vmStep host vm s = none ∧ s.current.frame = frame'

/-- Each run that returns has outcomes. -/
lemma vmRuns_iff_takes {vm : Vm} {frame frame' : Frame} {code : List UInt8} :
    VmRuns host vm frame code frame' ↔ ∃ outcomes, VmTakes host vm frame code outcomes frame' := by
  constructor
  · rintro ⟨s, hreach, hend, hframe⟩
    obtain ⟨outcomes, hlabelled⟩ := exists_labelled hreach
    exact ⟨outcomes, s, hlabelled, hend, hframe⟩
  · rintro ⟨outcomes, s, hlabelled, hend, hframe⟩
    exact ⟨s, hlabelled.erase, hend, hframe⟩

/-- And there is only one way that it takes. -/
lemma VmTakes.unique {vm : Vm} {frame frame₁ frame₂ : Frame} {code : List UInt8}
    {outcomes₁ outcomes₂ : List Bool} (h₁ : VmTakes host vm frame code outcomes₁ frame₁)
    (h₂ : VmTakes host vm frame code outcomes₂ frame₂) :
    outcomes₁ = outcomes₂ ∧ frame₁ = frame₂ := by
  obtain ⟨s₁, hlabelled₁, hend₁, rfl⟩ := h₁
  obtain ⟨s₂, hlabelled₂, hend₂, rfl⟩ := h₂
  have hdet : ∀ s t u, VmStep host vm s t → VmStep host vm s u → t = u := by
    intro s t u ht hu
    rw [VmStep] at ht hu
    exact Except.ok.inj (Option.some.inj (ht.symm.trans hu))
  have hstuck : ∀ {s}, vmStep host vm s = none → ∀ r, ¬ VmStep host vm s r := by
    intro s hend r hstep
    rw [VmStep, hend] at hstep
    cases hstep
  obtain ⟨rfl, rfl⟩ := hlabelled₁.unique hdet (hstuck hend₁) hlabelled₂ (hstuck hend₂)
  exact ⟨rfl, rfl⟩

/-! ## Two activations -/

/-- The outcome of an instruction that tests a word. -/
def Instr.outcome : Instr → Frame → List Bool
  | .jez _, ⟨w :: _, _, _⟩ => [w.bits != 0]
  | _, _ => []

/-- The machine on one frame, with a log of the outcomes. -/
abbrev loggedIsa (host : Host) : JumpIsa Instr (Frame × List Bool) VmStop :=
  (vmIsa host).logged Instr.outcome

lemma logged_sizeOf (code : List Instr) : (loggedIsa host).sizeOf code = codeSize code :=
  sizeOf_eq_codeSize host code

/-- The machine on two frames with the same stack. -/
abbrev twinIsa (host : Host) : JumpIsa Instr (Frame × Frame) (Option VmStop) :=
  (vmIsa host).twin fun f g => f.stack = g.stack

/-- The same with a log of the outcomes. -/
abbrev twinLoggedIsa (host : Host) : JumpIsa Instr ((Frame × Frame) × List Bool) (Option VmStop) :=
  (twinIsa host).logged fun i p => i.outcome p.1

lemma twin_sizeOf (code : List Instr) : (twinIsa host).sizeOf code = codeSize code :=
  sizeOf_eq_codeSize host code

lemma twinLogged_sizeOf (code : List Instr) : (twinLoggedIsa host).sizeOf code = codeSize code :=
  sizeOf_eq_codeSize host code

/-- The log gets the outcome of the instruction that the outermost activation stands at. -/
lemma outcome_instr {a : Activation} {code : List Instr} {pc : ℕ} {i : Instr}
    (hcode : a.code = encodeAll code) (hpc : a.pc = pc) (hat : (vmIsa host).At code pc i) :
    MachineState.outcome ⟨a, []⟩ = i.outcome a.frame := by
  obtain ⟨rest, hdrop⟩ := drop_of_at hat
  have hbytes : a.code.drop a.pc.toNat = i.opcode :: (i.operand ++ rest) := by
    rw [hcode, hpc, Int.toNat_natCast, hdrop]
    rfl
  obtain ⟨bytes, at', stack, size, locals⟩ := a
  simp only at hbytes
  simp only [MachineState.outcome, hbytes]
  cases stack with
  | nil => cases i <;> rfl
  | cons w words =>
    cases i with
    | plain op => cases op <;> rfl
    | load rep slot => cases rep <;> rfl
    | save rep slot => cases rep <;> rfl
    | _ => rfl

/-- Away from the outermost activation nothing is logged. -/
lemma outcome_above (current a : Activation) (more : List Activation) :
    MachineState.outcome ⟨current, more ++ [a]⟩ = [] := by
  cases more with
  | nil => rfl
  | cons b more => rfl

/-- A call only looks at the stack of its frame and at the number of callers. -/
lemma vmExecuteOpcodeCall_congr {vm : Vm} {s s' t : MachineState} {data : List UInt8}
    (h : vmExecuteOpcodeCall host vm s data = .ok s')
    (hstack : s.current.frame.stack = t.current.frame.stack)
    (hlength : s.callers.length = t.callers.length) :
    vmExecuteOpcodeCall host vm t data
      = .ok ⟨s'.current, { t.current with pc := t.current.pc + 3 } :: t.callers⟩ := by
  obtain ⟨index, handle, hindex, hhandle, hargs, hvars, hdepth, rfl⟩ := vmExecuteOpcodeCall_eq_ok h
  rw [hstack] at hargs
  rw [hlength] at hdepth
  simp only [vmExecuteOpcodeCall, hindex, hhandle, except_ok_bind]
  rw [if_neg (by omega), if_neg (by omega), if_neg (by omega), hstack]

/-- With other callers below it, as many as before, an activation makes the same step. -/
lemma vmStep_congr {vm : Vm} {current : Activation} {l m : List Activation} {s' : MachineState}
    (h : vmStep host vm ⟨current, l⟩ = some (.ok s')) (hlength : l.length = m.length) :
    (∃ more, s'.callers = more ++ l ∧
      vmStep host vm ⟨current, m⟩ = some (.ok ⟨s'.current, more ++ m⟩)) ∨
    (l = s'.current :: s'.callers ∧ ∀ b rest, m = b :: rest →
      vmStep host vm ⟨current, m⟩ = some (.ok ⟨b, rest⟩)) := by
  have hreturn : vmStep.returnToCaller ⟨current, l⟩ = some (.ok s') →
      l = s'.current :: s'.callers ∧ ∀ b rest, m = b :: rest →
        vmStep.returnToCaller ⟨current, m⟩ = some (.ok ⟨b, rest⟩) := by
    intro hs
    cases l with
    | nil => cases hs
    | cons b rest =>
      cases hs
      refine ⟨rfl, ?_⟩
      rintro b rest rfl
      rfl
  simp only [vmStep] at h ⊢
  by_cases hpc : 0 ≤ current.pc
  · rw [if_pos hpc] at h
    simp only [if_pos hpc]
    cases hdrop : current.code.drop current.pc.toNat with
    | nil =>
      rw [hdrop] at h
      exact .inr (hreturn h)
    | cons opcode data =>
      rw [hdrop] at h
      replace h := Option.some.inj h
      left
      by_cases hop : opcode = opcodeCall
      · rw [if_pos hop] at h
        have hcall := vmExecuteOpcodeCall_congr (t := ⟨current, m⟩) h rfl hlength
        exact ⟨[{ current with pc := current.pc + 3 }], callers_of_call h,
          by simp only [if_pos hop, hcall]; rfl⟩
      · rw [if_neg hop] at h
        simp only [if_neg hop]
        cases hexec : opcodeExecuteFuncs host opcode current.frame data with
        | error e =>
          rw [hexec] at h
          cases h
        | ok r =>
          rw [hexec] at h
          cases h
          exact ⟨[], rfl, rfl⟩
  · rw [if_neg hpc] at h
    simp only [if_neg hpc]
    exact .inr (hreturn h)

/-- Two activations stand at the same place of the same code, with assertions about their frames
and the log, and `Q` at the end of it. -/
def HoldsTwin (host : Host) (ok : VmStop → Prop) (Q : (Frame × Frame) × List Bool → Prop)
    (log : List Bool) (a b : Activation) : Prop :=
  ∃ code A, a.code = encodeAll code ∧ b.code = encodeAll code ∧
    (twinLoggedIsa host).Certified (Tolerated ok) code A ∧ (∀ s, A (codeSize code) s → Q s) ∧
    ∃ pc : ℕ, a.pc = pc ∧ b.pc = pc ∧ A pc ((a.frame, b.frame), log)

/-- Two machines that only differ in their outermost activations, which hold: they are about to go
on, or have been left by the same calls. -/
inductive Beside (host : Host) (ok : VmStop → Prop) (Q : (Frame × Frame) × List Bool → Prop) :
    MachineState → MachineState → List Bool → Prop
  | bottom {a b : Activation} {log : List Bool} :
      HoldsTwin host ok Q log a b → Beside host ok Q ⟨a, []⟩ ⟨b, []⟩ log
  | above {current a b : Activation} {more : List Activation} {log : List Bool} :
      HoldsTwin host ok Q log a b →
      Beside host ok Q ⟨current, more ++ [a]⟩ ⟨current, more ++ [b]⟩ log

/-- The step lemma: the second machine keeps up with the first one, whatever the calls run. -/
lemma vmStep_beside {Q : (Frame × Frame) × List Bool → Prop} {vm : Vm} {s s' t : MachineState}
    {log : List Bool} (h : Beside host ok Q s t log) (hstep : VmStep host vm s s') :
    ∃ t', VmStep host vm t t' ∧ Beside host ok Q s' t' (log ++ s.outcome) := by
  cases h with
  | @bottom a b _ h =>
    obtain ⟨code, A, ha, hb, hA, hpost, pc, hpca, hpcb, hframe⟩ := h
    rcases hA pc _ hframe with hend | ⟨i, hat, heff⟩
    · rw [twinLogged_sizeOf] at hend
      subst hend
      rw [VmStep, vmStep_end (s := ⟨a, []⟩) ha hpca] at hstep
      cases hstep
    · obtain ⟨hsame, heff⟩ := JumpIsa.effect_twin.mp (JumpIsa.effect_logged.mp heff)
      change (vmIsa host).At code pc i at hat
      rw [outcome_instr ha hpca hat]
      cases hi : i.isCall with
      | false =>
        rw [VmStep, vmStep_instr (s := ⟨a, []⟩) ha hpca hat hi] at hstep
        cases hexec : (vmIsa host).exec i a.frame with
        | error e =>
          rw [hexec] at hstep
          cases hstep
        | ok res =>
          rw [hexec] at heff hstep
          obtain ⟨g, hg, pc', hpc', hA'⟩ := heff
          cases hstep
          refine ⟨⟨⟨b.code, b.pc + res.2, g⟩, []⟩, ?_, .bottom ⟨code, A, ha, hb, hA, hpost, pc',
            by simpa [hpca] using hpc'.symm, by simpa [hpcb] using hpc'.symm, hA'⟩⟩
          rw [VmStep, vmStep_instr (s := ⟨b, []⟩) hb hpcb hat hi, hg]
      | true =>
        cases i with
        | call index =>
          obtain ⟨rest, hdrop, hcall⟩ := vmStep_call (s := ⟨a, []⟩) vm ha hpca hat
          obtain ⟨rest', hdrop', hcall'⟩ := vmStep_call (s := ⟨b, []⟩) vm hb hpcb hat
          obtain ⟨g, hg, pc', hpc', hA'⟩ := heff
          cases hg
          have hrest : rest' = rest := by
            have heq : opcodeCall :: (htobe16 index ++ rest') = opcodeCall :: (htobe16 index ++ rest) := by
              rw [← hdrop, ← hdrop', ha, hb, hpca, hpcb]
            exact List.append_cancel_left (List.cons.inj heq).2
          have hok := Option.some.inj (hcall.symm.trans hstep)
          rw [hrest, vmExecuteOpcodeCall_congr (t := ⟨b, []⟩) hok hsame rfl] at hcall'
          have hcallers := callers_of_call hok
          obtain ⟨current, callers⟩ := s'
          obtain rfl : callers = [{ a with pc := a.pc + 3 }] := hcallers
          have hleft : HoldsTwin host ok Q (log ++ (Instr.call index).outcome a.frame)
              { a with pc := a.pc + 3 } { b with pc := b.pc + 3 } :=
            ⟨code, A, ha, hb, hA, hpost, pc', by simpa [hpca] using hpc'.symm,
              by simpa [hpcb] using hpc'.symm, hA'⟩
          refine ⟨_, hcall', ?_⟩
          change Beside host ok Q ⟨current, [] ++ [_]⟩ ⟨current, [] ++ [_]⟩ _
          exact .above hleft
        | _ => cases hi
  | @above current a b more _ h =>
    rw [outcome_above, List.append_nil]
    rcases vmStep_congr (m := more ++ [b]) hstep (by simp) with
      ⟨new, hcallers, hstep'⟩ | ⟨hcallers, hstep'⟩
    · obtain ⟨current', callers⟩ := s'
      obtain rfl : callers = new ++ (more ++ [a]) := hcallers
      refine ⟨_, hstep', ?_⟩
      rw [← List.append_assoc, ← List.append_assoc]
      exact .above h
    · obtain ⟨current', callers⟩ := s'
      cases more with
      | nil =>
        obtain ⟨rfl, rfl⟩ := List.cons_eq_cons.mp hcallers
        exact ⟨_, hstep' b [] rfl, .bottom h⟩
      | cons c more =>
        obtain ⟨rfl, rfl⟩ := List.cons_eq_cons.mp hcallers
        exact ⟨_, hstep' c (more ++ [b]) rfl, .above h⟩

/-- Only the outermost call leaves the machine. -/
lemma callers_of_end {vm : Vm} {s : MachineState} (h : vmStep host vm s = none) :
    s.callers = [] := by
  have hreturn : vmStep.returnToCaller s = none → s.callers = [] := by
    intro hs
    rw [vmStep.returnToCaller] at hs
    split at hs
    · assumption
    · cases hs
  rw [vmStep] at h
  split at h
  · split at h
    · cases h
    · exact hreturn h
  · exact hreturn h

/-- Two machines that hold side by side leave their code together, with `Q`. -/
lemma Beside.ends {Q : (Frame × Frame) × List Bool → Prop} {vm : Vm} {s t : MachineState}
    {log : List Bool} (h : Beside host ok Q s t log) (hend : vmStep host vm s = none) :
    vmStep host vm t = none ∧ Q ((s.current.frame, t.current.frame), log) := by
  cases h with
  | @bottom a b _ h =>
    obtain ⟨code, A, ha, hb, hA, hpost, pc, hpca, hpcb, hframe⟩ := h
    rcases hA pc _ hframe with hfin | ⟨i, hat, -⟩
    · rw [twinLogged_sizeOf] at hfin
      subst hfin
      exact ⟨vmStep_end (s := ⟨b, []⟩) hb hpcb, hpost _ hframe⟩
    · change (vmIsa host).At code pc i at hat
      cases hi : i.isCall with
      | false =>
        rw [vmStep_instr (s := ⟨a, []⟩) ha hpca hat hi] at hend
        cases hend
      | true =>
        cases i with
        | call index =>
          obtain ⟨rest, -, hcall⟩ := vmStep_call (s := ⟨a, []⟩) vm ha hpca hat
          rw [hcall] at hend
          cases hend
        | _ => cases hi
  | above h =>
    have hcallers := callers_of_end hend
    simp at hcallers

/-! ## Blocks of the outermost activation -/

/-- A second run keeps up with the first one to the end of a block, whatever the calls run. -/
theorem vmTakes_twin {P Q : (Frame × Frame) × List Bool → Prop} {vm : Vm} {code : List Instr}
    {f f' g : Frame} {log outcomes : List Bool}
    (h : (twinLoggedIsa host).Block (Tolerated ok) P code Q) (hP : P ((f, g), log))
    (htakes : VmTakes host vm f (encodeAll code) outcomes f') :
    ∃ g', VmRuns host vm g (encodeAll code) g' ∧ Q ((f', g'), log ++ outcomes) := by
  obtain ⟨s, hlabelled, hend, rfl⟩ := htakes
  have hstart : Beside host ok Q (vmStart f (encodeAll code)) (vmStart g (encodeAll code)) log := by
    obtain ⟨A, hA, hpre, hpost⟩ := h
    rw [twinLogged_sizeOf] at hpost
    exact .bottom ⟨code, A, rfl, rfl, hA, hpost, 0, rfl, rfl, hpre _ hP⟩
  obtain ⟨t, hreach, hbeside⟩ := hlabelled.simulates (R := Beside host ok Q)
    (fun s t s' before hs hstep => vmStep_beside hs hstep) hstart
  obtain ⟨hend', hQ⟩ := hbeside.ends hend
  exact ⟨_, ⟨t, hreach, hend', rfl⟩, hQ⟩

/-- The same without the outcomes. -/
theorem vmRuns_twin {P Q : Frame × Frame → Prop} {vm : Vm} {code : List Instr} {f f' g : Frame}
    (h : (twinIsa host).Block (Tolerated ok) P code Q) (hP : P (f, g))
    (hruns : VmRuns host vm f (encodeAll code) f') :
    ∃ g', VmRuns host vm g (encodeAll code) g' ∧ Q (f', g') := by
  obtain ⟨outcomes, htakes⟩ := vmRuns_iff_takes.mp hruns
  have hlogged : (twinLoggedIsa host).Block (Tolerated ok) (fun s => P s.1) code fun s => Q s.1 :=
    h.logged
  have hstart : (fun s : (Frame × Frame) × List Bool => P s.1) ((f, g), []) := hP
  exact vmTakes_twin hlogged hstart htakes

/-- The end of a block is only reached in its postcondition, whatever its calls run; the outcomes
come behind those in the log. -/
theorem vmTakes_block {P Q : Frame × List Bool → Prop} {vm : Vm} {code : List Instr}
    {frame frame' : Frame} {log outcomes : List Bool} (h : (loggedIsa host).Block ok P code Q)
    (hP : P (frame, log)) (htakes : VmTakes host vm frame (encodeAll code) outcomes frame') :
    Q (frame', log ++ outcomes) := by
  have htwin : (twinLoggedIsa host).Block (Tolerated ok) (fun s => P (s.1.1, s.2) ∧ s.1.1 = s.1.2)
      code fun s => Q (s.1.1, s.2) ∧ s.1.1 = s.1.2 := h.twin _ fun _ => rfl
  obtain ⟨g, -, hQ, -⟩ := vmTakes_twin (g := frame) htwin ⟨hP, rfl⟩ htakes
  exact hQ

/-- The same without the outcomes. -/
theorem vmRuns_block {P Q : Frame → Prop} {vm : Vm} {code : List Instr} {frame frame' : Frame}
    (h : (vmIsa host).Block ok P code Q) (hP : P frame)
    (hruns : VmRuns host vm frame (encodeAll code) frame') : Q frame' := by
  obtain ⟨outcomes, htakes⟩ := vmRuns_iff_takes.mp hruns
  have hlogged : (loggedIsa host).Block ok (fun s => P s.1) code fun s => Q s.1 := h.logged
  have hstart : (fun s : Frame × List Bool => P s.1) (frame, []) := hP
  exact vmTakes_block hlogged hstart htakes

/-- Assertions stay what they are without the guard. -/
lemma Guarded.block {P Q : Frame → Prop} {code : List Instr}
    (h : Guarded host ok guard P code Q) : (vmIsa host).Block ok P code Q := by
  obtain ⟨A, hA, hpre, hpost⟩ := h
  refine ⟨A, fun pc frame hframe => ?_, hpre, hpost⟩
  rcases hA pc frame hframe with hend | ⟨i, hat, heff⟩
  · exact .inl hend
  · exact .inr ⟨i, hat, (guarded_of_effect heff).2⟩

end PhantomShell
