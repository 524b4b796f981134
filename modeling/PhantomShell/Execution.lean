import PhantomShell.HashmapGrowth
import PhantomShell.Session
import PhantomShell.Vm.Outcomes

/-!
# Executing a session

`sessionStates` executes the events of a session and lists the states that the machine passes.
If all chunks return, these are all there are, and the session ends in one way only
(`sessionReach_iff`, `sessionEnds_iff`).
-/

namespace PhantomShell

variable {host : Host}

/-- The states that the machine passes before `vm_execute_opcodes` returns, if it does so within
the fuel. -/
def vmStates (host : Host) (vm : Vm) : (fuel : ℕ) → MachineState → Option (List MachineState)
  | 0, _ => none
  | fuel + 1, s =>
    match vmStep host vm s with
    | none => some [s]
    | some (.ok s') => (vmStates host vm fuel s').map (s :: ·)
    | some (.error _) => none

/-- The states that a session passes with the tables at that time, and what it ends with. -/
def sessionStates (host : Host) (fuel : ℕ) :
    Vm → Frame → List Event → Option (List (Vm × MachineState) × Vm × Frame)
  | vm, frame, [] => some ([], vm, frame)
  | vm, frame, .execute code :: events => do
    let states ← vmStates host vm fuel (vmStart frame code)
    let last ← states.getLast?
    let (rest, ends) ← sessionStates host fuel vm last.current.frame events
    some (states.map (vm, ·) ++ rest, ends)
  | vm, frame, .register signature data :: events =>
    match vmRegister fuel vm signature data with
    | .ok (_, _, vm) => sessionStates host fuel vm frame events
    | .error _ => none

/-! ## One call of the machine -/

lemma vmStates_eq_some {vm : Vm} {fuel : ℕ} {s : MachineState} {states : List MachineState}
    (h : vmStates host vm fuel s = some states) :
    (vmStep host vm s = none ∧ states = [s]) ∨
      ∃ fuel' s' rest, fuel = fuel' + 1 ∧ vmStep host vm s = some (.ok s') ∧
        vmStates host vm fuel' s' = some rest ∧ states = s :: rest := by
  cases fuel with
  | zero => cases h
  | succ fuel =>
    rw [vmStates] at h
    split at h
    · rename_i hend
      exact .inl ⟨hend, (Option.some.inj h).symm⟩
    · rename_i s' hstep
      obtain ⟨rest, hrest, rfl⟩ := Option.map_eq_some_iff.mp h
      exact .inr ⟨fuel, s', rest, rfl, hstep, hrest, rfl⟩
    · cases h

/-- The listed states are the ones that are reached. -/
theorem vmReach_iff {vm : Vm} {fuel : ℕ} {s t : MachineState} {states : List MachineState}
    (h : vmStates host vm fuel s = some states) : VmReach host vm s t ↔ t ∈ states := by
  induction fuel generalizing s states with
  | zero => cases h
  | succ fuel ih =>
    rw [VmReach, Relation.ReflTransGen.cases_head_iff]
    rcases vmStates_eq_some h with ⟨hend, rfl⟩ | ⟨_, s', rest, ⟨⟩, hstep, hrest, rfl⟩
    · rw [List.mem_singleton, eq_comm]
      refine or_iff_left ?_
      rintro ⟨s', hstep, -⟩
      rw [VmStep, hend] at hstep
      cases hstep
    · rw [List.mem_cons, eq_comm, ← ih hrest]
      refine or_congr_right ⟨?_, fun hreach => ⟨s', hstep, hreach⟩⟩
      rintro ⟨s'', hstep', hreach⟩
      obtain rfl := Except.ok.inj (Option.some.inj (hstep.symm.trans hstep'))
      exact hreach

/-- The last of the states is the end of the run, and the others log its outcomes. -/
theorem vmStates_labelled {vm : Vm} {fuel : ℕ} {s : MachineState} {states : List MachineState}
    (h : vmStates host vm fuel s = some states) : ∃ last, states.getLast? = some last ∧
      vmStep host vm last = none ∧ Labelled (VmStep host vm) MachineState.outcome s
        (states.dropLast.flatMap MachineState.outcome) last := by
  induction fuel generalizing s states with
  | zero => cases h
  | succ fuel ih =>
    rcases vmStates_eq_some h with ⟨hend, rfl⟩ | ⟨_, s', rest, ⟨⟩, hstep, hrest, rfl⟩
    · exact ⟨s, rfl, hend, .refl⟩
    · obtain ⟨last, hlast, hend, hlabelled⟩ := ih hrest
      have hne : rest ≠ [] := by
        rintro rfl
        cases hlast
      refine ⟨last, by rw [List.getLast?_cons, hlast]; rfl, hend, ?_⟩
      rw [List.dropLast_cons_of_ne_nil hne, List.flatMap_cons]
      exact .head hstep hlabelled

lemma vmTakes_of_states {vm : Vm} {fuel : ℕ} {frame : Frame} {code : List UInt8}
    {states : List MachineState} {last : MachineState}
    (h : vmStates host vm fuel (vmStart frame code) = some states)
    (hlast : states.getLast? = some last) :
    VmTakes host vm frame code (states.dropLast.flatMap MachineState.outcome)
      last.current.frame := by
  obtain ⟨last', hlast', hend, hlabelled⟩ := vmStates_labelled h
  obtain rfl := Option.some.inj (hlast.symm.trans hlast')
  exact ⟨last, hlabelled, hend, rfl⟩

/-- A run that returns leaves one frame. -/
lemma VmRuns.unique {vm : Vm} {frame frame₁ frame₂ : Frame} {code : List UInt8}
    (h₁ : VmRuns host vm frame code frame₁) (h₂ : VmRuns host vm frame code frame₂) :
    frame₁ = frame₂ := by
  obtain ⟨outcomes₁, htakes₁⟩ := vmRuns_iff_takes.mp h₁
  obtain ⟨outcomes₂, htakes₂⟩ := vmRuns_iff_takes.mp h₂
  exact (htakes₁.unique htakes₂).2

/-! ## Sessions -/

/-- Room for more resizes of the function map does not change a registration. -/
lemma vmRegister_mono {fuel fuel' : ℕ} (hle : fuel ≤ fuel') {vm : Vm} {signature data : List UInt8}
    {r : UInt16 × FuncHandle × Vm} (h : vmRegister fuel vm signature data = .ok r) :
    vmRegister fuel' vm signature data = .ok r := by
  obtain ⟨⟨index, pool⟩, hpool, h⟩ := except_bind_eq_ok.mp h
  obtain ⟨⟨handle, vm₁⟩, hfunc, hr⟩ := except_bind_eq_ok.mp h
  refine except_bind_eq_ok.mpr ⟨(index, pool), hpool, except_bind_eq_ok.mpr
    ⟨(handle, vm₁), ?_, hr⟩⟩
  obtain ⟨offset, hoffset, hfunc⟩ := except_bind_eq_ok.mp hfunc
  obtain ⟨argsSize, hargs, hfunc⟩ := except_bind_eq_ok.mp hfunc
  refine except_bind_eq_ok.mpr ⟨offset, hoffset, except_bind_eq_ok.mpr ⟨argsSize, hargs, ?_⟩⟩
  split at hfunc
  · obtain ⟨funcs, hfuncs, hfunc⟩ := except_bind_eq_ok.mp hfunc
    refine except_bind_eq_ok.mpr ⟨funcs, hfuncs, ?_⟩
    split at hfunc
    · cases hfunc
    · rename_i hput
      rw [hashmapPut_mono hle hput]
      exact hfunc
  · cases hfunc

lemma vmRegister_unique {fuel fuel' : ℕ} {vm : Vm} {signature data : List UInt8}
    {r r' : UInt16 × FuncHandle × Vm} (h : vmRegister fuel vm signature data = .ok r)
    (h' : vmRegister fuel' vm signature data = .ok r') : r = r' :=
  Except.ok.inj ((vmRegister_mono (le_max_left fuel fuel') h).symm.trans
    (vmRegister_mono (le_max_right fuel fuel') h'))

lemma sessionStates_execute {fuel : ℕ} {vm : Vm} {frame : Frame} {code : List UInt8}
    {events : List Event} {r : List (Vm × MachineState) × Vm × Frame}
    (h : sessionStates host fuel vm frame (.execute code :: events) = some r) :
    ∃ states last rest, vmStates host vm fuel (vmStart frame code) = some states ∧
      states.getLast? = some last ∧
      sessionStates host fuel vm last.current.frame events = some (rest, r.2) ∧
      r.1 = states.map (vm, ·) ++ rest := by
  rw [sessionStates] at h
  obtain ⟨states, hstates, h⟩ := Option.bind_eq_some_iff.mp h
  obtain ⟨last, hlast, h⟩ := Option.bind_eq_some_iff.mp h
  obtain ⟨⟨rest, ends⟩, hrest, h⟩ := Option.bind_eq_some_iff.mp h
  cases h
  exact ⟨states, last, rest, hstates, hlast, hrest, rfl⟩

lemma sessionStates_register {fuel : ℕ} {vm : Vm} {frame : Frame} {signature data : List UInt8}
    {events : List Event} {r : List (Vm × MachineState) × Vm × Frame}
    (h : sessionStates host fuel vm frame (.register signature data :: events) = some r) :
    ∃ index handle vm₁, vmRegister fuel vm signature data = .ok (index, handle, vm₁) ∧
      sessionStates host fuel vm₁ frame events = some r := by
  rw [sessionStates] at h
  split at h
  · rename_i hregister
    exact ⟨_, _, _, hregister, h⟩
  · cases h

/-- The listed states are the ones that the session passes. -/
theorem sessionReach_iff {fuel : ℕ} {vm vm' : Vm} {frame : Frame} {events : List Event}
    {s : MachineState} {r : List (Vm × MachineState) × Vm × Frame}
    (h : sessionStates host fuel vm frame events = some r) :
    SessionReach host vm frame events vm' s ↔ (vm', s) ∈ r.1 := by
  induction events generalizing vm frame r with
  | nil =>
    cases h
    constructor
    · intro hreach
      cases hreach
    · intro hmem
      cases hmem
  | cons event events ih =>
    cases event with
    | execute code =>
      obtain ⟨states, last, rest, hstates, hlast, hrest, hr⟩ := sessionStates_execute h
      have hruns := vmRuns_iff_takes.mpr ⟨_, vmTakes_of_states hstates hlast⟩
      rw [hr, List.mem_append, List.mem_map, ← ih hrest]
      constructor
      · intro hreach
        cases hreach with
        | here hreach => exact .inl ⟨s, (vmReach_iff hstates).mp hreach, rfl⟩
        | execute hruns' hreach =>
          obtain rfl := hruns.unique hruns'
          exact .inr hreach
      · rintro (⟨t, hmem, heq⟩ | hreach)
        · cases heq
          exact .here ((vmReach_iff hstates).mpr hmem)
        · exact .execute hruns hreach
    | register signature data =>
      obtain ⟨index, handle, vm₁, hregister, hrest⟩ := sessionStates_register h
      rw [← ih hrest]
      constructor
      · intro hreach
        cases hreach with
        | register hregister' hreach =>
          cases vmRegister_unique hregister hregister'
          exact hreach
      · exact fun hreach => .register hregister hreach

/-- And the session ends with the tables and the frame that are left. -/
theorem sessionEnds_iff {fuel : ℕ} {vm vm' : Vm} {frame frame' : Frame} {events : List Event}
    {r : List (Vm × MachineState) × Vm × Frame}
    (h : sessionStates host fuel vm frame events = some r) :
    SessionEnds host vm frame events vm' frame' ↔ (vm', frame') = r.2 := by
  induction events generalizing vm frame r with
  | nil =>
    cases h
    constructor
    · intro hends
      cases hends
      rfl
    · intro heq
      cases heq
      exact .nil
  | cons event events ih =>
    cases event with
    | execute code =>
      obtain ⟨states, last, rest, hstates, hlast, hrest, -⟩ := sessionStates_execute h
      have hruns := vmRuns_iff_takes.mpr ⟨_, vmTakes_of_states hstates hlast⟩
      rw [← ih hrest]
      constructor
      · intro hends
        cases hends with
        | execute hruns' hends =>
          obtain rfl := hruns.unique hruns'
          exact hends
      · exact fun hends => .execute hruns hends
    | register signature data =>
      obtain ⟨index, handle, vm₁, hregister, hrest⟩ := sessionStates_register h
      rw [← ih hrest]
      constructor
      · intro hends
        cases hends with
        | register hregister' hends =>
          cases vmRegister_unique hregister hregister'
          exact hends
      · exact fun hends => .register hregister hends

end PhantomShell
