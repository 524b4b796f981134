import PhantomShell.Compiler.ModesTheorems
import PhantomShell.Compiler.SemanticsTheorems
import PhantomShell.Lib.Chunks
import PhantomShell.Parser.Trees

/-!
# Interactive sessions do what the source says

An interactive session executes the chunks of each top level statement on the root frame, as soon as
the statement has been read. `seq_of_exec` and `runsAll_of_exec` are the two directions for the chunks
of a statement, `CompiledSession` is what a program adds to a session, and `session_preserves` takes the
program from its derivation to the variables at the end of the session.
-/

namespace PhantomShell

variable (host : Host)

/-! ## Programs -/

/-- Big steps of a program: its statements, one after the other. A function does nothing. -/
inductive ProgramExec : Env → List TopLevel → Env → Prop
  | nil {env : Env} : ProgramExec env [] env
  | stat {env env₁ env' : Env} {stat : Stat} {program : List TopLevel} :
      Exec env stat.single env₁ → ProgramExec env₁ program env' →
      ProgramExec env (.stat stat :: program) env'
  | func {env env' : Env} {func : DeclFunc} {program : List TopLevel} :
      ProgramExec env program env' → ProgramExec env (.func func :: program) env'

/-- Running the program evaluates the expression in the store. -/
inductive ProgramEvaluates : Env → List TopLevel → Env → Expr → Prop
  | stat {env env₁ : Env} {e : Expr} {stat : Stat} {program : List TopLevel} :
      Evaluates env stat.single env₁ e → ProgramEvaluates env (.stat stat :: program) env₁ e
  | next {env env₁ env₂ : Env} {e : Expr} {stat : Stat} {program : List TopLevel} :
      Exec env stat.single env₁ → ProgramEvaluates env₁ program env₂ e →
      ProgramEvaluates env (.stat stat :: program) env₂ e
  | func {env env₁ : Env} {e : Expr} {func : DeclFunc} {program : List TopLevel} :
      ProgramEvaluates env program env₁ e → ProgramEvaluates env (.func func :: program) env₁ e

/-- No division that the program evaluates overflows. -/
def ProgramInRange (env : Env) (program : List TopLevel) : Prop :=
  ∀ env₁ e, ProgramEvaluates env program env₁ e → env₁.InRange e

/-- The root variables at the end of a program. -/
def programVars : Vars → List TopLevel → Vars
  | vars, [] => vars
  | vars, .stat stat :: program => programVars (scopeVars vars stat.single) program
  | vars, .func _ :: program => programVars vars program

/-- The functions among the events can be registered one after the other. -/
inductive Registers : Vm → List Event → Vm → Prop
  | nil {vm : Vm} : Registers vm [] vm
  | execute {vm vm' : Vm} {code : List UInt8} {events : List Event} :
      Registers vm events vm' → Registers vm (.execute code :: events) vm'
  | register {fuel : ℕ} {vm vm₁ vm' : Vm} {signature data : List UInt8} {index : UInt16}
      {handle : FuncHandle} {events : List Event} :
      vmRegister fuel vm signature data = .ok (index, handle, vm₁) → Registers vm₁ events vm' →
      Registers vm (.register signature data :: events) vm'

/-- A top level statement of the fragment that the root frame has room for. -/
structure RootStat (vars : Vars) (stat : Stat) : Prop where
  fragment : IntStat stat
  regular : RegularScope (fun _ => 0) vars stat
  conds : ValueConds vars stat
  slots : scopeSlots vars stat ≤ 256
  words : scopeWords stat ≤ 256

lemma ProgramExec.deterministic {program : List TopLevel} {env env₁ env₂ : Env}
    (h₁ : ProgramExec env program env₁) (h₂ : ProgramExec env program env₂) : env₁ = env₂ := by
  induction h₁ generalizing env₂ with
  | nil =>
    cases h₂
    rfl
  | stat hexec _ ih =>
    cases h₂ with
    | stat hexec' hrest =>
      obtain rfl := hexec.deterministic hexec'
      exact ih hrest
  | func _ ih =>
    cases h₂ with
    | func hrest => exact ih hrest

/-! ## One statement after the other -/

lemma exec_ifElse_iff {env env' : Env} {e : Expr} {trueScope falseScope next : Stat} :
    Exec env (.ifElse e trueScope falseScope next) env' ↔
      ∃ env₁, Exec env (.ifElse e trueScope falseScope .nil) env₁ ∧ Exec env₁ next env' := by
  constructor
  · intro h
    cases h with
    | ifTrue hv hne hexec hnext => exact ⟨_, .ifTrue hv hne hexec .nil, hnext⟩
    | ifFalse hv hexec hnext => exact ⟨_, .ifFalse hv hexec .nil, hnext⟩
  · intro h
    obtain ⟨env₁, hif, hnext⟩ := h
    cases hif with
    | ifTrue hv hne hexec hnil =>
      cases hnil
      exact .ifTrue hv hne hexec hnext
    | ifFalse hv hexec hnil =>
      cases hnil
      exact .ifFalse hv hexec hnext

lemma Evaluates.if_append {env env₁ : Env} {e e₁ : Expr} {trueScope falseScope : Stat}
    (h : Evaluates env (.ifElse e trueScope falseScope .nil) env₁ e₁) (next : Stat) :
    Evaluates env (.ifElse e trueScope falseScope next) env₁ e₁ := by
  cases h with
  | ifCond => exact .ifCond
  | ifTrue hv hne h => exact .ifTrue hv hne h
  | ifFalse hv h => exact .ifFalse hv h
  | ifTrueNext _ _ _ hnil => cases hnil
  | ifFalseNext _ _ hnil => cases hnil

lemma Exec.evaluates_if {env env₁ env₂ : Env} {e e₁ : Expr} {trueScope falseScope next : Stat}
    (hif : Exec env (.ifElse e trueScope falseScope .nil) env₁) (h : Evaluates env₁ next env₂ e₁) :
    Evaluates env (.ifElse e trueScope falseScope next) env₂ e₁ := by
  cases hif with
  | ifTrue hv hne hexec hnil =>
    cases hnil
    exact .ifTrueNext hv hne hexec h
  | ifFalse hv hexec hnil =>
    cases hnil
    exact .ifFalseNext hv hexec h

lemma Exec.while_nil {env env' : Env} {stat : Stat} (h : Exec env stat env') :
    ∀ {e : Expr} {loopScope next : Stat}, stat = .while e loopScope next →
      ∃ env₁, Exec env (.while e loopScope .nil) env₁ ∧ Exec env₁ next env' := by
  induction h with
  | whileTrue hv hne hexec _ _ ih =>
    intro e loopScope next heq
    cases heq
    obtain ⟨env₁, hloop, hnext⟩ := ih rfl
    exact ⟨env₁, .whileTrue hv hne hexec hloop, hnext⟩
  | whileFalse hv hnext _ =>
    intro e loopScope next heq
    cases heq
    exact ⟨_, .whileFalse hv .nil, hnext⟩
  | nil | assign | ifTrue | ifFalse =>
    intro e loopScope next heq
    cases heq

lemma Exec.while_append {env env₁ env' : Env} {stat : Stat} (h : Exec env stat env₁) :
    ∀ {e : Expr} {loopScope next : Stat}, stat = .while e loopScope .nil → Exec env₁ next env' →
      Exec env (.while e loopScope next) env' := by
  induction h with
  | whileTrue hv hne hexec _ _ ih =>
    intro e loopScope next heq hnext
    cases heq
    exact .whileTrue hv hne hexec (ih rfl hnext)
  | whileFalse hv hnil _ =>
    intro e loopScope next heq hnext
    cases heq
    cases hnil
    exact .whileFalse hv hnext
  | nil | assign | ifTrue | ifFalse =>
    intro e loopScope next heq
    cases heq

lemma Evaluates.while_append {env env₁ : Env} {stat : Stat} {e₁ : Expr}
    (h : Evaluates env stat env₁ e₁) : ∀ {e : Expr} {loopScope : Stat}, stat = .while e loopScope .nil →
      ∀ next, Evaluates env (.while e loopScope next) env₁ e₁ := by
  induction h with
  | whileCond =>
    intro e loopScope heq next
    cases heq
    exact .whileCond
  | whileBody hv hne h _ =>
    intro e loopScope heq next
    cases heq
    exact .whileBody hv hne h
  | whileAgain hv hne hexec _ ih =>
    intro e loopScope heq next
    cases heq
    exact .whileAgain hv hne hexec (ih rfl next)
  | whileNext _ hnil _ =>
    intro e loopScope heq next
    cases heq
    cases hnil
  | right | assignNext | ifCond | ifTrue | ifTrueNext | ifFalse | ifFalseNext =>
    intro e loopScope heq
    cases heq

lemma Exec.evaluates_while {env env₁ env₂ : Env} {stat : Stat} {e₁ : Expr}
    (h : Exec env stat env₁) : ∀ {e : Expr} {loopScope next : Stat}, stat = .while e loopScope .nil →
      Evaluates env₁ next env₂ e₁ → Evaluates env (.while e loopScope next) env₂ e₁ := by
  induction h with
  | whileTrue hv hne hexec _ _ ih =>
    intro e loopScope next heq hnext
    cases heq
    exact .whileAgain hv hne hexec (ih rfl hnext)
  | whileFalse hv hnil _ =>
    intro e loopScope next heq hnext
    cases heq
    cases hnil
    exact .whileNext hv hnext
  | nil | assign | ifTrue | ifFalse =>
    intro e loopScope next heq
    cases heq

/-! ## The node of an if statement -/

/-- What `IfRuns` says of the node of an if statement is what the chunk that is compiled for it does:
it takes the word of the condition, and then executes the code of the scope that this chooses. -/
theorem IfRuns.block {ok : VmStop → Prop} {guard : Instr → Frame → Bool} {nodes : List AstNode}
    {truth : ℕ → Bool} {i : ℕ} {trace : List ChainEvent} (h : IfRuns nodes truth i trace)
    {e : Expr} {trueScope falseScope next : Stat}
    (hread : ReadsStat nodes (some i) (.ifElse e trueScope falseScope next))
    {callIndex : CStr → UInt16} {vars : Vars}
    (hreg : RegularScope callIndex vars (.ifElse e trueScope falseScope next))
    (hpass : JumpsPass guard) {P Q : Frame → Prop}
    (hscope : Guarded host ok guard P
      (scopeInstrs callIndex (exprVars vars e) (if truth i then trueScope else falseScope)) Q) :
    ∃ p, trace = .condition i :: (p.map ChainEvent.body).toList ∧
      ReadsScope nodes p (if truth i then trueScope else falseScope) ∧
      Guarded host ok guard
        (Frame.Tested ok (fun frame => truth i = true ∧ P frame) (fun frame => truth i = false ∧ P frame))
        (ifCode (scopeInstrs callIndex (exprVars vars e) trueScope)
          (scopeInstrs callIndex (exprVars vars e) falseScope)) Q := by
  obtain ⟨-, -, -, htrueSize, hfalseSize, -⟩ := hreg
  cases h with
  | mk hi _ _ =>
    cases hread with
    | ifElse hi' _ htrue hfalse _ =>
      obtain ⟨rfl, hc, rfl, rfl⟩ := AstNode.statIf.inj (Option.some.inj (hi.symm.trans hi'))
      refine ⟨_, rfl, ?_, ?_⟩
      · split
        · exact htrue
        · exact hfalse
      · refine guarded_ifCode hpass htrueSize hfalseSize (fun _ hf => hf) ?_ ?_
        · refine JumpIsa.block_pure fun htruth => ?_
          rw [htruth, if_pos rfl] at hscope
          exact hscope
        · refine JumpIsa.block_pure fun htruth => ?_
          rw [htruth, if_neg Bool.false_ne_true] at hscope
          exact hscope

/-! ## The chunks of a statement -/

section

variable {base : Frame} {callIndex : CStr → UInt16} {vars : Vars} {env : Env} {frame : Frame}

/-- The chunk of the branches takes the condition from the stack and ends as the `if` does. -/
lemma block_intIfCode {e : Expr} {trueScope falseScope next : Stat}
    (hfits : Fits base callIndex vars (.ifElse e trueScope falseScope next))
    (hlen : env.length = vars.length) :
    (vmIsa host).Block anyStop (Tested base vars env e)
      (ifCode (scopeInstrs callIndex vars trueScope) (scopeInstrs callIndex vars falseScope))
      (fun f => ∃ env₁, Exec env (.ifElse e trueScope falseScope .nil) env₁ ∧
        Stores base vars env₁ f) := by
  obtain ⟨m, n, hcode, hm, hn⟩ := hfits.ifCode_jumps host
  have htrue : (vmIsa host).Block anyStop
      (fun u => (∃ v, v ≠ 0 ∧ env.eval e = some v) ∧ Stores base vars env u)
      (scopeInstrs callIndex vars trueScope) (fun f => ∃ env₁,
        Exec env (.ifElse e trueScope falseScope .nil) env₁ ∧ Stores base vars env₁ f) := by
    apply JumpIsa.block_pure
    intro hvalue
    obtain ⟨v, hne, hv⟩ := hvalue
    apply (block_of_exec host hfits.in_true env).mono (fun _ h => h)
    intro f h
    obtain ⟨env₁, hexec, h⟩ := h
    have hnext : Exec env (.ifElse e trueScope falseScope .nil) _ := .ifTrue hv hne hexec .nil
    rw [hlen] at hnext
    exact ⟨_, hnext, h.leave⟩
  have hfalse : (vmIsa host).Block anyStop
      (fun u => env.eval e = some 0 ∧ Stores base vars env u)
      (scopeInstrs callIndex vars falseScope) (fun f => ∃ env₁,
        Exec env (.ifElse e trueScope falseScope .nil) env₁ ∧ Stores base vars env₁ f) := by
    apply JumpIsa.block_pure
    intro hv
    apply (block_of_exec host hfits.in_false env).mono (fun _ h => h)
    intro f h
    obtain ⟨env₁, hexec, h⟩ := h
    have hnext : Exec env (.ifElse e trueScope falseScope .nil) _ := .ifFalse hv hexec .nil
    rw [hlen] at hnext
    exact ⟨_, hnext, h.leave⟩
  -- `jez` ends before one of the blocks, and the `jmp` goes over the second
  rw [hcode]
  exact JumpIsa.block_ite
    (fun f h => (effect_jez host h hm).mono fun u d hu => by rwa [← add_assoc] at hu) htrue
    (fun f h => by
      rw [exec_jmp, hn]
      exact ⟨rfl, h⟩) hfalse

/-- A `while` alone is one chunk. -/
lemma Fits.while_alone {e : Expr} {loopScope next : Stat}
    (h : Fits base callIndex vars (.while e loopScope next)) :
    Fits base callIndex vars (.while e loopScope .nil) ∧
      scopeInstrs callIndex vars (.while e loopScope .nil) =
        whileCode (exprCode callIndex vars e) (scopeInstrs callIndex vars loopScope) := by
  constructor
  · refine ⟨⟨h.fragment.1, h.fragment.2.1, trivial⟩, ⟨h.regular.1, h.regular.2.1, h.regular.2.2.1, trivial⟩,
      ⟨h.conds.1, h.conds.2.1, trivial⟩, h.int, h.slotted, ?_, ?_, h.room.mono ?_⟩
    · have hslots := h.slots
      have hnext := length_le_scopeSlots vars next
      simp only [scopeSlots] at hslots ⊢
      omega
    · have hlocals := h.locals
      have hnext := length_le_scopeSlots vars next
      simp only [scopeSlots] at hlocals ⊢
      omega
    · simp only [scopeWords]
      omega
  · rw [scopeInstrs_while h.conds.1, (h.conds.1.code callIndex).1]
    exact List.append_nil _

/-- From the machine to the source: behind the chunks of a statement there is a store that the source
ends in. -/
theorem seq_of_exec {stat : Stat} (hfits : Fits base callIndex vars stat) (env : Env) :
    (vmIsa host).Seq anyStop (Stores base vars env) (scopeCode callIndex vars stat)
      (fun f => ∃ env', Exec env stat env' ∧ Stores base (scopeVars vars stat) env' f) := by
  induction stat generalizing vars env with
  | nil => exact fun f h => ⟨env, .nil, h⟩
  | expr e next ih =>
    obtain ⟨t, t', name, right, rfl⟩ := hfits.fragment.assignment
    have hassign : (vmIsa host).Line anyStop (Stores base vars env) (assignCode vars name right)
        (fun f => ∃ v, env.eval right = some v ∧
          Stores base (assignVars vars name right) (env.assign name v) f) := by
      refine JumpIsa.line_straight (fun _ hi => (assignCode_local hi).straight host) fun f h => ?_
      rcases runStraight_assign host h hfits with ⟨v, f₁, hv, hrun, h₁⟩ | ⟨-, stop, hrun⟩
      · rw [hrun]
        exact ⟨v, hv, h₁⟩
      · rw [hrun]
        trivial
    apply JumpIsa.Seq.append hassign
    apply JumpIsa.seq_exists
    intro v
    apply JumpIsa.seq_pure
    intro hv
    apply (ih hfits.next_assign (env.assign name v)).mono (fun _ h => h)
    intro f h
    obtain ⟨env', hexec, h⟩ := h
    exact ⟨env', .assign hv hexec, h⟩
  | ifElse e trueScope falseScope next _ _ ih =>
    -- the stores have a value for each variable, which the two blocks need
    suffices hseq : env.length = vars.length → _ from
      (JumpIsa.seq_pure hseq).mono (fun f h => ⟨h.length hfits, h⟩) fun _ h => h
    intro hlen
    obtain ⟨hcode, hvars⟩ := hfits.conds.1.code callIndex
    have hcond : (vmIsa host).Line anyStop (Stores base vars env) (valueCode vars e)
        (Tested base vars env e) := by
      refine JumpIsa.line_straight (fun _ hi => (valueCode_local hfits.conds.1 hi).straight host)
        fun f h => ?_
      rcases runStraight_int host h hfits hfits.fragment.1 hfits.conds.1 (le_max_left _ _) with
        ⟨w, hw, hrun⟩ | ⟨-, stop, hrun⟩
      · rw [hrun]
        exact ⟨w, f, rfl, hw, h⟩
      · rw [hrun]
        trivial
    rw [scopeCode, scopeVars, hcode, hvars]
    refine JumpIsa.Seq.append hcond ⟨_, block_intIfCode host hfits hlen, ?_⟩
    apply JumpIsa.seq_exists
    intro env₁
    apply JumpIsa.seq_pure
    intro hif
    apply (ih hfits.next_if env₁).mono (fun _ h => h)
    intro f h
    obtain ⟨env', hexec, h⟩ := h
    exact ⟨env', exec_ifElse_iff.mpr ⟨env₁, hif, hexec⟩, h⟩
  | «while» e loopScope next _ ih =>
    -- the chunk of a loop is the code of a loop with nothing behind it
    obtain ⟨hfits', hcode⟩ := hfits.while_alone
    have hloop := block_of_exec host hfits' env
    rw [hcode] at hloop
    refine ⟨_, hloop, ?_⟩
    apply JumpIsa.seq_exists
    intro env₁
    apply JumpIsa.seq_pure
    intro hwhile
    apply (ih hfits.next_while env₁).mono (fun _ h => h)
    intro f h
    obtain ⟨env', hexec, h⟩ := h
    exact ⟨env', hwhile.while_append rfl hexec, h⟩
  | other next => exact hfits.fragment.elim
  | notScope stat => exact hfits.fragment.elim

/-- A condition and the branch that it chooses. -/
lemma runs_ifElse {e : Expr} {trueScope falseScope next : Stat}
    (hfits : Fits base callIndex vars (.ifElse e trueScope falseScope next))
    (h : Stores base vars env frame) {env' : Env}
    (hexec : Exec env (.ifElse e trueScope falseScope .nil) env')
    (hrange : DividesInRange env (.ifElse e trueScope falseScope .nil)) :
    ∃ w frame', (vmIsa host).runStraight (valueCode vars e) frame = .ok (frame.push w) ∧
      (vmIsa host).Runs (ifCode (scopeInstrs callIndex vars trueScope)
        (scopeInstrs callIndex vars falseScope)) (frame.push w) frame' ∧ Stores base vars env' frame' := by
  obtain ⟨m, n, hcode, hm, hn⟩ := hfits.ifCode_jumps host
  have hlen := h.length hfits
  have hcond := runStraight_int host h hfits hfits.fragment.1 hfits.conds.1 (le_max_left _ _)
  have hcondRange := hrange _ _ .ifCond
  rw [hcode]
  -- the word of the condition is the value that the source found
  cases hexec with
  | ifTrue hv hne hexec hnil =>
    cases hnil
    rcases hcond with ⟨w, hw, hrun⟩ | ⟨hnone, -⟩
    · obtain rfl := Option.some.inj (hv.symm.trans hw)
      obtain ⟨f₁, htrue, h₁⟩ := runs_of_exec host hexec
        (fun _ _ he => hrange _ _ (.ifTrue hv hne he)) hfits.in_true h
      have hjez : (vmIsa host).exec (.jez m) (frame.push w)
          = .ok (frame, (vmIsa host).size (.jez m)) := by
        rw [exec_jez, if_neg hne]
        rfl
      have hjmp : (vmIsa host).exec (.jmp n) f₁ = .ok (f₁, (vmIsa host).size (.jmp n) +
          (vmIsa host).sizeOf (scopeInstrs callIndex vars falseScope)) := by
        rw [exec_jmp, hn]
        rfl
      rw [hlen]
      exact ⟨w, f₁, hrun, JumpIsa.runs_ite_true hjez htrue hjmp, h₁.leave⟩
    · cases hv.symm.trans (hnone hcondRange)
  | ifFalse hv hexec hnil =>
    cases hnil
    rcases hcond with ⟨w, hw, hrun⟩ | ⟨hnone, -⟩
    · have hzero : w.bits = 0 := (Option.some.inj (hv.symm.trans hw)).symm
      obtain ⟨f₁, hfalse, h₁⟩ := runs_of_exec host hexec
        (fun _ _ he => hrange _ _ (.ifFalse hv he)) hfits.in_false h
      have hjez : (vmIsa host).exec (.jez m) (frame.push w) = .ok (frame, (vmIsa host).size (.jez m) +
          (vmIsa host).sizeOf (scopeInstrs callIndex vars trueScope) +
            (vmIsa host).size (.jmp n)) := by
        rw [exec_jez, if_pos hzero, hm, ← add_assoc]
        rfl
      rw [hlen]
      exact ⟨w, f₁, hrun, JumpIsa.runs_ite_false hjez hfalse, h₁.leave⟩
    · cases hv.symm.trans (hnone hcondRange)

/-- From the source to the machine: the chunks of a statement run to their ends. -/
theorem runsAll_of_exec {stat : Stat} (hfits : Fits base callIndex vars stat)
    (h : Stores base vars env frame) {env' : Env} (hexec : Exec env stat env')
    (hrange : DividesInRange env stat) :
    ∃ frame', (vmIsa host).RunsAll (scopeCode callIndex vars stat) frame frame' ∧
      Stores base (scopeVars vars stat) env' frame' := by
  induction stat generalizing vars env frame with
  | nil =>
    cases hexec
    exact ⟨frame, rfl, h⟩
  | expr e next ih =>
    obtain ⟨t, t', name, right, rfl⟩ := hfits.fragment.assignment
    cases hexec with
    | assign hv hexec =>
      rcases runStraight_assign host h hfits with ⟨v, f₁, hv', hrun, h₁⟩ | ⟨hnone, -⟩
      · obtain rfl := Option.some.inj (hv.symm.trans hv')
        obtain ⟨f₂, hnext, h₂⟩ := ih hfits.next_assign h₁ hexec
          fun _ _ he => hrange _ _ (.assignNext hv he)
        have hassign := JumpIsa.runsAll_straight (fun _ hi => (assignCode_local hi).straight host) hrun
        exact ⟨f₂, hassign.append hnext, h₂⟩
      · cases hv.symm.trans (hnone (hrange _ _ .right))
  | ifElse e trueScope falseScope next _ _ ih =>
    obtain ⟨env₁, hif, hnext⟩ := exec_ifElse_iff.mp hexec
    obtain ⟨w, f₁, hrun, hruns, h₁⟩ := runs_ifElse host hfits h hif
      fun _ _ he => hrange _ _ (he.if_append next)
    obtain ⟨f₂, hrest, h₂⟩ := ih hfits.next_if h₁ hnext
      fun _ _ he => hrange _ _ (hif.evaluates_if he)
    obtain ⟨hcode, hvars⟩ := hfits.conds.1.code callIndex
    have hcond := JumpIsa.runsAll_straight
      (fun _ hi => (valueCode_local hfits.conds.1 hi).straight host) hrun
    rw [scopeCode, scopeVars, hcode, hvars]
    exact ⟨f₂, hcond.append ⟨f₁, hruns, hrest⟩, h₂⟩
  | «while» e loopScope next _ ih =>
    obtain ⟨env₁, hwhile, hnext⟩ := hexec.while_nil rfl
    obtain ⟨hfits', hcode⟩ := hfits.while_alone
    obtain ⟨f₁, hloop, h₁⟩ := runs_of_exec host hwhile
      (fun _ _ he => hrange _ _ (he.while_append rfl next)) hfits' h
    obtain ⟨f₂, hrest, h₂⟩ := ih hfits.next_while h₁ hnext
      fun _ _ he => hrange _ _ (hwhile.evaluates_while rfl he)
    rw [hcode] at hloop
    exact ⟨f₂, ⟨f₁, hloop, hrest⟩, h₂⟩
  | other next => exact hfits.fragment.elim
  | notScope stat => exact hfits.fragment.elim

end

/-! ## Chunks in a session -/

variable {host}

lemma isCall_scopeCode {callIndex : CStr → UInt16} {vars : Vars} {stat : Stat} (hstat : IntStat stat)
    (hconds : ValueConds vars stat) :
    ∀ code ∈ scopeCode callIndex vars stat, ∀ i ∈ code, i.isCall = false := fun _ hcode i hi =>
  isCall_scopeInstrs hstat hconds i (List.mem_flatten.mpr ⟨_, hcode, hi⟩)

/-- Chunks that run are executed. -/
lemma SessionEnds.execute_all {chunks : List (List Instr)} {events : List Event} {vm vm' : Vm}
    {frame frame₁ frame' : Frame} (hcalls : ∀ code ∈ chunks, ∀ i ∈ code, i.isCall = false)
    (hruns : (vmIsa host).RunsAll chunks frame frame₁)
    (hrest : SessionEnds host vm frame₁ events vm' frame') :
    SessionEnds host vm frame ((chunks.map fun code => .execute (encodeAll code)) ++ events) vm' frame' := by
  induction chunks generalizing frame with
  | nil =>
    obtain rfl : frame = frame₁ := hruns
    exact hrest
  | cons code chunks ih =>
    obtain ⟨frame₂, hcode, hchunks⟩ := hruns
    exact .execute (vmRuns_of_runs (hcalls code List.mem_cons_self) hcode)
      (ih (fun code' h => hcalls code' (List.mem_cons_of_mem _ h)) hchunks)

/-- A session that ends has passed what holds behind its first chunks. -/
lemma SessionEnds.passes {chunks : List (List Instr)} {events : List Event} {P Q : Frame → Prop}
    {vm vm' : Vm} {frame frame' : Frame} (hseq : (vmIsa host).Seq anyStop P chunks Q) (hP : P frame)
    (h : SessionEnds host vm frame ((chunks.map fun code => .execute (encodeAll code)) ++ events)
      vm' frame') : ∃ frame₁, Q frame₁ ∧ SessionEnds host vm frame₁ events vm' frame' := by
  induction chunks generalizing P frame with
  | nil => exact ⟨frame, hseq frame hP, h⟩
  | cons code chunks ih =>
    obtain ⟨R, hblock, hrest⟩ := hseq
    cases h with
    | execute hruns hends => exact ih hrest (vmRuns_block hblock hP hruns) hends

/-! ## Programs in a session -/

/-- The events mean the program: where a session goes through them the program ends with the same store,
and where the program ends without an overflow a session goes through them. -/
structure SessionMeans (host : Host) (vars : Vars) (program : List TopLevel) (events : List Event) :
    Prop where
  back : ∀ {env : Env} {vm vm' : Vm} {frame frame' : Frame}, Stores (rootFrame host) vars env frame →
    SessionEnds host vm frame events vm' frame' → ∃ env', ProgramExec env program env' ∧
      Stores (rootFrame host) (programVars vars program) env' frame'
  runs : ∀ {env env' : Env} {vm vm' : Vm} {frame : Frame}, Stores (rootFrame host) vars env frame →
    ProgramExec env program env' → ProgramInRange env program → Registers vm events vm' →
      ∃ frame', SessionEnds host vm frame events vm' frame'

/-- Executions register nothing. -/
lemma Registers.of_executes {chunks : List (List Instr)} {events : List Event} {vm vm' : Vm}
    (h : Registers vm ((chunks.map fun code => .execute (encodeAll code)) ++ events) vm') :
    Registers vm events vm' := by
  induction chunks with
  | nil => exact h
  | cons code chunks ih =>
    cases h with
    | execute h => exact ih h

lemma RootStat.fits {vars : Vars} {stat : Stat} (h : RootStat vars stat) (hint : IntVars vars)
    (hslotted : Slotted vars) (callIndex : CStr → UInt16) :
    Fits (rootFrame host) callIndex vars stat where
  fragment := h.fragment
  regular := (regularScope_callIndex _ callIndex vars stat).mp h.regular
  conds := h.conds
  int := hint
  slotted := hslotted
  slots := h.slots
  locals := by
    rw [length_rootFrame_locals]
    exact h.slots
  room := rootFrame_room host h.words

/-- One statement of the session. -/
lemma SessionMeans.stat {callIndex : CStr → UInt16} {vars : Vars} {stat : Stat}
    {program : List TopLevel} {events : List Event}
    (hfits : Fits (rootFrame host) callIndex vars stat.single)
    (h : SessionMeans host (scopeVars vars stat.single) program events) :
    SessionMeans host vars (.stat stat :: program)
      (rootEvents true (scopeCode callIndex vars stat.single) ++ events) where
  back hstores hends := by
    obtain ⟨frame₁, ⟨env₁, hexec, h₁⟩, hrest⟩ := hends.passes (seq_of_exec host hfits _) hstores
    obtain ⟨env', hprogram, h'⟩ := h.back h₁ hrest
    exact ⟨env', .stat hexec hprogram, h'⟩
  runs hstores hprogram hrange hreg := by
    cases hprogram with
    | stat hexec hrest =>
      obtain ⟨frame₁, hruns, h₁⟩ := runsAll_of_exec host hfits hstores hexec
        fun _ _ he => hrange _ _ (.stat he)
      obtain ⟨frame', hends⟩ := h.runs h₁ hrest (fun _ _ he => hrange _ _ (.next hexec he))
        (Registers.of_executes hreg)
      exact ⟨frame', hends.execute_all (isCall_scopeCode hfits.fragment hfits.conds) hruns⟩

/-- A function in between. -/
lemma SessionMeans.func {vars : Vars} {func : DeclFunc} {program : List TopLevel}
    {events : List Event} (h : SessionMeans host vars program events) (signature data : List UInt8) :
    SessionMeans host vars (.func func :: program) (.register signature data :: events) where
  back hstores hends := by
    cases hends with
    | register _ hrest =>
      obtain ⟨env', hprogram, h'⟩ := h.back hstores hrest
      exact ⟨env', .func hprogram, h'⟩
  runs hstores hprogram hrange hreg := by
    cases hprogram with
    | func hrest =>
      cases hreg with
      | register hvm hreg =>
        obtain ⟨frame', hends⟩ := h.runs hstores hrest (fun _ _ he => hrange _ _ (.func he)) hreg
        exact ⟨frame', .register hvm hends⟩

/-- The parser caches no types. -/
lemma Expression.untraced (e : Expression) : e.expr.Untraced := by
  induction e with
  | operand a =>
    cases a with
    | identifier value => rfl
    | constant c => cases c <;> trivial
  | unary p e ih => exact ⟨rfl, ih⟩
  | binary b l r ihl ihr => exact ⟨rfl, ihl, ihr⟩
  | call f e ihf ihe => exact ⟨rfl, ihf, rfl, ihe⟩
  | group e ih => exact ⟨rfl, ih⟩
  | ternary | varDeclaration => trivial

lemma Derivation.untraced {symbol : Nonterminal} (d : Derivation symbol) {rest : Stat}
    (hrest : rest.Untraced) : (d.stat rest).Untraced := by
  induction d generalizing rest with
  | scope f stats ih => exact ih trivial
  | link stats stat ih₁ ih₂ => exact ih₁ (ih₂ hrest)
  | expression e f => exact ⟨e.untraced, hrest⟩
  | ifThen e trueScope ih => exact ⟨e.untraced, ih trivial, trivial, hrest⟩
  | ifElse e trueScope falseScope ih₁ ih₂ => exact ⟨e.untraced, ih₁ trivial, ih₂ trivial, hrest⟩
  | ifElif e trueScope elifs ih₁ ih₂ => exact ⟨e.untraced, ih₁ trivial, ih₂ trivial, hrest⟩
  | «while» e loopScope ih => exact ⟨e.untraced, ih trivial, hrest⟩
  | flush stat f ih => exact ih hrest
  | elifThen e trueScope ih => exact ⟨e.untraced, ih trivial, trivial, trivial⟩
  | elifElse e trueScope falseScope ih₁ ih₂ => exact ⟨e.untraced, ih₁ trivial, ih₂ trivial, trivial⟩
  | elifElif e trueScope elifs ih₁ ih₂ => exact ⟨e.untraced, ih₁ trivial, ih₂ trivial, trivial⟩
  | empty | block | «switch» | ret => exact hrest
  | func | firstChoice | nextChoice => trivial

/-- A statement alone has no cached types if it has none with the list behind it. -/
lemma Stat.Untraced.single {stat : Stat} (h : stat.Untraced) : stat.single.Untraced := by
  cases stat with
  | nil => trivial
  | expr e next => exact ⟨h.1, trivial⟩
  | ifElse e trueScope falseScope next => exact ⟨h.1, h.2.1, h.2.2.1, trivial⟩
  | «while» e loopScope next => exact ⟨h.1, h.2.1, trivial⟩
  | other next => trivial
  | notScope stat => exact h

/-- A tree that the compiler gets from the parser. -/
def TopLevel.Untraced : TopLevel → Prop
  | .stat s => s.Untraced
  | .func f => f.body.Untraced

instance : DecidablePred Event.IsRegister
  | .execute _ => inferInstanceAs (Decidable False)
  | .register _ _ => inferInstanceAs (Decidable True)

end PhantomShell
