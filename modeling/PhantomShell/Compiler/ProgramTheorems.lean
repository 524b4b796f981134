import PhantomShell.Compiler.Program

/-!
# The compiler makes the events of its program

`compileProgram` runs through the top-level statements: each of them leaves the root scope as one
that sees the variables of the statements before it, and adds the events of `ProgramEvents`.
-/

namespace PhantomShell

/-! ## Calls do not change sizes -/

section

variable (callIndex callIndex' : CStr → UInt16)

lemma codeSize_cons (i : Instr) (code : List Instr) :
    codeSize (i :: code) = i.encode.length + codeSize code := by
  simp [codeSize, encodeAll_cons]

lemma codeSize_ifCode (a b : List Instr) : codeSize (ifCode a b) = codeSize a + codeSize b + 6 := by
  simp only [ifCode, codeSize_cons, codeSize_append, Instr.encode, Instr.operand, htobe16,
    List.length_cons, List.length_nil]
  omega

lemma codeSize_whileCode (a b : List Instr) :
    codeSize (whileCode a b) = codeSize a + codeSize b + 6 := by
  have hnil : codeSize [] = 0 := rfl
  simp only [whileCode, codeSize_cons, codeSize_append, Instr.encode, Instr.operand, htobe16,
    List.length_cons, List.length_nil, hnil]
  omega

/-- The size of the code of an expression, whatever functions it calls. -/
lemma codeSize_exprCode (vars : Vars) (e : Expr) :
    codeSize (exprCode callIndex vars e) = codeSize (exprCode callIndex' vars e) := by
  unfold exprCode
  split
  · exact codeSize_exprCode _ _
  · rw [codeSize_append, codeSize_append, codeSize_exprCode]
  · rfl
  · rw [codeSize_append, codeSize_append, codeSize_exprCode]
    rfl
  · rw [codeSize_append, codeSize_append, codeSize_exprCode vars, codeSize_exprCode (exprVars _ _)]
  · rfl

lemma flatten_singletons (code : List Instr) : (code.map ([·])).flatten = code := by
  induction code with
  | nil => rfl
  | cons i code ih => rw [List.map_cons, List.flatten_cons, ih, List.singleton_append]

/-- So does that of statements. -/
lemma codeSize_scopeCode (vars : Vars) (stat : Stat) :
    codeSize (scopeCode callIndex vars stat).flatten
      = codeSize (scopeCode callIndex' vars stat).flatten := by
  induction stat generalizing vars with
  | expr e next ih =>
    simp only [scopeCode, List.flatten_append, flatten_singletons, codeSize_append,
      codeSize_exprCode callIndex callIndex', ih]
  | ifElse e trueScope falseScope next iht ihf ih =>
    simp only [scopeCode, List.flatten_append, List.flatten_cons, flatten_singletons,
      codeSize_append, codeSize_exprCode callIndex callIndex', codeSize_ifCode, iht, ihf, ih]
  | «while» e loopScope next ihl ih =>
    simp only [scopeCode, List.flatten_cons, codeSize_append, codeSize_whileCode,
      codeSize_exprCode callIndex callIndex', ihl, ih]
  | _ => rfl

/-- Nor do calls decide what is regular. -/
lemma regularScope_callIndex (vars : Vars) (stat : Stat) :
    RegularScope callIndex vars stat ↔ RegularScope callIndex' vars stat := by
  induction stat generalizing vars with
  | expr e next ih => simp only [RegularScope, ih]
  | ifElse e trueScope falseScope next iht ihf ih =>
    simp only [RegularScope, iht, ihf, ih, codeSize_scopeCode callIndex callIndex']
  | «while» e loopScope next ihl ih =>
    simp only [RegularScope, ihl, ih, codeSize_scopeCode callIndex callIndex',
      codeSize_exprCode callIndex callIndex']
  | _ => exact Iff.rfl

end

/-! ## Statements at top level -/

/-- A statement alone is compiled as a scope of one statement. -/
lemma compileStatement_single {fuel : ℕ} {stat : Stat} {s s' : CompilerState} {ret : ℤ}
    (h : compileStatement fuel stat s = .ok ret s') :
    compileScope fuel stat.single s = .ok () s' := by
  cases stat with
  | nil => exact (estate_throw_eq_ok.mp h).elim
  | other next => exact (estate_throw_eq_ok.mp h).elim
  | notScope stat => exact (estate_throw_eq_ok.mp h).elim
  | expr e next => exact estate_bind_eq_ok.mpr ⟨ret, s', h, rfl⟩
  | ifElse e trueScope falseScope next => exact estate_bind_eq_ok.mpr ⟨ret, s', h, rfl⟩
  | «while» e loopScope next => exact estate_bind_eq_ok.mpr ⟨ret, s', h, rfl⟩

/-- The compiler between two top-level statements. -/
structure AtRoot (isInteractive : Bool) (vars : Vars) (s : CompilerState) : Prop where
  visible : s.chain.Visible vars
  parents : s.chain.parents = []
  root : s.chain.scope.isFunctionScope = false
  emitter : s.chain.scope.emitter = .unbuffered ↔ isInteractive = true

lemma atRoot_init (isInteractive : Bool) : AtRoot isInteractive [] (compilerInit isInteractive) := by
  refine ⟨⟨fun name => rfl, rfl⟩, rfl, rfl, ?_⟩
  cases isInteractive
  · exact ⟨nofun, nofun⟩
  · exact ⟨fun _ => rfl, fun _ => rfl⟩

/-- What the root emitter makes of chunks. -/
lemma Advanced.rootEvents {isInteractive : Bool} {vars vars' : Vars} {s s' : CompilerState}
    {chunks : List (List Instr)} {account : ℕ × ℕ} {newVars : List ScopeVar}
    (hroot : AtRoot isInteractive vars s)
    (h : Advanced s (chunks.map encodeAll) account newVars s') (hvis : s'.chain.Visible vars') :
    AtRoot isInteractive vars' s' ∧
      s'.events = s.events ++ PhantomShell.rootEvents isInteractive chunks := by
  obtain ⟨emitter, events, m, hem, rfl⟩ := h
  cases hemitter : s.chain.scope.emitter with
  | unbuffered =>
    have hinter := hroot.emitter.mp hemitter
    rw [hemitter, emitChunks_unbuffered] at hem
    cases hem
    refine ⟨⟨hvis, hroot.parents, hroot.root, ⟨fun _ => hinter, fun _ => rfl⟩⟩, ?_⟩
    simp [CompilerState.moved, PhantomShell.rootEvents, hinter]
  | buffered e =>
    have hinter : isInteractive = false := by
      cases isInteractive
      · rfl
      · have := hroot.emitter.mpr rfl
        rw [hemitter] at this
        cases this
    rw [hemitter, emitChunks_buffered, Option.map_eq_some_iff] at hem
    obtain ⟨e', -, hem⟩ := hem
    cases hem
    refine ⟨⟨hvis, hroot.parents, hroot.root, ?_⟩, ?_⟩
    · rw [hinter]
      exact ⟨fun h => (by cases h), fun h => by cases h⟩
    · simp [CompilerState.moved, PhantomShell.rootEvents, hinter]

/-- A top-level statement. -/
lemma compileStatement_atRoot {isInteractive : Bool} {fuel : ℕ} {stat : Stat} {vars : Vars}
    {s s' : CompilerState} {ret : ℤ} (hroot : AtRoot isInteractive vars s)
    (hu : stat.single.Untraced) (hreg : RegularScope (fun _ => 0) vars stat.single)
    (h : compileStatement fuel stat s = .ok ret s') :
    AtRoot isInteractive (scopeVars vars stat.single) s' ∧
      s'.events = s.events ++ rootEvents isInteractive (scopeCode s.callIndex vars stat.single) := by
  obtain ⟨⟨newVars, hadv⟩, hvis⟩ := compileScope_coded stat.single hu
    ((regularScope_callIndex _ _ vars stat.single).mp hreg) hroot.visible
    (compileStatement_single h)
  exact hadv.rootEvents hroot hvis

/-! ## Functions -/

lemma typeSignatureByName_eq_ok {typeName letter : CStr} {s s' : CompilerState}
    (h : typeSignatureByName typeName s = .ok letter s') : letter = typeLetter typeName ∧ s = s' := by
  unfold typeSignatureByName at h
  unfold typeLetter
  split at h
  · obtain ⟨rfl, rfl⟩ := estate_pure_eq_ok.mp h
    exact ⟨by rw [if_pos (by assumption)], rfl⟩
  · rw [if_neg (by assumption)]
    split at h
    · obtain ⟨rfl, rfl⟩ := estate_pure_eq_ok.mp h
      exact ⟨by rw [if_pos (by assumption)], rfl⟩
    · rw [if_neg (by assumption)]
      split at h
      · obtain ⟨rfl, rfl⟩ := estate_pure_eq_ok.mp h
        exact ⟨rfl, rfl⟩
      · exact (estate_throw_eq_ok.mp h).elim

lemma staticTypeByName_eq_ok {typeName : CStr} {t : StaticType} {s s' : CompilerState}
    (h : staticTypeByName typeName s = .ok t s') : t = namedType typeName ∧ s = s' := by
  unfold staticTypeByName at h
  unfold namedType
  split at h
  · obtain ⟨rfl, rfl⟩ := estate_pure_eq_ok.mp h
    exact ⟨by rw [if_pos (by assumption)], rfl⟩
  · rw [if_neg (by assumption)]
    split at h
    · obtain ⟨rfl, rfl⟩ := estate_pure_eq_ok.mp h
      exact ⟨by rw [if_pos (by assumption)], rfl⟩
    · rw [if_neg (by assumption)]
      split at h
      · obtain ⟨rfl, rfl⟩ := estate_pure_eq_ok.mp h
        exact ⟨rfl, rfl⟩
      · exact (estate_throw_eq_ok.mp h).elim

/-- The letters of the parameters. -/
lemma argTypes_eq_ok {args : List (CStr × CStr)} {letters : List CStr} {s s' : CompilerState}
    (h : (args.mapM fun arg => typeSignatureByName arg.2) s = .ok letters s') :
    letters = args.map (fun arg => typeLetter arg.2) ∧ s = s' := by
  induction args generalizing letters s s' with
  | nil =>
    obtain ⟨rfl, rfl⟩ := estate_pure_eq_ok.mp h
    exact ⟨rfl, rfl⟩
  | cons arg args ih =>
    rw [List.mapM_cons] at h
    obtain ⟨letter, s₁, h₁, h⟩ := estate_bind_eq_ok.mp h
    obtain ⟨rfl, rfl⟩ := typeSignatureByName_eq_ok h₁
    obtain ⟨letters', s₂, h₂, h⟩ := estate_bind_eq_ok.mp h
    obtain ⟨rfl, rfl⟩ := ih h₂
    obtain ⟨rfl, rfl⟩ := estate_pure_eq_ok.mp h
    exact ⟨rfl, rfl⟩

/-- `compiler_define_func` adds the function to `global_func_map`. -/
lemma compilerDefineFunc_eq_ok {fuel : ℕ} {node : DeclFunc} {funcDesc : FuncDesc}
    {s s' : CompilerState} (h : compilerDefineFunc fuel node s = .ok funcDesc s') :
    hashmapGet id s.globalFuncMap node.name = none ∧
      funcDesc = ⟨node.name, node.args, signatureOf node⟩ ∧
      ∃ map, hashmapPut id (fun _ => true) fuel s.globalFuncMap node.name funcDesc
        = some (0, map) ∧ s' = { s with globalFuncMap := map } := by
  simp only [compilerDefineFunc, estate_bind_eq_ok, estate_get_eq_ok] at h
  obtain ⟨_, _, ⟨rfl, rfl⟩, h⟩ := h
  split at h
  · exact (estate_throw_eq_ok.mp h).elim
  rename_i hnew
  obtain ⟨letters, s₁, hletters, h⟩ := estate_bind_eq_ok.mp h
  obtain ⟨rfl, rfl⟩ := argTypes_eq_ok hletters
  cases hret : node.retType with
  | none =>
    simp only [hret] at h
    exact (estate_throw_eq_ok.mp h).elim
  | some retType =>
    simp only [hret] at h
    obtain ⟨ret, s₁, hretSig, h⟩ := estate_bind_eq_ok.mp h
    obtain ⟨rfl, rfl⟩ := typeSignatureByName_eq_ok hretSig
    split at h
    · exact (estate_throw_eq_ok.mp h).elim
    simp only [estate_bind_eq_ok, estate_get_eq_ok] at h
    obtain ⟨_, _, ⟨rfl, rfl⟩, h⟩ := h
    have hsig : signatureOf node = node.name ++ 40 ::
        ((node.args.map fun arg => typeLetter arg.2).flatten ++ 41 :: typeLetter retType) := by
      rw [signatureOf, hret]
      rfl
    rw [← hsig] at h
    cases hput : hashmapPut id (fun _ => true) fuel s.globalFuncMap node.name
        (⟨node.name, node.args, signatureOf node⟩ : FuncDesc) with
    | none =>
      simp only [hput] at h
      exact (estate_throw_eq_ok.mp h).elim
    | some r =>
      obtain ⟨ret, map⟩ := r
      simp only [hput] at h
      split at h
      · exact (estate_throw_eq_ok.mp h).elim
      · rename_i hzero
        obtain rfl : ret = 0 := not_not.mp hzero
        simp only [estate_bind_eq_ok, estate_set_eq_ok, estate_pure_eq_ok] at h
        obtain ⟨_, _, rfl, rfl, rfl⟩ := h
        exact ⟨by simpa using hnew, rfl, map, hput, rfl⟩

/-- The parameters become the first variables of the function scope. -/
lemma defineParams_eq_ok {args : List (CStr × CStr)} {vars : Vars} {s s' : CompilerState}
    (hvis : s.chain.Visible vars) (hparents : s.chain.parents = [])
    (h : (args.forM fun arg => do
      let argType ← staticTypeByName arg.2
      let _ ← frameDefineVar argType arg.1) s = .ok () s') :
    (∃ newVars, Advanced s [] s.account newVars s') ∧ s'.chain.parents = [] ∧
      s'.chain.Visible
        (args.foldl (fun vars arg => declareVar vars (namedType arg.2) arg.1) vars) := by
  induction args generalizing vars s with
  | nil =>
    obtain ⟨-, rfl⟩ := estate_pure_eq_ok.mp h
    exact ⟨⟨[], Advanced.refl s⟩, hparents, hvis⟩
  | cons arg args ih =>
    obtain ⟨_, s₁, h₁, h⟩ := estate_bind_eq_ok.mp h
    obtain ⟨argType, s₂, htype, h₁⟩ := estate_bind_eq_ok.mp h₁
    obtain ⟨rfl, rfl⟩ := staticTypeByName_eq_ok htype
    obtain ⟨var, s₂, hdefine, h₁⟩ := estate_bind_eq_ok.mp h₁
    obtain ⟨-, rfl⟩ := estate_pure_eq_ok.mp h₁
    -- the function scope is the last one, so a name that is new in it is new
    have hnew : s.chain.scope.vars.find? (·.name == arg.1) = none →
        lookupVar vars arg.1 = none := by
      intro hfind
      rw [← hvis.lookup, lookup_eq, hfind, hparents]
    obtain ⟨-, hadv, hvis'⟩ := hvis.define hnew hdefine
    have hparents' : s₂.chain.parents = [] := by
      obtain ⟨_, _, _, -, rfl⟩ := hadv
      exact hparents
    obtain ⟨⟨newVars, hadv'⟩, hparents'', hvis''⟩ := ih hvis' hparents' h
    rw [hadv.account_eq] at hadv'
    exact ⟨⟨_, hadv.trans hadv'⟩, hparents'', hvis''⟩

/-- The state in which the parameters of a function are defined. -/
def CompilerState.function (s : CompilerState) : CompilerState := { s with chain := funcScopeChain }

lemma visible_function (s : CompilerState) : s.function.chain.Visible [] :=
  ⟨fun _ => rfl, rfl⟩

/-- Parameters are not emitted: behind them the body goes into a fresh buffer. -/
lemma Advanced.function {s s' : CompilerState} {account : ℕ × ℕ} {newVars : List ScopeVar}
    (h : Advanced s.function [] account newVars s') :
    s'.chain.scope.emitter = .buffered (compilerEmitterBufferedNew 256) ∧ s'.events = s.events := by
  obtain ⟨em, ev, m, hem, rfl⟩ := h
  cases hem
  exact ⟨rfl, List.append_nil _⟩

lemma constPoolRegisterValue_eq_ok {fuel : ℕ} {value : CStr} {index : UInt16}
    {s s' : CompilerState} (h : constPoolRegisterValue fuel value s = .ok index s') :
    (hashmapGet id s.constPoolMap value).getD 0 = 0 ∧ ∃ ret map,
      hashmapPut id (fun _ => true) fuel s.constPoolMap value s.constPoolMapSize
        = some (ret, map) ∧ index = s.constPoolMapSize ∧
      s' = { s with constPoolMap := map, constPoolMapSize := s.constPoolMapSize + 1 } := by
  simp only [constPoolRegisterValue, estate_bind_eq_ok, estate_get_eq_ok] at h
  obtain ⟨_, _, ⟨rfl, rfl⟩, h⟩ := h
  split at h
  · exact (estate_throw_eq_ok.mp h).elim
  · rename_i hzero
    cases hput : hashmapPut id (fun _ => true) fuel s.constPoolMap value s.constPoolMapSize with
    | none =>
      simp only [hput] at h
      exact (estate_throw_eq_ok.mp h).elim
    | some r =>
      obtain ⟨ret, map⟩ := r
      simp only [hput, estate_bind_eq_ok, estate_set_eq_ok, estate_pure_eq_ok] at h
      obtain ⟨_, _, rfl, rfl, rfl⟩ := h
      exact ⟨not_not.mp hzero, ret, map, rfl, rfl, rfl⟩

/-- `compile_func`: the runs of its parts, what it registers, and that the scope around it is as
before. -/
lemma compileFunc_eq_ok {fuel : ℕ} {node : DeclFunc} {s s' : CompilerState} {ret : ℤ}
    (h : compileFunc fuel node s = .ok ret s') :
    ∃ s₁ s₂ s₃ s₄ body map,
      compilerDefineFunc fuel node s = .ok ⟨node.name, node.args, signatureOf node⟩ s₁ ∧
      (node.args.forM fun arg => do
        let argType ← staticTypeByName arg.2
        let _ ← frameDefineVar argType arg.1) s₁.function = .ok () s₂ ∧
      compileScope fuel node.body s₂ = .ok () s₃ ∧
      sinkEmitter s₃.chain.scope.emitter { s₃ with chain := s.chain } = .ok body s₄ ∧
      (hashmapGet id s₄.constPoolMap (signatureOf node)).getD 0 = 0 ∧
      (∃ ret, hashmapPut id (fun _ => true) fuel s₄.constPoolMap (signatureOf node)
        s₄.constPoolMapSize = some (ret, map)) ∧
      s' = { s₄ with
        constPoolMap := map
        constPoolMapSize := s₄.constPoolMapSize + 1
        events := s₄.events ++ [.register (signatureOf node)
          (funcHeader s₃.chain.varsMaxSize s₃.chain.stackMaxSize ++ body)] } := by
  obtain ⟨funcDesc, s₁, hdefine, h⟩ := estate_bind_eq_ok.mp h
  obtain ⟨-, rfl, map₀, -, hs₁⟩ := compilerDefineFunc_eq_ok hdefine
  have hchain : s₁.chain = s.chain := by rw [hs₁]
  obtain ⟨funcChain, s₃', hbody, h⟩ := estate_bind_eq_ok.mp h
  simp only [compileFuncBody, estate_bind_eq_ok, estate_get_eq_ok, estate_modify_eq_ok,
    estate_pure_eq_ok] at hbody
  obtain ⟨_, _, ⟨rfl, rfl⟩, _, _, rfl, _, s₂, hparams, _, s₃, hscope, _, _, ⟨rfl, rfl⟩, _, _, rfl,
    rfl, rfl⟩ := hbody
  obtain ⟨body, s₄, hsink, h⟩ := estate_bind_eq_ok.mp h
  obtain ⟨index, s₅, hpool, h⟩ := estate_bind_eq_ok.mp h
  obtain ⟨hfresh, ret, map, hput, -, rfl⟩ := constPoolRegisterValue_eq_ok hpool
  obtain ⟨s₆, _, hget, h⟩ := estate_bind_eq_ok.mp h
  obtain ⟨rfl, rfl⟩ := estate_get_eq_ok.mp hget
  split at h
  · obtain ⟨_, _, hmodify, h⟩ := estate_bind_eq_ok.mp h
    obtain rfl := estate_modify_eq_ok.mp hmodify
    obtain ⟨-, rfl⟩ := estate_pure_eq_ok.mp h
    rw [hchain] at hsink
    exact ⟨s₁, s₂, s₃, s₄, body, map, hdefine, hparams, hscope, hsink, hfresh, ⟨ret, hput⟩, rfl⟩
  · exact (estate_throw_eq_ok.mp h).elim

/-- A function definition registers the code of its body. -/
lemma compileFunc_code {fuel : ℕ} {node : DeclFunc} {s s' : CompilerState} {ret : ℤ}
    (hu : node.body.Untraced) (hreg : RegularScope (fun _ => 0) (paramVars node.args) node.body)
    (h : compileFunc fuel node s = .ok ret s') : ∃ callIndex varsMaxSize,
      s'.events = s.events ++ [.register (signatureOf node) (funcHeader varsMaxSize
          (scopeAccount callIndex (paramVars node.args) (0, 0) node.body).2 ++
        encodeAll (scopeCode callIndex (paramVars node.args) node.body).flatten)] := by
  obtain ⟨s₁, s₂, s₃, s₄, body, map, hdefine, hparams, hscope, hsink, -, -, rfl⟩ :=
    compileFunc_eq_ok h
  obtain ⟨-, -, map₀, -, rfl⟩ := compilerDefineFunc_eq_ok hdefine
  obtain ⟨⟨params, hadv₂⟩, -, hvis₂⟩ := defineParams_eq_ok (visible_function _) rfl hparams
  obtain ⟨⟨newVars, hadv₃⟩, -⟩ := compileScope_coded node.body hu
    ((regularScope_callIndex _ s₂.callIndex _ _).mp hreg) hvis₂ hscope
  have haccount₂ : s₂.account = (0, 0) := hadv₂.account_eq
  have haccount₃ : s₃.chain.stackMaxSize = _ := congrArg Prod.snd hadv₃.account_eq
  rw [haccount₂] at haccount₃
  have hbuffer := hadv₂.function
  have hcode : (∃ e, s₃.chain.scope.emitter = .buffered e ∧ EmitterHolds 256 e
      (encodeAll (scopeCode s₂.callIndex (paramVars node.args) node.body).flatten)) ∧
      s₃.events = s.events := by
    obtain ⟨em, ev, m, hem, rfl⟩ := hadv₃
    rw [hbuffer.1] at hem
    obtain ⟨e, rfl, rfl, hholds⟩ := emitChunks_new (by decide) hem
    rw [flatten_scopeChunks] at hholds
    exact ⟨⟨e, rfl, hholds⟩, by simp [CompilerState.moved, hbuffer.2]⟩
  obtain ⟨⟨e, hemitter, hholds⟩, hevents⟩ := hcode
  rw [hemitter] at hsink
  obtain ⟨rfl, rfl⟩ := sinkEmitter_eq_ok hholds hsink
  refine ⟨s₂.callIndex, s₃.chain.varsMaxSize, ?_⟩
  simp only [hevents, haccount₃]

/-- A buffered emitter keeps the chunks. -/
lemma Advanced.events_eq {s s' : CompilerState} {chunks : List (List UInt8)} {account : ℕ × ℕ}
    {newVars : List ScopeVar} (h : Advanced s chunks account newVars s') {e : BytecodeEmitter}
    (he : s.chain.scope.emitter = .buffered e) : s'.events = s.events := by
  obtain ⟨emitter, events, m, hem, rfl⟩ := h
  rw [he, emitChunks_buffered, Option.map_eq_some_iff] at hem
  obtain ⟨e', -, hem⟩ := hem
  cases hem
  exact List.append_nil _

/-- Whatever its body, a function is registered with a header and its code, and the scopes stay as
they are. -/
lemma compileFunc_chain {fuel : ℕ} {node : DeclFunc} {s s' : CompilerState} {ret : ℤ}
    (h : compileFunc fuel node s = .ok ret s') : s'.chain = s.chain ∧ ∃ vars stack body,
      s'.events = s.events ++ [.register (signatureOf node) (funcHeader vars stack ++ body)] := by
  obtain ⟨s₁, s₂, s₃, s₄, body, map, hdefine, hparams, hscope, hsink, -, -, rfl⟩ :=
    compileFunc_eq_ok h
  obtain ⟨-, -, map₀, -, rfl⟩ := compilerDefineFunc_eq_ok hdefine
  obtain ⟨⟨params, hadv₂⟩, -, -⟩ := defineParams_eq_ok (visible_function _) rfl hparams
  obtain ⟨_, _, _, hadv₃⟩ := grower_scope fuel node.body _ _ _ hscope
  obtain ⟨hemitter, hevents⟩ := hadv₂.function
  have hbody := hadv₃.events_eq hemitter
  obtain rfl := sinkEmitter_state hsink
  refine ⟨rfl, s₃.chain.varsMaxSize, s₃.chain.stackMaxSize, body, ?_⟩
  show s₃.events ++ _ = _
  rw [hbody, hevents]

lemma AtRoot.compileFunc {isInteractive : Bool} {fuel : ℕ} {node : DeclFunc} {vars : Vars}
    {s s' : CompilerState} {ret : ℤ} (hroot : AtRoot isInteractive vars s)
    (h : PhantomShell.compileFunc fuel node s = .ok ret s') : AtRoot isInteractive vars s' := by
  obtain ⟨hchain, -⟩ := compileFunc_chain h
  exact ⟨hchain ▸ hroot.visible, hchain ▸ hroot.parents, hchain ▸ hroot.root, hchain ▸ hroot.emitter⟩

/-! ## Programs -/

lemma compileProgram_cons {fuel : ℕ} {node : TopLevel} {program : List TopLevel}
    {s s' : CompilerState} (h : compileProgram fuel (node :: program) s = .ok () s') :
    ∃ ret s₁, compilerCompile fuel node s = .ok ret s₁ ∧
      compileProgram fuel program s₁ = .ok () s' := by
  obtain ⟨_, s₁, hnode, hrest⟩ := estate_bind_eq_ok.mp h
  obtain ⟨ret, s₂, hcompile, hpure⟩ := estate_bind_eq_ok.mp hnode
  obtain ⟨-, rfl⟩ := estate_pure_eq_ok.mp hpure
  exact ⟨ret, s₂, hcompile, hrest⟩

/-- The run lemma: a program that the compiler accepts makes the events of its source. -/
theorem compileProgram_events {isInteractive : Bool} {fuel : ℕ} {program : List TopLevel}
    {vars : Vars} {s s' : CompilerState} (hroot : AtRoot isInteractive vars s)
    (hu : Throughout (fun _ stat => stat.Untraced) (fun func => func.body.Untraced) vars program)
    (hreg : Throughout (RegularScope fun _ => 0)
      (fun func => RegularScope (fun _ => 0) (paramVars func.args) func.body) vars program)
    (h : compileProgram fuel program s = .ok () s') :
    ∃ events, s'.events = s.events ++ events ∧ ProgramEvents isInteractive vars program events := by
  induction program generalizing vars s with
  | nil =>
    obtain ⟨-, rfl⟩ := estate_pure_eq_ok.mp h
    exact ⟨[], by simp, .nil⟩
  | cons node program ih =>
    obtain ⟨ret, s₁, h₁, hrest⟩ := compileProgram_cons h
    cases node with
    | stat stat =>
      obtain ⟨hroot', hevents⟩ := compileStatement_atRoot hroot hu.1 hreg.1 h₁
      obtain ⟨events, hevents', hprogram⟩ := ih hroot' hu.2 hreg.2 hrest
      exact ⟨_, by rw [hevents', hevents, List.append_assoc], .stat hprogram⟩
    | func node =>
      obtain ⟨callIndex, varsMaxSize, hevents⟩ := compileFunc_code hu.1 hreg.1 h₁
      obtain ⟨events, hevents', hprogram⟩ := ih (hroot.compileFunc h₁) hu.2 hreg.2 hrest
      exact ⟨_, by rw [hevents', hevents, List.append_assoc, List.singleton_append],
        .func hprogram⟩

/-- The same for the statements outside of the functions, whatever the functions are. -/
theorem compileProgram_rootEvents {fuel : ℕ} {program : List TopLevel} {vars : Vars}
    {s s' : CompilerState} (hroot : AtRoot true vars s)
    (hu : Throughout (fun _ stat => stat.Untraced) (fun _ => True) vars program)
    (hreg : Throughout (RegularScope fun _ => 0) (fun _ => True) vars program)
    (h : compileProgram fuel program s = .ok () s') :
    ∃ events, s'.events = s.events ++ events ∧ RootEvents vars program events := by
  induction program generalizing vars s with
  | nil =>
    obtain ⟨-, rfl⟩ := estate_pure_eq_ok.mp h
    exact ⟨[], by simp, .nil⟩
  | cons node program ih =>
    obtain ⟨ret, s₁, h₁, hrest⟩ := compileProgram_cons h
    cases node with
    | stat stat =>
      obtain ⟨hroot', hevents⟩ := compileStatement_atRoot hroot hu.1 hreg.1 h₁
      obtain ⟨events, hevents', hprogram⟩ := ih hroot' hu.2 hreg.2 hrest
      exact ⟨_, by rw [hevents', hevents, List.append_assoc], .stat hprogram⟩
    | func node =>
      obtain ⟨-, varsMaxSize, stackMaxSize, body, hevents⟩ := compileFunc_chain h₁
      obtain ⟨events, hevents', hprogram⟩ := ih (hroot.compileFunc h₁) hu.2 hreg.2 hrest
      exact ⟨_, by rw [hevents', hevents, List.append_assoc, List.singleton_append], .func hprogram⟩

end PhantomShell
