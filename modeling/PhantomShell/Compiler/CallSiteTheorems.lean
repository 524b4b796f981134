import PhantomShell.Compiler.InterningTheorems
import PhantomShell.Compiler.ModesTheorems
import PhantomShell.Compiler.Reached

/-!
# The operands of calls

The compiler and the machine number the functions of a program in the same order, each with a
counter of its own. The compiler looks the number of a function up where it compiles a call
(`CallSite`), and enters it behind the body of the function: a call of the function in its own body
does not find it.
-/

namespace PhantomShell

/-! ## Signatures -/

/-- The bytes behind the last `c` and those in front of it. -/
lemma append_cons_cancel {α : Type} {c : α} {a b t u : List α} (ht : c ∉ t) (hu : c ∉ u)
    (h : a ++ c :: t = b ++ c :: u) : a = b := by
  induction a generalizing b with
  | nil =>
    cases b with
    | nil => rfl
    | cons y b =>
      obtain ⟨rfl, rfl⟩ := List.cons.inj h
      simp at ht
  | cons x a ih =>
    cases b with
    | nil =>
      obtain ⟨rfl, rfl⟩ := List.cons.inj h
      simp at hu
    | cons y b =>
      obtain ⟨rfl, htail⟩ := List.cons.inj h
      rw [ih htail]

lemma typeLetter_ne (typeName : CStr) : 40 ∉ typeLetter typeName := by
  unfold typeLetter
  split
  · decide
  · split <;> decide

/-- Functions with one signature have one name: no letter is a parenthesis. -/
lemma signatureOf_name {func func' : DeclFunc} (h : signatureOf func = signatureOf func') :
    func.name = func'.name := by
  have hletters : ∀ func : DeclFunc, (40 : UInt8) ∉
      (func.args.map fun arg => typeLetter arg.2).flatten ++
        41 :: typeLetter (func.retType.getD []) := by
    intro func hmem
    simp only [List.mem_append, List.mem_flatten, List.mem_map, List.mem_cons] at hmem
    rcases hmem with ⟨_, ⟨arg, -, rfl⟩, hmem⟩ | hmem | hmem
    · exact typeLetter_ne _ hmem
    · exact absurd hmem (by decide)
    · exact typeLetter_ne _ hmem
  exact append_cons_cancel (hletters func) (hletters func') h

lemma signatureOf_nodup {funcs : List DeclFunc} (h : (funcs.map (·.name)).Nodup) :
    (funcs.map signatureOf).Nodup := by
  rw [List.nodup_map_iff_inj_on h.of_map]
  intro func hfunc func' hfunc' heq
  exact List.inj_on_of_nodup_map h hfunc hfunc' (signatureOf_name heq)

/-! ## The tables of the compiler -/

/-- The functions that were declared, by their names. -/
def funcTable (funcs : List DeclFunc) (name : CStr) : Option FuncDesc :=
  (funcs.find? (·.name == name)).map fun func => ⟨func.name, func.args, signatureOf func⟩

lemma funcTable_concat {funcs : List DeclFunc} {func : DeclFunc}
    (hnew : funcTable funcs func.name = none) :
    funcTable (funcs ++ [func])
      = Function.update (funcTable funcs) func.name
          (some ⟨func.name, func.args, signatureOf func⟩) := by
  rw [funcTable, Option.map_eq_none_iff] at hnew
  funext name
  by_cases hname : name = func.name
  · simp [funcTable, hname, hnew, List.find?_append]
  · rw [Function.update_of_ne hname]
    simp [funcTable, List.find?_append, Ne.symm hname]

lemma funcTable_eq_none {funcs : List DeclFunc} {name : CStr} :
    funcTable funcs name = none ↔ name ∉ funcs.map (·.name) := by
  simp [funcTable]

/-- `declared` are the functions in `global_func_map`, and `registered` those in
`const_pool_map`. -/
structure Linked (declared registered : List DeclFunc) (s : CompilerState) : Prop where
  run : PutRun id s.globalFuncMap
  table : MapHolds id s.globalFuncMap (funcTable declared)
  names : (declared.map (·.name)).Nodup
  pool : Interned (registered.map signatureOf) s

namespace Linked

variable {declared registered : List DeclFunc} {s s' : CompilerState}

lemma congr (h : Linked declared registered s) (hfuncs : s'.globalFuncMap = s.globalFuncMap)
    (hpool : s'.constPoolMap = s.constPoolMap) (hsize : s'.constPoolMapSize = s.constPoolMapSize) :
    Linked declared registered s' :=
  ⟨hfuncs ▸ h.run, hfuncs ▸ h.table, h.names,
    ⟨hpool ▸ h.pool.run, hpool ▸ h.pool.holds, hsize ▸ h.pool.counter, hpool ▸ h.pool.counted⟩⟩

lemma invariant (declared registered : List DeclFunc) :
    CompileInvariant (Linked declared registered) where
  moved hs _ := hs.congr rfl rfl rfl
  define hs _ hdefine := by
    obtain ⟨-, -, rfl⟩ := frameDefineVar_eq_ok hdefine
    exact hs.congr rfl rfl rfl
  child hs := hs.congr rfl rfl rfl

/-- `compiler_define_func` declares one more function. -/
lemma define (h : Linked declared registered s) {fuel : ℕ} {func : DeclFunc} {desc : FuncDesc}
    (hdefine : compilerDefineFunc fuel func s = .ok desc s') :
    Linked (declared ++ [func]) registered s' ∧ s'.events = s.events := by
  obtain ⟨hnew, rfl, map, hput, rfl⟩ := compilerDefineFunc_eq_ok hdefine
  rw [hashmapGet_eq h.table] at hnew
  obtain ⟨-, hclean⟩ := h.run.holds
  obtain ⟨-, htable, -⟩ := hashmapPut_holds (fun _ => rfl) h.table (.inr (hclean _)) hput
  refine ⟨⟨.put _ _ _ _ h.run hput, ?_, ?_, ?_⟩, rfl⟩
  · rw [funcTable_concat hnew]
    exact htable
  · rw [List.map_append, List.map_singleton, List.nodup_append]
    refine ⟨h.names, List.nodup_singleton _, ?_⟩
    rintro name hname _ hmem rfl
    rw [List.mem_singleton.mp hmem] at hname
    exact funcTable_eq_none.mp hnew hname
  · exact ⟨h.pool.run, h.pool.holds, h.pool.counter, h.pool.counted⟩

/-- The operand of a call of a declared function: its number, if it is registered. -/
lemma callIndex (h : Linked declared registered s) {func : DeclFunc} (hfunc : func ∈ declared) :
    s.callIndex func.name
      = (lastIndex (registered.map signatureOf) (signatureOf func)).getD 0 := by
  have hfind : declared.find? (·.name == func.name) = some func := by
    cases hfind : declared.find? (·.name == func.name) with
    | none =>
      rw [List.find?_eq_none] at hfind
      exact absurd (by simp) (hfind func hfunc)
    | some func' =>
      have hname : func'.name = func.name := by simpa using List.find?_some hfind
      rw [List.inj_on_of_nodup_map h.names (List.mem_of_find?_eq_some hfind) hfunc hname]
  rw [CompilerState.callIndex, hashmapGet_eq h.table, funcTable, hfind]
  exact congrArg (·.getD 0) (hashmapGet_eq h.pool.holds _)

/-- A call of a registered function names its place among the registered ones. -/
lemma callIndex_registered {func : DeclFunc} {before after : List DeclFunc}
    (h : Linked declared (before ++ func :: after) s) (hfunc : func ∈ declared)
    (hnames : ((before ++ func :: after).map (·.name)).Nodup) :
    s.callIndex func.name = UInt16.ofNat before.length := by
  have hplace : ((before ++ func :: after).map signatureOf)[before.length]?
      = some (signatureOf func) := by simp
  rw [h.callIndex hfunc, lastIndex_of_nodup (signatureOf_nodup hnames) hplace, Option.getD_some]

/-- A call of one that is not registered yet names the first function. -/
lemma callIndex_unregistered {func : DeclFunc} (h : Linked declared registered s)
    (hfunc : func ∈ declared) (hnew : func.name ∉ registered.map (·.name)) :
    s.callIndex func.name = 0 := by
  rw [h.callIndex hfunc, lastIndex_eq_none, Option.getD_none]
  intro hmem
  obtain ⟨func', hfunc', heq⟩ := List.mem_map.mp hmem
  exact hnew (List.mem_map.mpr ⟨func', hfunc', signatureOf_name heq⟩)

end Linked

/-! ## The registrations of a program -/

/-- The signatures that were registered. -/
def registeredSignatures (events : List Event) : List CStr :=
  events.filterMap fun
    | .register signature _ => some signature
    | .execute _ => none

/-- Chunks are only executed. -/
lemma registeredSignatures_chunks {emitter emitter' : ScopeEmitter} {chunks : List (List UInt8)}
    {events : List Event} (h : emitChunks emitter chunks = some (emitter', events)) :
    registeredSignatures events = [] := by
  cases emitter with
  | unbuffered =>
    rw [emitChunks_unbuffered] at h
    cases h
    simp [registeredSignatures, List.filterMap_map]
  | buffered e =>
    rw [emitChunks_buffered, Option.map_eq_some_iff] at h
    obtain ⟨e', -, h⟩ := h
    cases h
    rfl

/-- A run neither declares nor registers functions. -/
lemma Grows.tables {s s' : CompilerState} (h : Grows s s') :
    s'.globalFuncMap = s.globalFuncMap ∧ s'.constPoolMap = s.constPoolMap ∧
      s'.constPoolMapSize = s.constPoolMapSize ∧
      registeredSignatures s'.events = registeredSignatures s.events := by
  obtain ⟨chunks, account, newVars, emitter, events, m, hem, rfl⟩ := h
  refine ⟨rfl, rfl, rfl, ?_⟩
  have := registeredSignatures_chunks hem
  simp only [CompilerState.moved, registeredSignatures, List.filterMap_append] at this ⊢
  rw [this, List.append_nil]

lemma defineParams_grows (args : List (CStr × CStr)) : Grower (defineParams args) := by
  induction args with
  | nil =>
    intro s _ s' h
    obtain ⟨-, rfl⟩ := estate_pure_eq_ok.mp h
    exact Grows.refl s
  | cons arg args ih =>
    intro s _ s' h
    obtain ⟨_, s₁, h₁, hrest⟩ := estate_bind_eq_ok.mp h
    obtain ⟨argType, s₂, htype, h₁⟩ := estate_bind_eq_ok.mp h₁
    obtain ⟨-, rfl⟩ := staticTypeByName_eq_ok htype
    obtain ⟨var, s₂, hvar, h₁⟩ := estate_bind_eq_ok.mp h₁
    obtain ⟨-, rfl⟩ := estate_pure_eq_ok.mp h₁
    obtain ⟨-, -, rfl⟩ := frameDefineVar_eq_ok hvar
    exact Grows.trans ⟨[], _, [_], _, [], _, rfl, rfl⟩ (ih _ _ _ hrest)

/-- A function is declared, and registered behind its body. -/
lemma Linked.func {funcs : List DeclFunc} {s s' : CompilerState} (h : Linked funcs funcs s)
    (hsigs : registeredSignatures s.events = funcs.map signatureOf) {fuel : ℕ} {func : DeclFunc}
    {ret : ℤ} (hcompile : compileFunc fuel func s = .ok ret s') :
    Linked (funcs ++ [func]) (funcs ++ [func]) s' ∧
      registeredSignatures s'.events = (funcs ++ [func]).map signatureOf := by
  obtain ⟨s₁, s₂, s₃, s₄, body, map, hdefine, hparams, hscope, hsink, hzero, ⟨ret, hput⟩, rfl⟩ :=
    compileFunc_eq_ok hcompile
  obtain ⟨h₁, hevents₁⟩ := h.define hdefine
  have hgrows : Grows s₁.function s₃ :=
    (defineParams_grows func.args _ _ _ hparams).trans (grower_scope fuel func.body _ _ _ hscope)
  obtain ⟨hfuncs, hpool, hsize, hsigs₃⟩ := hgrows.tables
  obtain rfl := sinkEmitter_state hsink
  have h₃ : Linked (funcs ++ [func]) funcs { s₃ with chain := s.chain } := h₁.congr hfuncs hpool hsize
  have hregister : constPoolRegisterValue fuel (signatureOf func) { s₃ with chain := s.chain }
      = .ok s₃.constPoolMapSize { s₃ with
        chain := s.chain, constPoolMap := map, constPoolMapSize := s₃.constPoolMapSize + 1 } := by
    change (if _ then _ else _ : CompileM UInt16) _ = _
    rw [if_neg (not_not.mpr hzero), hput]
    rfl
  obtain ⟨-, -, hinterned⟩ := h₃.pool.step hregister
  refine ⟨⟨h₃.run, h₃.table, h₃.names, ?_⟩, ?_⟩
  · rw [List.map_append, List.map_singleton]
    exact ⟨hinterned.run, hinterned.holds, hinterned.counter, hinterned.counted⟩
  · rw [List.map_append, List.map_singleton, ← hsigs, ← hevents₁]
    change registeredSignatures (s₃.events ++ [_]) = _
    rw [registeredSignatures, List.filterMap_append]
    exact congrArg (· ++ [signatureOf func]) hsigs₃

lemma functionsOf_append (before after : List TopLevel) :
    functionsOf (before ++ after) = functionsOf before ++ functionsOf after := by
  induction before with
  | nil => rfl
  | cons node before ih => cases node <;> simp [functionsOf, ih]

/-- The run lemma: the tables hold the functions of the program in their order. -/
lemma Linked.program {program : List TopLevel} : ∀ {funcs : List DeclFunc} {s s' : CompilerState},
    Linked funcs funcs s → registeredSignatures s.events = funcs.map signatureOf →
    ∀ {fuel}, compileProgram fuel program s = .ok () s' →
      Linked (funcs ++ functionsOf program) (funcs ++ functionsOf program) s' ∧
        registeredSignatures s'.events = (funcs ++ functionsOf program).map signatureOf := by
  induction program with
  | nil =>
    intro funcs s s' h hsigs fuel hcompile
    obtain ⟨-, rfl⟩ := estate_pure_eq_ok.mp hcompile
    rw [functionsOf, List.append_nil]
    exact ⟨h, hsigs⟩
  | cons node program ih =>
    intro funcs s s' h hsigs fuel hcompile
    obtain ⟨ret, s₁, hnode, hrest⟩ := compileProgram_cons hcompile
    cases node with
    | stat stat =>
      obtain ⟨hfuncs, hpool, hsize, hsigs₁⟩ := (grower_statement fuel stat _ _ _ hnode).tables
      exact ih (h.congr hfuncs hpool hsize) (hsigs₁.trans hsigs) hrest
    | func func =>
      obtain ⟨h₁, hsigs₁⟩ := h.func hsigs hnode
      simpa [functionsOf] using ih h₁ hsigs₁ hrest

lemma linked_init (isInteractive : Bool) : Linked [] [] (compilerInit isInteractive) :=
  ⟨.new, mapHolds_empty _ _, List.nodup_nil, .new, mapHolds_empty _ _, rfl, fun _ => counted_empty _⟩

/-- The machine numbers the functions as they are registered. -/
lemma SessionEnds.pool {host : Host} {vm vm' : Vm} {frame frame' : Frame} {events : List Event}
    (h : SessionEnds host vm frame events vm' frame') :
    ∀ {n last}, PoolHolds n last vm.constPool →
      ∃ last', PoolHolds (n + (registeredSignatures events).length) last' vm'.constPool := by
  induction h with
  | nil => exact fun hpool => ⟨_, hpool⟩
  | execute _ _ ih => exact fun hpool => ih hpool
  | @register fuel vm vm₁ vm' frame frame' signature data index handle events hreg _ ih =>
    intro n last hpool
    obtain ⟨-, -, hpool₁⟩ := vmRegister_holds hpool hreg
    obtain ⟨last', hpool'⟩ := ih hpool₁
    refine ⟨last', ?_⟩
    change PoolHolds (n + ((registeredSignatures events).length + 1)) last' vm'.constPool
    rwa [← Nat.add_assoc, Nat.add_right_comm]

/-! ## Call sites -/

/-- Below the call `c` a call of `name` is compiled in the state `s`. -/
def SiteBelow (c : Call) (name : CStr) (s : CompilerState) : Prop :=
  ∃ fuel t t' t'' args ret s',
    Relation.ReflTransGen Calls c
      ⟨fuel + 1, .expr (.binaryOp t .functionCall (.ident t' name) (.group t'' args)), s⟩ ∧
    compileExpression (fuel + 1)
      (.binaryOp t .functionCall (.ident t' name) (.group t'' args)) s = .ok ret s'

/-- `compile_function_call` finds a declared function, and emits its operand behind the code of
the arguments. -/
lemma compileFunctionCall_emits {fuel : ℕ} {t t' t'' : StaticType} {name : CStr} {args : Expr}
    {ret : ℤ} {s s' : CompilerState} (h : compileExpression (fuel + 1)
      (.binaryOp t .functionCall (.ident t' name) (.group t'' args)) s = .ok ret s') :
    (∃ desc, hashmapGet id s.globalFuncMap name = some desc) ∧
      ∃ code, Appended s (code ++ opcodeCall :: htobe16 (s.callIndex name)) s' := by
  rw [compileExpression_functionCall, compileFunctionCall] at h
  obtain ⟨_, _, hget, h⟩ := estate_bind_eq_ok.mp h
  obtain ⟨rfl, rfl⟩ := estate_get_eq_ok.mp hget
  cases hfunc : hashmapGet id s.globalFuncMap name with
  | none =>
    simp only [hfunc] at h
    exact (estate_throw_eq_ok.mp h).elim
  | some desc =>
    refine ⟨⟨desc, rfl⟩, ?_⟩
    simp only [hfunc, constPoolIndexByValue, estate_bind_eq_ok, estate_get_eq_ok,
      estate_pure_eq_ok] at h
    obtain ⟨index, _, ⟨_, _, ⟨rfl, rfl⟩, rfl, rfl⟩, _, s₁, hargs, hemit⟩ := h
    obtain ⟨chunks, account, newVars, hadv⟩ := grower_args fuel args _ _ _ hargs
    refine ⟨chunks.flatten, _, _, _, hadv.trans (compilerEmit_eq_ok hemit).2.advanced, ?_⟩
    simp [CompilerState.callIndex, hfunc]

section Program

variable (host : Host) (isInteractive : Bool) (fuel : ℕ) (program : List TopLevel)

/-- A call of `name` is compiled in the state `s` somewhere in the program. -/
def CallSite (name : CStr) (s : CompilerState) : Prop :=
  ∃ c, EntryCall isInteractive fuel program c ∧ SiteBelow c name s

/-- Behind the statements `before`, the function calls itself in its body. -/
def CallsItself (before : List TopLevel) (func : DeclFunc) : Prop :=
  ∃ s₀ desc s₁ s₂ s, compileProgram fuel before (compilerInit isInteractive) = .ok () s₀ ∧
    compilerDefineFunc fuel func s₀ = .ok desc s₁ ∧
    defineParams func.args s₁.function = .ok () s₂ ∧
    SiteBelow ⟨fuel, .scope func.body, s₂⟩ func.name s

/-- Behind the statements `before`, the machine that has handled the events so far registers the
function under `index`. -/
def RegisteredAs (before : List TopLevel) (func : DeclFunc) (index : UInt16) : Prop :=
  ∃ s ret s' data vm frame vmFuel handle vm',
    compileProgram fuel before (compilerInit isInteractive) = .ok () s ∧
    compileFunc fuel func s = .ok ret s' ∧
    s'.events = s.events ++ [.register (signatureOf func) data] ∧
    SessionEnds host vmStaticInit (rootFrame host) s.events vm frame ∧
    vmRegister vmFuel vm (signatureOf func) data = .ok (index, handle, vm')

/-- The operands of all calls of a function are the index that it is registered under. -/
def CallsNamed : Prop :=
  ∀ name s, CallSite isInteractive fuel program name s →
    ∀ before func after index, program = before ++ .func func :: after → func.name = name →
      RegisteredAs host isInteractive fuel before func index → s.callIndex name = index

variable {host isInteractive fuel program}

lemma linked_program {before : List TopLevel} {s : CompilerState}
    (h : compileProgram fuel before (compilerInit isInteractive) = .ok () s) :
    Linked (functionsOf before) (functionsOf before) s ∧
      registeredSignatures s.events = (functionsOf before).map signatureOf := by
  simpa using (linked_init isInteractive).program rfl h

/-- The index is the place of the function in the program. -/
lemma RegisteredAs.index_eq {before : List TopLevel} {func : DeclFunc} {index : UInt16}
    (h : RegisteredAs host isInteractive fuel before func index) :
    index = UInt16.ofNat (functionsOf before).length ∧ (functionsOf before).length < 64 := by
  obtain ⟨s, ret, s', data, vm, frame, vmFuel, handle, vm', hcompile, -, -, hsession, hreg⟩ := h
  obtain ⟨last, hpool⟩ := hsession.pool poolHolds_init
  rw [(linked_program hcompile).2, List.length_map, Nat.zero_add] at hpool
  obtain ⟨hindex, -, hpool'⟩ := vmRegister_holds hpool hreg
  exact ⟨hindex, hpool'.le⟩

/-- A registered function is none of those in front of it. -/
lemma RegisteredAs.fresh {before : List TopLevel} {func : DeclFunc} {index : UInt16}
    (h : RegisteredAs host isInteractive fuel before func index) :
    func.name ∉ (functionsOf before).map (·.name) := by
  obtain ⟨s, ret, s', data, vm, frame, vmFuel, handle, vm', hcompile, hfunc, -⟩ := h
  obtain ⟨s₁, _, _, _, _, _, hdefine, -⟩ := compileFunc_eq_ok hfunc
  obtain ⟨hnew, -⟩ := compilerDefineFunc_eq_ok hdefine
  rw [hashmapGet_eq (linked_program hcompile).1.table] at hnew
  exact funcTable_eq_none.mp hnew

/-- In the body of a function that function is declared, but not registered. -/
lemma linked_body {before : List TopLevel} {func : DeclFunc} {desc : FuncDesc}
    {s₀ s₁ s₂ : CompilerState}
    (hcompile : compileProgram fuel before (compilerInit isInteractive) = .ok () s₀)
    (hdefine : compilerDefineFunc fuel func s₀ = .ok desc s₁)
    (hparams : defineParams func.args s₁.function = .ok () s₂) :
    Linked (functionsOf before ++ [func]) (functionsOf before) s₂ := by
  obtain ⟨hlinked, -⟩ := (linked_program hcompile).1.define hdefine
  obtain ⟨hfuncs, hpool, hsize, -⟩ := (defineParams_grows _ _ _ _ hparams).tables
  exact hlinked.congr hfuncs hpool hsize

lemma SiteBelow.linked {c : Call} {name : CStr} {s : CompilerState}
    {declared registered : List DeclFunc} (h : SiteBelow c name s)
    (hlinked : Linked declared registered c.state) :
    Linked declared registered s ∧ name ∈ declared.map (·.name) := by
  obtain ⟨fuel, t, t', t'', args, ret, s', hreaches, hrun⟩ := h
  have hlinked' := (Linked.invariant declared registered).reaches hreaches hlinked
  obtain ⟨⟨desc, hfunc⟩, -⟩ := compileFunctionCall_emits hrun
  rw [hashmapGet_eq hlinked'.table] at hfunc
  refine ⟨hlinked', ?_⟩
  by_contra hnot
  rw [funcTable_eq_none.mpr hnot] at hfunc
  cases hfunc

/-- A function that calls itself finds the index 0. -/
lemma CallsItself.site {before after : List TopLevel} {func : DeclFunc}
    (hself : CallsItself isInteractive fuel before func)
    (hprogram : program = before ++ .func func :: after)
    (hnew : func.name ∉ (functionsOf before).map (·.name)) :
    ∃ s, CallSite isInteractive fuel program func.name s ∧ s.callIndex func.name = 0 := by
  obtain ⟨s₀, desc, s₁, s₂, s, hcompile, hdefine, hparams, hsite⟩ := hself
  obtain ⟨hlinked, -⟩ := hsite.linked (linked_body hcompile hdefine hparams)
  refine ⟨s, ⟨_, .body ⟨s₀, desc, s₁, ⟨before, after, hprogram, hcompile⟩, hdefine, rfl⟩ hparams,
    hsite⟩, hlinked.callIndex_unregistered (by simp) hnew⟩

/-- Where a call site stands: behind some statements, and in the body of a function or not. -/
lemma CallSite.place {name : CStr} {s : CompilerState}
    (h : CallSite isInteractive fuel program name s) :
    ∃ before node after declared, program = before ++ node :: after ∧
      Linked declared (functionsOf before) s ∧ name ∈ declared.map (·.name) ∧
      ((declared = functionsOf before ∧ ∃ stat, node = .stat stat) ∨
        ∃ func, node = .func func ∧ declared = functionsOf before ++ [func] ∧
          (func.name = name → CallsItself isInteractive fuel before func)) := by
  obtain ⟨c, hentry, hsite⟩ := h
  cases hentry with
  | stat hbegins =>
    obtain ⟨before, after, hprogram, hcompile⟩ := hbegins
    obtain ⟨hlinked, hname⟩ := hsite.linked (linked_program hcompile).1
    exact ⟨before, _, after, _, hprogram, hlinked, hname, .inl ⟨rfl, _, rfl⟩⟩
  | body hfunc hparams =>
    obtain ⟨s₀, desc, s₁, ⟨before, after, hprogram, hcompile⟩, hdefine, rfl⟩ := hfunc
    obtain ⟨hlinked, hname⟩ := hsite.linked (linked_body hcompile hdefine hparams)
    refine ⟨before, _, after, _, hprogram, hlinked, hname, .inr ⟨_, rfl, rfl, fun heq => ?_⟩⟩
    exact ⟨s₀, desc, s₁, _, s, hcompile, hdefine, hparams, heq ▸ hsite⟩

/-- Two places in a program: one of them is in front of the other, or they are the same. -/
lemma places {α : Type} {a b c d : List α} {x y : α} (h : a ++ x :: b = c ++ y :: d) :
    (∃ m, a = c ++ y :: m) ∨ (a = c ∧ x = y) ∨ ∃ m, c = a ++ x :: m := by
  rcases List.append_eq_append_iff.mp h with ⟨m, rfl, hm⟩ | ⟨m, rfl, hm⟩
  · cases m with
    | nil =>
      rw [List.append_nil]
      exact .inr (.inl ⟨rfl, (List.cons.inj hm).1⟩)
    | cons z m =>
      obtain ⟨rfl, -⟩ := List.cons.inj hm
      exact .inr (.inr ⟨m, rfl⟩)
  · cases m with
    | nil =>
      rw [List.append_nil]
      exact .inr (.inl ⟨rfl, (List.cons.inj hm).1.symm⟩)
    | cons z m =>
      obtain ⟨rfl, -⟩ := List.cons.inj hm
      exact .inl ⟨m, rfl⟩

/-- A function that calls itself under the right index is the first one. -/
lemma CallsNamed.first (hnamed : CallsNamed host isInteractive fuel program)
    {before after : List TopLevel} {func : DeclFunc} {index : UInt16}
    (hprogram : program = before ++ .func func :: after)
    (hself : CallsItself isInteractive fuel before func)
    (hreg : RegisteredAs host isInteractive fuel before func index) : functionsOf before = [] := by
  obtain ⟨s, hsite, hzero⟩ := hself.site hprogram hreg.fresh
  have hindex := hnamed _ s hsite before func after index hprogram rfl hreg
  obtain ⟨hplace, hlt⟩ := hreg.index_eq
  rw [hzero, hplace] at hindex
  have hnat := congrArg UInt16.toNat hindex
  rw [UInt16.toNat_ofNat', Nat.mod_eq_of_lt (by omega)] at hnat
  exact List.length_eq_zero_iff.mp hnat.symm

end Program

/-- The operands of all calls are right exactly when no function but the first one calls itself,
among those that get registered. -/
theorem calls_named_iff (host : Host) (isInteractive : Bool) (fuel : ℕ) (program : List TopLevel) :
    CallsNamed host isInteractive fuel program ↔
      ∀ before func after index, program = before ++ .func func :: after →
        CallsItself isInteractive fuel before func →
        RegisteredAs host isInteractive fuel before func index → functionsOf before = [] := by
  constructor
  · intro hnamed before func after index hprogram hself hreg
    exact hnamed.first hprogram hself hreg
  · rintro hfirst name s hsite before func after index hprogram rfl hreg
    obtain ⟨before', node, after', declared, hprogram', hlinked, hname, hplace⟩ := hsite.place
    obtain ⟨rfl, -⟩ := hreg.index_eq
    rcases places (hprogram'.symm.trans hprogram) with ⟨m, rfl⟩ | ⟨rfl, hnode⟩ | ⟨m, rfl⟩
    · -- the function is registered in front of the call
      have hfuncs : functionsOf (before ++ .func func :: m)
          = functionsOf before ++ func :: functionsOf m := functionsOf_append _ _
      rw [hfuncs] at hlinked hplace
      have hdeclared : func ∈ declared ∧
          ((functionsOf before ++ func :: functionsOf m).map (·.name)).Nodup := by
        have hnodup := hlinked.names
        rcases hplace with ⟨rfl, -⟩ | ⟨func', -, rfl, -⟩
        · exact ⟨by simp, hnodup⟩
        · rw [List.map_append, List.nodup_append] at hnodup
          exact ⟨by simp, hnodup.1⟩
      exact hlinked.callIndex_registered hdeclared.1 hdeclared.2
    · -- the call is in the body of the function
      rcases hplace with ⟨-, stat, hstat⟩ | ⟨func', hfunc', rfl, hself⟩
      · rw [hstat] at hnode
        cases hnode
      · rw [hfunc'] at hnode
        cases hnode
        rw [hlinked.callIndex_unregistered (by simp) hreg.fresh,
          hfirst _ _ _ _ hprogram (hself rfl) hreg]
        rfl
    · -- the name is taken when the function is declared
      refine absurd ?_ hreg.fresh
      rw [functionsOf_append, List.map_append, List.mem_append]
      rcases hplace with ⟨rfl, -⟩ | ⟨func', rfl, rfl, -⟩
      · exact .inl hname
      · simp only [List.map_append, List.map_cons, List.map_nil, List.mem_append,
          List.mem_singleton] at hname
        rcases hname with hname | hname
        · exact .inl hname
        · simp [functionsOf, hname]

/-- `func f (int x) void {}` -/
def funcF : DeclFunc := ⟨[102], [([120], [105, 110, 116])], some [118, 111, 105, 100], .nil⟩

/-- `func g (int x) void { g(1) }` -/
def funcG : DeclFunc where
  name := [103]
  args := [([120], [105, 110, 116])]
  retType := some [118, 111, 105, 100]
  body := .expr (.binaryOp .unknwn .functionCall (.ident .unknwn [103])
    (.group .unknwn (.literalInt 1))) .nil

/-- The machine registers `f` and then `g`. -/
lemma vmRegister_funcs : ∃ handle handle' vm vm',
    vmRegister 1 vmStaticInit (signatureOf funcF) [0, 1, 0, 0] = .ok (0, handle, vm) ∧
      vmRegister 1 vm (signatureOf funcG) [0, 1, 0, 4, 54, 0, 0, 0, 1, 128, 0, 0]
        = .ok (1, handle', vm') := by
  have hrun : ((vmRegister 1 vmStaticInit (signatureOf funcF) [0, 1, 0, 0]).bind fun r =>
      (vmRegister 1 r.2.2 (signatureOf funcG) [0, 1, 0, 4, 54, 0, 0, 0, 1, 128, 0, 0]).map fun r' =>
        (r.1, r'.1)).toOption = some (0, 1) := by
    decide +kernel
  cases hfirst : vmRegister 1 vmStaticInit (signatureOf funcF) [0, 1, 0, 0] with
  | error e =>
    rw [hfirst] at hrun
    cases hrun
  | ok r =>
    obtain ⟨index, handle, vm⟩ := r
    rw [hfirst] at hrun
    change ((vmRegister 1 vm _ _).map _).toOption = some (0, 1) at hrun
    cases hsecond : vmRegister 1 vm (signatureOf funcG) [0, 1, 0, 4, 54, 0, 0, 0, 1, 128, 0, 0] with
    | error e =>
      rw [hsecond] at hrun
      cases hrun
    | ok r =>
      obtain ⟨index', handle', vm'⟩ := r
      rw [hsecond] at hrun
      cases hrun
      exact ⟨handle, handle', vm, vm', rfl, hsecond⟩

/-- The compiler compiles `f` and then `g`. -/
lemma compile_funcs : ∃ s₁ ret s₂,
    compileProgram 3 [.func funcF] (compilerInit true) = .ok () s₁ ∧
      compileFunc 3 funcG s₁ = .ok ret s₂ ∧
      s₁.events = [.register (signatureOf funcF) [0, 1, 0, 0]] ∧
      s₂.events = s₁.events ++
        [.register (signatureOf funcG) [0, 1, 0, 4, 54, 0, 0, 0, 1, 128, 0, 0]] := by
  obtain ⟨s₂, hcompile, hevents₂⟩ := finishedEvents_eq_some
    (by decide +kernel : finishedEvents 3 true [.func funcF, .func funcG]
      = some [.register (signatureOf funcF) [0, 1, 0, 0],
        .register (signatureOf funcG) [0, 1, 0, 4, 54, 0, 0, 0, 1, 128, 0, 0]])
  obtain ⟨s₁, hfirst, hevents₁⟩ := finishedEvents_eq_some
    (by decide +kernel : finishedEvents 3 true [.func funcF]
      = some [.register (signatureOf funcF) [0, 1, 0, 0]])
  obtain ⟨_, t, hfuncF, hrest⟩ := compileProgram_cons hcompile
  obtain ⟨ret, t', hfuncG, hnil⟩ := compileProgram_cons hrest
  obtain ⟨-, rfl⟩ := estate_pure_eq_ok.mp hnil
  obtain ⟨_, t', hfuncF', hnil⟩ := compileProgram_cons hfirst
  obtain ⟨-, rfl⟩ := estate_pure_eq_ok.mp hnil
  rw [hfuncF'] at hfuncF
  cases hfuncF
  refine ⟨t, ret, _, hfirst, hfuncG, hevents₁, ?_⟩
  rw [hevents₂, hevents₁]
  rfl

/-- The call in `g` has the operand of `f`. -/
theorem calls_not_named : ¬ CallsNamed zeroHost true 3 [.func funcF, .func funcG] := by
  intro hnamed
  obtain ⟨s₁, ret, s₂, hcompile, hfuncG, hevents₁, hevents₂⟩ := compile_funcs
  obtain ⟨handle, handle', vm, vm', hreg, hreg'⟩ := vmRegister_funcs
  obtain ⟨u₁, u₂, u₃, _, _, _, hdefine, hparams, hscope, -⟩ := compileFunc_eq_ok hfuncG
  obtain ⟨r, u₄, hcall, -⟩ := estate_bind_eq_ok.mp hscope
  have hself : CallsItself true 3 [.func funcF] funcG := by
    refine ⟨_, _, u₁, u₂, u₂, hcompile, hdefine, hparams, 2, _, _, _, _, r, u₄, ?_, hcall⟩
    exact .head (.scopeStat nofun) (.single .exprStat)
  have hsession : SessionEnds zeroHost vmStaticInit (rootFrame zeroHost) s₁.events vm
      (rootFrame zeroHost) := by
    rw [hevents₁]
    exact .register hreg .nil
  have hregistered : RegisteredAs zeroHost true 3 [.func funcF] funcG 1 :=
    ⟨_, _, _, _, vm, _, 1, handle', vm', hcompile, hfuncG, hevents₂, hsession, hreg'⟩
  cases hnamed.first rfl hself hregistered

end PhantomShell
