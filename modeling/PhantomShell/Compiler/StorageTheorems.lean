import PhantomShell.Compiler.EncodingTheorems
import PhantomShell.Compiler.OversizeTheorems
import PhantomShell.Compiler.SlotCount

/-!
# The storage of a function

`compile_func` writes the largest number of variables that are visible at a time in front of the
code, in 16 bits, and the machine allocates a word for each of them.
-/

namespace PhantomShell

/-! ## Functions -/

/-- The body of the function is compiled from this state on. -/
def BodyBegins (fuel : ℕ) (func : DeclFunc) (s s₀ : CompilerState) : Prop :=
  ∃ funcDesc s₁, compilerDefineFunc fuel func s = .ok funcDesc s₁ ∧
    defineParams func.args s₁.function = .ok () s₀

/-- The compiler accepts the function, and the machine decodes its header into the handle. -/
def Decodes (fuel : ℕ) (func : DeclFunc) (s : CompilerState) (handle : FuncHandle) : Prop :=
  ∃ ret s' signature data vmFuel n last vm vm' index,
    compileFunc fuel func s = .ok ret s' ∧
    s'.events = s.events ++ [.register signature data] ∧ PoolHolds n last vm.constPool ∧
    vmRegister vmFuel vm signature data = .ok (index, handle, vm')

/-- The slots of the body and the arguments lie in the locals of the function, so neither a call
of it nor a load or a save in its frame leaves them. -/
structure StorageFits (fuel : ℕ) (func : DeclFunc) (s : CompilerState) (handle : FuncHandle) :
    Prop where
  slots : ∀ s₀ slot, BodyBegins fuel func s s₀ → UsesSlot ⟨fuel, .scope func.body, s₀⟩ slot →
    slot.toNat < handle.varsSize / 4
  args : handle.argSize.toNat ≤ handle.varsSize
  call : ∀ host vm state data index, readOffset data = .ok index →
    vm.callHandle (UInt16.ofNat index) = .ok handle →
    vmExecuteOpcodeCall host vm state data ≠ .error (.fault .locals)
  access : ∀ s₀ slot, BodyBegins fuel func s s₀ → UsesSlot ⟨fuel, .scope func.body, s₀⟩ slot →
    ∀ host args frame data, args.length = handle.argSize.toNat / 4 →
      frame.locals.length = (calleeFrame host handle args).locals.length →
      loadWord frame (slot :: data) ≠ .error (.fault .locals) ∧
        saveWord frame (slot :: data) ≠ .error (.fault .locals)

/-- The bounds are enough for the machine. -/
lemma storageFits_of_bounds {fuel : ℕ} {func : DeclFunc} {s : CompilerState} {handle : FuncHandle}
    (hslots : ∀ s₀ slot, BodyBegins fuel func s s₀ → UsesSlot ⟨fuel, .scope func.body, s₀⟩ slot →
      slot.toNat < handle.varsSize / 4)
    (hargs : handle.argSize.toNat ≤ handle.varsSize) : StorageFits fuel func s handle where
  slots := hslots
  args := hargs
  call := by
    intro host vm state data index hindex hhandle
    simp only [vmExecuteOpcodeCall, hindex, hhandle, except_ok_bind, if_neg (not_lt.mpr hargs)]
    split
    · simp
    · split <;> simp
  access := by
    intro s₀ slot hbegins huses host args frame data hlen hlocals
    have hslot := hslots s₀ slot hbegins huses
    have hin : slot.toNat < frame.locals.length := by
      rw [hlocals]
      simp only [calleeFrame, List.length_append, List.length_map, List.length_range]
      omega
    constructor
    · simp only [loadWord, List.getElem?_eq_getElem hin, pushWord]
      split <;> simp
    · cases hstack : frame.stack with
      | nil => simp [saveWord, hstack]
      | cons w rest => simp [saveWord, hstack, if_pos hin]

/-! ### The declaration -/

lemma typeSignatureByName_mem {typeName letter : CStr} {s s' : CompilerState}
    (h : typeSignatureByName typeName s = .ok letter s') : typeName ∈ typeNames := by
  unfold typeSignatureByName at h
  split at h
  · rename_i hint
    rw [hint]
    decide
  · split at h
    · rename_i hfloat
      rw [hfloat]
      decide
    · split at h
      · rename_i hvoid
        rw [hvoid]
        decide
      · exact (estate_throw_eq_ok.mp h).elim

lemma argTypes_mem {args : List (CStr × CStr)} {letters : List CStr} {s s' : CompilerState}
    (h : (args.mapM fun arg => typeSignatureByName arg.2) s = .ok letters s') :
    ∀ arg ∈ args, arg.2 ∈ typeNames := by
  induction args generalizing letters s s' with
  | nil => exact nofun
  | cons arg args ih =>
    rw [List.mapM_cons] at h
    obtain ⟨letter, s₁, h₁, h⟩ := estate_bind_eq_ok.mp h
    obtain ⟨letters', s₂, h₂, -⟩ := estate_bind_eq_ok.mp h
    exact List.forall_mem_cons.mpr ⟨typeSignatureByName_mem h₁, ih h₂⟩

/-- What the compiler describes is a declaration whose text was built. -/
lemma declarable_of_define {fuel : ℕ} {node : DeclFunc} {funcDesc : FuncDesc}
    {s s' : CompilerState} (hname : isIdentifier node.name)
    (h : compilerDefineFunc fuel node s = .ok funcDesc s') :
    Declarable node s ∧ signatureOf node = signatureText node ∧
      (signatureText node).length < signatureBufferSize := by
  obtain ⟨hfresh, rfl, map, hput, -⟩ := compilerDefineFunc_eq_ok h
  have hdefine := h
  simp only [compilerDefineFunc, estate_bind_eq_ok, estate_get_eq_ok] at h
  obtain ⟨_, _, ⟨rfl, rfl⟩, h⟩ := h
  rw [hfresh, if_neg (by simp)] at h
  obtain ⟨letters, s₁, hletters, h⟩ := estate_bind_eq_ok.mp h
  cases hret : node.retType with
  | none =>
    simp only [hret] at h
    exact (estate_throw_eq_ok.mp h).elim
  | some retType =>
    simp only [hret] at h
    obtain ⟨letter, s₂, hretSig, -⟩ := estate_bind_eq_ok.mp h
    have htext : signatureOf node = signatureText node := by
      simp [signatureOf, signatureText, hret]
    rw [htext] at hput hdefine
    have hdecl : Declarable node s := by
      refine ⟨hname, hfresh, argTypes_mem hletters, ?_, ⟨fuel, map, hput⟩⟩
      intro typeName htype
      rw [hret, Option.mem_some_iff] at htype
      exact htype ▸ typeSignatureByName_mem hretSig
    exact ⟨hdecl, htext, (hdecl.built_iff.mp ⟨fuel, s', hdefine⟩).2⟩

/-- The parameters of a declaration that the machine takes are words. -/
lemma Declarable.not_void {node : DeclFunc} {s : CompilerState} (h : Declarable node s)
    (hlen : (signatureText node).length < signatureBufferSize) {fuel n : ℕ} {last data : List UInt8}
    {vm vm' : Vm} {index : UInt16} {handle : FuncHandle} (hpool : PoolHolds n last vm.constPool)
    (hreg : vmRegister fuel vm (signatureText node) data = .ok (index, handle, vm')) :
    ∀ arg ∈ node.args, arg.2 ≠ voidName := by
  intro arg harg hvoid
  rcases vmRegister_scan hpool (hlen.trans (by decide)) with hfault | ⟨rest, hscan⟩
  · rw [hreg] at hfault
    cases hfault
  · rw [h.scan_panic harg hvoid, hreg] at hscan
    cases hscan

/-! ### Variables that are words -/

lemma wordVars_params {args : List (CStr × CStr)}
    (h : ∀ arg ∈ args, arg.2 ∈ typeNames ∧ arg.2 ≠ voidName) : WordVars (paramVars args) := by
  have hfold : ∀ {vars : Vars}, WordVars vars →
      WordVars (args.foldl (fun vars arg => declareVar vars (namedType arg.2) arg.1) vars) := by
    induction args with
    | nil => exact id
    | cons arg args ih =>
      intro vars hvars
      have hword : (namedType arg.2).rep.isSome := by
        obtain ⟨hmem, hvoid⟩ := h arg (by simp)
        simp only [typeNames, List.mem_cons, List.not_mem_nil, or_false] at hmem
        rcases hmem with hint | hfloat | hv
        · rw [hint]
          decide
        · rw [hfloat]
          decide
        · exact absurd hv hvoid
      exact ih (fun arg harg => h arg (by simp [harg])) (hvars.declare hword arg.1)
  exact hfold fun _ h => by cases h

/-! ### The header -/

/-- The parameters are counted, and there is room for them. -/
lemma defineParams_count {args : List (CStr × CStr)} {s s' : CompilerState}
    (hle : s.chain.scope.vars.length ≤ s.chain.scope.varsCap)
    (hmax : s.chain.varsMaxSize = s.chain.count) (h : defineParams args s = .ok () s') :
    s'.chain.count = s.chain.count + args.length ∧ s'.chain.varsMaxSize = s'.chain.count ∧
      s'.chain.scope.vars.length ≤ s.chain.scope.varsCap ∧
      s'.chain.scope.varsOff = s.chain.scope.varsOff := by
  induction args generalizing s with
  | nil =>
    obtain ⟨-, rfl⟩ := estate_pure_eq_ok.mp h
    exact ⟨rfl, hmax, hle, rfl⟩
  | cons arg args ih =>
    obtain ⟨_, s₁, h₁, hrest⟩ := estate_bind_eq_ok.mp h
    obtain ⟨argType, s₂, htype, h₁⟩ := estate_bind_eq_ok.mp h₁
    obtain ⟨-, rfl⟩ := staticTypeByName_eq_ok htype
    obtain ⟨var, s₂, hvar, h₁⟩ := estate_bind_eq_ok.mp h₁
    obtain ⟨-, rfl⟩ := estate_pure_eq_ok.mp h₁
    obtain ⟨hcount₁, hmax₁⟩ := frameDefineVar_count hvar
    obtain ⟨hroom, -, hs₂⟩ := frameDefineVar_eq_ok hvar
    have hlen₁ : s₂.chain.scope.vars.length = s.chain.scope.vars.length + 1 := by
      rw [hs₂]
      simp [CompilerState.moved]
    have hcap₁ : s₂.chain.scope.varsCap = s.chain.scope.varsCap := by rw [hs₂]; rfl
    have hoff₁ : s₂.chain.scope.varsOff = s.chain.scope.varsOff := by rw [hs₂]; rfl
    obtain ⟨hcount, hmax, hle, hoff⟩ := ih (by omega) (by omega) hrest
    rw [List.length_cons]
    exact ⟨by omega, hmax, by omega, by omega⟩

/-- The parts of an accepted function that the machine takes: the state that its body begins in,
what the header counts, and the size of its arguments. -/
lemma Decodes.parts {fuel : ℕ} {func : DeclFunc} {s : CompilerState} {handle : FuncHandle}
    (h : Decodes fuel func s handle) (hp : func.body.Parsed) (hname : isIdentifier func.name) :
    ∃ s₀ s₁, BodyBegins fuel func s s₀ ∧ compileScope fuel func.body s₀ = .ok () s₁ ∧
      CountedVars (func.args.map Prod.fst) s₀ ∧
      s₁.chain.varsMaxSize = scopeSlots (paramVars func.args) func.body ∧
      Saved ⟨fuel, .scope func.body, s₀⟩ func.args.length
        (scopeSlots (paramVars func.args) func.body) ∧
      handle.varsSize = s₁.chain.varsMaxSize % 65536 * 4 ∧
      handle.argSize.toNat = 4 * func.args.length ∧ func.args.length ≤ 128 ∧
      func.args.length ≤ scopeSlots (paramVars func.args) func.body := by
  obtain ⟨ret, s', signature, data, vmFuel, n, last, vm, vm', index, hcompile, hevents, hpool,
    hreg⟩ := h
  obtain ⟨s₁, s₂, s₃, s₄, body, map, hdefine, hparams, hscope, hsink, -, -, rfl⟩ :=
    compileFunc_eq_ok hcompile
  obtain ⟨-, hevent⟩ := List.append_inj' hevents rfl
  cases hevent
  -- the declaration
  obtain ⟨hdecl, htext, hlen⟩ := declarable_of_define hname hdefine
  rw [htext] at hreg
  have hvoid := hdecl.not_void hlen hpool hreg
  have hargSize := hdecl.argSize_eq hlen hvoid hpool hreg
  have hwords := wordVars_params fun arg harg => ⟨hdecl.args arg harg, hvoid arg harg⟩
  -- the parameters
  have hvis : s₂.chain.Visible (paramVars func.args) :=
    (defineParams_eq_ok (visible_function s₁) rfl hparams).2.2
  obtain ⟨hcount, hmax, hroom, hoff⟩ := defineParams_count (Nat.zero_le _) rfl hparams
  have hlength : (paramVars func.args).length = func.args.length := by
    rw [← hvis.count, ← ScopeChain.count, hcount]
    exact Nat.zero_add _
  obtain ⟨hlaid₁, hnames₁⟩ := laid_function s₁
  obtain ⟨hlaid, -⟩ := hlaid₁.defineParams hnames₁ hparams
  have hcounted : CountedVars (func.args.map Prod.fst) s₂ := by
    refine ⟨hlaid, ?_⟩
    rw [ScopeChain.declared, hlaid.nested.length, hmax, ScopeChain.count]
  -- the body
  have hreg' := compileScope_accepted hp (hwords.eachReads _) hvis hscope
  have hslots := length_le_scopeSlots (paramVars func.args) func.body
  have hle : (paramVars func.args).length ≤ s₂.chain.varsMaxSize := by
    rw [hmax, ScopeChain.count, hvis.count]
  obtain ⟨hmax', hsaved⟩ := scopeDeclares func.body hp.untraced hreg' hvis hle hscope
  rw [hmax, ScopeChain.count, hvis.count, max_eq_right hslots] at hmax'
  rw [hlength] at hsaved hslots
  -- the header
  obtain ⟨vars, hvars⟩ : ∃ vm₁, vmRegisterFunction vmFuel vm₁ index (funcHeader s₃.chain.varsMaxSize
      s₃.chain.stackMaxSize ++ body) = .ok (handle, vm') := by
    simp only [vmRegister, except_bind_eq_ok] at hreg
    obtain ⟨⟨index', pool⟩, -, ⟨handle', vm''⟩, hfunc, heq⟩ := hreg
    cases heq
    exact ⟨_, hfunc⟩
  obtain ⟨hvarsSize, -⟩ := vmRegisterFunction_header hvars
  have hcap : func.args.length ≤ 128 := by
    change s₂.chain.scope.vars.length ≤ 128 at hroom
    change s₂.chain.scope.varsOff = 0 at hoff
    have := hvis.count
    omega
  exact ⟨s₂, s₃, ⟨_, s₁, hdefine, hparams⟩, hscope, hcounted, hmax', hsaved, hvarsSize, hargSize, hcap,
    hslots⟩

/-- The locals of a function hold its slots exactly when fewer than 65536 variables are visible at
a time in its body, or the largest number of them is so large again modulo 65536 that it is above
every byte. -/
theorem storage_fits_iff {fuel : ℕ} {func : DeclFunc} {s : CompilerState} {handle : FuncHandle}
    (hp : func.body.Parsed) (hname : isIdentifier func.name) (h : Decodes fuel func s handle) :
    StorageFits fuel func s handle ↔
      scopeSlots (paramVars func.args) func.body < 65536 ∨
        256 ≤ scopeSlots (paramVars func.args) func.body % 65536 := by
  obtain ⟨s₀, s₁, hbegins, hscope, hcounted, hmax, hsaved, hvarsSize, hargSize, hcap, hslots⟩ :=
    h.parts hp hname
  rw [hmax] at hvarsSize
  constructor
  · intro hfits
    by_contra hbad
    -- the variable whose slot is the number of words that the machine allocates
    have hused := hsaved (65280 + scopeSlots (paramVars func.args) func.body % 65536) (by omega)
      (by omega)
    have hlt := hfits.slots s₀ _ hbegins hused
    rw [hvarsSize, UInt8.toNat_ofNat'] at hlt
    omega
  · intro hcond
    refine storageFits_of_bounds ?_ (by omega)
    rintro s₀' slot ⟨funcDesc', s', hdefine', hparams'⟩ ⟨c, hreaches, hslot⟩
    obtain ⟨funcDesc, s₂, hdefine, hparams⟩ := hbegins
    rw [hdefine] at hdefine'
    cases hdefine'
    rw [hparams] at hparams'
    cases hparams'
    have hrun : (⟨fuel, .scope func.body, s₀⟩ : Call).run = .ok 0 s₁ :=
      estate_bind_eq_ok.mpr ⟨_, _, hscope, rfl⟩
    obtain ⟨_, t, hcall, hle⟩ := returns_below hreaches hrun
    have hlt := hslot.lt ((countedVars_invariant _).reaches hreaches hcounted) hcall
    have hbyte := slot.toNat_lt
    omega

/-- The machine takes a first function. -/
lemma decodes_first {fuel : ℕ} {func : DeclFunc} {s' : CompilerState} {ret : ℤ}
    (args : List ArgType) (letter : CStr)
    (h : compileFunc fuel func (compilerInit true) = .ok ret s')
    (hname : ∀ b ∈ func.name, b ≠ 0 ∧ b ≠ 40 ∧ b ≠ 41) (hletter : letter.length ≤ 1 ∧ 0 ∉ letter)
    (hsig : signatureOf func = func.name ++ 40 :: (args.map ArgType.letter ++ 41 :: letter))
    (hfit : (signatureOf func).length ≤ 4093) :
    ∃ handle, Decodes fuel func (compilerInit true) handle := by
  obtain ⟨-, vars, stack, body, hevents⟩ := compileFunc_chain h
  have hdata : 4 ≤ (funcHeader vars stack ++ body).length := by
    simp [funcHeader, htobe16]
  let r : Registration :=
    ⟨func.name, args, letter, funcHeader vars stack ++ body, hname, hletter, hdata⟩
  have hsignature : r.signature = signatureOf func := hsig.symm
  obtain ⟨vm, hreg, -⟩ := dispatches_one r (hsignature ▸ hfit)
  simp only [registerFuncs, except_bind_eq_ok] at hreg
  obtain ⟨⟨index, handle, vm'⟩, hreg, -⟩ := hreg
  rw [hsignature] at hreg
  exact ⟨handle, ret, s', _, _, 1, 0, [], vmStaticInit, vm', index, h, hevents, poolHolds_init, hreg⟩

/-- `func f (int x) void { y = x }` -/
def copyFunc : DeclFunc where
  name := [102]
  args := [([120], intName)]
  retType := some voidName
  body := .expr (.binaryOp .unknwn .assignment (.ident .unknwn [121]) (.ident .unknwn [120])) .nil

theorem storage_fits_iff_copy : ∃ handle, StorageFits 2 copyFunc (compilerInit true) handle := by
  have hok : (okResult (compileFunc 2 copyFunc (compilerInit true))).isSome := by decide +kernel
  obtain ⟨⟨ret, s'⟩, hcompile⟩ := Option.isSome_iff_exists.mp hok
  obtain ⟨handle, hdecodes⟩ := decodes_first [.int] [86] (okResult_eq_some.mp hcompile)
    (by decide +kernel) (by decide) rfl (by decide)
  have hparsed : copyFunc.body.Parsed := ⟨⟨rfl, rfl, rfl, rfl⟩, trivial⟩
  exact ⟨handle, (storage_fits_iff hparsed rfl hdecodes).mpr (.inl (by decide))⟩

/-! ## Many variables -/

/-- The names `xaaaa`, `xaaab`, …, with a letter for each hexadecimal digit. -/
def varName (i : ℕ) : CStr :=
  120 :: [i / 4096, i / 256, i / 16, i].map fun d => UInt8.ofNat (97 + d % 16)

lemma varName_injective {i j : ℕ} (hi : i < 65536) (hj : j < 65536) (h : varName i = varName j) :
    i = j := by
  simp only [varName, List.map_cons, List.map_nil, List.cons.injEq, and_true, true_and] at h
  obtain ⟨h₁, h₂, h₃, h₄⟩ := h
  have hdigit : ∀ {a b : ℕ}, UInt8.ofNat (97 + a % 16) = UInt8.ofNat (97 + b % 16) →
      a % 16 = b % 16 := by
    intro a b h
    have := congrArg UInt8.toNat h
    simp only [UInt8.toNat_ofNat'] at this
    omega
  have := hdigit h₁
  have := hdigit h₂
  have := hdigit h₃
  have := hdigit h₄
  omega

/-- `xᵢ = 0` -/
def setZero (i : ℕ) : Expr := .binaryOp .unknwn .assignment (.ident .unknwn (varName i)) (.literalInt 0)

/-- `xᵢ = 0` for `n` variables from `x_a` on. -/
def sets : (n a : ℕ) → Stat → Stat
  | 0, _, next => next
  | n + 1, a, next => .expr (setZero a) (sets n (a + 1) next)

/-- Blocks of 128 new variables, each in the true block of an `if` of the one before, and each with
`n` statements of five bytes behind it. -/
def nest (n : ℕ) : (depth a : ℕ) → Stat
  | 0, _ => literals n
  | depth + 1, a => sets 128 a (.ifElse (.literalInt 0) (nest n depth (a + 128)) .nil (literals n))

/-- The first `a` of these variables. -/
def zeroVars (a : ℕ) : Vars := (List.range a).map fun i => ⟨.int, varName i, UInt8.ofNat i⟩

lemma length_zeroVars (a : ℕ) : (zeroVars a).length = a := by simp [zeroVars]

lemma lookupVar_zeroVars {a : ℕ} (ha : a < 65536) : lookupVar (zeroVars a) (varName a) = none := by
  rw [lookupVar, List.find?_eq_none]
  intro var hvar heq
  obtain ⟨i, hi, rfl⟩ := List.mem_map.mp hvar
  have hlt := List.mem_range.mp hi
  have := varName_injective (hlt.trans ha) ha (beq_iff_eq.mp heq)
  omega

lemma exprVars_setZero {a : ℕ} (ha : a < 65536) :
    exprVars (zeroVars a) (setZero a) = zeroVars (a + 1) := by
  rw [setZero, exprVars, assignVars, lookupVar_zeroVars ha]
  simp only [declareVar, length_zeroVars]
  simp [zeroVars, List.range_succ, operandRep, Rep.type]

lemma scopeSlots_sets {n a : ℕ} (h : a + n ≤ 65536) (next : Stat) :
    scopeSlots (zeroVars a) (sets n a next) = scopeSlots (zeroVars (a + n)) next := by
  induction n generalizing a with
  | zero => rfl
  | succ n ih =>
    rw [sets, scopeSlots, exprVars_setZero (by omega), ih (by omega), Nat.add_right_comm,
      Nat.add_assoc]

lemma scopeSlots_literals (n : ℕ) (vars : Vars) : scopeSlots vars (literals n) = vars.length := by
  induction n with
  | zero => rfl
  | succ n ih =>
    rw [literals, Function.iterate_succ_apply']
    exact ih

lemma scopeSlots_nest (n : ℕ) {depth a : ℕ} (h : a + 128 * depth ≤ 65536) :
    scopeSlots (zeroVars a) (nest n depth a) = a + 128 * depth := by
  induction depth generalizing a with
  | zero => rw [nest, scopeSlots_literals, length_zeroVars, Nat.mul_zero, Nat.add_zero]
  | succ depth ih =>
    have hnil : ∀ vars, scopeSlots vars .nil = vars.length := fun _ => rfl
    rw [nest, scopeSlots_sets (by omega), scopeSlots]
    simp only [exprVars]
    rw [ih (by omega), scopeSlots_literals, hnil, length_zeroVars]
    omega

lemma parsed_literals (n : ℕ) : (literals n).Parsed := by
  induction n with
  | zero => trivial
  | succ n ih =>
    rw [literals, Function.iterate_succ_apply']
    exact ⟨trivial, ih⟩

lemma parsed_sets (n a : ℕ) {next : Stat} (h : next.Parsed) : (sets n a next).Parsed := by
  induction n generalizing a with
  | zero => exact h
  | succ n ih => exact ⟨⟨rfl, rfl, rfl, trivial⟩, ih (a + 1)⟩

lemma parsed_nest (n depth a : ℕ) : (nest n depth a).Parsed := by
  induction depth generalizing a with
  | zero => exact parsed_literals n
  | succ depth ih => exact parsed_sets _ _ ⟨trivial, ih _, trivial, parsed_literals n⟩

/-! ### They compile -/

/-- The state behind the variables: they are seen, and instructions can be emitted. -/
structure Ready (a : ℕ) (s : CompilerState) : Prop where
  visible : s.chain.Visible (zeroVars a)
  takes : s.chain.scope.emitter.Takes
  cap : s.chain.scope.varsCap = 128

lemma Ready.grows {a b : ℕ} {s s' : CompilerState} (h : Ready a s) (hgrows : Grows s s')
    (hvis : s'.chain.Visible (zeroVars b)) : Ready b s' := by
  obtain ⟨_, _, _, hadv⟩ := hgrows
  refine ⟨hvis, hadv.takes h.takes, ?_⟩
  obtain ⟨_, _, _, -, rfl⟩ := hadv
  exact h.cap

lemma compile_setZero {a : ℕ} {s : CompilerState} (ha : a < 65536) (h : Ready a s)
    (hroom : s.chain.scope.vars.length < 128) :
    ∃ ret s', compileExpression 2 (setZero a) s = .ok ret s' ∧ Ready (a + 1) s' ∧
      s'.chain.scope.vars.length = s.chain.scope.vars.length + 1 := by
  have htrace : traceDataType s.chain (.literalInt 0) = .ok (.literalInt 0) := rfl
  have hnone : s.chain.lookup (varName a) = none := by
    rw [h.visible.lookup, lookupVar_zeroVars ha]
  obtain ⟨var, s₁, hdefine⟩ : ∃ var s₁, frameDefineVar .int (varName a) s = .ok var s₁ := by
    rw [frameDefineVar, estate_bind_of_ok (estate_get_eq s), if_neg (by rw [h.cap]; omega)]
    exact ⟨_, _, rfl⟩
  have htarget : assignmentTarget (varName a) .int s = .ok (var, .int, 0) s₁ := by
    rw [assignmentTarget, estate_bind_of_ok (estate_get_eq s)]
    simp only [hnone]
    rw [estate_bind_of_ok hdefine]
    rfl
  have htakes₁ : s₁.chain.scope.emitter.Takes := by
    obtain ⟨-, -, rfl⟩ := frameDefineVar_eq_ok hdefine
    exact h.takes
  obtain ⟨r, s₂, hright⟩ : ∃ r s₂, compileExpression 1 (.literalInt 0) s₁ = .ok r s₂ :=
    emitCounted_succeeds htakes₁ (.iconst 0) _
  obtain ⟨rfl, he⟩ := compiles_literalInt [] 0 1 s₁ s₂ r (fun _ _ h => by cases h) hright
  obtain ⟨ret, s', hsave⟩ := emitCounted_succeeds (Emitted.takes he htakes₁) (.save .int var.index)
    (opcodeToStackIncMap opcodeIsave)
  -- the assignment is the literal, no cast and a save
  have hrun : compileExpression 2 (setZero a) s = .ok ret s' := by
    rw [setZero, compileExpression_assignment, compileBinaryOpAssignment,
      estate_bind_of_ok (astNodeTraceDataType_of_ok htrace)]
    dsimp only [Expr.staticType]
    rw [estate_bind_of_ok htarget]
    dsimp only
    rw [estate_bind_of_ok hright, if_neg (by decide), if_neg (by decide)]
    exact hsave
  have hreg : RegularExpr (zeroVars a) (setZero a) := rfl
  obtain ⟨-, -, hvis⟩ := compileExpression_coded (setZero a) ⟨rfl, rfl, trivial⟩ hreg h.visible hrun
  rw [exprVars_setZero ha] at hvis
  have hready := h.grows (grower_expression 2 (setZero a) _ _ _ hrun) hvis
  refine ⟨ret, s', hrun, hready, ?_⟩
  have hcount := hvis.count
  have hcount₀ := h.visible.count
  obtain ⟨_, _, _, _, _, _, -, rfl⟩ := grower_expression 2 (setZero a) _ _ _ hrun
  simp only [length_zeroVars, CompilerState.moved] at *
  omega

lemma compile_sets (next : Stat) {n a : ℕ} {s : CompilerState} (ha : a + n ≤ 65536) (h : Ready a s)
    (hroom : s.chain.scope.vars.length + n ≤ 128) :
    ∃ s₁, compileScope 2 (sets n a next) s = compileScope 2 next s₁ ∧ Ready (a + n) s₁ ∧
      Grows s s₁ := by
  induction n generalizing a s with
  | zero => exact ⟨s, rfl, h, Grows.refl s⟩
  | succ n ih =>
    obtain ⟨ret, s₁, hrun, hready, hlen⟩ := compile_setZero (by omega) h (by omega)
    obtain ⟨s₂, heq, hready₂, hgrows⟩ := ih (by omega) hready (by omega)
    rw [Nat.add_assoc, Nat.add_comm 1] at hready₂
    refine ⟨s₂, ?_, hready₂, (grower_expression 2 (setZero a) _ _ _ hrun).trans hgrows⟩
    rw [sets, compileScope, estate_bind_of_ok hrun, heq]

/-- A block with so much code that it is dropped compiles, and is skipped. -/
lemma compile_dropped {n a : ℕ} {block : Stat} {s : CompilerState} (h : Ready a s)
    (hblock : ∀ s, Ready a s → s.chain.scope.vars.length = 0 →
      ∃ t chunks account newVars, compileScope 2 block s = .ok () t ∧
        Advanced s chunks account newVars t ∧ uint16Max < chunks.flatten.length) :
    ∃ s₁, compileScope 2 (.ifElse (.literalInt 0) block .nil (literals n)) s
      = compileScope 2 (literals n) s₁ ∧ Ready a s₁ ∧ Grows s s₁ := by
  obtain ⟨r, s₁, hcond⟩ : ∃ r s₁, compileExpression 2 (.literalInt 0) s = .ok r s₁ :=
    emitCounted_succeeds h.takes (.iconst 0) _
  obtain ⟨-, he⟩ := compiles_literalInt [] 0 2 s s₁ r (fun _ _ h => by cases h) hcond
  have hready₁ : Ready a s₁ := h.grows he.grows (h.visible.advanced he.advanced)
  have hchild : Ready a (childState s₁ 512 s₁.chain.scope.stackSize) :=
    ⟨hready₁.visible.child _ _, takes_new (by decide), hready₁.cap⟩
  obtain ⟨t, chunks, account, newVars, hrun, hadv, hlong⟩ := hblock _ hchild rfl
  obtain ⟨em, events, m, hem, rfl⟩ := hadv
  obtain ⟨e, rfl, -, hholds⟩ := emitChunks_new (by decide) hem
  have hparts : IfCompiles 2 (.literalInt 0) block .nil s (chunksOf [.iconst 0]).flatten
      chunks.flatten [] := ⟨r, s₁, _, _, _, _, hcond, ⟨_, _, _, he.advanced, rfl⟩,
    compileChild_of_ok hrun, hholds.holds, compileChild_of_ok rfl,
    (emitterHolds_new (by decide)).holds⟩
  obtain ⟨s₂, hif⟩ := hparts.dropped (by omega) (by simp)
  have hgrows : Grows s s₂ := grower_statement 2 (.ifElse (.literalInt 0) block .nil .nil) _ _ _ hif
  obtain ⟨_, _, _, _, hexpr', -, -, -, -, -, hvis⟩ := ifElse_counts hif
  rw [hcond] at hexpr'
  cases hexpr'
  refine ⟨s₂, ?_, h.grows hgrows (hvis _ hready₁.visible), hgrows⟩
  rw [compileScope, estate_bind_of_ok hif]

/-- The blocks compile to more than 65535 bytes each. -/
lemma compile_nest {n : ℕ} (hn : uint16Max < 5 * n) {depth a : ℕ} {s : CompilerState}
    (ha : a + 128 * depth ≤ 65536) (h : Ready a s) (hvars : s.chain.scope.vars.length = 0) :
    ∃ t chunks account newVars, compileScope 2 (nest n depth a) s = .ok () t ∧
      Advanced s chunks account newVars t ∧ uint16Max < chunks.flatten.length := by
  have hcode : ∀ {s}, s.chain.scope.emitter.Takes → ∃ t chunks account newVars,
      compileScope 2 (literals n) s = .ok () t ∧ Advanced s chunks account newVars t ∧
        uint16Max < chunks.flatten.length := by
    intro s htakes
    obtain ⟨t, hrun, he⟩ := compileScope_literals 1 n htakes
    refine ⟨t, _, _, _, hrun, he.advanced, ?_⟩
    simp [chunksOf, Instr.encode, Instr.operand, htobe32, bytesLE32]
    omega
  induction depth generalizing a s with
  | zero => exact hcode h.takes
  | succ depth ih =>
    obtain ⟨s₁, heq₁, hready₁, chunks₁, account₁, newVars₁, hadv₁⟩ := compile_sets
      (.ifElse (.literalInt 0) (nest n depth (a + 128)) .nil (literals n)) (n := 128) (by omega) h
      (by omega)
    obtain ⟨s₂, heq₂, hready₂, chunks₂, account₂, newVars₂, hadv₂⟩ :=
      compile_dropped (n := n) hready₁ fun s hs hvars =>
      ih (by omega) hs hvars
    obtain ⟨t, chunks, account, newVars, hrun, hadv, hlong⟩ := hcode hready₂.takes
    refine ⟨t, _, _, _, (heq₁.trans heq₂).trans hrun, (hadv₁.trans hadv₂).trans hadv, ?_⟩
    rw [List.flatten_append, List.length_append]
    omega

/-- A new constant gets the next index. -/
lemma constPoolRegisterValue_of_put {fuel : ℕ} {value : CStr} {s : CompilerState} {ret : ℤ}
    {map : Hashmap CStr UInt16} (hnew : hashmapGet id s.constPoolMap value = none)
    (hput : hashmapPut id (fun _ => true) fuel s.constPoolMap value s.constPoolMapSize
      = some (ret, map)) :
    constPoolRegisterValue fuel value s = .ok s.constPoolMapSize
      { s with constPoolMap := map, constPoolMapSize := s.constPoolMapSize + 1 } := by
  refine estate_bind_eq_ok.mpr ⟨s, s, rfl, ?_⟩
  rw [hnew, if_neg (by simp), hput]
  rfl

/-- A function is accepted when its parts are. -/
lemma compileFunc_of_ok {fuel p : ℕ} {func : DeclFunc} {funcDesc : FuncDesc}
    {s s₁ s₂ s₃ : CompilerState} {e : BytecodeEmitter} {log : List UInt8} {ret : ℤ}
    {map : Hashmap CStr UInt16} (hdefine : compilerDefineFunc fuel func s = .ok funcDesc s₁)
    (hparams : defineParams func.args s₁.function = .ok () s₂)
    (hscope : compileScope fuel func.body s₂ = .ok () s₃)
    (hemitter : s₃.chain.scope.emitter = .buffered e) (he : EmitterHolds p e log)
    (hnew : hashmapGet id s₃.constPoolMap funcDesc.signature = none)
    (hput : hashmapPut id (fun _ => true) fuel s₃.constPoolMap funcDesc.signature
      s₃.constPoolMapSize = some (ret, map))
    (hroot : s₁.chain.parents = [] ∧ s₁.chain.scope.isFunctionScope = false) :
    ∃ s', compileFunc fuel func s = .ok 0 s' := by
  have hbody : compileFuncBody fuel func s₁ = .ok s₃.chain { s₃ with chain := s₁.chain } := by
    refine estate_bind_eq_ok.mpr ⟨s₁, s₁, rfl, estate_bind_eq_ok.mpr ⟨(), s₁.function, rfl, ?_⟩⟩
    refine estate_bind_eq_ok.mpr ⟨(), s₂, hparams, ?_⟩
    exact estate_bind_eq_ok.mpr ⟨(), s₃, hscope, rfl⟩
  have hsink : ∀ s, sinkEmitter s₃.chain.scope.emitter s = .ok log s := by
    intro s
    rw [hemitter, sinkEmitter, compilerEmitterSink_eq he]
    rfl
  have hregister := constPoolRegisterValue_of_put (s := { s₃ with chain := s₁.chain }) hnew hput
  rw [compileFunc, estate_bind_of_ok hdefine, estate_bind_of_ok hbody]
  refine ⟨_, estate_bind_eq_ok.mpr ⟨_, _, hsink _, estate_bind_eq_ok.mpr ⟨_, _, hregister,
    estate_bind_eq_ok.mpr ⟨_, _, rfl, (congrFun (if_pos hroot) _).trans rfl⟩⟩⟩⟩

/-- `func f () void`, with the body `nest n 512 0`. -/
def deepFunc (n : ℕ) : DeclFunc := ⟨[102], [], some voidName, nest n 512 0⟩

/-- The compiler accepts the function. -/
lemma deepFunc_compiles {n : ℕ} (hn : uint16Max < 5 * n) :
    ∃ s', compileFunc 2 (deepFunc n) (compilerInit true) = .ok 0 s' := by
  have hdecl : Declarable (deepFunc n) (compilerInit true) :=
    declarable_first rfl nofun (by rintro _ ⟨⟩; decide)
  obtain ⟨funcDesc, s₁, hdefine, hchain, hpool⟩ : ∃ funcDesc s₁,
      compilerDefineFunc 2 (deepFunc n) (compilerInit true) = .ok funcDesc s₁ ∧
        s₁.chain = (compilerInit true).chain ∧ s₁.constPoolMap = hashmapNew :=
    ⟨_, _, hdecl.define rfl (by simp [deepFunc, signatureText]; decide)
      (hashmapPut_new 1 id _ _ _), rfl, rfl⟩
  have hroom : 0 + 128 * 512 ≤ 65536 := by decide
  have hready : Ready 0 s₁.function := ⟨visible_function s₁, takes_new (by decide), rfl⟩
  obtain ⟨t, chunks, account, newVars, hscope, hadv, -⟩ :=
    compile_nest hn hroom hready rfl
  obtain ⟨em, events, m, hem, rfl⟩ := hadv
  obtain ⟨e, rfl, -, hholds⟩ := emitChunks_new (by decide) hem
  have hnew : hashmapGet id s₁.constPoolMap funcDesc.signature = none :=
    hpool ▸ hashmapGet_eq (mapHolds_empty _ _) _
  have hput := hashmapPut_new 1 id (fun _ => true) funcDesc.signature s₁.constPoolMapSize
  rw [← hpool] at hput
  exact compileFunc_of_ok hdefine rfl hscope rfl hholds hnew hput (hchain ▸ ⟨rfl, rfl⟩)

/-- The machine allocates no variables for it, but its body uses the first slot. -/
lemma deepFunc_not_fits {n : ℕ} (hn : uint16Max < 5 * n) : ∃ handle s₀,
    Decodes 2 (deepFunc n) (compilerInit true) handle ∧ handle.varsSize = 0 ∧
      BodyBegins 2 (deepFunc n) (compilerInit true) s₀ ∧
      UsesSlot ⟨2, .scope (deepFunc n).body, s₀⟩ 0 := by
  have hparsed : (deepFunc n).body.Parsed := parsed_nest n 512 0
  obtain ⟨s', hcompile⟩ := deepFunc_compiles hn
  obtain ⟨handle, hdecodes⟩ := decodes_first [] [86] hcompile (by simp [deepFunc]) (by decide) rfl
    (by simp [deepFunc, signatureOf]; decide)
  obtain ⟨s₀, s₁, hbegins, -, -, hmax, hsaved, hvarsSize, -⟩ := hdecodes.parts hparsed rfl
  have hslots : scopeSlots (paramVars (deepFunc n).args) (deepFunc n).body = 65536 :=
    @scopeSlots_nest n 512 0 (by decide)
  rw [hslots] at hmax hsaved
  rw [hmax] at hvarsSize
  exact ⟨handle, s₀, hdecodes, hvarsSize, hbegins, hsaved 0 (Nat.zero_le _) (by decide)⟩

theorem storage_not_fits : ∃ handle,
    (deepFunc 13108).body.Parsed ∧ Decodes 2 (deepFunc 13108) (compilerInit true) handle ∧
      handle.varsSize = 0 ∧ ¬ StorageFits 2 (deepFunc 13108) (compilerInit true) handle := by
  have hlong : uint16Max < 5 * 13108 := by decide
  obtain ⟨handle, s₀, hdecodes, hvars, hbegins, hused⟩ := deepFunc_not_fits hlong
  refine ⟨handle, parsed_nest _ _ _, hdecodes, hvars, fun hfits => ?_⟩
  have hlt := hfits.slots s₀ 0 hbegins hused
  rw [hvars] at hlt
  exact absurd hlt (Nat.not_lt_zero _)

end PhantomShell
