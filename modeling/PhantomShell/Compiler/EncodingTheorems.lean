import PhantomShell.Compiler.EmissionTheorems

/-!
# The operands that the compiler writes and the machine reads

Each encoder of the compiler against the decoder of the machine. `compile_literal_int` and
`compile_function_call` agree with the machine on every operand; the jumps around a block go
through `jumpHi`, which is always 0, and the counts in front of a function are narrowed.
-/

namespace PhantomShell

/-! ## The bytes of a block -/

/-- What `compiler_emitter_sink` gives for the current scope. -/
def CompilerState.sunk (s : CompilerState) : Option (List UInt8) :=
  match s.chain.scope.emitter with
  | .buffered e => compilerEmitterSink e
  | .unbuffered => none

lemma Advanced.sunk_child {s t : CompilerState} {pageSize stackSize : ℕ} (hp : 0 < pageSize)
    {chunks : List (List UInt8)} {account : ℕ × ℕ} {newVars : List ScopeVar}
    (h : Advanced (childState s pageSize stackSize) chunks account newVars t) :
    t.sunk = some chunks.flatten := by
  obtain ⟨em, ev, m, hem, rfl⟩ := h
  obtain ⟨e, rfl, -, he⟩ := emitChunks_new hp hem
  exact compilerEmitterSink_eq he

lemma Advanced.sunk_cond {s t : CompilerState} {chunks : List (List UInt8)} {account : ℕ × ℕ}
    {newVars : List ScopeVar} (h : Advanced (condState s) chunks account newVars t) :
    t.sunk = some chunks.flatten := by
  obtain ⟨em, ev, m, hem, rfl⟩ := h
  obtain ⟨e, rfl, -, he⟩ := emitChunks_new (by decide) hem
  exact compilerEmitterSink_eq he

/-- `trueData` and `falseData` are the code of the two blocks of an `if` that is compiled in
`s`, and `s₁` is the state behind its condition. -/
def IfBlocks (fuel : ℕ) (expr : Expr) (trueScope falseScope : Stat) (s s₁ : CompilerState)
    (trueData falseData : List UInt8) : Prop :=
  ∃ r t₁ t₂, compileExpression fuel expr s = .ok r s₁ ∧
    compileScope fuel trueScope (childState s₁ 512 s₁.chain.scope.stackSize) = .ok () t₁ ∧
    t₁.sunk = some trueData ∧
    compileScope fuel falseScope (childState (t₁.leave s₁) 512 s₁.chain.scope.stackSize)
      = .ok () t₂ ∧
    t₂.sunk = some falseData

/-- `exprData` and `bodyData` are the code of the condition and of the body of a `while`. -/
def LoopBlocks (fuel : ℕ) (expr : Expr) (loopScope : Stat) (s : CompilerState)
    (exprData bodyData : List UInt8) : Prop :=
  ∃ r s₁ t, compileExpression fuel expr (condState s) = .ok r s₁ ∧ s₁.sunk = some exprData ∧
    compileScope fuel loopScope (childState (forgetVars s₁ s.chain.scope.vars.length) 512 0)
      = .ok () t ∧
    t.sunk = some bodyData

/-! ## Where jumps land -/

/-- The jump at byte `pc` of a chunk, executed with 0 on top of the stack, continues at byte
`target`. -/
def Lands (handler : Handler) (chunk : List UInt8) (pc target : ℕ) : Prop :=
  ∀ frame w rest, frame.stack = w :: rest → w.bits = 0 →
    ∃ frame', handler frame (chunk.drop (pc + 1)) = .ok (frame', (target : ℤ) - pc)

/-- One chunk, in which `JEZ` lands behind the true block and its `JMP`, and `JMP` behind the
false block. -/
def IfLands (chunks : List (List UInt8)) (trueData falseData : List UInt8) : Prop :=
  ∃ a b c d, let chunk := opcodeJez :: a :: b :: (trueData ++ opcodeJmp :: c :: d :: falseData)
    chunks = [chunk] ∧
    Lands vmExecuteOpcodeJez chunk 0 (trueData.length + 6) ∧
    Lands vmExecuteOpcodeJmp chunk (trueData.length + 3) chunk.length

/-- A chunk in which `JEZ` lands behind the loop, and `RJMP` on the condition. -/
def LoopLands (chunk exprData bodyData : List UInt8) : Prop :=
  ∃ a b c d, chunk = exprData ++ opcodeJez :: a :: b :: (bodyData ++ [opcodeRjmp, c, d]) ∧
    Lands vmExecuteOpcodeJez chunk exprData.length chunk.length ∧
    Lands vmExecuteOpcodeRjmp chunk (exprData.length + bodyData.length + 3) 0

lemma be16toh_jump (n : ℕ) : be16toh (jumpHi n) (jumpLo n) = n % 256 := by
  simp [be16toh, jumpHi_eq, jumpLo, UInt8.toNat_ofNat']

lemma be16toh_counts (n : ℕ) (hi lo : UInt8) (h : htobe16 (UInt16.ofNat n) = [hi, lo]) :
    be16toh hi lo = n % 65536 := by
  have hn := be16toh_htobe16 (UInt16.ofNat n)
  unfold htobe16 at h
  simp only [List.cons.injEq, and_true] at h
  rw [← h.1, ← h.2, hn, UInt16.toNat_ofNat']

/-- A frame with 0 on top of the stack. -/
def zeroFrame : Frame := ⟨[⟨.int, 0⟩], 4, []⟩

/-- A jump lands where the displacement that its handler returns leads. -/
lemma lands_iff {handler : Handler} {chunk data : List UInt8} {pc target : ℕ} {d : ℤ}
    (hdata : chunk.drop (pc + 1) = data)
    (hshift : ∀ frame w rest, frame.stack = w :: rest → w.bits = 0 →
      ∃ frame', handler frame data = .ok (frame', d)) :
    Lands handler chunk pc target ↔ (target : ℤ) = pc + d := by
  unfold Lands
  rw [hdata]
  constructor
  · intro h
    obtain ⟨f₁, h₁⟩ := h zeroFrame _ _ rfl rfl
    obtain ⟨f₂, h₂⟩ := hshift zeroFrame _ _ rfl rfl
    have hd := congrArg Prod.snd (Except.ok.inj (h₁.symm.trans h₂))
    simp only at hd
    omega
  · intro htarget frame w rest hstack hw
    obtain ⟨frame', h⟩ := hshift frame w rest hstack hw
    exact ⟨frame', by rw [h, htarget, add_sub_cancel_left]⟩

section

variable {chunk rest : List UInt8} {hi lo : UInt8} {pc target : ℕ}
  (hdata : chunk.drop (pc + 1) = hi :: lo :: rest)
include hdata

lemma lands_jez : Lands vmExecuteOpcodeJez chunk pc target ↔ target = pc + 3 + be16toh hi lo := by
  rw [lands_iff (d := 3 + be16toh hi lo) hdata]
  · omega
  · intro frame w stack hstack hw
    exact ⟨{ frame with stack := stack }, by
      simp [vmExecuteOpcodeJez, branchWord, readOffset, except_ok_bind, hstack, hw]⟩

lemma lands_jmp : Lands vmExecuteOpcodeJmp chunk pc target ↔ target = pc + 3 + be16toh hi lo := by
  rw [lands_iff (d := 3 + be16toh hi lo) hdata]
  · omega
  · intro frame w stack _ _
    exact ⟨frame, rfl⟩

lemma lands_rjmp : Lands vmExecuteOpcodeRjmp chunk pc target ↔ target + be16toh hi lo = pc + 3 := by
  rw [lands_iff (d := 3 - be16toh hi lo) hdata]
  · omega
  · intro frame w stack _ _
    exact ⟨frame, rfl⟩

end

/-! ## Blocks -/

/-- The jumps around the blocks of an `if` land exactly up to a true block of 252 bytes. -/
lemma ifLands_iff {trueData falseData : List UInt8} (htrue : trueData.length ≤ uint16Max)
    (hfalse : falseData.length ≤ uint16Max) :
    IfLands (ifChunks trueData falseData) trueData falseData ↔ trueData.length ≤ 252 := by
  have hmax : uint16Max = 65535 := rfl
  rw [hmax] at htrue hfalse
  obtain ⟨hi, lo, hcount, hblock⟩ : ∃ hi lo, be16toh hi lo = falseData.length ∧
      ifTrueData trueData falseData = trueData ++ opcodeJmp :: [hi, lo] := by
    refine ⟨_, _, ?_, if_neg (by omega)⟩
    rw [be16toh_counts falseData.length _ _ rfl]
    omega
  have hlen : (ifTrueData trueData falseData).length = trueData.length + 3 := by
    simp [hblock]
  have hchunks : ifChunks trueData falseData =
      if trueData.length + 3 > 65535 then []
      else [opcodeJez :: jumpHi (trueData.length + 3) :: jumpLo (trueData.length + 3) ::
        (trueData ++ opcodeJmp :: hi :: lo :: falseData)] := by
    simp only [ifChunks, hlen, hmax]
    simp only [hblock, List.append_assoc, List.cons_append, List.nil_append]
  constructor
  · rintro ⟨a, b, c, d, heq, hjez, -⟩
    rw [hchunks] at heq
    -- a true block above `UINT16_MAX` leaves no chunk at all
    split at heq
    · cases heq
    · simp only [List.cons.injEq, true_and, and_true] at heq
      obtain ⟨rfl, rfl, -⟩ := heq
      rw [lands_jez rfl, be16toh_jump] at hjez
      omega
  · intro hsmall
    refine ⟨jumpHi (trueData.length + 3), jumpLo (trueData.length + 3), hi, lo, ?_, ?_, ?_⟩
    · rw [hchunks, if_neg (by omega)]
    · rw [lands_jez rfl, be16toh_jump]
      omega
    · have hdrop : (opcodeJez :: jumpHi (trueData.length + 3) :: jumpLo (trueData.length + 3) ::
          (trueData ++ opcodeJmp :: hi :: lo :: falseData)).drop (trueData.length + 3 + 1)
            = hi :: lo :: falseData := by
        simp [List.drop_append]
      rw [lands_jmp hdrop, hcount]
      simp only [List.length_cons, List.length_append]
      omega

/-- The jumps of a loop land exactly up to 249 bytes of condition and body. -/
lemma loopLands_iff {exprData bodyData : List UInt8} :
    LoopLands (whileChunk exprData bodyData) exprData bodyData ↔
      exprData.length + bodyData.length ≤ 249 := by
  set sum := exprData.length + bodyData.length + 3 + 3 with hsum
  have hchunk : whileChunk exprData bodyData = exprData ++ opcodeJez ::
      jumpHi (bodyData.length + 3) :: jumpLo (bodyData.length + 3) ::
        (bodyData ++ [opcodeRjmp, jumpHi sum, jumpLo sum]) := rfl
  have hlen : (whileChunk exprData bodyData).length = exprData.length + bodyData.length + 6 := by
    simp [hchunk]
    omega
  -- the jump out of the loop, over the body and the `rjmp`
  have hjez : Lands vmExecuteOpcodeJez (whileChunk exprData bodyData) exprData.length
      (whileChunk exprData bodyData).length ↔ bodyData.length + 3 ≤ 255 := by
    have hdrop : (whileChunk exprData bodyData).drop (exprData.length + 1) =
        jumpHi (bodyData.length + 3) :: jumpLo (bodyData.length + 3) ::
          (bodyData ++ [opcodeRjmp, jumpHi sum, jumpLo sum]) := by
      simp [hchunk]
    rw [lands_jez hdrop, be16toh_jump, hlen]
    omega
  -- the jump back to the condition, the longer one
  have hrjmp : Lands vmExecuteOpcodeRjmp (whileChunk exprData bodyData)
      (exprData.length + bodyData.length + 3) 0 ↔ sum ≤ 255 := by
    have hdrop : (whileChunk exprData bodyData).drop
        (exprData.length + bodyData.length + 3 + 1) = jumpHi sum :: jumpLo sum :: [] := by
      have hsplit : whileChunk exprData bodyData = (exprData ++ opcodeJez ::
          jumpHi (bodyData.length + 3) :: jumpLo (bodyData.length + 3) :: bodyData) ++
            [opcodeRjmp, jumpHi sum, jumpLo sum] := by
        simp [hchunk]
      rw [hsplit, List.drop_append, List.drop_eq_nil_of_le (by simp; omega), List.nil_append]
      have hoff : exprData.length + bodyData.length + 3 + 1 - (exprData ++ opcodeJez ::
          jumpHi (bodyData.length + 3) :: jumpLo (bodyData.length + 3) :: bodyData).length = 1 := by
        simp
        omega
      rw [hoff]
      rfl
    rw [lands_rjmp hdrop, be16toh_jump]
    omega
  constructor
  · rintro ⟨a, b, c, d, -, -, h⟩
    have := hrjmp.mp h
    omega
  · intro hsmall
    exact ⟨_, _, _, _, hchunk, hjez.mpr (by omega), hrjmp.mpr (by omega)⟩

/-- `compile_statement` of an `if`: the code of its blocks and the chunk around them. -/
lemma compileStatement_ifElse {fuel : ℕ} {expr : Expr} {trueScope falseScope next : Stat}
    {s s' : CompilerState} {ret : ℤ}
    (h : compileStatement fuel (.ifElse expr trueScope falseScope next) s = .ok ret s') :
    ∃ s₁ trueData falseData account,
      IfBlocks fuel expr trueScope falseScope s s₁ trueData falseData ∧
        Advanced s₁ (ifChunks trueData falseData) account [] s' := by
  obtain ⟨-, r, s₁, t₁, t₂, hexpr, ht₁, ht₂, hadv⟩ := compileIfStatement_eq_ok h
  obtain ⟨_, _, _, h₁⟩ := grower_scope fuel trueScope _ _ _ ht₁
  obtain ⟨_, _, _, h₂⟩ := grower_scope fuel falseScope _ _ _ ht₂
  exact ⟨s₁, _, _, _, ⟨r, t₁, t₂, hexpr, ht₁, h₁.sunk_child (by decide), ht₂,
    h₂.sunk_child (by decide)⟩, (hadv _ _ _ h₁).2 _ _ _ h₂⟩

/-- `compile_statement` of a `while`: the code of its condition and body, and the chunk. -/
lemma compileStatement_while {fuel : ℕ} {expr : Expr} {loopScope next : Stat}
    {s s' : CompilerState} {ret : ℤ}
    (h : compileStatement fuel (.while expr loopScope next) s = .ok ret s') :
    ∃ exprData bodyData account, LoopBlocks fuel expr loopScope s exprData bodyData ∧
      Advanced s [whileChunk exprData bodyData] account [] s' := by
  obtain ⟨-, r, s₁, t, hexpr, ht, hadv⟩ := compileWhileStatement_eq_ok h
  obtain ⟨_, _, _, h₁⟩ := grower_expression fuel expr _ _ _ hexpr
  obtain ⟨_, _, _, h₂⟩ := grower_scope fuel loopScope _ _ _ ht
  exact ⟨_, _, _, ⟨r, s₁, t, hexpr, h₁.sunk_cond, ht, h₂.sunk_child (by decide)⟩,
    (hadv _ _ _ h₁ _ _ _ h₂).2⟩

/-! ## Calls and functions -/

/-- `compile_function_call` ends with the index of the signature that the constant pool of the
compiler has for the function. -/
lemma compileFunctionCall_eq_ok {fuel : ℕ} {left right : Expr} {s s' : CompilerState} {ret : ℤ}
    (h : compileFunctionCall (compileExpression fuel) left right s = .ok ret s') :
    ∃ t name funcDesc s₁, left = .ident t name ∧
      hashmapGet id s.globalFuncMap name = some funcDesc ∧ Grows s s₁ ∧
      Emitted s₁ [opcodeCall ::
        htobe16 ((hashmapGet id s.constPoolMap funcDesc.signature).getD 0)] [] s' := by
  unfold compileFunctionCall at h
  split at h
  · rename_i t name
    simp only [estate_bind_eq_ok, estate_get_eq_ok] at h
    obtain ⟨_, _, ⟨rfl, rfl⟩, h⟩ := h
    cases hfunc : hashmapGet id s.globalFuncMap name with
    | none =>
      simp only [hfunc] at h
      exact (estate_throw_eq_ok.mp h).elim
    | some funcDesc =>
      simp only [hfunc, constPoolIndexByValue, estate_bind_eq_ok, estate_get_eq_ok,
        estate_pure_eq_ok] at h
      obtain ⟨_, _, ⟨_, _, ⟨rfl, rfl⟩, rfl, rfl⟩, h⟩ := h
      split at h
      · simp only [estate_bind_eq_ok] at h
        obtain ⟨_, s₁, hargs, h⟩ := h
        exact ⟨t, name, funcDesc, s₁, rfl, hfunc, grower_args fuel _ _ _ _ hargs,
          (compilerEmit_eq_ok h).2⟩
      · exact (estate_throw_eq_ok.mp h).elim
  · exact (estate_throw_eq_ok.mp h).elim

/-- `const_pool_register_value` leaves the machine alone. -/
lemma constPoolRegisterValue_events {fuel : ℕ} {value : CStr} {index : UInt16}
    {s s' : CompilerState} (h : constPoolRegisterValue fuel value s = .ok index s') :
    s'.events = s.events := by
  simp only [constPoolRegisterValue, estate_bind_eq_ok, estate_get_eq_ok] at h
  obtain ⟨_, _, ⟨rfl, rfl⟩, h⟩ := h
  split at h
  · exact (estate_throw_eq_ok.mp h).elim
  · cases hput : hashmapPut id (fun _ => true) fuel s.constPoolMap value s.constPoolMapSize with
    | none =>
      simp only [hput] at h
      exact (estate_throw_eq_ok.mp h).elim
    | some r =>
      simp only [hput, estate_bind_eq_ok, estate_set_eq_ok, estate_pure_eq_ok] at h
      obtain ⟨_, _, rfl, _, rfl⟩ := h
      rfl

/-- `compile_func` registers the counts of the scope that it compiled the body in. -/
lemma compileFunc_registers {fuel : ℕ} {node : DeclFunc} {s s' : CompilerState} {ret : ℤ}
    (h : compileFunc fuel node s = .ok ret s') :
    ∃ funcDesc s₁ funcChain s₂ body, compilerDefineFunc fuel node s = .ok funcDesc s₁ ∧
      compileFuncBody fuel node s₁ = .ok funcChain s₂ ∧
      s'.events = s₂.events ++ [.register funcDesc.signature
        (funcHeader funcChain.varsMaxSize funcChain.stackMaxSize ++ body)] := by
  simp only [compileFunc, estate_bind_eq_ok] at h
  obtain ⟨funcDesc, s₁, hdefine, funcChain, s₂, hbody, body, s₃, hsink, _, s₄, hpool, h⟩ := h
  refine ⟨funcDesc, s₁, funcChain, s₂, body, hdefine, hbody, ?_⟩
  have hsink' := sinkEmitter_state hsink
  have hevents := constPoolRegisterValue_events hpool
  obtain ⟨_, _, hget, h⟩ := h
  obtain ⟨rfl, rfl⟩ := estate_get_eq_ok.mp hget
  split at h
  · simp only [estate_bind_eq_ok, estate_modify_eq_ok, estate_pure_eq_ok] at h
    obtain ⟨_, _, rfl, _, rfl⟩ := h
    simp [hevents, hsink']
  · exact (estate_throw_eq_ok.mp h).elim

/-- The machine reads the two counts of a function back modulo 2^16. -/
lemma vmRegisterFunction_header {fuel vars stack : ℕ} {vm vm' : Vm} {index : UInt16}
    {body : List UInt8} {handle : FuncHandle}
    (h : vmRegisterFunction fuel vm index (funcHeader vars stack ++ body) = .ok (handle, vm')) :
    handle.varsSize = vars % 65536 * 4 ∧ handle.stackSize = stack % 65536 := by
  have hvars := be16toh_counts vars _ _ rfl
  have hstack := be16toh_counts stack _ _ rfl
  have hdata : funcHeader vars stack ++ body = _ :: _ :: _ :: _ :: body := rfl
  rw [hdata] at h
  simp only [vmRegisterFunction, except_bind_eq_ok, hvars, hstack] at h
  obtain ⟨_, -, _, -, _, -, h⟩ := h
  split at h
  · cases h
  · cases h
    exact ⟨rfl, rfl⟩

/-! ## The whole format -/

/-- Literals and calls are decoded to what was encoded; the counts of a function exactly when
they are below 2^16; the jumps of an `if` exactly up to a true block of 252 bytes, whatever the
false block; the jumps of a `while` exactly up to 249 bytes of condition and body. -/
theorem operands_decoded_iff (fuel : ℕ) (s s' : CompilerState) (ret : ℤ) :
    (∀ value, compileLiteralInt value s = .ok ret s' →
      Emitted s [opcodeIconst :: htobe32 value] [4] s' ∧ ∀ frame rest,
        vmExecuteOpcodeIconst frame (htobe32 value ++ rest) = pushWord frame ⟨.int, value⟩ 5) ∧
    (∀ left right,
      compileFunctionCall (compileExpression fuel) left right s = .ok ret s' →
      ∃ t name funcDesc s₁ index, left = .ident t name ∧
        hashmapGet id s.globalFuncMap name = some funcDesc ∧
        index = (hashmapGet id s.constPoolMap funcDesc.signature).getD 0 ∧ Grows s s₁ ∧
        Emitted s₁ [opcodeCall :: htobe16 index] [] s' ∧
        ∀ rest, readOffset (htobe16 index ++ rest) = .ok index.toNat) ∧
    (∀ node, compileFunc fuel node s = .ok ret s' →
      ∃ funcDesc s₁ funcChain s₂ body, compilerDefineFunc fuel node s = .ok funcDesc s₁ ∧
        compileFuncBody fuel node s₁ = .ok funcChain s₂ ∧
        s'.events = s₂.events ++ [.register funcDesc.signature
          (funcHeader funcChain.varsMaxSize funcChain.stackMaxSize ++ body)]) ∧
    (∀ vars stack body vm index handle vm',
      vmRegisterFunction fuel vm index (funcHeader vars stack ++ body) = .ok (handle, vm') →
      (handle.varsSize = 4 * vars ∧ handle.stackSize = stack ↔ vars < 65536 ∧ stack < 65536)) ∧
    (∀ expr trueScope falseScope next,
      compileStatement fuel (.ifElse expr trueScope falseScope next) s = .ok ret s' →
      ∃ s₁ trueData falseData account,
        IfBlocks fuel expr trueScope falseScope s s₁ trueData falseData ∧
        Advanced s₁ (ifChunks trueData falseData) account [] s' ∧
        (trueData.length ≤ uint16Max → falseData.length ≤ uint16Max →
          (IfLands (ifChunks trueData falseData) trueData falseData ↔
            trueData.length ≤ 252))) ∧
    (∀ expr loopScope next,
      compileStatement fuel (.while expr loopScope next) s = .ok ret s' →
      ∃ exprData bodyData account, LoopBlocks fuel expr loopScope s exprData bodyData ∧
        Advanced s [whileChunk exprData bodyData] account [] s' ∧
        (LoopLands (whileChunk exprData bodyData) exprData bodyData ↔
          exprData.length + bodyData.length ≤ 249)) := by
  refine ⟨?_, ?_, ?_, ?_, ?_, ?_⟩
  · intro value h
    exact ⟨(emitCounted_eq_ok h).2, fun frame rest => vmExecuteOpcodeIconst_encoded frame value rest⟩
  · intro left right h
    obtain ⟨t, name, funcDesc, s₁, hleft, hfunc, hgrows, hemit⟩ := compileFunctionCall_eq_ok h
    exact ⟨t, name, funcDesc, s₁, _, hleft, hfunc, rfl, hgrows, hemit, readOffset_htobe16 _⟩
  · intro node h
    exact compileFunc_registers h
  · intro vars stack body vm index handle vm' h
    obtain ⟨hvars, hstack⟩ := vmRegisterFunction_header h
    rw [hvars, hstack]
    omega
  · intro expr trueScope falseScope next h
    obtain ⟨s₁, trueData, falseData, account, hblocks, hadv⟩ := compileStatement_ifElse h
    exact ⟨s₁, trueData, falseData, account, hblocks, hadv, ifLands_iff⟩
  · intro expr loopScope next h
    obtain ⟨exprData, bodyData, account, hblocks, hadv⟩ := compileStatement_while h
    exact ⟨exprData, bodyData, account, hblocks, hadv, loopLands_iff⟩

/-- A block of statements `1 + 1`, each of them 11 bytes long. -/
def sums : ℕ → Stat
  | 0 => .nil
  | n + 1 => .expr (.binaryOp .unknwn .addition (.literalInt 1) (.literalInt 1)) (sums n)

/-- The sizes of the blocks of an `if`. -/
def ifSizes (fuel : ℕ) (expr : Expr) (trueScope falseScope : Stat) (s : CompilerState) :
    Option (ℕ × ℕ) :=
  match compileExpression fuel expr s with
  | .error _ _ => none
  | .ok _ s₁ =>
    match compileScope fuel trueScope (childState s₁ 512 s₁.chain.scope.stackSize) with
    | .error _ _ => none
    | .ok _ t₁ =>
      match compileScope fuel falseScope (childState (t₁.leave s₁) 512 s₁.chain.scope.stackSize) with
      | .error _ _ => none
      | .ok _ t₂ => t₁.sunk.bind fun a => t₂.sunk.map fun b => (a.length, b.length)

lemma IfBlocks.sizes {fuel : ℕ} {expr : Expr} {trueScope falseScope : Stat}
    {s s₁ : CompilerState} {trueData falseData : List UInt8}
    (h : IfBlocks fuel expr trueScope falseScope s s₁ trueData falseData) :
    ifSizes fuel expr trueScope falseScope s = some (trueData.length, falseData.length) := by
  obtain ⟨r, t₁, t₂, hexpr, ht₁, hdata₁, ht₂, hdata₂⟩ := h
  simp [ifSizes, hexpr, ht₁, hdata₁, ht₂, hdata₂]

/-- `if 0 { … }` around 253 bytes: `JEZ` lands on the first byte of the true block. -/
theorem jumps_not_decoded :
    ∃ ret s' s₁ trueData falseData account,
      compileStatement 3 (.ifElse (.literalInt 0) (sums 23) .nil .nil) (compilerInit true)
        = .ok ret s' ∧
      IfBlocks 3 (.literalInt 0) (sums 23) .nil (compilerInit true) s₁ trueData falseData ∧
      Advanced s₁ (ifChunks trueData falseData) account [] s' ∧
      trueData.length ≤ uint16Max ∧ falseData.length ≤ uint16Max ∧
      ¬ IfLands (ifChunks trueData falseData) trueData falseData := by
  have hok : (okResult (compileStatement 3 (.ifElse (.literalInt 0) (sums 23) .nil .nil)
      (compilerInit true))).isSome := by decide +kernel
  obtain ⟨⟨ret, s'⟩, hresult⟩ := Option.isSome_iff_exists.mp hok
  have h := okResult_eq_some.mp hresult
  obtain ⟨s₁, trueData, falseData, account, hblocks, hadv⟩ := compileStatement_ifElse h
  have hsizes : ifSizes 3 (.literalInt 0) (sums 23) .nil (compilerInit true) = some (253, 0) := by
    decide +kernel
  have hlengths := Option.some.inj (hblocks.sizes.symm.trans hsizes)
  have htrue := congrArg Prod.fst hlengths
  have hfalse := congrArg Prod.snd hlengths
  simp only at htrue hfalse
  have hmax : uint16Max = 65535 := rfl
  refine ⟨ret, s', s₁, trueData, falseData, account, h, hblocks, hadv, by omega, by omega, ?_⟩
  rw [ifLands_iff (by omega) (by omega)]
  omega

end PhantomShell
