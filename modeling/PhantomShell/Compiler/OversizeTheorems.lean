import PhantomShell.Compiler.Program
import PhantomShell.Compiler.ExpressionTheorems

/-!
# Blocks that are too long

What `compile_statement` does with a branch or a body of more than `UINT16_MAX` bytes, at any
nesting level. A `while` refuses a long body. An `if` drops a long true block and leaves out the jump
over a long false block, and reports success in both cases, so that it keeps its blocks exactly
when they are short (`blocks_kept_iff`).
-/

namespace PhantomShell

/-! ## The parts of a statement -/

/-- The bytes in the emitter of a block. -/
def ScopeEmitter.Holds : ScopeEmitter → List UInt8 → Prop
  | .unbuffered, _ => False
  | .buffered e, code => compilerEmitterSink e = some code

/-- The condition of an `if` appends `cond`, and its blocks compile to the others. -/
def IfCompiles (fuel : ℕ) (expr : Expr) (trueScope falseScope : Stat) (s : CompilerState)
    (cond trueCode falseCode : List UInt8) : Prop :=
  ∃ ret s₁ trueEmitter s₂ falseEmitter s₃,
    compileExpression fuel expr s = .ok ret s₁ ∧ Appended s cond s₁ ∧
    compileChild 512 s₁.chain.scope.stackSize (compileScope fuel trueScope) s₁
      = .ok trueEmitter s₂ ∧ trueEmitter.Holds trueCode ∧
    compileChild 512 s₁.chain.scope.stackSize (compileScope fuel falseScope) s₂
      = .ok falseEmitter s₃ ∧ falseEmitter.Holds falseCode

/-- The condition and the body of a `while` compile to the bytes. -/
def WhileCompiles (fuel : ℕ) (expr : Expr) (loopScope : Stat) (s : CompilerState)
    (cond bodyCode : List UInt8) : Prop :=
  ∃ ret s₁ bodyEmitter s₂,
    compileExpression fuel expr (condState s) = .ok ret s₁ ∧ s₁.chain.scope.emitter.Holds cond ∧
    compileChild 512 0 (compileScope fuel loopScope) (forgetVars s₁ s.chain.scope.vars.length)
      = .ok bodyEmitter s₂ ∧ bodyEmitter.Holds bodyCode

/-- Some branch or body of the statement compiles to more than `UINT16_MAX` bytes. -/
def Oversize (fuel : ℕ) : Stat → CompilerState → Prop
  | .ifElse expr trueScope falseScope _, s => ∃ cond trueCode falseCode,
    IfCompiles fuel expr trueScope falseScope s cond trueCode falseCode ∧
      (uint16Max < trueCode.length ∨ uint16Max < falseCode.length)
  | .while expr loopScope _, s => ∃ cond bodyCode,
    WhileCompiles fuel expr loopScope s cond bodyCode ∧ uint16Max < bodyCode.length
  | _, _ => False

/-- From `s` to `s'` the whole code of the statement was appended: the condition and the blocks with
a jump in front of and behind each of them, whatever the operands of the jumps are. -/
def Complete (fuel : ℕ) : Stat → CompilerState → CompilerState → Prop
  | .ifElse expr trueScope falseScope _, s, s' => ∃ cond trueCode falseCode a b c d,
    IfCompiles fuel expr trueScope falseScope s cond trueCode falseCode ∧
      Appended s (cond ++ opcodeJez :: a :: b :: (trueCode ++ opcodeJmp :: c :: d :: falseCode)) s'
  | .while expr loopScope _, s, s' => ∃ cond bodyCode a b c d,
    WhileCompiles fuel expr loopScope s cond bodyCode ∧
      Appended s (cond ++ opcodeJez :: a :: b :: (bodyCode ++ [opcodeRjmp, c, d])) s'
  | _, _, _ => True

/-- `P` holds of each statement that is compiled for the list, at any nesting level, and of the
state in which it is compiled. -/
def EveryStat (fuel : ℕ) (P : Stat → CompilerState → Prop) : Stat → CompilerState → Prop
  | .nil, _ => True
  | .expr expr next, s =>
    P (.expr expr next) s ∧
      ∀ ret s', compileExpression fuel expr s = .ok ret s' → EveryStat fuel P next s'
  | .ifElse expr trueScope falseScope next, s =>
    P (.ifElse expr trueScope falseScope next) s ∧
      (∀ ret s₁, compileExpression fuel expr s = .ok ret s₁ →
        EveryStat fuel P trueScope (childState s₁ 512 s₁.chain.scope.stackSize) ∧
        ∀ emitter s₂, compileChild 512 s₁.chain.scope.stackSize (compileScope fuel trueScope) s₁
            = .ok emitter s₂ →
          EveryStat fuel P falseScope (childState s₂ 512 s₁.chain.scope.stackSize)) ∧
      ∀ ret s', compileIfStatement (compileExpression fuel) expr (compileScope fuel trueScope)
          (compileScope fuel falseScope) s = .ok ret s' → EveryStat fuel P next s'
  | .while expr loopScope next, s =>
    P (.while expr loopScope next) s ∧
      (∀ ret s₁, compileExpression fuel expr (condState s) = .ok ret s₁ →
        EveryStat fuel P loopScope
          (childState (forgetVars s₁ s.chain.scope.vars.length) 512 0)) ∧
      ∀ ret s', compileWhileStatement (compileExpression fuel) expr (compileScope fuel loopScope) s
          = .ok ret s' → EveryStat fuel P next s'
  | .other next, s => P (.other next) s
  | .notScope _, _ => True

/-- A statement with a branch or a body that is too long, at any nesting level, is refused, and
behind 0 the code of the statement and of each one inside of it is complete. -/
def BlocksKept (fuel : ℕ) (stat : Stat) (s : CompilerState) : Prop :=
  (¬ EveryStat fuel (fun stat s => ¬ Oversize fuel stat s) stat.single s →
    Refused (compileStatement fuel stat s)) ∧
  ∀ s', compileStatement fuel stat s = .ok 0 s' →
    EveryStat fuel (fun stat s => ∀ s', compileStatement fuel stat s = .ok 0 s' →
      Complete fuel stat s s') stat.single s

/-- The true block of an `if` leaves room for its jump, and that jump reaches over the false
block. -/
def ShortBlocks (fuel : ℕ) : Stat → CompilerState → Prop
  | .ifElse expr trueScope falseScope _, s => ∀ cond trueCode falseCode,
    IfCompiles fuel expr trueScope falseScope s cond trueCode falseCode →
      trueCode.length + 3 ≤ uint16Max ∧ falseCode.length ≤ uint16Max
  | _, _ => True

/-! ## Every statement -/

lemma EveryStat.mono {fuel : ℕ} {P Q : Stat → CompilerState → Prop} (hPQ : ∀ stat s, P stat s →
    Q stat s) {stat : Stat} {s : CompilerState} (h : EveryStat fuel P stat s) :
    EveryStat fuel Q stat s := by
  induction stat generalizing s with
  | nil => trivial
  | expr expr next ih => exact ⟨hPQ _ _ h.1, fun ret s' hs' => ih (h.2 ret s' hs')⟩
  | ifElse expr trueScope falseScope next iht ihf ih =>
    obtain ⟨hP, hblocks, hnext⟩ := h
    refine ⟨hPQ _ _ hP, fun ret s₁ hs₁ => ?_, fun ret s' hs' => ih (hnext ret s' hs')⟩
    obtain ⟨htrue, hfalse⟩ := hblocks ret s₁ hs₁
    exact ⟨iht htrue, fun emitter s₂ hs₂ => ihf (hfalse emitter s₂ hs₂)⟩
  | «while» expr loopScope next ihl ih =>
    obtain ⟨hP, hblock, hnext⟩ := h
    exact ⟨hPQ _ _ hP, fun ret s₁ hs₁ => ihl (hblock ret s₁ hs₁),
      fun ret s' hs' => ih (hnext ret s' hs')⟩
  | other next => exact hPQ _ _ h
  | notScope stat => trivial

/-- What holds of all statements holds of all that are inside of any of them. -/
lemma EveryStat.inside {fuel : ℕ} {P : Stat → CompilerState → Prop}
    (hsingle : ∀ stat s, P stat s → P stat.single s) {stat : Stat} {s : CompilerState}
    (h : EveryStat fuel P stat s) :
    EveryStat fuel (fun stat s => EveryStat fuel P stat.single s) stat s := by
  induction stat generalizing s with
  | nil => trivial
  | expr expr next ih =>
    exact ⟨⟨hsingle _ _ h.1, fun _ _ _ => trivial⟩, fun ret s' hs' => ih (h.2 ret s' hs')⟩
  | ifElse expr trueScope falseScope next iht ihf ih =>
    obtain ⟨hP, hblocks, hnext⟩ := h
    refine ⟨⟨hsingle _ _ hP, hblocks, fun _ _ _ => trivial⟩, fun ret s₁ hs₁ => ?_,
      fun ret s' hs' => ih (hnext ret s' hs')⟩
    obtain ⟨htrue, hfalse⟩ := hblocks ret s₁ hs₁
    exact ⟨iht htrue, fun emitter s₂ hs₂ => ihf (hfalse emitter s₂ hs₂)⟩
  | «while» expr loopScope next ihl ih =>
    obtain ⟨hP, hblock, hnext⟩ := h
    exact ⟨⟨hsingle _ _ hP, hblock, fun _ _ _ => trivial⟩,
      fun ret s₁ hs₁ => ihl (hblock ret s₁ hs₁), fun ret s' hs' => ih (hnext ret s' hs')⟩
  | other next => exact hsingle _ _ h
  | notScope stat => trivial

/-! ## What the emitters get -/

lemma ScopeEmitter.Holds.unique {emitter : ScopeEmitter} {a b : List UInt8}
    (ha : emitter.Holds a) (hb : emitter.Holds b) : a = b := by
  cases emitter with
  | unbuffered => exact ha.elim
  | buffered e => exact Option.some.inj (ha.symm.trans hb)

/-! ## Blocks -/

/-- The emitter of a block that compiles holds its bytes. -/
lemma compileChild_block {fuel stackSize : ℕ} {block : Stat} {s s' : CompilerState}
    {emitter : ScopeEmitter}
    (h : compileChild 512 stackSize (compileScope fuel block) s = .ok emitter s') :
    ∃ t chunks account newVars, compileScope fuel block (childState s 512 stackSize) = .ok () t ∧
      s' = t.leave s ∧ Advanced (childState s 512 stackSize) chunks account newVars t ∧
      ∃ e, emitter = .buffered e ∧ EmitterHolds 512 e chunks.flatten := by
  obtain ⟨t, hbody, hs', hadv⟩ := compileChild_advanced (by decide) h
  obtain ⟨chunks, account, newVars, hgrows⟩ := grower_scope fuel block _ _ _ hbody
  obtain ⟨e, he, -, hholds⟩ := emitChunks_new (by decide) (hadv _ _ _ hgrows).1
  exact ⟨t, chunks, account, newVars, hbody, hs', hgrows, e, he, hholds⟩

lemma EmitterHolds.holds {p : ℕ} {e : BytecodeEmitter} {log : List UInt8}
    (h : EmitterHolds p e log) : (ScopeEmitter.buffered e).Holds log := compilerEmitterSink_eq h

/-! ## What an `if` does -/

/-- The parts of an `if` that compiles. -/
lemma ifCompiles_of_ok {fuel : ℕ} {expr : Expr} {trueScope falseScope : Stat}
    {s s' : CompilerState} {ret : ℤ}
    (h : compileIfStatement (compileExpression fuel) expr (compileScope fuel trueScope)
      (compileScope fuel falseScope) s = .ok ret s') :
    ∃ cond trueCode falseCode,
      IfCompiles fuel expr trueScope falseScope s cond trueCode falseCode := by
  simp only [compileIfStatement, estate_bind_eq_ok, estate_get_eq_ok] at h
  obtain ⟨r, s₁, hexpr, _, _, ⟨rfl, rfl⟩, trueEmitter, s₂, htrue, falseEmitter, s₃, hfalse, -⟩ := h
  obtain ⟨chunks, account, newVars, hadv⟩ := grower_expression fuel expr _ _ _ hexpr
  obtain ⟨t₁, c₁, _, _, -, -, -, e₁, rfl, he₁⟩ := compileChild_block htrue
  obtain ⟨t₂, c₂, _, _, -, -, -, e₂, rfl, he₂⟩ := compileChild_block hfalse
  exact ⟨chunks.flatten, c₁.flatten, c₂.flatten, r, s₁, _, s₂, _, s₃, hexpr,
    ⟨chunks, account, newVars, hadv, rfl⟩, htrue, he₁.holds, hfalse, he₂.holds⟩

/-- The blocks of an `if` compile to one code each. -/
lemma IfCompiles.unique {fuel : ℕ} {expr : Expr} {trueScope falseScope : Stat} {s : CompilerState}
    {cond trueCode falseCode cond' trueCode' falseCode' : List UInt8}
    (h : IfCompiles fuel expr trueScope falseScope s cond trueCode falseCode)
    (h' : IfCompiles fuel expr trueScope falseScope s cond' trueCode' falseCode') :
    trueCode = trueCode' ∧ falseCode = falseCode' := by
  obtain ⟨r, s₁, em₁, s₂, em₂, s₃, hexpr, -, htrue, hem₁, hfalse, hem₂⟩ := h
  obtain ⟨r', s₁', em₁', s₂', em₂', s₃', hexpr', -, htrue', hem₁', hfalse', hem₂'⟩ := h'
  cases hexpr.symm.trans hexpr'
  cases htrue.symm.trans htrue'
  cases hfalse.symm.trans hfalse'
  exact ⟨hem₁.unique hem₁', hem₂.unique hem₂'⟩

/-- What an `if` appends: nothing behind the condition where the true block is too long, and no
jump where the false one is. -/
lemma IfCompiles.appended {fuel : ℕ} {expr : Expr} {trueScope falseScope : Stat}
    {s s' : CompilerState} {cond trueCode falseCode : List UInt8} {ret : ℤ}
    (hparts : IfCompiles fuel expr trueScope falseScope s cond trueCode falseCode)
    (h : compileIfStatement (compileExpression fuel) expr (compileScope fuel trueScope)
      (compileScope fuel falseScope) s = .ok ret s') :
    Appended s (cond ++ (ifChunks trueCode falseCode).flatten) s' := by
  obtain ⟨-, r, s₁, t₁, t₂, hexpr, ht₁, ht₂, hadv⟩ := compileIfStatement_eq_ok h
  obtain ⟨r', s₁', em₁, s₂, em₂, s₃, hexpr', ⟨chunks, account, newVars, hcond, rfl⟩, htrue, hem₁,
    hfalse, hem₂⟩ := hparts
  cases hexpr.symm.trans hexpr'
  obtain ⟨t₁', c₁, _, _, ht₁', rfl, hadv₁, e₁, rfl, he₁⟩ := compileChild_block htrue
  cases ht₁.symm.trans ht₁'
  obtain ⟨t₂', c₂, _, _, ht₂', rfl, hadv₂, e₂, rfl, he₂⟩ := compileChild_block hfalse
  cases ht₂.symm.trans ht₂'
  obtain rfl := hem₁.unique he₁.holds
  obtain rfl := hem₂.unique he₂.holds
  exact ⟨chunks ++ ifChunks c₁.flatten c₂.flatten, _, _,
    hcond.trans ((hadv _ _ _ hadv₁).2 _ _ _ hadv₂), List.flatten_append⟩

/-- The code of an `if` with short blocks has both jumps. -/
lemma ifChunks_short {trueCode falseCode : List UInt8} (htrue : trueCode.length + 3 ≤ uint16Max)
    (hfalse : falseCode.length ≤ uint16Max) :
    ∃ a b c d, (ifChunks trueCode falseCode).flatten
      = opcodeJez :: a :: b :: (trueCode ++ opcodeJmp :: c :: d :: falseCode) := by
  have hblock : ifTrueData trueCode falseCode
      = trueCode ++ opcodeJmp :: htobe16 (UInt16.ofNat falseCode.length) :=
    if_neg (by omega)
  have hlen : ¬ (ifTrueData trueCode falseCode).length > uint16Max := by
    rw [hblock]
    simp only [htobe16, List.length_append, List.length_cons, List.length_nil]
    omega
  rw [ifChunks, if_neg hlen, hblock]
  simp only [htobe16, List.flatten_cons, List.flatten_nil, List.append_nil, List.append_assoc,
    List.cons_append, List.nil_append]
  exact ⟨_, _, _, _, rfl⟩

/-- The code of an `if` has its full length for short blocks only. -/
lemma short_of_ifChunks {trueCode falseCode : List UInt8}
    (h : (ifChunks trueCode falseCode).flatten.length = trueCode.length + falseCode.length + 6) :
    trueCode.length + 3 ≤ uint16Max ∧ falseCode.length ≤ uint16Max := by
  rw [ifChunks, ifTrueData] at h
  by_cases hfalse : falseCode.length > uint16Max
  · rw [if_pos hfalse] at h
    split at h
    · simp at h
    · simp only [List.flatten_cons, List.flatten_nil, List.append_nil, List.length_cons,
        List.length_append] at h
      omega
  · rw [if_neg hfalse] at h
    split at h
    · simp at h
    · rename_i hlen
      simp only [htobe16, List.length_append, List.length_cons, List.length_nil] at hlen
      omega

/-- The jump over the false block is emitted, or the emitter takes no more. -/
lemma emitIfJmp_run (em : ScopeEmitter) (n : ℕ) (s : CompilerState) :
    (∃ em', emitIfJmp em n s = .ok em' s) ∨ emitIfJmp em n s = .error .fault s := by
  rw [emitIfJmp]
  split
  · exact .inl ⟨em, rfl⟩
  · cases emitterFunc em (opcodeJmp :: htobe16 (UInt16.ofNat n)) with
    | none => exact .inr rfl
    | some out => exact .inl ⟨out.1, rfl⟩

lemma sinkEmitter_run (em : ScopeEmitter) (s : CompilerState) :
    (∃ data, sinkEmitter em s = .ok data s) ∨ sinkEmitter em s = .error .fault s := by
  cases em with
  | unbuffered => exact .inr rfl
  | buffered e =>
    rw [sinkEmitter]
    cases compilerEmitterSink e with
    | none => exact .inr rfl
    | some data => exact .inl ⟨data, rfl⟩

lemma compilerEmit_run (data : List UInt8) (s : CompilerState) :
    (∃ t, compilerEmit data s = .ok 0 t) ∨ compilerEmit data s = .error .fault s := by
  cases hfunc : emitterFunc s.chain.scope.emitter data with
  | none =>
    rw [compilerEmit, estate_bind_of_ok (estate_get_eq s)]
    simp only [hfunc]
    exact .inr rfl
  | some out => exact .inl (compilerEmit_of_emitterFunc hfunc)

/-- An `if` whose parts compile reports success, or its emitters take no more. -/
lemma IfCompiles.run {fuel : ℕ} {expr : Expr} {trueScope falseScope : Stat} {s : CompilerState}
    {cond trueCode falseCode : List UInt8}
    (hparts : IfCompiles fuel expr trueScope falseScope s cond trueCode falseCode) :
    ∃ t, compileIfStatement (compileExpression fuel) expr (compileScope fuel trueScope)
        (compileScope fuel falseScope) s = .ok 0 t ∨
      compileIfStatement (compileExpression fuel) expr (compileScope fuel trueScope)
        (compileScope fuel falseScope) s = .error .fault t := by
  obtain ⟨r, s₁, em₁, s₂, em₂, s₃, hexpr, -, htrue, -, hfalse, -⟩ := hparts
  rw [compileIfStatement, estate_bind_of_ok hexpr, estate_bind_of_ok (estate_get_eq s₁),
    estate_bind_of_ok htrue, estate_bind_of_ok hfalse]
  obtain ⟨em, hjmp⟩ | hjmp := emitIfJmp_run em₁ em₂.size s₃
  swap
  · exact ⟨s₃, .inr (estate_bind_eq_error.mpr (.inl hjmp))⟩
  rw [estate_bind_of_ok hjmp]
  by_cases hlong : em.size > uint16Max
  · rw [if_pos hlong]
    exact ⟨s₃, .inl rfl⟩
  rw [if_neg hlong]
  obtain ⟨trueData, hsink₁⟩ | hsink₁ := sinkEmitter_run em s₃
  swap
  · exact ⟨s₃, .inr (estate_bind_eq_error.mpr (.inl hsink₁))⟩
  rw [estate_bind_of_ok hsink₁]
  obtain ⟨falseData, hsink₂⟩ | hsink₂ := sinkEmitter_run em₂ s₃
  swap
  · exact ⟨s₃, .inr (estate_bind_eq_error.mpr (.inl hsink₂))⟩
  rw [estate_bind_of_ok hsink₂]
  obtain ⟨t, hemit⟩ | hemit := compilerEmit_run
    (opcodeJez :: jumpHi em.size :: jumpLo em.size :: (trueData ++ falseData)) s₃
  · exact ⟨t, .inl (estate_bind_eq_ok.mpr ⟨0, t, hemit, rfl⟩)⟩
  · exact ⟨s₃, .inr (estate_bind_eq_error.mpr (.inl hemit))⟩

/-- It is never refused. -/
lemma IfCompiles.not_refused {fuel : ℕ} {expr : Expr} {trueScope falseScope : Stat}
    {s : CompilerState} {cond trueCode falseCode : List UInt8}
    (hparts : IfCompiles fuel expr trueScope falseScope s cond trueCode falseCode) :
    ¬ Refused (compileIfStatement (compileExpression fuel) expr (compileScope fuel trueScope)
      (compileScope fuel falseScope) s) := by
  obtain ⟨t, hrun | hrun⟩ := hparts.run
  · rw [hrun]
    rintro (⟨format, t', h⟩ | ⟨ret, t', h, hne⟩)
    · cases h
    · cases h
      exact hne rfl
  · rw [hrun]
    rintro (⟨format, t', h⟩ | ⟨ret, t', h, -⟩)
    · cases h
    · cases h

/-- A true block that has no room for its jump is dropped. -/
lemma IfCompiles.dropped {fuel : ℕ} {expr : Expr} {trueScope falseScope : Stat}
    {s : CompilerState} {cond trueCode falseCode : List UInt8}
    (hparts : IfCompiles fuel expr trueScope falseScope s cond trueCode falseCode)
    (htrueLen : uint16Max < trueCode.length + 3) (hfalseLen : falseCode.length ≤ uint16Max) :
    ∃ t, compileIfStatement (compileExpression fuel) expr (compileScope fuel trueScope)
      (compileScope fuel falseScope) s = .ok 0 t := by
  obtain ⟨r, s₁, em₁, s₂, em₂, s₃, hexpr, -, htrue, hem₁, hfalse, hem₂⟩ := hparts
  obtain ⟨t₁, c₁, _, _, -, -, -, e₁, rfl, he₁⟩ := compileChild_block htrue
  obtain ⟨t₂, c₂, _, _, -, -, -, e₂, rfl, he₂⟩ := compileChild_block hfalse
  obtain rfl := hem₁.unique he₁.holds
  obtain rfl := hem₂.unique he₂.holds
  -- the jump is emitted, since it fits on a page
  have hroom : (opcodeJmp :: htobe16 (UInt16.ofNat e₂.size)).length
      ≤ emitterRoom 512 c₁.flatten.length := by
    rw [emitterRoom]
    simp only [htobe16, List.length_cons, List.length_nil]
    omega
  obtain ⟨e₁', hemit, he₁'⟩ := emitterEmitBuffered_holds he₁ hroom
  have hjmp : emitIfJmp (.buffered e₁) e₂.size s₃ = .ok (.buffered e₁') s₃ := by
    rw [emitIfJmp, if_neg (by rw [he₂.size]; omega), emitterFunc, hemit]
    exact rfl
  have hsize : (ScopeEmitter.buffered e₁').size > uint16Max := by
    rw [ScopeEmitter.size, he₁'.size, List.length_append]
    simp only [htobe16, List.length_cons, List.length_nil]
    omega
  refine ⟨s₃, ?_⟩
  rw [compileIfStatement, estate_bind_of_ok hexpr, estate_bind_of_ok (estate_get_eq s₁),
    estate_bind_of_ok htrue, estate_bind_of_ok hfalse, ScopeEmitter.size, estate_bind_of_ok hjmp,
    if_pos hsize]
  exact rfl

/-! ## What a `while` does -/

lemma whileChunk_jumps (cond bodyCode : List UInt8) : ∃ a b c d, whileChunk cond bodyCode
    = cond ++ opcodeJez :: a :: b :: (bodyCode ++ [opcodeRjmp, c, d]) := ⟨_, _, _, _, rfl⟩

/-- A `while` that compiles has the code of its parts. -/
lemma whileCompiles_of_ok {fuel : ℕ} {expr : Expr} {loopScope : Stat} {s s' : CompilerState}
    {ret : ℤ} (h : compileWhileStatement (compileExpression fuel) expr (compileScope fuel loopScope) s
      = .ok ret s') :
    ∃ cond bodyCode a b c d, WhileCompiles fuel expr loopScope s cond bodyCode ∧
      Appended s (cond ++ opcodeJez :: a :: b :: (bodyCode ++ [opcodeRjmp, c, d])) s' := by
  obtain ⟨-, r, s₁, t, hexpr, ht, hadv⟩ := compileWhileStatement_eq_ok h
  obtain ⟨chunks, account, newVars, hcond⟩ := grower_expression fuel expr _ _ _ hexpr
  have hchild := compileChild_of_ok ht
  obtain ⟨t', body, _, _, ht', -, hbody, e, he, hholds⟩ := compileChild_block hchild
  cases ht.symm.trans ht'
  obtain ⟨-, happended⟩ := hadv _ _ _ hcond _ _ _ hbody
  have hcondHolds : s₁.chain.scope.emitter.Holds chunks.flatten := by
    obtain ⟨em, events, m, hem, rfl⟩ := hcond
    obtain ⟨e₁, rfl, -, he₁⟩ := emitChunks_new (by decide) hem
    exact he₁.holds
  obtain ⟨a, b, c, d, hchunk⟩ := whileChunk_jumps chunks.flatten body.flatten
  refine ⟨chunks.flatten, body.flatten, a, b, c, d,
    ⟨r, s₁, _, _, hexpr, hcondHolds, hchild, he ▸ hholds.holds⟩, _, _, _, happended, ?_⟩
  rw [List.flatten_cons, List.flatten_nil, List.append_nil, hchunk]

/-- A body that is too long is refused. -/
lemma WhileCompiles.panics {fuel : ℕ} {expr : Expr} {loopScope : Stat} {s : CompilerState}
    {cond bodyCode : List UInt8} (hparts : WhileCompiles fuel expr loopScope s cond bodyCode)
    (hlong : uint16Max < bodyCode.length) :
    Panics (compileWhileStatement (compileExpression fuel) expr (compileScope fuel loopScope) s) := by
  obtain ⟨r, s₁, em, s₂, hexpr, -, hbody, hem⟩ := hparts
  obtain ⟨t, c, _, _, -, -, -, e, rfl, he⟩ := compileChild_block hbody
  obtain rfl := hem.unique he.holds
  have hsize : (ScopeEmitter.buffered e).size > uint16Max := by
    rw [ScopeEmitter.size, he.size]
    exact hlong
  have hcond : modifyScope (fun scope =>
      { scope with emitter := .buffered (compilerEmitterBufferedNew 256) }) s
        = .ok () (condState s) := rfl
  have hforget : modifyScope (fun scope =>
      { scope with vars := scope.vars.take s.chain.scope.vars.length }) s₁
        = .ok () (forgetVars s₁ s.chain.scope.vars.length) := rfl
  refine ⟨"while: long jump not implemented",
    { s₂ with chain := { s₂.chain with scope :=
      { s₂.chain.scope with emitter := s.chain.scope.emitter } } }, ?_⟩
  rw [compileWhileStatement, estate_bind_of_ok (estate_get_eq s),
    estate_bind_of_ok (estate_get_eq s), estate_bind_of_ok hcond, estate_bind_of_ok hexpr,
    estate_bind_of_ok (estate_get_eq s₁), estate_bind_of_ok hforget, estate_bind_of_ok hbody]
  refine estate_bind_eq_error.mpr (.inr ⟨(), _, rfl, ?_⟩)
  rw [if_pos hsize]
  exact rfl

/-! ## Panics go through -/

lemma Panics.child {pageSize stackSize : ℕ} {body : CompileM Unit} {s : CompilerState}
    (h : Panics (body (childState s pageSize stackSize))) :
    Panics (compileChild pageSize stackSize body s) := by
  rw [compileChild, estate_bind_of_ok (estate_get_eq s)]
  exact panics_bind_of_ok (t := childState s pageSize stackSize) rfl h.bind

/-- A body that is too long, at any nesting level, stops the compiler: where the blocks of each `if`
are short, only a `while` is too long. -/
lemma panics_scope {fuel : ℕ} {stat : Stat} {s : CompilerState}
    (hshort : EveryStat fuel (ShortBlocks fuel) stat s)
    (h : ¬ EveryStat fuel (fun stat s => ¬ Oversize fuel stat s) stat s) :
    Panics (compileScope fuel stat s) := by
  induction stat generalizing s with
  | nil => exact (h trivial).elim
  | expr expr next ih =>
    by_contra hno
    refine h ⟨id, fun ret s' hexpr => ?_⟩
    by_contra hbad
    exact hno (panics_bind_of_ok hexpr (ih (hshort.2 ret s' hexpr) hbad))
  | ifElse expr trueScope falseScope next iht ihf ih =>
    obtain ⟨hhead, hblocks, hnext⟩ := hshort
    by_contra hno
    -- the blocks are short, so what is too long is inside of one of them or behind the `if`
    refine h ⟨?_, fun ret s₁ hexpr => ⟨?_, fun emitter s₂ htrue => ?_⟩, fun ret s' hif => ?_⟩
    · rintro ⟨cond, trueCode, falseCode, hparts, hlong⟩
      obtain ⟨htrue, hfalse⟩ := hhead cond trueCode falseCode hparts
      omega
    · by_contra hbad
      have hblock := iht (hblocks ret s₁ hexpr).1 hbad
      refine hno (Panics.bind ?_)
      rw [compileIfStatement, estate_bind_of_ok hexpr, estate_bind_of_ok (estate_get_eq s₁)]
      exact hblock.child.bind
    · by_contra hbad
      have hblock := ihf ((hblocks ret s₁ hexpr).2 emitter s₂ htrue) hbad
      refine hno (Panics.bind ?_)
      rw [compileIfStatement, estate_bind_of_ok hexpr, estate_bind_of_ok (estate_get_eq s₁),
        estate_bind_of_ok htrue]
      exact hblock.child.bind
    · by_contra hbad
      exact hno (panics_bind_of_ok hif (ih (hnext ret s' hif) hbad))
  | «while» expr loopScope next ihl ih =>
    obtain ⟨-, hblock, hnext⟩ := hshort
    by_contra hno
    refine h ⟨?_, fun ret s₁ hexpr => ?_, fun ret s' hwhile => ?_⟩
    · rintro ⟨cond, bodyCode, hparts, hlong⟩
      exact hno (hparts.panics hlong).bind
    · by_contra hbad
      have hbody := ihl (hblock ret s₁ hexpr) hbad
      refine hno (Panics.bind ?_)
      rw [compileWhileStatement, estate_bind_of_ok (estate_get_eq s),
        estate_bind_of_ok (estate_get_eq s)]
      refine panics_bind_of_ok (t := condState s) rfl (panics_bind_of_ok hexpr ?_)
      rw [estate_bind_of_ok (estate_get_eq s₁)]
      exact panics_bind_of_ok (t := forgetVars s₁ s.chain.scope.vars.length) rfl hbody.child.bind
    · by_contra hbad
      exact hno (panics_bind_of_ok hwhile (ih (hnext ret s' hwhile) hbad))
  | other next => exact (h id).elim
  | notScope stat => exact (h trivial).elim

/-- The scope of a statement alone panics no more than the statement. -/
lemma panics_single {fuel : ℕ} {stat : Stat} {s : CompilerState}
    (h : Panics (compileScope fuel stat.single s)) : Panics (compileStatement fuel stat s) := by
  have hbind : ∀ {x : CompileM ℤ}, Panics ((x >>= fun _ => (pure () : CompileM Unit)) s) →
      Panics (x s) := by
    rintro x ⟨format, t, h⟩
    rcases estate_bind_eq_error.mp h with h | ⟨a, t', -, h⟩
    · exact ⟨format, t, h⟩
    · cases h
  cases stat with
  | nil =>
    obtain ⟨format, t, h⟩ := h
    cases h
  | expr expr next => exact hbind h
  | ifElse expr trueScope falseScope next => exact hbind h
  | «while» expr loopScope next => exact hbind h
  | other next => exact ⟨_, s, rfl⟩
  | notScope stat =>
    obtain ⟨format, t, h⟩ := h
    cases h

/-! ## The theorem -/

/-- Short blocks are complete. -/
lemma complete_of_short {fuel : ℕ} {stat : Stat} {s s' : CompilerState}
    (hshort : ShortBlocks fuel stat s) (h : compileStatement fuel stat s = .ok 0 s') :
    Complete fuel stat s s' := by
  cases stat with
  | ifElse expr trueScope falseScope next =>
    obtain ⟨cond, trueCode, falseCode, hparts⟩ := ifCompiles_of_ok h
    obtain ⟨htrue, hfalse⟩ := hshort cond trueCode falseCode hparts
    obtain ⟨a, b, c, d, hcode⟩ := ifChunks_short htrue hfalse
    exact ⟨cond, trueCode, falseCode, a, b, c, d, hparts, hcode ▸ hparts.appended h⟩
  | «while» expr loopScope next => exact whileCompiles_of_ok h
  | nil => trivial
  | expr expr next => trivial
  | other next => trivial
  | notScope stat => trivial

/-- With short blocks all the way down, the blocks are kept. -/
lemma kept_of_short {fuel : ℕ} {stat : Stat} {s : CompilerState}
    (h : EveryStat fuel (ShortBlocks fuel) stat.single s) : BlocksKept fuel stat s :=
  ⟨fun hlong => .inl (panics_single (panics_scope h hlong)),
    fun _ _ => h.mono fun _ _ hshort _ hok => complete_of_short hshort hok⟩

/-- An `if` that keeps its blocks has short ones. -/
lemma short_of_kept {fuel : ℕ} {stat : Stat} {s : CompilerState} (h : BlocksKept fuel stat s) :
    ShortBlocks fuel stat s := by
  cases stat with
  | ifElse expr trueScope falseScope next =>
    obtain ⟨hrefused, hcomplete⟩ := h
    intro cond trueCode falseCode hparts
    have hsize : trueCode.length ≤ uint16Max ∧ falseCode.length ≤ uint16Max := by
      by_contra hlong
      -- the success that an oversize block is answered with
      refine hparts.not_refused (hrefused fun hall => hall.1 ?_)
      exact ⟨cond, trueCode, falseCode, hparts, by omega⟩
    by_contra hno
    obtain ⟨t, hrun⟩ := hparts.dropped (by omega) hsize.2
    obtain ⟨cond', trueCode', falseCode', a, b, c, d, hparts', happended⟩ :=
      (hcomplete t hrun).1 t hrun
    obtain ⟨rfl, rfl⟩ := hparts.unique hparts'
    have hlen := (hparts'.appended hrun).length_eq happended
    simp only [List.length_append, List.length_cons] at hlen
    exact hno (short_of_ifChunks (by omega))
  | nil => trivial
  | expr expr next => trivial
  | «while» expr loopScope next => trivial
  | other next => trivial
  | notScope stat => trivial

/-- The statement and those inside of it, at any nesting level, keep their blocks or are refused
exactly when the true block of each `if` among them has at most `UINT16_MAX - 3` bytes and the false
one at most `UINT16_MAX`. -/
theorem blocks_kept_iff (fuel : ℕ) (stat : Stat) (s : CompilerState) :
    EveryStat fuel (BlocksKept fuel) stat.single s ↔
      EveryStat fuel (ShortBlocks fuel) stat.single s := by
  constructor
  · exact fun h => h.mono fun _ _ => short_of_kept
  · intro h
    have hsingle : ∀ stat s, ShortBlocks fuel stat s → ShortBlocks fuel stat.single s := by
      intro stat s hshort
      cases stat <;> exact hshort
    exact (h.inside hsingle).mono fun _ _ => kept_of_short

/-- A block of `n` statements of five bytes each. -/
def literals (n : ℕ) : Stat := (Stat.expr (.literalInt 0))^[n] .nil

lemma compileScope_literals (fuel n : ℕ) {s : CompilerState}
    (htakes : s.chain.scope.emitter.Takes) :
    ∃ s', compileScope (fuel + 1) (literals n) s = .ok () s' ∧
      EmittedCode s (List.replicate n (.iconst 0)) s' := by
  induction n generalizing s with
  | zero => exact ⟨s, rfl, Emitted.refl s⟩
  | succ n ih =>
    obtain ⟨ret, s₁, hexpr⟩ : ∃ ret s₁, compileExpression (fuel + 1) (.literalInt 0) s = .ok ret s₁ :=
      emitCounted_succeeds htakes (.iconst 0) _
    obtain ⟨-, he⟩ := compiles_literalInt [] 0 (fuel + 1) s s₁ ret (fun _ _ h => by cases h) hexpr
    obtain ⟨s', hrun, he'⟩ := ih (Emitted.takes he htakes)
    refine ⟨s', ?_, he.trans he'⟩
    rw [literals, Function.iterate_succ_apply']
    exact estate_bind_eq_ok.mpr ⟨ret, s₁, hexpr, hrun⟩

/-- The blocks of an `if` with such a true block. -/
lemma ifCompiles_literals (n : ℕ) {s : CompilerState} (htakes : s.chain.scope.emitter.Takes) :
    ∃ cond trueCode falseCode,
      IfCompiles 1 (.literalInt 1) (literals n) .nil s cond trueCode falseCode ∧
        trueCode.length = 5 * n := by
  obtain ⟨ret, s₁, hexpr⟩ : ∃ ret s₁, compileExpression 1 (.literalInt 1) s = .ok ret s₁ :=
    emitCounted_succeeds htakes (.iconst 1) _
  obtain ⟨-, he⟩ := compiles_literalInt [] 1 1 s s₁ ret (fun _ _ h => by cases h) hexpr
  obtain ⟨t, hrun, ht⟩ := compileScope_literals 0 n
    (s := childState s₁ 512 s₁.chain.scope.stackSize) (takes_new (by decide))
  have hchild := compileChild_of_ok hrun
  obtain ⟨em, events, hem, rfl⟩ := ht
  obtain ⟨e, rfl, -, hholds⟩ := emitChunks_new (by decide) hem
  refine ⟨_, _, [], ⟨ret, s₁, _, _, _, _, hexpr, ⟨_, _, _, he.advanced, rfl⟩, hchild,
    hholds.holds, compileChild_of_ok rfl, (emitterHolds_new (by decide)).holds⟩, ?_⟩
  simp [chunksOf, Instr.encode, Instr.operand, htobe32, bytesLE32, Nat.mul_comm]

/-- A true block of 65540 bytes is dropped. -/
theorem blocks_not_kept :
    ¬ BlocksKept 1 (.ifElse (.literalInt 1) (literals 13108) .nil .nil) (compilerInit true) := by
  intro h
  obtain ⟨cond, trueCode, falseCode, hparts, hlen⟩ :=
    ifCompiles_literals 13108 (s := compilerInit true) trivial
  obtain ⟨htrue, -⟩ := short_of_kept h cond trueCode falseCode hparts
  rw [hlen, uint16Max] at htrue
  omega

end PhantomShell
