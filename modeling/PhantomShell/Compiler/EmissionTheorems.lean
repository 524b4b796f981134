import PhantomShell.Compiler.Calls
import PhantomShell.EmitterTheorems

/-!
# The compiler appends

What a run of the compiler does to its state: it appends chunks to the emitter of the current
scope, declares variables and counts the stack (`Advanced`), and changes nothing else.
-/

namespace PhantomShell

/-! ## Emission -/

/-- A sequence of chunks on the emitter of a scope. -/
def emitChunks : ScopeEmitter → List (List UInt8) → Option (ScopeEmitter × List Event)
  | emitter, [] => some (emitter, [])
  | emitter, chunk :: chunks => do
    let (emitter, events) ← emitterFunc emitter chunk
    let (emitter, events') ← emitChunks emitter chunks
    some (emitter, events ++ events')

/-- `stack_size` and `stack_max_size` after a sequence of increments. -/
def accountAll : ℕ × ℕ → List ℤ → ℕ × ℕ
  | account, [] => account
  | (size, maxSize), d :: ds =>
    let size' := ((size + d) % 2 ^ 64).toNat
    accountAll (size', max maxSize size') ds

lemma emitChunks_append (emitter : ScopeEmitter) (as bs : List (List UInt8)) :
    emitChunks emitter (as ++ bs) = (emitChunks emitter as).bind fun r =>
      (emitChunks r.1 bs).map fun r' => (r'.1, r.2 ++ r'.2) := by
  induction as generalizing emitter with
  | nil =>
    cases h : emitChunks emitter bs <;> simp [emitChunks, h]
  | cons chunk as ih =>
    rw [List.cons_append, emitChunks, emitChunks]
    cases emitterFunc emitter chunk with
    | none => rfl
    | some r =>
      simp only [Option.bind_eq_bind, Option.bind_some, ih]
      cases emitChunks r.1 as with
      | none => rfl
      | some r₁ =>
        simp only [Option.bind_some]
        cases emitChunks r₁.1 bs with
        | none => rfl
        | some r₂ => simp

lemma accountAll_append (account : ℕ × ℕ) (as bs : List ℤ) :
    accountAll account (as ++ bs) = accountAll (accountAll account as) bs := by
  induction as generalizing account with
  | nil => rfl
  | cons d as ih => exact ih _

/-- A chunk list on a buffered emitter is a run of the byte log. -/
lemma emitChunks_buffered (e : BytecodeEmitter) (chunks : List (List UInt8)) :
    emitChunks (.buffered e) chunks
      = (emitAll e chunks).map fun e => (ScopeEmitter.buffered e, []) := by
  induction chunks generalizing e with
  | nil => rfl
  | cons chunk chunks ih =>
    rw [emitChunks, emitterFunc, emitAll, List.foldlM_cons]
    cases emitterEmitBuffered e chunk with
    | none => rfl
    | some e' =>
      simp only [Option.map_some, Option.bind_eq_bind, Option.bind_some, ih]
      change ((emitAll e' chunks).map _).bind _ = (emitAll e' chunks).map _
      cases emitAll e' chunks <;> rfl

/-- A chunk list on an unbuffered emitter is executed chunk by chunk. -/
lemma emitChunks_unbuffered (chunks : List (List UInt8)) :
    emitChunks .unbuffered chunks = some (.unbuffered, chunks.map .execute) := by
  induction chunks with
  | nil => rfl
  | cons chunk chunks ih => simp [emitChunks, emitterFunc, ih]

/-- The state with another emitter and stack accounting for the current scope, more events
and more variables. -/
def CompilerState.moved (s : CompilerState) (emitter : ScopeEmitter) (account : ℕ × ℕ)
    (events : List Event) (newVars : List ScopeVar) (varsMaxSize : ℕ) : CompilerState :=
  { s with
    chain := { s.chain with
      scope := { s.chain.scope with
        emitter := emitter
        stackSize := account.1
        vars := s.chain.scope.vars ++ newVars }
      varsMaxSize := varsMaxSize
      stackMaxSize := account.2 }
    events := s.events ++ events }

/-- The stack accounting of the current scope. -/
def CompilerState.account (s : CompilerState) : ℕ × ℕ :=
  (s.chain.scope.stackSize, s.chain.stackMaxSize)

/-- From `s` the chunks were emitted, the variables declared and the stack counted up to
`account`, and nothing else was done. -/
def Advanced (s : CompilerState) (chunks : List (List UInt8)) (account : ℕ × ℕ)
    (newVars : List ScopeVar) (s' : CompilerState) : Prop :=
  ∃ emitter events varsMaxSize,
    emitChunks s.chain.scope.emitter chunks = some (emitter, events) ∧
      s' = s.moved emitter account events newVars varsMaxSize

/-- From `s` the chunks were emitted and the increments counted, and nothing else was done. -/
def Emitted (s : CompilerState) (chunks : List (List UInt8)) (incs : List ℤ)
    (s' : CompilerState) : Prop :=
  ∃ emitter events, emitChunks s.chain.scope.emitter chunks = some (emitter, events) ∧
    s' = s.moved emitter (accountAll s.account incs) events [] s.chain.varsMaxSize

lemma Emitted.advanced {s s' : CompilerState} {chunks : List (List UInt8)} {incs : List ℤ}
    (h : Emitted s chunks incs s') : Advanced s chunks (accountAll s.account incs) [] s' := by
  obtain ⟨emitter, events, hem, rfl⟩ := h
  exact ⟨emitter, events, _, hem, rfl⟩

lemma Advanced.account_eq {s s' : CompilerState} {chunks : List (List UInt8)} {account : ℕ × ℕ}
    {newVars : List ScopeVar} (h : Advanced s chunks account newVars s') :
    s'.account = account := by
  obtain ⟨_, _, _, -, rfl⟩ := h
  rfl

lemma Advanced.refl (s : CompilerState) : Advanced s [] s.account [] s :=
  ⟨_, [], s.chain.varsMaxSize, rfl, by simp [CompilerState.moved, CompilerState.account]⟩

lemma Advanced.trans {s s₁ s₂ : CompilerState} {as bs : List (List UInt8)} {a b : ℕ × ℕ}
    {vs ws : List ScopeVar} (h₁ : Advanced s as a vs s₁) (h₂ : Advanced s₁ bs b ws s₂) :
    Advanced s (as ++ bs) b (vs ++ ws) s₂ := by
  obtain ⟨e₁, ev₁, m₁, he₁, rfl⟩ := h₁
  obtain ⟨e₂, ev₂, m₂, he₂, rfl⟩ := h₂
  refine ⟨e₂, ev₁ ++ ev₂, m₂, ?_, ?_⟩
  · simp only [CompilerState.moved] at he₂
    simp [emitChunks_append, he₁, he₂]
  · simp [CompilerState.moved]

lemma Emitted.refl (s : CompilerState) : Emitted s [] [] s :=
  ⟨_, [], rfl, by simp [CompilerState.moved, accountAll, CompilerState.account]⟩

lemma Emitted.trans {s s₁ s₂ : CompilerState} {as bs : List (List UInt8)} {is js : List ℤ}
    (h₁ : Emitted s as is s₁) (h₂ : Emitted s₁ bs js s₂) : Emitted s (as ++ bs) (is ++ js) s₂ := by
  obtain ⟨e₁, ev₁, he₁, rfl⟩ := h₁
  obtain ⟨e₂, ev₂, he₂, rfl⟩ := h₂
  refine ⟨e₂, ev₁ ++ ev₂, ?_, ?_⟩
  · simp only [CompilerState.moved] at he₂
    simp [emitChunks_append, he₁, he₂]
  · simp [CompilerState.moved, accountAll_append, CompilerState.account]

lemma Emitted.lookup {s s' : CompilerState} {chunks : List (List UInt8)} {incs : List ℤ}
    (h : Emitted s chunks incs s') (name : CStr) : s'.chain.lookup name = s.chain.lookup name := by
  obtain ⟨e, ev, -, rfl⟩ := h
  simp only [ScopeChain.lookup, CompilerState.moved, List.append_nil]
  unfold frameLookupVarByName
  rfl

/-- `compiler_emit` of some bytes. -/
lemma compilerEmit_eq_ok {s s' : CompilerState} {data : List UInt8} {ret : ℤ}
    (h : compilerEmit data s = .ok ret s') : ret = 0 ∧ Emitted s [data] [] s' := by
  simp only [compilerEmit, estate_bind_eq_ok, estate_get_eq_ok] at h
  obtain ⟨t, u, ⟨rfl, rfl⟩, h⟩ := h
  cases hem : emitterFunc s.chain.scope.emitter data with
  | none =>
    simp only [hem, estate_throw_eq_ok] at h
  | some r =>
    obtain ⟨emitter, events⟩ := r
    simp only [hem, modifyScope, estate_bind_eq_ok, estate_modify_eq_ok, estate_pure_eq_ok] at h
    obtain ⟨-, t₁, rfl, -, t₂, rfl, rfl, rfl⟩ := h
    refine ⟨rfl, emitter, events, ?_, ?_⟩
    · simp [emitChunks, hem]
    · simp [CompilerState.moved, accountAll, CompilerState.account]

/-- An instruction, counted and emitted. -/
lemma emitCounted_eq_ok {s s' : CompilerState} {data : List UInt8} {d ret : ℤ}
    (h : (frameIncrementStackSize d >>= fun _ => compilerEmit data) s = .ok ret s') :
    ret = 0 ∧ Emitted s [data] [d] s' := by
  simp only [estate_bind_eq_ok, frameIncrementStackSize, estate_modify_eq_ok] at h
  obtain ⟨-, t, rfl, h⟩ := h
  obtain ⟨hret, emitter, events, hem, rfl⟩ := compilerEmit_eq_ok h
  exact ⟨hret, emitter, events, hem, rfl⟩

/-! ## Bytes -/

/-- The emitter of the current scope got the bytes. -/
def Appended (s : CompilerState) (code : List UInt8) (s' : CompilerState) : Prop :=
  ∃ chunks account newVars, Advanced s chunks account newVars s' ∧ chunks.flatten = code

/-- The number of bytes that were appended can be told from the states. -/
lemma Appended.length_eq {s s' : CompilerState} {a b : List UInt8} (ha : Appended s a s')
    (hb : Appended s b s') : a.length = b.length := by
  obtain ⟨chunks, account, newVars, ⟨emitter, events, m, hem, rfl⟩, rfl⟩ := ha
  obtain ⟨chunks', account', newVars', ⟨emitter', events', m', hem', hs⟩, rfl⟩ := hb
  have hemitter : emitter = emitter' := congrArg (·.chain.scope.emitter) hs
  have hevents : events = events' := List.append_cancel_left (congrArg (·.events) hs)
  subst hemitter hevents
  cases hscope : s.chain.scope.emitter with
  | unbuffered =>
    rw [hscope, emitChunks_unbuffered] at hem hem'
    cases hem
    simp only [Option.some.injEq, Prod.mk.injEq, true_and] at hem'
    rw [List.map_injective_iff.mpr (fun x y h => Event.execute.inj h) hem']
  | buffered e =>
    rw [hscope, emitChunks_buffered, Option.map_eq_some_iff] at hem hem'
    obtain ⟨e₁, he₁, h₁⟩ := hem
    obtain ⟨e₂, he₂, h₂⟩ := hem'
    cases h₁
    cases h₂
    have := emitAll_size he₁
    have := emitAll_size he₂
    omega

/-! ## Stops -/

/-- `compiler_panic` -/
def Panics {α : Type} (r : EStateM.Result CompileStop CompilerState α) : Prop :=
  ∃ format s, r = .error (.panic format) s

/-- A panic or an error code. -/
def Refused (r : EStateM.Result CompileStop CompilerState ℤ) : Prop :=
  Panics r ∨ ∃ ret s, r = .ok ret s ∧ ret ≠ 0

lemma Panics.bind {α β : Type} {x : CompileM α} {f : α → CompileM β} {s : CompilerState}
    (h : Panics (x s)) : Panics ((x >>= f) s) := by
  obtain ⟨format, t, h⟩ := h
  exact ⟨format, t, estate_bind_eq_error.mpr (.inl h)⟩

lemma panics_bind_of_ok {α β : Type} {x : CompileM α} {f : α → CompileM β} {a : α}
    {s t : CompilerState} (hx : x s = .ok a t) (h : Panics (f a t)) : Panics ((x >>= f) s) := by
  rwa [estate_bind_of_ok hx]

/-! ## Scopes inside a scope -/

/-- A buffered emitter that was fresh holds what was emitted. -/
lemma emitChunks_new {pageSize : ℕ} (hp : 0 < pageSize) {chunks : List (List UInt8)}
    {emitter : ScopeEmitter} {events : List Event}
    (h : emitChunks (.buffered (compilerEmitterBufferedNew pageSize)) chunks
      = some (emitter, events)) :
    ∃ e, emitter = .buffered e ∧ events = [] ∧ EmitterHolds pageSize e chunks.flatten := by
  rw [emitChunks_buffered, Option.map_eq_some_iff] at h
  obtain ⟨e, he, h⟩ := h
  cases h
  exact ⟨e, rfl, rfl, emitAll_new hp he⟩

/-- Behind a scope its emitter holds the chunks, and of the rest only the maxima have
changed. -/
lemma compileChild_advanced {s s' : CompilerState} {pageSize stackSize : ℕ} (hp : 0 < pageSize)
    {body : CompileM Unit} {emitter : ScopeEmitter}
    (h : compileChild pageSize stackSize body s = .ok emitter s') :
    ∃ t, body (childState s pageSize stackSize) = .ok () t ∧ s' = t.leave s ∧
      ∀ chunks account newVars, Advanced (childState s pageSize stackSize) chunks account newVars t →
        emitChunks (.buffered (compilerEmitterBufferedNew pageSize)) chunks = some (emitter, []) ∧
          Advanced s [] (s.chain.scope.stackSize, account.2) [] s' := by
  obtain ⟨t, hbody, rfl, rfl⟩ := compileChild_eq_ok h
  refine ⟨t, hbody, rfl, ?_⟩
  rintro chunks account newVars ⟨emitter, events, m, hem, rfl⟩
  obtain ⟨e, rfl, rfl, -⟩ := emitChunks_new hp hem
  refine ⟨hem, s.chain.scope.emitter, [], m, rfl, ?_⟩
  simp [CompilerState.moved, CompilerState.leave, childState]

/-! ## Every run appends -/

/-- Chunks were emitted, variables declared and the stack counted. -/
def Grows (s s' : CompilerState) : Prop :=
  ∃ chunks account newVars, Advanced s chunks account newVars s'

/-- All successful runs of the computation append. -/
def Grower {α : Type} (m : CompileM α) : Prop := ∀ s a s', m s = .ok a s' → Grows s s'

lemma Grows.refl (s : CompilerState) : Grows s s := ⟨[], _, [], Advanced.refl s⟩

lemma Grows.trans {s s₁ s₂ : CompilerState} (h₁ : Grows s s₁) (h₂ : Grows s₁ s₂) : Grows s s₂ := by
  obtain ⟨_, _, _, h₁⟩ := h₁
  obtain ⟨_, _, _, h₂⟩ := h₂
  exact ⟨_, _, _, h₁.trans h₂⟩

lemma Emitted.grows {s s' : CompilerState} {chunks : List (List UInt8)} {incs : List ℤ}
    (h : Emitted s chunks incs s') : Grows s s' := ⟨_, _, _, h.advanced⟩

/-- `frame_define_var` -/
lemma frameDefineVar_eq_ok {s s' : CompilerState} {t : StaticType} {name : CStr} {var : ScopeVar}
    (h : frameDefineVar t name s = .ok var s') :
    s.chain.scope.vars.length < s.chain.scope.varsCap ∧
      var = ⟨t, name, UInt8.ofNat (s.chain.scope.vars.length + s.chain.scope.varsOff)⟩ ∧
      s' = s.moved s.chain.scope.emitter s.account [] [var]
        (max s.chain.varsMaxSize (s.chain.scope.vars.length + 1 + s.chain.scope.varsOff)) := by
  simp only [frameDefineVar, estate_bind_eq_ok, estate_get_eq_ok] at h
  obtain ⟨_, _, ⟨rfl, rfl⟩, h⟩ := h
  split at h
  · exact (estate_throw_eq_ok.mp h).elim
  · simp only [estate_bind_eq_ok, estate_modify_eq_ok, estate_pure_eq_ok] at h
    obtain ⟨_, _, rfl, rfl, rfl⟩ := h
    exact ⟨by omega, rfl, by simp [CompilerState.moved, CompilerState.account]⟩

/-! ## Statements -/

/-- The byte is shifted out before it is written. -/
lemma jumpHi_eq (n : ℕ) : jumpHi n = 0 := by
  have := (UInt8.ofNat n).toNat_lt
  unfold jumpHi
  rw [Nat.shiftRight_eq_div_pow, Nat.div_eq_of_lt (by omega)]
  rfl

/-- The true block with the jump over the false block, where that has a distance. -/
def ifTrueData (trueData falseData : List UInt8) : List UInt8 :=
  if falseData.length > uint16Max then trueData
  else trueData ++ opcodeJmp :: htobe16 (UInt16.ofNat falseData.length)

/-- What `compile_if_statement` emits behind the condition: one chunk, or nothing if the true
block is too long. -/
def ifChunks (trueData falseData : List UInt8) : List (List UInt8) :=
  let block := ifTrueData trueData falseData
  if block.length > uint16Max then []
  else [opcodeJez :: jumpHi block.length :: jumpLo block.length :: (block ++ falseData)]

/-- What `compile_while_statement` emits: one chunk with the condition. -/
def whileChunk (exprData bodyData : List UInt8) : List UInt8 :=
  let sumSize := exprData.length + bodyData.length + 3 + 3
  exprData ++ opcodeJez :: jumpHi (bodyData.length + 3) :: jumpLo (bodyData.length + 3) ::
    (bodyData ++ [opcodeRjmp, jumpHi sumSize, jumpLo sumSize])

lemma sinkEmitter_eq_ok {e : BytecodeEmitter} {p : ℕ} {log bytes : List UInt8}
    (he : EmitterHolds p e log) {s s' : CompilerState}
    (h : sinkEmitter (.buffered e) s = .ok bytes s') : bytes = log ∧ s = s' := by
  simp only [sinkEmitter, compilerEmitterSink_eq he] at h
  obtain ⟨rfl, rfl⟩ := estate_pure_eq_ok.mp h
  exact ⟨rfl, rfl⟩

/-- The true block with its jump is one more run of the byte log. -/
lemma emitIfJmp_eq_ok {pageSize falseSize : ℕ} (hp : 0 < pageSize) {chunks : List (List UInt8)}
    {emitter emitter' : ScopeEmitter} {events : List Event} {s s' : CompilerState}
    {falseData : List UInt8} (hfalse : falseSize = falseData.length)
    (hem : emitChunks (.buffered (compilerEmitterBufferedNew pageSize)) chunks
      = some (emitter, events))
    (h : emitIfJmp emitter falseSize s = .ok emitter' s') :
    s = s' ∧ ∃ e, emitter' = .buffered e ∧
      EmitterHolds pageSize e (ifTrueData chunks.flatten falseData) := by
  subst hfalse
  unfold emitIfJmp at h
  unfold ifTrueData
  split at h
  · obtain ⟨rfl, rfl⟩ := estate_pure_eq_ok.mp h
    rw [if_pos (by assumption)]
    obtain ⟨e, rfl, -, he⟩ := emitChunks_new hp hem
    exact ⟨rfl, e, rfl, he⟩
  · rw [if_neg (by assumption)]
    cases hjmp : emitterFunc emitter (opcodeJmp :: htobe16 (UInt16.ofNat falseData.length)) with
    | none =>
      simp only [hjmp, estate_throw_eq_ok] at h
    | some r =>
      simp only [hjmp, estate_pure_eq_ok] at h
      obtain ⟨rfl, rfl⟩ := h
      have hall : emitChunks (.buffered (compilerEmitterBufferedNew pageSize))
          (chunks ++ [opcodeJmp :: htobe16 (UInt16.ofNat falseData.length)])
            = some (r.1, events ++ r.2) := by
        simp [emitChunks_append, hem, emitChunks, hjmp]
      obtain ⟨e, he, -, hholds⟩ := emitChunks_new hp hall
      exact ⟨rfl, e, he, by simpa using hholds⟩

/-- `compile_if_statement`: the runs of its parts, and what it emits when these append. -/
lemma compileIfStatement_eq_ok {compile : Expr → CompileM ℤ} {expr : Expr}
    {trueScope falseScope : CompileM Unit} {s s' : CompilerState} {ret : ℤ}
    (h : compileIfStatement compile expr trueScope falseScope s = .ok ret s') :
    ret = 0 ∧ ∃ r s₁ t₁ t₂, compile expr s = .ok r s₁ ∧
      trueScope (childState s₁ 512 s₁.chain.scope.stackSize) = .ok () t₁ ∧
      falseScope (childState (t₁.leave s₁) 512 s₁.chain.scope.stackSize) = .ok () t₂ ∧
      ∀ trueChunks account newVars,
        Advanced (childState s₁ 512 s₁.chain.scope.stackSize) trueChunks account newVars t₁ →
        Advanced s₁ [] (s₁.chain.scope.stackSize, account.2) [] (t₁.leave s₁) ∧
        ∀ falseChunks account' newVars',
          Advanced (childState (t₁.leave s₁) 512 s₁.chain.scope.stackSize) falseChunks account'
            newVars' t₂ →
          Advanced s₁ (ifChunks trueChunks.flatten falseChunks.flatten)
            (s₁.chain.scope.stackSize, account'.2) [] s' := by
  simp only [compileIfStatement, estate_bind_eq_ok, estate_get_eq_ok] at h
  obtain ⟨r, s₁, hexpr, _, _, ⟨rfl, rfl⟩, trueEmitter, s₂, htrue, falseEmitter, s₃, hfalse,
    trueEmitter', s₄, hjmp, h⟩ := h
  obtain ⟨t₁, ht₁, rfl, htrue⟩ := compileChild_advanced (by decide) htrue
  obtain ⟨t₂, ht₂, -, hfalse⟩ := compileChild_advanced (by decide) hfalse
  have hret : ret = 0 := by
    split at h
    · exact (estate_pure_eq_ok.mp h).1.symm
    · simp only [estate_bind_eq_ok, estate_pure_eq_ok] at h
      obtain ⟨_, _, _, _, _, _, _, _, _, rfl, _⟩ := h
      rfl
  refine ⟨hret, r, s₁, t₁, t₂, hexpr, ht₁, ht₂, ?_⟩
  intro trueChunks account newVars hadv₁
  obtain ⟨hem₁, hadv₁⟩ := htrue _ _ _ hadv₁
  refine ⟨hadv₁, ?_⟩
  intro falseChunks account' newVars' hadv₂
  obtain ⟨hem₂, hadv₂⟩ := hfalse _ _ _ hadv₂
  obtain ⟨falseE, rfl, -, hfalseE⟩ := emitChunks_new (by decide) hem₂
  obtain ⟨rfl, trueE, rfl, htrueE⟩ := emitIfJmp_eq_ok (by decide) hfalseE.size hem₁ hjmp
  simp only [ScopeEmitter.size, htrueE.size] at h
  unfold ifChunks
  have hboth : Advanced s₁ [] (s₁.chain.scope.stackSize, account'.2) [] s₃ := by
    exact hadv₁.trans hadv₂
  split at h
  · -- the true block is too long: nothing of the statement is emitted
    rw [if_pos (by assumption)]
    obtain ⟨-, rfl⟩ := estate_pure_eq_ok.mp h
    exact hboth
  · rw [if_neg (by assumption)]
    simp only [estate_bind_eq_ok, estate_pure_eq_ok] at h
    obtain ⟨trueData, _, hsink₁, falseData, _, hsink₂, _, _, hemit, -, rfl⟩ := h
    obtain ⟨rfl, rfl⟩ := sinkEmitter_eq_ok htrueE hsink₁
    obtain ⟨rfl, rfl⟩ := sinkEmitter_eq_ok hfalseE hsink₂
    have hemit := (compilerEmit_eq_ok hemit).2.advanced
    rw [accountAll, hboth.account_eq] at hemit
    exact hboth.trans hemit

/-- `compile_while_statement`: the runs of its parts, and what it emits when these append. -/
lemma compileWhileStatement_eq_ok {compile : Expr → CompileM ℤ} {expr : Expr}
    {loopScope : CompileM Unit} {s s' : CompilerState} {ret : ℤ}
    (h : compileWhileStatement compile expr loopScope s = .ok ret s') :
    ret = 0 ∧ ∃ r s₁ t, compile expr (condState s) = .ok r s₁ ∧
      loopScope (childState (forgetVars s₁ s.chain.scope.vars.length) 512 0) = .ok () t ∧
      ∀ exprChunks account newVars, Advanced (condState s) exprChunks account newVars s₁ →
        ∀ bodyChunks account' newVars',
          Advanced (childState (forgetVars s₁ s.chain.scope.vars.length) 512 0) bodyChunks account'
            newVars' t →
          bodyChunks.flatten.length ≤ uint16Max ∧
          Advanced s [whileChunk exprChunks.flatten bodyChunks.flatten] (account.1, account'.2) []
            s' := by
  simp only [compileWhileStatement, estate_bind_eq_ok, estate_get_eq_ok, modifyScope,
    estate_modify_eq_ok] at h
  obtain ⟨_, _, ⟨rfl, rfl⟩, _, _, ⟨rfl, rfl⟩, _, _, rfl, r, s₁, hexpr, _, _, ⟨rfl, rfl⟩, _, _, rfl,
    bodyEmitter, s₂, hbody, _, s₃, rfl, h⟩ := h
  obtain ⟨t, ht, -, hbody⟩ := compileChild_advanced (by decide) hbody
  -- above `UINT16_MAX` the compiler panics, so the run would not have ended
  have hsmall : ¬ bodyEmitter.size > uint16Max := by
    intro hbig
    rw [if_pos hbig] at h
    exact estate_throw_eq_ok.mp h
  rw [if_neg hsmall] at h
  simp only [estate_bind_eq_ok, estate_pure_eq_ok] at h
  obtain ⟨exprData, s₄, hsink₁, bodyData, s₅, hsink₂, _, _, hemit, rfl, rfl⟩ := h
  refine ⟨rfl, r, s₁, t, hexpr, ht, ?_⟩
  rintro exprChunks account newVars ⟨em, ev, m, hem, rfl⟩ bodyChunks account' newVars' hadv
  obtain ⟨exprE, rfl, rfl, hexprE⟩ := emitChunks_new (by decide) hem
  obtain ⟨hem', em', ev', m', hnil, rfl⟩ := hbody _ _ _ hadv
  obtain ⟨bodyE, rfl, -, hbodyE⟩ := emitChunks_new (by decide) hem'
  obtain ⟨rfl, rfl⟩ := sinkEmitter_eq_ok hexprE hsink₁
  obtain ⟨rfl, rfl⟩ := sinkEmitter_eq_ok hbodyE hsink₂
  cases hnil
  refine ⟨?_, ?_⟩
  · simpa [ScopeEmitter.size, hbodyE.size] using hsmall
  · obtain ⟨em₂, ev₂, hem₂, rfl⟩ := (compilerEmit_eq_ok hemit).2
    simp only [CompilerState.moved, condState, ScopeEmitter.size, hexprE.size, hbodyE.size] at hem₂
    refine ⟨em₂, ev₂, m', hem₂, ?_⟩
    simp [CompilerState.moved, condState, CompilerState.account, accountAll]

/-- Across the steps of the compiler the state grows. -/
lemma growsRule : CompileRule Grows where
  refl := Grows.refl
  trans := Grows.trans
  emit := fun _ _ _ _ h => (compilerEmit_eq_ok h).2.grows
  increment := by
    intro d s _ s' h
    obtain rfl := estate_modify_eq_ok.mp h
    refine ⟨[], accountAll s.account [d], [], s.chain.scope.emitter, [], s.chain.varsMaxSize, rfl,
      ?_⟩
    simp [CompilerState.moved, accountAll, CompilerState.account]
  define := by
    intro s s' t name var _ h
    obtain ⟨-, -, rfl⟩ := frameDefineVar_eq_ok h
    exact ⟨[], _, [var], _, [], _, rfl, rfl⟩
  child := by
    rintro s t stackSize ⟨chunks, account, newVars, emitter, events, m, hem, rfl⟩
    obtain ⟨e, rfl, rfl, -⟩ := emitChunks_new (by decide) hem
    refine ⟨[], (s.chain.scope.stackSize, account.2), [], s.chain.scope.emitter, [], m, rfl, ?_⟩
    simp [CompilerState.moved, CompilerState.leave, childState]
  loop := by
    rintro s s₁ t ⟨chunks, account, newVars, emitter, events, m, hem, rfl⟩
      ⟨chunks', account', newVars', emitter', events', m', hem', rfl⟩
    obtain ⟨e, rfl, rfl, -⟩ := emitChunks_new (by decide) hem
    obtain ⟨e', rfl, rfl, -⟩ := emitChunks_new (by decide) hem'
    refine ⟨[], (account.1, account'.2), [], s.chain.scope.emitter, [], m', rfl, ?_⟩
    simp [CompilerState.moved, CompilerState.leave, CompilerState.withEmitter, childState,
      forgetVars, condState]

/-- Compiling an expression appends. -/
theorem grower_expression (fuel : ℕ) (e : Expr) : Grower (compileExpression fuel e) :=
  growsRule.expression fuel e

/-- So does compiling arguments. -/
lemma grower_args (fuel : ℕ) (args : Expr) : Grower (compileArgs (compileExpression fuel) args) :=
  growsRule.args (growsRule.expression fuel) args

/-- Compiling a scope appends. -/
theorem grower_scope (fuel : ℕ) (stat : Stat) : Grower (compileScope fuel stat) :=
  growsRule.scope fuel stat

/-- Compiling a top-level statement appends. -/
theorem grower_statement (fuel : ℕ) (stat : Stat) : Grower (compileStatement fuel stat) :=
  growsRule.statement fuel stat

end PhantomShell
