import PhantomShell.Vm.TablesTheorems

/-!
# Growth of the tables

Where the writes of `vm_register_constant` and `vm_register_function` go. Each table grows by a
`realloc` whose result is dropped, so the first growth leaves its field on a released block.
-/

namespace PhantomShell

/-! ## Growth and writes -/

/-- The pool behind the two growth tests of `vm_register_constant`. -/
def ConstPool.grow (p : ConstPool) (constant : List UInt8) : ConstPool :=
  let requiredSize := 2 + constant.length % 2 ^ 16 + 1
  let p :=
    if p.size + requiredSize > p.cap then
      let sizeToAllocate :=
        if requiredSize > globalConstPoolInitialSize then requiredSize - (p.cap - p.size)
        else globalConstPoolInitialSize
      { p with pool := none, cap := p.cap + sizeToAllocate }
    else p
  if p.indexSize = p.indexCap then
    { p with
      index := none
      indexCap := p.indexCap + UInt16.ofNat globalConstPoolInitialCapacity }
  else p

/-- The table behind the growth test of `vm_register_function`. -/
def GlobalFuncs.grow (g : GlobalFuncs) : GlobalFuncs :=
  if g.funcsSize = g.funcsCap then
    { g with funcs := none, funcsCap := g.funcsCap + globalFunctionsCountIncrement }
  else g

lemma vmRegisterConstant_grow (p : ConstPool) (constant : List UInt8) :
    vmRegisterConstant p constant = (do
      let pool ← writeBlock (p.grow constant).pool (p.grow constant).size
        (constantRecord (storedConstant constant))
      let index ← writeBlock (p.grow constant).index (p.grow constant).indexSize.toNat
        [UInt32.ofNat (p.grow constant).size]
      .ok ((p.grow constant).indexSize, { p.grow constant with
        pool := some pool
        index := some index
        indexSize := (p.grow constant).indexSize + 1 })) := by
  rw [← bytesLE16_stored]
  rfl

/-- The block that a field designates has `len` cells from `off` on. -/
def Inside {α : Type} (block : Option (List (Option α))) (off len : ℕ) : Prop :=
  ∃ cells, block = some cells ∧ off + len ≤ cells.length

lemma not_inside_none {α : Type} (off len : ℕ) :
    ¬ Inside (none : Option (List (Option α))) off len := by
  rintro ⟨cells, hcells, -⟩
  cases hcells

/-- A write succeeds inside the block. -/
lemma writeBlock_eq_ok {α : Type} {block : Option (List (Option α))} {off : ℕ} {data : List α} :
    (∃ cells, writeBlock block off data = .ok cells) ↔ Inside block off data.length := by
  cases block with
  | none => simp [writeBlock, Inside]
  | some cells =>
    by_cases h : off + data.length ≤ cells.length
    · simp [writeBlock, Inside, h]
    · simp [writeBlock, Inside, h]

/-- No recorded capacity is larger than the block that the field designates. -/
structure CapacitiesHold (vm : Vm) : Prop where
  pool : Inside vm.constPool.pool 0 vm.constPool.cap
  index : Inside vm.constPool.index 0 vm.constPool.indexCap.toNat
  funcs : Inside vm.globalFuncs.funcs 0 vm.globalFuncs.funcsCap

/-! ## Calls -/

/-- A call that writes to the tables. -/
inductive TableCall
  | registerConstant (constant : List UInt8)
  | registerFunction (signatureIndex : UInt16) (data : List UInt8)

def TableCall.isConstant : TableCall → Bool
  | .registerConstant _ => true
  | .registerFunction _ _ => false

/-- The tables that the writes of a call go to. -/
def TableCall.grow (vm : Vm) : TableCall → Vm
  | .registerConstant constant => { vm with constPool := vm.constPool.grow constant }
  | .registerFunction _ _ => { vm with globalFuncs := vm.globalFuncs.grow }

/-- The writes of a call, in tables that have grown: the record and its index, or the handle. -/
def TableCall.WritesInside (vm : Vm) : TableCall → Prop
  | .registerConstant constant =>
    Inside vm.constPool.pool vm.constPool.size (constantRecord (storedConstant constant)).length ∧
      Inside vm.constPool.index vm.constPool.indexSize.toNat 1
  | .registerFunction _ _ => Inside vm.globalFuncs.funcs vm.globalFuncs.funcsSize 1

/-- The tables after a call that returns. -/
def TableCall.run (fuel : ℕ) (vm : Vm) : TableCall → Except VmStop Vm
  | .registerConstant constant => do
    let (_, constPool) ← vmRegisterConstant vm.constPool constant
    .ok { vm with constPool := constPool }
  | .registerFunction signatureIndex data => do
    let (_, vm) ← vmRegisterFunction fuel vm signatureIndex data
    .ok vm

/-- Along the calls, all writes go inside the blocks that the fields designate at that moment,
and the capacities hold before and after each growth. -/
def InBounds (fuel : ℕ) : Vm → List TableCall → Prop
  | vm, [] => CapacitiesHold vm
  | vm, call :: rest =>
    CapacitiesHold vm ∧ CapacitiesHold (call.grow vm) ∧ call.WritesInside (call.grow vm) ∧
      ∀ vm', call.run fuel vm = .ok vm' → InBounds fuel vm' rest

/-- No table grows in a call behind these: a constant is one of the first 64 and its narrowed
length is at most 4093, a function is one of the first 64. -/
def TableCall.Fits (before : List TableCall) : TableCall → Prop
  | .registerConstant constant =>
    before.countP TableCall.isConstant < 64 ∧ constant.length % 2 ^ 16 ≤ 4093
  | .registerFunction _ _ => before.countP (fun call => !call.isConstant) < 64

/-! ## The tables in a run -/

/-- The tables after `calls`, as long as none of them has grown. -/
structure TablesHold (calls : List TableCall) (vm : Vm) : Prop where
  pool : ∃ last, PoolHolds (calls.countP TableCall.isConstant) last vm.constPool
  funcs : ∃ cells, vm.globalFuncs.funcs = some cells ∧ cells.length = 256
  funcsSize : vm.globalFuncs.funcsSize = calls.countP fun call => !call.isConstant
  funcsCap : vm.globalFuncs.funcsCap = 64
  le : vm.globalFuncs.funcsSize ≤ 64

lemma tablesHold_init : TablesHold [] vmStaticInit where
  pool := ⟨[], poolHolds_init⟩
  funcs := ⟨_, rfl, List.length_replicate⟩
  funcsSize := rfl
  funcsCap := rfl
  le := by decide

lemma TablesHold.capacities {calls : List TableCall} {vm : Vm} (h : TablesHold calls vm) :
    CapacitiesHold vm := by
  obtain ⟨last, hpool⟩ := h.pool
  obtain ⟨cells, hcells, hlen, -⟩ := hpool.pool
  obtain ⟨entries, hentries, hlen', -⟩ := hpool.index
  obtain ⟨handles, hhandles, hlen''⟩ := h.funcs
  refine ⟨⟨cells, hcells, ?_⟩, ⟨entries, hentries, ?_⟩, ⟨handles, hhandles, ?_⟩⟩
  · rw [hpool.cap, hlen]
  · rw [hpool.indexCap, hlen']
    decide
  · rw [h.funcsCap, hlen'']
    decide

/-- A call that fits finds tables with room. -/
lemma TablesHold.grow_fits {calls : List TableCall} {vm : Vm} (h : TablesHold calls vm)
    {call : TableCall} (hfits : call.Fits calls) :
    call.grow vm = vm ∧ call.WritesInside vm := by
  cases call with
  | registerConstant constant =>
    obtain ⟨last, hpool⟩ := h.pool
    obtain ⟨cells, hcells, hlen, -⟩ := hpool.pool
    obtain ⟨entries, hentries, hlen', -⟩ := hpool.index
    obtain ⟨hcount, hlength⟩ := hfits
    have hsize : ¬ vm.constPool.size + (2 + constant.length % 2 ^ 16 + 1) > vm.constPool.cap := by
      rw [hpool.size, hpool.cap]
      omega
    have hindex : ¬ vm.constPool.indexSize = vm.constPool.indexCap := by
      rw [hpool.indexCap, ← UInt16.toNat_inj, hpool.indexSize]
      show ¬ _ = 64
      omega
    refine ⟨?_, ⟨cells, hcells, ?_⟩, ⟨entries, hentries, ?_⟩⟩
    · simp only [TableCall.grow, ConstPool.grow, if_neg hsize, if_neg hindex]
    · rw [hpool.size, hlen, length_constantRecord, length_storedConstant]
      omega
    · rw [hpool.indexSize, hlen']
      omega
  | registerFunction signatureIndex data =>
    obtain ⟨handles, hhandles, hlen⟩ := h.funcs
    have hcount : vm.globalFuncs.funcsSize < 64 := by
      rw [h.funcsSize]
      exact hfits
    have hgrow : ¬ vm.globalFuncs.funcsSize = vm.globalFuncs.funcsCap := by
      rw [h.funcsCap]
      omega
    refine ⟨?_, handles, hhandles, by omega⟩
    simp only [TableCall.grow, GlobalFuncs.grow, if_neg hgrow]

/-- A call that does not fit leaves a field on a released block. -/
lemma TablesHold.not_fits {calls : List TableCall} {vm : Vm} (h : TablesHold calls vm)
    {call : TableCall} (hfits : ¬ call.Fits calls) : ¬ CapacitiesHold (call.grow vm) := by
  intro hcap
  cases call with
  | registerConstant constant =>
    obtain ⟨last, hpool⟩ := h.pool
    by_cases hlength : constant.length % 2 ^ 16 ≤ 4093
    · have hcount : calls.countP TableCall.isConstant = 64 := by
        have hle := hpool.le
        have hnot : ¬ calls.countP TableCall.isConstant < 64 := fun hlt => hfits ⟨hlt, hlength⟩
        omega
      have hindex : vm.constPool.indexSize = vm.constPool.indexCap := by
        rw [hpool.indexCap, ← UInt16.toNat_inj, hpool.indexSize, hcount]
        rfl
      have hreleased : ((TableCall.registerConstant constant).grow vm).constPool.index = none := by
        simp only [TableCall.grow, ConstPool.grow]
        split <;> simp
      exact not_inside_none _ _ (hreleased ▸ hcap.index)
    · have hsize : vm.constPool.size + (2 + constant.length % 2 ^ 16 + 1) > vm.constPool.cap := by
        rw [hpool.size, hpool.cap]
        omega
      have hreleased : ((TableCall.registerConstant constant).grow vm).constPool.pool = none := by
        simp only [TableCall.grow, ConstPool.grow, if_pos hsize]
        split <;> rfl
      exact not_inside_none _ _ (hreleased ▸ hcap.pool)
  | registerFunction signatureIndex data =>
    have hfull : vm.globalFuncs.funcsSize = vm.globalFuncs.funcsCap := by
      have hle := h.le
      have hnot : ¬ vm.globalFuncs.funcsSize < 64 := by
        rw [h.funcsSize]
        exact hfits
      rw [h.funcsCap]
      omega
    have hreleased : ((TableCall.registerFunction signatureIndex data).grow vm).globalFuncs.funcs = none := by
      simp only [TableCall.grow, GlobalFuncs.grow, if_pos hfull]
    exact not_inside_none _ _ (hreleased ▸ hcap.funcs)

/-- What `vm_register_function` does to its table. -/
lemma vmRegisterFunction_funcs {fuel : ℕ} {vm vm' : Vm} {index : UInt16} {data : List UInt8}
    {handle : FuncHandle} (h : vmRegisterFunction fuel vm index data = .ok (handle, vm')) :
    ∃ cells, writeBlock vm.globalFuncs.grow.funcs vm.globalFuncs.grow.funcsSize [handle]
        = .ok cells ∧
      vm'.globalFuncs.funcs = some cells ∧
      vm'.globalFuncs.funcsSize = vm.globalFuncs.grow.funcsSize + 1 ∧
      vm'.globalFuncs.funcsCap = vm.globalFuncs.grow.funcsCap := by
  simp only [vmRegisterFunction, except_bind_eq_ok] at h
  obtain ⟨off, -, argsSize, -, h⟩ := h
  split at h
  · simp only [except_bind_eq_ok] at h
    obtain ⟨cells, hcells, h⟩ := h
    split at h
    · cases h
    · cases h
      exact ⟨cells, hcells, rfl, rfl, rfl⟩
  · cases h

/-- A call that returns made its writes inside the blocks. -/
lemma TableCall.writesInside_of_run {fuel : ℕ} {vm vm' : Vm} {call : TableCall}
    (h : call.run fuel vm = .ok vm') : call.WritesInside (call.grow vm) := by
  cases call with
  | registerConstant constant =>
    obtain ⟨⟨index, p⟩, hreg, -⟩ := except_bind_eq_ok.mp h
    rw [vmRegisterConstant_grow] at hreg
    obtain ⟨pool, hpool, hreg⟩ := except_bind_eq_ok.mp hreg
    obtain ⟨entries, hindex, -⟩ := except_bind_eq_ok.mp hreg
    exact ⟨writeBlock_eq_ok.mp ⟨pool, hpool⟩, writeBlock_eq_ok.mp ⟨entries, hindex⟩⟩
  | registerFunction signatureIndex data =>
    obtain ⟨⟨handle, vm₁⟩, hreg, -⟩ := except_bind_eq_ok.mp h
    obtain ⟨cells, hwrite, -⟩ := vmRegisterFunction_funcs hreg
    exact writeBlock_eq_ok.mp ⟨cells, hwrite⟩

/-- A call that fits and returns leaves such tables. -/
lemma TablesHold.run {fuel : ℕ} {calls : List TableCall} {vm vm' : Vm} (h : TablesHold calls vm)
    {call : TableCall} (hfits : call.Fits calls) (hrun : call.run fuel vm = .ok vm') :
    TablesHold (calls ++ [call]) vm' := by
  obtain ⟨last, hpool⟩ := h.pool
  cases call with
  | registerConstant constant =>
    obtain ⟨p', hres, hpool', -⟩ := vmRegisterConstant_ok hpool hfits.1 hfits.2
    simp only [TableCall.run, hres, except_ok_bind] at hrun
    cases hrun
    refine ⟨⟨storedConstant constant, ?_⟩, h.funcs, ?_, h.funcsCap, h.le⟩
    · simpa [List.countP_append, TableCall.isConstant] using hpool'
    · simpa [List.countP_append, TableCall.isConstant] using h.funcsSize
  | registerFunction signatureIndex data =>
    obtain ⟨hgrow, -⟩ := h.grow_fits hfits
    have hgrow : vm.globalFuncs.grow = vm.globalFuncs := congrArg Vm.globalFuncs hgrow
    obtain ⟨⟨handle, vm₁⟩, hreg, hvm'⟩ := except_bind_eq_ok.mp hrun
    cases hvm'
    obtain ⟨cells, hwrite, hcells, hsize, hcap⟩ := vmRegisterFunction_funcs hreg
    rw [hgrow] at hwrite hsize hcap
    obtain ⟨handles, hhandles, hlen⟩ := h.funcs
    have hcount : vm.globalFuncs.funcsSize < 64 := by
      rw [h.funcsSize]
      exact hfits
    refine ⟨⟨last, ?_⟩, ⟨cells, hcells, ?_⟩, ?_, hcap.trans h.funcsCap, by omega⟩
    · rw [vmRegisterFunction_constPool hreg]
      simpa [List.countP_append, TableCall.isConstant] using hpool
    · rw [hhandles, writeBlock] at hwrite
      split at hwrite
      · next hle =>
        cases hwrite
        rw [length_splice (by simpa using hle), hlen]
      · cases hwrite
    · rw [hsize, h.funcsSize]
      simp [List.countP_append, TableCall.isConstant]

/-! ## Every sequence of calls -/

/-- The tables after a sequence of calls that return. -/
def runCalls (fuel : ℕ) (vm : Vm) (calls : List TableCall) : Except VmStop Vm :=
  calls.foldlM (TableCall.run fuel) vm

private lemma inBounds_iff {fuel : ℕ} {calls : List TableCall} : ∀ {done : List TableCall} {vm : Vm},
    TablesHold done vm → (InBounds fuel vm calls ↔
      ∀ before call after, calls = before ++ call :: after →
        (∃ vm', runCalls fuel vm before = .ok vm') → call.Fits (done ++ before)) := by
  induction calls with
  | nil =>
    intro done vm h
    refine ⟨?_, fun _ => h.capacities⟩
    intro _ before call after heq
    simp at heq
  | cons call rest ih =>
    intro done vm h
    constructor
    · rintro ⟨-, hcap, -, hrest⟩ before call' after heq ⟨vm', hrun⟩
      -- a call that does not fit leaves a table past its capacity
      have hfits : call.Fits done := by
        by_contra hnot
        exact h.not_fits hnot hcap
      cases before with
      | nil =>
        cases heq
        simpa using hfits
      | cons _ before =>
        cases heq
        obtain ⟨vm₁, hstep, hrun⟩ := except_bind_eq_ok.mp hrun
        have hbefore := (ih (h.run hfits hstep)).mp (hrest vm₁ hstep) before call' after rfl
          ⟨vm', hrun⟩
        simpa using hbefore
    · intro hall
      have hfits : call.Fits done := by
        simpa using hall [] call rest rfl ⟨vm, rfl⟩
      obtain ⟨hgrow, hwrites⟩ := h.grow_fits hfits
      rw [InBounds, hgrow]
      refine ⟨h.capacities, h.capacities, hwrites, ?_⟩
      intro vm₁ hstep
      rw [ih (h.run hfits hstep)]
      rintro before call' after rfl ⟨vm', hrun⟩
      have hbefore := hall (call :: before) call' after rfl
        ⟨vm', except_bind_eq_ok.mpr ⟨vm₁, hstep, hrun⟩⟩
      simpa using hbefore

/-- The calls stay in bounds exactly if every one that is made is made before its table has to
grow. -/
theorem tables_in_bounds_iff (fuel : ℕ) (calls : List TableCall) :
    InBounds fuel vmStaticInit calls ↔
      ∀ before call after, calls = before ++ call :: after →
        (∃ vm, runCalls fuel vmStaticInit before = .ok vm) → call.Fits before := by
  simpa using inBounds_iff tablesHold_init

/-- One constant of 4094 bytes makes the pool grow. -/
theorem tables_not_in_bounds :
    ¬ InBounds 1 vmStaticInit [.registerConstant (List.replicate 4094 65)] := by
  rintro ⟨-, hcap, -⟩
  refine tablesHold_init.not_fits ?_ hcap
  rintro ⟨-, hlength⟩
  rw [List.length_replicate] at hlength
  omega

/-! ## Registered functions -/

/-- The machine after functions were registered, with their handles, the last one first. -/
inductive Registered : List FuncHandle → Vm → Prop
  | init : Registered [] vmStaticInit
  | register {handles : List FuncHandle} {vm vm' : Vm} {fuel : ℕ} {signature data : List UInt8}
      {index : UInt16} {handle : FuncHandle} : Registered handles vm →
      vmRegister fuel vm signature data = .ok (index, handle, vm') →
      Registered (handle :: handles) vm'

/-- The tables after `handles` were registered: there is one key, the offset of the only constant,
and all that is stored is the last handle that has gone to its slot. -/
structure HandlesHold (handles : List FuncHandle) (vm : Vm) : Prop where
  pool : ∃ last, PoolHolds handles.length last vm.constPool
  funcs : ∃ cells, vm.globalFuncs.funcs = some cells ∧ cells.length = 256
  funcsSize : vm.globalFuncs.funcsSize = handles.length
  funcsCap : vm.globalFuncs.funcsCap = 64
  capacity : vm.globalFuncs.funcMap.capacity = initialMapCap
  size : vm.globalFuncs.funcMap.size = handles.length
  keys : ∀ i key handle, vm.globalFuncs.funcMap.data i = some (key, handle) → key = 2

lemma handlesHold_init : HandlesHold [] vmStaticInit where
  pool := ⟨[], poolHolds_init⟩
  funcs := ⟨_, rfl, List.length_replicate⟩
  funcsSize := rfl
  funcsCap := rfl
  capacity := rfl
  size := rfl
  keys := fun _ _ _ h => nomatch h

lemma HandlesHold.sameString {handles : List FuncHandle} {vm : Vm} (h : HandlesHold handles vm)
    {str : ℕ → CStr} (i key : ℕ) (handle : FuncHandle)
    (hslot : vm.globalFuncs.funcMap.data i = some (key, handle)) : str key = str 2 :=
  congrArg str (h.keys i key handle hslot)

/-- A registration that the scan of its signature does not stop. -/
lemma HandlesHold.register {handles : List FuncHandle} {vm : Vm} (h : HandlesHold handles vm)
    (hn : handles.length < 64) {signature : List UInt8} (hfit : signature.length ≤ 4093)
    {argsSize : UInt16} (hscan : ∀ cells, signatureArgsSize (signature.map some ++ some 0 :: cells)
      = .ok argsSize) {data : List UInt8} (hdata : 4 ≤ data.length) (fuel : ℕ) :
    ∃ handle vm', vmRegister (fuel + 1) vm signature data
      = .ok (UInt16.ofNat handles.length, handle, vm') ∧ handle.argSize = argsSize := by
  obtain ⟨last, hpool⟩ := h.pool
  have hstored : storedConstant signature = signature := storedConstant_eq (by omega)
  obtain ⟨p, hconst, hp, hcells⟩ := vmRegisterConstant_ok hpool hn ((Nat.mod_le _ _).trans hfit)
  obtain ⟨cells, hcell, -, -⟩ := hpool.pool
  obtain ⟨entries, hentries, -, hzero⟩ := hp.index
  have hindex : (UInt16.ofNat handles.length).toNat = handles.length := by
    rw [UInt16.toNat_ofNat']
    omega
  have hread : readBlock p.index (UInt16.ofNat handles.length).toNat = .ok 0 := by
    simp [readBlock, hentries, hindex, hzero handles.length (by omega)]
  have htwo : (0 : UInt32).toNat + 2 = 2 := rfl
  have hargs : signatureArgsSize ((p.pool.getD []).drop ((0 : UInt32).toNat + 2)) = .ok argsSize := by
    rw [htwo, hcells cells hcell, hstored, Option.getD_some, splice_zero, drop_constantRecord]
    exact hscan _
  obtain ⟨varsHi, varsLo, stackHi, stackLo, body, rfl⟩ :
      ∃ varsHi varsLo stackHi stackLo body,
        data = varsHi :: varsLo :: stackHi :: stackLo :: body := by
    rcases data with _ | ⟨varsHi, _ | ⟨varsLo, _ | ⟨stackHi, _ | ⟨stackLo, body⟩⟩⟩⟩
    iterate 4 simp at hdata
    exact ⟨_, _, _, _, _, rfl⟩
  obtain ⟨handlesCells, hfuncs, hlen⟩ := h.funcs
  have hsize := h.funcsSize
  have hcap : vm.globalFuncs.funcsSize ≠ vm.globalFuncs.funcsCap := by
    rw [h.funcsCap]
    omega
  have hput : ∀ handle, hashmapPut p.key (fun _ => true) (fuel + 1) vm.globalFuncs.funcMap
      ((0 : UInt32).toNat + 2) handle = some (mapOk, vm.globalFuncs.funcMap.store
        ((stringHash (p.key 2)).toNat % initialMapCap) 2 handle) :=
    fun handle => hashmapPut_home h.capacity (by rw [h.size]; exact hn) h.sameString fuel handle
  have hwrite : ∀ handle, writeBlock vm.globalFuncs.funcs vm.globalFuncs.funcsSize [handle]
      = .ok (splice handlesCells handles.length [some handle]) := by
    intro handle
    simp only [writeBlock, hfuncs, hsize]
    exact if_pos (by simp; omega)
  obtain ⟨handle, vm', hfunc, hargSize⟩ : ∃ handle vm', vmRegisterFunction (fuel + 1)
      { vm with constPool := p } (UInt16.ofNat handles.length)
        (varsHi :: varsLo :: stackHi :: stackLo :: body) = .ok (handle, vm') ∧
      handle.argSize = argsSize :=
    ⟨_, _, vmRegisterFunction_eq rfl rfl hcap hread hargs (hwrite _) (hput _), rfl⟩
  refine ⟨handle, vm', ?_, hargSize⟩
  simp only [vmRegister, hconst, except_ok_bind, hfunc]

/-- There is a string in front of a terminator. -/
lemma cString_terminated (s : List UInt8) (cells : List (Option UInt8)) :
    ∃ s', cString (s.map some ++ some 0 :: cells) = some s' := by
  induction s with
  | nil => exact ⟨[], rfl⟩
  | cons b s ih =>
    obtain ⟨s', hs'⟩ := ih
    rw [List.map_cons, List.cons_append, cString, hs']
    split
    · exact ⟨_, rfl⟩
    · exact ⟨_, rfl⟩

/-- What a registration that succeeds makes of the tables: the handle is stored in the home slot of
the string that the constant starts with. -/
lemma HandlesHold.register_eq_ok {handles : List FuncHandle} {vm vm' : Vm}
    (h : HandlesHold handles vm) {fuel : ℕ} {signature data : List UInt8} {index : UInt16}
    {handle : FuncHandle} (hreg : vmRegister fuel vm signature data = .ok (index, handle, vm')) :
    (∃ last, PoolHolds (handles.length + 1) last vm'.constPool) ∧
      ∃ funcs, funcs.length = 256 ∧ vm'.globalFuncs = { vm.globalFuncs with
        funcs := some funcs
        funcsSize := vm.globalFuncs.funcsSize + 1
        funcMap := vm.globalFuncs.funcMap.store
          ((stringHash (vm'.constPool.key 2)).toNat % initialMapCap) 2 handle } := by
  obtain ⟨last, hpool⟩ := h.pool
  obtain ⟨rfl, -, hpool'⟩ := vmRegister_holds hpool hreg
  refine ⟨⟨_, hpool'⟩, ?_⟩
  have hn : handles.length + 1 ≤ 64 := hpool'.le
  obtain ⟨entries, hentries, -, hzero⟩ := hpool'.index
  simp only [vmRegister, except_bind_eq_ok, Prod.exists] at hreg
  obtain ⟨i, p, hconst, handle', vm₁, hfunc, hres⟩ := hreg
  cases hres
  have hconstPool : vm'.constPool = p := vmRegisterFunction_constPool hfunc
  rw [hconstPool] at hentries
  have hindex : (UInt16.ofNat handles.length).toNat = handles.length := by
    rw [UInt16.toNat_ofNat']
    omega
  have hread : readBlock p.index (UInt16.ofNat handles.length).toNat = .ok 0 := by
    simp [readBlock, hentries, hindex, hzero handles.length (by omega)]
  have hcap : ¬ vm.globalFuncs.funcsSize = vm.globalFuncs.funcsCap := by
    rw [h.funcsSize, h.funcsCap]
    omega
  have htwo : (0 : UInt32).toNat + 2 = 2 := rfl
  simp only [vmRegisterFunction, if_neg hcap, hread, except_ok_bind, except_bind_eq_ok, htwo] at hfunc
  obtain ⟨argsSize, -, hfunc⟩ := hfunc
  split at hfunc
  · obtain ⟨funcs, hfuncs, hfunc⟩ := except_bind_eq_ok.mp hfunc
    cases fuel with
    | zero => cases hfunc
    | succ fuel =>
      rw [hashmapPut_home h.capacity (by rw [h.size]; omega) h.sameString] at hfunc
      obtain ⟨cells, hcells, hlen⟩ := h.funcs
      rw [hcells, writeBlock] at hfuncs
      split at hfuncs
      · rename_i hle
        cases hfunc
        cases hfuncs
        exact ⟨_, (length_splice (by simpa using hle)).trans hlen, rfl⟩
      · cases hfuncs
  · cases hfunc

/-- Any registration that succeeds adds its handle. -/
lemma HandlesHold.step {handles : List FuncHandle} {vm vm' : Vm} (h : HandlesHold handles vm)
    {fuel : ℕ} {signature data : List UInt8} {index : UInt16} {handle : FuncHandle}
    (hreg : vmRegister fuel vm signature data = .ok (index, handle, vm')) :
    HandlesHold (handle :: handles) vm' := by
  obtain ⟨hpool, funcs, hlen, hglobal⟩ := h.register_eq_ok hreg
  refine ⟨hpool, ⟨funcs, by rw [hglobal], hlen⟩, by simp [hglobal, h.funcsSize],
    by rw [hglobal, h.funcsCap], by simp [hglobal, Hashmap.store, h.capacity],
    by simp [hglobal, Hashmap.store, h.size], fun i key handle hslot => ?_⟩
  simp only [hglobal, Hashmap.store] at hslot
  by_cases hi : i = (stringHash (vm'.constPool.key 2)).toNat % initialMapCap
  · rw [hi, Function.update_self] at hslot
    cases hslot
    rfl
  · rw [Function.update_of_ne hi] at hslot
    exact h.keys i key handle hslot

/-- Behind a registration every index finds the new handle. -/
lemma HandlesHold.callHandle {handles : List FuncHandle} {vm vm' : Vm} (h : HandlesHold handles vm)
    {fuel : ℕ} {signature data : List UInt8} {index : UInt16} {handle : FuncHandle}
    (hreg : vmRegister fuel vm signature data = .ok (index, handle, vm')) {i : ℕ}
    (hi : i ≤ handles.length) : vm'.callHandle (UInt16.ofNat i) = .ok handle := by
  obtain ⟨⟨last, hpool⟩, funcs, -, hglobal⟩ := h.register_eq_ok hreg
  obtain ⟨entries, hentries, -, hzero⟩ := hpool.index
  obtain ⟨cells, hcells, -, hprefix⟩ := hpool.pool
  obtain ⟨rest, rfl⟩ := hprefix (by omega)
  have hread : readBlock vm'.constPool.index (UInt16.ofNat i).toNat = .ok 0 := by
    have hindex : (UInt16.ofNat i).toNat = i := by
      have hle := hpool.le
      rw [UInt16.toNat_ofNat']
      omega
    simp [readBlock, hentries, hindex, hzero i (by omega)]
  obtain ⟨s, hstring⟩ : ∃ s, vm'.constPool.stringAt 2 = some s := by
    rw [ConstPool.stringAt, hcells, Option.bind_some, drop_constantRecord]
    exact cString_terminated _ _
  have hkey : vm'.constPool.key 2 = s := by rw [ConstPool.key, hstring, Option.getD_some]
  have hstring' : vm'.constPool.stringAt ((0 : UInt32).toNat + 2) = some s := hstring
  -- the string has its home where the handle was put
  have hget : hashmapGet vm'.constPool.key vm'.globalFuncs.funcMap s = some handle := by
    have hcap : vm'.globalFuncs.funcMap.capacity = initialMapCap := (h.step hreg).capacity
    have hslot : vm'.globalFuncs.funcMap.data ((stringHash s).toNat % initialMapCap)
        = some (2, handle) := by
      rw [hglobal, hkey]
      exact Function.update_self _ _ _
    have hholds : holdsKey vm'.constPool.key vm'.globalFuncs.funcMap s
        ((stringHash s).toNat % initialMapCap) = true := by
      simp only [holdsKey, hslot, hkey, beq_self_eq_true]
    simp only [hashmapGet, hashmapFind, hcap, probeSlots_home, List.find?_cons_of_pos hholds,
      Option.bind_eq_bind, Option.bind_some, hslot]
  simp only [Vm.callHandle, hread, except_ok_bind, hstring', hget]

/-- The tables of every machine that functions were registered on. -/
theorem Registered.holds {handles : List FuncHandle} {vm : Vm} (h : Registered handles vm) :
    HandlesHold handles vm := by
  induction h with
  | init => exact handlesHold_init
  | register _ hreg ih => exact ih.step hreg

/-- Whatever its index, a call enters the function that was registered last. -/
theorem Registered.callHandle {handle : FuncHandle} {handles : List FuncHandle} {vm : Vm}
    (h : Registered (handle :: handles) vm) {i : ℕ} (hi : i ≤ handles.length) :
    vm.callHandle (UInt16.ofNat i) = .ok handle := by
  cases h with
  | register h hreg => exact h.holds.callHandle hreg hi

end PhantomShell
