import PhantomShell.HashmapTheorems
import PhantomShell.Lib.Except
import PhantomShell.Vm.Tables
import Mathlib.Data.List.Nodup

/-!
# Registration in the constant pool and the function table

`vm_register_constant` never moves `global_const_pool.size`, so each constant is written over
the one before (`PoolHolds`), and its two growth paths leave the table fields on released
blocks. `constants_kept_iff` and `calls_dispatched_iff` say which sequences of registrations
survive this.
-/

namespace PhantomShell

/-! ## The constant pool -/

/-- A constant as it lies in the pool: its length, its bytes and a terminator. -/
def constantRecord (constant : List UInt8) : List UInt8 :=
  bytesLE16 constant.length ++ constant ++ [0]

/-- The constant whose record starts here. -/
def decodeConstant : List (Option UInt8) → Option (List UInt8)
  | some lo :: some hi :: cells =>
    let size := lo.toNat + 256 * hi.toNat
    if cells[size]? = some (some 0) then (cells.take size).mapM id else none
  | _ => none

/-- The constant that the record at `pool + index[i]` decodes to. -/
def ConstPool.constantAt (p : ConstPool) (i : UInt16) : Option (List UInt8) :=
  match readBlock p.index i.toNat, p.pool with
  | .ok off, some cells => decodeConstant (cells.drop off.toNat)
  | _, _ => none

/-- A sequence of `vm_register_constant` calls. -/
def registerConstants : ConstPool → List (List UInt8) → Except VmStop (List UInt16 × ConstPool)
  | p, [] => .ok ([], p)
  | p, constant :: constants => do
    let (i, p) ← vmRegisterConstant p constant
    let (indices, p) ← registerConstants p constants
    .ok (i :: indices, p)

lemma length_constantRecord (constant : List UInt8) :
    (constantRecord constant).length = constant.length + 3 := by
  simp [constantRecord, bytesLE16]

lemma toNat_bytesLE16 {n : ℕ} (h : n < 2 ^ 16) :
    (UInt8.ofNat n).toNat + 256 * (UInt8.ofNat (n / 256)).toNat = n := by
  simp only [UInt8.toNat_ofNat']
  omega

lemma mapM_id_map_some {α : Type} (xs : List α) : (xs.map some).mapM id = some xs := by
  induction xs with
  | nil => rfl
  | cons x xs ih => simp [ih]

/-- The record of a constant decodes to the constant. -/
lemma decodeConstant_record {constant : List UInt8} (h : constant.length < 2 ^ 16)
    (cells : List (Option UInt8)) :
    decodeConstant ((constantRecord constant).map some ++ cells) = some constant := by
  have hcells : (constantRecord constant).map some ++ cells
      = some (UInt8.ofNat constant.length) :: some (UInt8.ofNat (constant.length / 256)) ::
        (constant.map some ++ some 0 :: cells) := by
    simp [constantRecord, bytesLE16]
  rw [hcells]
  simp only [decodeConstant, toNat_bytesLE16 h]
  have hlen : constant.length = (constant.map (some : UInt8 → _)).length := by simp
  have hnul : (constant.map some ++ some 0 :: cells)[constant.length]? = some (some 0) := by
    rw [hlen, List.getElem?_append_right (le_refl _), Nat.sub_self, List.getElem?_cons_zero]
  have htake : (constant.map some ++ some 0 :: cells).take constant.length
      = constant.map some := by
    rw [hlen, List.take_left]
  rw [if_pos hnul, htake, mapM_id_map_some]

/-- The pool after `n` registrations, the last of them of `last`. -/
structure PoolHolds (n : ℕ) (last : List UInt8) (p : ConstPool) : Prop where
  size : p.size = 0
  cap : p.cap = 4096
  indexCap : p.indexCap = 64
  indexSize : p.indexSize.toNat = n
  le : n ≤ 64
  pool : ∃ cells, p.pool = some cells ∧ cells.length = 4096 ∧
    (0 < n → (constantRecord last).map some <+: cells)
  index : ∃ cells, p.index = some cells ∧ cells.length = 128 ∧ ∀ i < n, cells[i]? = some (some 0)

lemma poolHolds_init : PoolHolds 0 [] vmStaticInit.constPool where
  size := rfl
  cap := rfl
  indexCap := rfl
  indexSize := rfl
  le := by omega
  pool := ⟨_, rfl, List.length_replicate, by omega⟩
  index := ⟨_, rfl, List.length_replicate, by omega⟩

/-- The bytes of a constant that `vm_register_constant` stores: the length is narrowed to 16
bits. -/
def storedConstant (constant : List UInt8) : List UInt8 :=
  constant.take (constant.length % 2 ^ 16)

lemma length_storedConstant (constant : List UInt8) :
    (storedConstant constant).length = constant.length % 2 ^ 16 := by
  rw [storedConstant, List.length_take, Nat.min_eq_left (Nat.mod_le _ _)]

lemma storedConstant_eq {constant : List UInt8} (h : constant.length < 2 ^ 16) :
    storedConstant constant = constant := by
  rw [storedConstant, Nat.mod_eq_of_lt h, List.take_length]

lemma bytesLE16_stored (constant : List UInt8) :
    bytesLE16 (constant.length % 2 ^ 16) ++ constant.take (constant.length % 2 ^ 16) ++ [0]
      = constantRecord (storedConstant constant) := by
  rw [constantRecord, length_storedConstant]
  rfl

lemma splice_zero {α : Type} (cells ys : List α) :
    splice cells 0 ys = ys ++ cells.drop ys.length := by
  simp [splice]

/-- A constant that fits in the first block and the first 64 indices replaces the constant
at the start of the pool. -/
lemma vmRegisterConstant_ok {n : ℕ} {last constant : List UInt8} {p : ConstPool}
    (h : PoolHolds n last p) (hn : n < 64) (hfit : constant.length % 2 ^ 16 ≤ 4093) :
    ∃ p', vmRegisterConstant p constant = .ok (UInt16.ofNat n, p') ∧
      PoolHolds (n + 1) (storedConstant constant) p' ∧ ∀ cells, p.pool = some cells →
        p'.pool = some (splice cells 0 ((constantRecord (storedConstant constant)).map some)) := by
  obtain ⟨cells, hpool, hcells, -⟩ := h.pool
  obtain ⟨entries, hindex, hentries, hzero⟩ := h.index
  have hlen : (constantRecord (storedConstant constant)).length ≤ 4096 := by
    rw [length_constantRecord, length_storedConstant]
    omega
  have hi : p.indexSize = UInt16.ofNat n := by
    rw [← h.indexSize, UInt16.ofNat_toNat]
  -- below 64 entries the index does not grow
  have hne : p.indexSize ≠ p.indexCap := by
    intro heq
    have := h.indexSize
    rw [heq, h.indexCap] at this
    simp at this
    omega
  have hwrite : writeBlock p.pool p.size (constantRecord (storedConstant constant))
      = .ok (splice cells 0 ((constantRecord (storedConstant constant)).map some)) := by
    simp only [hpool, h.size, writeBlock]
    rw [if_pos (by omega)]
  have hwriteIndex : writeBlock p.index p.indexSize.toNat [UInt32.ofNat p.size]
      = .ok (splice entries n [some 0]) := by
    simp only [hindex, h.indexSize, h.size, writeBlock]
    rw [if_pos (by simp; omega)]
    rfl
  have hres : vmRegisterConstant p constant = .ok (UInt16.ofNat n,
      { p with
        pool := some (splice cells 0 ((constantRecord (storedConstant constant)).map some))
        index := some (splice entries n [some 0])
        indexSize := p.indexSize + 1 }) := by
    have hgrow : ¬ p.size + (2 + constant.length % 2 ^ 16 + 1) > p.cap := by
      rw [h.size, h.cap]
      omega
    simp only [vmRegisterConstant, if_neg hgrow, if_neg hne, bytesLE16_stored, hwrite,
      hwriteIndex, ← hi]
    rfl
  refine ⟨_, hres, ⟨h.size, h.cap, h.indexCap, ?_, hn, ⟨_, rfl, ?_, ?_⟩, ⟨_, rfl, ?_, ?_⟩⟩, ?_⟩
  · have hsize := h.indexSize
    simp only [UInt16.toNat_add, hsize]
    simp
    omega
  · rw [length_splice (by simpa using by omega), hcells]
  · intro _
    rw [splice_zero]
    exact List.prefix_append _ _
  · rw [length_splice (by simp; omega), hentries]
  · intro i hi'
    have hlt : i < n + [some (0 : UInt32)].length := by simpa using hi'
    rw [← List.getElem?_take_of_lt hlt, take_splice (by omega)]
    rcases Nat.lt_succ_iff_lt_or_eq.mp hi' with hlt | rfl
    · rw [List.getElem?_append_left (by simp; omega), List.getElem?_take_of_lt hlt]
      exact hzero i hlt
    · rw [List.getElem?_append_right (by simp)]
      simp [Nat.min_eq_left (show i ≤ entries.length by omega)]
  · intro cells' hcells'
    rw [hpool] at hcells'
    cases hcells'
    rfl

/-- A constant that does not fit, and the 65th constant, are written into a released block. -/
lemma vmRegisterConstant_fault {n : ℕ} {last constant : List UInt8} {p : ConstPool}
    (h : PoolHolds n last p) (hbad : n = 64 ∨ 4093 < constant.length % 2 ^ 16) :
    vmRegisterConstant p constant = .error (.fault .memory) := by
  by_cases hfit : 4093 < constant.length % 2 ^ 16
  · have hgrow : p.size + (2 + constant.length % 2 ^ 16 + 1) > p.cap := by
      rw [h.size, h.cap]
      omega
    simp only [vmRegisterConstant, if_pos hgrow]
    split <;> rfl
  · have hn : n = 64 := hbad.resolve_right hfit
    have hgrow : ¬ p.size + (2 + constant.length % 2 ^ 16 + 1) > p.cap := by
      rw [h.size, h.cap]
      omega
    have heq : p.indexSize = p.indexCap := by
      rw [h.indexCap, ← UInt16.toNat_inj, h.indexSize, hn]
      rfl
    obtain ⟨cells, hpool, hcells, -⟩ := h.pool
    simp only [vmRegisterConstant, if_neg hgrow, if_pos heq, hpool, writeBlock]
    split <;> rfl

/-- After `n > 0` registrations every index leads to the constant stored last. -/
lemma constantAt_eq {n : ℕ} {last : List UInt8} {p : ConstPool} (h : PoolHolds n last p)
    (hlast : last.length < 2 ^ 16) {i : ℕ} (hi : i < n) :
    p.constantAt (UInt16.ofNat i) = some last := by
  obtain ⟨cells, hpool, -, hrecord⟩ := h.pool
  obtain ⟨entries, hindex, -, hzero⟩ := h.index
  obtain ⟨rest, rfl⟩ := hrecord (by omega)
  have hnat : (UInt16.ofNat i).toNat = i := by
    have := h.le
    rw [UInt16.toNat_ofNat']
    omega
  have hread : readBlock p.index (UInt16.ofNat i).toNat = .ok 0 := by
    simp [readBlock, hindex, hnat, hzero i hi]
  simp only [ConstPool.constantAt, hread, hpool]
  exact decodeConstant_record hlast rest

/-- A run of registrations that does not fault made at most 64 of them, each of a constant
whose narrowed length fits, and left only the last one. -/
lemma registerConstants_holds :
    ∀ {constants : List (List UInt8)} {n : ℕ} {last : List UInt8} {p p' : ConstPool}
      {indices : List UInt16}, PoolHolds n last p →
      registerConstants p constants = .ok (indices, p') →
      indices = (List.range' n constants.length).map UInt16.ofNat ∧
        (∀ c ∈ constants, c.length % 2 ^ 16 ≤ 4093) ∧
        PoolHolds (n + constants.length) ((constants.map storedConstant).getLastD last) p' := by
  intro constants
  induction constants with
  | nil =>
    intro n last p p' indices h hrun
    cases hrun
    exact ⟨rfl, by simp, h⟩
  | cons constant constants ih =>
    intro n last p p' indices h hrun
    have hgood : n < 64 ∧ constant.length % 2 ^ 16 ≤ 4093 := by
      by_contra hbad
      have hle := h.le
      rw [registerConstants, vmRegisterConstant_fault h (by omega)] at hrun
      cases hrun
    obtain ⟨p₁, hstep, h₁, -⟩ := vmRegisterConstant_ok h hgood.1 hgood.2
    rw [registerConstants, hstep] at hrun
    cases hrest : registerConstants p₁ constants with
    | error e =>
      simp only [except_ok_bind, hrest] at hrun
      cases hrun
    | ok res =>
      obtain ⟨indices₁, p₂⟩ := res
      simp only [except_ok_bind, hrest] at hrun
      cases hrun
      obtain ⟨hindices, hfit, hp'⟩ := ih h₁ hrest
      refine ⟨?_, ?_, ?_⟩
      · rw [hindices, List.length_cons, List.range'_succ, List.map_cons]
      · intro c hc
        rcases List.mem_cons.mp hc with rfl | hc
        · exact hgood.2
        · exact hfit c hc
      · rw [List.length_cons, Nat.add_comm constants.length 1, ← Nat.add_assoc]
        rwa [List.map_cons, List.getLastD_cons]

/-- At most 64 registrations of constants that fit do not fault. -/
lemma registerConstants_ok :
    ∀ {constants : List (List UInt8)} {n : ℕ} {last : List UInt8} {p : ConstPool},
      PoolHolds n last p → n + constants.length ≤ 64 →
      (∀ c ∈ constants, c.length % 2 ^ 16 ≤ 4093) →
      ∃ indices p', registerConstants p constants = .ok (indices, p') := by
  intro constants
  induction constants with
  | nil => intro n last p _ _ _; exact ⟨[], p, rfl⟩
  | cons constant constants ih =>
    intro n last p h hn hfit
    rw [List.length_cons] at hn
    obtain ⟨p₁, hstep, h₁, -⟩ := vmRegisterConstant_ok h (by omega) (hfit constant (by simp))
    obtain ⟨indices, p', hrest⟩ := ih h₁ (by omega) fun c hc => hfit c (by simp [hc])
    refine ⟨UInt16.ofNat n :: indices, p', ?_⟩
    simp only [registerConstants, hstep, hrest, except_ok_bind]

/-- The indices of a run are distinct. -/
lemma nodup_indices (n : ℕ) (hn : n ≤ 64) :
    ((List.range' 0 n).map UInt16.ofNat).Nodup := by
  refine List.Nodup.map_on ?_ List.nodup_range'
  intro i hi j hj hij
  simp only [List.mem_range'_1] at hi hj
  have := congrArg UInt16.toNat hij
  simp only [UInt16.toNat_ofNat'] at this
  omega

/-- Every registration of the sequence returns a fresh index, and after each of them all
indices lead to the constants registered under them. -/
def KeepsConstants (constants : List (List UInt8)) : Prop :=
  ∀ calls, calls <+: constants → ∃ indices p,
    registerConstants vmStaticInit.constPool calls = .ok (indices, p) ∧ indices.Nodup ∧
      indices.map p.constantAt = calls.map some

/-- All constants of a sequence that the pool keeps are the one stored last. -/
lemma KeepsConstants.all_eq {constants : List (List UInt8)} (hkeeps : KeepsConstants constants) :
    constants.length ≤ 64 ∧ ∃ last, last.length ≤ 4093 ∧ ∀ c ∈ constants, c = last := by
  obtain ⟨indices, p, hrun, -, hmap⟩ := hkeeps constants (List.prefix_refl _)
  obtain ⟨hindices, hfit, hp⟩ := registerConstants_holds poolHolds_init hrun
  rw [Nat.zero_add] at hp
  refine ⟨hp.le, (constants.map storedConstant).getLastD [], ?_, ?_⟩
  · rcases List.eq_nil_or_concat constants with rfl | ⟨init, d, rfl⟩
    · simp
    · have hd : d.length % 2 ^ 16 ≤ 4093 := hfit d (by simp)
      simpa [length_storedConstant] using hd
  · intro c hc
    obtain ⟨i, hi, rfl⟩ := List.getElem_of_mem hc
    have hlast : ((constants.map storedConstant).getLastD []).length < 2 ^ 16 := by
      rcases List.eq_nil_or_concat constants with rfl | ⟨init, d, rfl⟩
      · simp
      · simpa [length_storedConstant] using Nat.mod_lt d.length (by decide)
    have hat := constantAt_eq hp hlast hi
    have hmi := congrArg (·[i]?) hmap
    simp only [List.getElem?_map, hindices] at hmi
    rw [List.getElem?_range' hi] at hmi
    simpa [hat, hi] using hmi.symm

/-- The pool keeps a sequence of constants exactly when there are at most 64 of them, all
equal and at most 4093 bytes long. -/
theorem constants_kept_iff (constants : List (List UInt8)) :
    KeepsConstants constants ↔ constants.length ≤ 64 ∧ (∀ c ∈ constants, c.length ≤ 4093) ∧
      ∀ c ∈ constants, ∀ d ∈ constants, c = d := by
  constructor
  · intro hkeeps
    obtain ⟨hlen, last, hlast, hall⟩ := hkeeps.all_eq
    refine ⟨hlen, fun c hc => by rw [hall c hc]; exact hlast, ?_⟩
    intro c hc d hd
    rw [hall c hc, hall d hd]
  · rintro ⟨hlen, hfit, heq⟩ calls ⟨rest, rfl⟩
    have hmem : ∀ c ∈ calls, c ∈ calls ++ rest := fun c hc => by simp [hc]
    rw [List.length_append] at hlen
    have hstored : ∀ c ∈ calls, storedConstant c = c := fun c hc =>
      storedConstant_eq (lt_of_le_of_lt (hfit c (hmem c hc)) (by decide))
    obtain ⟨indices, p, hrun⟩ := registerConstants_ok poolHolds_init
      (show 0 + calls.length ≤ 64 by omega)
      fun c hc => le_trans (Nat.mod_le _ _) (hfit c (hmem c hc))
    obtain ⟨hindices, -, hp⟩ := registerConstants_holds poolHolds_init hrun
    rw [Nat.zero_add] at hp
    refine ⟨indices, p, hrun, hindices ▸ nodup_indices _ (by omega), ?_⟩
    apply List.ext_getElem?
    intro i
    simp only [hindices, List.getElem?_map]
    by_cases hi : i < calls.length
    · have hlast : (calls.map storedConstant).getLastD [] = calls[i] := by
        have hne : calls ≠ [] := by rintro rfl; simp at hi
        rw [List.map_congr_left hstored, List.map_id', List.getLastD_eq_getLast?,
          List.getLast?_eq_some_getLast hne]
        exact heq _ (hmem _ (List.getLast_mem hne)) _ (hmem _ (List.getElem_mem hi))
      rw [hlast] at hp
      have hat := constantAt_eq hp
        (lt_of_le_of_lt (hfit _ (hmem _ (List.getElem_mem hi))) (by decide)) hi
      rw [List.getElem?_range' hi]
      simp [hat, hi]
    · rw [List.getElem?_eq_none (by simpa using hi), List.getElem?_eq_none (by simpa using hi)]
      rfl

/-- After `"A"` and `"B"` both indices lead to `"B"`. -/
theorem constants_not_kept : ¬ KeepsConstants [[65], [66]] := by
  intro hkeeps
  obtain ⟨-, last, -, hall⟩ := hkeeps.all_eq
  have hA : [65] = last := hall [65] (by simp)
  have hB : [66] = last := hall [66] (by simp)
  rw [← hA] at hB
  simp at hB

/-! ## Function registration -/

/-- The type letters of a parameter in a signature. -/
inductive ArgType
  | int
  | float
deriving DecidableEq

def ArgType.letter : ArgType → UInt8
  | .int => 73
  | .float => 70

/-- A function to register: a well-formed signature, and its header and bytecode. -/
structure Registration where
  name : CStr
  args : List ArgType
  ret : CStr
  data : List UInt8
  name_ok : ∀ b ∈ name, b ≠ 0 ∧ b ≠ 40 ∧ b ≠ 41
  ret_ok : ret.length ≤ 1 ∧ 0 ∉ ret
  data_ok : 4 ≤ data.length

/-- `name(args)ret` -/
def Registration.signature (r : Registration) : CStr :=
  r.name ++ 40 :: (r.args.map ArgType.letter ++ 41 :: r.ret)

/-- The handle that belongs to a function registered under `index`. -/
def Registration.handle (r : Registration) (index : UInt16) : FuncHandle where
  signatureIndex := index
  argSize := UInt16.ofNat (4 * r.args.length)
  varsSize := be16toh (r.data.getD 0 0) (r.data.getD 1 0) * 4
  stackSize := be16toh (r.data.getD 2 0) (r.data.getD 3 0)
  bytecodeSize := r.data.length
  bytecodeData := r.data

/-- A sequence of function registrations. -/
def registerFuncs (fuel : ℕ) : Vm → List Registration → Except VmStop (List UInt16 × Vm)
  | vm, [] => .ok ([], vm)
  | vm, r :: rs => do
    let (index, _, vm) ← vmRegister fuel vm r.signature r.data
    let (indices, vm) ← registerFuncs fuel vm rs
    .ok (index :: indices, vm)

/-- After each registration of the sequence, a call of any index enters the function
registered under it. -/
def DispatchesCalls (rs : List Registration) : Prop :=
  ∀ calls, calls <+: rs → ∃ fuel indices vm,
    registerFuncs fuel vmStaticInit calls = .ok (indices, vm) ∧ indices.length = calls.length ∧
      ∀ r index, (r, index) ∈ calls.zip indices → vm.callHandle index = .ok (r.handle index)

/-- `vm_register_function` leaves the constant pool as it is. -/
lemma vmRegisterFunction_constPool {fuel : ℕ} {vm vm' : Vm} {index : UInt16}
    {data : List UInt8} {handle : FuncHandle}
    (h : vmRegisterFunction fuel vm index data = .ok (handle, vm')) :
    vm'.constPool = vm.constPool := by
  simp only [vmRegisterFunction, except_bind_eq_ok] at h
  obtain ⟨off, -, argsSize, -, h⟩ := h
  split at h
  · simp only [except_bind_eq_ok] at h
    obtain ⟨funcs, -, h⟩ := h
    split at h
    · cases h
    · cases h
      rfl
  · cases h

/-- A registration that succeeds stores one more constant in the pool. -/
lemma vmRegister_holds {fuel n : ℕ} {last signature data : List UInt8} {vm vm' : Vm}
    {index : UInt16} {handle : FuncHandle} (h : PoolHolds n last vm.constPool)
    (hreg : vmRegister fuel vm signature data = .ok (index, handle, vm')) :
    index = UInt16.ofNat n ∧ signature.length % 2 ^ 16 ≤ 4093 ∧
      PoolHolds (n + 1) (storedConstant signature) vm'.constPool := by
  simp only [vmRegister, except_bind_eq_ok, Prod.exists] at hreg
  obtain ⟨i, p, hconst, handle', vm₁, hfunc, hres⟩ := hreg
  cases hres
  have hgood : n < 64 ∧ signature.length % 2 ^ 16 ≤ 4093 := by
    by_contra hbad
    have hle := h.le
    rw [vmRegisterConstant_fault h (by omega)] at hconst
    cases hconst
  obtain ⟨p', hconst', hp', -⟩ := vmRegisterConstant_ok h hgood.1 hgood.2
  rw [hconst'] at hconst
  cases hconst
  rw [vmRegisterFunction_constPool hfunc]
  exact ⟨rfl, hgood.2, hp'⟩

/-- All indices lead to the start of the pool, so they find one handle. -/
lemma callHandle_eq {n i j : ℕ} {last : List UInt8} {vm : Vm}
    (h : PoolHolds n last vm.constPool) (hi : i < n) (hj : j < n) :
    vm.callHandle (UInt16.ofNat i) = vm.callHandle (UInt16.ofNat j) := by
  obtain ⟨entries, hindex, -, hzero⟩ := h.index
  have hread : ∀ k < n, readBlock vm.constPool.index (UInt16.ofNat k).toNat = .ok 0 := by
    intro k hk
    have hnat : (UInt16.ofNat k).toNat = k := by
      have := h.le
      rw [UInt16.toNat_ofNat']
      omega
    simp [readBlock, hindex, hnat, hzero k hk]
  simp only [Vm.callHandle, hread i hi, hread j hj]

/-- Both indices of two registrations find the same handle, so one of the two functions is
not called. -/
lemma not_dispatchesCalls_two (a b : Registration) (rest : List Registration) :
    ¬ DispatchesCalls (a :: b :: rest) := by
  intro h
  obtain ⟨fuel, indices, vm, hrun, -, hcall⟩ := h [a, b] ⟨rest, rfl⟩
  simp only [registerFuncs, except_bind_eq_ok, Prod.exists] at hrun
  obtain ⟨i, ha, vm₁, hreg₁, is, vm₂, ⟨j, hb, vm₃, hreg₂, js, vm₄, hnil, hres₁⟩, hres₂⟩ := hrun
  cases hnil
  cases hres₁
  cases hres₂
  obtain ⟨hi, -, h₁⟩ := vmRegister_holds poolHolds_init hreg₁
  obtain ⟨hj, -, h₂⟩ := vmRegister_holds h₁ hreg₂
  have ha := hcall a i (by simp)
  have hb := hcall b j (by simp)
  rw [hi, callHandle_eq h₂ (show 0 < 0 + 1 + 1 by omega) (show 0 + 1 < 0 + 1 + 1 by omega), ← hj,
    hb] at ha
  have hindex : j = UInt16.ofNat 0 := congrArg FuncHandle.signatureIndex (Except.ok.inj ha)
  rw [hj] at hindex
  exact absurd hindex (by decide)

/-! ## A single function -/

/-- The argument loop of `vm_register_function` on the letters of the parameters. -/
lemma argsSizeLoop_letters (args : List ArgType) (cells : List (Option UInt8)) (size : UInt16) :
    argsSizeLoop ((args.map ArgType.letter).map some ++ some 41 :: cells) size
      = .ok (size + UInt16.ofNat (4 * args.length)) := by
  induction args generalizing size with
  | nil => simp [argsSizeLoop]
  | cons arg args ih =>
    have hletter : arg.letter ≠ 41 ∧ (arg.letter = 73 ∨ arg.letter = 70) := by
      cases arg <;> decide
    have hsize : size + 4 + UInt16.ofNat (4 * args.length)
        = size + UInt16.ofNat (4 * (args.length + 1)) := by
      rw [Nat.mul_succ, Nat.add_comm, UInt16.ofNat_add, UInt16.add_assoc]
      rfl
    simp only [List.map_cons, List.cons_append, argsSizeLoop, if_neg hletter.1,
      if_pos hletter.2, List.length_cons]
    rw [ih, hsize]

/-- The scan goes up to the first opening parenthesis. -/
lemma signatureArgsSize_name {name : CStr} (h : ∀ b ∈ name, b ≠ 40)
    (cells : List (Option UInt8)) :
    signatureArgsSize (name.map some ++ some 40 :: cells) = argsSizeLoop cells 0 := by
  induction name with
  | nil => simp [signatureArgsSize]
  | cons b name ih =>
    rw [List.map_cons, List.cons_append, signatureArgsSize, if_neg (h b (by simp)),
      ih fun b' hb' => h b' (by simp [hb'])]

/-- The scan finds the size of the arguments of a well-formed signature. -/
lemma signatureArgsSize_signature (r : Registration) (cells : List (Option UInt8)) :
    signatureArgsSize (r.signature.map some ++ cells)
      = .ok (UInt16.ofNat (4 * r.args.length)) := by
  have happ : r.signature.map some ++ cells = r.name.map some ++ some 40 ::
      ((r.args.map ArgType.letter).map some ++ some 41 :: (r.ret.map some ++ cells)) := by
    simp [Registration.signature]
  rw [happ, signatureArgsSize_name fun b hb => (r.name_ok b hb).2.1, argsSizeLoop_letters]
  simp

/-- A scan that succeeds has met a closing parenthesis. -/
lemma mem_of_signatureArgsSize {cells : List (Option UInt8)} {size : UInt16}
    (h : signatureArgsSize cells = .ok size) : some 41 ∈ cells := by
  have hloop : ∀ (cells : List (Option UInt8)) (acc : UInt16),
      argsSizeLoop cells acc = .ok size → some 41 ∈ cells := by
    intro cells
    induction cells with
    | nil => intro acc h; cases h
    | cons cell cells ih =>
      intro acc h
      cases cell with
      | none => cases h
      | some b =>
        rw [argsSizeLoop] at h
        split at h
        · next hb => simp [hb]
        split at h
        · exact List.mem_cons_of_mem _ (ih _ h)
        · cases h
  induction cells with
  | nil => cases h
  | cons cell cells ih =>
    cases cell with
    | none => cases h
    | some b =>
      rw [signatureArgsSize] at h
      split at h
      · exact List.mem_cons_of_mem _ (hloop _ _ h)
      · exact List.mem_cons_of_mem _ (ih h)

/-- The bytes stored for a signature of 65536 bytes or more end before its parenthesis. -/
lemma not_mem_storedConstant (r : Registration) (h : 2 ^ 16 ≤ r.signature.length) :
    41 ∉ storedConstant r.signature := by
  have hlen : r.signature.length = r.name.length + 1 + r.args.length + 1 + r.ret.length := by
    simp only [Registration.signature, List.length_append, List.length_cons, List.length_map]
    omega
  have hret := r.ret_ok.1
  have hsplit : r.signature = (r.name ++ 40 :: r.args.map ArgType.letter) ++ 41 :: r.ret := by
    simp [Registration.signature]
  have hmod : r.signature.length % 2 ^ 16 ≤ r.signature.length - 2 ^ 16 := by
    rw [Nat.mod_eq_sub_mod h]
    exact Nat.mod_le _ _
  have htake : storedConstant r.signature
      = (r.name ++ 40 :: r.args.map ArgType.letter).take (r.signature.length % 2 ^ 16) := by
    rw [storedConstant]
    nth_rewrite 2 [hsplit]
    rw [List.take_append_of_le_length]
    simp only [List.length_append, List.length_cons, List.length_map]
    omega
  rw [htake]
  intro hmem
  have hmem := List.mem_of_mem_take hmem
  simp only [List.mem_append, List.mem_cons, List.mem_map] at hmem
  rcases hmem with hmem | hmem | ⟨arg, -, hmem⟩
  · exact (r.name_ok _ hmem).2.2 rfl
  · exact absurd hmem (by decide)
  · cases arg <;> exact absurd hmem (by decide)

/-- A C string reads back up to its terminator. -/
lemma cString_append {s : CStr} (h : 0 ∉ s) (cells : List (Option UInt8)) :
    cString (s.map some ++ some 0 :: cells) = some s := by
  induction s with
  | nil => simp [cString]
  | cons b s ih =>
    simp only [List.mem_cons, not_or] at h
    simp only [List.map_cons, List.cons_append, cString, if_neg (Ne.symm h.1), ih h.2,
      Option.map_some]

/-- What lies behind the length of a record. -/
lemma drop_constantRecord (constant : List UInt8) (cells : List (Option UInt8)) :
    ((constantRecord constant).map some ++ cells).drop 2
      = constant.map some ++ some 0 :: cells := by
  simp [constantRecord, bytesLE16]

lemma zero_not_mem_signature (r : Registration) : 0 ∉ r.signature := by
  simp only [Registration.signature, List.mem_append, List.mem_cons, List.mem_map, not_or]
  refine ⟨fun h => (r.name_ok 0 h).1 rfl, by decide, ?_, by decide, r.ret_ok.2⟩
  rintro ⟨arg, -, h⟩
  cases arg <;> exact absurd h (by decide)

/-- The first constant lies at the start of a pool that holds nothing else. -/
lemma vmRegisterConstant_first {signature : CStr} (hfit : signature.length % 2 ^ 16 ≤ 4093) :
    ∃ p, vmRegisterConstant vmStaticInit.constPool signature = .ok (0, p) ∧
      readBlock p.index 0 = .ok 0 ∧ ∃ k,
        p.pool = some ((constantRecord (storedConstant signature)).map some ++
          List.replicate k none) := by
  obtain ⟨p, hconst, hp, hpool⟩ := vmRegisterConstant_ok poolHolds_init (by omega) hfit
  obtain ⟨entries, hindex, -, hzero⟩ := hp.index
  refine ⟨p, hconst, by simp [readBlock, hindex, hzero 0 (by omega)], ?_⟩
  have hcells := hpool (List.replicate globalConstPoolInitialSize none) rfl
  rw [splice_zero, List.drop_replicate] at hcells
  exact ⟨_, hcells⟩

/-- `vm_register_function` when the function array has room and the map takes the handle. -/
lemma vmRegisterFunction_eq {fuel : ℕ} {vm : Vm} {index : UInt16} {off : UInt32}
    {argsSize : UInt16} {varsHi varsLo stackHi stackLo : UInt8} {body : List UInt8}
    {funcs : List (Option FuncHandle)} {map : Hashmap ℕ FuncHandle} {ret : ℤ}
    {data : List UInt8} {handle : FuncHandle}
    (hdata : data = varsHi :: varsLo :: stackHi :: stackLo :: body)
    (hhandle : handle = ⟨index, argsSize, be16toh varsHi varsLo * 4, be16toh stackHi stackLo,
      data.length, data⟩)
    (hcap : vm.globalFuncs.funcsSize ≠ vm.globalFuncs.funcsCap)
    (hread : readBlock vm.constPool.index index.toNat = .ok off)
    (hargs : signatureArgsSize ((vm.constPool.pool.getD []).drop (off.toNat + 2)) = .ok argsSize)
    (hfuncs : writeBlock vm.globalFuncs.funcs vm.globalFuncs.funcsSize [handle] = .ok funcs)
    (hput : hashmapPut vm.constPool.key (fun _ => true) fuel vm.globalFuncs.funcMap
      (off.toNat + 2) handle = some (ret, map)) :
    vmRegisterFunction fuel vm index data = .ok (handle, { vm with globalFuncs :=
      { vm.globalFuncs with
        funcs := some funcs, funcsSize := vm.globalFuncs.funcsSize + 1, funcMap := map } }) := by
  subst hdata
  subst hhandle
  simp only [vmRegisterFunction, if_neg hcap, hread, except_ok_bind, hargs, hfuncs, hput]

/-- The registration of a first function under index 0. -/
private lemma vmRegisterFunction_first {p : ConstPool} {r : Registration}
    {map : Hashmap ℕ FuncHandle} (hindex : readBlock p.index 0 = .ok 0)
    (hargs : signatureArgsSize ((p.pool.getD []).drop 2)
      = .ok (UInt16.ofNat (4 * r.args.length)))
    (hput : hashmapPut p.key (fun _ => true) 1 hashmapNew 2 (r.handle 0) = some (mapOk, map)) :
    ∃ g, g.funcMap = map ∧
      vmRegisterFunction 1 { vmStaticInit with constPool := p } 0 r.data
        = .ok (r.handle 0, ⟨p, g⟩) := by
  obtain ⟨varsHi, varsLo, stackHi, stackLo, body, hdata⟩ :
      ∃ varsHi varsLo stackHi stackLo body,
        r.data = varsHi :: varsLo :: stackHi :: stackLo :: body := by
    match hd : r.data, r.data_ok with
    | varsHi :: varsLo :: stackHi :: stackLo :: body, _ => exact ⟨_, _, _, _, _, rfl⟩
  have hhandle : r.handle 0 = ⟨0, UInt16.ofNat (4 * r.args.length), be16toh varsHi varsLo * 4,
      be16toh stackHi stackLo, r.data.length, r.data⟩ := by
    simp [Registration.handle, hdata]
  obtain ⟨funcs, hfuncs⟩ : ∃ funcs, writeBlock vmStaticInit.globalFuncs.funcs
      vmStaticInit.globalFuncs.funcsSize [r.handle 0] = .ok funcs := by
    simp only [writeBlock, vmStaticInit, List.length_replicate, List.length_singleton]
    exact ⟨_, if_pos (by decide)⟩
  have hcap : vmStaticInit.globalFuncs.funcsSize ≠ vmStaticInit.globalFuncs.funcsCap := by
    decide
  have htwo : (0 : UInt32).toNat + 2 = 2 := rfl
  rw [← htwo] at hargs hput
  exact ⟨{ vmStaticInit.globalFuncs with
    funcs := some funcs, funcsSize := vmStaticInit.globalFuncs.funcsSize + 1, funcMap := map },
    rfl, vmRegisterFunction_eq hdata hhandle hcap hindex hargs hfuncs hput⟩

/-- One registered function is found under its index. -/
lemma dispatches_one (r : Registration) (hfit : r.signature.length ≤ 4093) :
    ∃ vm, registerFuncs 1 vmStaticInit [r] = .ok ([0], vm) ∧
      vm.callHandle 0 = .ok (r.handle 0) := by
  have hstored : storedConstant r.signature = r.signature :=
    storedConstant_eq (lt_of_le_of_lt hfit (by decide))
  obtain ⟨p, hconst, hindex, k, hpool⟩ :=
    vmRegisterConstant_first (le_trans (Nat.mod_le _ _) hfit)
  rw [hstored] at hpool
  have hstring : p.stringAt 2 = some r.signature := by
    rw [ConstPool.stringAt, hpool, Option.bind_some, drop_constantRecord,
      cString_append (zero_not_mem_signature r)]
  have hkey : p.key 2 = r.signature := by rw [ConstPool.key, hstring, Option.getD_some]
  have hargs : signatureArgsSize ((p.pool.getD []).drop 2)
      = .ok (UInt16.ofNat (4 * r.args.length)) := by
    rw [hpool, Option.getD_some, drop_constantRecord, signatureArgsSize_signature]
  obtain ⟨map, hput⟩ : ∃ map, hashmapPut p.key (fun _ => true) 1 hashmapNew 2 (r.handle 0)
      = some (mapOk, map) := ⟨_, hashmapPut_new 0 _ _ _ _⟩
  obtain ⟨-, hmap, -⟩ := hashmapPut_holds (fun _ => rfl) (mapHolds_empty _ _)
    (.inr (clean_empty _ _ _)) hput
  obtain ⟨g, hg, hfunc⟩ := vmRegisterFunction_first hindex hargs hput
  refine ⟨⟨p, g⟩, ?_, ?_⟩
  · simp only [registerFuncs, vmRegister, hconst, hfunc, except_ok_bind]
  · have hread : readBlock p.index (0 : UInt16).toNat = .ok 0 := hindex
    have hfound : hashmapGet p.key map r.signature = some (r.handle 0) := by
      rw [hashmapGet_eq hmap, hkey, Function.update_self]
    have hstring' : p.stringAt ((0 : UInt32).toNat + 2) = some r.signature := hstring
    simp only [Vm.callHandle, hread, except_ok_bind, hstring', hg, hfound]

/-- A signature that does not fit stops the registration. -/
lemma registerFuncs_long (r : Registration) (hlong : 4093 < r.signature.length) {fuel : ℕ}
    {res : List UInt16 × Vm} : registerFuncs fuel vmStaticInit [r] ≠ .ok res := by
  intro hrun
  simp only [registerFuncs, vmRegister, except_bind_eq_ok, Prod.exists] at hrun
  obtain ⟨index, handle, vm, ⟨index', p, hconst, handle', vm', hfunc, -⟩, -⟩ := hrun
  have hfit : r.signature.length % 2 ^ 16 ≤ 4093 := by
    by_contra hbad
    rw [vmRegisterConstant_fault poolHolds_init (.inr (by omega))] at hconst
    cases hconst
  have hbig : 2 ^ 16 ≤ r.signature.length := by
    by_contra hsmall
    rw [Nat.mod_eq_of_lt (by omega)] at hfit
    omega
  obtain ⟨p', hconst', hindex, k, hpool⟩ := vmRegisterConstant_first hfit
  rw [hconst'] at hconst
  cases hconst
  simp only [vmRegisterFunction, except_bind_eq_ok] at hfunc
  obtain ⟨off, hoff, size, hsize, -⟩ := hfunc
  obtain rfl : off = 0 := Except.ok.inj (hoff.symm.trans hindex)
  -- the stored bytes have no closing parenthesis, and nothing is written behind them
  have hmem := mem_of_signatureArgsSize hsize
  rw [hpool, Option.getD_some] at hmem
  change some 41 ∈ List.drop 2 _ at hmem
  rw [drop_constantRecord] at hmem
  have hstored := not_mem_storedConstant r hbig
  simp [hstored, List.mem_replicate] at hmem

/-- Calls are dispatched to the functions that were registered exactly when there is at most
one of them, with a signature of at most 4093 bytes. -/
theorem calls_dispatched_iff (rs : List Registration) :
    DispatchesCalls rs ↔ rs.length ≤ 1 ∧ ∀ r ∈ rs, r.signature.length ≤ 4093 := by
  match rs with
  | [] =>
    simp only [List.length_nil, Nat.zero_le, List.not_mem_nil, false_implies, implies_true,
      and_self, iff_true]
    intro calls hcalls
    obtain rfl := List.prefix_nil.mp hcalls
    exact ⟨0, [], vmStaticInit, rfl, rfl, by simp⟩
  | [r] =>
    constructor
    · intro h
      refine ⟨le_refl _, fun r' hr' => ?_⟩
      obtain rfl := List.mem_singleton.mp hr'
      obtain ⟨fuel, indices, vm, hrun, -, -⟩ := h [r'] (List.prefix_refl _)
      by_contra hlong
      exact registerFuncs_long r' (by omega) hrun
    · rintro ⟨-, hfit⟩ calls hcalls
      have hfit := hfit r (by simp)
      rcases List.eq_nil_or_concat calls with rfl | ⟨init, last, rfl⟩
      · exact ⟨0, [], vmStaticInit, rfl, rfl, by simp⟩
      · obtain ⟨rfl, rfl⟩ : init = [] ∧ last = r := by
          obtain ⟨tail, htail⟩ := hcalls
          cases init with
          | nil => exact ⟨rfl, by simpa using (List.cons.inj htail).1⟩
          | cons a init => exact absurd (List.cons.inj htail).2 (by simp)
        obtain ⟨vm, hrun, hcall⟩ := dispatches_one last hfit
        refine ⟨1, [0], vm, hrun, rfl, ?_⟩
        intro r' index hmem
        simp only [List.concat_eq_append, List.nil_append, List.zip_cons_cons, List.zip_nil_right,
          List.mem_singleton, Prod.mk.injEq] at hmem
        rw [hmem.1, hmem.2, hcall]
  | a :: b :: rest =>
    constructor
    · intro h
      exact absurd h (not_dispatchesCalls_two a b rest)
    · rintro ⟨hlen, -⟩
      simp at hlen

/-- A function without parameters and with an empty body. -/
def emptyFunction (name : UInt8) (h : name ≠ 0 ∧ name ≠ 40 ∧ name ≠ 41) : Registration where
  name := [name]
  args := []
  ret := [86]
  data := [0, 0, 0, 0]
  name_ok := by simpa using h
  ret_ok := by decide
  data_ok := by decide

/-- `f()V` and `g()V`: a call of the first enters the second. -/
theorem calls_not_dispatched :
    ((emptyFunction 102 (by decide)).signature ≠ (emptyFunction 103 (by decide)).signature) ∧
      ¬ DispatchesCalls [emptyFunction 102 (by decide), emptyFunction 103 (by decide)] :=
  ⟨by decide, not_dispatchesCalls_two _ _ _⟩

end PhantomShell
