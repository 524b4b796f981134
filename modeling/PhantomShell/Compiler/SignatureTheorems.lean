import PhantomShell.Compiler.ProgramTheorems
import PhantomShell.Vm.TableGrowth

/-!
# Signatures of functions

The string that `compiler_define_func` builds for a declaration, against the scan that
`vm_register_function` makes of it.
-/

namespace PhantomShell

/-! ## Declarations -/

/-- A byte of the class `[_a-zA-Z0-9]`. -/
def identifierByte (b : UInt8) : Bool :=
  b = 95 ∨ 97 ≤ b ∧ b ≤ 122 ∨ 65 ≤ b ∧ b ≤ 90 ∨ 48 ≤ b ∧ b ≤ 57

/-- `[_a-zA-Z][_a-zA-Z0-9]*` -/
def isIdentifier : CStr → Bool
  | [] => false
  | b :: rest => identifierByte b && !(48 ≤ b && b ≤ 57) && rest.all identifierByte

def intName : CStr := [105, 110, 116]
def floatName : CStr := [102, 108, 111, 97, 116]
def voidName : CStr := [118, 111, 105, 100]

/-- The type names that `type_signature_by_name` accepts. -/
def typeNames : List CStr := [intName, floatName, voidName]

/-- The name, a letter for each parameter in parentheses, and the letter of the return type if
there is one. -/
def signatureText (node : DeclFunc) : CStr :=
  node.name ++ 40 :: ((node.args.map fun arg => typeLetter arg.2).flatten ++
    41 :: (node.retType.map typeLetter).getD [])

/-- What `compiler_define_func` is to return. -/
def descOf (node : DeclFunc) : FuncDesc := ⟨node.name, node.args, signatureText node⟩

/-- A declaration of the grammar with a new name, types that have a letter, and a name for which
`hashmap_put` returns. -/
structure Declarable (node : DeclFunc) (s : CompilerState) : Prop where
  name : isIdentifier node.name
  fresh : hashmapGet id s.globalFuncMap node.name = none
  args : ∀ arg ∈ node.args, arg.2 ∈ typeNames
  ret : ∀ typeName ∈ node.retType, typeName ∈ typeNames
  stored : ∃ fuel map, hashmapPut id (fun _ => true) fuel s.globalFuncMap node.name (descOf node)
    = some (mapOk, map)

/-- The compiler builds the text. On a machine with fewer than 64 registered functions the
registration of a function with this text succeeds and counts four bytes for a parameter, and no
state of the constant pool makes the machine panic on it. -/
structure SignatureAgrees (node : DeclFunc) (s : CompilerState) : Prop where
  built : ∃ fuel s', compilerDefineFunc fuel node s = .ok (descOf node) s'
  registered : ∀ fuel handles vm data, Registered handles vm → handles.length < 64 →
    4 ≤ data.length → ∃ index handle vm',
      vmRegister (fuel + 1) vm (signatureText node) data = .ok (index, handle, vm') ∧
        handle.argSize.toNat = 4 * node.args.length
  accepted : ∀ fuel n last vm data message, PoolHolds n last vm.constPool →
    vmRegister fuel vm (signatureText node) data ≠ .error (.panic message)

lemma identifierByte_ne {b : UInt8} (h : identifierByte b) : b ≠ 0 ∧ b ≠ 40 ∧ b ≠ 41 := by
  refine ⟨?_, ?_, ?_⟩ <;>
  · rintro rfl
    revert h
    decide

lemma isIdentifier_bytes {name : CStr} (h : isIdentifier name) :
    ∀ b ∈ name, identifierByte b := by
  cases name with
  | nil => simp
  | cons b rest =>
    simp only [isIdentifier, Bool.and_eq_true, List.all_eq_true] at h
    intro b' hb'
    rcases List.mem_cons.mp hb' with rfl | hb'
    · exact h.1.1
    · exact h.2 b' hb'

/-! ## The encoder -/

lemma typeSignatureByName_eq {typeName : CStr} (h : typeName ∈ typeNames) (s : CompilerState) :
    typeSignatureByName typeName s = .ok (typeLetter typeName) s := by
  simp only [typeNames, List.mem_cons, List.not_mem_nil, or_false] at h
  rcases h with rfl | rfl | rfl <;> rfl

lemma argTypes_eq {args : List (CStr × CStr)} (h : ∀ arg ∈ args, arg.2 ∈ typeNames)
    (s : CompilerState) :
    (args.mapM fun arg => typeSignatureByName arg.2) s
      = .ok (args.map fun arg => typeLetter arg.2) s := by
  induction args with
  | nil => rfl
  | cons arg args ih =>
    rw [List.mapM_cons]
    refine estate_bind_eq_ok.mpr ⟨_, s, typeSignatureByName_eq (h arg (by simp)) s, ?_⟩
    exact estate_bind_eq_ok.mpr ⟨_, s, ih fun arg harg => h arg (by simp [harg]), rfl⟩

/-- The function is described and added to `global_func_map`. -/
lemma Declarable.define {node : DeclFunc} {s : CompilerState} (h : Declarable node s)
    (hret : node.retType.isSome) (hlen : (signatureText node).length < signatureBufferSize)
    {fuel : ℕ} {map : Hashmap CStr FuncDesc}
    (hput : hashmapPut id (fun _ => true) fuel s.globalFuncMap node.name (descOf node)
      = some (mapOk, map)) :
    compilerDefineFunc fuel node s = .ok (descOf node) { s with globalFuncMap := map } := by
  obtain ⟨retType, hret⟩ := Option.isSome_iff_exists.mp hret
  have htext : signatureText node = node.name ++ 40 ::
      ((node.args.map fun arg => typeLetter arg.2).flatten ++ 41 :: typeLetter retType) := by
    simp [signatureText, hret]
  rw [descOf, htext] at hput
  rw [htext] at hlen
  rw [descOf, htext]
  simp only [compilerDefineFunc, estate_bind_eq_ok, estate_get_eq_ok]
  refine ⟨s, s, ⟨rfl, rfl⟩, ?_⟩
  rw [h.fresh, if_neg (by simp)]
  refine estate_bind_eq_ok.mpr ⟨_, s, argTypes_eq h.args s, ?_⟩
  simp only [hret]
  refine estate_bind_eq_ok.mpr ⟨_, s, typeSignatureByName_eq (h.ret retType hret) s, ?_⟩
  rw [if_neg (by omega)]
  refine estate_bind_eq_ok.mpr ⟨s, s, rfl, ?_⟩
  rw [hput]
  rfl

/-- The text is built exactly if there is a return type and the text has room for its
terminator. -/
lemma Declarable.built_iff {node : DeclFunc} {s : CompilerState} (h : Declarable node s) :
    (∃ fuel s', compilerDefineFunc fuel node s = .ok (descOf node) s') ↔
      node.retType.isSome ∧ (signatureText node).length < signatureBufferSize := by
  constructor
  · rintro ⟨fuel, s', hdefine⟩
    simp only [compilerDefineFunc, estate_bind_eq_ok, estate_get_eq_ok] at hdefine
    obtain ⟨_, _, ⟨rfl, rfl⟩, hdefine⟩ := hdefine
    rw [h.fresh, if_neg (by simp)] at hdefine
    obtain ⟨letters, s₁, hletters, hdefine⟩ := estate_bind_eq_ok.mp hdefine
    obtain ⟨rfl, rfl⟩ := argTypes_eq_ok hletters
    cases hret : node.retType with
    | none =>
      simp only [hret] at hdefine
      exact (estate_throw_eq_ok.mp hdefine).elim
    | some retType =>
      simp only [hret] at hdefine
      obtain ⟨ret, s₂, hretSig, hdefine⟩ := estate_bind_eq_ok.mp hdefine
      obtain ⟨rfl, rfl⟩ := typeSignatureByName_eq_ok hretSig
      refine ⟨rfl, ?_⟩
      by_contra hlong
      simp only [signatureText, hret, Option.map_some, Option.getD_some, not_lt] at hlong
      rw [if_pos hlong] at hdefine
      exact (estate_throw_eq_ok.mp hdefine).elim
  · rintro ⟨hret, hlen⟩
    obtain ⟨fuel, map, hput⟩ := h.stored
    exact ⟨fuel, _, h.define hret hlen hput⟩

/-! ## The scan -/

/-- The parameters as the machine knows them. -/
def argTypeOf (typeName : CStr) : ArgType := if typeName = intName then .int else .float

lemma flatten_letters {args : List (CStr × CStr)}
    (h : ∀ arg ∈ args, arg.2 ∈ typeNames ∧ arg.2 ≠ voidName) :
    (args.map fun arg => typeLetter arg.2).flatten
      = (args.map fun arg => argTypeOf arg.2).map ArgType.letter := by
  induction args with
  | nil => rfl
  | cons arg args ih =>
    have hletter : typeLetter arg.2 = [(argTypeOf arg.2).letter] := by
      obtain ⟨hmem, hvoid⟩ := h arg (by simp)
      simp only [typeNames, List.mem_cons, List.not_mem_nil, or_false] at hmem
      rcases hmem with hint | hfloat | hv
      · rw [hint]
        decide
      · rw [hfloat]
        decide
      · exact absurd hv hvoid
    rw [List.map_cons, List.flatten_cons, ih fun arg harg => h arg (by simp [harg]), hletter]
    rfl

lemma writeBlock_error {α : Type} {block : Option (List (Option α))} {off : ℕ} {data : List α}
    {e : VmStop} (h : writeBlock block off data = .error e) : e = .fault .memory := by
  unfold writeBlock at h
  split at h
  · cases h
    rfl
  · split at h
    · cases h
    · cases h
      rfl

/-- The scan of `vm_register_function` stops the machine, or its result is in the handle. -/
lemma vmRegister_scan {fuel n : ℕ} {last signature data : List UInt8} {vm : Vm}
    (h : PoolHolds n last vm.constPool) (hlen : signature.length < 2 ^ 16) :
    vmRegister fuel vm signature data = .error (.fault .memory) ∨ ∃ rest,
      match signatureArgsSize (signature.map some ++ some 0 :: rest) with
      | .error e => vmRegister fuel vm signature data = .error e
      | .ok size => vmRegister fuel vm signature data = .error (.fault .memory) ∨
          ∃ index handle vm', vmRegister fuel vm signature data = .ok (index, handle, vm') ∧
            handle.argSize = size := by
  by_cases hfits : n < 64 ∧ signature.length % 2 ^ 16 ≤ 4093
  · obtain ⟨p, hconst, hp, hpool⟩ := vmRegisterConstant_ok h hfits.1 hfits.2
    obtain ⟨cells, hcells, -⟩ := h.pool
    obtain ⟨entries, hentries, -, hzero⟩ := hp.index
    have hread : readBlock p.index (UInt16.ofNat n).toNat = .ok 0 := by
      have hnat : (UInt16.ofNat n).toNat = n := by
        rw [UInt16.toNat_ofNat']
        omega
      simp [readBlock, hentries, hnat, hzero n (by omega)]
    -- the record starts with its length, and the scan with what is behind it
    have hdrop : (p.pool.getD []).drop 2 = signature.map some ++ some 0 ::
        cells.drop (constantRecord signature).length := by
      rw [hpool cells hcells, storedConstant_eq hlen, Option.getD_some, splice_zero,
        drop_constantRecord]
      simp
    right
    refine ⟨cells.drop (constantRecord signature).length, ?_⟩
    rw [← hdrop]
    have hzero' : (0 : UInt32).toNat + 2 = 2 := rfl
    cases hscan : signatureArgsSize ((p.pool.getD []).drop 2) with
    | error e =>
      simp only [vmRegister, hconst, except_ok_bind, vmRegisterFunction, hread, hzero', hscan]
      rfl
    | ok size =>
      simp only [vmRegister, hconst, except_ok_bind, vmRegisterFunction, hread, hzero', hscan]
      split
      · generalize hwrite : writeBlock _ _ [_] = written
        cases written with
        | error e =>
          left
          rw [writeBlock_error hwrite]
          rfl
        | ok funcs =>
          rw [except_ok_bind]
          split
          · left
            rfl
          · right
            exact ⟨_, _, _, rfl, rfl⟩
      · left
        rfl
  · left
    have hbad : n = 64 ∨ 4093 < signature.length % 2 ^ 16 := by
      have hle := h.le
      omega
    simp only [vmRegister, vmRegisterConstant_fault h hbad]
    rfl

/-- The scan stops at a letter that it does not know. -/
lemma argsSizeLoop_panic {letters rest : List UInt8} (hletters : ∀ b ∈ letters, b = 73 ∨ b = 70)
    (size : UInt16) {b : UInt8} (hb : b ≠ 41 ∧ b ≠ 73 ∧ b ≠ 70) (cells : List (Option UInt8)) :
    argsSizeLoop ((letters ++ b :: rest).map some ++ cells) size
      = .error (.panic "Unknown function signature element : in %s at position %zu") := by
  induction letters generalizing size with
  | nil =>
    simp only [List.nil_append, List.map_cons, List.cons_append, argsSizeLoop, if_neg hb.1]
    rw [if_neg (not_or.mpr hb.2)]
  | cons letter letters ih =>
    have hletter := hletters letter (by simp)
    have hne : letter ≠ 41 := by
      rcases hletter with rfl | rfl <;> decide
    simp only [List.cons_append, List.map_cons, argsSizeLoop, if_neg hne, if_pos hletter]
    exact ih (fun b hb => hletters b (by simp [hb])) _

lemma Declarable.name_ne {node : DeclFunc} {s : CompilerState} (h : Declarable node s) :
    ∀ b ∈ node.name, b ≠ 0 ∧ b ≠ 40 ∧ b ≠ 41 :=
  fun b hb => identifierByte_ne (isIdentifier_bytes h.name b hb)

/-- The scan counts the parameters if none of them is `void`. -/
lemma Declarable.scan_ok {node : DeclFunc} {s : CompilerState} (h : Declarable node s)
    (hvoid : ∀ arg ∈ node.args, arg.2 ≠ voidName) (cells : List (Option UInt8)) :
    signatureArgsSize ((signatureText node).map some ++ cells)
      = .ok (UInt16.ofNat (4 * node.args.length)) := by
  have hletters := flatten_letters fun arg harg => ⟨h.args arg harg, hvoid arg harg⟩
  have hsplit : (signatureText node).map some ++ cells = node.name.map some ++ some 40 ::
      (((node.args.map fun arg => argTypeOf arg.2).map ArgType.letter).map some ++ some 41 ::
        (((node.retType.map typeLetter).getD []).map some ++ cells)) := by
    rw [signatureText, hletters]
    simp
  rw [hsplit, signatureArgsSize_name fun b hb => (h.name_ne b hb).2.1, argsSizeLoop_letters]
  simp

/-- The scan panics at the first `void` parameter. -/
lemma Declarable.scan_panic {node : DeclFunc} {s : CompilerState} (h : Declarable node s)
    {arg : CStr × CStr} (harg : arg ∈ node.args) (hvoid : arg.2 = voidName)
    (cells : List (Option UInt8)) :
    signatureArgsSize ((signatureText node).map some ++ cells)
      = .error (.panic "Unknown function signature element : in %s at position %zu") := by
  obtain ⟨first, hfirst⟩ : ∃ first, node.args.find? (fun arg => arg.2 = voidName) = some first := by
    refine Option.isSome_iff_exists.mp (List.find?_isSome.mpr ⟨arg, harg, ?_⟩)
    simpa using hvoid
  obtain ⟨hfirst, before, after, hargs, hbefore⟩ := List.find?_eq_some_iff_append.mp hfirst
  have hletters : (before.map fun arg => typeLetter arg.2).flatten
      = (before.map fun arg => argTypeOf arg.2).map ArgType.letter := by
    refine flatten_letters fun arg harg => ⟨h.args arg (by simp [hargs, harg]), ?_⟩
    simpa using hbefore arg harg
  have hmark : typeLetter first.2 = [86] := by
    rw [of_decide_eq_true hfirst]
    rfl
  have hsplit : (signatureText node).map some ++ cells = node.name.map some ++ some 40 ::
      (((before.map fun arg => argTypeOf arg.2).map ArgType.letter ++ 86 ::
        ((after.map fun arg => typeLetter arg.2).flatten ++
          41 :: (node.retType.map typeLetter).getD [])).map some ++ cells) := by
    have hflat : (node.args.map fun arg => typeLetter arg.2).flatten
        = (before.map fun arg => argTypeOf arg.2).map ArgType.letter ++ 86 ::
          (after.map fun arg => typeLetter arg.2).flatten := by
      rw [hargs, List.map_append, List.flatten_append, hletters, List.map_cons, List.flatten_cons,
        hmark]
      rfl
    rw [signatureText, hflat]
    simp
  rw [hsplit, signatureArgsSize_name fun b hb => (h.name_ne b hb).2.1]
  refine argsSizeLoop_panic ?_ 0 (by decide) cells
  intro b hb
  obtain ⟨arg, -, rfl⟩ := List.mem_map.mp hb
  cases arg <;> decide

/-- There is a letter for each parameter. -/
lemma Declarable.length_args {node : DeclFunc} {s : CompilerState} (h : Declarable node s)
    (hvoid : ∀ arg ∈ node.args, arg.2 ≠ voidName) :
    node.args.length ≤ (signatureText node).length := by
  have hletters := flatten_letters fun arg harg => ⟨h.args arg harg, hvoid arg harg⟩
  simp only [signatureText, hletters, List.length_append, List.length_cons, List.length_map]
  omega

/-- The machine counts four bytes for a parameter. -/
lemma Declarable.argSize_eq {node : DeclFunc} {s : CompilerState} (h : Declarable node s)
    (hlen : (signatureText node).length < signatureBufferSize)
    (hvoid : ∀ arg ∈ node.args, arg.2 ≠ voidName) {fuel n : ℕ} {last data : List UInt8}
    {vm vm' : Vm} {index : UInt16} {handle : FuncHandle} (hpool : PoolHolds n last vm.constPool)
    (hreg : vmRegister fuel vm (signatureText node) data = .ok (index, handle, vm')) :
    handle.argSize.toNat = 4 * node.args.length := by
  rcases vmRegister_scan hpool (hlen.trans (by decide)) with hfault | ⟨rest, hscan⟩
  · rw [hreg] at hfault
    cases hfault
  · rw [h.scan_ok hvoid, hreg] at hscan
    rcases hscan with hfault | ⟨index', handle', vm'', hok, hsize⟩
    · cases hfault
    · cases hok
      have hargs := h.length_args hvoid
      rw [hsize, UInt16.toNat_ofNat']
      unfold signatureBufferSize at hlen
      omega

/-- The encoder and the scan agree exactly for a declared return type, a text shorter than the
buffer, and no parameter of type `void`. -/
theorem signature_agrees_iff {node : DeclFunc} {s : CompilerState} (h : Declarable node s) :
    SignatureAgrees node s ↔ node.retType.isSome ∧
      (signatureText node).length < signatureBufferSize ∧
      ∀ arg ∈ node.args, arg.2 ≠ voidName := by
  constructor
  · intro hagrees
    obtain ⟨hret, hlen⟩ := h.built_iff.mp hagrees.built
    refine ⟨hret, hlen, ?_⟩
    intro arg harg hvoid
    have hfit : (signatureText node).length % 2 ^ 16 ≤ 4093 :=
      (Nat.mod_le _ _).trans (hlen.le.trans (by decide))
    obtain ⟨p, hconst, hread, k, hpool⟩ := vmRegisterConstant_first hfit
    have hdrop : (p.pool.getD []).drop 2
        = (signatureText node).map some ++ some 0 :: List.replicate k none := by
      rw [hpool, Option.getD_some, storedConstant_eq (hlen.trans (by decide)), drop_constantRecord]
    have hscan := h.scan_panic harg hvoid (some 0 :: List.replicate k none)
    rw [← hdrop] at hscan
    refine hagrees.accepted 1 0 [] vmStaticInit []
      "Unknown function signature element : in %s at position %zu" poolHolds_init ?_
    have hzero : (0 : UInt32).toNat + 2 = 2 := rfl
    have hindex : (0 : UInt16).toNat = 0 := rfl
    simp only [vmRegister, hconst, except_ok_bind, vmRegisterFunction, hindex, hread, hzero, hscan]
    rfl
  · rintro ⟨hret, hlen, hvoid⟩
    have hlen' : (signatureText node).length < 2 ^ 16 := hlen.trans (by decide)
    refine ⟨h.built_iff.mpr ⟨hret, hlen⟩, ?_, ?_⟩
    · intro fuel handles vm data hvm hn hdata
      have hholds := hvm.holds
      obtain ⟨last, hpool⟩ := hholds.pool
      have hfit : (signatureText node).length ≤ 4093 := hlen.le.trans (by decide)
      obtain ⟨handle, vm', hreg, -⟩ := hholds.register hn hfit
        (fun cells => h.scan_ok hvoid (some 0 :: cells)) hdata fuel
      exact ⟨_, handle, vm', hreg, h.argSize_eq hlen hvoid hpool hreg⟩
    · intro fuel n last vm data message hpool hpanic
      rcases vmRegister_scan hpool hlen' with hfault | ⟨rest, hscan⟩
      · rw [hpanic] at hfault
        cases hfault
      · rw [h.scan_ok hvoid, hpanic] at hscan
        rcases hscan with hfault | ⟨index, handle, vm', hok, -⟩
        · cases hfault
        · cases hok

/-- A first function of a program is stored. -/
lemma declarable_first {node : DeclFunc} (hname : isIdentifier node.name)
    (hargs : ∀ arg ∈ node.args, arg.2 ∈ typeNames)
    (hret : ∀ typeName ∈ node.retType, typeName ∈ typeNames) :
    Declarable node (compilerInit true) where
  name := hname
  fresh := hashmapGet_eq (mapHolds_empty _ _) _
  args := hargs
  ret := hret
  stored := ⟨1, _, hashmapPut_new 0 id _ _ _⟩

/-- `func f (int x) {}` with a return type or without. -/
def funcOfInt (retType : Option CStr) : DeclFunc := ⟨[102], [([120], intName)], retType, .nil⟩

lemma declarable_funcOfInt {retType : Option CStr} (h : ∀ typeName ∈ retType, typeName ∈ typeNames) :
    Declarable (funcOfInt retType) (compilerInit true) := by
  refine declarable_first rfl (fun arg harg => ?_) h
  obtain rfl := List.mem_singleton.mp harg
  decide

theorem signature_agrees_int :
    SignatureAgrees (funcOfInt (some intName)) (compilerInit true) := by
  have h : Declarable (funcOfInt (some intName)) (compilerInit true) :=
    declarable_funcOfInt (by decide)
  exact (signature_agrees_iff h).mpr ⟨rfl, by decide, by decide⟩

/-- No string is built for `func f (int x) {}`. -/
theorem signature_not_agrees : Declarable (funcOfInt none) (compilerInit true) ∧
    (∀ fuel s', compilerDefineFunc fuel (funcOfInt none) (compilerInit true)
      ≠ .ok (descOf (funcOfInt none)) s') ∧
    ¬ SignatureAgrees (funcOfInt none) (compilerInit true) := by
  have h : Declarable (funcOfInt none) (compilerInit true) := declarable_funcOfInt (by decide)
  have hbuilt : ¬ ∃ fuel s', compilerDefineFunc fuel (funcOfInt none) (compilerInit true)
      = .ok (descOf (funcOfInt none)) s' := fun hbuilt =>
    absurd (h.built_iff.mp hbuilt).1 (by decide)
  exact ⟨h, fun fuel s' hdefine => hbuilt ⟨fuel, s', hdefine⟩, fun hagrees => hbuilt hagrees.built⟩

end PhantomShell
