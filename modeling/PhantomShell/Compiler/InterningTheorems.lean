import PhantomShell.HashmapGrowth
import PhantomShell.Compiler.ProgramTheorems

/-!
# The indices of constants

`const_pool_register_value` over a sequence of values. The map of the compiler holds the last
index of each value; an index other than 0 is dereferenced when the value comes again, and the
counter has 16 bits.
-/

namespace PhantomShell

/-- `const_pool_register_value` of each value in turn, and the indices. -/
def registerValues (fuel : ℕ) : List CStr → CompileM (List UInt16)
  | [] => pure []
  | value :: rest => do
    let index ← constPoolRegisterValue fuel value
    let indices ← registerValues fuel rest
    pure (index :: indices)

/-- A state in which no constant has been registered. -/
def CompilerState.noConstants (s : CompilerState) : CompilerState :=
  { s with constPoolMap := hashmapNew, constPoolMapSize := 0 }

/-! ## The last index of a value -/

/-- The index that a value was given last, as a finite map. -/
def lastIndex (values : List CStr) : CStr → Option UInt16 :=
  values.zipIdx.foldl (fun f v => Function.update f v.1 (some (UInt16.ofNat v.2))) fun _ => none

lemma lastIndex_concat (values : List CStr) (value : CStr) :
    lastIndex (values ++ [value])
      = Function.update (lastIndex values) value (some (UInt16.ofNat values.length)) := by
  simp [lastIndex, List.zipIdx_append]

/-- A value has the index of one of its positions. -/
lemma lastIndex_eq_some {values : List CStr} {v : CStr} {a : UInt16}
    (h : lastIndex values v = some a) : ∃ i, values[i]? = some v ∧ a = UInt16.ofNat i := by
  induction values using List.reverseRecOn with
  | nil => cases h
  | append_singleton values value ih =>
    rw [lastIndex_concat] at h
    by_cases hv : v = value
    · rw [hv, Function.update_self] at h
      exact ⟨values.length, by simp [hv], (Option.some.inj h).symm⟩
    · rw [Function.update_of_ne hv] at h
      obtain ⟨i, hi, ha⟩ := ih h
      obtain ⟨hlt, -⟩ := List.getElem?_eq_some_iff.mp hi
      exact ⟨i, by rw [List.getElem?_append_left hlt, hi], ha⟩

lemma lastIndex_eq_none {values : List CStr} {v : CStr} (h : v ∉ values) :
    lastIndex values v = none := by
  cases hlast : lastIndex values v with
  | none => rfl
  | some a =>
    obtain ⟨i, hi, -⟩ := lastIndex_eq_some hlast
    exact absurd (List.mem_of_getElem? hi) h

lemma lastIndex_isSome {values : List CStr} {v : CStr} (h : v ∈ values) :
    (lastIndex values v).isSome := by
  induction values using List.reverseRecOn with
  | nil => cases h
  | append_singleton values value ih =>
    rw [lastIndex_concat]
    by_cases hv : v = value
    · simp [hv]
    · rw [Function.update_of_ne hv]
      exact ih (by simpa [hv] using h)

/-- Among different values there is only one index to have. -/
lemma lastIndex_of_nodup {values : List CStr} (hnodup : values.Nodup) {i : ℕ} {v : CStr}
    (hi : values[i]? = some v) : lastIndex values v = some (UInt16.ofNat i) := by
  obtain ⟨a, ha⟩ := Option.isSome_iff_exists.mp (lastIndex_isSome (List.mem_of_getElem? hi))
  obtain ⟨j, hj, rfl⟩ := lastIndex_eq_some ha
  obtain ⟨hlt, -⟩ := List.getElem?_eq_some_iff.mp hi
  rw [ha, (List.getElem?_inj hlt hnodup).mp (hi.trans hj.symm)]

/-! ## One value -/

/-- The state after `values` were registered, whatever repetitions they had. -/
structure Interned (values : List CStr) (s : CompilerState) : Prop where
  run : PutRun id s.constPoolMap
  holds : MapHolds id s.constPoolMap (lastIndex values)
  counter : s.constPoolMapSize = UInt16.ofNat values.length
  counted : values.Nodup → Counted s.constPoolMap

lemma interned_nil (s : CompilerState) : Interned [] s.noConstants :=
  ⟨.new, mapHolds_empty _ _, rfl, fun _ => counted_empty _⟩

/-- The value is looked up, and stored under the next index if the lookup gives 0. -/
lemma Interned.register {values : List CStr} {s : CompilerState} (h : Interned values s)
    (fuel : ℕ) (value : CStr) :
    constPoolRegisterValue fuel value s =
      if (lastIndex values value).getD 0 ≠ 0 then .error .fault s
      else
        match hashmapPut id (fun _ => true) fuel s.constPoolMap value s.constPoolMapSize with
        | none => .error .fuel s
        | some (_, map) => .ok (UInt16.ofNat values.length)
            { s with constPoolMap := map, constPoolMapSize := s.constPoolMapSize + 1 } := by
  have hget : hashmapGet id s.constPoolMap value = lastIndex values value :=
    hashmapGet_eq h.holds value
  rw [← hget, ← h.counter]
  change (if _ then _ else _ : CompileM UInt16) s = _
  split
  · rfl
  · cases hashmapPut id (fun _ => true) fuel s.constPoolMap value s.constPoolMapSize <;> rfl

/-- One registration. -/
lemma Interned.step {values : List CStr} {s s' : CompilerState} (h : Interned values s)
    {fuel : ℕ} {value : CStr} {index : UInt16}
    (hreg : constPoolRegisterValue fuel value s = .ok index s') :
    index = UInt16.ofNat values.length ∧ (lastIndex values value).getD 0 = 0 ∧
      Interned (values ++ [value]) s' := by
  obtain ⟨hzero, ret, map, hput, rfl, rfl⟩ := constPoolRegisterValue_eq_ok hreg
  rw [hashmapGet_eq h.holds] at hzero
  obtain ⟨-, hclean⟩ := h.run.holds
  obtain ⟨-, hholds, -, hcounted⟩ := hashmapPut_holds (fun _ => rfl) h.holds (.inr (hclean _)) hput
  refine ⟨h.counter, hzero, .put _ fuel value _ h.run hput, ?_, ?_, ?_⟩
  · rw [lastIndex_concat, ← h.counter]
    exact hholds
  · simp [h.counter, UInt16.ofNat_add]
  · intro hnodup
    rw [List.nodup_append] at hnodup
    refine hcounted (lastIndex_eq_none ?_) (h.counted hnodup.1)
    intro hmem
    exact hnodup.2.2 value hmem value (by simp) rfl

/-! ## All values -/

/-- No value that comes again has an index other than 0. -/
def NoneDereferenced (done values : List CStr) : Prop :=
  ∀ before v after, values = before ++ v :: after → (lastIndex (done ++ before) v).getD 0 = 0

lemma noneDereferenced_cons {done rest : List CStr} {value : CStr} :
    NoneDereferenced done (value :: rest) ↔
      (lastIndex done value).getD 0 = 0 ∧ NoneDereferenced (done ++ [value]) rest := by
  constructor
  · intro h
    refine ⟨by simpa using h [] value rest rfl, ?_⟩
    intro before v after heq
    simpa using h (value :: before) v after (by simp [heq])
  · rintro ⟨hhead, hrest⟩ before v after heq
    cases before with
    | nil =>
      cases heq
      simpa using hhead
    | cons w before =>
      cases heq
      simpa using hrest before v after rfl

/-- The indices of a run count up. -/
lemma Interned.run_ok {fuel : ℕ} {values : List CStr} : ∀ {done indices} {s s' : CompilerState},
    Interned done s → registerValues fuel values s = .ok indices s' →
    indices = (List.range' done.length values.length).map UInt16.ofNat ∧
      NoneDereferenced done values ∧ Interned (done ++ values) s' := by
  induction values with
  | nil =>
    intro done indices s s' hdone h
    obtain ⟨rfl, rfl⟩ := estate_pure_eq_ok.mp h
    refine ⟨rfl, ?_, by simpa using hdone⟩
    intro before v after heq
    simp at heq
  | cons value rest ih =>
    intro done indices s s' hdone h
    obtain ⟨index, s₁, h₁, h⟩ := estate_bind_eq_ok.mp h
    obtain ⟨indices', s₂, h₂, h⟩ := estate_bind_eq_ok.mp h
    obtain ⟨rfl, rfl⟩ := estate_pure_eq_ok.mp h
    obtain ⟨rfl, hzero, hdone₁⟩ := hdone.step h₁
    obtain ⟨rfl, hnone, hdone₂⟩ := ih hdone₁ h₂
    refine ⟨?_, noneDereferenced_cons.mpr ⟨hzero, hnone⟩, by simpa using hdone₂⟩
    simp [List.range'_succ]

/-- A run in which no value is dereferenced only stops when the hash map does not finish. -/
lemma Interned.run_error {fuel : ℕ} {values : List CStr} : ∀ {done e} {s s' : CompilerState},
    Interned done s → NoneDereferenced done values →
    registerValues fuel values s = .error e s' → e = .fuel := by
  induction values with
  | nil =>
    intro done e s s' _ _ h
    cases h
  | cons value rest ih =>
    intro done e s s' hdone hnone h
    obtain ⟨hzero, hrest⟩ := noneDereferenced_cons.mp hnone
    rcases estate_bind_eq_error.mp h with h | ⟨index, s₁, h₁, h⟩
    · rw [hdone.register, if_neg (not_not.mpr hzero)] at h
      cases hput : hashmapPut id (fun _ => true) fuel s.constPoolMap value s.constPoolMapSize with
      | none =>
        rw [hput] at h
        cases h
        rfl
      | some r =>
        rw [hput] at h
        cases h
    · rcases estate_bind_eq_error.mp h with h | ⟨indices, s₂, -, h⟩
      · exact ih (hdone.step h₁).2.2 hrest h
      · cases h

/-! ## Stability -/

/-- The run of `values` returns an index for each: the same one for equal values only, and
the one that a lookup of the value gives afterwards. -/
def Stable (fuel : ℕ) (values : List CStr) (s : CompilerState) : Prop :=
  ∃ indices s', registerValues fuel values s.noConstants = .ok indices s' ∧
    (∀ p ∈ values.zip indices, ∀ q ∈ values.zip indices, p.1 = q.1 ↔ p.2 = q.2) ∧
    ∀ v index, (values.zip indices).lookup v = some index →
      constPoolIndexByValue v s' = .ok index s'

/-- At most `2 ^ 16` values, none of them again; or `2 ^ 16` values and then the first one
again, when the counter is back at its index. -/
def InternableOnce (values : List CStr) : Prop :=
  values.Nodup ∧ values.length ≤ 2 ^ 16 ∨
    ∃ first rest, values = first :: rest ++ [first] ∧ (first :: rest).Nodup ∧
      (first :: rest).length = 2 ^ 16

lemma ofNat16_eq_iff {i j : ℕ} :
    UInt16.ofNat i = UInt16.ofNat j ↔ i % 2 ^ 16 = j % 2 ^ 16 := by
  rw [← UInt16.toNat_inj, UInt16.toNat_ofNat', UInt16.toNat_ofNat']

/-- The pairs of a run that returns. -/
lemma mem_zip_range {values : List CStr} {v : CStr} {a : UInt16} :
    (v, a) ∈ values.zip ((List.range' 0 values.length).map UInt16.ofNat) ↔
      ∃ i, values[i]? = some v ∧ a = UInt16.ofNat i := by
  rw [List.mem_iff_getElem?]
  refine exists_congr fun i => ?_
  rw [List.getElem?_zip_eq_some, List.getElem?_map]
  refine and_congr_right fun hv => ?_
  obtain ⟨hlt, -⟩ := List.getElem?_eq_some_iff.mp hv
  simp [hlt, eq_comm]

/-- The values that get an index of their own, at their positions. -/
lemma InternableOnce.base {values : List CStr} (h : InternableOnce values) :
    ∃ base : List CStr, base.Nodup ∧ base.length ≤ 2 ^ 16 ∧
      ∀ i v, values[i]? = some v → base[i % 2 ^ 16]? = some v := by
  rcases h with ⟨hnodup, hlen⟩ | ⟨first, rest, rfl, hnodup, hlen⟩
  · refine ⟨values, hnodup, hlen, ?_⟩
    intro i v hi
    obtain ⟨hlt, -⟩ := List.getElem?_eq_some_iff.mp hi
    rw [Nat.mod_eq_of_lt (hlt.trans_le hlen)]
    exact hi
  · refine ⟨first :: rest, hnodup, hlen.le, ?_⟩
    intro i v hi
    by_cases hlt : i < (first :: rest).length
    · rw [List.getElem?_append_left hlt] at hi
      rw [Nat.mod_eq_of_lt (hlen ▸ hlt)]
      exact hi
    · rw [List.getElem?_append_right (by omega)] at hi
      obtain ⟨hlt', hv⟩ := List.getElem?_eq_some_iff.mp hi
      have hi : i = 2 ^ 16 := by
        simp only [List.length_singleton] at hlt'
        omega
      subst hi
      simpa using hv

/-- Equal values have equal indices and different values different ones. -/
lemma InternableOnce.same {values : List CStr} (h : InternableOnce values) {i j : ℕ} {v w : CStr}
    (hv : values[i]? = some v) (hw : values[j]? = some w) :
    v = w ↔ UInt16.ofNat i = UInt16.ofNat j := by
  obtain ⟨base, hnodup, -, hbase⟩ := h.base
  have hi := hbase i v hv
  have hj := hbase j w hw
  obtain ⟨hlt, -⟩ := List.getElem?_eq_some_iff.mp hi
  rw [ofNat16_eq_iff]
  constructor
  · intro heq
    refine (List.getElem?_inj hlt hnodup).mp ?_
    rw [hi, hj, heq]
  · intro heq
    rw [heq, hj] at hi
    exact (Option.some.inj hi).symm

lemma InternableOnce.noneDereferenced {values : List CStr} (h : InternableOnce values) :
    NoneDereferenced [] values := by
  have hnew : ∀ {before v after}, (before ++ v :: after).Nodup →
      (lastIndex before v).getD (0 : UInt16) = 0 := by
    intro before v after hnodup
    rw [lastIndex_eq_none ?_]
    · rfl
    · intro hmem
      exact (List.nodup_append.mp hnodup).2.2 v hmem v (by simp) rfl
  intro before v after heq
  rw [List.nil_append]
  rcases h with ⟨hnodup, -⟩ | ⟨first, rest, hvalues, hnodup, -⟩
  · exact hnew (heq ▸ hnodup)
  · rw [heq] at hvalues
    cases after using List.reverseRecOn with
    | nil =>
      -- the first value again: its index is 0
      obtain ⟨rfl, hv⟩ := List.append_inj' hvalues rfl
      obtain rfl := List.singleton_inj.mp hv
      rw [lastIndex_of_nodup (i := 0) hnodup rfl]
      rfl
    | append_singleton after x =>
      have hsplit : before ++ v :: after ++ [x] = first :: rest ++ [first] := by
        simpa using hvalues
      obtain ⟨hinit, -⟩ := List.append_inj' hsplit rfl
      exact hnew (hinit ▸ hnodup)

/-- A run that returns is stable on such values. -/
lemma InternableOnce.stable {values : List CStr} (h : InternableOnce values) {fuel : ℕ}
    {indices : List UInt16} {s s' : CompilerState}
    (hrun : registerValues fuel values s.noConstants = .ok indices s') : Stable fuel values s := by
  obtain ⟨rfl, -, hinterned⟩ := (interned_nil s).run_ok hrun
  rw [List.nil_append] at hinterned
  refine ⟨_, s', hrun, ?_, ?_⟩
  · rintro ⟨v, a⟩ hp ⟨w, b⟩ hq
    obtain ⟨i, hi, rfl⟩ := mem_zip_range.mp hp
    obtain ⟨j, hj, rfl⟩ := mem_zip_range.mp hq
    exact h.same hi hj
  · intro v index hlookup
    obtain ⟨before, after, hzip, -⟩ := List.lookup_eq_some_iff.mp hlookup
    have hmem : (v, index) ∈ values.zip ((List.range' 0 values.length).map UInt16.ofNat) := by
      rw [show (0 : ℕ) = ([] : List CStr).length from rfl, hzip]
      simp
    obtain ⟨i, hi, rfl⟩ := mem_zip_range.mp hmem
    obtain ⟨a, ha⟩ := Option.isSome_iff_exists.mp (lastIndex_isSome (List.mem_of_getElem? hi))
    obtain ⟨j, hj, rfl⟩ := lastIndex_eq_some ha
    change EStateM.Result.ok ((hashmapGet id s'.constPoolMap v).getD 0) s' = _
    rw [hashmapGet_eq hinterned.holds, ha, Option.getD_some, (h.same hj hi).mp rfl]

/-- A stable run has such values. -/
lemma Stable.internable {fuel : ℕ} {values : List CStr} {s : CompilerState}
    (h : Stable fuel values s) : InternableOnce values := by
  obtain ⟨indices, s', hrun, hpairs, -⟩ := h
  obtain ⟨rfl, hnone, -⟩ := (interned_nil s).run_ok hrun
  have hsame : ∀ {i j v w}, values[i]? = some v → values[j]? = some w →
      (v = w ↔ i % 2 ^ 16 = j % 2 ^ 16) := by
    intro i j v w hi hj
    rw [← ofNat16_eq_iff]
    exact hpairs (v, _) (mem_zip_range.mpr ⟨i, hi, rfl⟩) (w, _) (mem_zip_range.mpr ⟨j, hj, rfl⟩)
  have hnodup : (values.take (2 ^ 16)).Nodup := by
    rw [List.nodup_iff_getElem?_ne_getElem?]
    intro i j hij hj heq
    rw [List.length_take] at hj
    rw [List.getElem?_take_of_lt (by omega), List.getElem?_take_of_lt (by omega)] at heq
    obtain ⟨v, hv⟩ : ∃ v, values[j]? = some v :=
      Option.isSome_iff_exists.mp (by simp; omega)
    have hmod := (hsame (heq.trans hv) hv).mp rfl
    omega
  by_cases hlen : values.length ≤ 2 ^ 16
  · rw [List.take_of_length_le hlen] at hnodup
    exact .inl ⟨hnodup, hlen⟩
  · right
    have hlast : values.length = 2 ^ 16 + 1 := by
      by_contra hne
      -- the second value comes again at the second wrapped index, and that index is 1
      obtain ⟨v, hv⟩ : ∃ v, values[2 ^ 16 + 1]? = some v :=
        Option.isSome_iff_exists.mp (by simp; omega)
      obtain ⟨w, hw⟩ : ∃ w, values[1]? = some w := Option.isSome_iff_exists.mp (by simp; omega)
      obtain rfl : v = w := (hsame hv hw).mpr (by omega)
      obtain ⟨hlt, hget⟩ := List.getElem?_eq_some_iff.mp hv
      have hsplit : values.take (2 ^ 16 + 1) ++ v :: values.drop (2 ^ 16 + 1 + 1) = values := by
        rw [← hget, ← List.drop_eq_getElem_cons hlt, List.take_append_drop]
      have hmem : v ∈ values.take (2 ^ 16 + 1) := by
        refine List.mem_of_getElem? (i := 1) ?_
        rw [List.getElem?_take_of_lt (by omega), hw]
      obtain ⟨a, ha⟩ := Option.isSome_iff_exists.mp (lastIndex_isSome hmem)
      obtain ⟨j, hj, rfl⟩ := lastIndex_eq_some ha
      obtain ⟨hjlt, -⟩ := List.getElem?_eq_some_iff.mp hj
      rw [List.length_take] at hjlt
      rw [List.getElem?_take_of_lt (by omega)] at hj
      have hone := (hsame hj hw).mp rfl
      have hzero := hnone _ v _ hsplit.symm
      rw [List.nil_append, ha, Option.getD_some] at hzero
      have hj0 : j % 2 ^ 16 = 0 % 2 ^ 16 := ofNat16_eq_iff.mp hzero
      omega
    obtain ⟨v, hv⟩ : ∃ v, values[2 ^ 16]? = some v := Option.isSome_iff_exists.mp (by simp; omega)
    obtain ⟨hlt, hget⟩ := List.getElem?_eq_some_iff.mp hv
    have hdrop : values.drop (2 ^ 16) = [v] := by
      rw [List.drop_eq_getElem_cons hlt, hget, List.drop_of_length_le (by omega)]
    have hsplit := List.take_append_drop (2 ^ 16) values
    have hlength : (values.take (2 ^ 16)).length = 2 ^ 16 := by
      rw [List.length_take]
      omega
    cases htake : values.take (2 ^ 16) with
    | nil =>
      rw [htake, List.length_nil] at hlength
      omega
    | cons first rest =>
      rw [htake] at hnodup hsplit hlength
      rw [hdrop] at hsplit
      have hfirst : values[0]? = some first := by
        rw [← hsplit]
        rfl
      obtain rfl : v = first := (hsame hv hfirst).mpr (by omega)
      exact ⟨v, rest, hsplit.symm, hnodup, hlength⟩

/-! ## Runs that return -/

/-- More room for resizes does not change a registration. -/
lemma constPoolRegisterValue_mono {fuel fuel' : ℕ} (hle : fuel ≤ fuel') {value : CStr}
    {index : UInt16} {s s' : CompilerState}
    (h : constPoolRegisterValue fuel value s = .ok index s') :
    constPoolRegisterValue fuel' value s = .ok index s' := by
  obtain ⟨hzero, ret, map, hput, rfl, rfl⟩ := constPoolRegisterValue_eq_ok h
  have hput' := hashmapPut_mono hle hput
  change (if _ then _ else _ : CompileM UInt16) s = _
  rw [if_neg (not_not.mpr hzero), hput']
  rfl

lemma registerValues_mono {fuel fuel' : ℕ} (hle : fuel ≤ fuel') {values : List CStr} :
    ∀ {indices} {s s' : CompilerState}, registerValues fuel values s = .ok indices s' →
      registerValues fuel' values s = .ok indices s' := by
  induction values with
  | nil =>
    intro indices s s' h
    exact h
  | cons value rest ih =>
    intro indices s s' h
    obtain ⟨index, s₁, h₁, h⟩ := estate_bind_eq_ok.mp h
    obtain ⟨indices', s₂, h₂, h⟩ := estate_bind_eq_ok.mp h
    refine estate_bind_eq_ok.mpr ⟨index, s₁, constPoolRegisterValue_mono hle h₁, ?_⟩
    exact estate_bind_eq_ok.mpr ⟨indices', s₂, ih h₂, h⟩

/-- New values that are far enough from each other are all registered. -/
lemma Interned.returns {values : List CStr} : ∀ {done} {s : CompilerState},
    Interned done s → (∃ j, s.constPoolMap.capacity = 2 ^ j ∧ j ≤ 31) → (done ++ values).Nodup →
    (done ++ values).length ≤ 2 ^ 16 → Spread (done ++ values).toFinset →
    ∃ fuel indices s', registerValues fuel values s = .ok indices s' := by
  induction values with
  | nil =>
    intro done s _ _ _ _ _
    exact ⟨0, [], s, rfl⟩
  | cons value rest ih =>
    intro done s hdone hcap hnodup hlen hspread
    obtain ⟨j, hj, hj31⟩ := hcap
    have hle : s.constPoolMap.capacity ≤ largestCapacity := by
      rw [hj]
      exact Nat.pow_le_pow_right (by decide) hj31
    have hkeys : ∀ t, t ∈ s.constPoolMap.strings id → t ∈ done := by
      intro t ht
      rw [mem_strings hdone.holds] at ht
      by_contra hnot
      exact ht (lastIndex_eq_none hnot)
    -- at most 2^16 values are stored, far below the load of the largest table
    have hsize : s.constPoolMap.size < largestLoad := by
      have hcount := hdone.counted (List.nodup_append.mp hnodup).1
      have hle : s.constPoolMap.size ≤ done.toFinset.card := by
        refine hcount.le_card hdone.holds fun t ht => ?_
        exact List.mem_toFinset.mpr (hkeys t ((mem_strings hdone.holds t).mpr ht))
      have hcard := List.toFinset_card_le done
      have hload : 2 ^ 16 < largestLoad := by decide
      rw [List.length_append] at hlen
      omega
    have hsub : insert value (s.constPoolMap.strings id) ⊆ (done ++ value :: rest).toFinset := by
      intro t ht
      rcases Finset.mem_insert.mp ht with rfl | ht
      · simp
      · exact List.mem_toFinset.mpr (List.mem_append_left _ (hkeys t ht))
    have halloc : ∀ n : ℕ, (fun _ : ℕ => true) n := fun _ => rfl
    obtain ⟨fuel₁, map, j', hput, hj', hj31'⟩ := hdone.run.put_returns halloc value
      s.constPoolMapSize hle (.inr ⟨hsize, hspread.subset hsub⟩)
    have hnew : lastIndex done value = none := by
      refine lastIndex_eq_none fun hmem => ?_
      exact (List.nodup_append.mp hnodup).2.2 value hmem value (by simp) rfl
    have h₁ : constPoolRegisterValue fuel₁ value s = .ok (UInt16.ofNat done.length)
        { s with constPoolMap := map, constPoolMapSize := s.constPoolMapSize + 1 } := by
      rw [hdone.register, hnew, if_neg (by simp), hput]
    rw [show done ++ value :: rest = done ++ [value] ++ rest by simp] at hnodup hlen hspread
    obtain ⟨fuel₂, indices, s', h₂⟩ := ih (hdone.step h₁).2.2 ⟨j', hj', hj31'⟩ hnodup hlen hspread
    -- the two runs found fuels of their own
    refine ⟨max fuel₁ fuel₂, UInt16.ofNat done.length :: indices, s', ?_⟩
    refine estate_bind_eq_ok.mpr ⟨_, _, constPoolRegisterValue_mono (le_max_left _ _) h₁, ?_⟩
    exact estate_bind_eq_ok.mpr ⟨_, _, registerValues_mono (le_max_right _ _) h₂, rfl⟩

/-- When the hash map finishes, the indices are stable exactly if no value comes again and there
are at most `2 ^ 16` of them, or the first one comes again right behind that many. Values far
enough from each other do not keep the hash map from finishing. -/
theorem interning_stable_iff (values : List CStr) (s : CompilerState) :
    (∀ fuel, (∀ t, registerValues fuel values s.noConstants ≠ .error .fuel t) →
      (Stable fuel values s ↔ InternableOnce values)) ∧
    (values.Nodup → values.length ≤ 2 ^ 16 → Spread values.toFinset →
      ∃ fuel, Stable fuel values s) := by
  constructor
  · intro fuel hfinishes
    refine ⟨Stable.internable, fun h => ?_⟩
    cases hrun : registerValues fuel values s.noConstants with
    | ok indices s' => exact h.stable hrun
    | error e t =>
      obtain rfl := (interned_nil s).run_error h.noneDereferenced hrun
      exact absurd hrun (hfinishes t)
  · intro hnodup hlen hspread
    obtain ⟨fuel, indices, s', hrun⟩ := (interned_nil s).returns ⟨7, rfl, by decide⟩ hnodup hlen
      hspread
    exact ⟨fuel, InternableOnce.stable (.inl ⟨hnodup, hlen⟩) hrun⟩

/-- The value `A`, registered twice, gets the indices 0 and 1: a stored 0 is taken for a
miss. -/
theorem interning_not_stable : (∃ s', registerValues 1 [[65], [65]] (compilerInit true).noConstants
      = .ok [0, 1] s') ∧ ∀ fuel, ¬ Stable fuel [[65], [65]] (compilerInit true) := by
  have hindices : (match registerValues 1 [[65], [65]] (compilerInit true).noConstants with
      | .ok indices _ => indices
      | .error _ _ => []) = [0, 1] := by decide +kernel
  constructor
  · split at hindices
    · rename_i indices s' hrun
      exact ⟨s', hindices ▸ hrun⟩
    · cases hindices
  intro fuel hstable
  rcases hstable.internable with ⟨hnodup, -⟩ | ⟨first, rest, heq, -, hlen⟩
  · revert hnodup
    decide
  · have htwo := congrArg List.length heq
    rw [List.length_append, hlen] at htwo
    change 2 = 2 ^ 16 + 1 at htwo
    omega

end PhantomShell
