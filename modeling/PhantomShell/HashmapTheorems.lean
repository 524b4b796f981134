import Mathlib.Data.Finset.Card
import PhantomShell.Hashmap

/-!
# The hash map as a finite map

`MapHolds str map f`: the table stores exactly the pairs of the finite map `f`, one slot per
string, each inside the probe window of its string. `hashmapPut` keeps it unless it finds a
free slot in front of the slot that already stores the string (`StoredBehindHole`), which
only a removal can cause; a resize rebuilds a table where no string is behind a hole.
-/

namespace PhantomShell

variable {κ β : Type} (str : κ → CStr)

/-- The table stores the finite map `f`. -/
structure MapHolds (map : Hashmap κ β) (f : CStr → Option β) : Prop where
  home : ∀ i s, holdsKey str map s i → i ∈ probeSlots map.capacity s ∧ i < map.capacity
  unique : ∀ i j s, holdsKey str map s i → holdsKey str map s j → i = j
  stored : ∀ s v, f s = some v ↔ ∃ i k, map.data i = some (k, v) ∧ str k = s

/-- A free slot of the probe window of `s` comes before the first slot that stores `s`. -/
def StoredBehindHole (map : Hashmap κ β) (s : CStr) : Prop :=
  ∃ before i after, probeSlots map.capacity s = before ++ i :: after ∧ map.data i = none ∧
    (∀ j ∈ before, ¬ holdsKey str map s j) ∧ ∃ j ∈ after, holdsKey str map s j

/-- No string is behind a hole. -/
def Clean (map : Hashmap κ β) : Prop := ∀ s, ¬ StoredBehindHole str map s

variable {str}

lemma holdsKey_iff {map : Hashmap κ β} {s : CStr} {i : ℕ} :
    holdsKey str map s i ↔ ∃ k v, map.data i = some (k, v) ∧ str k = s := by
  rw [holdsKey]
  cases hi : map.data i with
  | none => simp
  | some e => simp [Prod.ext_iff]

lemma not_holdsKey_of_free {map : Hashmap κ β} {i : ℕ} (h : map.data i = none) (s : CStr) :
    ¬ holdsKey str map s i := by
  simp [holdsKey, h]

/-- An empty table stores the empty map and has nothing behind a hole. -/
lemma mapHolds_empty (capacity size : ℕ) :
    MapHolds str (⟨capacity, size, fun _ => none⟩ : Hashmap κ β) (fun _ => none) where
  home i s h := absurd h (not_holdsKey_of_free rfl s)
  unique i j s h := absurd h (not_holdsKey_of_free rfl s)
  stored s v := by simp

lemma clean_empty (capacity size : ℕ) :
    Clean str (⟨capacity, size, fun _ => none⟩ : Hashmap κ β) := by
  rintro s ⟨before, i, after, -, -, -, j, -, hj⟩
  exact not_holdsKey_of_free rfl s hj

/-! ## Lookup -/

/-- The scan of `hashmap_get` stops at the slot that stores the string. -/
lemma hashmapFind_eq_some_iff {map : Hashmap κ β} {f : CStr → Option β}
    (h : MapHolds str map f) (s : CStr) (i : ℕ) :
    hashmapFind str map s = some i ↔ holdsKey str map s i := by
  constructor
  · intro hfind
    exact List.find?_some hfind
  · intro hi
    cases hfind : hashmapFind str map s with
    | none =>
      rw [hashmapFind, List.find?_eq_none] at hfind
      exact absurd hi (hfind i (h.home i s hi).1)
    | some j =>
      have hj : holdsKey str map s j := List.find?_some hfind
      rw [h.unique i j s hi hj]

/-- `hashmap_get` reads the finite map. -/
lemma hashmapGet_eq {map : Hashmap κ β} {f : CStr → Option β} (h : MapHolds str map f)
    (s : CStr) : hashmapGet str map s = f s := by
  cases hfind : hashmapFind str map s with
  | none =>
    have hmiss : f s = none := by
      rw [Option.eq_none_iff_forall_ne_some]
      intro v hv
      obtain ⟨i, k, hi, hk⟩ := (h.stored s v).mp hv
      rw [(hashmapFind_eq_some_iff h s i).mpr (holdsKey_iff.mpr ⟨k, v, hi, hk⟩)] at hfind
      cases hfind
    simp [hashmapGet, hfind, hmiss]
  | some i =>
    obtain ⟨k, v, hi, hk⟩ := holdsKey_iff.mp ((hashmapFind_eq_some_iff h s i).mp hfind)
    have hv : f s = some v := (h.stored s v).mpr ⟨i, k, hi, hk⟩
    simp [hashmapGet, hfind, hi, hv]

/-! ## Removal -/

/-- `hashmap_remove` succeeds on the strings that are present. -/
lemma hashmapRemove_fst {map : Hashmap κ β} {f : CStr → Option β} (h : MapHolds str map f)
    (s : CStr) : (hashmapRemove str map s).1 = (f s).isSome := by
  rw [← hashmapGet_eq h s, hashmapRemove, hashmapGet]
  cases hfind : hashmapFind str map s with
  | none => rfl
  | some i =>
    obtain ⟨k, v, hi, -⟩ := holdsKey_iff.mp ((hashmapFind_eq_some_iff h s i).mp hfind)
    simp [hi]

/-- `hashmap_remove` removes the string from the finite map. -/
lemma hashmapRemove_holds {map : Hashmap κ β} {f : CStr → Option β} (h : MapHolds str map f)
    (s : CStr) : MapHolds str (hashmapRemove str map s).2 (Function.update f s none) := by
  cases hfind : hashmapFind str map s with
  | none =>
    have hmiss : f s = none := by
      rw [← hashmapGet_eq h s, hashmapGet, hfind]
      rfl
    rw [show hashmapRemove str map s = (false, map) by simp [hashmapRemove, hfind]]
    rwa [← hmiss, Function.update_eq_self]
  | some i =>
    have hi : holdsKey str map s i := (hashmapFind_eq_some_iff h s i).mp hfind
    let map' : Hashmap κ β := { map with
      data := Function.update map.data i none, size := map.size - 1 }
    have hremove : (hashmapRemove str map s).2 = map' := by simp [hashmapRemove, hfind, map']
    rw [hremove]
    -- what is left was there before, at another slot
    have hleft : ∀ j e, map'.data j = some e ↔ j ≠ i ∧ map.data j = some e := by
      intro j e
      by_cases hj : j = i <;> simp [map', hj]
    have hholds : ∀ t j, holdsKey str map' t j → holdsKey str map t j := by
      intro t j hj
      obtain ⟨k, v, hj, hk⟩ := holdsKey_iff.mp hj
      exact holdsKey_iff.mpr ⟨k, v, ((hleft j _).mp hj).2, hk⟩
    refine ⟨fun j t hj => h.home j t (hholds t j hj),
      fun j j' t hj hj' => h.unique j j' t (hholds t j hj) (hholds t j' hj'), ?_⟩
    intro t v
    by_cases ht : t = s
    · subst ht
      simp only [Function.update_self, reduceCtorEq, false_iff]
      rintro ⟨j, k, hj, hk⟩
      obtain ⟨hne, hj⟩ := (hleft j _).mp hj
      exact hne (h.unique j i t (holdsKey_iff.mpr ⟨k, v, hj, hk⟩) hi)
    · rw [Function.update_of_ne ht, h.stored t v]
      constructor
      · rintro ⟨j, k, hj, hk⟩
        refine ⟨j, k, (hleft j _).mpr ⟨?_, hj⟩, hk⟩
        rintro rfl
        obtain ⟨k', v', hi', hk'⟩ := holdsKey_iff.mp hi
        rw [hj] at hi'
        cases hi'
        exact ht (hk.symm.trans hk')
      · rintro ⟨j, k, hj, hk⟩
        exact ⟨j, k, ((hleft j _).mp hj).2, hk⟩

/-! ## Storing at an index -/

lemma nextIndex_lt {capacity : ℕ} (hcap : 0 < capacity) (index : ℕ) :
    nextIndex capacity index < capacity ∧ nextIndex capacity index < 2 ^ 32 := by
  have hwrap : (index + 1) % 2 ^ 32 < 2 ^ 32 := Nat.mod_lt _ (by decide)
  exact ⟨Nat.mod_lt _ hcap, (Nat.mod_le _ capacity).trans_lt hwrap⟩

lemma mem_probeSlots_lt {capacity : ℕ} {s : CStr} {i : ℕ} (hcap : 0 < capacity)
    (hi : i ∈ probeSlots capacity s) : i < capacity ∧ i < 2 ^ 32 := by
  obtain ⟨n, -, rfl⟩ := List.mem_iterate.mp hi
  cases n with
  | zero =>
    rw [Function.iterate_zero_apply]
    have hhash : (stringHash s).toNat < 2 ^ 32 := (stringHash s).toNat_lt
    exact ⟨Nat.mod_lt _ hcap, (Nat.mod_le _ capacity).trans_lt hhash⟩
  | succ n =>
    rw [Function.iterate_succ_apply']
    exact nextIndex_lt hcap _

lemma toInt32_toNat {i : ℕ} (hi : i < 2 ^ 32) (hneg : ¬ toInt32 i < 0) :
    (toInt32 i).toNat = i := by
  rw [toInt32] at hneg ⊢
  by_cases h : i < 2 ^ 31
  · rw [if_pos h, Int.toNat_natCast]
  · rw [if_neg h] at hneg
    omega

/-- The index of `hashmap_put` when it is not negative: the first slot of the probe window
that is free or stores the string. -/
lemma hashmapIndex_spec {map : Hashmap κ β} {s : CStr} {index : ℤ}
    (h : hashmapIndex str map s = some index) (hneg : ¬ index < 0) :
    ∃ i before after, index.toNat = i ∧ i < map.capacity ∧
      probeSlots map.capacity s = before ++ i :: after ∧
      (map.data i = none ∨ holdsKey str map s i) ∧
      ∀ j ∈ before, map.data j ≠ none ∧ ¬ holdsKey str map s j := by
  rw [hashmapIndex] at h
  split at h
  · cases h
    exact absurd (by decide) hneg
  split at h
  · cases h
  next hcap =>
  split at h
  · next i hfind =>
    cases h
    have hmem : i ∈ probeSlots map.capacity s := List.mem_of_find?_eq_some hfind
    obtain ⟨hlt, hlt32⟩ := mem_probeSlots_lt (Nat.pos_of_ne_zero hcap) hmem
    obtain ⟨hi, before, after, hsplit, hbefore⟩ := List.find?_eq_some_iff_append.mp hfind
    refine ⟨i, before, after, toInt32_toNat hlt32 hneg, hlt, hsplit, ?_, ?_⟩
    · simpa using hi
    · intro j hj
      have := hbefore j hj
      simp only [Bool.not_or, Bool.and_eq_true, Bool.not_eq_true'] at this
      exact ⟨Option.ne_none_iff_isSome.mpr (by simpa using this.1), by simp [this.2]⟩
  · cases h
    exact absurd (by decide) hneg

/-- The first elements that two splits of one list have in common. -/
private lemma split_eq {α : Type} {as bs as' bs' : List α} {x y : α}
    (h : as ++ x :: bs = as' ++ y :: bs') (hx : x ∉ as') (hy : y ∉ as) : x = y := by
  induction as generalizing as' with
  | nil =>
    cases as' with
    | nil => exact (List.cons.inj h).1
    | cons a as' => exact absurd (List.cons.inj h).1 (by rintro rfl; simp at hx)
  | cons a as ih =>
    cases as' with
    | nil => exact absurd (List.cons.inj h).1 (by rintro rfl; simp at hy)
    | cons a' as' =>
      exact ih (List.cons.inj h).2 (fun hm => hx (by simp [hm])) (fun hm => hy (by simp [hm]))

section Store

variable {map : Hashmap κ β} {f : CStr → Option β} {key : κ} {i : ℕ} {before after : List ℕ}

variable (value : β)

lemma store_data (j : ℕ) :
    (map.store i key value).data j = if j = i then some (key, value) else map.data j := by
  simp [Hashmap.store, Function.update_apply]

lemma holdsKey_store {s : CStr} {j : ℕ} :
    holdsKey str (map.store i key value) s j ↔
      (j = i ∧ str key = s) ∨ (j ≠ i ∧ holdsKey str map s j) := by
  by_cases hj : j = i <;> simp [holdsKey, store_data, hj]

/-- Writing the slot that `hashmap_index` chose, when it is the slot of the string or the
string is not stored. -/
private lemma store_at_holds (h : MapHolds str map f) (hlt : i < map.capacity)
    (hmem : i ∈ probeSlots map.capacity (str key))
    (hfree : ∀ s, holdsKey str map s i → s = str key)
    (hsame : ∀ j, holdsKey str map (str key) j → j = i) :
    MapHolds str (map.store i key value) (Function.update f (str key) (some value)) := by
  refine ⟨?_, ?_, ?_⟩
  · intro j s hj
    rcases (holdsKey_store value).mp hj with ⟨rfl, rfl⟩ | ⟨-, hj⟩
    · exact ⟨hmem, hlt⟩
    · exact h.home j s hj
  · intro j j' s hj hj'
    rcases (holdsKey_store value).mp hj with ⟨hji, hs⟩ | ⟨-, hold⟩ <;>
      rcases (holdsKey_store value).mp hj' with ⟨hji', hs'⟩ | ⟨-, hold'⟩
    · rw [hji, hji']
    -- one of the two slots is new and the other old
    · rw [hji, hsame j' (hs ▸ hold')]
    · rw [hji', hsame j (hs' ▸ hold)]
    · exact h.unique j j' s hold hold'
  · intro s v
    by_cases hs : s = str key
    · subst hs
      rw [Function.update_self]
      constructor
      · intro hv
        cases hv
        exact ⟨i, key, by simp [store_data], rfl⟩
      · rintro ⟨j, k, hj, hk⟩
        have hji : j = i := by
          by_contra hne
          rw [store_data, if_neg hne] at hj
          exact hne (hsame j (holdsKey_iff.mpr ⟨k, v, hj, hk⟩))
        subst hji
        simp only [store_data, if_true, Option.some.injEq, Prod.mk.injEq] at hj
        rw [hj.2]
    · -- a slot that holds another string is not the slot that is written
      rw [Function.update_of_ne hs, h.stored s v]
      have hne : ∀ j k, map.data j = some (k, v) ∧ str k = s → j ≠ i := by
        rintro j k ⟨hj, hk⟩ rfl
        exact hs (hfree s (holdsKey_iff.mpr ⟨k, v, hj, hk⟩))
      constructor
      · rintro ⟨j, k, hj, hk⟩
        exact ⟨j, k, by rw [store_data, if_neg (hne j k ⟨hj, hk⟩), hj], hk⟩
      · rintro ⟨j, k, hj, hk⟩
        have hji : j ≠ i := by
          rintro rfl
          simp only [store_data, if_true, Option.some.injEq, Prod.mk.injEq] at hj
          exact hs (hk.symm.trans (by rw [hj.1]))
        rw [store_data, if_neg hji] at hj
        exact ⟨j, k, hj, hk⟩

/-- Writing the first free slot puts no string behind a hole. -/
private lemma store_at_clean (hclean : Clean str map)
    (hsplit : probeSlots map.capacity (str key) = before ++ i :: after)
    (hbefore : ∀ j ∈ before, map.data j ≠ none ∧ ¬ holdsKey str map (str key) j)
    (hfree : ∀ s, holdsKey str map s i → s = str key) :
    Clean str (map.store i key value) := by
  rintro s ⟨as, x, bs, hxs, hx, has, j, hj, hjs⟩
  have hxi : x ≠ i := by
    rintro rfl
    simp [store_data] at hx
  have hx' : map.data x = none := by
    rwa [store_data, if_neg hxi] at hx
  by_cases hs : s = str key
  · subst hs
    -- the written slot comes first of the two
    have hiq : i ∉ as := fun hm => has i hm ((holdsKey_store value).mpr (.inl ⟨rfl, rfl⟩))
    have hxq : x ∉ before := fun hm => (hbefore x hm).1 hx'
    exact hxi (split_eq (hxs.symm.trans hsplit) hxq hiq)
  · refine hclean s ⟨as, x, bs, hxs, hx', ?_, j, hj, ?_⟩
    · intro a ha hold
      refine has a ha ((holdsKey_store value).mpr (.inr ⟨?_, hold⟩))
      rintro rfl
      exact hs (hfree s hold)
    · rcases (holdsKey_store value).mp hjs with ⟨-, h⟩ | ⟨-, h⟩
      · exact absurd h.symm hs
      · exact h

end Store

/-! ## The used slots -/

/-- The number of used slots. -/
def Hashmap.occupied (map : Hashmap κ β) : ℕ :=
  ((Finset.range map.capacity).filter fun i => (map.data i).isSome).card

/-- `size` is the number of used slots. -/
def Counted (map : Hashmap κ β) : Prop := map.size = map.occupied

lemma counted_empty (capacity : ℕ) :
    Counted (⟨capacity, 0, fun _ => none⟩ : Hashmap κ β) := by
  simp [Counted, Hashmap.occupied]

/-- Writing a free slot uses one slot more. -/
lemma occupied_store_free {map : Hashmap κ β} {i : ℕ} (hlt : i < map.capacity)
    (hfree : map.data i = none) (key : κ) (value : β) :
    (map.store i key value).occupied = map.occupied + 1 := by
  have hslots : (Finset.range map.capacity).filter (fun j => ((map.store i key value).data j).isSome)
      = insert i ((Finset.range map.capacity).filter fun j => (map.data j).isSome) := by
    ext j
    by_cases hj : j = i
    · subst hj
      simp [store_data, hlt]
    · simp [store_data, hj]
  have hnot : i ∉ (Finset.range map.capacity).filter fun j => (map.data j).isSome := by
    simp [hfree]
  rw [Hashmap.occupied, Hashmap.occupied, show (map.store i key value).capacity = map.capacity from rfl,
    hslots, Finset.card_insert_of_notMem hnot]

lemma occupied_store_le (map : Hashmap κ β) (i : ℕ) (key : κ) (value : β) :
    (map.store i key value).occupied ≤ map.occupied + 1 := by
  refine (Finset.card_le_card ?_).trans (Finset.card_insert_le i _)
  intro j hj
  rw [Finset.mem_filter] at hj
  by_cases hji : j = i
  · exact Finset.mem_insert.mpr (.inl hji)
  · refine Finset.mem_insert_of_mem (Finset.mem_filter.mpr ⟨hj.1, ?_⟩)
    simpa [store_data, hji] using hj.2

/-! ## Put and resize -/

/-- Storing a new string counts it. -/
private lemma store_counted {map : Hashmap κ β} {f : CStr → Option β} {key : κ} {index : ℤ}
    (value : β) (h : MapHolds str map f) (hindex : hashmapIndex str map (str key) = some index)
    (hneg : ¬ index < 0) (hnew : f (str key) = none) (hcount : Counted map) :
    Counted (map.store index.toNat key value) := by
  obtain ⟨i, before, after, hi, hlt, -, hslot, -⟩ := hashmapIndex_spec hindex hneg
  have hfree : map.data i = none := by
    refine hslot.resolve_right fun hown => ?_
    obtain ⟨k, v, hk, hkey⟩ := holdsKey_iff.mp hown
    rw [(h.stored _ v).mpr ⟨i, k, hk, hkey⟩] at hnew
    cases hnew
  rw [hi, Counted, occupied_store_free hlt hfree, ← hcount]
  rfl

/-- One store of `hashmap_put`, at the index that `hashmap_index` returned. -/
private lemma store_holds {map : Hashmap κ β} {f : CStr → Option β} {key : κ} {index : ℤ}
    (value : β) (h : MapHolds str map f) (hcond : ¬ StoredBehindHole str map (str key))
    (hindex : hashmapIndex str map (str key) = some index) (hneg : ¬ index < 0) :
    MapHolds str (map.store index.toNat key value)
        (Function.update f (str key) (some value)) ∧
      (Clean str map → Clean str (map.store index.toNat key value)) := by
  obtain ⟨i, before, after, hi, hlt, hsplit, hslot, hbefore⟩ := hashmapIndex_spec hindex hneg
  rw [hi]
  have hmem : i ∈ probeSlots map.capacity (str key) := by simp [hsplit]
  have hfree : ∀ s, holdsKey str map s i → s = str key := by
    intro s hs
    rcases hslot with hnone | hown
    · exact absurd hs (not_holdsKey_of_free hnone s)
    · obtain ⟨k, v, hk, rfl⟩ := holdsKey_iff.mp hs
      obtain ⟨k', v', hk', hown⟩ := holdsKey_iff.mp hown
      rw [hk] at hk'
      cases hk'
      exact hown
  have hsame : ∀ j, holdsKey str map (str key) j → j = i := by
    intro j hj
    rcases hslot with hnone | hown
    · -- a free slot was chosen, so the string would be behind it
      exfalso
      have hjs := (h.home j _ hj).1
      simp only [hsplit, List.mem_append, List.mem_cons] at hjs
      rcases hjs with hjs | rfl | hjs
      · exact (hbefore j hjs).2 hj
      · exact not_holdsKey_of_free hnone _ hj
      · exact hcond ⟨before, i, after, hsplit, hnone, fun a ha => (hbefore a ha).2, j, hjs, hj⟩
    · exact h.unique j i _ hj hown
  exact ⟨store_at_holds value h hlt hmem hfree hsame,
    fun hclean => store_at_clean value hclean hsplit hbefore hfree⟩

/-- There was no memory for some table; what is left of `map` is still a finite map. -/
private def OutOfMemory (str : κ → CStr) (alloc : ℕ → Bool) (map : Hashmap κ β) (ret : ℤ)
    (map' : Hashmap κ β) : Prop :=
  ret = mapNomem ∧ (∃ n, alloc n = false) ∧ (∃ g, MapHolds str map' g) ∧
    (Clean str map → Clean str map') ∧ (Counted map → Counted map')

private lemma OutOfMemory.of_clean {str : κ → CStr} {alloc : ℕ → Bool} {map map₁ map' : Hashmap κ β}
    {ret : ℤ} (h : OutOfMemory str alloc map ret map') (hclean : Clean str map)
    (hcount : Counted map) : OutOfMemory str alloc map₁ ret map' :=
  ⟨h.1, h.2.1, h.2.2.1, fun _ => h.2.2.2.1 hclean, fun _ => h.2.2.2.2 hcount⟩

/-- What a `put` of some depth of nested resizes does to a table with no string behind a
hole. -/
private def PutHolds (str : κ → CStr) (alloc : ℕ → Bool)
    (put : Hashmap κ β → κ → β → Option (ℤ × Hashmap κ β)) : Prop :=
  ∀ map f key value ret map', MapHolds str map f → Clean str map →
    put map key value = some (ret, map') → (ret = mapOk ∧
      MapHolds str map' (Function.update f (str key) (some value)) ∧ Clean str map' ∧
      (f (str key) = none → Counted map → Counted map')) ∨ OutOfMemory str alloc map ret map'

variable {alloc : ℕ → Bool}

/-- The copy loop of `hashmap_resize` adds the pairs it is given, each of another string; here
they agree with `f`. -/
private lemma reinsert_holds {put : Hashmap κ β → κ → β → Option (ℤ × Hashmap κ β)}
    (hput : PutHolds str alloc put) {f : CStr → Option β} {pairs : List (κ × β)} :
    ∀ {map g ret map'}, (∀ e ∈ pairs, f (str e.1) = some e.2) →
      (pairs.map fun e => str e.1).Nodup → (∀ e ∈ pairs, g (str e.1) = none) →
      MapHolds str map g → Clean str map → Counted map →
      reinsert put pairs map = some (ret, map') → (ret = mapOk ∧
        MapHolds str map' (fun s => if s ∈ pairs.map (fun e => str e.1) then f s else g s) ∧
        Clean str map' ∧ Counted map') ∨ OutOfMemory str alloc map ret map' := by
  induction pairs with
  | nil =>
    intro map g ret map' _ _ _ h hclean hcount hres
    rw [reinsert] at hres
    cases hres
    exact .inl ⟨rfl, by simpa using h, hclean, hcount⟩
  | cons e rest ih =>
    obtain ⟨key, value⟩ := e
    intro map g ret map' hpairs hnodup hnew h hclean hcount hres
    rw [List.map_cons, List.nodup_cons] at hnodup
    rw [reinsert] at hres
    obtain ⟨⟨ret₁, map₁⟩, h₁, hres⟩ := Option.bind_eq_some_iff.mp hres
    rcases hput _ _ _ _ _ _ h hclean h₁ with ⟨rfl, hmap₁, hclean₁, hcount₁⟩ | hfull
    · simp only [ne_eq, not_true_eq_false, if_false] at hres
      have hnew₁ : ∀ e ∈ rest, Function.update g (str key) (some value) (str e.1) = none := by
        intro e he
        rw [Function.update_of_ne ?_]
        · exact hnew e (by simp [he])
        · intro heq
          exact hnodup.1 (List.mem_map.mpr ⟨e, he, heq⟩)
      have hcount₁ := hcount₁ (hnew (key, value) (by simp)) hcount
      rcases ih (fun e he => hpairs e (by simp [he])) hnodup.2 hnew₁ hmap₁ hclean₁ hcount₁ hres
        with ⟨hret, hmap', hclean', hcount'⟩ | hfull
      · refine .inl ⟨hret, ?_, hclean', hcount'⟩
        -- a string of `rest`, that of the first pair, or one that `g` decides
        convert hmap' using 2 with s
        have hkey : f (str key) = some value := hpairs (key, value) (by simp)
        by_cases hrest : s ∈ rest.map (fun e => str e.1)
        · simp only [List.map_cons, List.mem_cons, hrest, or_true, if_true]
        · by_cases hs : s = str key
          · subst hs
            simp only [List.map_cons, List.mem_cons, true_or, if_true, hrest, if_false,
              Function.update_self, hkey]
          · simp only [List.map_cons, List.mem_cons, hs, hrest, or_self, if_false,
              Function.update_of_ne hs]
      · exact .inr (hfull.of_clean hclean₁ hcount₁)
    · -- the loop returns what the failed put returned
      have hne : ret₁ ≠ mapOk := by
        rw [hfull.1]
        decide
      simp only [if_pos hne] at hres
      cases hres
      exact .inr hfull

lemma mem_entries {map : Hashmap κ β} {f : CStr → Option β} (h : MapHolds str map f)
    {k : κ} {v : β} : (k, v) ∈ map.entries ↔ ∃ i, map.data i = some (k, v) := by
  simp only [Hashmap.entries, List.mem_filterMap, List.mem_range]
  constructor
  · rintro ⟨i, -, hi⟩
    exact ⟨i, hi⟩
  · rintro ⟨i, hi⟩
    exact ⟨i, (h.home i (str k) (holdsKey_iff.mpr ⟨k, v, hi, rfl⟩)).2, hi⟩

/-- The used slots hold different strings. -/
lemma nodup_entries {map : Hashmap κ β} {f : CStr → Option β} (h : MapHolds str map f) :
    (map.entries.map fun e => str e.1).Nodup := by
  rw [Hashmap.entries, List.map_filterMap]
  refine List.Nodup.filterMap ?_ List.nodup_range
  intro i j s hi hj
  simp only [Option.mem_def, Option.map_eq_some_iff] at hi hj
  obtain ⟨⟨k, v⟩, hi, hk⟩ := hi
  obtain ⟨⟨k', v'⟩, hj, hk'⟩ := hj
  exact h.unique i j s (holdsKey_iff.mpr ⟨k, v, hi, hk⟩) (holdsKey_iff.mpr ⟨k', v', hj, hk'⟩)

/-- What a resize does. -/
private def ResizeHolds (str : κ → CStr) (alloc : ℕ → Bool) (map : Hashmap κ β) (ret : ℤ)
    (map' : Hashmap κ β) : Prop :=
  ∀ f, MapHolds str map f → (ret = mapOk ∧ MapHolds str map' f ∧ Clean str map' ∧ Counted map') ∨
    OutOfMemory str alloc map ret map'

/-- A resize keeps the finite map, leaves no string behind a hole and counts the strings. -/
private lemma resize_holds_of {fuel : ℕ}
    (hput : PutHolds (β := β) str alloc (hashmapPut str alloc fuel)) {map map' : Hashmap κ β}
    {ret : ℤ} (hres : hashmapResize str alloc (fuel + 1) map = some (ret, map')) :
    ResizeHolds str alloc map ret map' := by
  intro f h
  rw [hashmapResize] at hres
  by_cases halloc : alloc (map.capacity * 2 % 2 ^ 64) = true
  · rw [if_pos halloc] at hres
    have hpairs : ∀ e ∈ map.entries, f (str e.1) = some e.2 := by
      rintro ⟨k, v⟩ he
      obtain ⟨i, hi⟩ := (mem_entries h).mp he
      exact (h.stored _ _).mpr ⟨i, k, hi, rfl⟩
    rcases reinsert_holds hput hpairs (nodup_entries h) (fun _ _ => rfl) (mapHolds_empty _ _)
      (clean_empty _ _) (counted_empty _) hres with ⟨hret, hmap', hclean', hcount'⟩ | hfull
    · refine .inl ⟨hret, ?_, hclean', hcount'⟩
      convert hmap' using 2 with s
      split
      · rfl
      · next hs =>
        rw [Option.eq_none_iff_forall_ne_some]
        intro v hv
        obtain ⟨i, k, hi, hk⟩ := (h.stored s v).mp hv
        exact hs (List.mem_map.mpr ⟨(k, v), (mem_entries h).mpr ⟨i, hi⟩, hk⟩)
    · exact .inr (hfull.of_clean (clean_empty _ _) (counted_empty _))
  · rw [if_neg halloc] at hres
    cases hres
    exact .inr ⟨rfl, ⟨_, by simpa using halloc⟩, ⟨f, h⟩, id, id⟩

/-- `hashmap_put` when a resize is known to be right: it stores the pair if the string is
not behind a hole or the table is resized first. -/
private lemma put_holds_of {fuel : ℕ}
    (hresize : ∀ {map map' : Hashmap κ β} {ret}, hashmapResize str alloc fuel map = some (ret, map') →
      ResizeHolds str alloc map ret map')
    (hput : PutHolds (β := β) str alloc (hashmapPut str alloc fuel)) {map map' : Hashmap κ β}
    {f : CStr → Option β} {key : κ} {value : β} {ret : ℤ} (h : MapHolds str map f)
    (hcond : map.overloaded ∨ ¬ StoredBehindHole str map (str key))
    (hres : hashmapPut str alloc (fuel + 1) map key value = some (ret, map')) :
    (ret = mapOk ∧ MapHolds str map' (Function.update f (str key) (some value)) ∧
      (Clean str map → Clean str map') ∧ (f (str key) = none → Counted map → Counted map')) ∨
      OutOfMemory str alloc map ret map' := by
  rw [hashmapPut] at hres
  obtain ⟨index, hindex, hres⟩ := Option.bind_eq_some_iff.mp hres
  split at hres
  · obtain ⟨⟨ret₁, map₁⟩, h₁, hres⟩ := Option.bind_eq_some_iff.mp hres
    rcases hresize h₁ f h with ⟨rfl, hmap₁, hclean₁, hcount₁⟩ | hfull
    · have hok : mapOk ≠ mapNomem := by decide
      simp only [hok, if_false] at hres
      rcases hput _ _ _ _ _ _ hmap₁ hclean₁ hres with ⟨hret, hmap', hclean', hcount'⟩ | hfull
      · exact .inl ⟨hret, hmap', fun _ => hclean', fun hnew _ => hcount' hnew hcount₁⟩
      · exact .inr (hfull.of_clean hclean₁ hcount₁)
    · simp only [hfull.1, if_true] at hres
      cases hres
      exact .inr ⟨rfl, hfull.2⟩
  · next hfull =>
    split at hres
    · cases hres
    next hneg =>
    cases hres
    have hnot : ¬ StoredBehindHole str map (str key) := by
      refine hcond.resolve_left fun hover => hfull ?_
      rw [hashmapIndex, if_pos hover] at hindex
      exact (Option.some.inj hindex).symm
    obtain ⟨hmap', hclean'⟩ := store_holds value h hnot hindex hneg
    exact .inl ⟨rfl, hmap', hclean', fun hnew hcount => store_counted value h hindex hneg hnew hcount⟩

/-- Induction on the depth of nested resizes: `hashmap_put` and `hashmap_resize` keep the
table right as long as no string is behind a hole. -/
private lemma put_resize_holds (str : κ → CStr) (alloc : ℕ → Bool) (fuel : ℕ) :
    PutHolds (β := β) str alloc (hashmapPut str alloc fuel) ∧
      ∀ {map map' : Hashmap κ β} {ret}, hashmapResize str alloc fuel map = some (ret, map') →
        ResizeHolds str alloc map ret map' := by
  induction fuel with
  | zero =>
    constructor
    · intro map f key value ret map' _ _ hres
      simp [hashmapPut] at hres
    · intro map map' ret hres
      simp [hashmapResize] at hres
  | succ fuel ih =>
    refine ⟨?_, fun hres => resize_holds_of ih.1 hres⟩
    intro map f key value ret map' h hclean hres
    rcases put_holds_of ih.2 ih.1 h (.inr (hclean _)) hres with
      ⟨hret, hmap', hclean', hcount'⟩ | hfull
    · exact .inl ⟨hret, hmap', hclean' hclean, hcount'⟩
    · exact .inr hfull

/-- A `hashmap_put` that finishes returns `_MAP_OK` and adds the pair to the finite map, if
the string is not behind a hole or the table is resized first. -/
theorem hashmapPut_holds (halloc : ∀ n, alloc n) {fuel : ℕ} {map map' : Hashmap κ β}
    {f : CStr → Option β} {key : κ} {value : β} {ret : ℤ} (h : MapHolds str map f)
    (hcond : map.overloaded ∨ ¬ StoredBehindHole str map (str key))
    (hres : hashmapPut str alloc fuel map key value = some (ret, map')) :
    ret = mapOk ∧ MapHolds str map' (Function.update f (str key) (some value)) ∧
      (Clean str map → Clean str map') ∧ (f (str key) = none → Counted map → Counted map') := by
  cases fuel with
  | zero => simp [hashmapPut] at hres
  | succ fuel =>
    rcases put_holds_of (put_resize_holds str alloc fuel).2 (put_resize_holds str alloc fuel).1 h
      hcond hres with hput | ⟨-, ⟨n, hn⟩, -⟩
    · exact hput
    · rw [halloc n] at hn
      cases hn

/-- A `hashmap_put` on a table with no string behind a hole leaves such a table, also when it
runs out of memory. -/
theorem hashmapPut_clean {fuel : ℕ} {map map' : Hashmap κ β} {f : CStr → Option β} {key : κ}
    {value : β} {ret : ℤ} (h : MapHolds str map f) (hclean : Clean str map)
    (hres : hashmapPut str alloc fuel map key value = some (ret, map')) :
    (∃ g, MapHolds str map' g) ∧ Clean str map' := by
  rcases (put_resize_holds str alloc fuel).1 _ _ _ _ _ _ h hclean hres with
    ⟨-, hmap', hclean', -⟩ | ⟨-, -, hmap', hclean', -⟩
  · exact ⟨⟨_, hmap'⟩, hclean'⟩
  · exact ⟨hmap', hclean' hclean⟩

/-- A `hashmap_put` of a new string leaves a finite map and counts the string, also when it
runs out of memory. -/
theorem hashmapPut_counted {fuel : ℕ} {map map' : Hashmap κ β} {f : CStr → Option β} {key : κ}
    {value : β} {ret : ℤ} (h : MapHolds str map f) (hnew : f (str key) = none)
    (hcount : Counted map) (hres : hashmapPut str alloc fuel map key value = some (ret, map')) :
    (∃ g, MapHolds str map' g) ∧ Counted map' := by
  cases fuel with
  | zero => simp [hashmapPut] at hres
  | succ fuel =>
    have hhole : ¬ StoredBehindHole str map (str key) := by
      rintro ⟨_, _, _, -, -, -, j, -, hj⟩
      obtain ⟨k, v, hk, hkey⟩ := holdsKey_iff.mp hj
      rw [(h.stored _ v).mpr ⟨j, k, hk, hkey⟩] at hnew
      cases hnew
    rcases put_holds_of (put_resize_holds str alloc fuel).2 (put_resize_holds str alloc fuel).1 h
      (.inr hhole) hres with ⟨-, hmap', -, hcount'⟩ | ⟨-, -, hmap', -, hcount'⟩
    · exact ⟨⟨_, hmap'⟩, hcount' hnew hcount⟩
    · exact ⟨hmap', hcount' hcount⟩

/-- A `hashmap_resize` that returns `_MAP_OK` keeps the finite map and counts the strings. -/
theorem hashmapResize_holds {fuel : ℕ} {map map' : Hashmap κ β} {f : CStr → Option β}
    (h : MapHolds str map f) (hres : hashmapResize str alloc fuel map = some (mapOk, map')) :
    MapHolds str map' f ∧ Clean str map' ∧ Counted map' := by
  rcases (put_resize_holds str alloc fuel).2 hres f h with ⟨-, hmap'⟩ | ⟨hret, -⟩
  · exact hmap'
  · exact absurd hret (by decide)

/-- With memory for every table, a resize that finishes returns `_MAP_OK`. -/
lemma hashmapResize_total (halloc : ∀ n, alloc n) {fuel : ℕ} {map map' : Hashmap κ β}
    {f : CStr → Option β} {ret : ℤ} (h : MapHolds str map f)
    (hres : hashmapResize str alloc fuel map = some (ret, map')) :
    ret = mapOk ∧ MapHolds str map' f ∧ Clean str map' ∧ Counted map' := by
  rcases (put_resize_holds str alloc fuel).2 hres f h with hmap' | ⟨-, ⟨n, hn⟩, -⟩
  · exact hmap'
  · rw [halloc n] at hn
    cases hn

/-- All values in the slots have a property. -/
def AllValues (P : β → Prop) (map : Hashmap κ β) : Prop :=
  ∀ i key value, map.data i = some (key, value) → P value

lemma allValues_new (P : β → Prop) (capacity size : ℕ) :
    AllValues P (⟨capacity, size, fun _ => none⟩ : Hashmap κ β) := by
  intro i key value h
  cases h

lemma AllValues.get {P : β → Prop} {map : Hashmap κ β} (h : AllValues P map) {s : CStr} {value : β}
    (hget : hashmapGet str map s = some value) : P value := by
  simp only [hashmapGet, Option.bind_eq_bind, Option.bind_eq_some_iff] at hget
  obtain ⟨i, -, ⟨key, v⟩, hdata, hv⟩ := hget
  rw [← Option.some.inj hv]
  exact h i key v hdata

lemma AllValues.store {P : β → Prop} {map : Hashmap κ β} (h : AllValues P map) (index : ℕ)
    (key : κ) {value : β} (hvalue : P value) : AllValues P (map.store index key value) := by
  intro i key' value' hdata
  simp only [Hashmap.store, Function.update_apply] at hdata
  split at hdata
  · simp only [Option.some.injEq, Prod.mk.injEq] at hdata
    rw [← hdata.2]
    exact hvalue
  · exact h i key' value' hdata

/-- `In` holds of the tables a put is given and `Out` of the tables it leaves, when the pairs
that are put have the property `Q`. -/
structure PutInvariant (str : κ → CStr) (In Out : Hashmap κ β → Prop) (Q : κ → β → Prop) :
    Prop where
  weaken : ∀ {map}, Out map → In map
  store : ∀ {map key value index}, In map → Q key value →
    hashmapIndex str map (str key) = some index → ¬ index < 0 → Out (map.store index.toNat key value)
  full : ∀ {map key}, In map → hashmapIndex str map key = some mapFull → Out map
  fresh : ∀ {map}, Out map → In ⟨map.capacity * 2 % 2 ^ 64, 0, fun _ => none⟩
  entries : ∀ {map}, Out map → ∀ e ∈ map.entries, Q e.1 e.2

section PutInvariant

variable {In Out : Hashmap κ β → Prop} {Q : κ → β → Prop}

private lemma reinsert_invariant (hinv : PutInvariant str In Out Q)
    {put : Hashmap κ β → κ → β → Option (ℤ × Hashmap κ β)}
    (hput : ∀ {map key value ret map'}, put map key value = some (ret, map') → In map →
      Q key value → Out map')
    {pairs : List (κ × β)} (hpairs : ∀ e ∈ pairs, Q e.1 e.2) {map map' : Hashmap κ β} {ret : ℤ}
    (h : reinsert put pairs map = some (ret, map')) (hmap : In map) :
    In map' ∧ (ret ≠ mapOk → Out map') := by
  induction pairs generalizing map with
  | nil =>
    cases h
    exact ⟨hmap, fun hne => absurd rfl hne⟩
  | cons e rest ih =>
    rw [reinsert] at h
    obtain ⟨⟨ret₁, map₁⟩, hstep, h⟩ := Option.bind_eq_some_iff.mp h
    have hmap₁ := hput hstep hmap (hpairs e (by simp))
    simp only at h
    split at h
    · cases h
      exact ⟨hinv.weaken hmap₁, fun _ => hmap₁⟩
    · exact ih (fun e he => hpairs e (by simp [he])) h (hinv.weaken hmap₁)

private lemma put_resize_invariant (hinv : PutInvariant str In Out Q) (alloc : ℕ → Bool)
    (fuel : ℕ) :
    (∀ {map key value ret map'}, hashmapPut str alloc fuel map key value = some (ret, map') →
      In map → Q key value → Out map') ∧
    ∀ {map ret map'}, hashmapResize str alloc fuel map = some (ret, map') → Out map →
      In map' ∧ (ret ≠ mapOk → Out map') := by
  induction fuel with
  | zero =>
    constructor
    · intro map key value ret map' h
      simp [hashmapPut] at h
    · intro map ret map' h
      simp [hashmapResize] at h
  | succ fuel ih =>
    constructor
    · intro map key value ret map' h hmap hvalue
      rw [hashmapPut] at h
      obtain ⟨index, hindex, h⟩ := Option.bind_eq_some_iff.mp h
      split at h
      · next hfull =>
        -- no open slot: the put resizes and starts again
        obtain ⟨⟨ret₁, map₁⟩, hresize, h⟩ := Option.bind_eq_some_iff.mp h
        obtain ⟨hin, hout⟩ := ih.2 hresize (hinv.full hmap (hfull ▸ hindex))
        simp only at h
        split at h
        · next hmem =>
          cases h
          refine hout ?_
          rw [hmem]
          decide
        · exact ih.1 h hin hvalue
      · split at h
        · cases h
        · next hneg =>
          cases h
          exact hinv.store hmap hvalue hindex hneg
    · intro map ret map' h hmap
      rw [hashmapResize] at h
      split at h
      · exact reinsert_invariant hinv ih.1 (hinv.entries hmap) h (hinv.fresh hmap)
      · cases h
        exact ⟨hinv.weaken hmap, fun _ => hmap⟩

/-- An invariant is kept by a put, through any number of resizes. -/
lemma PutInvariant.put (hinv : PutInvariant str In Out Q) {alloc : ℕ → Bool} {fuel : ℕ}
    {map map' : Hashmap κ β} {key : κ} {value : β} {ret : ℤ}
    (h : hashmapPut str alloc fuel map key value = some (ret, map')) (hmap : In map)
    (hvalue : Q key value) : Out map' :=
  (put_resize_invariant hinv alloc fuel).1 h hmap hvalue

end PutInvariant

/-- A property of all values is an invariant of puts. -/
lemma allValues_invariant (str : κ → CStr) (P : β → Prop) :
    PutInvariant str (AllValues P : Hashmap κ β → Prop) (AllValues P) fun _ value => P value where
  weaken hmap := hmap
  store hmap hvalue _ _ := hmap.store _ _ hvalue
  full hmap _ := hmap
  fresh _ := allValues_new P _ _
  entries := by
    rintro map hmap ⟨key, value⟩ he
    simp only [Hashmap.entries, List.mem_filterMap] at he
    obtain ⟨i, -, hi⟩ := he
    exact hmap i key value hi

/-- Putting a value keeps a property of all values. -/
lemma hashmapPut_values {P : β → Prop} {alloc : ℕ → Bool} {fuel : ℕ} {map map' : Hashmap κ β}
    {key : κ} {value : β} {ret : ℤ} (h : hashmapPut str alloc fuel map key value = some (ret, map'))
    (hmap : AllValues P map) (hvalue : P value) : AllValues P map' :=
  (allValues_invariant str P).put h hmap hvalue

/-- A put at a slot that `hashmap_index` finds. -/
lemma hashmapPut_store {fuel : ℕ} {map : Hashmap κ β} {key : κ} {value : β} (index : ℕ)
    (h : hashmapIndex str map (str key) = some (index : ℤ)) :
    hashmapPut str alloc (fuel + 1) map key value = some (mapOk, map.store index key value) := by
  have hfull : (index : ℤ) ≠ mapFull := by simp [mapFull]
  simp [hashmapPut, h, hfull]

/-- The home slot of a string in a table that has not grown, and the window behind it. -/
lemma probeSlots_home (s : CStr) : probeSlots initialMapCap s =
    (stringHash s).toNat % initialMapCap :: List.iterate (nextIndex initialMapCap)
      (nextIndex initialMapCap ((stringHash s).toNat % initialMapCap)) 7 := by
  rw [probeSlots, maxProbeCount, List.iterate]

/-- Where all keys have one string, its put goes to its home slot. -/
lemma hashmapPut_home {map : Hashmap κ β} {key : κ} (hcap : map.capacity = initialMapCap)
    (hsize : map.size < 64)
    (hkeys : ∀ i key' value, map.data i = some (key', value) → str key' = str key) (fuel : ℕ)
    (value : β) : hashmapPut str alloc (fuel + 1) map key value = some (mapOk,
      map.store ((stringHash (str key)).toNat % initialMapCap) key value) := by
  apply hashmapPut_store
  have hload : ∀ n < 64, ¬ toFloat (toFloat initialMapCap * 11744051) < toFloat n * 2 ^ 24 := by
    decide +kernel
  have hover : map.overloaded = false := by
    rw [Hashmap.overloaded, hcap]
    exact decide_eq_false (hload _ hsize)
  have hlt : (stringHash (str key)).toNat % initialMapCap < 2 ^ 31 :=
    lt_trans (Nat.mod_lt _ (by decide)) (show initialMapCap < 2 ^ 31 by decide)
  rw [hashmapIndex, hover, hcap, if_neg (by decide), if_neg (by decide), probeSlots_home,
    List.find?_cons_of_pos]
  · simp only [toInt32, if_pos hlt]
  · -- the slot is free, or its key has this string
    rw [Bool.or_eq_true]
    cases hslot : map.data ((stringHash (str key)).toNat % initialMapCap) with
    | none => exact .inl rfl
    | some pair =>
      refine .inr ?_
      simp only [holdsKey, hslot, hkeys _ _ _ hslot, beq_self_eq_true]

/-- A put into a fresh map stores the pair in its home slot. -/
lemma hashmapPut_new (fuel : ℕ) (str : κ → CStr) (alloc : ℕ → Bool) (key : κ) (value : β) :
    hashmapPut str alloc (fuel + 1) hashmapNew key value = some (mapOk,
      hashmapNew.store ((stringHash (str key)).toNat % initialMapCap) key value) :=
  hashmapPut_home rfl (Nat.zero_lt_succ 63) (fun _ _ _ h => by cases h) fuel value

/-! ## Runs -/

variable (str) (alloc) in
/-- `MapRun str alloc C map f`: a sequence of puts and removals on a fresh map, each put
finishing and each made in a state that meets `C`, ends in `map`, while the same sequence
on a finite map ends in `f`. -/
inductive MapRun (C : Hashmap κ β → CStr → Prop) : Hashmap κ β → (CStr → Option β) → Prop
  | new : MapRun C hashmapNew (fun _ => none)
  | put {map map' f ret} (fuel : ℕ) (key : κ) (value : β) : MapRun C map f → C map (str key) →
      hashmapPut str alloc fuel map key value = some (ret, map') →
      MapRun C map' (Function.update f (str key) (some value))
  | remove {map f} (key : CStr) : MapRun C map f →
      MapRun C (hashmapRemove str map key).2 (Function.update f key none)

/-- Every lookup reads the finite map, and a removal succeeds on the strings in it. -/
def AgreesWith (str : κ → CStr) (map : Hashmap κ β) (f : CStr → Option β) : Prop :=
  ∀ key, hashmapGet str map key = f key ∧ (hashmapRemove str map key).1 = (f key).isSome

/-- The state in which a put stores its pair over the one with the same string: memory is
there for the tables it asks for, and the put resizes first or the string is not behind a
hole. -/
def PutFinds (str : κ → CStr) (alloc : ℕ → Bool) (map : Hashmap κ β) (key : CStr) : Prop :=
  (∀ n, alloc n) ∧ (map.overloaded ∨ ¬ StoredBehindHole str map key)

/-- In a run whose puts all find their slot the table stores the finite map. -/
lemma mapRun_holds {map : Hashmap κ β} {f : CStr → Option β}
    (h : MapRun str alloc (PutFinds str alloc) map f) : MapHolds str map f := by
  induction h with
  | new => exact mapHolds_empty _ _
  | put fuel key value _ hfinds hput ih =>
    exact (hashmapPut_holds hfinds.1 ih hfinds.2 hput).2.1
  | remove key _ ih => exact hashmapRemove_holds ih key

/-- A sequence of puts and removals whose puts never find a hole in front of the string they
store agrees with the same sequence on a finite map, in every state. -/
theorem hashmap_refines (str : κ → CStr) (alloc : ℕ → Bool) (map : Hashmap κ β)
    (f : CStr → Option β) (h : MapRun str alloc (PutFinds str alloc) map f) :
    AgreesWith str map f := by
  intro key
  have hholds := mapRun_holds h
  exact ⟨hashmapGet_eq hholds key, hashmapRemove_fst hholds key⟩

/-- Where the first slot of the window that is free or stores the string is the one that a lookup
finds, the string is not behind a hole; and neither is one that is not stored. -/
lemma not_storedBehindHole {map : Hashmap κ β} {s : CStr} (h : hashmapFind str map s = none ∨
    (probeSlots map.capacity s).find? (fun i => (map.data i).isNone || holdsKey str map s i)
      = hashmapFind str map s) : ¬ StoredBehindHole str map s := by
  rintro ⟨before, i, after, hsplit, hfree, hbefore, j, hj, hold⟩
  rcases h with hnone | hfirst
  · have hmiss := List.find?_eq_none.mp hnone j (by simp [hsplit, hj])
    exact hmiss hold
  · -- the lookup goes on behind the free slot, and the scan of a put does not
    have hskip : before.find? (holdsKey str map s) = none :=
      List.find?_eq_none.mpr fun k hk => hbefore k hk
    have hnot : holdsKey str map s i = false :=
      Bool.eq_false_iff.mpr (not_holdsKey_of_free hfree s)
    rw [hashmapFind, hsplit, List.find?_append, List.find?_append, hskip, Option.none_or,
      List.find?_cons_of_pos (by simp [hfree]), List.find?_cons_of_neg (by simp [hnot])] at hfirst
    cases hfound : after.find? (holdsKey str map s) with
    | none => exact List.find?_eq_none.mp hfound j hj hold
    | some k =>
      rw [hfound] at hfirst
      have hk := List.find?_some hfound
      cases hhit : before.find? (fun i => (map.data i).isNone || holdsKey str map s i) with
      | none =>
        rw [hhit] at hfirst
        obtain rfl : i = k := by simpa using hfirst
        exact Bool.eq_false_iff.mp hnot hk
      | some l =>
        rw [hhit] at hfirst
        obtain rfl : l = k := by simpa using hfirst
        exact hbefore l (List.mem_of_find?_eq_some hhit) hk

/-- `"t"` is stored behind `"o"` and stored again, `"o"` is removed and fills the hole again before
the next put of `"t"`, which is removed at the end. -/
theorem hashmap_refines_colliding :
    let map₁ : Hashmap CStr ℕ := hashmapNew.store 90 [111] 1
    let map₂ := (map₁.store 91 [116] 2).store 91 [116] 3
    let map₃ := (hashmapRemove id map₂ [111]).2
    let map₄ := (map₃.store 90 [111] 4).store 91 [116] 5
    AgreesWith id (hashmapRemove id map₄ [116]).2
      (Function.update (Function.update (Function.update (Function.update (Function.update
        (Function.update (Function.update (fun _ => none) [111] (some 1)) [116] (some 2))
          [116] (some 3)) [111] none) [111] (some 4)) [116] (some 5)) [116] none) := by
  intro map₁ map₂ map₃ map₄
  have halloc : ∀ n : ℕ, (fun _ : ℕ => true) n = true := fun _ => rfl
  have h₁ : MapRun id (fun _ => true) (PutFinds id fun _ => true) map₁ _ :=
    .put 1 [111] 1 .new ⟨halloc, .inr (clean_empty _ _ _)⟩
      (hashmapPut_store 90 (by decide +kernel))
  have h₂ : MapRun id (fun _ => true) (PutFinds id fun _ => true) map₂ _ :=
    .put 1 [116] 3 (.put 1 [116] 2 h₁
        ⟨halloc, .inr (not_storedBehindHole (.inl (by decide +kernel)))⟩
        (hashmapPut_store 91 (by decide +kernel)))
      ⟨halloc, .inr (not_storedBehindHole (.inr (by decide +kernel)))⟩
      (hashmapPut_store 91 (by decide +kernel))
  have h₄ : MapRun id (fun _ => true) (PutFinds id fun _ => true) map₄ _ :=
    .put 1 [116] 5 (.put 1 [111] 4 (.remove [111] h₂)
        ⟨halloc, .inr (not_storedBehindHole (.inl (by decide +kernel)))⟩
        (hashmapPut_store 90 (by decide +kernel)))
      ⟨halloc, .inr (not_storedBehindHole (.inr (by decide +kernel)))⟩
      (hashmapPut_store 91 (by decide +kernel))
  exact hashmap_refines id (fun _ => true) _ _ (.remove [116] h₄)

/-- `"o"` and `"t"` have the same home slot: after `"t"` was stored behind `"o"` and `"o"` was
removed, a put of `"t"` fills the hole, and a removal of `"t"` uncovers the older value. -/
theorem hashmap_not_refines :
    ¬ ∀ (map : Hashmap CStr ℕ) (f : CStr → Option ℕ),
      MapRun id (fun _ => true) (fun _ _ => True) map f → AgreesWith id map f := by
  intro hall
  let map₁ : Hashmap CStr ℕ := hashmapNew.store 90 [111] 1
  let map₂ := map₁.store 91 [116] 2
  let map₃ := (hashmapRemove id map₂ [111]).2
  let map₄ := map₃.store 90 [116] 3
  have h₁ : hashmapPut id (fun _ => true) 1 hashmapNew [111] 1 = some (mapOk, map₁) :=
    hashmapPut_store 90 (by decide +kernel)
  have h₂ : hashmapPut id (fun _ => true) 1 map₁ [116] 2 = some (mapOk, map₂) :=
    hashmapPut_store 91 (by decide +kernel)
  have h₃ : hashmapPut id (fun _ => true) 1 map₃ [116] 3 = some (mapOk, map₄) :=
    hashmapPut_store 90 (by decide +kernel)
  have hrun : MapRun id (fun _ => true) (fun _ _ => True) (hashmapRemove id map₄ [116]).2 _ :=
    .remove [116] (.put 1 [116] 3 (.remove [111]
      (.put 1 [116] 2 (.put 1 [111] 1 .new trivial h₁) trivial h₂)) trivial h₃)
  have hget : hashmapGet id (hashmapRemove id map₄ [116]).2 [116] = some 2 := by decide +kernel
  have hmiss := (hall _ _ hrun [116]).1
  rw [hget, Function.update_self] at hmiss
  cases hmiss

end PhantomShell
