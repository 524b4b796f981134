import Mathlib.Data.Set.Card
import PhantomShell.HashmapTheorems

/-!
# Growth of the hash map

What a resize keeps, what `size` counts, and when a put finishes. A put doubles the table until
the string finds a slot in its probe window; the windows of strings with the same hash never
separate.
-/

namespace PhantomShell

variable {κ β : Type} {str : κ → CStr} {alloc : ℕ → Bool}

/-! ## Resizing -/

variable (str) in
/-- The maps that sequences of `hashmap_put` calls lead to, each call with its own memory. -/
inductive PutRun : Hashmap κ β → Prop
  | new : PutRun hashmapNew
  | put {map map' ret} (alloc : ℕ → Bool) (fuel : ℕ) (key : κ) (value : β) : PutRun map →
      hashmapPut str alloc fuel map key value = some (ret, map') → PutRun map'

/-- Puts alone leave no string behind a hole. -/
lemma PutRun.holds {map : Hashmap κ β} (h : PutRun str map) :
    (∃ f, MapHolds str map f) ∧ Clean str map := by
  induction h with
  | new => exact ⟨⟨_, mapHolds_empty _ _⟩, clean_empty _ _⟩
  | put alloc fuel key value _ hput ih =>
    obtain ⟨⟨f, hmap⟩, hclean⟩ := ih
    exact hashmapPut_clean hmap hclean hput

/-- `map'` has the mapping of `map`, no key twice, every key in its window with no free slot
before it, and its size is the number of used slots. -/
structure Resized (str : κ → CStr) (map map' : Hashmap κ β) : Prop where
  same : ∀ key, hashmapGet str map' key = hashmapGet str map key
  unique : ∀ i j s, holdsKey str map' s i → holdsKey str map' s j → i = j
  window : ∀ i s, holdsKey str map' s i → ∃ before after,
    probeSlots map'.capacity s = before ++ i :: after ∧ ∀ j ∈ before, map'.data j ≠ none
  counted : hashmapSize map' = map'.occupied

/-- In a table with nothing behind a hole, the slots before a string are used. -/
lemma window_used {map : Hashmap κ β} {f : CStr → Option β} (h : MapHolds str map f)
    (hclean : Clean str map) {i : ℕ} {s : CStr} (hi : holdsKey str map s i) :
    ∃ before after, probeSlots map.capacity s = before ++ i :: after ∧
      ∀ j ∈ before, map.data j ≠ none := by
  obtain ⟨before, after, hsplit, hfirst⟩ := List.eq_append_cons_of_mem (h.home i s hi).1
  refine ⟨before, after, hsplit, ?_⟩
  intro j hj hfree
  obtain ⟨as, bs, rfl⟩ := List.append_of_mem hj
  -- the string is stored behind the free slot `j`
  refine hclean s ⟨as, j, bs ++ i :: after, by rw [hsplit]; simp, hfree, ?_, i, by simp, hi⟩
  intro k hk hold
  rw [h.unique k i s hold hi] at hk
  exact hfirst (by simp [hk])

/-- A resize that returns `_MAP_OK`, with any number of nested resizes, keeps the mapping. -/
theorem resize_preserves {map map' : Hashmap κ β} {fuel : ℕ} (hrun : PutRun str map)
    (hres : hashmapResize str alloc fuel map = some (mapOk, map')) : Resized str map map' := by
  obtain ⟨⟨f, hmap⟩, -⟩ := hrun.holds
  obtain ⟨hmap', hclean', hcount'⟩ := hashmapResize_holds hmap hres
  refine ⟨?_, hmap'.unique, fun i s hi => window_used hmap' hclean' hi, hcount'⟩
  intro key
  rw [hashmapGet_eq hmap', hashmapGet_eq hmap]

/-- `"o"` and `"t"`, and `"k"` and `"x"`: two pairs of strings with one home slot each, in the table
and in the one of twice its size. -/
theorem resize_preserves_colliding :
    let map : Hashmap CStr ℕ := (((hashmapNew.store 90 [111] 1).store 91 [116] 2).store 39 [107] 3).store
      40 [120] 4
    ∃ map', hashmapResize id (fun _ => true) 2 map = some (mapOk, map') ∧
      [218, 219, 39, 40].map map'.data
        = [some ([111], 1), some ([116], 2), some ([107], 3), some ([120], 4)] ∧
      Resized id map map' := by
  intro map
  have hrun : PutRun id map :=
    .put (fun _ => true) 1 [120] 4 (.put (fun _ => true) 1 [107] 3 (.put (fun _ => true) 1 [116] 2
          (.put (fun _ => true) 1 [111] 1 .new (hashmapPut_store 90 (by decide +kernel)))
        (hashmapPut_store 91 (by decide +kernel))) (hashmapPut_store 39 (by decide +kernel)))
      (hashmapPut_store 40 (by decide +kernel))
  have hresize : (hashmapResize id (fun _ => true) 2 map).map (fun r =>
      (r.1, [218, 219, 39, 40].map r.2.data)) = some (mapOk,
        [some ([111], 1), some ([116], 2), some ([107], 3), some ([120], 4)]) := by
    decide +kernel
  obtain ⟨⟨ret, map'⟩, hres, heq⟩ := Option.map_eq_some_iff.mp hresize
  obtain ⟨rfl, hdata⟩ := Prod.mk.inj heq
  exact ⟨map', hres, hdata, resize_preserves hrun hres⟩

/-! ## The size counter -/

variable (str) in
/-- The maps that sequences of puts and removals lead to, each put made in a state that meets
`C`. -/
inductive TableRun (C : Hashmap κ β → CStr → Prop) : Hashmap κ β → Prop
  | new : TableRun C hashmapNew
  | put {map map' ret} (alloc : ℕ → Bool) (fuel : ℕ) (key : κ) (value : β) : TableRun C map →
      C map (str key) → hashmapPut str alloc fuel map key value = some (ret, map') →
      TableRun C map'
  | remove {map} (key : CStr) : TableRun C map → TableRun C (hashmapRemove str map key).2

/-- The keys for which `hashmap_get` reports a hit. -/
def hits (str : κ → CStr) (map : Hashmap κ β) : Set CStr :=
  {key | (hashmapGet str map key).isSome = true}

/-- The string that a used slot holds. -/
def Hashmap.keyAt (str : κ → CStr) (map : Hashmap κ β) (i : ℕ) : CStr :=
  ((map.data i).map fun e => str e.1).getD []

lemma keyAt_eq {map : Hashmap κ β} {i : ℕ} {s : CStr} (h : holdsKey str map s i) :
    map.keyAt str i = s := by
  obtain ⟨k, v, hk, hs⟩ := holdsKey_iff.mp h
  simp [Hashmap.keyAt, hk, hs]

lemma holdsKey_keyAt {map : Hashmap κ β} {i : ℕ} (h : map.data i ≠ none) :
    holdsKey str map (map.keyAt str i) i := by
  obtain ⟨⟨k, v⟩, hk⟩ := Option.ne_none_iff_exists'.mp h
  exact holdsKey_iff.mpr ⟨k, v, hk, by simp [Hashmap.keyAt, hk]⟩

/-- The keys are the strings of the used slots, each of them once. -/
lemma ncard_hits {map : Hashmap κ β} {f : CStr → Option β} (h : MapHolds str map f) :
    (hits str map).ncard = map.occupied := by
  have hset : hits str map = ((Finset.range map.capacity).filter fun i =>
      (map.data i).isSome).image (map.keyAt str) := by
    ext s
    simp only [hits, Set.mem_ofPred_eq, hashmapGet_eq h, Finset.coe_image, Set.mem_image,
      Finset.coe_filter, Finset.mem_range]
    constructor
    · intro hs
      obtain ⟨v, hv⟩ := Option.isSome_iff_exists.mp hs
      obtain ⟨i, k, hi, hk⟩ := (h.stored s v).mp hv
      have hold := holdsKey_iff.mpr ⟨k, v, hi, hk⟩
      exact ⟨i, ⟨(h.home i s hold).2, by simp [hi]⟩, keyAt_eq hold⟩
    · rintro ⟨i, ⟨-, hi⟩, rfl⟩
      obtain ⟨k, v, hk, hs⟩ := holdsKey_iff.mp
        (holdsKey_keyAt (Option.isSome_iff_ne_none.mp hi))
      rw [(h.stored _ v).mpr ⟨i, k, hk, hs⟩]
      rfl
  rw [hset, Set.ncard_coe_finset, Finset.card_image_of_injOn, Hashmap.occupied]
  intro i hi j hj hij
  simp only [Finset.coe_filter, Set.mem_ofPred_eq] at hi hj
  have hold : holdsKey str map (map.keyAt str i) i :=
    holdsKey_keyAt (Option.isSome_iff_ne_none.mp hi.2)
  rw [hij] at hold
  exact h.unique i j _ hold (holdsKey_keyAt (Option.isSome_iff_ne_none.mp hj.2))

/-- Clearing a used slot uses one slot less. -/
lemma counted_remove {map : Hashmap κ β} {f : CStr → Option β} (h : MapHolds str map f)
    (hcount : Counted map) (s : CStr) : Counted (hashmapRemove str map s).2 := by
  cases hfind : hashmapFind str map s with
  | none => simpa [hashmapRemove, hfind] using hcount
  | some i =>
    have hi : holdsKey str map s i := (hashmapFind_eq_some_iff h s i).mp hfind
    obtain ⟨k, v, hk, -⟩ := holdsKey_iff.mp hi
    have hlt := (h.home i s hi).2
    simp only [hashmapRemove, hfind, Counted, Hashmap.occupied]
    have hslots : (Finset.range map.capacity).filter
          (fun j => (Function.update map.data i none j).isSome)
        = ((Finset.range map.capacity).filter fun j => (map.data j).isSome).erase i := by
      ext j
      by_cases hj : j = i
      · subst hj
        simp
      · simp [hj]
    rw [hslots, Finset.card_erase_of_mem (by simp [hlt, hk])]
    exact congrArg (· - 1) hcount

/-- Every put adds a key that is not there. -/
lemma TableRun.holds {map : Hashmap κ β}
    (h : TableRun str (fun map key => hashmapGet str map key = none) map) :
    (∃ f, MapHolds str map f) ∧ Counted map := by
  induction h with
  | new => exact ⟨⟨_, mapHolds_empty _ _⟩, counted_empty _⟩
  | put alloc fuel key value _ hnew hput ih =>
    obtain ⟨⟨f, hmap⟩, hcount⟩ := ih
    rw [hashmapGet_eq hmap] at hnew
    exact hashmapPut_counted hmap hnew hcount hput
  | remove key _ ih =>
    obtain ⟨⟨f, hmap⟩, hcount⟩ := ih
    exact ⟨⟨_, hashmapRemove_holds hmap key⟩, counted_remove hmap hcount key⟩

/-- As long as no put stores a key that is there already, `hashmap_size` is the number of
keys. -/
theorem size_counts {map : Hashmap κ β}
    (h : TableRun str (fun map key => hashmapGet str map key = none) map) :
    hashmapSize map = (hits str map).ncard := by
  obtain ⟨⟨f, hmap⟩, hcount⟩ := h.holds
  rw [ncard_hits hmap]
  exact hcount

/-- `"o"`, `"t"` behind it, `"a"`, a removal of `"o"`, and `"o"` again. -/
theorem size_counts_colliding :
    let map₁ : Hashmap CStr ℕ := ((hashmapNew.store 90 [111] 1).store 91 [116] 2).store 40 [97] 3
    let map₂ := (hashmapRemove id map₁ [111]).2
    let map₃ := map₂.store 90 [111] 4
    hashmapSize map₂ = (hits id map₂).ncard ∧ hashmapSize map₃ = (hits id map₃).ncard := by
  intro map₁ map₂ map₃
  have h₁ : TableRun id (fun map key => hashmapGet id map key = none) map₁ :=
    .put (fun _ => true) 1 [97] 3 (.put (fun _ => true) 1 [116] 2 (.put (fun _ => true) 1 [111] 1 .new
        (by decide +kernel) (hashmapPut_store 90 (by decide +kernel)))
      (by decide +kernel) (hashmapPut_store 91 (by decide +kernel)))
    (by decide +kernel) (hashmapPut_store 40 (by decide +kernel))
  have h₃ : TableRun id (fun map key => hashmapGet id map key = none) map₃ :=
    .put (fun _ => true) 1 [111] 4 (.remove [111] h₁) (by decide +kernel)
      (hashmapPut_store 90 (by decide +kernel))
  exact ⟨size_counts (.remove [111] h₁), size_counts h₃⟩

/-- Storing `"o"` twice counts it twice. -/
theorem size_not_counts :
    ¬ ∀ map : Hashmap CStr ℕ, TableRun id (fun _ _ => True) map →
      hashmapSize map = (hits id map).ncard := by
  intro hall
  let map₁ : Hashmap CStr ℕ := hashmapNew.store 90 [111] 1
  let map₂ := map₁.store 90 [111] 2
  have h₁ : hashmapPut id (fun _ => true) 1 hashmapNew [111] 1 = some (mapOk, map₁) :=
    hashmapPut_store 90 (by decide +kernel)
  have h₂ : hashmapPut id (fun _ => true) 1 map₁ [111] 2 = some (mapOk, map₂) :=
    hashmapPut_store 90 (by decide +kernel)
  obtain ⟨⟨f, hmap⟩, -⟩ := PutRun.holds (.put _ 1 [111] 2 (.put _ 1 [111] 1 .new h₁) h₂)
  have hsize := hall map₂ (.put _ 1 [111] 2 (.put _ 1 [111] 1 .new trivial h₁) trivial h₂)
  rw [ncard_hits hmap] at hsize
  exact absurd hsize (by decide +kernel)

/-! ## Runs out of fuel -/

private lemma reinsert_mono {put put' : Hashmap κ β → κ → β → Option (ℤ × Hashmap κ β)}
    (hput : ∀ map key value r, put map key value = some r → put' map key value = some r)
    {pairs : List (κ × β)} {map : Hashmap κ β} {r : ℤ × Hashmap κ β}
    (h : reinsert put pairs map = some r) : reinsert put' pairs map = some r := by
  induction pairs generalizing map with
  | nil => exact h
  | cons e rest ih =>
    rw [reinsert] at h ⊢
    obtain ⟨⟨ret, map₁⟩, h₁, h⟩ := Option.bind_eq_some_iff.mp h
    rw [hput _ _ _ _ h₁]
    by_cases hret : ret ≠ mapOk
    · simp only [if_pos hret] at h
      exact (if_pos hret).trans h
    · simp only [if_neg hret] at h
      exact (if_neg hret).trans (ih h)

private lemma put_resize_mono (str : κ → CStr) (alloc : ℕ → Bool) (fuel : ℕ) :
    (∀ (map : Hashmap κ β) key value r, hashmapPut str alloc fuel map key value = some r →
      hashmapPut str alloc (fuel + 1) map key value = some r) ∧
    ∀ (map : Hashmap κ β) r, hashmapResize str alloc fuel map = some r →
      hashmapResize str alloc (fuel + 1) map = some r := by
  induction fuel with
  | zero => exact ⟨fun map key value r h => by simp [hashmapPut] at h,
      fun map r h => by simp [hashmapResize] at h⟩
  | succ fuel ih =>
    constructor
    · intro map key value r h
      rw [hashmapPut] at h ⊢
      obtain ⟨index, hindex, h⟩ := Option.bind_eq_some_iff.mp h
      rw [hindex]
      by_cases hfull : index = mapFull
      · rw [if_pos hfull] at h
        obtain ⟨⟨ret, map₁⟩, h₁, h⟩ := Option.bind_eq_some_iff.mp h
        refine (if_pos hfull).trans ?_
        rw [ih.2 _ _ h₁]
        by_cases hmem : ret = mapNomem
        · simp only [if_pos hmem] at h
          exact (if_pos hmem).trans h
        · simp only [if_neg hmem] at h
          exact (if_neg hmem).trans (ih.1 _ _ _ _ h)
      · rw [if_neg hfull] at h
        exact (if_neg hfull).trans h
    · intro map r h
      rw [hashmapResize] at h ⊢
      by_cases halloc : alloc (map.capacity * 2 % 2 ^ 64) = true
      · rw [if_pos halloc] at h ⊢
        exact reinsert_mono ih.1 h
      · rw [if_neg halloc] at h ⊢
        exact h

/-- A put that has finished within some resizes finishes within more. -/
lemma hashmapPut_mono {fuel fuel' : ℕ} (hle : fuel ≤ fuel') {map : Hashmap κ β} {key : κ}
    {value : β} {r : ℤ × Hashmap κ β} (h : hashmapPut str alloc fuel map key value = some r) :
    hashmapPut str alloc fuel' map key value = some r := by
  induction hle with
  | refl => exact h
  | step _ ih => exact (put_resize_mono str alloc _).1 _ _ _ _ ih

lemma hashmapResize_mono {fuel fuel' : ℕ} (hle : fuel ≤ fuel') {map : Hashmap κ β}
    {r : ℤ × Hashmap κ β} (h : hashmapResize str alloc fuel map = some r) :
    hashmapResize str alloc fuel' map = some r := by
  induction hle with
  | refl => exact h
  | step _ ih => exact (put_resize_mono str alloc _).2 _ _ ih

/-! ## Strings with one hash -/

/-- The table is overloaded or the window of a string is full of other strings:
`hashmap_index` finds no slot. -/
lemma hashmapIndex_full {map : Hashmap κ β} {s : CStr} (hcap : map.capacity ≠ 0)
    (hfull : map.overloaded = false → ∀ i ∈ probeSlots map.capacity s,
      map.data i ≠ none ∧ ¬ holdsKey str map s i) :
    hashmapIndex str map s = some mapFull := by
  cases hover : map.overloaded with
  | true => simp [hashmapIndex, hover]
  | false =>
    have hnone : (probeSlots map.capacity s).find? (fun i =>
        (map.data i).isNone || holdsKey str map s i) = none := by
      rw [List.find?_eq_none]
      intro i hi
      obtain ⟨hused, hother⟩ := hfull hover i hi
      simp [hused, hother]
    simp [hashmapIndex, hover, hcap, hnone]

/-- Eight strings that are stored and one that is not, all with one hash. -/
structure Crowded (f : CStr → Option β) (s : CStr) (others : Finset CStr) : Prop where
  eight : others.card = maxProbeCount
  stored : ∀ t ∈ others, f t ≠ none
  hash : ∀ t ∈ others, stringHash t = stringHash s
  new : f s = none

/-- The eight strings fill the window. -/
lemma Crowded.window {map : Hashmap κ β} {f : CStr → Option β} {s : CStr} {others : Finset CStr}
    (hcrowd : Crowded f s others) (h : MapHolds str map f) :
    ∀ i ∈ probeSlots map.capacity s, map.data i ≠ none ∧ ¬ holdsKey str map s i := by
  have hother : ∀ i, ¬ holdsKey str map s i := by
    intro i hi
    obtain ⟨k, v, hk, hs⟩ := holdsKey_iff.mp hi
    have hstored := (h.stored s v).mpr ⟨i, k, hk, hs⟩
    rw [hcrowd.new] at hstored
    cases hstored
  -- each of the strings has a slot of its own in the window
  have hslot : ∀ t ∈ others, ∃ i ∈ probeSlots map.capacity s, holdsKey str map t i := by
    intro t ht
    obtain ⟨v, hv⟩ := Option.ne_none_iff_exists'.mp (hcrowd.stored t ht)
    obtain ⟨i, k, hi, hk⟩ := (h.stored t v).mp hv
    have hold := holdsKey_iff.mpr ⟨k, v, hi, hk⟩
    have hmem := (h.home i t hold).1
    rw [probeSlots, hcrowd.hash t ht] at hmem
    exact ⟨i, hmem, hold⟩
  have hsub : others ⊆ (probeSlots map.capacity s).toFinset.image (map.keyAt str) := by
    intro t ht
    obtain ⟨i, hi, hold⟩ := hslot t ht
    exact Finset.mem_image.mpr ⟨i, List.mem_toFinset.mpr hi, keyAt_eq hold⟩
  have hlen : (probeSlots map.capacity s).toFinset.card ≤ maxProbeCount := by
    refine (List.toFinset_card_le _).trans ?_
    rw [probeSlots, List.length_iterate]
  have hcard : others.card = ((probeSlots map.capacity s).toFinset.image (map.keyAt str)).card := by
    have h₁ := Finset.card_le_card hsub
    have h₂ : ((probeSlots map.capacity s).toFinset.image (map.keyAt str)).card ≤ _ :=
      Finset.card_image_le
    have h₃ := hcrowd.eight
    omega
  have himage := Finset.eq_of_subset_of_card_le hsub hcard.ge
  intro i hi
  refine ⟨?_, hother i⟩
  intro hfree
  have hempty : map.keyAt str i ∈ others := by
    rw [himage]
    exact Finset.mem_image.mpr ⟨i, List.mem_toFinset.mpr hi, rfl⟩
  -- another slot would have to hold the same string
  obtain ⟨j, hj, hold⟩ := hslot _ hempty
  have hji : map.keyAt str j = map.keyAt str i := keyAt_eq hold
  have hinj : Set.InjOn (map.keyAt str) (probeSlots map.capacity s).toFinset := by
    refine Finset.card_image_iff.mp ?_
    have h₃ := hcrowd.eight
    have h₂ : ((probeSlots map.capacity s).toFinset.image (map.keyAt str)).card ≤ _ :=
      Finset.card_image_le
    omega
  rw [hinj (by simpa using hj) (by simpa using hi) hji] at hold
  exact not_holdsKey_of_free hfree _ hold

/-- Nine strings with one hash: the put of the ninth never returns. -/
theorem crowded_never_finishes (halloc : ∀ n, alloc n) {map : Hashmap κ β} {f : CStr → Option β}
    {key : κ} {others : Finset CStr} (h : MapHolds str map f)
    (hcrowd : Crowded f (str key) others) (value : β) (fuel : ℕ) :
    hashmapPut str alloc fuel map key value = none := by
  induction fuel generalizing map with
  | zero => rfl
  | succ fuel ih =>
    have hcap : map.capacity ≠ 0 := by
      intro hzero
      obtain ⟨t, ht⟩ : others.Nonempty := by
        rw [← Finset.card_pos, hcrowd.eight]
        decide
      obtain ⟨v, hv⟩ := Option.ne_none_iff_exists'.mp (hcrowd.stored t ht)
      obtain ⟨i, k, hi, hk⟩ := (h.stored t v).mp hv
      have hlt := (h.home i t (holdsKey_iff.mpr ⟨k, v, hi, hk⟩)).2
      omega
    have hindex := hashmapIndex_full hcap fun _ => hcrowd.window h
    simp only [hashmapPut, hindex, Option.bind_eq_bind, Option.bind_some, if_true]
    cases hres : hashmapResize str alloc fuel map with
    | none => rfl
    | some r =>
      obtain ⟨ret, map'⟩ := r
      obtain ⟨rfl, hmap', -⟩ := hashmapResize_total halloc h hres
      exact ih hmap'

/-! ## When a put finishes -/

/-- The largest capacity whose slots all have an index that is not negative as an `int`. -/
def largestCapacity : ℕ := 2 ^ 31

/-- The largest `size` that does not overload a table of `largestCapacity` slots. -/
def largestLoad : ℕ := 11744051 * 2 ^ 7

/-- Rounding to `float` does not pass `largestLoad`, which is a `float`. -/
lemma toFloat_le_largestLoad {n : ℕ} (hn : n ≤ largestLoad) : toFloat n ≤ largestLoad := by
  have hlog : Nat.log2 n - 23 ≤ 7 := by
    rcases Nat.eq_zero_or_pos n with rfl | hpos
    · decide
    · have hlt : Nat.log2 n < 31 := by
        refine (Nat.log2_lt hpos.ne').mpr (hn.trans_lt ?_)
        decide
      omega
  obtain ⟨e, he⟩ : ∃ e, Nat.log2 n - 23 = e := ⟨_, rfl⟩
  rw [he] at hlog
  have hload : largestLoad = 11744051 * 2 ^ (7 - e) * 2 ^ e := by
    rw [Nat.mul_assoc, ← Nat.pow_add, Nat.sub_add_cancel hlog]
    rfl
  have hpow : 0 < 2 ^ e := Nat.two_pow_pos e
  have hdiv := Nat.div_add_mod n (2 ^ e)
  have hq : n / 2 ^ e ≤ 11744051 * 2 ^ (7 - e) := by
    refine Nat.div_le_of_le_mul ?_
    rw [Nat.mul_comm (2 ^ e), ← hload]
    exact hn
  unfold toFloat
  simp only [he]
  by_cases hround : 2 * (n % 2 ^ e) > 2 ^ e ∨
      2 * (n % 2 ^ e) = 2 ^ e ∧ n / 2 ^ e % 2 = 1
  · rw [if_pos hround]
    -- something was cut off, so the quotient is below the bound
    have hne : n / 2 ^ e ≠ 11744051 * 2 ^ (7 - e) := by
      intro heq
      rw [heq, Nat.mul_comm, ← hload] at hdiv
      omega
    rw [hload]
    exact Nat.mul_le_mul_right _ (by omega)
  · rw [if_neg hround, hload]
    exact Nat.mul_le_mul_right _ hq

lemma not_overloaded {map : Hashmap κ β} (hcap : map.capacity = largestCapacity)
    (hsize : map.size ≤ largestLoad) : map.overloaded = false := by
  have hfloat : toFloat (toFloat largestCapacity * 11744051) = largestLoad * 2 ^ 24 := by
    decide +kernel
  have hle := toFloat_le_largestLoad hsize
  rw [Hashmap.overloaded, hcap, hfloat, decide_eq_false_iff_not]
  omega

/-- The probe windows of two strings meet in a table of `largestCapacity` slots. -/
def WindowsMeet (s t : CStr) : Prop :=
  ∃ i ∈ probeSlots largestCapacity s, i ∈ probeSlots largestCapacity t

instance (s : CStr) : DecidablePred (WindowsMeet s) := fun t =>
  inferInstanceAs (Decidable (∃ i ∈ probeSlots largestCapacity s, i ∈ probeSlots largestCapacity t))

/-- No window meets more windows, itself included, than it has slots. -/
def Spread (keys : Finset CStr) : Prop :=
  ∀ s ∈ keys, (keys.filter (WindowsMeet s)).card ≤ maxProbeCount

/-- The slots of a window are different. -/
lemma nodup_probeSlots (s : CStr) : (probeSlots largestCapacity s).Nodup := by
  have hslots : probeSlots largestCapacity s = (List.range maxProbeCount).map fun n =>
      ((stringHash s).toNat % largestCapacity + n) % largestCapacity := by
    obtain ⟨home, hhome⟩ : ∃ home, (stringHash s).toNat % largestCapacity = home := ⟨_, rfl⟩
    have hlt : home < largestCapacity := hhome ▸ Nat.mod_lt _ (by decide)
    rw [probeSlots, hhome]
    unfold largestCapacity at *
    simp only [maxProbeCount, List.iterate, nextIndex, List.range, List.range.loop, List.map_cons,
      List.map_nil, List.cons.injEq, and_true]
    omega
  rw [hslots]
  refine List.Nodup.map_on ?_ List.nodup_range
  intro a ha b hb hab
  rw [List.mem_range] at ha hb
  unfold maxProbeCount at ha hb
  unfold largestCapacity at hab
  omega

/-- In a table of `largestCapacity` slots some slot of the window is free or holds the string. -/
lemma window_open {map : Hashmap κ β} {f : CStr → Option β} {keys : Finset CStr} {s : CStr}
    (hspread : Spread keys) (h : MapHolds str map f) (hkeys : ∀ t, f t ≠ none → t ∈ keys)
    (hs : s ∈ keys) (hcap : map.capacity = largestCapacity) :
    ∃ i ∈ probeSlots map.capacity s, map.data i = none ∨ holdsKey str map s i := by
  by_contra hnot
  push Not at hnot
  rw [hcap] at hnot
  -- the strings in the window, and the string itself, are too many
  have hmeet : insert s ((probeSlots largestCapacity s).toFinset.image (map.keyAt str))
      ⊆ keys.filter (WindowsMeet s) := by
    intro t ht
    rw [Finset.mem_filter]
    rcases Finset.mem_insert.mp ht with rfl | ht
    · exact ⟨hs, _, List.mem_cons_self, List.mem_cons_self⟩
    · obtain ⟨i, hi, rfl⟩ := Finset.mem_image.mp ht
      rw [List.mem_toFinset] at hi
      have hold : holdsKey str map (map.keyAt str i) i := holdsKey_keyAt (hnot i hi).1
      obtain ⟨k, v, hk, hkey⟩ := holdsKey_iff.mp hold
      refine ⟨hkeys _ ?_, i, hi, hcap ▸ (h.home i _ hold).1⟩
      rw [(h.stored _ v).mpr ⟨i, k, hk, hkey⟩]
      simp
  have hnew : s ∉ (probeSlots largestCapacity s).toFinset.image (map.keyAt str) := by
    intro hmem
    obtain ⟨i, hi, hkey⟩ := Finset.mem_image.mp hmem
    rw [List.mem_toFinset] at hi
    have hold : holdsKey str map (map.keyAt str i) i := holdsKey_keyAt (hnot i hi).1
    rw [hkey] at hold
    exact (hnot i hi).2 hold
  have hinj : Set.InjOn (map.keyAt str) (probeSlots largestCapacity s).toFinset := by
    intro i hi j hj hij
    simp only [List.coe_toFinset, Set.mem_ofPred_eq] at hi hj
    have hold : holdsKey str map (map.keyAt str i) i := holdsKey_keyAt (hnot i hi).1
    rw [hij] at hold
    exact h.unique i j _ hold (holdsKey_keyAt (hnot j hj).1)
  have hcard := (Finset.card_le_card hmeet).trans (hspread s hs)
  rw [Finset.card_insert_of_notMem hnew, Finset.card_image_of_injOn hinj,
    List.toFinset_card_of_nodup (nodup_probeSlots s), probeSlots, List.length_iterate] at hcard
  omega

/-- A counted table has no more pairs than there are keys. -/
lemma Counted.le_card {map : Hashmap κ β} {f : CStr → Option β} {keys : Finset CStr}
    (hcount : Counted map) (h : MapHolds str map f) (hkeys : ∀ t, f t ≠ none → t ∈ keys) :
    map.size ≤ keys.card := by
  rw [hcount, ← ncard_hits h, ← Set.ncard_coe_finset]
  refine Set.ncard_le_ncard ?_ (Finset.finite_toSet keys)
  intro t ht
  rw [hits, Set.mem_ofPred_eq, hashmapGet_eq h] at ht
  exact hkeys t (Option.isSome_iff_ne_none.mp ht)

/-- `hashmap_index` finds a slot without a resize. -/
def HasRoom (str : κ → CStr) (map : Hashmap κ β) (s : CStr) : Prop :=
  map.overloaded = false ∧
    ∃ i ∈ probeSlots map.capacity s, map.data i = none ∨ holdsKey str map s i

lemma hashmapPut_hasRoom {map : Hashmap κ β} {key : κ} (hpos : map.capacity ≠ 0)
    (hcap : map.capacity ≤ largestCapacity) (hroom : HasRoom str map (str key)) (value : β) :
    ∃ k, hashmapPut str alloc 1 map key value = some (mapOk, map.store k key value) := by
  obtain ⟨hover, i, hi, hslot⟩ := hroom
  have hsome : ((probeSlots map.capacity (str key)).find? fun i =>
      (map.data i).isNone || holdsKey str map (str key) i).isSome := by
    refine List.find?_isSome.mpr ⟨i, hi, ?_⟩
    simpa using hslot
  obtain ⟨k, hk⟩ := Option.isSome_iff_exists.mp hsome
  have hlt : k < 2 ^ 31 :=
    (mem_probeSlots_lt (Nat.pos_of_ne_zero hpos) (List.mem_of_find?_eq_some hk)).1.trans_le hcap
  have hindex : hashmapIndex str map (str key) = some (k : ℤ) := by
    simpa [hashmapIndex, hover, hpos, hk, toInt32] using hlt
  exact ⟨k, hashmapPut_store k hindex⟩

/-- Every put of one of the keys into a table of `2 ^ j` slots that holds some of them
finishes, with at most `largestCapacity` slots. -/
private def Finishes (str : κ → CStr) (alloc : ℕ → Bool) (β : Type) (keys : Finset CStr) (j : ℕ) :
    Prop :=
  ∀ (map : Hashmap κ β) f key value, map.capacity = 2 ^ j → MapHolds str map f → Clean str map →
    (∀ t, f t ≠ none → t ∈ keys) → str key ∈ keys → map.size ≤ largestLoad →
    ∃ fuel map' j', hashmapPut str alloc fuel map key value = some (mapOk, map') ∧
      map'.capacity = 2 ^ j' ∧ j ≤ j' ∧ j' ≤ 31

/-- So does the copy loop of a resize. -/
private lemma reinsert_finishes (halloc : ∀ n, alloc n) {keys : Finset CStr}
    (hcard : keys.card ≤ largestLoad) {j₀ : ℕ}
    (hput : ∀ j, j₀ ≤ j → j ≤ 31 → Finishes str alloc β keys j) {pairs : List (κ × β)} :
    ∀ {map : Hashmap κ β} {g j}, (pairs.map fun e => str e.1).Nodup →
      (∀ e ∈ pairs, g (str e.1) = none) → (∀ e ∈ pairs, str e.1 ∈ keys) →
      (∀ t, g t ≠ none → t ∈ keys) → MapHolds str map g → Clean str map → Counted map →
      map.capacity = 2 ^ j → j₀ ≤ j → j ≤ 31 →
      ∃ fuel map' j', reinsert (hashmapPut str alloc fuel) pairs map = some (mapOk, map') ∧
        map'.capacity = 2 ^ j' ∧ j ≤ j' ∧ j' ≤ 31 := by
  induction pairs with
  | nil =>
    intro map g j _ _ _ _ _ _ _ hcap _ hj
    exact ⟨0, map, j, rfl, hcap, le_refl j, hj⟩
  | cons e rest ih =>
    obtain ⟨key, value⟩ := e
    intro map g j hnodup hnew hpairs hkeys h hclean hcount hcap hj₀ hj
    rw [List.map_cons, List.nodup_cons] at hnodup
    have hkey : str key ∈ keys := hpairs (key, value) (by simp)
    obtain ⟨fuel₁, map₁, j₁, h₁, hcap₁, hj₁, hj₁'⟩ := hput j hj₀ hj map g key value hcap h hclean
      hkeys hkey ((hcount.le_card h hkeys).trans hcard)
    obtain ⟨-, hmap₁, hclean₁, hcount₁⟩ := hashmapPut_holds halloc h (.inr (hclean _)) h₁
    have hnew₁ : ∀ e ∈ rest, Function.update g (str key) (some value) (str e.1) = none := by
      intro e he
      rw [Function.update_of_ne ?_]
      · exact hnew e (by simp [he])
      · intro heq
        exact hnodup.1 (List.mem_map.mpr ⟨e, he, heq⟩)
    have hkeys₁ : ∀ t, Function.update g (str key) (some value) t ≠ none → t ∈ keys := by
      intro t ht
      by_cases htk : t = str key
      · rw [htk]
        exact hkey
      · rw [Function.update_of_ne htk] at ht
        exact hkeys t ht
    obtain ⟨fuel₂, map₂, j₂, h₂, hcap₂, hj₂, hj₂'⟩ := ih hnodup.2 hnew₁
      (fun e he => hpairs e (by simp [he])) hkeys₁ hmap₁ (hclean₁ hclean)
      (hcount₁ (hnew (key, value) (by simp)) hcount) hcap₁ (hj₀.trans hj₁) hj₁'
    -- a put that has returned returns the same under more fuel
    refine ⟨max fuel₁ fuel₂, map₂, j₂, ?_, hcap₂, hj₁.trans hj₂, hj₂'⟩
    rw [reinsert, hashmapPut_mono (le_max_left _ _) h₁]
    exact reinsert_mono (fun _ _ _ _ => hashmapPut_mono (le_max_right _ _)) h₂

/-- Induction on the number of doublings that are left. -/
private lemma finishes (halloc : ∀ n, alloc n) {keys : Finset CStr} (hspread : Spread keys)
    (hcard : keys.card ≤ largestLoad) (d : ℕ) :
    ∀ j, j + d = 31 → Finishes str alloc β keys j := by
  induction d using Nat.strong_induction_on with
  | _ d ih =>
    intro j hjd map f key value hcap h hclean hkeys hkey hsize
    have hpos : map.capacity ≠ 0 := by
      rw [hcap]
      exact (Nat.two_pow_pos j).ne'
    by_cases hroom : HasRoom str map (str key)
    · have hle : map.capacity ≤ largestCapacity := by
        rw [hcap]
        exact Nat.pow_le_pow_right (by decide) (by omega)
      obtain ⟨k, hput⟩ := hashmapPut_hasRoom hpos hle hroom value
      exact ⟨1, _, j, hput, hcap, le_refl j, by omega⟩
    · -- the table is doubled, and a larger table is what the induction is about
      have hd : 0 < d := by
        by_contra hzero
        obtain rfl : j = 31 := by omega
        exact hroom ⟨not_overloaded hcap hsize, window_open hspread h hkeys hkey hcap⟩
      have hindex : hashmapIndex str map (str key) = some mapFull := by
        refine hashmapIndex_full hpos fun hover i hi => ?_
        exact not_or.mp fun hslot => hroom ⟨hover, i, hi, hslot⟩
      have hlarger : ∀ j', j + 1 ≤ j' → j' ≤ 31 → Finishes str alloc β keys j' := by
        intro j' hlt hle
        exact ih (31 - j') (by omega) j' (by omega)
      have hdouble : map.capacity * 2 % 2 ^ 64 = 2 ^ (j + 1) := by
        rw [hcap, ← Nat.pow_succ]
        exact Nat.mod_eq_of_lt (Nat.pow_lt_pow_right (by decide) (by omega))
      have hentries : ∀ e ∈ map.entries, str e.1 ∈ keys := by
        intro e he
        obtain ⟨i, hi⟩ := (mem_entries h).mp he
        refine hkeys _ ?_
        rw [(h.stored _ e.2).mpr ⟨i, e.1, hi, rfl⟩]
        exact Option.some_ne_none _
      obtain ⟨fuel₁, map₁, j₁, h₁, hcap₁, hj₁, hj₁'⟩ := reinsert_finishes halloc hcard hlarger
        (nodup_entries h) (fun _ _ => rfl) hentries (fun t ht => absurd rfl ht)
        (mapHolds_empty (2 ^ (j + 1)) 0) (clean_empty _ _) (counted_empty _) rfl (le_refl _)
        (by omega)
      have hres : hashmapResize str alloc (fuel₁ + 1) map = some (mapOk, map₁) := by
        rw [hashmapResize, if_pos (halloc _), hdouble]
        exact h₁
      obtain ⟨hmap₁, hclean₁, hcount₁⟩ := hashmapResize_holds h hres
      obtain ⟨fuel₂, map₂, j₂, h₂, hcap₂, hj₂, hj₂'⟩ := hlarger j₁ hj₁ hj₁' map₁ f key value hcap₁
        hmap₁ hclean₁ hkeys hkey ((hcount₁.le_card hmap₁ hkeys).trans hcard)
      refine ⟨max (fuel₁ + 1) fuel₂ + 1, map₂, j₂, ?_, hcap₂, by omega, hj₂'⟩
      have hok : mapOk ≠ mapNomem := by decide
      simp only [hashmapPut, hindex, Option.bind_eq_bind, Option.bind_some, if_true,
        hashmapResize_mono (le_max_left _ fuel₂) hres, hok, if_false]
      exact hashmapPut_mono (le_max_right _ _) h₂

/-- The strings of the used slots. -/
def Hashmap.strings (str : κ → CStr) (map : Hashmap κ β) : Finset CStr :=
  (map.entries.map fun e => str e.1).toFinset

lemma mem_strings {map : Hashmap κ β} {f : CStr → Option β} (h : MapHolds str map f) (s : CStr) :
    s ∈ map.strings str ↔ f s ≠ none := by
  simp only [Hashmap.strings, List.mem_toFinset, List.mem_map]
  constructor
  · rintro ⟨⟨k, v⟩, he, rfl⟩
    obtain ⟨i, hi⟩ := (mem_entries h).mp he
    rw [(h.stored _ v).mpr ⟨i, k, hi, rfl⟩]
    exact Option.some_ne_none v
  · intro hs
    obtain ⟨v, hv⟩ := Option.ne_none_iff_exists'.mp hs
    obtain ⟨i, k, hi, hk⟩ := (h.stored s v).mp hv
    exact ⟨(k, v), (mem_entries h).mpr ⟨i, hi⟩, hk⟩

lemma card_strings {map : Hashmap κ β} {f : CStr → Option β} (h : MapHolds str map f) :
    (map.strings str).card = map.occupied := by
  rw [← ncard_hits h, ← Set.ncard_coe_finset]
  congr 1
  ext s
  rw [Finset.mem_coe, mem_strings h, hits, Set.mem_ofPred_eq, hashmapGet_eq h,
    Option.isSome_iff_ne_none]

/-- The capacity stays a power of two; an empty table of no slots, from the last doubling, is
never left by a put. -/
private lemma capacity_invariant (str : κ → CStr) :
    PutInvariant (β := β) str
      (fun map => (∃ j, map.capacity = 2 ^ j) ∨ map.capacity = 0 ∧ map.size = 0)
      (fun map => ∃ j, map.capacity = 2 ^ j) (fun _ _ => True) where
  weaken := .inl
  store := by
    intro map key value index hmap _ hindex hneg
    obtain ⟨i, before, after, hi, hlt, -⟩ := hashmapIndex_spec hindex hneg
    rcases hmap with hpow | ⟨hzero, -⟩
    · exact hpow
    · omega
  full := by
    intro map key hmap hindex
    refine hmap.resolve_right ?_
    rintro ⟨hcap, hsize⟩
    have hover : map.overloaded = false := by
      rw [Hashmap.overloaded, hcap, hsize]
      decide
    simp [hashmapIndex, hover, hcap] at hindex
  fresh := by
    rintro map ⟨j, hj⟩
    by_cases hlt : j + 1 < 64
    · refine .inl ⟨j + 1, ?_⟩
      rw [hj, ← Nat.pow_succ]
      exact Nat.mod_eq_of_lt (Nat.pow_lt_pow_right (by decide) hlt)
    · refine .inr ⟨?_, rfl⟩
      rw [hj, ← Nat.pow_succ]
      exact Nat.mod_eq_zero_of_dvd (Nat.pow_dvd_pow 2 (by omega))
  entries _ _ _ := trivial

/-- Every write counts, so `size` is at least the number of used slots. -/
private lemma size_invariant (str : κ → CStr) :
    PutInvariant (β := β) str (fun map => map.occupied ≤ map.size)
      (fun map => map.occupied ≤ map.size) (fun _ _ => True) where
  weaken hmap := hmap
  store := by
    intro map key value index hmap _ _ _
    exact (occupied_store_le map _ key value).trans (Nat.succ_le_succ hmap)
  full hmap _ := hmap
  fresh := by
    intro map _
    rw [← counted_empty]
  entries _ _ _ := trivial

lemma PutRun.shape {map : Hashmap κ β} (h : PutRun str map) :
    (∃ j, map.capacity = 2 ^ j) ∧ map.occupied ≤ map.size := by
  induction h with
  | new => exact ⟨⟨7, rfl⟩, (counted_empty _).ge⟩
  | put alloc fuel key value _ hput ih =>
    exact ⟨(capacity_invariant str).put hput (.inl ih.1) trivial,
      (size_invariant str).put hput ih.2 trivial⟩

lemma Spread.subset {keys keys' : Finset CStr} (h : Spread keys) (hsub : keys' ⊆ keys) :
    Spread keys' := by
  intro s hs
  exact (Finset.card_le_card (Finset.filter_subset_filter _ hsub)).trans (h s (hsub hs))

lemma PutRun.put_returns {map : Hashmap κ β} (halloc : ∀ n, alloc n) (hrun : PutRun str map)
    (key : κ) (value : β) (hcap : map.capacity ≤ largestCapacity)
    (hcond : HasRoom str map (str key) ∨
      map.size < largestLoad ∧ Spread (insert (str key) (map.strings str))) :
    ∃ fuel map' j, hashmapPut str alloc fuel map key value = some (mapOk, map') ∧
      map'.capacity = 2 ^ j ∧ j ≤ 31 := by
  obtain ⟨⟨f, hmap⟩, hclean⟩ := hrun.holds
  obtain ⟨⟨j, hj⟩, hsize⟩ := hrun.shape
  have hj31 : j ≤ 31 := by
    rw [hj] at hcap
    exact (Nat.pow_le_pow_iff_right (by decide)).mp hcap
  rcases hcond with hroom | ⟨hload, hspread⟩
  · have hpos : map.capacity ≠ 0 := by
      rw [hj]
      exact (Nat.two_pow_pos j).ne'
    obtain ⟨k, hput⟩ := hashmapPut_hasRoom hpos hcap hroom value
    exact ⟨1, _, j, hput, hj, hj31⟩
  · have hkeys : ∀ t, f t ≠ none → t ∈ insert (str key) (map.strings str) := by
      intro t ht
      exact Finset.mem_insert_of_mem ((mem_strings hmap t).mpr ht)
    have hcard : (insert (str key) (map.strings str)).card ≤ largestLoad := by
      have hinsert := Finset.card_insert_le (str key) (map.strings str)
      have hstrings := card_strings hmap
      omega
    obtain ⟨fuel, map', j', hput, hj', -, hle⟩ := finishes halloc hspread hcard (31 - j) j
      (by omega) map f key value hj hmap hclean hkeys (Finset.mem_insert_self _ _) hload.le
    exact ⟨fuel, map', j', hput, hj', hle⟩

/-- A put finishes with `_MAP_OK` when the table has at most `largestCapacity` slots and room for
the key, or has to grow, `size` does not overload the largest table, and no nine of the keys come
close to each other in it. It does not when the key and eight stored ones have one hash. -/
theorem put_finishes {map : Hashmap κ β} (halloc : ∀ n, alloc n) (hrun : PutRun str map) (key : κ)
    (value : β) :
    (map.capacity ≤ largestCapacity →
      HasRoom str map (str key) ∨
        map.size < largestLoad ∧ Spread (insert (str key) (map.strings str)) →
      ∃ fuel map', hashmapPut str alloc fuel map key value = some (mapOk, map')) ∧
    ((∃ others, Crowded (hashmapGet str map) (str key) others) →
      ∀ fuel, hashmapPut str alloc fuel map key value = none) := by
  constructor
  · intro hcap hcond
    obtain ⟨fuel, map', -, hput, -⟩ := hrun.put_returns halloc key value hcap hcond
    exact ⟨fuel, map', hput⟩
  · rintro ⟨others, hcrowd⟩ fuel
    obtain ⟨⟨f, hmap⟩, -⟩ := hrun.holds
    rw [funext (hashmapGet_eq hmap)] at hcrowd
    exact crowded_never_finishes halloc hmap hcrowd value fuel

theorem put_finishes_one :
    ∃ fuel map', hashmapPut id (fun _ => true) fuel ((hashmapNew : Hashmap CStr ℕ).store 90 [111] 1)
      [116] 2 = some (mapOk, map') := by
  have hput : hashmapPut id (fun _ => true) 1 (hashmapNew : Hashmap CStr ℕ) [111] 1
      = some (mapOk, (hashmapNew : Hashmap CStr ℕ).store 90 [111] 1) :=
    hashmapPut_store 90 (by decide +kernel)
  have hstrings : ((hashmapNew : Hashmap CStr ℕ).store 90 [111] 1).strings id = {[111]} := by
    decide +kernel
  have halloc : ∀ n : ℕ, (fun _ : ℕ => true) n := fun _ => rfl
  refine (put_finishes halloc (.put _ 1 [111] 1 .new hput) [116] 2).1 (by decide)
    (.inr ⟨by decide, ?_⟩)
  rw [hstrings]
  unfold Spread
  decide +kernel

/-- Nine strings of the letters `h` to `o` with one hash. -/
def colliding : List CStr :=
  [ [104, 104, 104, 104, 104, 104, 104, 104, 104, 104, 104, 104],
    [104, 107, 109, 111, 109, 109, 109, 111, 105, 108, 107, 105],
    [104, 109, 111, 109, 108, 109, 109, 105, 104, 105, 108, 108],
    [104, 110, 106, 106, 105, 104, 104, 110, 105, 109, 111, 109],
    [107, 104, 104, 104, 105, 104, 106, 104, 108, 106, 109, 108],
    [107, 107, 109, 111, 108, 109, 111, 111, 109, 110, 110, 109],
    [107, 109, 111, 109, 109, 109, 111, 105, 108, 107, 105, 104],
    [107, 110, 106, 106, 104, 104, 106, 110, 109, 111, 106, 105],
    [109, 105, 111, 110, 108, 109, 105, 110, 104, 105, 107, 109] ]

/-- Puts of `keys` one after the other. -/
def putAll (fuel : ℕ) : List CStr → Hashmap CStr ℕ → Option (Hashmap CStr ℕ)
  | [], map => some map
  | key :: keys, map => do
    let (_, map) ← hashmapPut id (fun _ => true) fuel map key 0
    putAll fuel keys map

lemma PutRun.putAll {fuel : ℕ} {keys : List CStr} {map map' : Hashmap CStr ℕ}
    (hrun : PutRun id map) (h : putAll fuel keys map = some map') : PutRun id map' := by
  induction keys generalizing map with
  | nil =>
    rw [PhantomShell.putAll] at h
    cases h
    exact hrun
  | cons key keys ih =>
    rw [PhantomShell.putAll, Option.bind_eq_bind, Option.bind_eq_some_iff] at h
    obtain ⟨⟨ret, map₁⟩, hput, h⟩ := h
    exact ih (.put _ fuel key 0 hrun hput) h

/-- Eight of the strings fill one window of every table; the put of the ninth doubles the table
for ever. -/
theorem put_not_finishes :
    ¬ ∀ map : Hashmap CStr ℕ, PutRun id map → ∀ key value,
      ∃ fuel map', hashmapPut id (fun _ => true) fuel map key value = some (mapOk, map') := by
  intro hall
  have hsome : (putAll 1 (colliding.take 8) hashmapNew).isSome := by decide +kernel
  obtain ⟨map, hmap⟩ := Option.isSome_iff_exists.mp hsome
  have hrun : PutRun id map := PutRun.putAll .new hmap
  obtain ⟨⟨f, hholds⟩, -⟩ := hrun.holds
  have hget : hashmapGet id map = f := funext (hashmapGet_eq hholds)
  have hcrowd : Crowded f (colliding.getD 8 []) (colliding.take 8).toFinset := by
    refine ⟨by decide +kernel, ?_, by decide +kernel, ?_⟩
    · intro t ht
      have hstored : ∀ t ∈ colliding.take 8, ((putAll 1 (colliding.take 8) hashmapNew).bind
          fun map => hashmapGet id map t) ≠ none := by
        decide +kernel
      simpa [hmap, hget] using hstored t (List.mem_toFinset.mp ht)
    · have hnew : ((putAll 1 (colliding.take 8) hashmapNew).bind
          fun map => hashmapGet id map (colliding.getD 8 [])) = none := by
        decide +kernel
      simpa [hmap, hget] using hnew
  obtain ⟨fuel, map', hput⟩ := hall map hrun (colliding.getD 8 []) 0
  have hnever : hashmapPut id (fun _ => true) fuel map (colliding.getD 8 []) 0 = none :=
    crowded_never_finishes (fun _ => rfl) hholds hcrowd 0 fuel
  rw [hnever] at hput
  cases hput

end PhantomShell
