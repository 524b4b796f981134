import Mathlib.Data.Fintype.Pigeonhole
import Mathlib.Data.List.GetD
import PhantomShell.HashmapGrowth
import PhantomShell.Lib.Crc
import PhantomShell.Lib.Mixing

/-!
# The hash of a key

`compute_crc32` is the reflected cyclic redundancy check of the polynomial `0xEDB88320`, a byte at
once by its table, and keys that differ within four bytes only have different checksums. What
`string_hash` makes of a checksum is spread evenly over the slots of a table.
-/

namespace PhantomShell

/-! ## The table -/

def crcPolynomial : BitVec 32 := 0xEDB88320#32

lemma crcPolynomial_msb : crcPolynomial.msb = true := by decide

/-- `crc32_tab` holds what eight bits lead to. -/
lemma crc32Tab_eq (i : ℕ) (hi : i < 256) :
    (crc32Tab.getD i 0).toBitVec = crcBits crcPolynomial 8 (BitVec.ofNat 32 i) := by
  have hall : ∀ i < 256,
      (crc32Tab.getD i 0).toBitVec = crcBits crcPolynomial 8 (BitVec.ofNat 32 i) := by
    decide +kernel
  exact hall i hi

/-- A round of `compute_crc32` -/
def crc32Round (crc32val : UInt32) (b : UInt8) : UInt32 :=
  crc32Tab.getD ((crc32val ^^^ b.toUInt32) &&& 0xff).toNat 0 ^^^ (crc32val >>> 8)

lemma crc32Round_eq (crc32val : UInt32) (b : UInt8) : (crc32Round crc32val b).toBitVec =
    crcBits crcPolynomial 8 (crc32val.toBitVec ^^^ b.toBitVec.setWidth 32) := by
  have hindex : ((crc32val ^^^ b.toUInt32) &&& 0xff).toNat < 256 := by
    have hle := Nat.and_le_right (n := (crc32val ^^^ b.toUInt32).toNat) (m := 255)
    rw [UInt32.toNat_and]
    exact Nat.lt_succ_of_le hle
  have hbyte : (b.toBitVec.setWidth 32) >>> 8 = 0#32 := by
    ext i hi
    simp [← BitVec.getLsbD_eq_getElem]
  have htable := crcBits_eq_table crcPolynomial 8 (crc32val.toBitVec ^^^ b.toBitVec.setWidth 32)
  rw [BitVec.ushiftRight_xor_distrib, hbyte, BitVec.xor_zero] at htable
  rw [htable, crc32Round, UInt32.toBitVec_xor, crc32Tab_eq _ hindex, UInt32.toNat,
    BitVec.ofNat_toNat, BitVec.setWidth_eq]
  rfl

/-- The table does what the bits do. -/
theorem computeCrc32_eq (s : CStr) :
    (computeCrc32 s).toBitVec = crcFeed crcPolynomial 0#32 (s.map UInt8.toBitVec) := by
  have hfold : ∀ crc32val : UInt32, (s.foldl crc32Round crc32val).toBitVec =
      crcFeed crcPolynomial crc32val.toBitVec (s.map UInt8.toBitVec) := by
    induction s with
    | nil => exact fun _ => rfl
    | cons b s ih =>
      intro crc32val
      rw [List.foldl_cons, ih, crc32Round_eq]
      rfl
  exact hfold 0

/-- Keys that differ within four bytes only have different checksums. -/
theorem computeCrc32_burst {p u u' t : CStr} (hlength : u.length = u'.length) (hu : u.length ≤ 4)
    (hne : u ≠ u') : computeCrc32 (p ++ u ++ t) ≠ computeCrc32 (p ++ u' ++ t) := by
  intro heq
  have hcrc := congrArg UInt32.toBitVec heq
  simp only [computeCrc32_eq, List.map_append, List.append_assoc] at hcrc
  have hmap : u.map UInt8.toBitVec ≠ u'.map UInt8.toBitVec := by
    intro h
    apply hne
    exact (List.map_inj_right fun a b hab => UInt8.toBitVec_inj.mp hab).mp h
  apply crcFeed_burst crcPolynomial_msb 0#32 _ _ hmap hcrc
  · rw [List.length_map, List.length_map, hlength]
  · rw [List.length_map]
    omega

theorem computeCrc32_burst_digit :
    computeCrc32 ([118, 97, 114] ++ [49] ++ [120]) ≠
      computeCrc32 ([118, 97, 114] ++ [50] ++ [120]) :=
  computeCrc32_burst rfl (by decide) (by decide)

/-! ## Every checksum occurs -/

lemma computeCrc32_append (s t : CStr) : (computeCrc32 (s ++ t)).toBitVec =
    crcFeed crcPolynomial (computeCrc32 s).toBitVec (t.map UInt8.toBitVec) := by
  rw [computeCrc32_eq, computeCrc32_eq, List.map_append, crcFeed_append]

/-- Five bytes whose checksums differ from each other in every byte -/
def firstByte (a : Fin 5) : UInt8 := UInt8.ofNat (a.val + 1)

lemma firstByte_ne_zero : ∀ a, firstByte a ≠ 0 := by decide

lemma firstByte_differ : ∀ a b, a ≠ b → ∀ i : Fin 4, ∃ j : Fin 8,
    (computeCrc32 [firstByte a]).toBitVec.getLsbD (8 * i.val + j.val) ≠
      (computeCrc32 [firstByte b]).toBitVec.getLsbD (8 * i.val + j.val) := by
  decide +kernel

/-- Four more bytes lead from a string to every checksum. -/
lemma exists_end (s : CStr) (crc : UInt32) :
    ∃ u : CStr, u.length = 4 ∧ computeCrc32 (s ++ u) = crc := by
  obtain ⟨l, hlength, hcrc⟩ := exists_crcFeed crcPolynomial_msb (show 8 * 4 = 32 from rfl)
    (computeCrc32 s).toBitVec crc.toBitVec
  refine ⟨l.map UInt8.ofBitVec, by rw [List.length_map, hlength], ?_⟩
  apply UInt32.toBitVec_inj.mp
  have hid : UInt8.toBitVec ∘ UInt8.ofBitVec = id := rfl
  rw [computeCrc32_append, List.map_map, hid, List.map_id, hcrc]

/-- Strings of five bytes, none of them the terminator, have all checksums. -/
theorem exists_computeCrc32 (crc : UInt32) :
    ∃ str : CStr, str.length = 5 ∧ 0 ∉ str ∧ computeCrc32 str = crc := by
  choose u hlength hcrc using fun a => exists_end [firstByte a] crc
  by_contra hnone
  -- otherwise each of the five ends has a zero byte, and two of them have one at the same place
  have hzero : ∀ a, ∃ i : Fin 4, (u a).getD i.val 0 = 0 := by
    intro a
    have hmem : 0 ∈ u a := by
      by_contra h
      apply hnone
      refine ⟨[firstByte a] ++ u a, by rw [List.length_append, hlength]; rfl, ?_, hcrc a⟩
      rw [List.singleton_append, List.mem_cons, not_or]
      exact ⟨(firstByte_ne_zero a).symm, h⟩
    obtain ⟨i, hi, hget⟩ := List.mem_iff_getElem.mp hmem
    refine ⟨⟨i, by rw [← hlength a]; exact hi⟩, ?_⟩
    rw [List.getD_eq_getElem _ _ hi, hget]
  choose place hplace using hzero
  obtain ⟨a, b, hab, hsame⟩ := Fintype.exists_ne_map_eq_of_card_lt place (by simp)
  obtain ⟨j, hdiffer⟩ := firstByte_differ a b hab (place a)
  apply hdiffer
  have heq :
      crcFeed crcPolynomial (computeCrc32 [firstByte a]).toBitVec ((u a).map UInt8.toBitVec) =
        crcFeed crcPolynomial (computeCrc32 [firstByte b]).toBitVec ((u b).map UInt8.toBitVec) := by
    rw [← computeCrc32_append, ← computeCrc32_append, hcrc, hcrc]
  have hchunk : ∀ a, ((u a).map UInt8.toBitVec).getD (place a).val 0#8 = 0#8 := by
    intro a
    have hmap := @List.getD_map _ _ (u a) 0 (place a).val UInt8.toBitVec
    rw [hplace] at hmap
    exact hmap
  apply start_eq_of_chunk_eq crcPolynomial_msb _ _ heq _ j.isLt
  · rw [hchunk, hsame, hchunk]
  · rw [List.length_map, hlength]
  · rw [List.length_map, List.length_map, hlength, hlength]
  · rw [List.length_map, hlength]
    exact (place a).isLt

/-! ## The slots -/

/-- `string_hash` from the checksum to the product -/
def hashMix (key : UInt32) : UInt32 :=
  let key := key + (key <<< 12)
  let key := key ^^^ (key >>> 22)
  let key := key + (key <<< 4)
  let key := key ^^^ (key >>> 9)
  let key := key + (key <<< 10)
  let key := key ^^^ (key >>> 2)
  let key := key + (key <<< 7)
  key ^^^ (key >>> 12)

/-- No checksum is lost in mixing. -/
lemma hashMix_injective : Function.Injective hashMix := by
  have hadd : ∀ n, 0 < n → Function.Injective fun x : BitVec 32 => x + (x <<< n) :=
    fun _ hn => addShift_injective hn
  have hxor : ∀ n, 0 < n → Function.Injective fun x : BitVec 32 => x ^^^ (x >>> n) :=
    fun _ hn => xorShift_injective hn
  intro a b h
  have hbits := congrArg UInt32.toBitVec h
  apply UInt32.toBitVec_inj.mp
  apply hadd 12 (by decide)
  apply hxor 22 (by decide)
  apply hadd 4 (by decide)
  apply hxor 9 (by decide)
  apply hadd 10 (by decide)
  apply hxor 2 (by decide)
  apply hadd 7 (by decide)
  apply hxor 12 (by decide)
  exact hbits

lemma hashMix_surjective : Function.Surjective hashMix := by
  have hfinite : Finite UInt32 := Finite.of_injective (fun crc : UInt32 => crc.toBitVec.toFin)
    fun _ _ h => UInt32.toBitVec_inj.mp (BitVec.eq_of_toFin_eq h)
  exact Finite.injective_iff_surjective.mp hashMix_injective

lemma toNat_stringHash (str : CStr) : (stringHash str).toNat =
    (hashMix (computeCrc32 str)).toNat / 8 * 2654435761 % 2 ^ 32 := by
  have hhash : stringHash str = (hashMix (computeCrc32 str) >>> 3) * 2654435761 := rfl
  rw [hhash, UInt32.toNat_mul, UInt32.toNat_shiftRight, Nat.shiftRight_eq_div_pow]
  rfl

/-- The checksums of keys that are looked for at slot `j` first. -/
def homeChecksums (capacity j : ℕ) : Set UInt32 :=
  {crc | ∃ key : CStr, 0 ∉ key ∧ computeCrc32 key = crc ∧
    (probeSlots capacity key).head? = some j}

lemma mem_homeChecksums {capacity j : ℕ} {crc : UInt32} : crc ∈ homeChecksums capacity j ↔
    (hashMix crc).toNat / 8 * 2654435761 % 2 ^ 32 % capacity = j := by
  have hhead : ∀ key, (probeSlots capacity key).head? = some ((stringHash key).toNat % capacity) :=
    fun _ => rfl
  constructor
  · intro h
    obtain ⟨key, _, hcrc, hslot⟩ := h
    rw [hhead, toNat_stringHash, hcrc] at hslot
    exact Option.some.inj hslot
  · intro h
    obtain ⟨key, _, hkey, hcrc⟩ := exists_computeCrc32 crc
    refine ⟨key, hkey, hcrc, ?_⟩
    rw [hhead, toNat_stringHash, hcrc, h]

/-- Every slot of a table of at most `2 ^ 29` slots is the home of equally many checksums. -/
lemma ncard_homeChecksums {k j : ℕ} (hk : k ≤ 29) (hj : j < 2 ^ k) :
    (homeChecksums (2 ^ k) j).ncard = 2 ^ (29 - k) * 8 := by
  have hodd : Nat.Coprime (2 ^ k) 2654435761 := Nat.Coprime.pow_left k (by decide)
  have hcard := card_div_mul_mod (s := 8) (q := 2 ^ (29 - k)) (by decide) hj hodd
  have hsize : 8 * (2 ^ k * 2 ^ (29 - k)) = 2 ^ 32 := by
    rw [← pow_add, Nat.add_sub_of_le hk]
    rfl
  rw [hsize] at hcard
  have hmod : ∀ n, n % 2 ^ 32 % 2 ^ k = n % 2 ^ k :=
    fun n => Nat.mod_mod_of_dvd n (pow_dvd_pow 2 (show k ≤ 32 by omega))
  have hinj : Function.Injective fun crc => (hashMix crc).toNat :=
    fun _ _ h => hashMix_injective (UInt32.toNat_inj.mp h)
  have himage : (fun crc => (hashMix crc).toNat) '' homeChecksums (2 ^ k) j =
      ↑((Finset.range (2 ^ 32)).filter fun n => n / 8 * 2654435761 % 2 ^ k = j) := by
    ext n
    rw [Set.mem_image, Finset.mem_coe, Finset.mem_filter, Finset.mem_range]
    constructor
    · intro h
      obtain ⟨crc, hhome, hn⟩ := h
      rw [mem_homeChecksums, hmod, hn] at hhome
      refine ⟨?_, hhome⟩
      rw [← hn]
      exact (hashMix crc).toNat_lt
    · intro h
      obtain ⟨crc, hmix⟩ := hashMix_surjective (UInt32.ofNat n)
      have hn : (hashMix crc).toNat = n := by rw [hmix, UInt32.toNat_ofNat_of_lt' h.1]
      refine ⟨crc, ?_, hn⟩
      rw [mem_homeChecksums, hmod, hn]
      exact h.2
  rw [← Set.ncard_image_of_injective _ hinj, himage, Set.ncard_coe_finset, hcard]

/-- In the tables that puts lead to, all slots are the homes of equally many checksums if and only
if there are at most `2 ^ 29` slots: the product takes the upper 29 bits of what is mixed. -/
theorem slots_balanced_iff {κ β : Type} {str : κ → CStr} {map : Hashmap κ β}
    (hrun : PutRun str map) :
    (∀ j < map.capacity, (homeChecksums map.capacity j).ncard * map.capacity = 2 ^ 32) ↔
      map.capacity ≤ 2 ^ 29 := by
  constructor
  · intro h
    by_contra hcap
    have hcard : ((Finset.range (2 ^ 29)).image fun r =>
        r * 2654435761 % 2 ^ 32 % map.capacity).card < (Finset.range map.capacity).card := by
      calc _ ≤ (Finset.range (2 ^ 29)).card := Finset.card_image_le
        _ < (Finset.range map.capacity).card := by
          rw [Finset.card_range, Finset.card_range]
          omega
    obtain ⟨j, hj, hfree⟩ := Finset.exists_mem_notMem_of_card_lt_card hcard
    have hempty : homeChecksums map.capacity j = ∅ := by
      apply Set.eq_empty_of_forall_notMem
      intro crc hhome
      apply hfree
      rw [mem_homeChecksums] at hhome
      rw [Finset.mem_image]
      refine ⟨(hashMix crc).toNat / 8, ?_, hhome⟩
      rw [Finset.mem_range]
      have hlt := (hashMix crc).toNat_lt
      omega
    have hcount := h j (Finset.mem_range.mp hj)
    rw [hempty, Set.ncard_empty] at hcount
    omega
  · intro hcap j hj
    obtain ⟨⟨k, hk⟩, _⟩ := hrun.shape
    rw [hk] at hcap hj ⊢
    have hk29 : k ≤ 29 := (Nat.pow_le_pow_iff_right (by decide)).mp hcap
    rw [ncard_homeChecksums hk29 hj]
    calc 2 ^ (29 - k) * 8 * 2 ^ k = 2 ^ (29 - k + k) * 8 := by rw [pow_add]; ring
      _ = 2 ^ 32 := by rw [Nat.sub_add_cancel hk29]; rfl

/-- Every put counts, so the ninety-first one of `"o"` doubles the table. -/
theorem slots_balanced_iff_grown :
    ∃ map, putAll 3 (List.replicate 91 [111]) hashmapNew = some map ∧ map.capacity = 256 ∧
      ((∀ j < map.capacity, (homeChecksums map.capacity j).ncard * map.capacity = 2 ^ 32) ↔
        map.capacity ≤ 2 ^ 29) := by
  have hcapacity : (putAll 3 (List.replicate 91 [111]) hashmapNew).map Hashmap.capacity = some 256 := by
    decide +kernel
  obtain ⟨map, hput, hmap⟩ := Option.map_eq_some_iff.mp hcapacity
  exact ⟨map, hput, hmap, slots_balanced_iff (PutRun.new.putAll hput)⟩

end PhantomShell
