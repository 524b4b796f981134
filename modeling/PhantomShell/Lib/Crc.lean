import Mathlib.Algebra.Group.Nat.Defs
import Mathlib.Logic.Function.Iterate
import Mathlib.Logic.Function.Basic
import Mathlib.Data.Fintype.EquivFin

/-!
# Cyclic redundancy checks

Division of a message by a polynomial over two elements, in the order of bits that starts with the
lowest one. A register takes the message in chunks: a chunk is added to its lower end, and then as
many bits are shifted out. The register of a fixed polynomial is linear, a table can do a chunk at
once (`crcBits_eq_table`), and messages that differ in one stretch of the register's width only leave
different registers (`crcFeed_burst`).
-/

namespace PhantomShell

variable {w k : ℕ}

/-- One bit is shifted out. -/
def crcBit (poly r : BitVec w) : BitVec w :=
  if r.getLsbD 0 then (r >>> 1) ^^^ poly else r >>> 1

/-- Bits are shifted out. -/
def crcBits (poly : BitVec w) (n : ℕ) (r : BitVec w) : BitVec w := (crcBit poly)^[n] r

/-- A message of chunks is taken. -/
def crcFeed (poly : BitVec w) (r : BitVec w) (message : List (BitVec k)) : BitVec w :=
  message.foldl (fun r chunk => crcBits poly k (r ^^^ chunk.setWidth w)) r

/-! ## Linearity -/

lemma crcBit_xor (poly a b : BitVec w) : crcBit poly (a ^^^ b) = crcBit poly a ^^^ crcBit poly b := by
  ext i hi
  cases ha : a.getLsbD 0 <;> cases hb : b.getLsbD 0 <;>
    simp [crcBit, ha, hb] <;>
    cases a.getLsbD (1 + i) <;> cases b.getLsbD (1 + i) <;> simp

lemma crcBits_xor (poly : BitVec w) (n : ℕ) (a b : BitVec w) :
    crcBits poly n (a ^^^ b) = crcBits poly n a ^^^ crcBits poly n b := by
  induction n generalizing a b with
  | zero => rfl
  | succ n ih =>
    rw [crcBits, Function.iterate_succ_apply, crcBit_xor, ← crcBits, ih]
    rfl

lemma crcBits_add (poly : BitVec w) (m n : ℕ) (r : BitVec w) :
    crcBits poly (m + n) r = crcBits poly m (crcBits poly n r) :=
  Function.iterate_add_apply _ m n r

/-- Bits that are not set are shifted out only. -/
lemma crcBits_eq_shift (poly : BitVec w) {n : ℕ} {r : BitVec w}
    (h : ∀ i < n, r.getLsbD i = false) : crcBits poly n r = r >>> n := by
  induction n generalizing r with
  | zero => simp [crcBits]
  | succ n ih =>
    have hbit : crcBit poly r = r >>> 1 := by
      rw [crcBit, h 0 (by omega), if_neg (by simp)]
    rw [crcBits, Function.iterate_succ_apply, hbit, ← crcBits, ih]
    · rw [← BitVec.shiftRight_add, Nat.add_comm]
    · intro i hi
      rw [BitVec.getLsbD_ushiftRight]
      exact h (1 + i) (by omega)

/-- A table of the registers that the lower bits lead to does them at once. -/
theorem crcBits_eq_table (poly : BitVec w) (n : ℕ) (r : BitVec w) :
    crcBits poly n r = crcBits poly n (r &&& BitVec.ofNat w (2 ^ n - 1)) ^^^ (r >>> n) := by
  have hmask : ∀ i, (BitVec.ofNat w (2 ^ n - 1)).getLsbD i = (decide (i < w) && decide (i < n)) := by
    intro i
    rw [BitVec.getLsbD_ofNat, Nat.testBit_two_pow_sub_one]
  have hsplit : r = (r &&& BitVec.ofNat w (2 ^ n - 1)) ^^^ ((r >>> n) <<< n) := by
    ext i hi
    by_cases h : i < n
    · simp [← BitVec.getLsbD_eq_getElem, hmask, h, hi]
    · have hsub : n + (i - n) = i := by omega
      simp [← BitVec.getLsbD_eq_getElem, hmask, h, hi, hsub]
  have hhigh : crcBits poly n ((r >>> n) <<< n) = r >>> n := by
    rw [crcBits_eq_shift]
    · ext i hi
      by_cases h : n + i < w
      · simp [← BitVec.getLsbD_eq_getElem, h]
      · simp [← BitVec.getLsbD_eq_getElem, h, BitVec.getLsbD_of_ge r (n + i) (by omega)]
    · intro i hi
      simp [hi]
  calc crcBits poly n r
      = crcBits poly n ((r &&& BitVec.ofNat w (2 ^ n - 1)) ^^^ ((r >>> n) <<< n)) := by
        rw [← hsplit]
    _ = crcBits poly n (r &&& BitVec.ofNat w (2 ^ n - 1)) ^^^ (r >>> n) := by
        rw [crcBits_xor, hhigh]

/-! ## No register is lost -/

/-- Where the highest bit of the polynomial is set, the bit that was shifted out can be told. -/
lemma crcBit_eq_zero {poly d : BitVec w} (hpoly : poly.msb = true) (h : crcBit poly d = 0#w) :
    d = 0#w := by
  have hlow : d.getLsbD 0 = false := by
    by_contra hset
    rw [Bool.not_eq_false] at hset
    have htop := congrArg (fun r : BitVec w => r.getLsbD (w - 1)) h
    rw [BitVec.msb_eq_getLsbD_last] at hpoly
    simp only [crcBit, hset, if_true, BitVec.getLsbD_xor, BitVec.getLsbD_ushiftRight, hpoly,
      BitVec.getLsbD_zero] at htop
    rw [BitVec.getLsbD_of_ge d _ (by omega)] at htop
    cases htop
  have hshift : d >>> 1 = 0#w := by
    rwa [crcBit, hlow, if_neg (by simp)] at h
  apply BitVec.eq_of_getLsbD_eq
  intro i hi
  rw [BitVec.getLsbD_zero]
  cases i with
  | zero => exact hlow
  | succ j =>
    have hbit := congrArg (fun r : BitVec w => r.getLsbD j) hshift
    rw [BitVec.getLsbD_ushiftRight, BitVec.getLsbD_zero, Nat.add_comm] at hbit
    exact hbit

lemma crcBits_injective {poly : BitVec w} (hpoly : poly.msb = true) (n : ℕ) :
    Function.Injective (crcBits poly n) := by
  apply Function.Injective.iterate
  intro a b h
  have hzero : crcBit poly (a ^^^ b) = 0#w := by rw [crcBit_xor, h, BitVec.xor_self]
  exact BitVec.xor_eq_zero_iff.mp (crcBit_eq_zero hpoly hzero)

/-- Registers that differ still do behind the same message. -/
lemma crcFeed_injective {poly : BitVec w} (hpoly : poly.msb = true) (message : List (BitVec k)) :
    Function.Injective (crcFeed poly · message) := by
  induction message with
  | nil => exact fun _ _ h => h
  | cons chunk message ih =>
    intro a b h
    have hchunk := crcBits_injective hpoly k (ih h)
    exact (BitVec.xor_left_inj _).mp hchunk

lemma crcFeed_append (poly r : BitVec w) (l l' : List (BitVec k)) :
    crcFeed poly r (l ++ l') = crcFeed poly (crcFeed poly r l) l' :=
  List.foldl_append

/-! ## Bursts -/

/-- Chunks one behind the other, the first one at the lower end. -/
def crcWord (w : ℕ) : List (BitVec k) → BitVec w
  | [] => 0#w
  | chunk :: l => chunk.setWidth w ^^^ (crcWord w l <<< k)

/-- Above its chunks nothing is set. -/
lemma getLsbD_crcWord {l : List (BitVec k)} {i : ℕ} (hi : k * l.length ≤ i) :
    (crcWord w l).getLsbD i = false := by
  induction l generalizing i with
  | nil => exact BitVec.getLsbD_zero
  | cons chunk l ih =>
    rw [List.length_cons, Nat.mul_succ] at hi
    rw [crcWord, BitVec.getLsbD_xor, BitVec.getLsbD_setWidth, BitVec.getLsbD_shiftLeft,
      ih (show k * l.length ≤ i - k by omega), BitVec.getLsbD_of_ge chunk i (by omega)]
    simp

lemma shift_crcWord {l : List (BitVec k)} (hl : k * l.length + k ≤ w) :
    (crcWord w l <<< k) >>> k = crcWord w l := by
  apply BitVec.eq_of_getLsbD_eq
  intro i hi
  rw [BitVec.getLsbD_ushiftRight, BitVec.getLsbD_shiftLeft, Nat.add_sub_cancel_left]
  by_cases h : k + i < w
  · simp [h]
  · rw [getLsbD_crcWord (show k * l.length ≤ i by omega), Bool.and_false]

/-- Chunks that fit into the register are taken as one. -/
lemma crcFeed_eq_crcBits (poly r : BitVec w) {l : List (BitVec k)} (hl : k * l.length ≤ w) :
    crcFeed poly r l = crcBits poly (k * l.length) (r ^^^ crcWord w l) := by
  induction l generalizing r with
  | nil => simp [crcFeed, crcWord, crcBits]
  | cons chunk l ih =>
    rw [List.length_cons, Nat.mul_succ] at hl
    have hshift : crcBits poly k (crcWord w l <<< k) = crcWord w l := by
      rw [crcBits_eq_shift, shift_crcWord hl]
      intro i hi
      simp [hi]
    rw [crcFeed, List.foldl_cons, ← crcFeed, ih _ (by omega), List.length_cons, Nat.mul_succ,
      crcBits_add, crcWord, ← BitVec.xor_assoc, crcBits_xor poly k (r ^^^ _), hshift]

/-- The word tells its chunks. -/
lemma crcWord_injective {l l' : List (BitVec k)} (hlength : l.length = l'.length)
    (hl : k * l.length ≤ w) (h : crcWord w l = crcWord w l') : l = l' := by
  induction l generalizing l' with
  | nil =>
    cases l' with
    | nil => rfl
    | cons chunk' l' => cases hlength
  | cons chunk l ih =>
    cases l' with
    | nil => cases hlength
    | cons chunk' l' =>
      rw [List.length_cons, List.length_cons, Nat.add_right_cancel_iff] at hlength
      rw [List.length_cons, Nat.mul_succ] at hl
      rw [crcWord, crcWord] at h
      have hchunk : chunk = chunk' := by
        apply BitVec.eq_of_getLsbD_eq
        intro i hi
        have hbit := congrArg (fun r : BitVec w => r.getLsbD i) h
        simpa [hi, show i < w by omega] using hbit
      rw [hchunk, BitVec.xor_right_inj] at h
      have hword : crcWord w l = crcWord w l' := by
        have hl' : k * l'.length + k ≤ w := by rwa [← hlength]
        rw [← shift_crcWord hl, h, shift_crcWord hl']
      rw [hchunk, ih hlength (by omega) hword]

/-- Messages that differ in one stretch only, not wider than the register, leave it different. -/
theorem crcFeed_burst {poly : BitVec w} (hpoly : poly.msb = true) (r : BitVec w)
    {p u u' t : List (BitVec k)} (hlength : u.length = u'.length) (hu : k * u.length ≤ w)
    (hne : u ≠ u') : crcFeed poly r (p ++ (u ++ t)) ≠ crcFeed poly r (p ++ (u' ++ t)) := by
  intro heq
  simp only [crcFeed_append] at heq
  have hburst := crcFeed_injective hpoly t heq
  have hu' : k * u'.length ≤ w := by rwa [← hlength]
  rw [crcFeed_eq_crcBits poly (crcFeed poly r p) hu, crcFeed_eq_crcBits poly (crcFeed poly r p) hu',
    hlength] at hburst
  have hword := (BitVec.xor_right_inj _).mp (crcBits_injective hpoly _ hburst)
  exact hne (crcWord_injective hlength hu hword)

/-! ## Reach -/

/-- The bits of a word of chunks are those of its chunks. -/
lemma getLsbD_crcWord_chunk {l : List (BitVec k)} {i j : ℕ} (hj : j < k) (hw : k * i + j < w) :
    (crcWord w l).getLsbD (k * i + j) = (l.getD i 0#k).getLsbD j := by
  induction l generalizing i with
  | nil => simp [crcWord]
  | cons chunk l ih =>
    rw [crcWord, BitVec.getLsbD_xor, BitVec.getLsbD_setWidth, BitVec.getLsbD_shiftLeft]
    cases i with
    | zero =>
      rw [Nat.mul_zero, Nat.zero_add] at hw ⊢
      simp [hj, hw]
    | succ i =>
      have hindex : k * (i + 1) + j = k + (k * i + j) := by rw [Nat.mul_succ]; omega
      rw [hindex] at hw ⊢
      have hrest := ih (show k * i + j < w by omega)
      simp [hw, hrest]

/-- A register with nothing above `n` chunks is a word of `n` chunks. -/
lemma exists_crcWord {n : ℕ} {r : BitVec w} (hr : ∀ i, k * n ≤ i → r.getLsbD i = false) :
    ∃ l : List (BitVec k), l.length = n ∧ crcWord w l = r := by
  induction n generalizing r with
  | zero =>
    refine ⟨[], rfl, ?_⟩
    apply BitVec.eq_of_getLsbD_eq
    intro i hi
    rw [hr i (by omega)]
    exact BitVec.getLsbD_zero
  | succ n ih =>
    have hshift : ∀ i, k * n ≤ i → (r >>> k).getLsbD i = false := by
      intro i hi
      rw [BitVec.getLsbD_ushiftRight]
      exact hr (k + i) (by rw [Nat.mul_succ]; omega)
    obtain ⟨l, hlength, hword⟩ := ih hshift
    refine ⟨r.setWidth k :: l, by rw [List.length_cons, hlength], ?_⟩
    rw [crcWord, hword]
    apply BitVec.eq_of_getLsbD_eq
    intro i hi
    by_cases h : i < k
    · simp [h, hi]
    · have hadd : k + (i - k) = i := by omega
      simp [h, hi, hadd]

/-- Messages of the register's width lead from every register to every other. -/
theorem exists_crcFeed {poly : BitVec w} (hpoly : poly.msb = true) {n : ℕ} (hn : k * n = w)
    (r goal : BitVec w) : ∃ l : List (BitVec k), l.length = n ∧ crcFeed poly r l = goal := by
  have hfinite : Finite (BitVec w) :=
    Finite.of_injective BitVec.toFin fun _ _ h => BitVec.eq_of_toFin_eq h
  obtain ⟨d, hd⟩ := Finite.injective_iff_surjective.mp (crcBits_injective hpoly w) goal
  have hhigh : ∀ i, k * n ≤ i → (r ^^^ d).getLsbD i = false := by
    intro i hi
    exact BitVec.getLsbD_of_ge _ i (by omega)
  obtain ⟨l, hlength, hword⟩ := exists_crcWord hhigh
  refine ⟨l, hlength, ?_⟩
  rw [crcFeed_eq_crcBits poly r (by rw [hlength, hn]), hlength, hn, hword, ← BitVec.xor_assoc,
    BitVec.xor_self, BitVec.zero_xor, hd]

/-- Messages of the register's width that lead to the same register and agree in a chunk start from
registers that agree there. -/
lemma start_eq_of_chunk_eq {poly r r' : BitVec w} (hpoly : poly.msb = true) {l l' : List (BitVec k)}
    (hl : k * l.length = w) (hlength : l'.length = l.length)
    (heq : crcFeed poly r l = crcFeed poly r' l') {i j : ℕ} (hi : i < l.length) (hj : j < k)
    (hchunk : l.getD i 0#k = l'.getD i 0#k) :
    r.getLsbD (k * i + j) = r'.getLsbD (k * i + j) := by
  have hw : k * i + j < w := by
    calc k * i + j < k * (i + 1) := by rw [Nat.mul_succ]; omega
      _ ≤ k * l.length := Nat.mul_le_mul_left k hi
      _ = w := hl
  rw [crcFeed_eq_crcBits poly r (by omega), crcFeed_eq_crcBits poly r' (by rw [hlength]; omega),
    hlength] at heq
  have hbit := congrArg (fun v : BitVec w => v.getLsbD (k * i + j))
    (crcBits_injective hpoly (k * l.length) heq)
  simp only [BitVec.getLsbD_xor, getLsbD_crcWord_chunk hj hw, hchunk] at hbit
  exact Bool.xor_left_inj.mp hbit

end PhantomShell
