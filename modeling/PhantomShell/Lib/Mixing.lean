import Mathlib.Data.Finset.Prod
import Mathlib.Data.Nat.ModEq
import Mathlib.Data.Set.Card
import Mathlib.Algebra.Order.Group.Nat
import Mathlib.Data.Nat.Prime.Basic
import Mathlib.Tactic.Ring

/-!
# Mixing functions

The steps that hash functions mix a word with: sums and exclusive sums of a word and a shift of it, and
a product with an odd number. None of them loses a word, and the upper bits of a product with an odd
number are spread evenly over the residues of a power of two.
-/

namespace PhantomShell

variable {w k : ℕ}

/-- A word can be told from the sum of it and a shift to the left. -/
lemma addShift_injective (hk : 0 < k) : Function.Injective fun x : BitVec w => x + (x <<< k) := by
  intro x y h
  have hnat := congrArg BitVec.toNat h
  simp only [BitVec.toNat_add, BitVec.toNat_shiftLeft, Nat.shiftLeft_eq, Nat.add_mod_mod] at hnat
  have hodd : Nat.Coprime (2 ^ w) (1 + 2 ^ k) := by
    apply Nat.Coprime.pow_left
    rw [Nat.coprime_two_left, Nat.odd_add]
    simp [Nat.even_pow, hk.ne']
  have hmod : (1 + 2 ^ k) * x.toNat ≡ (1 + 2 ^ k) * y.toNat [MOD 2 ^ w] := by
    rw [Nat.ModEq, Nat.add_mul, Nat.add_mul, one_mul, one_mul, Nat.mul_comm (2 ^ k),
      Nat.mul_comm (2 ^ k)]
    exact hnat
  have heq := Nat.ModEq.cancel_left_of_coprime hodd hmod
  apply BitVec.eq_of_toNat_eq
  rwa [Nat.ModEq, Nat.mod_eq_of_lt x.isLt, Nat.mod_eq_of_lt y.isLt] at heq

/-- A word can be told from the exclusive sum of it and a shift to the right. -/
lemma xorShift_injective (hk : 0 < k) :
    Function.Injective fun x : BitVec w => x ^^^ (x >>> k) := by
  intro x y h
  have hbits : ∀ i, (x ^^^ y).getLsbD i = (x ^^^ y).getLsbD (k + i) := by
    intro i
    have hbit := congrArg (fun r : BitVec w => r.getLsbD i) h
    simp only [BitVec.getLsbD_xor, BitVec.getLsbD_ushiftRight] at hbit ⊢
    revert hbit
    cases x.getLsbD i <;> cases y.getLsbD i <;> cases x.getLsbD (k + i) <;>
      cases y.getLsbD (k + i) <;> decide
  have hzero : ∀ n i, w ≤ n * k + i → (x ^^^ y).getLsbD i = false := by
    intro n
    induction n with
    | zero =>
      intro i hi
      exact BitVec.getLsbD_of_ge _ _ (by omega)
    | succ n ih =>
      intro i hi
      rw [hbits]
      apply ih
      rw [Nat.succ_mul] at hi
      omega
  apply BitVec.xor_eq_zero_iff.mp
  apply BitVec.eq_of_getLsbD_eq
  intro i hi
  rw [BitVec.getLsbD_zero]
  apply hzero w
  have hle := Nat.le_mul_of_pos_right w hk
  omega

/-- A product with a number coprime to `m` meets every residue, at one residue only. -/
lemma exists_mul_mod {m a j : ℕ} (hj : j < m) (ha : Nat.Coprime m a) :
    ∃ r < m, ∀ x, x * a % m = j ↔ x % m = r := by
  have hm : 0 < m := by omega
  have hinj : ∀ x y, x * a % m = y * a % m → x % m = y % m :=
    fun x y h => Nat.ModEq.cancel_right_of_coprime ha h
  have hsurj : Function.Surjective fun x : Fin m => (⟨x.val * a % m, Nat.mod_lt _ hm⟩ : Fin m) := by
    apply Finite.injective_iff_surjective.mp
    intro x y h
    have hxy := hinj x.val y.val (congrArg Fin.val h)
    rw [Nat.mod_eq_of_lt x.isLt, Nat.mod_eq_of_lt y.isLt] at hxy
    exact Fin.ext hxy
  obtain ⟨r, hr⟩ := hsurj ⟨j, hj⟩
  have hr : r.val * a % m = j := congrArg Fin.val hr
  refine ⟨r.val, r.isLt, ?_⟩
  intro x
  constructor
  · intro h
    rw [← hr] at h
    have hx := hinj x r.val h
    rwa [Nat.mod_eq_of_lt r.isLt] at hx
  · intro h
    rw [← hr, ← h, Nat.mod_mul_mod]

/-- The upper part of a number times a number coprime to `m` is spread evenly. -/
lemma card_div_mul_mod {s m q a j : ℕ} (hs : 0 < s) (hj : j < m) (ha : Nat.Coprime m a) :
    ((Finset.range (s * (m * q))).filter fun n => n / s * a % m = j).card = q * s := by
  obtain ⟨r, hr, hres⟩ := exists_mul_mod hj ha
  have hcard : (Finset.range q ×ˢ Finset.range s).card = q * s := by
    rw [Finset.card_product, Finset.card_range, Finset.card_range]
  have hdiv : ∀ x < s, ∀ y, (s * (m * y + r) + x) / s = m * y + r := by
    intro x hx y
    rw [Nat.mul_add_div hs, Nat.div_eq_of_lt hx, Nat.add_zero]
  rw [← hcard]
  symm
  -- such a number is `s * (m * y + r) + x`, for one `y < q` and one `x < s`
  apply Finset.card_nbij' (fun p => s * (m * p.1 + r) + p.2) (fun n => (n / s / m, n % s))
  · intro p hp
    rw [Finset.mem_coe, Finset.mem_product, Finset.mem_range, Finset.mem_range] at hp
    have hle : s * (m * p.1 + r + 1) ≤ s * (m * q) := by
      apply Nat.mul_le_mul_left
      calc m * p.1 + r + 1 ≤ m * (p.1 + 1) := by rw [Nat.mul_succ]; omega
        _ ≤ m * q := Nat.mul_le_mul_left m hp.1
    rw [Nat.mul_succ] at hle
    rw [Finset.mem_coe, Finset.mem_filter, Finset.mem_range, hdiv p.2 hp.2, hres]
    refine ⟨?_, ?_⟩
    · show s * (m * p.1 + r) + p.2 < s * (m * q)
      omega
    · rw [Nat.mul_add_mod, Nat.mod_eq_of_lt hr]
  · intro n hn
    rw [Finset.mem_coe, Finset.mem_filter, Finset.mem_range] at hn
    rw [Finset.mem_coe, Finset.mem_product, Finset.mem_range, Finset.mem_range]
    exact ⟨Nat.div_lt_of_lt_mul (Nat.div_lt_of_lt_mul hn.1), Nat.mod_lt _ hs⟩
  · intro p hp
    rw [Finset.mem_coe, Finset.mem_product, Finset.mem_range, Finset.mem_range] at hp
    ext
    · show (s * (m * p.1 + r) + p.2) / s / m = p.1
      rw [hdiv p.2 hp.2, Nat.mul_add_div (by omega), Nat.div_eq_of_lt hr, Nat.add_zero]
    · show (s * (m * p.1 + r) + p.2) % s = p.2
      rw [Nat.mul_add_mod, Nat.mod_eq_of_lt hp.2]
  · intro n hn
    rw [Finset.mem_coe, Finset.mem_filter] at hn
    show s * (m * (n / s / m) + r) + n % s = n
    rw [← (hres _).mp hn.2, Nat.div_add_mod, Nat.div_add_mod]

end PhantomShell
