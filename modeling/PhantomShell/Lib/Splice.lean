import Mathlib.Data.List.Basic
import Mathlib.Tactic.Ring

/-!
# Overwriting a block inside a list

`splice xs off ys` is `xs` with the block `ys` written over it from position `off` on:
what a block copy does to an array. The lemmas say what a prefix of the result is and how
a write into one of several equally long rows looks in their concatenation.
-/

namespace PhantomShell

variable {α : Type*}

/-- `xs` with `ys` written over the positions from `off` on. -/
def splice (xs : List α) (off : ℕ) (ys : List α) : List α :=
  xs.take off ++ ys ++ xs.drop (off + ys.length)

@[simp] lemma splice_nil (xs : List α) (off : ℕ) : splice xs off [] = xs := by
  simp [splice]

lemma length_splice {xs ys : List α} {off : ℕ} (h : off + ys.length ≤ xs.length) :
    (splice xs off ys).length = xs.length := by
  simp only [splice, List.length_append, List.length_take, List.length_drop]
  omega

/-- Up to the end of the written block the result is the old prefix and the block. -/
lemma take_splice {xs ys : List α} {off : ℕ} (h : off ≤ xs.length) :
    (splice xs off ys).take (off + ys.length) = xs.take off ++ ys := by
  have hlen : (xs.take off ++ ys).length = off + ys.length := by
    simp [List.length_take, Nat.min_eq_left h]
  rw [splice, ← hlen, List.take_left]

lemma splice_append_right (xs zs ys : List α) (off : ℕ) :
    splice (xs ++ zs) (xs.length + off) ys = xs ++ splice zs off ys := by
  have hd : (xs ++ zs).drop (xs.length + off + ys.length) = zs.drop (off + ys.length) := by
    rw [List.drop_append, List.drop_eq_nil_of_le (by omega), List.nil_append]
    congr 1
    omega
  have ht : (xs ++ zs).take (xs.length + off) = xs ++ zs.take off := by
    rw [List.take_append, List.take_of_length_le (by omega), Nat.add_sub_cancel_left]
  rw [splice, splice, hd, ht]
  simp [List.append_assoc]

lemma splice_append_left {xs ys : List α} {off : ℕ} (zs : List α)
    (h : off + ys.length ≤ xs.length) :
    splice (xs ++ zs) off ys = splice xs off ys ++ zs := by
  have hd : (xs ++ zs).drop (off + ys.length) = xs.drop (off + ys.length) ++ zs := by
    rw [List.drop_append, Nat.sub_eq_zero_of_le h, List.drop_zero]
  have ht : (xs ++ zs).take off = xs.take off := by
    rw [List.take_append, Nat.sub_eq_zero_of_le (by omega), List.take_zero, List.append_nil]
  rw [splice, splice, hd, ht]
  simp [List.append_assoc]

/-- A write into row `i` of equally long rows is a write into their concatenation. -/
lemma flatten_set_splice {p : ℕ} :
    ∀ (rows : List (List α)) (i off : ℕ) (ys : List α) (hi : i < rows.length),
      (∀ row ∈ rows, row.length = p) → off + ys.length ≤ p →
      (rows.set i (splice rows[i] off ys)).flatten = splice rows.flatten (i * p + off) ys := by
  intro rows
  induction rows with
  | nil => intro i off ys hi; simp at hi
  | cons row rows ih =>
    intro i off ys hi hlen hfit
    have hrow : row.length = p := hlen row (by simp)
    cases i with
    | zero =>
      simp only [List.set_cons_zero, List.getElem_cons_zero, List.flatten_cons, Nat.zero_mul,
        Nat.zero_add]
      rw [splice_append_left _ (by omega)]
    | succ i =>
      have hrest := ih i off ys (by simpa using hi) (fun r hr => hlen r (by simp [hr])) hfit
      simp only [List.set_cons_succ, List.getElem_cons_succ, List.flatten_cons]
      rw [hrest, ← splice_append_right]
      congr 1
      rw [hrow]
      ring

lemma length_flatten_eq {p : ℕ} (rows : List (List α)) (h : ∀ row ∈ rows, row.length = p) :
    rows.flatten.length = rows.length * p := by
  induction rows with
  | nil => simp
  | cons row rows ih =>
    rw [List.flatten_cons, List.length_append, h row (by simp),
      ih fun r hr => h r (by simp [hr]), List.length_cons]
    ring

/-- The concatenation from row `i` on starts `i` rows in. -/
lemma drop_flatten {p : ℕ} :
    ∀ (rows : List (List α)) (i : ℕ), (∀ row ∈ rows, row.length = p) →
      rows.flatten.drop (i * p) = (rows.drop i).flatten := by
  intro rows
  induction rows with
  | nil => intro i _; simp
  | cons row rows ih =>
    intro i h
    have hrow : row.length = p := h row (by simp)
    cases i with
    | zero => simp
    | succ i =>
      rw [List.flatten_cons, List.drop_succ_cons, ← ih i fun r hr => h r (by simp [hr]),
        List.drop_append, List.drop_eq_nil_of_le (by rw [hrow, Nat.succ_mul]; omega),
        List.nil_append, hrow]
      congr 1
      rw [Nat.succ_mul]
      omega

end PhantomShell
