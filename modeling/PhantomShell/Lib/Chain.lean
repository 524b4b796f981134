import Mathlib.Data.List.Basic

/-!
# Linked lists in memory

A memory is a list of cells, and a pointer an index or null. `next` says which cells are elements of
a list, and where they point. `Segment mem p l q` holds if the elements `l` lead from `p` to `q`; a
list with pointers to its ends is a `LinkedList`.
-/

namespace PhantomShell

variable {α : Type} (next : α → Option (Option ℕ))

/-- From `p` through the elements `l` to `q`. -/
inductive Segment (mem : List α) : Option ℕ → List ℕ → Option ℕ → Prop
  | nil (p : Option ℕ) : Segment mem p [] p
  | cons {i : ℕ} {cell : α} {p q : Option ℕ} {l : List ℕ} (hcell : mem[i]? = some cell)
      (hnext : next cell = some p) (hrest : Segment mem p l q) : Segment mem (some i) (i :: l) q

/-- The elements `l`, the first and the last of which are known. -/
structure LinkedList (mem : List α) (first last : Option ℕ) (l : List ℕ) : Prop where
  segment : Segment next mem first l none
  getLast : l.getLast? = last

variable {next}

lemma Segment.single {mem : List α} {i : ℕ} {cell : α} {p : Option ℕ} (hcell : mem[i]? = some cell)
    (hnext : next cell = some p) : Segment next mem (some i) [i] p :=
  .cons hcell hnext (.nil p)

lemma Segment.append {mem : List α} {p q r : Option ℕ} {l l' : List ℕ} (h : Segment next mem p l q)
    (h' : Segment next mem q l' r) : Segment next mem p (l ++ l') r := by
  induction h with
  | nil => exact h'
  | cons hcell hnext _ ih => exact .cons hcell hnext (ih h')

lemma Segment.exists_of_mem {mem : List α} {p q : Option ℕ} {l : List ℕ} (h : Segment next mem p l q)
    {i : ℕ} (hi : i ∈ l) : ∃ cell p, mem[i]? = some cell ∧ next cell = some p := by
  induction h with
  | nil => exact absurd hi List.not_mem_nil
  | cons hcell hnext _ ih =>
    cases List.mem_cons.mp hi with
    | inl heq => exact heq ▸ ⟨_, _, hcell, hnext⟩
    | inr hmem => exact ih hmem

/-- More memory does not change a list. -/
lemma Segment.extend {mem : List α} {p q : Option ℕ} {l : List ℕ} (h : Segment next mem p l q)
    (more : List α) : Segment next (mem ++ more) p l q := by
  induction h with
  | nil => exact .nil _
  | cons hcell hnext _ ih =>
    refine .cons ?_ hnext ih
    rw [List.getElem?_append_left (List.getElem?_eq_some_iff.mp hcell).1, hcell]

/-- More cells may be elements. -/
lemma Segment.mono {next' : α → Option (Option ℕ)}
    (hnext : ∀ cell p, next cell = some p → next' cell = some p) {mem : List α} {p q : Option ℕ}
    {l : List ℕ} (h : Segment next mem p l q) : Segment next' mem p l q := by
  induction h with
  | nil => exact .nil _
  | cons hcell hp _ ih => exact .cons hcell (hnext _ _ hp) ih

lemma LinkedList.extend {mem : List α} {first last : Option ℕ} {l : List ℕ}
    (h : LinkedList next mem first last l) (more : List α) :
    LinkedList next (mem ++ more) first last l :=
  ⟨h.segment.extend more, h.getLast⟩

end PhantomShell
