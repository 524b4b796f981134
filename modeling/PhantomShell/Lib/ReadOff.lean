import Mathlib.Data.List.Basic

/-!
# Reading off

Values that are written as tokens, one behind the other. A value can be read off if the tokens tell
what it is and where it ends, whatever is behind it. The condition says what may be: it is the part
that decides where a value ends that has no closing token.
-/

namespace PhantomShell

variable {α τ : Type*} {yield : α → List τ} {ok : α → List τ → Prop}

variable (yield ok) in
/-- No other value has these tokens at the start, nor does the value end elsewhere. -/
def ReadOff (a : α) : Prop :=
  ∀ b s t, ok a s → ok b t → yield a ++ s = yield b ++ t → a = b ∧ s = t

/-! ## Lists -/

variable (yield ok) in
/-- Each of them is fine with what is behind it. -/
def OkAll : List α → List τ → Prop
  | [], _ => True
  | a :: l, s => ok a (l.flatMap yield ++ s) ∧ OkAll l s

lemma okAll_append {l l' : List α} {s : List τ} :
    OkAll yield ok (l ++ l') s ↔ OkAll yield ok l (l'.flatMap yield ++ s) ∧ OkAll yield ok l' s := by
  induction l with
  | nil => simp [OkAll]
  | cons a l ih => simp [OkAll, ih, and_assoc]

variable (yield ok) in
/-- No value starts here. -/
def NoStart (s : List τ) : Prop := ∀ b t, ok b t → yield b ++ t ≠ s

/-- Values one behind the other are read off one by one, to where none starts. -/
theorem readOff_flatMap {l l' : List α} {s s' : List τ} (h : ∀ a ∈ l, ReadOff yield ok a)
    (hl : OkAll yield ok l s) (hl' : OkAll yield ok l' s') (hs : NoStart yield ok s)
    (hs' : NoStart yield ok s') (heq : l.flatMap yield ++ s = l'.flatMap yield ++ s') :
    l = l' ∧ s = s' := by
  induction l generalizing l' with
  | nil =>
    cases l' with
    | nil => exact ⟨rfl, heq⟩
    | cons b l' =>
      rw [List.flatMap_cons, List.append_assoc] at heq
      exact absurd heq.symm (hs b _ hl'.1)
  | cons a l ih =>
    cases l' with
    | nil =>
      rw [List.flatMap_cons, List.append_assoc] at heq
      exact absurd heq (hs' a _ hl.1)
    | cons b l' =>
      rw [List.flatMap_cons, List.flatMap_cons, List.append_assoc, List.append_assoc] at heq
      obtain ⟨rfl, hrest⟩ := h a List.mem_cons_self b _ _ hl.1 hl'.1 heq
      obtain ⟨rfl, hend⟩ := ih (fun a ha => h a (List.mem_cons_of_mem _ ha)) hl.2 hl'.2 hrest
      exact ⟨rfl, hend⟩

end PhantomShell
