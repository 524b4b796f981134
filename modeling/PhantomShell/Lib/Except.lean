import Mathlib.Tactic.Lemma

/-!
# Computations that may fail

Inversion of the steps of a computation in `Except` and in `EStateM`. `Below` compares two
computations by what they succeed with, step by step.
-/

namespace PhantomShell

section Except

variable {ε α β : Type}

lemma except_ok_bind (a : α) (f : α → Except ε β) : (Except.ok a >>= f) = f a := rfl

lemma except_bind_eq_ok {x : Except ε α} {f : α → Except ε β} {b : β} :
    (x >>= f) = .ok b ↔ ∃ a, x = .ok a ∧ f a = .ok b := by
  cases x with
  | error e => simp [bind, Except.bind]
  | ok a => simp [bind, Except.bind]

lemma except_bind_eq_error {x : Except ε α} {f : α → Except ε β} {e : ε} :
    (x >>= f) = .error e ↔ x = .error e ∨ ∃ a, x = .ok a ∧ f a = .error e := by
  cases x with
  | error e' => simp [bind, Except.bind]
  | ok a => simp [bind, Except.bind]

end Except

section EStateM

variable {ε σ α β : Type} {s s' : σ}

/-- A bind succeeds when both of its steps do. -/
lemma estate_bind_eq_ok {x : EStateM ε σ α} {f : α → EStateM ε σ β} {b : β} :
    (x >>= f) s = .ok b s' ↔ ∃ a t, x s = .ok a t ∧ f a t = .ok b s' := by
  change EStateM.bind x f s = _ ↔ _
  rw [EStateM.bind]
  cases x s with
  | error e t => simp
  | ok a t =>
    constructor
    · intro h
      exact ⟨a, t, rfl, h⟩
    · rintro ⟨_, _, ⟨⟩, h⟩
      exact h

/-- Behind a step that succeeds. -/
lemma estate_bind_of_ok {x : EStateM ε σ α} {f : α → EStateM ε σ β} {a : α} {t : σ}
    (h : x s = .ok a t) : (x >>= f) s = f a t := by
  change EStateM.bind x f s = _
  rw [EStateM.bind, h]

lemma estate_get_eq (s : σ) : (get : EStateM ε σ σ) s = .ok s s := rfl

lemma estate_modify_eq (f : σ → σ) (s : σ) :
    (modify f : EStateM ε σ PUnit) s = .ok PUnit.unit (f s) := rfl

/-- A bind stops where one of its steps stops. -/
lemma estate_bind_eq_error {x : EStateM ε σ α} {f : α → EStateM ε σ β} {e : ε} :
    (x >>= f) s = .error e s' ↔
      x s = .error e s' ∨ ∃ a t, x s = .ok a t ∧ f a t = .error e s' := by
  change EStateM.bind x f s = _ ↔ _
  rw [EStateM.bind]
  cases x s with
  | error e t => simp
  | ok a t =>
    constructor
    · intro h
      exact .inr ⟨a, t, rfl, h⟩
    · rintro (h | ⟨_, _, ⟨⟩, h⟩)
      · cases h
      · exact h

lemma estate_pure_eq_ok {a b : α} :
    (pure a : EStateM ε σ α) s = .ok b s' ↔ a = b ∧ s = s' := by
  change EStateM.Result.ok a s = _ ↔ _
  simp

lemma estate_get_eq_ok {t : σ} : (get : EStateM ε σ σ) s = .ok t s' ↔ s = t ∧ s = s' := by
  change EStateM.Result.ok s s = _ ↔ _
  simp

lemma estate_set_eq_ok {t : σ} {u : PUnit} :
    (set t : EStateM ε σ PUnit) s = .ok u s' ↔ t = s' := by
  change EStateM.Result.ok PUnit.unit t = _ ↔ _
  simp

lemma estate_modify_eq_ok {f : σ → σ} {u : PUnit} :
    (modify f : EStateM ε σ PUnit) s = .ok u s' ↔ f s = s' := by
  change EStateM.Result.ok PUnit.unit (f s) = _ ↔ _
  simp

lemma estate_throw_eq_ok {e : ε} {a : α} :
    (throw e : EStateM ε σ α) s = .ok a s' ↔ False := by
  change EStateM.Result.error e s = _ ↔ _
  simp

/-- What a computation that succeeds gives, and the state behind it. -/
def okResult : EStateM.Result ε σ α → Option (α × σ)
  | .ok a s => some (a, s)
  | .error _ _ => none

lemma okResult_eq_some {r : EStateM.Result ε σ α} {a : α} :
    okResult r = some (a, s) ↔ r = .ok a s := by
  cases r <;> simp [okResult]

/-! ### Computations that succeed more often -/

/-- What `x` succeeds with, `y` succeeds with. -/
def Below (x y : EStateM ε σ α) : Prop := ∀ s a s', x s = .ok a s' → y s = .ok a s'

lemma Below.refl (x : EStateM ε σ α) : Below x x := fun _ _ _ h => h

lemma below_throw (e : ε) (y : EStateM ε σ α) : Below (throw e) y :=
  fun _ _ _ h => (estate_throw_eq_ok.mp h).elim

lemma Below.bind {x y : EStateM ε σ α} {f g : α → EStateM ε σ β} (h : Below x y)
    (hfg : ∀ a, Below (f a) (g a)) : Below (x >>= f) (y >>= g) := by
  intro s b s' hx
  obtain ⟨a, t, ha, hb⟩ := estate_bind_eq_ok.mp hx
  exact estate_bind_eq_ok.mpr ⟨a, t, h _ _ _ ha, hfg a _ _ _ hb⟩

lemma Below.ite {p : Prop} [Decidable p] {x x' y y' : EStateM ε σ α} (hx : Below x x')
    (hy : Below y y') : Below (if p then x else y) (if p then x' else y') := by
  split
  · exact hx
  · exact hy

end EStateM

end PhantomShell
