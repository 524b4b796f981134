import PhantomShell.Lib.JumpCode

/-!
# Labelled runs

A run of a transition relation together with what its steps are labelled with, in order. A label
only depends on the state that is left, so the labels add nothing to a run: each run has some
(`exists_labelled`), and they are the only ones where steps are deterministic
(`Labelled.unique`). `JumpIsa.logged` keeps the labels of the instructions in a log.
-/

namespace PhantomShell

open Relation

variable {σ β : Type}

/-- A run and the labels of the states that it leaves. -/
inductive Labelled (step : σ → σ → Prop) (label : σ → List β) : σ → List β → σ → Prop
  | refl {s : σ} : Labelled step label s [] s
  | head {s t u : σ} {labels : List β} :
      step s t → Labelled step label t labels u → Labelled step label s (label s ++ labels) u

section

variable {step : σ → σ → Prop} {label : σ → List β}

lemma Labelled.erase {s t : σ} {labels : List β} (h : Labelled step label s labels t) :
    ReflTransGen step s t := by
  induction h with
  | refl => exact .refl
  | head hstep _ ih => exact .head hstep ih

lemma exists_labelled {s t : σ} (h : ReflTransGen step s t) :
    ∃ labels, Labelled step label s labels t := by
  induction h using ReflTransGen.head_induction_on with
  | refl => exact ⟨[], .refl⟩
  | head hstep _ ih =>
    obtain ⟨labels, hlabels⟩ := ih
    exact ⟨_, .head hstep hlabels⟩

/-- A run next to which another one makes steps of its own. -/
lemma Labelled.simulates {R : σ → σ → List β → Prop}
    (hstep : ∀ s t s' before, R s t before → step s s' →
      ∃ t', step t t' ∧ R s' t' (before ++ label s))
    {s t s' : σ} {before labels : List β} (h : Labelled step label s labels s')
    (hR : R s t before) : ∃ t', ReflTransGen step t t' ∧ R s' t' (before ++ labels) := by
  induction h generalizing t before with
  | refl => exact ⟨t, .refl, by simpa using hR⟩
  | head hfirst _ ih =>
    obtain ⟨t₁, ht₁, hR₁⟩ := hstep _ _ _ _ hR hfirst
    obtain ⟨t', hreach, hR'⟩ := ih hR₁
    exact ⟨t', .head ht₁ hreach, by simpa using hR'⟩

/-- Runs that end where no step can be made have the same labels. -/
lemma Labelled.unique (hdet : ∀ s t u, step s t → step s u → t = u) {s t u : σ}
    {labels labels' : List β} (h : Labelled step label s labels t) (ht : ∀ r, ¬ step t r)
    (h' : Labelled step label s labels' u) (hu : ∀ r, ¬ step u r) : labels = labels' ∧ t = u := by
  induction h generalizing labels' with
  | refl =>
    cases h' with
    | refl => exact ⟨rfl, rfl⟩
    | head hfirst _ => exact absurd hfirst (ht _)
  | head hfirst _ ih =>
    cases h' with
    | refl => exact absurd hfirst (hu _)
    | head hfirst' hrest =>
      obtain rfl := hdet _ _ _ hfirst hfirst'
      obtain ⟨rfl, rfl⟩ := ih ht hrest
      exact ⟨rfl, rfl⟩

end

/-! ## A log of instructions -/

namespace JumpIsa

variable {ι ε : Type}

/-- The instructions on a state with a log, which each one that succeeds appends its label to. -/
def logged (isa : JumpIsa ι σ ε) (label : ι → σ → List β) : JumpIsa ι (σ × List β) ε where
  size := isa.size
  size_pos := isa.size_pos
  exec i s :=
    match isa.exec i s.1 with
    | .ok (t, d) => .ok ((t, s.2 ++ label i s.1), d)
    | .error e => .error e

variable {isa : JumpIsa ι σ ε} {label : ι → σ → List β} {ok : ε → Prop}

lemma effect_logged {i : ι} {s : σ × List β} {post : σ × List β → ℤ → Prop} :
    Effect ok post ((isa.logged label).exec i s) ↔
      Effect ok (fun t d => post (t, s.2 ++ label i s.1) d) (isa.exec i s.1) := by
  cases hexec : isa.exec i s.1 with
  | ok r =>
    simp only [logged, hexec]
    exact Iff.rfl
  | error e =>
    simp only [logged, hexec]
    exact Iff.rfl

/-- Assertions that do not read the log. -/
lemma Block.logged {P Q : σ → Prop} {code : List ι} (h : isa.Block ok P code Q) :
    (isa.logged label).Block ok (fun s => P s.1) code (fun s => Q s.1) := by
  obtain ⟨A, hA, hpre, hpost⟩ := h
  refine ⟨fun pc s => A pc s.1, fun pc s hs => ?_, fun s hs => hpre s.1 hs,
    fun s hs => hpost s.1 hs⟩
  rcases hA pc s.1 hs with hend | ⟨i, hat, heff⟩
  · exact .inl hend
  · exact .inr ⟨i, hat, effect_logged.mpr heff⟩

end JumpIsa

end PhantomShell
