import Mathlib.Logic.Relation
import Mathlib.Tactic.Linarith
import Mathlib.Tactic.Ring

/-!
# Code with relative jumps

Instructions of different sizes are laid out one after the other; executing one changes the
state and moves the program counter by a displacement. `Runs code s t` is a run from the
first byte of a block to the byte behind it, `Block ok P code Q` is partial correctness by
inductive assertions: an assertion at each reachable program counter, kept by each
instruction, where a failure `e` is only tolerated if `ok e`. Both come with rules for
sequences, skips, branches and loops, in which blocks do not know where they will be placed.
-/

namespace PhantomShell

open Relation

/-- Instructions with a size and an effect on a state and the program counter. -/
structure JumpIsa (ι σ ε : Type) where
  size : ι → ℕ
  size_pos : ∀ i, 0 < size i
  exec : ι → σ → Except ε (σ × ℤ)

/-- A failure that is tolerated; one without a reason never is. -/
def Tolerated {ε : Type} (ok : ε → Prop) : Option ε → Prop
  | some e => ok e
  | none => False

namespace JumpIsa

variable {ι σ ε : Type} (isa : JumpIsa ι σ ε)

/-- The size of a block. -/
def sizeOf (code : List ι) : ℕ := (code.map isa.size).sum

@[simp] lemma sizeOf_nil : isa.sizeOf [] = 0 := rfl

@[simp] lemma sizeOf_cons (i : ι) (code : List ι) :
    isa.sizeOf (i :: code) = isa.size i + isa.sizeOf code := by
  simp [sizeOf]

@[simp] lemma sizeOf_append (a b : List ι) : isa.sizeOf (a ++ b) = isa.sizeOf a + isa.sizeOf b := by
  simp [sizeOf]

/-- Instruction `i` starts at byte `pc` of the block. -/
def At (code : List ι) (pc : ℕ) (i : ι) : Prop :=
  ∃ before after, code = before ++ i :: after ∧ isa.sizeOf before = pc

variable {isa}

lemma At.lt_sizeOf {code : List ι} {pc : ℕ} {i : ι} (h : isa.At code pc i) :
    pc < isa.sizeOf code := by
  obtain ⟨before, after, rfl, rfl⟩ := h
  have := isa.size_pos i
  simp only [sizeOf_append, sizeOf_cons]
  omega

lemma At.lift {code : List ι} {pc : ℕ} {i : ι} (h : isa.At code pc i) (pre post : List ι) :
    isa.At (pre ++ code ++ post) (isa.sizeOf pre + pc) i := by
  obtain ⟨before, after, rfl, rfl⟩ := h
  exact ⟨pre ++ before, after ++ post, by simp, by simp⟩

lemma At.mk (before : List ι) (i : ι) (after : List ι) :
    isa.At (before ++ i :: after) (isa.sizeOf before) i := ⟨before, after, rfl, rfl⟩

/-! ## Runs -/

variable (isa) in
/-- One instruction of the block, executed at its place. -/
def Step (code : List ι) (a b : ℕ × σ) : Prop :=
  ∃ i d, isa.At code a.1 i ∧ isa.exec i a.2 = .ok (b.2, d) ∧ (b.1 : ℤ) = a.1 + d

variable (isa) in
/-- From the first byte of the block to the byte behind it. -/
def Runs (code : List ι) (s t : σ) : Prop :=
  ReflTransGen (isa.Step code) (0, s) (isa.sizeOf code, t)

lemma Step.lift {code : List ι} {a b : ℕ × σ} (h : isa.Step code a b) (pre post : List ι) :
    isa.Step (pre ++ code ++ post) (isa.sizeOf pre + a.1, a.2) (isa.sizeOf pre + b.1, b.2) := by
  obtain ⟨i, d, hat, hexec, hpc⟩ := h
  refine ⟨i, d, hat.lift pre post, hexec, ?_⟩
  push_cast
  omega

/-- A run inside a block is a run inside any code around it. -/
lemma lift_reach {code : List ι} {a b : ℕ × σ} (h : ReflTransGen (isa.Step code) a b)
    (pre post : List ι) : ReflTransGen (isa.Step (pre ++ code ++ post))
      (isa.sizeOf pre + a.1, a.2) (isa.sizeOf pre + b.1, b.2) := by
  induction h with
  | refl => exact .refl
  | tail _ hstep ih => exact ih.tail (hstep.lift pre post)

lemma Runs.lift {code : List ι} {s t : σ} (h : isa.Runs code s t) (pre post : List ι) :
    ReflTransGen (isa.Step (pre ++ code ++ post))
      (isa.sizeOf pre, s) (isa.sizeOf pre + isa.sizeOf code, t) :=
  lift_reach h pre post

lemma runs_nil (s : σ) : isa.Runs [] s s := .refl

/-- An instruction that moves behind itself. -/
lemma runs_instr {i : ι} {s t : σ} (h : isa.exec i s = .ok (t, isa.size i)) :
    isa.Runs [i] s t := by
  refine .single ⟨i, isa.size i, At.mk [] i [], h, ?_⟩
  simp

lemma Runs.append {a b : List ι} {s t u : σ} (ha : isa.Runs a s t) (hb : isa.Runs b t u) :
    isa.Runs (a ++ b) s u := by
  have h₁ := ha.lift [] b
  have h₂ := hb.lift a []
  simp only [List.nil_append, sizeOf_nil, Nat.zero_add] at h₁
  simp only [List.append_nil] at h₂
  rw [Runs, sizeOf_append]
  exact h₁.trans h₂

/-- A jump over the block behind it. -/
lemma runs_skip {i : ι} {b : List ι} {s t : σ}
    (h : isa.exec i s = .ok (t, isa.size i + isa.sizeOf b)) : isa.Runs (i :: b) s t := by
  refine .single ⟨i, isa.size i + isa.sizeOf b, At.mk [] i b, h, ?_⟩
  simp

/-- A jump from the end of a block to its start repeats the block. -/
lemma runs_back {a b : List ι} {i : ι} {s t u v : σ}
    (ha : ReflTransGen (isa.Step (a ++ i :: b)) (0, s) (isa.sizeOf a, t))
    (hi : isa.exec i t = .ok (u, -isa.sizeOf a)) (hv : isa.Runs (a ++ i :: b) u v) :
    isa.Runs (a ++ i :: b) s v := by
  refine (ha.tail ⟨i, -isa.sizeOf a, At.mk a i b, hi, ?_⟩).trans hv
  simp

/-- `j` falls into the first block, and `k` jumps over the second. -/
lemma runs_ite_true {j k : ι} {t f : List ι} {s s₁ s₂ s₃ : σ}
    (hj : isa.exec j s = .ok (s₁, isa.size j)) (ht : isa.Runs t s₁ s₂)
    (hk : isa.exec k s₂ = .ok (s₃, isa.size k + isa.sizeOf f)) :
    isa.Runs (j :: t ++ k :: f) s s₃ := by
  have h := ((runs_instr hj).append ht).append (runs_skip hk)
  simpa using h

/-- `j` jumps over the first block and the jump at its end. -/
lemma runs_ite_false {j k : ι} {t f : List ι} {s s₁ s₂ : σ}
    (hj : isa.exec j s = .ok (s₁, isa.size j + isa.sizeOf t + isa.size k))
    (hf : isa.Runs f s₁ s₂) : isa.Runs (j :: t ++ k :: f) s s₂ := by
  have hskip : isa.Runs (j :: (t ++ [k])) s s₁ := by
    refine runs_skip ?_
    rw [hj, sizeOf_append, sizeOf_cons, sizeOf_nil]
    push_cast
    congr 2
    ring
  simpa using hskip.append hf

/-- One more round of a loop. -/
lemma runs_loop_true {j r : ι} {c b next : List ι} {s s₁ s₂ s₃ s₄ v : σ} (hc : isa.Runs c s s₁)
    (hj : isa.exec j s₁ = .ok (s₂, isa.size j)) (hb : isa.Runs b s₂ s₃)
    (hr : isa.exec r s₃ = .ok (s₄, -(isa.sizeOf c + isa.size j + isa.sizeOf b : ℤ)))
    (hloop : isa.Runs (c ++ j :: b ++ [r] ++ next) s₄ v) :
    isa.Runs (c ++ j :: b ++ [r] ++ next) s v := by
  have hround := ((hc.append (runs_instr hj)).append hb).lift [] (r :: next)
  have hback : isa.exec r s₃ = .ok (s₄, -(isa.sizeOf (c ++ j :: b) : ℤ)) := by
    rw [hr, sizeOf_append, sizeOf_cons]
    push_cast
    congr 3
    ring
  have hshape : c ++ j :: b ++ [r] ++ next = (c ++ j :: b) ++ r :: next := by simp
  rw [hshape] at hloop ⊢
  refine runs_back ?_ hback hloop
  simpa using hround

/-- The end of a loop. -/
lemma runs_loop_false {j r : ι} {c b : List ι} {s s₁ s₂ : σ} (hc : isa.Runs c s s₁)
    (hj : isa.exec j s₁ = .ok (s₂, isa.size j + isa.sizeOf b + isa.size r)) :
    isa.Runs (c ++ j :: b ++ [r]) s s₂ := by
  have hskip : isa.Runs (j :: (b ++ [r])) s₁ s₂ := by
    refine runs_skip ?_
    rw [hj, sizeOf_append, sizeOf_cons, sizeOf_nil]
    push_cast
    congr 2
    ring
  simpa using hc.append hskip

/-! ## Inductive assertions -/

variable (ok : ε → Prop)

/-- What an execution may do: succeed in `post`, or fail in a tolerated way. -/
def Effect (post : σ → ℤ → Prop) : Except ε (σ × ℤ) → Prop
  | .ok (s, d) => post s d
  | .error e => ok e

variable {ok}

lemma Effect.mono {post post' : σ → ℤ → Prop} {r : Except ε (σ × ℤ)} (h : Effect ok post r)
    (himp : ∀ s d, post s d → post' s d) : Effect ok post' r := by
  cases r with
  | error e => exact h
  | ok sd => exact himp _ _ h

variable (isa ok) in
/-- From byte `pc` in state `s` the block executes an instruction and lands in `A`. -/
def Goes (code : List ι) (pc : ℕ) (s : σ) (A : ℕ → σ → Prop) : Prop :=
  ∃ i, isa.At code pc i ∧
    Effect ok (fun t d => ∃ pc' : ℕ, (pc' : ℤ) = pc + d ∧ A pc' t) (isa.exec i s)

variable (isa ok) in
/-- Assertions at the program counters of a block that its instructions keep. -/
def Certified (code : List ι) (A : ℕ → σ → Prop) : Prop :=
  ∀ pc s, A pc s → pc = isa.sizeOf code ∨ isa.Goes ok code pc s A

variable (isa ok) in
/-- Started in `P` the block ends in `Q`, fails in a tolerated way, or goes on. -/
def Block (P : σ → Prop) (code : List ι) (Q : σ → Prop) : Prop :=
  ∃ A, isa.Certified ok code A ∧ (∀ s, P s → A 0 s) ∧ ∀ s, A (isa.sizeOf code) s → Q s

lemma Goes.lift {code : List ι} {pc : ℕ} {s : σ} {A B : ℕ → σ → Prop}
    (h : isa.Goes ok code pc s A) (pre post : List ι)
    (himp : ∀ k t, A k t → B (isa.sizeOf pre + k) t) :
    isa.Goes ok (pre ++ code ++ post) (isa.sizeOf pre + pc) s B := by
  obtain ⟨i, hat, heff⟩ := h
  refine ⟨i, hat.lift pre post, heff.mono ?_⟩
  rintro t d ⟨pc', hpc', hA⟩
  refine ⟨isa.sizeOf pre + pc', ?_, himp _ _ hA⟩
  push_cast
  omega

/-- An instruction of the block whose displacement is known. -/
lemma Goes.instr (before after : List ι) {i : ι} {s : σ} {A : ℕ → σ → Prop}
    (h : Effect ok (fun t d => ∃ pc' : ℕ, (pc' : ℤ) = isa.sizeOf before + d ∧ A pc' t)
      (isa.exec i s)) :
    isa.Goes ok (before ++ i :: after) (isa.sizeOf before) s A :=
  ⟨i, At.mk before i after, h⟩

lemma Certified.le_sizeOf {code : List ι} {A : ℕ → σ → Prop} (h : isa.Certified ok code A)
    {pc : ℕ} {s : σ} (hA : A pc s) : pc ≤ isa.sizeOf code := by
  rcases h pc s hA with rfl | ⟨i, hat, -⟩
  · exact le_refl _
  · exact le_of_lt hat.lt_sizeOf

lemma Block.mono {P P' Q Q' : σ → Prop} {code : List ι} (h : isa.Block ok P code Q)
    (hP : ∀ s, P' s → P s) (hQ : ∀ s, Q s → Q' s) : isa.Block ok P' code Q' := by
  obtain ⟨A, hA, hpre, hpost⟩ := h
  exact ⟨A, hA, fun s hs => hpre s (hP s hs), fun s hs => hQ s (hpost s hs)⟩

lemma block_nil (P : σ → Prop) : isa.Block ok P [] P := by
  refine ⟨fun pc s => pc = 0 ∧ P s, ?_, fun s hs => ⟨rfl, hs⟩, fun s hs => hs.2⟩
  rintro pc s ⟨rfl, -⟩
  exact .inl rfl

/-- An instruction that moves behind itself. -/
lemma block_instr {i : ι} {P Q : σ → Prop}
    (h : ∀ s, P s → Effect ok (fun t d => d = isa.size i ∧ Q t) (isa.exec i s)) :
    isa.Block ok P [i] Q := by
  have hpos := isa.size_pos i
  refine ⟨fun pc s => (pc = 0 ∧ P s) ∨ (pc = isa.size i ∧ Q s), ?_, fun s hs => .inl ⟨rfl, hs⟩, ?_⟩
  · rintro pc s (⟨rfl, hs⟩ | ⟨rfl, hs⟩)
    · right
      refine Goes.instr [] [] ((h s hs).mono ?_)
      rintro t d ⟨rfl, ht⟩
      exact ⟨isa.size i, by simp, .inr ⟨rfl, ht⟩⟩
    · left
      simp
  · rintro s (⟨h0, -⟩ | ⟨-, hs⟩)
    · simp only [sizeOf_cons, sizeOf_nil] at h0
      omega
    · exact hs

/-- The assertions of one block after another: the first hands over at its end. -/
lemma Block.append {P Q R : σ → Prop} {a b : List ι} (ha : isa.Block ok P a Q)
    (hb : isa.Block ok Q b R) : isa.Block ok P (a ++ b) R := by
  obtain ⟨A, hA, hPA, hAQ⟩ := ha
  obtain ⟨B, hB, hQB, hBR⟩ := hb
  refine ⟨fun pc s => (pc < isa.sizeOf a ∧ A pc s) ∨ ∃ k, pc = isa.sizeOf a + k ∧ B k s,
    ?_, ?_, ?_⟩
  · -- an assertion of `a` holds here, or `a` is over
    have henter : ∀ k t, A k t →
        (k < isa.sizeOf a ∧ A k t) ∨ ∃ j, k = isa.sizeOf a + j ∧ B j t := by
      intro k t hk
      rcases Nat.lt_or_ge k (isa.sizeOf a) with hlt | hge
      · exact .inl ⟨hlt, hk⟩
      · obtain rfl : k = isa.sizeOf a := le_antisymm (hA.le_sizeOf hk) hge
        exact .inr ⟨0, rfl, hQB t (hAQ t hk)⟩
    rintro pc s (⟨hlt, hs⟩ | ⟨k, rfl, hs⟩)
    · right
      rcases hA pc s hs with rfl | hgo
      · exact absurd hlt (lt_irrefl _)
      · have := hgo.lift (B := fun pc s => (pc < isa.sizeOf a ∧ A pc s) ∨
          ∃ k, pc = isa.sizeOf a + k ∧ B k s) [] b fun k t hk => by simpa using henter k t hk
        simpa using this
    · rcases hB k s hs with rfl | hgo
      · left
        simp
      · right
        have := hgo.lift (B := fun pc s => (pc < isa.sizeOf a ∧ A pc s) ∨
          ∃ k, pc = isa.sizeOf a + k ∧ B k s) a [] fun k t hk => .inr ⟨k, rfl, hk⟩
        simpa using this
  · intro s hs
    rcases Nat.eq_zero_or_pos (isa.sizeOf a) with h0 | hpos
    · exact .inr ⟨0, by omega, hQB s (hAQ s (by rw [h0]; exact hPA s hs))⟩
    · exact .inl ⟨hpos, hPA s hs⟩
  · rintro s (⟨hlt, -⟩ | ⟨k, hk, hs⟩)
    · simp only [sizeOf_append] at hlt
      omega
    · obtain rfl : k = isa.sizeOf b := by simpa using hk.symm
      exact hBR s hs

/-- Two alternatives: `j` falls into `t` or jumps behind `k` into `f`, and `k` jumps from the
end of `t` over `f`. -/
lemma block_ite {P T T' F Q : σ → Prop} {j k : ι} {t f : List ι}
    (hj : ∀ s, P s → Effect ok (fun u d => (d = isa.size j ∧ T u) ∨
      (d = isa.size j + isa.sizeOf t + isa.size k ∧ F u)) (isa.exec j s))
    (ht : isa.Block ok T t T')
    (hk : ∀ s, T' s → Effect ok (fun u d => d = isa.size k + isa.sizeOf f ∧ Q u) (isa.exec k s))
    (hf : isa.Block ok F f Q) : isa.Block ok P (j :: t ++ k :: f) Q := by
  obtain ⟨A, hA, hTA, hAT⟩ := ht
  obtain ⟨B, hB, hFB, hBQ⟩ := hf
  have hjpos := isa.size_pos j
  have hkpos := isa.size_pos k
  set J := isa.size j with hJ
  set K := isa.size k with hK
  set a := isa.sizeOf t with ha
  set b := isa.sizeOf f with hb
  have hsize : isa.sizeOf (j :: t ++ k :: f) = J + a + K + b := by simp [← ha, ← hb]; omega
  -- the assertions of the two alternatives, each at its offset
  let M : ℕ → σ → Prop := fun pc s => (pc = 0 ∧ P s) ∨ (∃ i, pc = J + i ∧ A i s) ∨
    (∃ i, pc = J + a + K + i ∧ B i s) ∨ (pc = J + a + K + b ∧ Q s)
  refine ⟨M, ?_, fun s hs => .inl ⟨rfl, hs⟩, ?_⟩
  · rintro pc s (⟨rfl, hs⟩ | ⟨i, rfl, hs⟩ | ⟨i, rfl, hs⟩ | ⟨rfl, -⟩)
    · right
      refine Goes.instr [] (t ++ k :: f) ((hj s hs).mono ?_)
      rintro u d (⟨rfl, hu⟩ | ⟨rfl, hu⟩)
      · exact ⟨J, by simp, .inr (.inl ⟨0, rfl, hTA u hu⟩)⟩
      · exact ⟨J + a + K, by simp, .inr (.inr (.inl ⟨0, rfl, hFB u hu⟩))⟩
    · right
      rcases hA i s hs with rfl | hgo
      · have hgo : isa.Goes ok (j :: t ++ k :: f) (isa.sizeOf (j :: t)) s M := by
          refine Goes.instr (j :: t) f ((hk s (hAT s hs)).mono ?_)
          rintro u d ⟨rfl, hu⟩
          exact ⟨J + a + K + b, by simp; omega, .inr (.inr (.inr ⟨rfl, hu⟩))⟩
        simpa [← ha] using hgo
      · have := hgo.lift (B := M) [j] (k :: f) fun i u hu =>
          .inr (.inl ⟨i, by simp [hJ], hu⟩)
        simpa using this
    · rcases hB i s hs with rfl | hgo
      · exact .inl hsize.symm
      · right
        have hpre : isa.sizeOf (j :: t ++ [k]) = J + a + K := by simp [← ha]; omega
        have := hgo.lift (B := M) (j :: t ++ [k]) [] fun i u hu =>
          .inr (.inr (.inl ⟨i, by rw [hpre], hu⟩))
        rw [hpre] at this
        simpa using this
    · exact .inl hsize.symm
  · rintro s (⟨h0, -⟩ | ⟨i, hi, hs⟩ | ⟨i, hi, hs⟩ | ⟨-, hs⟩)
    · omega
    · have := hA.le_sizeOf hs
      omega
    · obtain rfl : i = b := by omega
      exact hBQ s hs
    · exact hs

/-- A loop: `c` computes a condition, `j` falls into the body `b` or jumps behind the loop,
and `r` jumps back to the condition. -/
lemma block_loop {P C B B' Q : σ → Prop} {j r : ι} {c b : List ι}
    (hc : isa.Block ok P c C)
    (hj : ∀ s, C s → Effect ok (fun u d => (d = isa.size j ∧ B u) ∨
      (d = isa.size j + isa.sizeOf b + isa.size r ∧ Q u)) (isa.exec j s))
    (hb : isa.Block ok B b B')
    (hr : ∀ s, B' s → Effect ok (fun u d =>
      d = -(isa.sizeOf c + isa.size j + isa.sizeOf b : ℤ) ∧ P u) (isa.exec r s)) :
    isa.Block ok P (c ++ j :: b ++ [r]) Q := by
  obtain ⟨A, hA, hPA, hAC⟩ := hc
  obtain ⟨A', hA', hBA', hA'B⟩ := hb
  have hjpos := isa.size_pos j
  have hrpos := isa.size_pos r
  set J := isa.size j with hJ
  set R := isa.size r with hR
  set m := isa.sizeOf c with hm
  set n := isa.sizeOf b with hn
  have hsize : isa.sizeOf (c ++ j :: b ++ [r]) = m + J + n + R := by simp [← hm, ← hn]; omega
  -- the assertions of the condition and of the body, each at its offset
  let M : ℕ → σ → Prop := fun pc s => (∃ i, pc = i ∧ A i s) ∨ (∃ i, pc = m + J + i ∧ A' i s) ∨
    (pc = m + J + n + R ∧ Q s)
  refine ⟨M, ?_, fun s hs => .inl ⟨0, rfl, hPA s hs⟩, ?_⟩
  · rintro pc s (⟨i, rfl, hs⟩ | ⟨i, rfl, hs⟩ | ⟨rfl, -⟩)
    · right
      rcases hA pc s hs with rfl | hgo
      · have hgo : isa.Goes ok (c ++ j :: (b ++ [r])) m s M := by
          refine Goes.instr c (b ++ [r]) ((hj s (hAC s hs)).mono ?_)
          rintro u d (⟨rfl, hu⟩ | ⟨rfl, hu⟩)
          · exact ⟨m + J, by simp [← hm], .inr (.inl ⟨0, rfl, hBA' u hu⟩)⟩
          · exact ⟨m + J + n + R, by simp [← hm]; omega, .inr (.inr ⟨rfl, hu⟩)⟩
        simpa using hgo
      · have := hgo.lift (B := M) [] (j :: b ++ [r]) fun i u hu => .inl ⟨i, by simp, hu⟩
        simpa using this
    · right
      have hpre : isa.sizeOf (c ++ [j]) = m + J := by simp [← hm, ← hJ]
      rcases hA' i s hs with rfl | hgo
      · have hpre' : isa.sizeOf (c ++ j :: b) = m + J + n := by simp [← hm, ← hn]; omega
        have hgo : isa.Goes ok (c ++ j :: b ++ r :: []) (isa.sizeOf (c ++ j :: b)) s M := by
          refine Goes.instr (c ++ j :: b) [] ((hr s (hA'B s hs)).mono ?_)
          rintro u d ⟨rfl, hu⟩
          refine ⟨0, ?_, .inl ⟨0, rfl, hPA u hu⟩⟩
          rw [hpre']
          push_cast
          omega
        rwa [hpre'] at hgo
      · have := hgo.lift (B := M) (c ++ [j]) [r] fun i u hu =>
          .inr (.inl ⟨i, by rw [hpre], hu⟩)
        rw [hpre] at this
        simpa using this
    · exact .inl hsize.symm
  · rintro s (⟨i, hi, hs⟩ | ⟨i, hi, hs⟩ | ⟨-, hs⟩)
    · have := hA.le_sizeOf hs
      omega
    · have := hA'.le_sizeOf hs
      omega
    · exact hs

/-- An assertion with a ghost value. -/
lemma block_exists {α : Type} {P : α → σ → Prop} {Q : σ → Prop} {code : List ι}
    (h : ∀ x, isa.Block ok (P x) code Q) : isa.Block ok (fun s => ∃ x, P x s) code Q := by
  choose A hA hPA hAQ using h
  refine ⟨fun pc s => ∃ x, A x pc s, ?_, ?_, ?_⟩
  · rintro pc s ⟨x, hs⟩
    rcases hA x pc s hs with hend | ⟨i, hat, heff⟩
    · exact .inl hend
    · refine .inr ⟨i, hat, heff.mono ?_⟩
      rintro t d ⟨pc', hpc', ht⟩
      exact ⟨pc', hpc', x, ht⟩
  · rintro s ⟨x, hs⟩
    exact ⟨x, hPA x s hs⟩
  · rintro s ⟨x, hs⟩
    exact hAQ x s hs

/-- A fact that the state has no part in. -/
lemma block_pure {p : Prop} {P Q : σ → Prop} {code : List ι} (h : p → isa.Block ok P code Q) :
    isa.Block ok (fun s => p ∧ P s) code Q := by
  by_cases hp : p
  · exact (h hp).mono (fun _ hs => hs.2) fun _ hs => hs
  · refine ⟨fun _ _ => False, ?_, fun s hs => hp hs.1, ?_⟩
    · intro pc s hs
      exact hs.elim
    · intro s hs
      exact hs.elim

/-! ## Sequences of blocks -/

variable (isa ok) in
/-- Blocks one after the other: each takes the assertion that the one before it left. -/
def Seq : (σ → Prop) → List (List ι) → (σ → Prop) → Prop
  | P, [], Q => ∀ s, P s → Q s
  | P, block :: blocks, Q => ∃ R, isa.Block ok P block R ∧ Seq R blocks Q

lemma Seq.mono {P P' Q Q' : σ → Prop} {blocks : List (List ι)} (h : isa.Seq ok P blocks Q)
    (hP : ∀ s, P' s → P s) (hQ : ∀ s, Q s → Q' s) : isa.Seq ok P' blocks Q' := by
  induction blocks generalizing P P' with
  | nil => exact fun s hs => hQ s (h s (hP s hs))
  | cons block blocks ih =>
    obtain ⟨R, hblock, hrest⟩ := h
    exact ⟨R, hblock.mono hP fun _ hs => hs, ih hrest fun _ hs => hs⟩

lemma Seq.append {P Q R : σ → Prop} {as bs : List (List ι)} (ha : isa.Seq ok P as Q)
    (hb : isa.Seq ok Q bs R) : isa.Seq ok P (as ++ bs) R := by
  induction as generalizing P with
  | nil => exact hb.mono ha fun _ hs => hs
  | cons block blocks ih =>
    obtain ⟨S, hblock, hrest⟩ := ha
    exact ⟨S, hblock, ih hrest⟩

lemma Block.seq {P Q : σ → Prop} {code : List ι} (h : isa.Block ok P code Q) :
    isa.Seq ok P [code] Q := ⟨Q, h, fun _ hs => hs⟩

/-- Blocks one after the other are a block. -/
lemma Seq.flatten {P Q : σ → Prop} {blocks : List (List ι)} (h : isa.Seq ok P blocks Q) :
    isa.Block ok P blocks.flatten Q := by
  induction blocks generalizing P with
  | nil => exact (block_nil P).mono (fun _ hs => hs) h
  | cons block blocks ih =>
    obtain ⟨R, hblock, hrest⟩ := h
    exact hblock.append (ih hrest)

variable (isa ok) in
/-- Code of which each instruction is a block of its own. -/
def Line (P : σ → Prop) (code : List ι) (Q : σ → Prop) : Prop :=
  isa.Seq ok P (code.map ([·])) Q

lemma line_nil {P Q : σ → Prop} (h : ∀ s, P s → Q s) : isa.Line ok P [] Q := h

lemma line_instr {i : ι} {P Q : σ → Prop}
    (h : ∀ s, P s → Effect ok (fun t d => d = isa.size i ∧ Q t) (isa.exec i s)) :
    isa.Line ok P [i] Q := (block_instr h).seq

lemma Line.mono {P P' Q Q' : σ → Prop} {code : List ι} (h : isa.Line ok P code Q)
    (hP : ∀ s, P' s → P s) (hQ : ∀ s, Q s → Q' s) : isa.Line ok P' code Q' := Seq.mono h hP hQ

lemma Line.append {P Q R : σ → Prop} {a b : List ι} (ha : isa.Line ok P a Q)
    (hb : isa.Line ok Q b R) : isa.Line ok P (a ++ b) R := by
  unfold Line
  rw [List.map_append]
  exact Seq.append ha hb

lemma Line.block {P Q : σ → Prop} {code : List ι} (h : isa.Line ok P code Q) :
    isa.Block ok P code Q := by
  have hflat : (code.map ([·])).flatten = code := by
    rw [← List.flatMap_def, List.flatMap_singleton']
  have := Seq.flatten h
  rwa [hflat] at this

/-- An assertion that each instruction keeps. -/
lemma line_invariant {P : σ → Prop} {code : List ι}
    (h : ∀ i ∈ code, ∀ s, P s → Effect ok (fun t d => d = isa.size i ∧ P t) (isa.exec i s)) :
    isa.Line ok P code P := by
  induction code with
  | nil => exact line_nil fun _ hs => hs
  | cons i code ih =>
    exact Line.append (a := [i]) (line_instr (h i (by simp)))
      (ih fun j hj => h j (by simp [hj]))

/-! ## Straight code -/

variable (isa) in
/-- An instruction that only ever moves behind itself. -/
def Straight (i : ι) : Prop := ∀ s t d, isa.exec i s = .ok (t, d) → d = isa.size i

variable (isa) in
/-- One instruction after the other, wherever they want to go. -/
def runStraight : List ι → σ → Except ε σ
  | [], s => .ok s
  | i :: code, s =>
    match isa.exec i s with
    | .ok (t, _) => runStraight code t
    | .error e => .error e

lemma runStraight_append (a b : List ι) (s : σ) :
    isa.runStraight (a ++ b) s = match isa.runStraight a s with
      | .ok t => isa.runStraight b t
      | .error e => .error e := by
  induction a generalizing s with
  | nil => rfl
  | cons i a ih =>
    simp only [List.cons_append, runStraight]
    cases isa.exec i s with
    | error e => rfl
    | ok r => exact ih _

lemma runStraight_append_eq_ok {a b : List ι} {s u : σ} :
    isa.runStraight (a ++ b) s = .ok u ↔
      ∃ t, isa.runStraight a s = .ok t ∧ isa.runStraight b t = .ok u := by
  rw [runStraight_append]
  cases isa.runStraight a s with
  | ok t => simp
  | error e => simp

/-- Straight code runs to its end if no instruction fails. -/
lemma runs_straight {code : List ι} (hstraight : ∀ i ∈ code, isa.Straight i) {s t : σ}
    (h : isa.runStraight code s = .ok t) : isa.Runs code s t := by
  induction code generalizing s with
  | nil =>
    cases h
    exact runs_nil _
  | cons i code ih =>
    rw [runStraight] at h
    cases hexec : isa.exec i s with
    | error e => simp [hexec] at h
    | ok r =>
      obtain ⟨u, d⟩ := r
      simp only [hexec] at h
      obtain rfl := hstraight i (by simp) _ _ _ hexec
      exact (runs_instr hexec).append (ih (fun j hj => hstraight j (by simp [hj])) h)

/-- The outcome of straight code as a block. -/
lemma block_straight {code : List ι} (hstraight : ∀ i ∈ code, isa.Straight i) {P Q : σ → Prop}
    (h : ∀ s, P s → match isa.runStraight code s with
      | .ok t => Q t
      | .error e => ok e) : isa.Block ok P code Q := by
  induction code generalizing P with
  | nil => exact (block_nil P).mono (fun _ hs => hs) h
  | cons i code ih =>
    -- behind the instruction: what the rest of the code makes of the state is right
    let R : σ → Prop := fun s => match isa.runStraight code s with
      | .ok t => Q t
      | .error e => ok e
    have hi : isa.Block ok P [i] R := by
      refine block_instr fun s hs => ?_
      have hs := h s hs
      rw [runStraight] at hs
      cases hexec : isa.exec i s with
      | error e =>
        rw [hexec] at hs
        exact hs
      | ok r =>
        rw [hexec] at hs
        exact ⟨hstraight i (by simp) _ _ _ hexec, hs⟩
    exact hi.append (ih (fun j hj => hstraight j (by simp [hj])) fun s hs => hs)

end JumpIsa

end PhantomShell
