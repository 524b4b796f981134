import PhantomShell.Lib.JumpCode

/-!
# Code that is executed chunk by chunk

Each chunk is a block of its own: it starts in the state that the one before it left, and its jumps do
not leave it. `Seq` is partial correctness of such a sequence; `RunsAll` is its run, with the rules for
sequences and for straight code that is cut into single instructions.
-/

namespace PhantomShell

namespace JumpIsa

variable {ι σ ε : Type} {isa : JumpIsa ι σ ε} {ok : ε → Prop}

/-! ## Runs -/

variable (isa) in
/-- The chunks run one after the other. -/
def RunsAll : List (List ι) → σ → σ → Prop
  | [], s, t => s = t
  | chunk :: chunks, s, t => ∃ u, isa.Runs chunk s u ∧ RunsAll chunks u t

lemma RunsAll.append {as bs : List (List ι)} {s t u : σ} (ha : isa.RunsAll as s t)
    (hb : isa.RunsAll bs t u) : isa.RunsAll (as ++ bs) s u := by
  induction as generalizing s with
  | nil =>
    obtain rfl : s = t := ha
    exact hb
  | cons chunk chunks ih =>
    obtain ⟨v, hchunk, hrest⟩ := ha
    exact ⟨v, hchunk, ih hrest⟩

/-- Straight code runs instruction by instruction. -/
lemma runsAll_straight {code : List ι} (hstraight : ∀ i ∈ code, isa.Straight i) {s t : σ}
    (h : isa.runStraight code s = .ok t) : isa.RunsAll (code.map ([·])) s t := by
  induction code generalizing s with
  | nil =>
    cases h
    rfl
  | cons i code ih =>
    rw [runStraight] at h
    cases hexec : isa.exec i s with
    | error e => simp [hexec] at h
    | ok r =>
      obtain ⟨u, d⟩ := r
      simp only [hexec] at h
      obtain rfl := hstraight i List.mem_cons_self _ _ _ hexec
      exact ⟨u, runs_instr hexec, ih (fun j hj => hstraight j (List.mem_cons_of_mem _ hj)) h⟩

/-! ## Assertions -/

/-- The outcome of straight code as a line. -/
lemma line_straight {code : List ι} (hstraight : ∀ i ∈ code, isa.Straight i) {P Q : σ → Prop}
    (h : ∀ s, P s → match isa.runStraight code s with
      | .ok t => Q t
      | .error e => ok e) : isa.Line ok P code Q := by
  induction code generalizing P with
  | nil => exact line_nil h
  | cons i code ih =>
    have hcode := ih (fun j hj => hstraight j (List.mem_cons_of_mem _ hj)) fun _ hs => hs
    apply Line.append (a := [i]) (line_instr _) hcode
    intro s hs
    have hs := h s hs
    rw [runStraight] at hs
    cases hexec : isa.exec i s with
    | error e =>
      rw [hexec] at hs
      exact hs
    | ok r =>
      rw [hexec] at hs
      exact ⟨hstraight i List.mem_cons_self _ _ _ hexec, hs⟩

/-- An assertion with a ghost value. -/
lemma seq_exists {α : Type} {P : α → σ → Prop} {Q : σ → Prop} {chunks : List (List ι)}
    (h : ∀ x, isa.Seq ok (P x) chunks Q) : isa.Seq ok (fun s => ∃ x, P x s) chunks Q := by
  induction chunks generalizing P with
  | nil =>
    intro s hs
    obtain ⟨x, hs⟩ := hs
    exact h x s hs
  | cons chunk chunks ih =>
    choose R hchunk hrest using h
    refine ⟨fun s => ∃ x, R x s, block_exists fun x => ?_, ih hrest⟩
    exact (hchunk x).mono (fun _ hs => hs) fun s hs => ⟨x, hs⟩

/-- A fact that the state has no part in. -/
lemma seq_pure {p : Prop} {P Q : σ → Prop} {chunks : List (List ι)} (h : p → isa.Seq ok P chunks Q) :
    isa.Seq ok (fun s => p ∧ P s) chunks Q :=
  (seq_exists fun x : PLift p => h x.down).mono (fun _ hs => ⟨⟨hs.1⟩, hs.2⟩) fun _ hs => hs

end JumpIsa

end PhantomShell
