import PhantomShell.Lib.Labels

/-!
# Two runs in lockstep

`JumpIsa.twin` executes each instruction on two states that look the same to it, and asks the
second one to keep up with the first. What is asserted of one state holds of two equal ones
(`Block.twin`).
-/

namespace PhantomShell

variable {ι σ ε β : Type}

namespace JumpIsa

/-- Instructions on two states that look the same to them. -/
def twin (isa : JumpIsa ι σ ε) (same : σ → σ → Prop) [DecidableRel same] :
    JumpIsa ι (σ × σ) (Option ε) where
  size := isa.size
  size_pos := isa.size_pos
  exec i p :=
    if same p.1 p.2 then
      match isa.exec i p.1, isa.exec i p.2 with
      | .ok (s, d), .ok (t, d') => if d = d' then .ok ((s, t), d) else .error none
      | .ok _, .error _ => .error none
      | .error e, _ => .error (some e)
    else .error none

variable {isa : JumpIsa ι σ ε} {same : σ → σ → Prop} [DecidableRel same] {ok : ε → Prop}

/-- The second state goes where the first one goes, and both are related there. -/
lemma effect_twin {i : ι} {s t : σ} {post : σ × σ → ℤ → Prop} :
    Effect (Tolerated ok) post ((isa.twin same).exec i (s, t)) ↔ same s t ∧
      Effect ok (fun s' d => ∃ t', isa.exec i t = .ok (t', d) ∧ post (s', t') d)
        (isa.exec i s) := by
  simp only [twin]
  by_cases hsame : same s t
  · rw [if_pos hsame, and_iff_right hsame]
    cases hs : isa.exec i s with
    | error e => exact Iff.rfl
    | ok r =>
      cases ht : isa.exec i t with
      | error e =>
        refine ⟨fun h => h.elim, ?_⟩
        rintro ⟨t', heq, -⟩
        cases heq
      | ok r' =>
        dsimp only
        split
        · rename_i hd
          constructor
          · exact fun h => ⟨r'.1, by rw [hd], h⟩
          · rintro ⟨t', heq, h⟩
            cases heq
            exact h
        · rename_i hd
          refine ⟨fun h => h.elim, ?_⟩
          rintro ⟨t', heq, -⟩
          cases heq
          exact (hd rfl).elim
  · rw [if_neg hsame]
    exact ⟨fun h => h.elim, fun h => (hsame h.1).elim⟩

/-- What is asserted of a state and its log holds of two equal states. -/
lemma Block.twin {label : ι → σ → List β} {P Q : σ × List β → Prop} {code : List ι}
    (h : (isa.logged label).Block ok P code Q) (same : σ → σ → Prop) [DecidableRel same]
    (hsame : ∀ s, same s s) :
    ((isa.twin same).logged fun i p => label i p.1).Block (Tolerated ok)
      (fun s => P (s.1.1, s.2) ∧ s.1.1 = s.1.2) code (fun s => Q (s.1.1, s.2) ∧ s.1.1 = s.1.2) := by
  obtain ⟨A, hA, hpre, hpost⟩ := h
  refine ⟨fun pc s => A pc (s.1.1, s.2) ∧ s.1.1 = s.1.2, ?_, fun s hs => ⟨hpre _ hs.1, hs.2⟩,
    fun s hs => ⟨hpost _ hs.1, hs.2⟩⟩
  rintro pc ⟨⟨s, t⟩, log⟩ ⟨hs, heq⟩
  obtain rfl : s = t := heq
  rcases hA pc _ hs with hend | ⟨i, hat, heff⟩
  · exact .inl hend
  · refine .inr ⟨i, hat, effect_logged.mpr (effect_twin.mpr ⟨hsame s, ?_⟩)⟩
    have heff := effect_logged.mp heff
    cases hexec : isa.exec i s with
    | error e =>
      rw [hexec] at heff
      exact heff
    | ok r =>
      rw [hexec] at heff
      obtain ⟨pc', hpc', hA'⟩ := heff
      exact ⟨r.1, rfl, pc', hpc', hA', rfl⟩

end JumpIsa

end PhantomShell
