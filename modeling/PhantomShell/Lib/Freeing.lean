import PhantomShell.Lib.Chain

/-!
# What is freed

The blocks that have been freed are kept in order. A program stops when it frees a block again or
looks into one that is gone. `Frees m l` holds if `m` frees exactly the blocks `l`, whatever else is
gone.
-/

namespace PhantomShell

variable {α β : Type}

/-- The state is what has been freed. -/
abbrev FreeM (β : Type) := StateT (List β) Option

/-- These blocks are freed, in this order. -/
def Frees (m : FreeM β Unit) (l : List β) : Prop :=
  l.Nodup → ∀ freed, (∀ b ∈ l, b ∉ freed) → m freed = some ((), freed ++ l)

lemma freeM_bind {γ δ : Type} (m : FreeM β γ) (f : γ → FreeM β δ) (freed : List β) :
    (m >>= f) freed = (m freed).bind fun r => f r.1 r.2 := rfl

lemma frees_nil : Frees (pure () : FreeM β Unit) [] := fun _ freed _ => by
  rw [List.append_nil]
  rfl

/-- One after the other. -/
lemma Frees.bind {m : FreeM β Unit} {f : Unit → FreeM β Unit} {l l' : List β} (h : Frees m l)
    (h' : Frees (f ()) l') : Frees (m >>= f) (l ++ l') := by
  intro hnodup freed hfresh
  obtain ⟨hl, hl', hdisjoint⟩ := List.nodup_append.mp hnodup
  rw [freeM_bind, h hl freed fun b hb => hfresh b (List.mem_append_left _ hb), Option.bind_some,
    ← List.append_assoc]
  refine h' hl' (freed ++ l) fun b hb hmem => ?_
  cases List.mem_append.mp hmem with
  | inl hmem => exact hfresh b (List.mem_append_right _ hb) hmem
  | inr hmem => exact hdisjoint b hmem b hb rfl

variable [DecidableEq β]

/-- `free` -/
def release (b : β) : FreeM β Unit := fun freed => if b ∈ freed then none else some ((), freed ++ [b])

/-- A look into a block. -/
def touch (b : β) : FreeM β Unit := fun freed => if b ∈ freed then none else some ((), freed)

lemma frees_release (b : β) : Frees (release b) [b] := fun _ _ h =>
  if_neg (h b List.mem_cons_self)

/-- A block that will be freed is still there. -/
lemma frees_touch {b : β} {f : Unit → FreeM β Unit} {l : List β} (hb : b ∈ l) (h : Frees (f ()) l) :
    Frees (touch b >>= f) l := by
  intro hnodup freed hfresh
  rw [freeM_bind, touch, if_neg (hfresh b hb), Option.bind_some]
  exact h hnodup freed hfresh

/-! ## Lists -/

/-- `while (p) { next = p->next; free(p); p = next; }` -/
def freeChain (next : α → Option (Option ℕ)) (block : ℕ → β) (mem : List α)
    (free : ℕ → FreeM β Unit) : ℕ → Option ℕ → FreeM β Unit
  | _, none => pure ()
  | 0, some _ => failure
  | fuel + 1, some i => do
    touch (block i)
    match mem[i]?.bind next with
    | some p => do
      free i
      freeChain next block mem free fuel p
    | none => failure

/-- A list is freed element by element. -/
lemma Segment.frees {next : α → Option (Option ℕ)} {block : ℕ → β} {mem : List α}
    {free : ℕ → FreeM β Unit} {p : Option ℕ} {l : List ℕ} (h : Segment next mem p l none)
    {orders : List (List β)}
    (horders : List.Forall₂ (fun i order => block i ∈ order ∧ Frees (free i) order) l orders)
    {fuel : ℕ} (hfuel : l.length ≤ fuel) :
    Frees (freeChain next block mem free fuel p) orders.flatten := by
  generalize hq : (none : Option ℕ) = q at h
  induction h generalizing orders fuel with
  | nil =>
    subst hq
    cases horders
    rw [freeChain]
    exact frees_nil
  | @cons i cell p q l hcell hnext hrest ih =>
    cases horders with
    | cons horder horders =>
      obtain ⟨fuel, rfl⟩ : ∃ k, fuel = k + 1 := ⟨fuel - 1, by rw [List.length_cons] at hfuel; omega⟩
      rw [freeChain, hcell, Option.bind_some, hnext, List.flatten_cons]
      refine frees_touch (List.mem_append_left _ horder.1) (.bind horder.2 (ih horders ?_ hq))
      rw [List.length_cons] at hfuel
      omega

end PhantomShell
