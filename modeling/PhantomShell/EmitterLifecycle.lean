import Mathlib.Data.List.Forall2
import PhantomShell.Lib.Freeing
import PhantomShell.RawEmission

/-!
# The pages of an emitter are freed

`compiler_emitter_buffered_destroy` follows the links of the pages. Whatever was emitted before, as long
as no byte was written outside of a page: the pages are linked in the order of their allocation
(`PagesOwned`), so that each of them is freed once and none is left.
-/

namespace PhantomShell

/-- `compiler_emitter_buffered_destroy`. The link is read before its page is freed. -/
def compilerEmitterBufferedDestroy (e : BytecodeEmitter) : FreeM ℕ Unit :=
  freeChain (fun page => some page.next) id e.pages release e.pages.length e.firstPage

/-- A call of `emitter_emit_buffered` or of `emitter_emit_raw`. -/
inductive Emission
  | buffered (data : List UInt8)
  | raw (data : List UInt8)

/-- The emitter after a call. -/
def Emission.run (e : BytecodeEmitter) : Emission → Option BytecodeEmitter
  | .buffered data => emitterEmitBuffered e data
  | .raw data => (emitterEmitRaw e data).map (·.1)

/-- The emitter after a sequence of calls. -/
def runEmissions (e : BytecodeEmitter) (calls : List Emission) : Option BytecodeEmitter :=
  calls.foldlM Emission.run e

/-! ## Who owns the pages -/

/-- All pages are reached from the first one, and the emitter knows the last one. -/
structure PagesOwned (p : ℕ) (e : BytecodeEmitter) : Prop where
  pageSize : e.pageSize = p
  linked : PagesLinked p e.pages
  first : e.firstPage = if e.pages.length = 0 then none else some 0
  last : e.lastPage = lastAddress e.pages

lemma pagesOwned_new (p : ℕ) : PagesOwned p (compilerEmitterBufferedNew p) where
  pageSize := rfl
  linked := ⟨fun _ h => absurd h List.not_mem_nil, fun i h => absurd h (Nat.not_lt_zero i)⟩
  first := rfl
  last := rfl

/-- A copy inside of a page leaves the links. -/
lemma PagesLinked.memcpy {p off : ℕ} {pages pages' : List Page} {page : Option ℕ} {data : List UInt8}
    (h : PagesLinked p pages) (hcopy : memcpyToPage pages page off data = some pages') :
    PagesLinked p pages' ∧ pages'.length = pages.length := by
  by_cases hdata : data = []
  · rw [hdata, memcpyToPage_nil] at hcopy
    obtain rfl := Option.some.inj hcopy
    exact ⟨h, rfl⟩
  · have hcopy' := hcopy
    simp only [memcpyToPage, if_neg hdata, Option.bind_eq_bind, Option.bind_eq_some_iff] at hcopy'
    obtain ⟨i, rfl, pg, hpg, -⟩ := hcopy'
    have hi := (List.getElem?_eq_some_iff.mp hpg).1
    have hfit : off + data.length ≤ p := by
      by_contra hfit
      rw [memcpyToPage_eq_none h _ _ hdata (by omega)] at hcopy
      cases hcopy
    obtain ⟨pages₁, hcopy₁, hlinked, hlength, -⟩ := memcpyToPage_linked h i off data hi hfit
    obtain rfl := Option.some.inj (hcopy.symm.trans hcopy₁)
    exact ⟨hlinked, hlength⟩

/-- A page more. -/
lemma PagesOwned.allocate {p : ℕ} {e : BytecodeEmitter} (h : PagesOwned p e) (size capacity : ℕ) :
    PagesOwned p
      { e with
        pages := emitterAllocateNewPage p e.lastPage e.pages
        firstPage := e.firstPage.orElse fun _ => some e.pages.length
        lastPage := some e.pages.length
        size := size
        capacity := capacity } := by
  obtain ⟨pages, halloc, hlinked, hlength, -⟩ := emitterAllocateNewPage_linked h.linked
  rw [← h.last] at halloc
  subst halloc
  refine ⟨h.pageSize, hlinked, ?_, ?_⟩
  · show e.firstPage.orElse _ = _
    rw [hlength, if_neg (Nat.succ_ne_zero _), h.first]
    by_cases hpages : e.pages.length = 0
    · rw [if_pos hpages, hpages]
      rfl
    · rw [if_neg hpages]
      rfl
  · show some e.pages.length = lastAddress _
    rw [lastAddress, hlength, if_neg (Nat.succ_ne_zero _), Nat.add_sub_cancel]

/-- A copy into the pages. -/
lemma PagesOwned.memcpy {p off : ℕ} {e : BytecodeEmitter} {pages : List Page} {page : Option ℕ}
    {data : List UInt8} (h : PagesOwned p e) (hcopy : memcpyToPage e.pages page off data = some pages)
    (size : ℕ) : PagesOwned p { e with pages := pages, size := size } := by
  obtain ⟨hlinked, hlength⟩ := h.linked.memcpy hcopy
  refine ⟨h.pageSize, hlinked, ?_, ?_⟩
  · show e.firstPage = _
    rw [h.first, hlength]
  · show e.lastPage = _
    rw [h.last, lastAddress, lastAddress, hlength]

lemma PagesOwned.normalWrite {p : ℕ} {e e' : BytecodeEmitter} {data : List UInt8}
    (h : PagesOwned p e) (hwrite : emitterNormalWrite e data = some e') : PagesOwned p e' := by
  simp only [emitterNormalWrite, Option.bind_eq_bind, Option.bind_eq_some_iff, Option.some.injEq] at hwrite
  obtain ⟨pages, hcopy, rfl⟩ := hwrite
  exact h.memcpy hcopy _

/-- `emitter_emit_buffered` keeps the pages together. -/
lemma PagesOwned.buffered {p : ℕ} {e e' : BytecodeEmitter} {data : List UInt8} (h : PagesOwned p e)
    (hemit : emitterEmitBuffered e data = some e') : PagesOwned p e' := by
  obtain rfl := h.pageSize
  have halloc := h.allocate e.size (e.capacity + e.pageSize)
  rw [emitterEmitBuffered] at hemit
  dsimp only at hemit
  split at hemit
  · split at hemit
    · exact halloc.normalWrite hemit
    · simp only [Option.bind_eq_bind, Option.bind_eq_some_iff, Option.some.injEq] at hemit
      obtain ⟨pages, hfirst, pages', hsecond, rfl⟩ := hemit
      -- the size is written behind the second copy
      have hcopied := halloc.memcpy hfirst e.size
      exact hcopied.memcpy hsecond _
  · exact h.normalWrite hemit

/-- The loop of `emitter_emit_raw` works on the last page of an emitter that has one. -/
lemma PagesOwned.rawWrite {fuel : ℕ} {e e' : BytecodeEmitter} {data : List UInt8} {p : ℕ}
    (h : PagesOwned p e) (hfirst : e.firstPage = some 0)
    (hwrite : PhantomShell.rawWrite fuel e e.lastPage data = some e') : PagesOwned p e' := by
  induction fuel generalizing e data with
  | zero => cases hwrite
  | succ fuel ih =>
    obtain rfl := h.pageSize
    rw [PhantomShell.rawWrite] at hwrite
    simp only [Option.bind_eq_bind, Option.bind_eq_some_iff] at hwrite
    obtain ⟨pages, hcopy, hwrite⟩ := hwrite
    split at hwrite
    · have hcopied := h.memcpy hcopy e.size
      have halloc := hcopied.allocate
        (e.size + min (e.pageSize - e.size % e.pageSize) data.length) (e.capacity + e.pageSize)
      dsimp only at halloc
      rw [hfirst] at halloc hwrite
      exact ih halloc rfl hwrite
    · rw [← Option.some.inj hwrite]
      exact h.memcpy hcopy _

/-- The first page of `emitter_emit_raw`. -/
lemma PagesOwned.rawFirstPage {p : ℕ} {e : BytecodeEmitter} (h : PagesOwned p e) :
    PagesOwned p (rawFirstPage e) ∧ (PhantomShell.rawFirstPage e).firstPage = some 0 := by
  obtain rfl := h.pageSize
  have hfirst := h.first
  unfold PhantomShell.rawFirstPage
  by_cases hpages : e.pages.length = 0
  · rw [if_pos hpages] at hfirst
    have hlast := h.last
    rw [lastAddress, if_pos hpages] at hlast
    have halloc := h.allocate e.size (e.capacity + e.pageSize)
    rw [hfirst, hlast] at halloc
    rw [if_pos hfirst]
    exact ⟨halloc, congrArg some hpages⟩
  · rw [if_neg hpages] at hfirst
    rw [if_neg (by rw [hfirst]; exact Option.some_ne_none 0)]
    exact ⟨h, hfirst⟩

/-- `emitter_emit_raw` keeps the pages together. -/
lemma PagesOwned.raw {p : ℕ} {e e' : BytecodeEmitter} {data : List UInt8} {executed : List (List UInt8)}
    (h : PagesOwned p e) (hemit : emitterEmitRaw e data = some (e', executed)) : PagesOwned p e' := by
  unfold emitterEmitRaw at hemit
  split at hemit
  · cases hemit
    exact h
  · obtain ⟨hpage, hfirst⟩ := h.rawFirstPage
    simp only [Option.bind_eq_bind, Option.bind_eq_some_iff, Option.some.injEq, Prod.mk.injEq] at hemit
    obtain ⟨_, hwrite, rfl, -⟩ := hemit
    exact hpage.rawWrite hfirst hwrite

/-- The step lemma. -/
lemma PagesOwned.run {p : ℕ} {e e' : BytecodeEmitter} {call : Emission} (h : PagesOwned p e)
    (hrun : call.run e = some e') : PagesOwned p e' := by
  cases call with
  | buffered data => exact h.buffered hrun
  | raw data =>
    obtain ⟨⟨e₁, executed⟩, hemit, rfl⟩ := Option.map_eq_some_iff.mp hrun
    exact h.raw hemit

/-- The run lemma. -/
lemma PagesOwned.runEmissions {p : ℕ} {e e' : BytecodeEmitter} {calls : List Emission}
    (h : PagesOwned p e) (hrun : runEmissions e calls = some e') : PagesOwned p e' := by
  induction calls generalizing e with
  | nil =>
    obtain rfl := Option.some.inj hrun
    exact h
  | cons call calls ih =>
    obtain ⟨e₁, hcall, hrest⟩ := Option.bind_eq_some_iff.mp hrun
    exact ih (h.run hcall) hrest

/-! ## Freeing the pages -/

/-- The pages from `n` on. -/
lemma PagesLinked.segment {p : ℕ} {pages : List Page} (h : PagesLinked p pages) {m n : ℕ}
    (hn : n + m = pages.length) : Segment (fun page => some page.next) pages
      (if m = 0 then none else some n) (List.range' n m) none := by
  induction m generalizing n with
  | zero => exact .nil none
  | succ m ih =>
    have hlt : n < pages.length := by omega
    have hnext := h.next n hlt
    rw [if_neg (Nat.succ_ne_zero m), List.range'_succ]
    refine .cons (List.getElem?_eq_getElem hlt) (congrArg some hnext) ?_
    by_cases hm : m = 0
    · rw [if_neg (by omega)]
      subst hm
      exact .nil none
    · have hrest := ih (n := n + 1) (by omega)
      rw [if_neg hm] at hrest
      rw [if_pos (by omega)]
      exact hrest

/-- Whatever was emitted: `compiler_emitter_buffered_destroy` never reads a page that is gone or a null
pointer, and it frees each page of the emitter exactly once, and nothing else. -/
theorem emitter_destroyed {p : ℕ} {calls : List Emission} {e : BytecodeEmitter}
    (hrun : runEmissions (compilerEmitterBufferedNew p) calls = some e) :
    compilerEmitterBufferedDestroy e [] = some ((), List.range e.pages.length) := by
  have howned := (pagesOwned_new p).runEmissions hrun
  have hsegment := howned.linked.segment (Nat.zero_add e.pages.length)
  rw [← howned.first] at hsegment
  have hpages : List.Forall₂ (fun i order => id i ∈ order ∧ Frees (release i) order)
      (List.range' 0 e.pages.length) ((List.range' 0 e.pages.length).map ([·])) := by
    rw [List.forall₂_map_right_iff, List.forall₂_same]
    exact fun i _ => ⟨List.mem_singleton_self i, frees_release i⟩
  have hfrees := hsegment.frees hpages (List.length_range'.le)
  rw [← List.flatMap_def, List.flatMap_singleton', ← List.range_eq_range'] at hfrees
  exact hfrees List.nodup_range [] fun _ _ => List.not_mem_nil

theorem emitter_destroyed_mixed : ∃ e, runEmissions (compilerEmitterBufferedNew 2)
    [.buffered [1], .raw [2, 3, 4, 5], .buffered [6, 7]] = some e ∧
    compilerEmitterBufferedDestroy e [] = some ((), List.range e.pages.length) := by
  obtain ⟨e, hrun⟩ := Option.isSome_iff_exists.mp (by decide : (runEmissions
    (compilerEmitterBufferedNew 2) [.buffered [1], .raw [2, 3, 4, 5], .buffered [6, 7]]).isSome)
  exact ⟨e, hrun, emitter_destroyed hrun⟩

end PhantomShell
