import PhantomShell.Emitter

/-!
# The emitter as a byte log

`EmitterHolds p e log` is the invariant of a buffered emitter with page size `p`: its pages
are linked in allocation order, less than one page is free, and the first `size` bytes of
their concatenation are `log`. A chunk that fits in the free bytes and one more page keeps
it (`emitterEmitBuffered_holds`); a longer chunk is written outside the pages or leaves
`size` above `capacity`.
-/

namespace PhantomShell

/-- The pages of an emitter are full-sized and linked in the order of their addresses. -/
structure PagesLinked (p : ℕ) (pages : List Page) : Prop where
  full : ∀ pg ∈ pages, pg.bytes.length = p
  next : ∀ (i : ℕ) (h : i < pages.length),
    pages[i].next = if i + 1 < pages.length then some (i + 1) else none

/-- The bytes of all pages, one page after the other. -/
def pagesBytes (pages : List Page) : List UInt8 := (pages.map Page.bytes).flatten

/-- The address of the last page, `none` while there is no page. -/
def lastAddress (pages : List Page) : Option ℕ :=
  if pages.length = 0 then none else some (pages.length - 1)

/-- `e` is a buffered emitter of page size `p` that holds the bytes `log`. -/
structure EmitterHolds (p : ℕ) (e : BytecodeEmitter) (log : List UInt8) : Prop where
  pageSize : e.pageSize = p
  linked : PagesLinked p e.pages
  first : e.firstPage = if e.pages.length = 0 then none else some 0
  last : e.lastPage = lastAddress e.pages
  capacity : e.capacity = e.pages.length * p
  size : e.size = log.length
  size_le : e.size ≤ e.capacity
  room : e.capacity < e.size + p
  bytes : (pagesBytes e.pages).take log.length = log

lemma emitterHolds_new {p : ℕ} (hp : 0 < p) :
    EmitterHolds p (compilerEmitterBufferedNew p) [] where
  pageSize := rfl
  linked := ⟨by simp [compilerEmitterBufferedNew], by simp [compilerEmitterBufferedNew]⟩
  first := rfl
  last := rfl
  capacity := by simp [compilerEmitterBufferedNew]
  size := rfl
  size_le := le_refl _
  room := by simpa [compilerEmitterBufferedNew] using hp
  bytes := by simp

lemma length_pagesBytes {p : ℕ} {pages : List Page} (h : PagesLinked p pages) :
    (pagesBytes pages).length = pages.length * p := by
  rw [pagesBytes, length_flatten_eq (p := p), List.length_map]
  intro row hrow
  obtain ⟨pg, hpg, rfl⟩ := List.mem_map.mp hrow
  exact h.full pg hpg

/-! ## Copying into a page -/

lemma memcpyToPage_nil (pages : List Page) (page : Option ℕ) (off : ℕ) :
    memcpyToPage pages page off [] = some pages := by
  simp [memcpyToPage]

/-- A copy that stays inside a page is a write into the concatenated pages; the links are
not touched. -/
lemma memcpyToPage_linked {p : ℕ} {pages : List Page} (h : PagesLinked p pages) (i off : ℕ)
    (data : List UInt8) (hi : i < pages.length) (hfit : off + data.length ≤ p) :
    ∃ pages', memcpyToPage pages (some i) off data = some pages' ∧ PagesLinked p pages' ∧
      pages'.length = pages.length ∧
      pagesBytes pages' = splice (pagesBytes pages) (i * p + off) data := by
  by_cases hd : data = []
  · subst hd
    exact ⟨pages, memcpyToPage_nil _ _ _, h, rfl, by simp⟩
  have hlen : pages[i].bytes.length = p := h.full _ (List.getElem_mem hi)
  refine ⟨pages.set i { pages[i] with bytes := splice pages[i].bytes off data }, ?_, ⟨?_, ?_⟩,
    by simp, ?_⟩
  · simp [memcpyToPage, hd, hi, hlen, hfit]
  · intro pg hpg
    rcases List.mem_or_eq_of_mem_set hpg with hpg | rfl
    · exact h.full pg hpg
    · rw [length_splice (by rw [hlen]; exact hfit), hlen]
  · intro j hj
    rw [List.length_set] at hj ⊢
    rw [← h.next j hj, List.getElem_set]
    split
    · next hij => subst hij; rfl
    · rfl
  · have hrows : ∀ row ∈ pages.map Page.bytes, row.length = p := by
      intro row hrow
      obtain ⟨pg, hpg, rfl⟩ := List.mem_map.mp hrow
      exact h.full pg hpg
    have hset := flatten_set_splice (pages.map Page.bytes) i off data (by simpa using hi) hrows hfit
    rw [pagesBytes, pagesBytes, List.map_set]
    simpa using hset

/-- A copy that runs over the end of the page is refused. -/
lemma memcpyToPage_eq_none {p : ℕ} {pages : List Page} (h : PagesLinked p pages)
    (page : Option ℕ) (off : ℕ) {data : List UInt8} (hd : data ≠ [])
    (hfit : p < off + data.length) : memcpyToPage pages page off data = none := by
  simp only [memcpyToPage, hd, if_false]
  cases page with
  | none => rfl
  | some i =>
    cases hpg : pages[i]? with
    | none => simp [hpg]
    | some pg =>
      have hlen : pg.bytes.length = p := h.full pg (List.mem_of_getElem? hpg)
      simp [hpg, hlen, Nat.not_le.mpr hfit]

/-! ## Allocating a page -/

/-- The new page is linked behind the last one and holds zeroes. -/
lemma emitterAllocateNewPage_linked {p : ℕ} {pages : List Page} (h : PagesLinked p pages) :
    ∃ pages', emitterAllocateNewPage p (lastAddress pages) pages = pages' ∧
      PagesLinked p pages' ∧ pages'.length = pages.length + 1 ∧
      pagesBytes pages' = pagesBytes pages ++ List.replicate p 0 := by
  refine ⟨_, rfl, ?_⟩
  rcases List.eq_nil_or_concat pages with rfl | ⟨init, pg, hpages⟩
  · refine ⟨⟨?_, ?_⟩, ?_, ?_⟩ <;> simp [emitterAllocateNewPage, lastAddress, pagesBytes]
  rw [List.concat_eq_append] at hpages
  subst hpages
  have halloc : emitterAllocateNewPage p (lastAddress (init ++ [pg])) (init ++ [pg])
      = init ++ [{ pg with next := some (init.length + 1) },
          ⟨List.replicate p 0, none⟩] := by
    have hmod : (init ++ [pg]).modify init.length
        (fun pg => { pg with next := some (init.length + 1) })
        = init ++ [{ pg with next := some (init.length + 1) }] := by
      rw [List.modify_eq_set_getElem?]
      simp
    simp [emitterAllocateNewPage, lastAddress, hmod]
  rw [halloc]
  refine ⟨⟨?_, ?_⟩, by simp, by simp [pagesBytes]⟩
  · intro q hq
    simp only [List.mem_append, List.mem_cons, List.not_mem_nil, or_false] at hq
    rcases hq with hq | rfl | rfl
    · exact h.full q (by simp [hq])
    · exact h.full pg (by simp)
    · simp
  · intro i hi
    simp only [List.length_append, List.length_cons, List.length_nil] at hi ⊢
    rcases Nat.lt_trichotomy i init.length with hlt | rfl | hgt
    · have hold := h.next i (by simp; omega)
      rw [if_pos (by simp; omega)] at hold
      rw [if_pos (by omega), ← hold]
      simp [List.getElem_append_left, hlt]
    · simp
    · have : i = init.length + 1 := by omega
      subst this
      simp [List.getElem_append_right]

/-! ## One emission -/

/-- The bytes a chunk may have when `s` bytes are in the emitter: the rest of the last page
and one new page. -/
def emitterRoom (p s : ℕ) : ℕ := (p - s % p) % p + p

/-- The free bytes of the last page, read off the size alone. -/
lemma EmitterHolds.free_eq {p : ℕ} {e : BytecodeEmitter} {log : List UInt8}
    (h : EmitterHolds p e log) : e.capacity - e.size = (p - log.length % p) % p := by
  have hp : 0 < p := by have := h.room; have := h.size_le; omega
  have hcap := h.capacity
  have hsize := h.size
  have hle := h.size_le
  have hroom := h.room
  obtain ⟨f, hf⟩ : ∃ f, e.pages.length * p = log.length + f := ⟨e.capacity - e.size, by omega⟩
  have hfp : f < p := by omega
  have hmod : (log.length + f) % p = 0 := by rw [← hf]; exact Nat.mul_mod_left _ _
  have hlt : log.length % p < p := Nat.mod_lt _ hp
  have hsum : (log.length % p + f) % p = 0 := by
    rw [← hmod, Nat.add_mod, Nat.mod_mod, ← Nat.add_mod]
  have hcases : log.length % p + f = 0 ∨ log.length % p + f = p := by
    rcases Nat.lt_or_ge (log.length % p + f) p with hlt' | hge
    · left; rwa [Nat.mod_eq_of_lt hlt'] at hsum
    · right
      have hsub : (log.length % p + f - p) % p = 0 := by
        rwa [Nat.mod_eq_sub_mod hge] at hsum
      rw [Nat.mod_eq_of_lt (by omega)] at hsub
      omega
  have hfree : e.capacity - e.size = f := by omega
  rw [hfree]
  rcases hcases with h0 | hp'
  · have h1 : log.length % p = 0 := by omega
    have h2 : f = 0 := by omega
    rw [h1, Nat.sub_zero, Nat.mod_self, h2]
  · rw [show p - log.length % p = f by omega, Nat.mod_eq_of_lt hfp]

/-- The place of byte `s` inside its page `k`. -/
lemma mod_page {p k s : ℕ} (hlo : k * p ≤ s) (hhi : s < (k + 1) * p) : s % p = s - k * p := by
  rw [Nat.succ_mul] at hhi
  obtain ⟨r, rfl⟩ := Nat.exists_eq_add_of_le hlo
  rw [Nat.add_sub_cancel_left, Nat.add_comm, Nat.add_mul_mod_self_right,
    Nat.mod_eq_of_lt (by omega)]

/-- Writing a whole chunk into the last page, when it has room there. -/
lemma emitterNormalWrite_holds {p k : ℕ} {e : BytecodeEmitter} {log data : List UInt8}
    (hps : e.pageSize = p) (hlinked : PagesLinked p e.pages)
    (hlen : e.pages.length = k + 1) (hfirst : e.firstPage = some 0) (hlast : e.lastPage = some k)
    (hcap : e.capacity = (k + 1) * p) (hsize : e.size = log.length)
    (hlo : k * p ≤ e.size) (hlt : e.size < (k + 1) * p) (hpos : k * p < e.size + data.length)
    (hfit : e.size + data.length ≤ (k + 1) * p)
    (hbytes : (pagesBytes e.pages).take log.length = log) :
    ∃ e', emitterNormalWrite e data = some e' ∧ EmitterHolds p e' (log ++ data) := by
  have hoff : e.size % e.pageSize = e.size - k * p := by rw [hps, mod_page hlo hlt]
  have hk : (k + 1) * p = k * p + p := Nat.succ_mul k p
  obtain ⟨pages', hcpy, hlinked', hlen', hbytes'⟩ :=
    memcpyToPage_linked hlinked k (e.size - k * p) data (by omega) (by omega)
  refine ⟨{ e with pages := pages', size := e.size + data.length }, ?_, ?_⟩
  · simp [emitterNormalWrite, hoff, hlast, hcpy]
  refine ⟨hps, hlinked', ?_, ?_, ?_, ?_, ?_, ?_, ?_⟩
  · simp [hlen', hlen, hfirst]
  · simp [lastAddress, hlen', hlen, hlast]
  · simp [hlen', hlen, hcap]
  · simp [hsize]
  · simpa [hcap] using hfit
  · simp only [hcap]; omega
  · have hall : log.length ≤ (pagesBytes e.pages).length := by
      rw [length_pagesBytes hlinked, hlen]; omega
    rw [List.length_append, hbytes', show k * p + (e.size - k * p) = log.length by omega,
      take_splice hall, hbytes]

/-- A chunk that fits in the rest of the last page and one new page is appended. -/
theorem emitterEmitBuffered_holds {p : ℕ} {e : BytecodeEmitter} {log data : List UInt8}
    (h : EmitterHolds p e log) (hroom : data.length ≤ emitterRoom p log.length) :
    ∃ e', emitterEmitBuffered e data = some e' ∧ EmitterHolds p e' (log ++ data) := by
  have hp : 0 < p := by have := h.room; have := h.size_le; omega
  have hfree := h.free_eq
  have hcap := h.capacity
  have hsize := h.size
  have hle := h.size_le
  have hfew := h.room
  rw [emitterRoom] at hroom
  by_cases hgt : e.size + data.length > e.capacity
  swap
  · -- the chunk fits in the last page
    rw [emitterEmitBuffered, if_neg hgt]
    by_cases hd : data = []
    · subst hd
      exact ⟨e, by simp [emitterNormalWrite, memcpyToPage_nil], by simpa using h⟩
    have hn : 0 < data.length := List.length_pos_iff.mpr hd
    obtain ⟨k, hk⟩ : ∃ k, e.pages.length = k + 1 := by
      refine Nat.exists_eq_succ_of_ne_zero fun h0 => ?_
      rw [h0, Nat.zero_mul] at hcap
      omega
    have hmul : (k + 1) * p = k * p + p := Nat.succ_mul k p
    rw [hk] at hcap
    exact emitterNormalWrite_holds h.pageSize h.linked hk (by simp [h.first, hk])
      (by simp [h.last, lastAddress, hk]) hcap hsize (by omega) (by omega) (by omega) (by omega)
      h.bytes
  -- a new page is allocated behind the last one
  obtain ⟨pages', halloc, hlinked, hlen, hbytes⟩ := emitterAllocateNewPage_linked h.linked
  have hall : log.length ≤ (pagesBytes e.pages).length := by
    rw [length_pagesBytes h.linked]; omega
  have htake : (pagesBytes pages').take log.length = log := by
    rw [hbytes, List.take_append_of_le_length hall, h.bytes]
  have hfirst : (e.firstPage.orElse fun _ => some e.pages.length) = some 0 := by
    rw [h.first]
    split
    · next h0 => simp [h0]
    · rfl
  have hmul : (e.pages.length + 1) * p = e.pages.length * p + p := Nat.succ_mul _ p
  rw [emitterEmitBuffered, if_pos hgt]
  simp only [h.pageSize, h.last, halloc, hfirst]
  split
  · -- the last page was full: the chunk starts the new page
    next hfull =>
    refine emitterNormalWrite_holds (k := e.pages.length) rfl hlinked hlen rfl rfl
      (by simp only; omega) hsize (by simp only; omega) (by simp only; omega)
      (by simp only; omega) (by simp only; omega) htake
  · -- the chunk is split between the last page and the new one
    next hpart =>
    set f := e.capacity + p - e.size - p with hf
    have hff : f = e.capacity - e.size := by omega
    obtain ⟨k, hk⟩ : ∃ k, e.pages.length = k + 1 := by
      refine Nat.exists_eq_succ_of_ne_zero fun h0 => ?_
      rw [h0, Nat.zero_mul] at hcap
      omega
    have hmulk : e.pages.length * p = k * p + p := by rw [hk, Nat.succ_mul]
    have hlen1 : (data.take f).length = f := by rw [List.length_take]; omega
    obtain ⟨pages1, hcpy1, hlinked1, hlen1', hbytes1⟩ := memcpyToPage_linked hlinked k
      (p - f) (data.take f) (by omega) (by omega)
    obtain ⟨pages2, hcpy2, hlinked2, hlen2', hbytes2⟩ := memcpyToPage_linked hlinked1
      e.pages.length 0 (data.drop f) (by omega) (by rw [List.length_drop]; omega)
    have hlastk : lastAddress e.pages = some k := by simp [lastAddress, hk]
    refine ⟨{ e with
        pages := pages2
        firstPage := some 0
        lastPage := some e.pages.length
        size := e.size + data.length
        capacity := e.capacity + p
        pageSize := p }, by simp [hlastk, hcpy1, hcpy2], ?_⟩
    refine ⟨rfl, hlinked2, ?_, ?_, ?_, ?_, ?_, ?_, ?_⟩
    · simp [hlen2', hlen1', hlen]
    · simp [lastAddress, hlen2', hlen1', hlen]
    · simp only [hlen2', hlen1', hlen]; omega
    · simp [hsize]
    · simp only; omega
    · simp only; omega
    · have hoff : k * p + (p - f) = log.length := by omega
      have hnew : e.pages.length * p + 0 = log.length + (data.take f).length := by omega
      have hall1 : log.length ≤ (pagesBytes pages').length := by
        rw [length_pagesBytes hlinked, hlen]; omega
      have hall2 : log.length + (data.take f).length
          ≤ (splice (pagesBytes pages') log.length (data.take f)).length := by
        rw [length_splice] <;> rw [length_pagesBytes hlinked, hlen] <;> omega
      have hsplit : (log ++ data).length
          = log.length + (data.take f).length + (data.drop f).length := by
        simp only [List.length_append, List.length_take, List.length_drop]; omega
      rw [hbytes2, hbytes1, hoff, hnew, hsplit, take_splice hall2, take_splice hall1, htake,
        List.append_assoc, List.take_append_drop]

/-- A longer chunk ends outside the pages. -/
theorem emitterEmitBuffered_eq_none {p : ℕ} {e : BytecodeEmitter} {log data : List UInt8}
    (h : EmitterHolds p e log) (hroom : emitterRoom p log.length < data.length) :
    emitterEmitBuffered e data = none := by
  have hp : 0 < p := by have := h.room; have := h.size_le; omega
  have hfree := h.free_eq
  have hcap := h.capacity
  have hle := h.size_le
  have hfew := h.room
  rw [emitterRoom] at hroom
  have hgt : e.size + data.length > e.capacity := by omega
  have hd : data ≠ [] := by rintro rfl; simp at hroom
  obtain ⟨pages', halloc, hlinked, hlen, -⟩ := emitterAllocateNewPage_linked h.linked
  rw [emitterEmitBuffered, if_pos hgt]
  simp only [h.pageSize, h.last, halloc]
  split
  · rw [emitterNormalWrite, memcpyToPage_eq_none hlinked _ _ hd (by omega)]
    rfl
  · next hpart =>
    set f := e.capacity + p - e.size - p with hf
    obtain ⟨k, hk⟩ : ∃ k, e.pages.length = k + 1 := by
      refine Nat.exists_eq_succ_of_ne_zero fun h0 => ?_
      rw [h0, Nat.zero_mul] at hcap
      omega
    obtain ⟨pages1, hcpy, hlinked1, -, -⟩ := memcpyToPage_linked hlinked k
      (p - f) (data.take f) (by omega) (by rw [List.length_take]; omega)
    have hdrop : data.drop f ≠ [] := by
      intro hnil
      have := congrArg List.length hnil
      simp only [List.length_drop, List.length_nil] at this
      omega
    have hnone := memcpyToPage_eq_none hlinked1 (some e.pages.length) 0 hdrop
      (by rw [List.length_drop]; omega)
    have hlastk : lastAddress e.pages = some k := by simp [lastAddress, hk]
    simp [hlastk, hcpy, hnone]

/-! ## Reading the pages back -/

/-- From page `i` on the copy loop returns the next `bytesLeft` bytes of the pages. -/
lemma sinkLoop_eq {p : ℕ} {pages : List Page} (hp : 0 < p) (h : PagesLinked p pages) :
    ∀ (fuel i left : ℕ), left ≤ fuel → i * p + left ≤ pages.length * p →
      sinkLoop pages p fuel (if i < pages.length then some i else none) left
        = some (((pagesBytes pages).drop (i * p)).take left) := by
  intro fuel
  induction fuel with
  | zero =>
    intro i left hfuel _
    obtain rfl : left = 0 := by omega
    simp [sinkLoop]
  | succ fuel ih =>
    intro i left hfuel hleft
    cases left with
    | zero => simp [sinkLoop]
    | succ left =>
      have hi : i < pages.length := by
        by_contra hge
        have := Nat.mul_le_mul_right p (Nat.not_lt.mp hge)
        omega
      have hlen : pages[i].bytes.length = p := h.full _ (List.getElem_mem hi)
      have hmul : (i + 1) * p = i * p + p := Nat.succ_mul i p
      have hmin : min p (left + 1) ≤ left + 1 := Nat.min_le_right _ _
      have hpos : 0 < min p (left + 1) := by omega
      have hrest := ih (i + 1) (left + 1 - min p (left + 1)) (by omega) (by
        rcases Nat.le_total p (left + 1) with hle | hle
        · rw [Nat.min_eq_left hle]; omega
        · rw [Nat.min_eq_right hle, Nat.sub_self]
          have := Nat.mul_le_mul_right p hi
          rw [Nat.succ_eq_add_one] at this
          omega)
      rw [sinkLoop, if_pos hi]
      simp only [Option.bind_eq_bind, Option.bind_some, List.getElem?_eq_getElem hi, h.next i hi,
        hrest]
      -- the rest of the bytes starts behind the bytes of page `i`
      have hdrop : (pagesBytes pages).drop (i * p)
          = pages[i].bytes ++ (pagesBytes pages).drop ((i + 1) * p) := by
        have hrows : ∀ row ∈ pages.map Page.bytes, row.length = p := by
          intro row hrow
          obtain ⟨pg, hpg, rfl⟩ := List.mem_map.mp hrow
          exact h.full pg hpg
        rw [pagesBytes, drop_flatten _ _ hrows, drop_flatten _ _ hrows,
          List.drop_eq_getElem_cons (by simpa using hi)]
        simp
      rw [hdrop, List.take_append, hlen]
      congr 2
      · rcases Nat.le_total p (left + 1) with hle | hle
        · rw [Nat.min_eq_left hle, List.take_of_length_le (by omega),
            List.take_of_length_le (by omega)]
        · rw [Nat.min_eq_right hle]
      · congr 1
        omega

/-- `compiler_emitter_sink` returns the bytes the emitter holds. -/
theorem compilerEmitterSink_eq {p : ℕ} {e : BytecodeEmitter} {log : List UInt8}
    (h : EmitterHolds p e log) : compilerEmitterSink e = some log := by
  have hp : 0 < p := by have := h.room; have := h.size_le; omega
  have hsize := h.size
  have hle := h.size_le
  have hcap := h.capacity
  rw [compilerEmitterSink]
  split
  · next h0 => rw [List.eq_nil_of_length_eq_zero (by omega : log.length = 0)]
  · have hne : e.pages.length ≠ 0 := by
      intro h0
      rw [h0, Nat.zero_mul] at hcap
      omega
    have hloop := sinkLoop_eq hp h.linked e.size 0 e.size (le_refl _) (by omega)
    rw [if_pos (by omega)] at hloop
    rw [h.pageSize, h.first, if_neg hne, hloop, Nat.zero_mul, List.drop_zero, hsize, h.bytes]

/-! ## Sequences of emissions -/

/-- Every chunk fits in what is left of the last page and one more page when its turn comes;
`s` bytes are in the emitter before the first. -/
def ChunksFit (p : ℕ) : (s : ℕ) → List (List UInt8) → Prop
  | _, [] => True
  | s, chunk :: chunks => chunk.length ≤ emitterRoom p s ∧ ChunksFit p (s + chunk.length) chunks

instance decidableChunksFit (p : ℕ) :
    (s : ℕ) → (chunks : List (List UInt8)) → Decidable (ChunksFit p s chunks)
  | _, [] => isTrue trivial
  | s, chunk :: chunks =>
    have := decidableChunksFit p (s + chunk.length) chunks
    inferInstanceAs (Decidable (_ ∧ _))

lemma chunksFit_append {p : ℕ} (as bs : List (List UInt8)) (s : ℕ) :
    ChunksFit p s (as ++ bs) ↔ ChunksFit p s as ∧ ChunksFit p (s + as.flatten.length) bs := by
  induction as generalizing s with
  | nil => simp [ChunksFit]
  | cons chunk as ih =>
    simp only [List.cons_append, ChunksFit, ih, List.flatten_cons, List.length_append, and_assoc,
      Nat.add_assoc]

lemma emitterNormalWrite_size {e e' : BytecodeEmitter} {data : List UInt8}
    (h : emitterNormalWrite e data = some e') : e'.size = e.size + data.length := by
  simp only [emitterNormalWrite, Option.bind_eq_bind, Option.bind_eq_some_iff,
    Option.some.injEq] at h
  obtain ⟨pages, -, rfl⟩ := h
  rfl

/-- An emitter counts the bytes that it takes, whatever it holds. -/
lemma emitterEmitBuffered_size {e e' : BytecodeEmitter} {data : List UInt8}
    (h : emitterEmitBuffered e data = some e') : e'.size = e.size + data.length := by
  rw [emitterEmitBuffered] at h
  simp only at h
  split at h
  · split at h
    · exact (emitterNormalWrite_size h).trans rfl
    · simp only [Option.bind_eq_bind, Option.bind_eq_some_iff, Option.some.injEq] at h
      obtain ⟨pages, -, pages', -, rfl⟩ := h
      rfl
  · exact emitterNormalWrite_size h

lemma emitAll_size {e e' : BytecodeEmitter} {chunks : List (List UInt8)}
    (h : emitAll e chunks = some e') : e'.size = e.size + chunks.flatten.length := by
  induction chunks generalizing e with
  | nil =>
    cases h
    rfl
  | cons chunk chunks ih =>
    rw [emitAll, List.foldlM_cons, Option.bind_eq_bind, Option.bind_eq_some_iff] at h
    obtain ⟨e₁, h₁, h⟩ := h
    rw [ih h, emitterEmitBuffered_size h₁, List.flatten_cons, List.length_append]
    omega

/-- Chunks that fit are appended one after the other. -/
theorem emitAll_holds {p : ℕ} {e : BytecodeEmitter} {log : List UInt8} {chunks : List (List UInt8)}
    (h : EmitterHolds p e log) (hfit : ChunksFit p log.length chunks) :
    ∃ e', emitAll e chunks = some e' ∧ EmitterHolds p e' (log ++ chunks.flatten) := by
  induction chunks generalizing e log with
  | nil => exact ⟨e, rfl, by simpa using h⟩
  | cons chunk chunks ih =>
    obtain ⟨hroom, hrest⟩ := hfit
    obtain ⟨e1, he1, h1⟩ := emitterEmitBuffered_holds h hroom
    obtain ⟨e2, he2, h2⟩ := ih h1 (by simpa using hrest)
    refine ⟨e2, ?_, by simpa [List.append_assoc] using h2⟩
    rw [emitAll, List.foldlM_cons, he1]
    exact he2

/-- The first chunk that does not fit stops the run. -/
theorem chunksFit_of_emitAll {p : ℕ} {e e' : BytecodeEmitter} {log : List UInt8}
    {chunks : List (List UInt8)} (h : EmitterHolds p e log) (hrun : emitAll e chunks = some e') :
    ChunksFit p log.length chunks := by
  induction chunks generalizing e log with
  | nil => trivial
  | cons chunk chunks ih =>
    by_cases hroom : chunk.length ≤ emitterRoom p log.length
    · obtain ⟨e1, he1, h1⟩ := emitterEmitBuffered_holds h hroom
      rw [emitAll, List.foldlM_cons, he1] at hrun
      exact ⟨hroom, by simpa using ih h1 hrun⟩
    · rw [emitAll, List.foldlM_cons, emitterEmitBuffered_eq_none h (by omega)] at hrun
      simp at hrun

/-- What the compiler relies on: a run of a fresh emitter that stays inside its pages holds
the concatenation of the chunks. -/
theorem emitAll_new {p : ℕ} (hp : 0 < p) {chunks : List (List UInt8)} {e : BytecodeEmitter}
    (hrun : emitAll (compilerEmitterBufferedNew p) chunks = some e) :
    EmitterHolds p e chunks.flatten := by
  have hfit := chunksFit_of_emitAll (emitterHolds_new hp) hrun
  obtain ⟨e', he', h'⟩ := emitAll_holds (emitterHolds_new hp) hfit
  rw [hrun] at he'
  obtain rfl := Option.some.inj he'
  simpa using h'

/-- The run of a fresh emitter over `chunks` stays inside the pages, counts the bytes, keeps
`size` below `capacity`, and the sink returns the concatenation. -/
def AppendsAll (p : ℕ) (chunks : List (List UInt8)) : Prop :=
  ∃ e, emitAll (compilerEmitterBufferedNew p) chunks = some e ∧
    e.size = (chunks.map List.length).sum ∧ e.size ≤ e.capacity ∧
    compilerEmitterSink e = some chunks.flatten

/-- The emitter is an append-only byte log, after every call, exactly when each chunk fits in
the rest of the last page and one more page. -/
theorem emitter_appendsAll_iff {p : ℕ} (hp : 0 < p) (chunks : List (List UInt8)) :
    (∀ calls, calls <+: chunks → AppendsAll p calls) ↔ ChunksFit p 0 chunks := by
  constructor
  · intro h
    obtain ⟨e, hrun, -⟩ := h chunks (List.prefix_refl _)
    exact chunksFit_of_emitAll (emitterHolds_new hp) hrun
  · rintro hfit calls ⟨rest, rfl⟩
    have hcalls := ((chunksFit_append calls rest 0).mp hfit).1
    obtain ⟨e, hrun, h⟩ := emitAll_holds (emitterHolds_new hp) hcalls
    simp only [List.nil_append] at h
    refine ⟨e, hrun, ?_, h.size_le, compilerEmitterSink_eq h⟩
    rw [h.size, List.length_flatten]

/-- Three chunks on pages of four bytes: inside a page, across a page end, to the exact end. -/
theorem emitter_appendsAll_iff_four :
    0 < 4 ∧ ∀ calls, calls <+: [[1, 2, 3], [4, 5], [6, 7, 8]] → AppendsAll 4 calls :=
  ⟨by decide, (emitter_appendsAll_iff (by decide) _).mpr (by decide)⟩

/-- Two bytes do not fit in a fresh emitter of one-byte pages. -/
theorem emitter_not_appendsAll :
    ¬ ∀ calls, calls <+: [[1, 2]] → AppendsAll 1 calls := by
  intro h
  obtain ⟨e, hrun, -⟩ := h [[1, 2]] (List.prefix_refl _)
  have hnone : emitAll (compilerEmitterBufferedNew 1) [[1, 2]] = none := by decide
  rw [hnone] at hrun
  simp at hrun

end PhantomShell
