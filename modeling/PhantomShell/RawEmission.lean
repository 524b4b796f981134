import PhantomShell.EmitterTheorems

/-!
# Raw emission

`emitter_emit_raw` writes a chunk over as many pages as it needs, and finds the place of the first
byte as `size` modulo the page size.
-/

namespace PhantomShell

/-! ## An open page -/

/-- The next byte goes into page `k`, which is the last one. -/
structure PageOpen (p k : ℕ) (e : BytecodeEmitter) (log : List UInt8) : Prop where
  pageSize : e.pageSize = p
  linked : PagesLinked p e.pages
  pages : e.pages.length = k + 1
  first : e.firstPage = some 0
  last : e.lastPage = some k
  capacity : e.capacity = (k + 1) * p
  size : e.size = log.length
  lo : k * p ≤ e.size
  lt : e.size < (k + 1) * p
  bytes : (pagesBytes e.pages).take log.length = log

/-- A page behind a full one is open. -/
lemma EmitterHolds.nextPage {p k : ℕ} {e : BytecodeEmitter} {log : List UInt8}
    (h : EmitterHolds p e log) (hpages : e.pages.length = k + 1) (hfull : e.size = (k + 1) * p) :
    PageOpen p (k + 1)
      { e with
        pages := emitterAllocateNewPage p (some k) e.pages
        lastPage := some (k + 1)
        capacity := e.capacity + p } log := by
  have hp : 0 < p := by have := h.room; have := h.size_le; omega
  have hmul : (k + 1 + 1) * p = (k + 1) * p + p := Nat.succ_mul _ p
  have hcap := h.capacity
  rw [hpages] at hcap
  have hlast : lastAddress e.pages = some k := by simp [lastAddress, hpages]
  obtain ⟨pages', halloc, hlinked, hlen, hbytes⟩ := emitterAllocateNewPage_linked h.linked
  rw [hlast] at halloc
  have hall : log.length ≤ (pagesBytes e.pages).length := by
    rw [length_pagesBytes h.linked, hpages, ← hfull, h.size]
  exact {
    pageSize := h.pageSize
    linked := by rw [halloc]; exact hlinked
    pages := by rw [halloc, hlen, hpages]
    first := by simp [h.first, hpages]
    last := rfl
    capacity := by simp only; omega
    size := h.size
    lo := by simp only; omega
    lt := by simp only; omega
    bytes := by rw [halloc, hbytes, List.take_append_of_le_length hall, h.bytes] }

/-- The loop fills the open page, and goes on in the page behind it. -/
lemma rawWrite_holds {p k fuel : ℕ} {e : BytecodeEmitter} {log data : List UInt8}
    (h : PageOpen p k e log) (hdata : data ≠ []) (hfuel : data.length < fuel) :
    ∃ e', rawWrite fuel e (some k) data = some e' ∧ EmitterHolds p e' (log ++ data) := by
  induction fuel generalizing k e log data with
  | zero => omega
  | succ fuel ih =>
    have hpos : 0 < data.length := List.length_pos_iff.mpr hdata
    have hoff : e.size % p = e.size - k * p := mod_page h.lo h.lt
    have hmul : (k + 1) * p = k * p + p := Nat.succ_mul k p
    have hlt := h.lt
    have hlo := h.lo
    have hcap := h.capacity
    have hsize := h.size
    obtain ⟨w, hw⟩ : ∃ w, min (p - (e.size - k * p)) data.length = w := ⟨_, rfl⟩
    have hlen : (data.take w).length = w := by rw [List.length_take]; omega
    have hw₀ : k * p < e.size + (data.take w).length := by omega
    have hw₁ : e.size + (data.take w).length ≤ (k + 1) * p := by omega
    obtain ⟨e₁, hwrite, h₁⟩ := emitterNormalWrite_holds h.pageSize h.linked h.pages h.first h.last hcap
      hsize hlo hlt hw₀ hw₁ h.bytes
    simp only [emitterNormalWrite, h.pageSize, hoff, h.last, Option.bind_eq_bind,
      Option.bind_eq_some_iff, Option.some.injEq, hlen] at hwrite
    obtain ⟨pages, hcopy, rfl⟩ := hwrite
    have hpages : pages.length = k + 1 := by
      have hlast := h₁.last
      simp only [lastAddress] at hlast
      split at hlast
      · cases hlast
      · have := Option.some.inj hlast
        omega
    simp only [rawWrite, h.pageSize, hoff, hw, hcopy, Option.bind_eq_bind, Option.bind_some]
    split
    · next hleft =>
      -- the page is full, and the next one is open
      have hopen := h₁.nextPage hpages (by simp only; omega)
      have hrest : data.drop w ≠ [] := by
        rw [← List.length_pos_iff, List.length_drop]
        omega
      obtain ⟨e', hrest, he'⟩ := ih hopen hrest (by rw [List.length_drop]; omega)
      rw [List.append_assoc, List.take_append_drop] at he'
      rw [hpages]
      exact ⟨e', hrest, he'⟩
    · next hdone =>
      have htake : data.take w = data := List.take_of_length_le (by omega)
      rw [htake] at h₁
      refine ⟨_, rfl, ?_⟩
      rw [h.last]
      exact h₁

/-- The first page is open, and so is the last one unless its end has been reached. -/
lemma EmitterHolds.rawFirstPage {p : ℕ} {e : BytecodeEmitter} {log : List UInt8}
    (h : EmitterHolds p e log) (hopen : log ≠ [] → ¬ p ∣ log.length) :
    ∃ k, PageOpen p k (rawFirstPage e) log := by
  have hp : 0 < p := by have := h.room; have := h.size_le; omega
  have hcap := h.capacity
  have hsize := h.size
  have hle := h.size_le
  have hroom := h.room
  obtain ⟨n, hn⟩ : ∃ n, e.pages.length = n := ⟨_, rfl⟩
  rw [hn] at hcap
  cases n with
  | zero =>
    have hpages : e.pages = [] := List.length_eq_zero_iff.mp hn
    have hlog : log = [] := List.length_eq_zero_iff.mp (by omega)
    have hfirst : e.firstPage = none := by simp [h.first, hn]
    subst hlog
    simp only [PhantomShell.rawFirstPage, hfirst, if_true, hpages, h.pageSize]
    refine ⟨0, rfl, ?_, rfl, rfl, rfl, by simp only; omega, hsize, by simp only; omega,
      by simp only; omega, rfl⟩
    obtain ⟨pages', halloc, hlinked, -⟩ :=
      @emitterAllocateNewPage_linked p [] ⟨by simp, by simp⟩
    exact halloc ▸ hlinked
  | succ k =>
    have hfirst : e.firstPage = some 0 := by simp [h.first, hn]
    have hmul : (k + 1) * p = k * p + p := Nat.succ_mul k p
    have hlog : log ≠ [] := by
      rintro rfl
      have : 0 ≤ k * p := Nat.zero_le _
      simp only [List.length_nil] at hsize
      omega
    have hne : log.length ≠ (k + 1) * p := fun heq =>
      hopen hlog (heq ▸ Nat.dvd_mul_left p (k + 1))
    have heq : PhantomShell.rawFirstPage e = e := by simp [PhantomShell.rawFirstPage, hfirst]
    rw [heq]
    exact ⟨k, h.pageSize, h.linked, hn, hfirst, by simp [h.last, lastAddress, hn], hcap, hsize,
      by omega, by omega, h.bytes⟩

/-- A chunk that starts in a page is appended, whatever its length. -/
lemma emitterEmitRaw_holds {p : ℕ} (hbuf : p ≠ int32Max) {e : BytecodeEmitter}
    {log data : List UInt8} (h : EmitterHolds p e log) (hopen : log ≠ [] → ¬ p ∣ log.length)
    (hdata : data ≠ []) :
    ∃ e', emitterEmitRaw e data = some (e', []) ∧ EmitterHolds p e' (log ++ data) := by
  obtain ⟨k, hk⟩ := h.rawFirstPage hopen
  obtain ⟨e', hrun, he'⟩ := rawWrite_holds hk hdata (Nat.lt_succ_self data.length)
  refine ⟨e', ?_, he'⟩
  rw [emitterEmitRaw, if_neg (by rw [h.pageSize]; exact hbuf)]
  simp only [hk.last]
  rw [hrun]
  rfl

/-! ## Behind a full page -/

/-- There are fewer bytes in the pages than the emitter counts. -/
structure PagesShort (p : ℕ) (e : BytecodeEmitter) : Prop where
  pageSize : e.pageSize = p
  linked : PagesLinked p e.pages
  first : e.firstPage = some 0
  last : e.lastPage = some (e.pages.length - 1)
  pages : 0 < e.pages.length
  short : e.pages.length * p < e.size

/-- The loop that starts behind the pages allocates too few of them. -/
lemma rawWrite_short {p fuel : ℕ} (hp : 0 < p) {e : BytecodeEmitter} {data : List UInt8}
    (hps : e.pageSize = p) (hlinked : PagesLinked p e.pages) (hfirst : e.firstPage = some 0)
    (hlast : e.lastPage = some (e.pages.length - 1)) (hpages : 0 < e.pages.length)
    (hle : e.pages.length ≤ e.size / p) (hdata : data ≠ []) (hfuel : data.length < fuel) :
    ∃ e', rawWrite fuel e (some (e.pages.length - 1)) data = some e' ∧ PagesShort p e' := by
  induction fuel generalizing e data with
  | zero => omega
  | succ fuel ih =>
    have hpos : 0 < data.length := List.length_pos_iff.mpr hdata
    have hoff : e.size % p < p := Nat.mod_lt _ hp
    have hsize : p * (e.size / p) + e.size % p = e.size := Nat.div_add_mod _ _
    have hmul : e.pages.length * p ≤ p * (e.size / p) := by
      rw [Nat.mul_comm]
      exact Nat.mul_le_mul_left p hle
    obtain ⟨w, hw⟩ : ∃ w, min (p - e.size % p) data.length = w := ⟨_, rfl⟩
    have hlen : (data.take w).length = w := by rw [List.length_take]; omega
    obtain ⟨pages, hcopy, hlinked₁, hlen₁, -⟩ := memcpyToPage_linked hlinked (e.pages.length - 1)
      (e.size % p) (data.take w) (by omega) (by omega)
    have haddr : lastAddress pages = some (pages.length - 1) := by
      rw [lastAddress, if_neg (by omega)]
    obtain ⟨pages', halloc, hlinked₂, hlen₂, -⟩ := emitterAllocateNewPage_linked hlinked₁
    rw [haddr, hlen₁] at halloc
    simp only [rawWrite, hps, hw, hcopy, Option.bind_eq_bind, Option.bind_some, halloc]
    split
    · next hleft =>
      -- the write ends at a page boundary, so the pages stay as far behind as they were
      have hfull : e.size + w = p * (e.size / p + 1) := by
        rw [Nat.mul_succ]
        omega
      have hdiv : (e.size + w) / p = e.size / p + 1 := by rw [hfull, Nat.mul_div_cancel_left _ hp]
      have hlast' : pages.length = pages'.length - 1 := by omega
      rw [hlast']
      exact ih (e := ⟨pages', e.firstPage, some (pages'.length - 1), e.size + w, e.capacity + p, p⟩)
        rfl hlinked₂ hfirst rfl (by simp only; omega) (by simp only [hdiv]; omega)
        (by rw [← List.length_pos_iff, List.length_drop]; omega) (by rw [List.length_drop]; omega)
    · next hdone =>
      refine ⟨_, rfl, rfl, hlinked₁, hfirst, ?_, ?_, ?_⟩
      · rw [hlast, hlen₁]
      · simp only; omega
      · simp only [hlen₁]; omega

lemma emitterEmitRaw_short {p : ℕ} (hp : 0 < p) (hbuf : p ≠ int32Max) {e : BytecodeEmitter}
    {data : List UInt8} (hps : e.pageSize = p) (hlinked : PagesLinked p e.pages)
    (hfirst : e.firstPage = some 0) (hlast : e.lastPage = some (e.pages.length - 1))
    (hpages : 0 < e.pages.length) (hle : e.pages.length ≤ e.size / p) (hdata : data ≠ []) :
    ∃ e', emitterEmitRaw e data = some (e', []) ∧ PagesShort p e' := by
  obtain ⟨e', hrun, he'⟩ := rawWrite_short hp hps hlinked hfirst hlast hpages hle hdata
    (Nat.lt_succ_self data.length)
  have heq : rawFirstPage e = e := by simp [rawFirstPage, hfirst]
  refine ⟨e', ?_, he'⟩
  rw [emitterEmitRaw, if_neg (by rw [hps]; exact hbuf)]
  simp only [heq, hlast]
  rw [hrun]
  rfl

/-- A chunk that starts at a page end behind other bytes is written over the last page. -/
lemma EmitterHolds.short {p : ℕ} (hbuf : p ≠ int32Max) {e : BytecodeEmitter}
    {log data : List UInt8} (h : EmitterHolds p e log) (hlog : log.length ≠ 0)
    (hdvd : p ∣ log.length) (hdata : data ≠ []) :
    ∃ e', emitterEmitRaw e data = some (e', []) ∧ PagesShort p e' := by
  have hp : 0 < p := by have := h.room; have := h.size_le; omega
  have hcap := h.capacity
  have hsize := h.size
  have hle := h.size_le
  have hroom := h.room
  obtain ⟨n, hn⟩ := hdvd
  have hpages : e.pages.length = n := by
    have hlo : n ≤ e.pages.length := by
      refine Nat.le_of_mul_le_mul_left ?_ hp
      rw [Nat.mul_comm p e.pages.length]
      omega
    have hhi : e.pages.length < n + 1 := by
      refine Nat.lt_of_mul_lt_mul_left (a := p) ?_
      rw [Nat.mul_comm p e.pages.length, Nat.mul_succ]
      omega
    omega
  have hpos : 0 < n := by
    rcases Nat.eq_zero_or_pos n with rfl | hpos
    · exact absurd hn hlog
    · exact hpos
  refine emitterEmitRaw_short hp hbuf h.pageSize h.linked ?_ ?_ (by omega) ?_ hdata
  · rw [h.first, if_neg (by omega)]
  · rw [h.last, lastAddress, if_neg (by omega)]
  · rw [hsize, hn, Nat.mul_div_cancel_left _ hp, hpages]

/-- The copy loop runs out of pages. -/
lemma sinkLoop_short {p : ℕ} {pages : List Page} (hp : 0 < p) (h : PagesLinked p pages) :
    ∀ (fuel i left : ℕ), 0 < left → left ≤ fuel → pages.length * p < i * p + left →
      sinkLoop pages p fuel (if i < pages.length then some i else none) left = none := by
  intro fuel
  induction fuel with
  | zero => omega
  | succ fuel ih =>
    intro i left hpos hfuel hshort
    obtain ⟨left, rfl⟩ : ∃ n, left = n + 1 := ⟨left - 1, by omega⟩
    rw [sinkLoop]
    by_cases hi : i < pages.length
    · have hmul : (i + 1) * p = i * p + p := Nat.succ_mul i p
      have hpages : (i + 1) * p ≤ pages.length * p := Nat.mul_le_mul_right p hi
      have hmin : min p (left + 1) = p := by omega
      have hrest := ih (i + 1) (left + 1 - p) (by omega) (by omega) (by omega)
      rw [if_pos hi]
      simp only [Option.bind_eq_bind, Option.bind_some, List.getElem?_eq_getElem hi, h.next i hi,
        hmin, hrest, Option.bind_none]
    · rw [if_neg hi]
      rfl

lemma PagesShort.sink {p : ℕ} (hp : 0 < p) {e : BytecodeEmitter} (h : PagesShort p e) :
    compilerEmitterSink e = none := by
  have hshort := h.short
  have hloop := sinkLoop_short hp h.linked e.size 0 e.size (by omega) (le_refl _) (by omega)
  rw [if_pos h.pages] at hloop
  rw [compilerEmitterSink, if_neg (by omega), h.pageSize, h.first, hloop]

/-! ## Sequences of raw emissions -/

/-- No chunk starts at the end of a page; `s` bytes are in the emitter before the first. -/
def StartInPages (p : ℕ) : (s : ℕ) → List (List UInt8) → Prop
  | _, [] => True
  | s, chunk :: chunks => (s ≠ 0 → ¬ p ∣ s) ∧ StartInPages p (s + chunk.length) chunks

instance decidableStartInPages (p : ℕ) :
    (s : ℕ) → (chunks : List (List UInt8)) → Decidable (StartInPages p s chunks)
  | _, [] => isTrue trivial
  | s, chunk :: chunks =>
    have := decidableStartInPages p (s + chunk.length) chunks
    inferInstanceAs (Decidable (_ ∧ _))

lemma startInPages_append {p : ℕ} (as bs : List (List UInt8)) (s : ℕ) :
    StartInPages p s (as ++ bs) ↔
      StartInPages p s as ∧ StartInPages p (s + as.flatten.length) bs := by
  induction as generalizing s with
  | nil => simp [StartInPages]
  | cons chunk as ih =>
    simp only [List.cons_append, StartInPages, ih, List.flatten_cons, List.length_append, and_assoc,
      Nat.add_assoc]

lemma emitRawAll_cons {e e₁ e₂ : BytecodeEmitter} {chunk : List UInt8}
    {chunks : List (List UInt8)} (h₁ : emitterEmitRaw e chunk = some (e₁, []))
    (h₂ : emitRawAll e₁ chunks = some (e₂, [])) :
    emitRawAll e (chunk :: chunks) = some (e₂, []) := by
  simp only [emitRawAll, h₁, h₂, Option.bind_eq_bind, Option.bind_some, List.append_nil]

/-- Chunks that start in pages are appended one after the other. -/
lemma emitRawAll_holds {p : ℕ} (hbuf : p ≠ int32Max) {e : BytecodeEmitter} {log : List UInt8}
    {chunks : List (List UInt8)} (hne : ∀ chunk ∈ chunks, chunk ≠ []) (h : EmitterHolds p e log)
    (hstart : StartInPages p log.length chunks) :
    ∃ e', emitRawAll e chunks = some (e', []) ∧ EmitterHolds p e' (log ++ chunks.flatten) := by
  induction chunks generalizing e log with
  | nil => exact ⟨e, rfl, by simpa using h⟩
  | cons chunk chunks ih =>
    obtain ⟨hpage, hrest⟩ := hstart
    obtain ⟨hchunk, hchunks⟩ := List.forall_mem_cons.mp hne
    have hopen : log ≠ [] → ¬ p ∣ log.length := fun hlog =>
      hpage (List.length_pos_iff.mpr hlog).ne'
    obtain ⟨e₁, he₁, h₁⟩ := emitterEmitRaw_holds hbuf h hopen hchunk
    obtain ⟨e₂, he₂, h₂⟩ := ih hchunks h₁ (by simpa using hrest)
    exact ⟨e₂, emitRawAll_cons he₁ he₂, by simpa [List.append_assoc] using h₂⟩

/-- Pages that are missing stay missing. -/
lemma PagesShort.emitRawAll {p : ℕ} (hp : 0 < p) (hbuf : p ≠ int32Max) {e : BytecodeEmitter}
    {chunks : List (List UInt8)} (hne : ∀ chunk ∈ chunks, chunk ≠ []) (h : PagesShort p e) :
    ∃ e', emitRawAll e chunks = some (e', []) ∧ PagesShort p e' := by
  induction chunks generalizing e with
  | nil => exact ⟨e, rfl, h⟩
  | cons chunk chunks ih =>
    obtain ⟨hchunk, hchunks⟩ := List.forall_mem_cons.mp hne
    have hle : e.pages.length ≤ e.size / p := (Nat.le_div_iff_mul_le hp).mpr h.short.le
    obtain ⟨e₁, he₁, h₁⟩ := emitterEmitRaw_short hp hbuf h.pageSize h.linked h.first h.last h.pages
      hle hchunk
    obtain ⟨e₂, he₂, h₂⟩ := ih hchunks h₁
    exact ⟨e₂, emitRawAll_cons he₁ he₂, h₂⟩

/-- From the first chunk on that starts at a page end, pages are missing. -/
lemma emitRawAll_short {p : ℕ} (hbuf : p ≠ int32Max) {e : BytecodeEmitter} {log : List UInt8}
    {chunks : List (List UInt8)} (hne : ∀ chunk ∈ chunks, chunk ≠ []) (h : EmitterHolds p e log)
    (hstart : ¬ StartInPages p log.length chunks) :
    ∃ e', emitRawAll e chunks = some (e', []) ∧ PagesShort p e' := by
  have hp : 0 < p := by have := h.room; have := h.size_le; omega
  induction chunks generalizing e log with
  | nil => exact absurd trivial hstart
  | cons chunk chunks ih =>
    obtain ⟨hchunk, hchunks⟩ := List.forall_mem_cons.mp hne
    by_cases hend : log.length ≠ 0 ∧ p ∣ log.length
    · obtain ⟨hlog, hdvd⟩ := hend
      obtain ⟨e₁, he₁, h₁⟩ := h.short hbuf hlog hdvd hchunk
      obtain ⟨e₂, he₂, h₂⟩ := h₁.emitRawAll hp hbuf hchunks
      exact ⟨e₂, emitRawAll_cons he₁ he₂, h₂⟩
    · have hpage : log.length ≠ 0 → ¬ p ∣ log.length := fun hlog hdvd => hend ⟨hlog, hdvd⟩
      have hopen : log ≠ [] → ¬ p ∣ log.length := fun hlog =>
        hpage (List.length_pos_iff.mpr hlog).ne'
      obtain ⟨e₁, he₁, h₁⟩ := emitterEmitRaw_holds hbuf h hopen hchunk
      have hrest : ¬ StartInPages p (log ++ chunk).length chunks := by
        intro hrest
        exact hstart ⟨hpage, by simpa using hrest⟩
      obtain ⟨e₂, he₂, h₂⟩ := ih hchunks h₁ hrest
      exact ⟨e₂, emitRawAll_cons he₁ he₂, h₂⟩

/-- The run of a fresh emitter over `chunks` counts the bytes, no call changes the bytes before
its own, and the sink returns the concatenation. -/
structure RawAppends (p : ℕ) (chunks : List (List UInt8)) : Prop where
  run : ∃ e, emitRawAll (compilerEmitterBufferedNew p) chunks = some (e, []) ∧
    e.size = (chunks.map List.length).sum ∧ compilerEmitterSink e = some chunks.flatten
  kept : ∀ calls chunk e e' data, calls ++ [chunk] <+: chunks →
    emitRawAll (compilerEmitterBufferedNew p) calls = some (e, data) →
    emitterEmitRaw e chunk = some (e', []) →
    (pagesBytes e'.pages).take e.size = (pagesBytes e.pages).take e.size

/-- Raw emissions append exactly when none but the first starts at the end of a page. -/
theorem emitter_rawAppends_iff {p : ℕ} (hp : 0 < p) (hbuf : p ≠ int32Max)
    {chunks : List (List UInt8)} (hne : ∀ chunk ∈ chunks, chunk ≠ []) :
    RawAppends p chunks ↔ StartInPages p 0 chunks := by
  constructor
  · intro h
    by_contra hstart
    obtain ⟨e, hrun, -, hsink⟩ := h.run
    obtain ⟨e', hrun', hshort⟩ := emitRawAll_short hbuf hne (emitterHolds_new hp) hstart
    rw [hrun] at hrun'
    cases hrun'
    rw [hshort.sink hp] at hsink
    cases hsink
  · intro hstart
    refine ⟨?_, ?_⟩
    · obtain ⟨e, hrun, he⟩ := emitRawAll_holds hbuf hne (emitterHolds_new hp) hstart
      rw [List.nil_append] at he
      exact ⟨e, hrun, he.size.trans List.length_flatten, compilerEmitterSink_eq he⟩
    · rintro calls chunk e e' data ⟨rest, rfl⟩ hrun hchunk
      rw [List.append_assoc, startInPages_append, Nat.zero_add] at hstart
      obtain ⟨hcalls, hpage, -⟩ := hstart
      have hopen : calls.flatten ≠ [] → ¬ p ∣ calls.flatten.length := fun hlog =>
        hpage (List.length_pos_iff.mpr hlog).ne'
      obtain ⟨e₁, hrun₁, h₁⟩ := emitRawAll_holds hbuf (fun c hc => hne c (by simp [hc]))
        (emitterHolds_new hp) hcalls
      rw [List.nil_append] at h₁
      rw [hrun] at hrun₁
      cases hrun₁
      obtain ⟨e₂, hrun₂, h₂⟩ := emitterEmitRaw_holds hbuf h₁ hopen (hne chunk (by simp))
      rw [hchunk] at hrun₂
      cases hrun₂
      -- the bytes of the earlier calls are a prefix of both logs
      have hlog := congrArg (List.take calls.flatten.length) h₂.bytes
      rw [List.take_take, List.length_append, Nat.min_eq_left (Nat.le_add_right _ _),
        List.take_left'] at hlog
      · rw [h₁.size, hlog, h₁.bytes]
      · rfl

/-- Chunks over several pages of four bytes. -/
theorem emitter_rawAppends_iff_four : RawAppends 4 [[1, 2, 3], [4, 5, 6, 7, 8, 9, 10], [11, 12]] :=
  (emitter_rawAppends_iff (by decide) (by decide) (by decide)).mpr (by decide)

/-- A chunk behind a full page is written over it. -/
theorem emitter_not_rawAppends :
    ¬ ∀ p chunks, 0 < p → p ≠ int32Max → (∀ chunk ∈ chunks, chunk ≠ []) → RawAppends p chunks := by
  intro h
  obtain ⟨e, hrun, -, hsink⟩ := (h 4 [[1, 2, 3, 4], [5]] (by decide) (by decide) (by decide)).run
  have hnone : (emitRawAll (compilerEmitterBufferedNew 4) [[1, 2, 3, 4], [5]]).bind
      (fun r => compilerEmitterSink r.1) = none := by decide
  rw [hrun] at hnone
  simp only [Option.bind_some, hsink] at hnone
  cases hnone

end PhantomShell
