import PhantomShell.Lib.Splice

/-!
# The buffered bytecode emitter

`compiler_emit.c`: a `bytecode_emitter_t` collects chunks of bytecode in a linked list of
pages of `page_size` bytes; `compiler_emitter_sink` copies them out again.

A page is addressed by its position in the list of pages allocated so far. The eight link
bytes behind the data of a page are the field `next`, so a write that runs over the
`page_size` data bytes (first over the link, then over the end of the block) is a write
outside the page and ends in `none`.
-/

namespace PhantomShell

/-- A page of an emitter: its data bytes and the link to the page after it. -/
structure Page where
  bytes : List UInt8
  next : Option ℕ
  deriving DecidableEq

/-- `bytecode_emitter_t` with its pages. Sizes are `size_t` values far below `2^64`. -/
structure BytecodeEmitter where
  pages : List Page
  firstPage : Option ℕ
  lastPage : Option ℕ
  size : ℕ
  capacity : ℕ
  pageSize : ℕ
  deriving DecidableEq

/-- `compiler_emitter_buffered_new` -/
def compilerEmitterBufferedNew (pageSize : ℕ) : BytecodeEmitter where
  pages := []
  firstPage := none
  lastPage := none
  size := 0
  capacity := 0
  pageSize := pageSize

/-- `emitter_allocate_new_page`: a zeroed page, linked behind `prevPage` when there is one.
The new page's address is the old number of pages. -/
def emitterAllocateNewPage (pageSize : ℕ) (prevPage : Option ℕ) (pages : List Page) :
    List Page :=
  let newPage : Page := ⟨List.replicate pageSize 0, none⟩
  match prevPage with
  | none => pages ++ [newPage]
  | some i => pages.modify i (fun pg => { pg with next := some pages.length }) ++ [newPage]

/-- `memcpy` into a page at offset `off`. Copying no bytes touches nothing. -/
def memcpyToPage (pages : List Page) (page : Option ℕ) (off : ℕ) (data : List UInt8) :
    Option (List Page) :=
  if data = [] then some pages
  else do
    let i ← page
    let pg ← pages[i]?
    if off + data.length ≤ pg.bytes.length then
      some (pages.set i { pg with bytes := splice pg.bytes off data })
    else none

/-- The `normal_write` exit of `emitter_emit_buffered`: the whole chunk goes to the last page. -/
def emitterNormalWrite (e : BytecodeEmitter) (data : List UInt8) : Option BytecodeEmitter := do
  let offset := e.size % e.pageSize
  let pages ← memcpyToPage e.pages e.lastPage offset data
  some { e with pages := pages, size := e.size + data.length }

/-- `emitter_emit_buffered` -/
def emitterEmitBuffered (e : BytecodeEmitter) (data : List UInt8) : Option BytecodeEmitter :=
  let n := data.length
  if e.size + n > e.capacity then
    let e' : BytecodeEmitter :=
      { e with
        pages := emitterAllocateNewPage e.pageSize e.lastPage e.pages
        lastPage := some e.pages.length
        capacity := e.capacity + e.pageSize
        firstPage := e.firstPage.orElse fun _ => some e.pages.length }
    if e.size + e.pageSize = e'.capacity then emitterNormalWrite e' data
    else do
      let prevFreeSpace := e'.capacity - e.size - e.pageSize
      -- the first part fills the previous page, the rest starts the new one
      let pages ← memcpyToPage e'.pages e.lastPage (e.pageSize - prevFreeSpace)
        (data.take prevFreeSpace)
      let pages ← memcpyToPage pages e'.lastPage 0 (data.drop prevFreeSpace)
      some { e' with pages := pages, size := e.size + n }
  else emitterNormalWrite e data

/-- A sequence of `emitter_emit_buffered` calls. -/
def emitAll (e : BytecodeEmitter) (chunks : List (List UInt8)) : Option BytecodeEmitter :=
  chunks.foldlM emitterEmitBuffered e

/-! ## Raw emission -/

/-- `INT32_MAX`, the page size of an emitter without pages. -/
def int32Max : ℕ := 2147483647

/-- The `raw_write` loop of `emitter_emit_raw`. Every round but the last one writes at least a byte,
so a round for each byte and one more are enough. -/
def rawWrite : (fuel : ℕ) → BytecodeEmitter → (currentPage : Option ℕ) → (data : List UInt8) →
    Option BytecodeEmitter
  | 0, _, _, _ => none
  | fuel + 1, e, currentPage, data => do
    let currentPageOffset := e.size % e.pageSize
    let currentPageLeft := e.pageSize - currentPageOffset
    let sizeToWrite := min currentPageLeft data.length
    let pages ← memcpyToPage e.pages currentPage currentPageOffset (data.take sizeToWrite)
    let size := e.size + sizeToWrite
    if 0 < data.length - sizeToWrite then
      let e' : BytecodeEmitter :=
        { e with
          pages := emitterAllocateNewPage e.pageSize currentPage pages
          lastPage := some pages.length
          size := size
          capacity := e.capacity + e.pageSize }
      rawWrite fuel e' (some pages.length) (data.drop sizeToWrite)
    else some { e with pages := pages, size := size }

/-- The first page of `emitter_emit_raw`. -/
def rawFirstPage (e : BytecodeEmitter) : BytecodeEmitter :=
  if e.firstPage = none then
    { e with
      pages := emitterAllocateNewPage e.pageSize none e.pages
      firstPage := some e.pages.length
      lastPage := some e.pages.length
      capacity := e.capacity + e.pageSize }
  else e

/-- `emitter_emit_raw`: the emitter, and the data that the machine executes. -/
def emitterEmitRaw (e : BytecodeEmitter) (data : List UInt8) :
    Option (BytecodeEmitter × List (List UInt8)) :=
  if e.pageSize = int32Max then some (e, [data])
  else do
    let e := rawFirstPage e
    let e ← rawWrite (data.length + 1) e e.lastPage data
    some (e, [])

/-- A sequence of `emitter_emit_raw` calls. -/
def emitRawAll (e : BytecodeEmitter) :
    List (List UInt8) → Option (BytecodeEmitter × List (List UInt8))
  | [] => some (e, [])
  | chunk :: chunks => do
    let (e, now) ← emitterEmitRaw e chunk
    let (e, later) ← emitRawAll e chunks
    some (e, now ++ later)

/-! ## Reading -/

/-- The copy loop of `compiler_emitter_sink`. Every round copies at least one byte, so
`bytesLeft` rounds are enough. -/
def sinkLoop (pages : List Page) (pageSize : ℕ) :
    (fuel : ℕ) → (currentPage : Option ℕ) → (bytesLeft : ℕ) → Option (List UInt8)
  | _, _, 0 => some []
  | 0, _, _ + 1 => none
  | fuel + 1, currentPage, bytesLeft@(_ + 1) => do
    let pg ← pages[← currentPage]?
    let rest ← sinkLoop pages pageSize fuel pg.next (bytesLeft - min pageSize bytesLeft)
    some (pg.bytes.take (min pageSize bytesLeft) ++ rest)

/-- `compiler_emitter_sink`: the bytes written to `dst`. -/
def compilerEmitterSink (e : BytecodeEmitter) : Option (List UInt8) :=
  if e.size = 0 then some [] else sinkLoop e.pages e.pageSize e.size e.firstPage e.size

end PhantomShell
