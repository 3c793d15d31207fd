import Mathlib.Data.Nat.Bitwise
import Mathlib.Logic.Function.Basic
import PlumOs.Lib.Run

/-!
# The user-space heap (`libc/malloc.c`, `libc/sbrk.c`, `libc/brk.c`)

An implicit free list with boundary tags: every block carries `size | alloc` in a 4-byte header
and a 4-byte footer, a prologue block and a zero-size epilogue header bound the heap, and
`heap_listp` points at the prologue.

Memory is modelled by its 4-byte words, addressed by byte address; every access of the allocator
is to a multiple of 4.  A stored value is cut to 32 bits (`PUT` writes an `unsigned int`).  The
arithmetic on `size_t` values that can wrap (the adjusted size, the byte count of `extend_heap`,
the new break) is reduced modulo `2^64`; pointer arithmetic never leaves the 64-bit range.

`brk` is the kernel's: `mm->brk` stays at the start of the heap, a request above it and below
`HEAP_LIMIT` is granted, `0` asks for `mm->brk`, and anything else panics.
-/

namespace PlumOs

/-- `size_t` arithmetic. -/
abbrev wordRange : ℕ := 2 ^ 64

/-- `CHUNK_SIZE`. -/
abbrev chunkSize : ℕ := 4096

/-- `__max_addr`, 1 GB. -/
abbrev maxAddr : ℕ := 2 ^ 30

/-- The kernel's `HEAP_LIMIT`. -/
abbrev heapLimit : ℕ := 0x7ffffff00000

/-- Why a call never comes back: a store through a null pointer kills the process, the kernel
panics, or a search follows block sizes that never reach an epilogue. -/
inductive Crash where
  | segfault
  | kernelPanic
  | runaway
  deriving DecidableEq, Repr

/-- The allocator's static data, the heap memory and the break. -/
structure Heap where
  mem : ℕ → ℕ
  heapListp : ℕ
  uninitialized : Bool
  /-- `__curbrk`. -/
  curbrk : ℕ
  /-- The kernel's `mm->brk`, which no call changes. -/
  userHeap : ℕ

/-- `PACK(size, alloc)`. -/
def pack (size alloc : ℕ) : ℕ := size ||| alloc

/-- `HDRP(bp)`. -/
def hdrp (bp : ℕ) : ℕ := bp - 4

/-- `ALIGN(size + DSIZE, DSIZE)`. -/
def alignSize (size : ℕ) : ℕ := (size + 8 + 8 - 1) % wordRange / 8 * 8

/-- The adjusted size of a request. -/
def asizeOf (size : ℕ) : ℕ := if size ≤ 8 then 16 else alignSize size

namespace Heap

variable (h : Heap)

/-- `PUT(p, val)`. -/
def put (p val : ℕ) : Heap := { h with mem := Function.update h.mem p (val % 2 ^ 32) }

/-- `GET_SIZE(p)`: the word at `p` with its low three bits cleared. -/
def getSize (p : ℕ) : ℕ := h.mem p - h.mem p % 8

/-- `GET_ALLOC(p)`: the low three bits of the word at `p`. -/
def getAlloc (p : ℕ) : ℕ := h.mem p % 8

/-- `FTRP(bp)`. -/
def ftrp (bp : ℕ) : ℕ := bp + h.getSize (hdrp bp) - 8

/-- `NEXT_BLKP(bp)`. -/
def nextBlkp (bp : ℕ) : ℕ := h.ftrp bp + 8

/-- `PREV_BLKP(bp)`. -/
def prevBlkp (bp : ℕ) : ℕ := bp - h.getSize (bp - 8)

/-- The system call `brk`, as the kernel answers it. -/
def sysBrk (newBreak : ℕ) : Except Crash ℕ :=
  if newBreak = 0 then .ok h.userHeap
  else if h.userHeap < newBreak ∧ newBreak < heapLimit then .ok newBreak
  else .error .kernelPanic

/-- `sbrk(incr)`: the old break, or `none` for `NULL`. -/
def sbrk (incr : ℕ) : Except Crash (Option ℕ × Heap) :=
  if (h.curbrk + incr) % wordRange > maxAddr then .ok (none, h)
  else if incr = 0 then .ok (some h.curbrk, h)
  else
    match h.sysBrk ((h.curbrk + incr) % wordRange) with
    | .error e => .error e
    | .ok ret =>
      if ret = (h.curbrk + incr) % wordRange then .ok (some h.curbrk, { h with curbrk := ret })
      else .ok (none, { h with curbrk := ret })

/-- `coalesce(bp)`: merge the free block `bp` with its free neighbours. -/
def coalesce (bp : ℕ) : ℕ × Heap :=
  let prevAlloc := h.getAlloc (h.ftrp (h.prevBlkp bp))
  let nextAlloc := h.getAlloc (hdrp (h.nextBlkp bp))
  let size := h.getSize (hdrp bp)
  if prevAlloc ≠ 0 ∧ nextAlloc ≠ 0 then (bp, h)
  else if prevAlloc ≠ 0 ∧ nextAlloc = 0 then
    let size := size + h.getSize (hdrp (h.nextBlkp bp))
    let h := h.put (hdrp bp) (pack size 0)
    let h := h.put (h.ftrp bp) (pack size 0)
    (bp, h)
  else if prevAlloc = 0 ∧ nextAlloc ≠ 0 then
    let size := size + h.getSize (hdrp (h.prevBlkp bp))
    let h := h.put (h.ftrp bp) (pack size 0)
    let h := h.put (hdrp (h.prevBlkp bp)) (pack size 0)
    (h.prevBlkp bp, h)
  else
    let size := size + (h.getSize (hdrp (h.prevBlkp bp)) + h.getSize (hdrp (h.nextBlkp bp)))
    let h := h.put (hdrp (h.prevBlkp bp)) (pack size 0)
    let h := h.put (h.ftrp (h.nextBlkp bp)) (pack size 0)
    (h.prevBlkp bp, h)

/-- The stores of `extend_heap` into the `size` bytes at `bp`, and the free block that it returns. -/
def addBlock (bp size : ℕ) : ℕ × Heap :=
  let h := h.put (hdrp bp) (pack size 0)
  let h := h.put (h.ftrp bp) (pack size 0)
  let h := h.put (hdrp (h.nextBlkp bp)) (pack 0 1)
  h.coalesce bp

/-- The stores of `minit` into the 16 bytes at `p`: a prologue and an epilogue. -/
def addPrologue (p : ℕ) : Heap :=
  { (((h.put p 0).put (p + 4) (pack 8 1)).put (p + 8) (pack 8 1)).put (p + 12) (pack 0 1) with
    heapListp := p + 8 }

/-- The loop of `find_fit` from the block `p` on.  Every block takes at least 8 bytes, so a
search over a heap that ends has fewer steps than the heap has bytes. -/
def findFitFrom (size : ℕ) : ℕ → ℕ → Except Crash (Option ℕ)
  | 0, _ => .error .runaway
  | fuel + 1, p =>
    if h.getSize (hdrp p) = 0 then .ok none
    else if h.getAlloc (hdrp p) = 0 ∧ size ≤ h.getSize (hdrp p) then .ok (some p)
    else findFitFrom size fuel (h.nextBlkp p)

/-- `find_fit(size)`. -/
def findFit (size : ℕ) : Except Crash (Option ℕ) :=
  h.findFitFrom size (h.curbrk + 1) (h.nextBlkp h.heapListp)

/-- `place(bp, rsize)`. -/
def place (bp rsize : ℕ) : Heap :=
  let bsize := h.getSize (hdrp bp)
  let nsize := bsize - rsize
  let h := if bsize > rsize then
      let h := h.put (hdrp (bp + rsize)) (pack nsize 0)
      h.put (h.ftrp (bp + rsize)) (pack nsize 0)
    else h
  let h := h.put (hdrp bp) (pack bsize 1)
  h.put (h.ftrp bp) (pack bsize 1)

/-- `free(ptr)`. -/
def free (ptr : ℕ) : Heap :=
  let size := h.getSize (hdrp ptr)
  let h := h.put (hdrp ptr) (pack size 0)
  let h := h.put (h.ftrp ptr) (pack size 0)
  (h.coalesce ptr).2

end Heap

/-! ### The functions that call `sbrk` -/

/-- What the allocator runs in: where its heap is in the state of a system, what `sbrk` does there, and how
a call ends that never comes back. -/
structure Allocator (σ ε : Type) where
  heap : σ → Heap
  setHeap : σ → Heap → σ
  /-- The old break, or `none` for `NULL`. -/
  sbrk : σ → ℕ → Except ε (Option ℕ × σ)
  crash : Crash → ε

namespace Allocator

variable {σ ε : Type} (w : Allocator σ ε) (s : σ)

/-- `extend_heap(words)`: grow the heap by a free block of `words` words, rounded up to an even
number. -/
def extendHeap (words : ℕ) : Except ε (Option ℕ × σ) := do
  let size := (if words % 2 = 1 then (words + 1) * 4 else words * 4) % wordRange
  let (bp, s) ← w.sbrk s size
  match bp with
  | none => return (none, s)
  | some bp =>
    let (bp, h) := (w.heap s).addBlock bp size
    return (some bp, w.setHeap s h)

/-- `minit()`: `true` for the result 0.  The result of `sbrk` is compared with `-1`, so a null
pointer is stored through. -/
def minit : Except ε (Bool × σ) := do
  let (p, s) ← w.sbrk s 16
  match p with
  | none => .error (w.crash .segfault)
  | some p =>
    let (bp, s) ← w.extendHeap (w.setHeap s ((w.heap s).addPrologue p)) (chunkSize / 4)
    match bp with
    | none => return (false, s)
    | some _ => return (true, w.setHeap s { w.heap s with uninitialized := false })

/-- The part of `malloc` after the initialisation. -/
def mallocInit (size : ℕ) : Except ε (Option ℕ × σ) :=
  if size = 0 then .ok (none, s)
  else
    let asize := asizeOf size
    match (w.heap s).findFit asize with
    | .error e => .error (w.crash e)
    | .ok (some bp) => .ok (some bp, w.setHeap s ((w.heap s).place bp asize))
    | .ok none => do
      let (bp, s) ← w.extendHeap s (max asize chunkSize)
      match bp with
      | none => return (none, s)
      | some bp => return (some bp, w.setHeap s ((w.heap s).place bp asize))

/-- `malloc(size)`: the pointer, or `none` for `NULL`. -/
def malloc (size : ℕ) : Except ε (Option ℕ × σ) :=
  if (w.heap s).uninitialized then do
    let (ready, s) ← w.minit s
    match ready with
    | false => return (none, s)
    | true => w.mallocInit s size
  else w.mallocInit s size

end Allocator

namespace Heap

/-- The allocator with nothing but its heap. -/
def alone : Allocator Heap Crash where
  heap h := h
  setHeap _ h := h
  sbrk := sbrk
  crash e := e

variable (h : Heap)

/-- `extend_heap(words)`. -/
def extendHeap (words : ℕ) : Except Crash (Option ℕ × Heap) := alone.extendHeap h words

/-- `minit()`. -/
def minit : Except Crash (Bool × Heap) := alone.minit h

/-- `malloc(size)` after the initialisation. -/
def mallocInit (size : ℕ) : Except Crash (Option ℕ × Heap) := alone.mallocInit h size

/-- `malloc(size)`. -/
def malloc (size : ℕ) : Except Crash (Option ℕ × Heap) := alone.malloc h size

@[simp] theorem alone_heap : alone.heap h = h := rfl

@[simp] theorem alone_setHeap (h' : Heap) : alone.setHeap h h' = h' := rfl

@[simp] theorem alone_sbrk (incr : ℕ) : alone.sbrk h incr = h.sbrk incr := rfl

@[simp] theorem alone_crash (e : Crash) : alone.crash e = e := rfl

theorem extendHeap_def (words : ℕ) : h.extendHeap words =
    let size := (if words % 2 = 1 then (words + 1) * 4 else words * 4) % wordRange
    match h.sbrk size with
    | .error e => .error e
    | .ok (none, h) => .ok (none, h)
    | .ok (some bp, h) => .ok (some (h.addBlock bp size).1, (h.addBlock bp size).2) := by
  simp only [extendHeap, Allocator.extendHeap, alone_sbrk]
  generalize (if words % 2 = 1 then (words + 1) * 4 else words * 4) % wordRange = size
  rcases h.sbrk size with e | ⟨_ | bp, h'⟩
  · rfl
  · rfl
  · rfl

theorem minit_def : h.minit =
    match h.sbrk 16 with
    | .error e => .error e
    | .ok (none, _) => .error .segfault
    | .ok (some p, h) =>
      match (h.addPrologue p).extendHeap (chunkSize / 4) with
      | .error e => .error e
      | .ok (none, h) => .ok (false, h)
      | .ok (some _, h) => .ok (true, { h with uninitialized := false }) := by
  simp only [minit, Allocator.minit, alone_sbrk]
  rcases h.sbrk 16 with e | ⟨_ | p, h'⟩
  · rfl
  · rfl
  · simp only [extendHeap, alone_heap, alone_setHeap]
    generalize chunkSize / 4 = words
    show (alone.extendHeap (h'.addPrologue p) words >>= _) = _
    rcases alone.extendHeap (h'.addPrologue p) words with e | ⟨_ | bp, h''⟩
    · rfl
    · rfl
    · rfl

theorem mallocInit_def (size : ℕ) : h.mallocInit size =
    if size = 0 then .ok (none, h)
    else
      match h.findFit (asizeOf size) with
      | .error e => .error e
      | .ok (some bp) => .ok (some bp, h.place bp (asizeOf size))
      | .ok none =>
        match h.extendHeap (max (asizeOf size) chunkSize) with
        | .error e => .error e
        | .ok (none, h) => .ok (none, h)
        | .ok (some bp, h) => .ok (some bp, h.place bp (asizeOf size)) := by
  simp only [mallocInit, Allocator.mallocInit, extendHeap, alone_heap]
  generalize asizeOf size = asize
  split
  · rfl
  rcases h.findFit asize with e | _ | bp
  · rfl
  · simp only
    generalize max asize chunkSize = words
    rcases alone.extendHeap h words with e | ⟨_ | bp, h'⟩
    · rfl
    · rfl
    · rfl
  · rfl

theorem malloc_def (size : ℕ) : h.malloc size =
    if h.uninitialized then
      match h.minit with
      | .error e => .error e
      | .ok (false, h) => .ok (none, h)
      | .ok (true, h) => h.mallocInit size
    else h.mallocInit size := by
  rw [malloc, Allocator.malloc, minit]
  refine if_congr Iff.rfl ?_ rfl
  rcases alone.minit h with e | ⟨_ | _, h'⟩
  · rfl
  · rfl
  · rfl

end Heap

/-- The heap of a process that has not called `malloc` yet: `brk(0)` in `_start` has set the break
to the start of the heap, and the memory reads as zero. -/
def freshHeap (userHeap : ℕ) : Heap where
  mem _ := 0
  heapListp := 0
  uninitialized := true
  curbrk := userHeap
  userHeap := userHeap

end PlumOs
