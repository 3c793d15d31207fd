import Mathlib.Data.List.Range
import Mathlib.Logic.Function.Basic
import PlumOs.Lib.Word
import PlumOs.Lib.Run

/-!
# The physical page allocator (`sys/mm.c`)

Physical memory is 128 MB, `pageArraySize` frames of 4 KB.  `mm_init` records the busy frames in a
one-bit-per-frame bitmap, derives the reference counts `page_array[pfn].ref` from it, and clears
the counts of the boot loader's frames again.  From then on `get_free_page` looks for a frame with
count 0 and `add_page_ref`, `deduct_page_ref` and `free_page` move the counts.

The bitmap words are `uint64_t`, but every bit is set and tested with the `int` expression
`1 << (i % 64)`: `sx32` computes it as the build does.  The counts are `int`s, so `wrap32` is
applied where they change.

`setup_initial_pgtables`, which `mm_init` calls between `setup_bitmap` and `setup_page_array`,
stores only above the bitmap page, and `setup_page_array` then writes every count: it has no
effect on this state.
-/

namespace PlumOs

/-- The ways the kernel stops for good: `panic` and a failed `assert` spin forever, and a null
pointer that is followed in kernel mode ends in the panic of `page_fault_handler`. -/
inductive Stop where
  | panic (msg : String)
  | assertFail (func : String)
  | nullDeref (func : String)
  deriving DecidableEq, Repr

/-! ### Constants of `sys/mm.h` -/

/-- `PG_SIZE`, 4 KB. -/
abbrev pgSize : ℕ := 4096

/-- `PHYMEM_SIZE`, 128 MB. -/
abbrev phymemSize : ℕ := 2 ^ 27

/-- `BITMAP_SIZE`: one bit per page, 64 bits per word. -/
abbrev bitmapSize : ℕ := 512

/-- `PAGE_ARRAY_SIZE`: the number of page frames. -/
abbrev pageArraySize : ℕ := 32768

/-- `PG_ALIGN(addr)`: round up to a page boundary. -/
def pgAlign (addr : ℕ) : ℕ := (addr + pgSize - 1) / pgSize * pgSize

/-! ### The boot-time layout -/

/-- `phymem_block`: one usable block of physical memory. -/
structure PhymemBlock where
  base : ℕ
  length : ℕ
  deriving DecidableEq, Repr

/-- What `start` stores before it calls `mm_init`: the memory map and the bounds of the kernel
image. -/
structure BootInfo where
  /-- The blocks of memory that the loader reports. -/
  pmbArray : ℕ → PhymemBlock
  /-- Their number. -/
  pmbCount : ℕ
  /-- Where the image of the kernel starts. -/
  physbase : ℕ
  /-- The first address behind the image. -/
  physfree : ℕ

namespace BootInfo

variable (b : BootInfo)

/-- `_loaderbase`. -/
def loaderbase : ℕ := (b.pmbArray 0).base

/-- `_loaderend`. -/
def loaderend : ℕ := (b.pmbArray 0).base + (b.pmbArray 0).length

/-- The end of the last memory block, where the padding starts. -/
def memEnd : ℕ := (b.pmbArray (b.pmbCount - 1)).base + (b.pmbArray (b.pmbCount - 1)).length

/-- `bitmap_end` (as a physical address). -/
def bitmapEnd : ℕ := (b.physfree / pgSize + bitmapSize * 8 / pgSize) * pgSize

/-- `pgd_start` (as a physical address). -/
def pgdStart : ℕ := pgAlign (b.physfree + bitmapSize * 8)

/-- `pgtable_end`, which is also `page_array` (as a physical address). -/
def pgtableEnd : ℕ := (b.pgdStart / pgSize + (1 + 1 + 1 + 64)) * pgSize

/-- `page_array_end` (as a physical address). -/
def pageArrayEnd : ℕ :=
  (b.pgtableEnd / pgSize + pgAlign (pageArraySize * 4) / pgSize) * pgSize

/-- The frames of the boot loader image, `[pfn_start, pfn_end)`. -/
def loaderRange : ℕ × ℕ := (b.loaderbase / pgSize, b.loaderend / pgSize)

/-- The ranges of frames `setup_bitmap` marks busy forever, in its order. -/
def foreverRanges : List (ℕ × ℕ) :=
  [ -- memory hole
    (((b.pmbArray 0).base + (b.pmbArray 0).length) / pgSize, (b.pmbArray 1).base / pgSize),
    -- kernel image
    (b.physbase / pgSize, b.physfree / pgSize),
    -- padding area
    (b.memEnd / pgSize, phymemSize / pgSize),
    -- the bitmap itself
    (b.physfree / pgSize, b.physfree / pgSize + bitmapSize * 8 / pgSize),
    -- initial page tables
    (b.pgdStart / pgSize, b.pgdStart / pgSize + (1 + 1 + 1 + 64)),
    -- page array
    (b.pgtableEnd / pgSize, b.pgtableEnd / pgSize + pgAlign (pageArraySize * 4) / pgSize)]

end BootInfo

/-! ### State and boot -/

/-- The allocator's data: the bitmap words and the reference count of each frame. -/
structure PageState where
  /-- A bit for each frame, set while it is in use. -/
  bitmap : ℕ → BitVec 64
  /-- The `ref` of each frame. -/
  pageArray : ℕ → ℤ

/-- The loop `for (i = pfn_start; i < pfn_end; i++) bitmap[i/64] |= 1 << (i%64)`. -/
def markBusy (bm : ℕ → BitVec 64) (r : ℕ × ℕ) : ℕ → BitVec 64 :=
  (List.range' r.1 (r.2 - r.1)).foldl
    (fun bm i => Function.update bm (i / 64) (bm (i / 64) ||| sx32 (i % 64))) bm

/-- `setup_bitmap`: the loader's frames, then the frames that stay busy forever. -/
def setupBitmap (b : BootInfo) : ℕ → BitVec 64 :=
  (b.loaderRange :: b.foreverRanges).foldl markBusy fun _ => 0

/-- `setup_page_array`: the count of frame `i * 64 + j` is 1 if `bitmap[i] & (1<<j)`, else 0. -/
def setupPageArray (bm : ℕ → BitVec 64) (pfn : ℕ) : ℤ :=
  if bm (pfn / 64) &&& sx32 (pfn % 64) ≠ 0 then 1 else 0

/-- `free_initmem`: the loader's frames become free. -/
def freeInitmem (b : BootInfo) (s : PageState) : PageState :=
  (List.range' b.loaderRange.1 (b.loaderRange.2 - b.loaderRange.1)).foldl
    (fun s i =>
      { bitmap := Function.update s.bitmap (i / 64) (s.bitmap (i / 64) &&& ~~~ sx32 (i % 64))
        pageArray := Function.update s.pageArray i 0 }) s

/-- `mm_init`, as far as the allocator's data goes. -/
def mmInit (b : BootInfo) : PageState :=
  freeInitmem b { bitmap := setupBitmap b, pageArray := setupPageArray (setupBitmap b) }

/-! ### The allocator's operations -/

/-- `normal_pfn_start`. -/
abbrev normalPfnStart : ℕ := 671

/-- `normal_pfn_end`. -/
abbrev normalPfnEnd : ℕ := 32766

/-- The search loop of `get_free_page`: the first frame of the normal area with count 0. -/
def findFree (pa : ℕ → ℤ) : Option ℕ :=
  (List.range' normalPfnStart (normalPfnEnd - normalPfnStart)).find? fun pfn => pa pfn == 0

namespace PageState

/-- `get_free_page`: the frame and the state after it was taken. -/
def getFreePage (s : PageState) : Except Stop (ℕ × PageState) :=
  match findFree s.pageArray with
  | some pfn => .ok (pfn,
      { pageArray := Function.update s.pageArray pfn 1
        bitmap := Function.update s.bitmap (pfn / 64) (s.bitmap (pfn / 64) ||| sx32 (pfn % 64)) })
  | none => .error (.panic "[get_free_page] ERROR : out of memory!")

/-- `add_page_ref`.  The assertion compares addresses inside `page_array`, so it bounds `pfn`. -/
def addPageRef (s : PageState) (pfn : ℕ) : Except Stop PageState :=
  if pfn < pageArraySize then
    .ok { s with pageArray := Function.update s.pageArray pfn (wrap32 (s.pageArray pfn + 1)) }
  else .error (.assertFail "add_page_ref")

/-- `get_page_ref`. -/
def getPageRef (s : PageState) (pfn : ℕ) : Except Stop ℤ :=
  if pfn < pageArraySize then .ok (s.pageArray pfn) else .error (.assertFail "get_page_ref")

/-- `deduct_page_ref`. -/
def deductPageRef (s : PageState) (pfn : ℕ) : Except Stop PageState :=
  if pfn < pageArraySize then
    .ok { s with pageArray := Function.update s.pageArray pfn (wrap32 (s.pageArray pfn - 1)) }
  else .error (.assertFail "deduct_page_ref")

/-- `free_page`: the bitmap bit is cleared when the count reaches 0. -/
def freePage (s : PageState) (pfn : ℕ) : PageState :=
  let ref := wrap32 (s.pageArray pfn - 1)
  { pageArray := Function.update s.pageArray pfn ref
    bitmap := if ref = 0 then
        Function.update s.bitmap (pfn / 64) (s.bitmap (pfn / 64) &&& ~~~ sx32 (pfn % 64))
      else s.bitmap }

end PageState

/-! ### What each operation does -/

theorem findFree_spec {pa : ℕ → ℤ} {pfn : ℕ} (h : findFree pa = some pfn) :
    normalPfnStart ≤ pfn ∧ pfn < normalPfnEnd ∧ pa pfn = 0 ∧
      ∀ q, normalPfnStart ≤ q → q < pfn → pa q ≠ 0 := by
  unfold findFree at h
  rw [List.find?_range'_eq_some] at h
  obtain ⟨h0, hmem, hmin⟩ := h
  rw [List.mem_range'_1] at hmem
  refine ⟨hmem.1, by omega, by simpa using h0, fun q hq hlt => ?_⟩
  simpa using hmin q hq hlt

/-- The search finds a frame if the normal area has one with count 0. -/
theorem findFree_isSome {pa : ℕ → ℤ} {q : ℕ} (h₁ : normalPfnStart ≤ q) (h₂ : q < normalPfnEnd)
    (h0 : pa q = 0) : ∃ pfn, findFree pa = some pfn ∧ pfn ≤ q := by
  cases hf : findFree pa with
  | none =>
    unfold findFree at hf
    rw [List.find?_eq_none] at hf
    exact absurd (hf q (List.mem_range'_1.2 ⟨h₁, by omega⟩)) (by simp [h0])
  | some pfn =>
    refine ⟨pfn, rfl, ?_⟩
    by_contra hlt
    exact (findFree_spec hf).2.2.2 q h₁ (by omega) h0

theorem getFreePage_eq_ok {s s' : PageState} {pfn : ℕ} (h : s.getFreePage = .ok (pfn, s')) :
    findFree s.pageArray = some pfn ∧ s'.pageArray = Function.update s.pageArray pfn 1 := by
  unfold PageState.getFreePage at h
  split at h
  · rename_i q hq
    simp only [Except.ok.injEq, Prod.mk.injEq] at h
    obtain ⟨rfl, rfl⟩ := h
    exact ⟨hq, rfl⟩
  · simp at h

theorem getFreePage_of_findFree {s : PageState} {pfn : ℕ} (h : findFree s.pageArray = some pfn) :
    ∃ s', s.getFreePage = .ok (pfn, s') ∧ s'.pageArray = Function.update s.pageArray pfn 1 := by
  unfold PageState.getFreePage
  rw [h]
  exact ⟨_, rfl, rfl⟩

theorem addPageRef_eq_ok {s s' : PageState} {pfn : ℕ} (h : s.addPageRef pfn = .ok s') :
    pfn < pageArraySize ∧
      s'.pageArray = Function.update s.pageArray pfn (wrap32 (s.pageArray pfn + 1)) := by
  unfold PageState.addPageRef at h
  split at h
  · simp only [Except.ok.injEq] at h; subst h; exact ⟨‹_›, rfl⟩
  · simp at h

theorem deductPageRef_eq_ok {s s' : PageState} {pfn : ℕ} (h : s.deductPageRef pfn = .ok s') :
    pfn < pageArraySize ∧
      s'.pageArray = Function.update s.pageArray pfn (wrap32 (s.pageArray pfn - 1)) := by
  unfold PageState.deductPageRef at h
  split at h
  · simp only [Except.ok.injEq] at h; subst h; exact ⟨‹_›, rfl⟩
  · simp at h

@[simp] theorem freePage_pageArray (s : PageState) (pfn : ℕ) :
    (s.freePage pfn).pageArray = Function.update s.pageArray pfn (wrap32 (s.pageArray pfn - 1)) :=
  rfl

end PlumOs
