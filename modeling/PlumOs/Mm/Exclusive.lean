import Mathlib.Tactic.Ring
import PlumOs.Mm.PageAlloc

/-!
# Page frames are handed out to one owner at a time

The allocator is run as a machine over `get_free_page`, `add_page_ref`, `deduct_page_ref` and
`free_page`, next to a ledger of the acquisitions still outstanding for each frame.  A run is
*balanced* when it never releases a frame more often than it was acquired.

* `marked_setupBitmap` : the frames `setup_bitmap` walks over test as busy afterwards, whatever
  other frames alias to the same bits of the 32-bit shift;
* `pageArray_mmInit_of_reserved` : every reserved frame leaves `mm_init` with count 1;
* `RefInv` : each count is the initial one plus the outstanding acquisitions, reduced to 32 bits;
* `getFreePage_exclusive` : so `get_free_page` returns no reserved and no held frame, as long as
  no count needs more than 32 bits;
* `stdinPage_exclusive_iff` : the frame `kbdinit` takes before `mm_init` has run is exclusive
  exactly if `mm_init` happens to mark it busy.
-/

namespace PlumOs

/-! ### The bitmap after `setup_bitmap` -/

/-- The test `bitmap[pfn/64] & (1 << (pfn%64))`. -/
def Marked (bm : ℕ → BitVec 64) (pfn : ℕ) : Prop := bm (pfn / 64) &&& sx32 (pfn % 64) ≠ 0

theorem marked_update_or {bm : ℕ → BitVec 64} {pfn : ℕ} (h : Marked bm pfn) (i : ℕ)
    (m : BitVec 64) : Marked (Function.update bm i (bm i ||| m)) pfn := by
  unfold Marked at *
  by_cases hi : pfn / 64 = i
  · subst hi; rw [Function.update_self]; exact or_and_ne_zero h m
  · rw [Function.update_of_ne hi]; exact h

theorem marked_update_self (bm : ℕ → BitVec 64) (pfn : ℕ) :
    Marked (Function.update bm (pfn / 64) (bm (pfn / 64) ||| sx32 (pfn % 64))) pfn := by
  unfold Marked
  rw [Function.update_self]
  exact or_and_self_ne_zero (sx32_ne_zero _) _

theorem marked_foldl {pfn : ℕ} (l : List ℕ) (bm : ℕ → BitVec 64)
    (h : Marked bm pfn ∨ pfn ∈ l) :
    Marked (l.foldl (fun bm i =>
      Function.update bm (i / 64) (bm (i / 64) ||| sx32 (i % 64))) bm) pfn := by
  induction l generalizing bm with
  | nil => simpa using h
  | cons i l ih =>
    rw [List.foldl_cons]
    apply ih
    rcases h with h | h
    · exact .inl (marked_update_or h _ _)
    · rcases List.mem_cons.1 h with rfl | h
      · exact .inl (marked_update_self _ _)
      · exact .inr h

theorem marked_markBusy {bm : ℕ → BitVec 64} {r : ℕ × ℕ} {pfn : ℕ}
    (h : Marked bm pfn ∨ r.1 ≤ pfn ∧ pfn < r.2) : Marked (markBusy bm r) pfn := by
  refine marked_foldl _ _ (h.imp id fun hr => ?_)
  exact List.mem_range'_1.2 ⟨hr.1, by omega⟩

/-- **A frame of a busy range tests as busy after `setup_bitmap`.**  Later ranges only set more
bits, so the aliasing of the 32-bit shift can add busy frames but never removes one. -/
theorem marked_setupBitmap {b : BootInfo} {r : ℕ × ℕ} {pfn : ℕ}
    (hr : r ∈ b.loaderRange :: b.foreverRanges) (hpfn : r.1 ≤ pfn ∧ pfn < r.2) :
    Marked (setupBitmap b) pfn := by
  have key : ∀ (rs : List (ℕ × ℕ)) (bm : ℕ → BitVec 64), Marked bm pfn ∨ r ∈ rs →
      Marked (rs.foldl markBusy bm) pfn := by
    intro rs
    induction rs with
    | nil => intro bm h; simpa using h
    | cons q rs ih =>
      intro bm h
      rw [List.foldl_cons]
      apply ih
      rcases h with h | h
      · exact .inl (marked_markBusy (.inl h))
      · rcases List.mem_cons.1 h with rfl | h
        · exact .inl (marked_markBusy (.inr hpfn))
        · exact .inr h
  exact key _ _ (.inr hr)

/-! ### The counts after `mm_init` -/

theorem freeInitmem_pageArray (b : BootInfo) (s : PageState) (pfn : ℕ) :
    (freeInitmem b s).pageArray pfn =
      if b.loaderRange.1 ≤ pfn ∧ pfn < b.loaderRange.2 then 0 else s.pageArray pfn := by
  have key : ∀ (l : List ℕ) (s : PageState),
      (l.foldl (fun s i =>
        { bitmap := Function.update s.bitmap (i / 64) (s.bitmap (i / 64) &&& ~~~ sx32 (i % 64))
          pageArray := Function.update s.pageArray i 0 }) s).pageArray pfn =
        if pfn ∈ l then 0 else s.pageArray pfn := by
    intro l
    induction l with
    | nil => intro s; simp
    | cons i l ih =>
      intro s
      rw [List.foldl_cons, ih]
      by_cases hl : pfn ∈ l
      · simp [hl]
      · by_cases hi : pfn = i
        · subst hi; simp
        · simp [hl, hi]
  unfold freeInitmem
  rw [key]
  refine if_congr ?_ rfl rfl
  rw [List.mem_range'_1]
  omega

/-- After `mm_init` every count is 0 or 1. -/
theorem mmInit_pageArray_mem (b : BootInfo) (pfn : ℕ) :
    (mmInit b).pageArray pfn = 0 ∨ (mmInit b).pageArray pfn = 1 := by
  simp only [mmInit, freeInitmem_pageArray, setupPageArray]
  split_ifs <;> simp

/-- The documented layout: two blocks of memory with the hole between them, the kernel image and
everything `mm_init` places behind it inside the upper block, and the rest of the 128 MB padding.
The addresses of the picture above `setup_bitmap` are an instance (`docLayout`). -/
structure BootInfo.TwoBlock (b : BootInfo) : Prop where
  /-- There are two blocks. -/
  count : b.pmbCount = 2
  /-- The second block is above the first one. -/
  hole : (b.pmbArray 0).base + (b.pmbArray 0).length ≤ (b.pmbArray 1).base
  /-- The second block starts with a page. -/
  aligned : (b.pmbArray 1).base % pgSize = 0
  /-- The image of the kernel is in the second block. -/
  base_le : (b.pmbArray 1).base ≤ b.physbase
  /-- The image does not end before it starts. -/
  image : b.physbase ≤ b.physfree
  /-- The image ends with a page. -/
  physfree_aligned : b.physfree % pgSize = 0
  /-- The tables and arrays behind it are in the block too. -/
  fits : b.pageArrayEnd ≤ (b.pmbArray 1).base + (b.pmbArray 1).length
  /-- The block ends inside the memory that the kernel manages. -/
  top : (b.pmbArray 1).base + (b.pmbArray 1).length ≤ phymemSize

/-- Frame `pfn` holds a byte of the physical range `[lo, hi)`. -/
def Touches (pfn lo hi : ℕ) : Prop := lo < (pfn + 1) * pgSize ∧ pfn * pgSize < hi ∧ lo < hi

instance (pfn lo hi : ℕ) : Decidable (Touches pfn lo hi) := inferInstanceAs (Decidable (_ ∧ _))

/-- The frames that must never be handed out: the memory hole, the kernel image, the bitmap page,
the initial page tables, the page array and the padding. -/
def BootInfo.Reserved (b : BootInfo) (pfn : ℕ) : Prop :=
  Touches pfn ((b.pmbArray 0).base + (b.pmbArray 0).length) (b.pmbArray 1).base ∨
  Touches pfn b.physbase b.physfree ∨
  Touches pfn b.physfree b.bitmapEnd ∨
  Touches pfn b.pgdStart b.pgtableEnd ∨
  Touches pfn b.pgtableEnd b.pageArrayEnd ∨
  Touches pfn b.memEnd phymemSize

theorem BootInfo.TwoBlock.memEnd_eq {b : BootInfo} (hb : b.TwoBlock) :
    b.memEnd = (b.pmbArray 1).base + (b.pmbArray 1).length := by
  simp [BootInfo.memEnd, hb.count]

/-- A reserved frame lies in a range that `setup_bitmap` marks, and not in the loader image. -/
theorem reserved_mem_range {b : BootInfo} (hb : b.TwoBlock) {pfn : ℕ} (h : b.Reserved pfn) :
    (∃ r ∈ b.foreverRanges, r.1 ≤ pfn ∧ pfn < r.2) ∧ b.loaderRange.2 ≤ pfn := by
  have hm := hb.memEnd_eq
  obtain ⟨-, hh, ha, hbl, hi, hp, hf, ht⟩ := hb
  simp only [BootInfo.Reserved, Touches, BootInfo.foreverRanges, BootInfo.bitmapEnd,
    BootInfo.pgdStart, BootInfo.pgtableEnd, BootInfo.pageArrayEnd, BootInfo.loaderRange,
    BootInfo.loaderend, pgAlign, pgSize, phymemSize, bitmapSize, pageArraySize, hm,
    List.mem_cons, List.not_mem_nil, or_false, exists_eq_or_imp, exists_eq_left] at *
  omega

/-- **Every reserved frame leaves `mm_init` with count 1.** -/
theorem pageArray_mmInit_of_reserved {b : BootInfo} (hb : b.TwoBlock) {pfn : ℕ}
    (h : b.Reserved pfn) : (mmInit b).pageArray pfn = 1 := by
  obtain ⟨⟨r, hr, hpfn⟩, hl⟩ := reserved_mem_range hb h
  have hm : Marked (setupBitmap b) pfn := marked_setupBitmap (List.mem_cons_of_mem _ hr) hpfn
  have hnl : ¬ (b.loaderRange.1 ≤ pfn ∧ pfn < b.loaderRange.2) := by omega
  unfold mmInit
  rw [freeInitmem_pageArray, if_neg hnl]
  exact if_pos hm

/-! ### Runs of the allocator -/

/-- The allocator's entry points. -/
inductive PageOp where
  | getFreePage
  | addPageRef (pfn : ℕ)
  | deductPageRef (pfn : ℕ)
  | freePage (pfn : ℕ)
  deriving DecidableEq, Repr

/-- The allocator with a ledger of the acquisitions of each frame that are still outstanding. -/
structure Ledger where
  /-- The allocator. -/
  pages : PageState
  /-- The references to a frame that were acquired and not given back. -/
  held : ℕ → ℕ

namespace Ledger

/-- One call.  `get_free_page` and `add_page_ref` acquire a frame, the other two release it. -/
def step (s : Ledger) : PageOp → Except Stop Ledger
  | .getFreePage => s.pages.getFreePage.map fun r =>
      ⟨r.2, Function.update s.held r.1 (s.held r.1 + 1)⟩
  | .addPageRef pfn => (s.pages.addPageRef pfn).map fun pages =>
      ⟨pages, Function.update s.held pfn (s.held pfn + 1)⟩
  | .deductPageRef pfn => (s.pages.deductPageRef pfn).map fun pages =>
      ⟨pages, Function.update s.held pfn (s.held pfn - 1)⟩
  | .freePage pfn => .ok ⟨s.pages.freePage pfn, Function.update s.held pfn (s.held pfn - 1)⟩

/-- The state `mm_init` leaves, with nothing acquired yet. -/
def boot (b : BootInfo) : Ledger := ⟨mmInit b, fun _ => 0⟩

/-- A release is matched by an earlier acquisition of the same frame. -/
def Balanced (s : Ledger) : PageOp → Prop
  | .getFreePage => True
  | .addPageRef _ => True
  | .deductPageRef pfn => 0 < s.held pfn
  | .freePage pfn => 0 < s.held pfn

/-- The count of the frame, 1 if `mm_init` marked it plus one for each outstanding acquisition,
stays below `2^32`. -/
def Bounded (b : BootInfo) (s : Ledger) : PageOp → Prop
  | .addPageRef pfn => (mmInit b).pageArray pfn + s.held pfn + 1 < 2 ^ 32
  | _ => True

instance (s : Ledger) : (op : PageOp) → Decidable (s.Balanced op)
  | .getFreePage | .addPageRef _ => isTrue trivial
  | .deductPageRef pfn | .freePage pfn => inferInstanceAs (Decidable (0 < s.held pfn))

instance (b : BootInfo) (s : Ledger) : (op : PageOp) → Decidable (Bounded b s op)
  | .addPageRef pfn => inferInstanceAs (Decidable ((mmInit b).pageArray pfn + s.held pfn + 1 < 2 ^ 32))
  | .getFreePage | .deductPageRef _ | .freePage _ => isTrue trivial

/-- What the counts mean: initial mark plus outstanding acquisitions, in 32 bits. -/
def RefInv (b : BootInfo) (s : Ledger) : Prop :=
  ∀ pfn, s.pages.pageArray pfn = wrap32 ((mmInit b).pageArray pfn + s.held pfn) ∧
    (mmInit b).pageArray pfn + s.held pfn < 2 ^ 32

theorem refInv_boot (b : BootInfo) : RefInv b (boot b) := by
  intro pfn
  have h : (boot b).held pfn = 0 := rfl
  rcases mmInit_pageArray_mem b pfn with h0 | h0
  · simp [boot, h0, wrap32]
  · simp [boot, h0, wrap32]

/-- A frame with count 0 was not marked by `mm_init` and is not held. -/
theorem RefInv.eq_zero {b : BootInfo} {s : Ledger} (h : RefInv b s) {pfn : ℕ}
    (h0 : s.pages.pageArray pfn = 0) : (mmInit b).pageArray pfn = 0 ∧ s.held pfn = 0 := by
  obtain ⟨hp, hlt⟩ := h pfn
  rw [hp] at h0
  have hm := mmInit_pageArray_mem b pfn
  have := (wrap32_eq_zero (by omega) hlt).1 h0
  omega

/-- Changing one count and the ledger of the same frame alike keeps `RefInv`. -/
theorem RefInv.update {b : BootInfo} {s : Ledger} (h : RefInv b s) {pfn n : ℕ} {x : ℤ}
    {pages : PageState} (hpages : pages.pageArray = Function.update s.pages.pageArray pfn x)
    (hx : x = wrap32 ((mmInit b).pageArray pfn + n))
    (hn : (mmInit b).pageArray pfn + n < 2 ^ 32) :
    RefInv b ⟨pages, Function.update s.held pfn n⟩ := by
  intro q
  simp only [hpages]
  by_cases hq : q = pfn
  · subst hq; simp only [Function.update_self]; exact ⟨hx, hn⟩
  · simp only [Function.update_of_ne hq]; exact h q

/-- One call keeps `RefInv`. -/
theorem refInv_step {b : BootInfo} {s s' : Ledger} {op : PageOp} (h : RefInv b s)
    (hg : Balanced s op ∧ Bounded b s op) (hs : s.step op = .ok s') : RefInv b s' := by
  cases op with
  | getFreePage =>
    obtain ⟨⟨pfn, pages⟩, hget, rfl⟩ := map_eq_ok.1 hs
    obtain ⟨hfind, hpages⟩ := getFreePage_eq_ok hget
    obtain ⟨hm, hh⟩ := h.eq_zero (findFree_spec hfind).2.2.1
    refine h.update hpages ?_ ?_ <;> simp [hm, hh, wrap32]
  | addPageRef pfn =>
    obtain ⟨pages, hadd, rfl⟩ := map_eq_ok.1 hs
    have hb : (mmInit b).pageArray pfn + s.held pfn + 1 < 2 ^ 32 := hg.2
    refine h.update (addPageRef_eq_ok hadd).2 ?_ (by push_cast; omega)
    rw [(h pfn).1, wrap32_wrap32_add]
    push_cast; rw [add_assoc]
  | deductPageRef pfn =>
    obtain ⟨pages, hded, rfl⟩ := map_eq_ok.1 hs
    have hheld : 0 < s.held pfn := hg.1
    have hlt := (h pfn).2
    refine h.update (deductPageRef_eq_ok hded).2 ?_ (by omega)
    rw [(h pfn).1, sub_eq_add_neg, wrap32_wrap32_add]
    congr 1; omega
  | freePage pfn =>
    simp only [step, Except.ok.injEq] at hs
    subst hs
    have hheld : 0 < s.held pfn := hg.1
    have hlt := (h pfn).2
    refine h.update (freePage_pageArray _ _) ?_ (by omega)
    rw [(h pfn).1, sub_eq_add_neg, wrap32_wrap32_add]
    congr 1; omega

end Ledger

/-- **Page frames are exclusive.**  After `mm_init` on a two-block layout and any balanced run in
which no count outgrows 32 bits, `get_free_page` returns a frame that is neither reserved nor
still held. -/
theorem getFreePage_exclusive {b : BootInfo} (hb : b.TwoBlock) {ops : List PageOp} {s : Ledger}
    (hrun : run Ledger.step (Ledger.boot b) ops = .ok s)
    (hal : Along Ledger.step (fun s op => s.Balanced op ∧ Ledger.Bounded b s op)
      (Ledger.boot b) ops)
    {pfn : ℕ} {pages : PageState} (hget : s.pages.getFreePage = .ok (pfn, pages)) :
    ¬ b.Reserved pfn ∧ s.held pfn = 0 := by
  have hinv : Ledger.RefInv b s :=
    run_invariant (Ledger.refInv_boot b) (fun _ _ _ h hg hs => Ledger.refInv_step h hg hs) hal hrun
  obtain ⟨hm, hheld⟩ := hinv.eq_zero (findFree_spec (getFreePage_eq_ok hget).1).2.2.1
  refine ⟨fun hres => ?_, hheld⟩
  rw [pageArray_mmInit_of_reserved hb hres] at hm
  exact one_ne_zero hm

/-- The addresses of the picture above `setup_bitmap`, with the kernel image ending at
`physfree`. -/
def docLayout (physfree : ℕ) : BootInfo where
  pmbArray i := if i = 0 then ⟨0, 0x9fc00⟩ else ⟨0x100000, 0x7efe000⟩
  pmbCount := 2
  physbase := 0x200000
  physfree := physfree

theorem docLayout_twoBlock {physfree : ℕ} (h₁ : 0x200000 ≤ physfree) (h₂ : physfree < 0x300000)
    (ha : physfree % pgSize = 0) : (docLayout physfree).TwoBlock where
  count := rfl
  hole := by simp [docLayout]
  aligned := by simp [docLayout, pgSize]
  base_le := by simp [docLayout]
  image := h₁
  physfree_aligned := ha
  fits := by
    simp only [BootInfo.pageArrayEnd, BootInfo.pgtableEnd, BootInfo.pgdStart, pgAlign, docLayout,
      pgSize, bitmapSize, pageArraySize] at *
    simp only [one_ne_zero, ↓reduceIte]
    omega
  top := by simp [docLayout, phymemSize]

/-- With the image ending at `0x23b000` the first frame of the normal area is free after boot. -/
theorem mmInit_docLayout_start : (mmInit (docLayout 0x23b000)).pageArray normalPfnStart = 0 := by
  decide +kernel

/-- The first frame of the normal area is found whenever it is free. -/
theorem findFree_start {pa : ℕ → ℤ} (h : pa normalPfnStart = 0) :
    findFree pa = some normalPfnStart := by
  obtain ⟨pfn, hf, hle⟩ := findFree_isSome (le_refl _) (by decide) h
  have := (findFree_spec hf).1
  rw [hf, le_antisymm hle this]

theorem getFreePage_start {s : PageState} (h : s.pageArray normalPfnStart = 0) :
    ∃ s', s.getFreePage = .ok (normalPfnStart, s') ∧
      s'.pageArray = Function.update s.pageArray normalPfnStart 1 :=
  getFreePage_of_findFree (findFree_start h)

/-- The first frame is taken, shared, and given back. -/
def sharedOps : List PageOp :=
  [.getFreePage, .addPageRef normalPfnStart, .deductPageRef normalPfnStart, .freePage normalPfnStart]

/-- After that it is given out again. -/
theorem getFreePage_exclusive_shared : ∃ s pfn pages,
    run Ledger.step (Ledger.boot (docLayout 0x23b000)) sharedOps = .ok s ∧
      s.pages.getFreePage = .ok (pfn, pages) ∧ ¬ (docLayout 0x23b000).Reserved pfn ∧ s.held pfn = 0 := by
  have hb : (docLayout 0x23b000).TwoBlock :=
    docLayout_twoBlock (by decide) (by decide) (by decide)
  have hreach : reaches (run Ledger.step (Ledger.boot (docLayout 0x23b000)) sharedOps) (fun s =>
      reaches s.pages.getFreePage fun _ => true) = true := by
    decide +kernel
  have hal : alongB Ledger.step (fun s op => decide (s.Balanced op ∧
      Ledger.Bounded (docLayout 0x23b000) s op)) (Ledger.boot (docLayout 0x23b000)) sharedOps = true := by
    decide +kernel
  obtain ⟨s, hrun, hpage⟩ := exists_of_reaches hreach
  obtain ⟨⟨pfn, pages⟩, hget, -⟩ := exists_of_reaches hpage
  exact ⟨s, pfn, pages, hrun, hget, getFreePage_exclusive hb hrun (along_of_decide hal) hget⟩

namespace Ledger

/-- `n` references to one frame in a row. -/
theorem run_replicate_addPageRef {pfn : ℕ} (hp : pfn < pageArraySize) (n : ℕ) {s : Ledger} {x : ℤ}
    (hx : s.pages.pageArray pfn = wrap32 x) :
    ∃ s', run step s (List.replicate n (.addPageRef pfn)) = .ok s' ∧
      s'.pages.pageArray pfn = wrap32 (x + n) ∧ s'.held pfn = s.held pfn + n := by
  induction n generalizing s x with
  | zero => exact ⟨s, rfl, by simpa using hx, rfl⟩
  | succ n ih =>
    obtain ⟨t, hadd, href, hheld⟩ : ∃ t, s.step (.addPageRef pfn) = .ok t ∧
        t.pages.pageArray pfn = wrap32 (x + 1) ∧ t.held pfn = s.held pfn + 1 := by
      refine ⟨⟨⟨s.pages.bitmap, Function.update s.pages.pageArray pfn
        (wrap32 (s.pages.pageArray pfn + 1))⟩, Function.update s.held pfn (s.held pfn + 1)⟩,
        ?_, ?_, ?_⟩
      · simp only [step, PageState.addPageRef, hp, if_true]; rfl
      · simp only [Function.update_self, hx, wrap32_wrap32_add]
      · simp only [Function.update_self]
    obtain ⟨s', hrun, href', hheld'⟩ := ih href
    rw [List.replicate_succ, run_cons_ok hadd]
    refine ⟨s', hrun, ?_, by omega⟩
    rw [href']; congr 1; push_cast; ring

theorem along_replicate_addPageRef (s : Ledger) (pfn n : ℕ) :
    Along step Balanced s (List.replicate n (.addPageRef pfn)) := by
  induction n generalizing s with
  | zero => trivial
  | succ n ih => exact ⟨trivial, fun s' _ => ih s'⟩

end Ledger

/-- A count is only 32 bits wide: after `2^32 - 1` further references to the frame just taken its
count is 0 again, and `get_free_page` hands the held frame out once more. -/
theorem getFreePage_returns_held :
    ∃ (ops : List PageOp) (s : Ledger) (pages : PageState),
      Along Ledger.step Ledger.Balanced (Ledger.boot (docLayout 0x23b000)) ops ∧
      run Ledger.step (Ledger.boot (docLayout 0x23b000)) ops = .ok s ∧
      s.pages.getFreePage = .ok (normalPfnStart, pages) ∧ s.held normalPfnStart = 2 ^ 32 := by
  obtain ⟨pages, hget, hpa⟩ := getFreePage_start mmInit_docLayout_start
  have hfirst : Ledger.step (Ledger.boot (docLayout 0x23b000)) .getFreePage = .ok
      ⟨pages, Function.update (fun _ => 0) normalPfnStart 1⟩ := by
    simp only [Ledger.step, Ledger.boot, hget, Except.map]
  have hone : pages.pageArray normalPfnStart = wrap32 1 := by
    rw [hpa, Function.update_self]; decide
  obtain ⟨s, hrun, href, hheld⟩ := Ledger.run_replicate_addPageRef
    (s := ⟨pages, Function.update (fun _ => 0) normalPfnStart 1⟩) (by decide) (2 ^ 32 - 1) hone
  have hzero : s.pages.pageArray normalPfnStart = 0 := by rw [href]; decide
  obtain ⟨pages', hget', -⟩ := getFreePage_start hzero
  refine ⟨.getFreePage :: List.replicate (2 ^ 32 - 1) (.addPageRef normalPfnStart), s, pages',
    ⟨trivial, fun s' _ => Ledger.along_replicate_addPageRef s' _ _⟩, ?_, hget', ?_⟩
  · rw [run_cons_ok hfirst]; exact hrun
  · rw [hheld]; simp only [Function.update_self]; norm_num

/-! ### The frame taken before `mm_init` -/

/-- `kbdinit`: `start` calls it before `mm_init`, so `page_array` and `bitmap` are still null
pointers and `early` is whatever the memory behind them holds.  The result is the frame of
`stdin_buf`. -/
def kbdinit (early : PageState) : Except Stop (ℕ × PageState) := early.getFreePage

/-- Calls of `get_free_page` and `free_page`. -/
def PageOp.isGetOrFree : PageOp → Bool
  | .getFreePage => true
  | .freePage _ => true
  | _ => false

/-- No balanced run of `get_free_page` and `free_page` after `mm_init` returns `pfn`. -/
def NeverReturned (b : BootInfo) (pfn : ℕ) : Prop :=
  ∀ (ops : List PageOp) (s : Ledger) (q : ℕ) (pages : PageState),
    (∀ op ∈ ops, op.isGetOrFree) → Along Ledger.step Ledger.Balanced (Ledger.boot b) ops →
    run Ledger.step (Ledger.boot b) ops = .ok s → s.pages.getFreePage = .ok (q, pages) → q ≠ pfn

namespace Ledger

/-- Without `add_page_ref` no count can outgrow 32 bits. -/
theorem along_bounded {b : BootInfo} {s : Ledger} {ops : List PageOp}
    (hops : ∀ op ∈ ops, op.isGetOrFree) (h : Along step Balanced s ops) :
    Along step (fun s op => s.Balanced op ∧ Bounded b s op) s ops := by
  induction ops generalizing s with
  | nil => trivial
  | cons op ops ih =>
    have hop := hops op List.mem_cons_self
    refine ⟨⟨h.1, ?_⟩, fun s' hs' => ih (fun o ho => hops o (List.mem_cons_of_mem _ ho)) (h.2 s' hs')⟩
    cases op <;> trivial

theorem step_getFreePage_ok {s : Ledger} {q : ℕ} (h : findFree s.pages.pageArray = some q) :
    ∃ t, s.step .getFreePage = .ok t ∧
      t.pages.pageArray = Function.update s.pages.pageArray q 1 := by
  obtain ⟨pages, hget, hpa⟩ := getFreePage_of_findFree h
  simp only [step, hget, Except.map]
  exact ⟨_, rfl, hpa⟩

/-- `get_free_page` called often enough returns every free frame of the normal area: all frames
up to the one returned are taken afterwards, so the search moves up. -/
theorem exists_run_returning {pfn : ℕ} (h₁ : normalPfnStart ≤ pfn) (h₂ : pfn < normalPfnEnd)
    (d : ℕ) {s : Ledger} (h0 : s.pages.pageArray pfn = 0)
    (htaken : ∀ r, normalPfnStart ≤ r → r + d < pfn → s.pages.pageArray r ≠ 0) :
    ∃ (k : ℕ) (s' : Ledger) (pages : PageState),
      run step s (List.replicate k .getFreePage) = .ok s' ∧
      s'.pages.getFreePage = .ok (pfn, pages) := by
  induction d generalizing s with
  | zero =>
    obtain ⟨q, hq, hle⟩ := findFree_isSome h₁ h₂ h0
    obtain ⟨hlo, -, hq0, -⟩ := findFree_spec hq
    have : q = pfn := by
      by_contra hne
      exact htaken q hlo (by omega) hq0
    subst this
    obtain ⟨pages, hget, -⟩ := getFreePage_of_findFree hq
    exact ⟨0, s, pages, rfl, hget⟩
  | succ d ih =>
    obtain ⟨q, hq, hle⟩ := findFree_isSome h₁ h₂ h0
    obtain ⟨hlo, -, hq0, hmin⟩ := findFree_spec hq
    by_cases hqp : q = pfn
    · subst hqp
      obtain ⟨pages, hget, -⟩ := getFreePage_of_findFree hq
      exact ⟨0, s, pages, rfl, hget⟩
    · obtain ⟨t, ht, hpa⟩ := step_getFreePage_ok hq
      have hqd : pfn ≤ q + (d + 1) := by
        by_contra hlt
        exact htaken q hlo (by omega) hq0
      obtain ⟨k, s', pages, hrun, hget⟩ := ih (s := t)
        (by rw [hpa, Function.update_of_ne (Ne.symm hqp)]; exact h0)
        (fun r hr hrd => by
          rw [hpa]
          by_cases hrq : r = q
          · subst hrq; simp
          · rw [Function.update_of_ne hrq]; exact hmin r hr (by omega))
      exact ⟨k + 1, s', pages, by rw [List.replicate_succ, run_cons_ok ht]; exact hrun, hget⟩

theorem along_replicate_getFreePage (s : Ledger) (k : ℕ) :
    Along step Balanced s (List.replicate k .getFreePage) := by
  induction k generalizing s with
  | zero => trivial
  | succ k ih => exact ⟨trivial, fun s' _ => ih s'⟩

end Ledger

/-- **The page of `stdin_buf`.**  Whatever the memory behind the null pointers held, the frame
`kbdinit` obtained is never handed out again after `mm_init` exactly if `mm_init` marks it busy:
the counts are rebuilt from the layout alone, which knows nothing of that frame. -/
theorem stdinPage_exclusive_iff (b : BootInfo) {early early' : PageState} {pfn : ℕ}
    (hkbd : kbdinit early = .ok (pfn, early')) :
    NeverReturned b pfn ↔ (mmInit b).pageArray pfn ≠ 0 := by
  obtain ⟨hlo, hhi, -, -⟩ := findFree_spec (getFreePage_eq_ok hkbd).1
  constructor
  · intro hnever h0
    obtain ⟨k, s, pages, hrun, hget⟩ := Ledger.exists_run_returning hlo hhi pfn
      (s := Ledger.boot b) h0 (fun r _ hr => absurd hr (by omega))
    refine hnever _ s pfn pages (fun op hop => ?_) (Ledger.along_replicate_getFreePage _ k) hrun
      hget rfl
    rw [List.eq_of_mem_replicate hop]; rfl
  · intro hne ops s q pages hops hal hrun hget hq
    have hinv : Ledger.RefInv b s := run_invariant (Ledger.refInv_boot b)
      (fun _ _ _ h hg hs => Ledger.refInv_step h hg hs) (Ledger.along_bounded hops hal) hrun
    have hfree := (hinv.eq_zero (findFree_spec (getFreePage_eq_ok hget).1).2.2.1).1
    exact hne (hq ▸ hfree)

/-- Blank memory below the loader: every word behind the null pointers is zero. -/
def blankEarly : PageState := ⟨fun _ => 0, fun _ => 0⟩

theorem kbdinit_blankEarly : ∃ early', kbdinit blankEarly = .ok (normalPfnStart, early') := by
  obtain ⟨s', h, -⟩ := getFreePage_start (s := blankEarly) rfl
  exact ⟨s', h⟩

/-- With the image ending at `0x270000` the page tables cover the frame `kbdinit` takes from
blank memory, so it stays exclusive. -/
theorem stdinPage_exclusive_large_image : NeverReturned (docLayout 0x270000) normalPfnStart := by
  obtain ⟨early', h⟩ := kbdinit_blankEarly
  exact (stdinPage_exclusive_iff (docLayout 0x270000) h).2 (by decide +kernel)

/-- With the image ending at `0x23b000`, `init_proc`'s first `get_free_page` returns the frame of
`stdin_buf`. -/
theorem stdinPage_returned_to_init_proc :
    ∃ (early' pages : PageState), kbdinit blankEarly = .ok (normalPfnStart, early') ∧
      (mmInit (docLayout 0x23b000)).getFreePage = .ok (normalPfnStart, pages) := by
  obtain ⟨early', h⟩ := kbdinit_blankEarly
  obtain ⟨pages, hget, -⟩ := getFreePage_start mmInit_docLayout_start
  exact ⟨early', pages, h, hget⟩

end PlumOs
