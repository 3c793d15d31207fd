import PlumOs.Libc.MallocRun

/-!
# What `malloc` takes from a free block

`place` (`libc/malloc.c`) is there to split a free block that is larger than the request.  It
writes the tags of the remainder first and the tags of the whole block last: the footer of the
remainder is overwritten, and its header stays behind inside a payload.

* `Heap.Searches` : the heap that `find_fit` searches in a call of `malloc`;
* `WellFormed.unique` : a heap has one list of blocks;
* `malloc_takesWhole` : `malloc` hands out the whole block that `find_fit` found;
* `malloc_never_splits` : so no block is ever split.
-/

namespace PlumOs

variable {h g h' : Heap} {bs bs' pre post : List Blk} {b : Blk} {n bp : ℕ}

/-! ### The heap that is searched -/

/-- The heap that `find_fit` searches in a call of `malloc`: the heap as it is, or what `minit` makes
of it. -/
def Heap.Searches (h g : Heap) : Prop :=
  (h.uninitialized = false ∧ g = h) ∨ (h.uninitialized = true ∧ h.minit = .ok (true, g))

theorem Heap.Searches.malloc_eq (hs : h.Searches g) : h.malloc n = g.mallocInit n := by
  rcases hs with ⟨hun, rfl⟩ | ⟨hun, hinit⟩
  · exact malloc_of_initialized hun
  · simp only [Heap.malloc_def, hun, if_true, hinit]

/-- A request that `find_fit` can satisfy is placed in the block it found. -/
theorem Heap.Searches.malloc_fit (hs : h.Searches g) (h0 : 0 < n)
    (hfit : g.findFit (asizeOf n) = .ok (some bp)) :
    h.malloc n = .ok (some bp, g.place bp (asizeOf n)) := by
  rw [hs.malloc_eq, Heap.mallocInit_def, if_neg (Nat.ne_of_gt h0)]
  simp only [hfit]

/-! ### The blocks of a heap -/

/-- A heap has one list of blocks. -/
theorem WellFormed.unique (hw : WellFormed h bs) (hw' : WellFormed h bs') : bs = bs' := by
  have hspan : span bs = span bs' := Nat.add_left_cancel (hw.brk.trans hw'.brk.symm)
  exact hw.tiled.2.2.unique hw'.tiled.2.2 hw.valid hw'.valid hspan

/-- A well-formed heap is a region from its prologue on. -/
theorem WellFormed.region (hw : WellFormed h bs) (hbase : 8 ≤ h.heapListp) (htop : h.curbrk ≤ maxAddr) :
    h.Region h.heapListp (prologue :: bs) := by
  have hbrk := hw.brk
  have hlim : maxAddr < 2 ^ 32 := by decide
  have hspan : span (prologue :: bs) = 8 + span bs := span_cons _ _
  refine ⟨hw.tiled, fun c hc => ?_, hbase, by omega, ?_⟩
  · rcases List.mem_cons.1 hc with rfl | hc
    · exact ⟨by decide, by decide⟩
    · exact hw.valid c hc
  · rw [hspan, ← Nat.add_assoc, hbrk]
    exact hw.epilogue

/-- A region from the prologue to the break is a well-formed heap. -/
theorem Heap.Region.wellFormed (hr : h.Region h.heapListp (prologue :: bs))
    (hbrk : h.heapListp + 8 + span bs = h.curbrk) (hadj : NoAdjacentFree bs) : WellFormed h bs := by
  refine ⟨hr.tiled, fun c hc => hr.valid c (List.mem_cons_of_mem _ hc), hbrk, ?_, hadj⟩
  have he := hr.epilogue
  rwa [span_cons, ← Nat.add_assoc, hbrk] at he

/-- The bytes in free blocks. -/
def freeBytes (bs : List Blk) : ℕ := span (bs.filter fun b => !b.alloc)

theorem freeBytes_append (l r : List Blk) : freeBytes (l ++ r) = freeBytes l + freeBytes r := by
  simp only [freeBytes, List.filter_append, span_append]

/-- Allocating a free block takes its bytes from the free ones. -/
theorem freeBytes_allocate (pre post : List Blk) (hb : b.alloc = false) :
    freeBytes (pre ++ ⟨b.size, true⟩ :: post) + b.size = freeBytes (pre ++ b :: post) := by
  have halloc : freeBytes (⟨b.size, true⟩ :: post) = freeBytes post := rfl
  have hfree : freeBytes (b :: post) = b.size + freeBytes post := by
    rw [freeBytes, List.filter_cons, hb]
    exact span_cons _ _
  rw [freeBytes_append, freeBytes_append, halloc, hfree]
  omega

/-! ### Splitting -/

/-- The outcome of a `malloc` that places a request of adjusted size `a` in the free block `bp` of size
`b`: the returned block has size `a`, the rest is a free block behind it, and `a` bytes less are free. -/
def Split (bs : List Blk) (bp a b : ℕ) : Except Crash (Option ℕ × Heap) → Prop
  | .ok (some p, h) => p = bp ∧ ∃ bs', WellFormed h bs' ∧
      (bp, ⟨a, true⟩) ∈ blocksAt (h.heapListp + 8) bs' ∧
      (bp + a, ⟨b - a, false⟩) ∈ blocksAt (h.heapListp + 8) bs' ∧ freeBytes bs' + a = freeBytes bs
  | _ => False

/-- The outcome of a `malloc` that takes the whole block `bp` of size `b`. -/
def TakesWhole (bs : List Blk) (bp b : ℕ) : Except Crash (Option ℕ × Heap) → Prop
  | .ok (some p, h) => p = bp ∧ ∃ bs', WellFormed h bs' ∧
      (bp, ⟨b, true⟩) ∈ blocksAt (h.heapListp + 8) bs' ∧ freeBytes bs' + b = freeBytes bs
  | _ => False

/-- A block is not both split and taken whole. -/
theorem TakesWhole.not_split {a b : ℕ} {r : Except Crash (Option ℕ × Heap)} (hr : TakesWhole bs bp b r)
    (hlt : a < b) : ¬ Split bs bp a b r := by
  match r, hr with
  | .ok (some p, h), ⟨_, bs', hw', hmem', _⟩ =>
    rintro ⟨-, bs'', hw'', hmem'', -⟩
    obtain rfl := hw'.unique hw''
    have hblk := blocksAt_unique hw'.valid hmem' hmem'' rfl
    simp only [Prod.mk.injEq, Blk.mk.injEq, true_and, and_true] at hblk
    omega

/-- **`malloc` takes the whole block** that `find_fit` found, on every well-formed heap. -/
theorem malloc_takesWhole (hs : h.Searches g) (hw : WellFormed g bs) (hbase : 8 ≤ g.heapListp)
    (htop : g.curbrk ≤ maxAddr) (h0 : 0 < n) (hn : n < 2 ^ 29)
    (hfit : g.findFit (asizeOf n) = .ok (some bp)) :
    TakesWhole bs bp (g.getSize (hdrp bp)) (h.malloc n) := by
  have hr := hw.region hbase htop
  have hlim : 2 ^ 29 + 15 < wordRange := by decide
  obtain ⟨h16, -, -⟩ := asizeOf_bounds (n := n) (by omega)
  have hbrk : g.heapListp + span (prologue :: bs) = g.curbrk := by
    rw [span_cons, ← Nat.add_assoc]
    exact hw.brk
  rw [hs.malloc_fit h0 hfit]
  rcases hr.findFit hbrk (asizeOf n) with ⟨hnone, -⟩ | ⟨pre, b, post, hfull, hb, hsome⟩
  · rw [hnone] at hfit
    cases hfit
  · rw [hsome] at hfit
    cases hfit
    -- the block that fits is free, so it is not the prologue
    obtain ⟨pre, rfl⟩ : ∃ pre', pre = prologue :: pre' := by
      cases pre with
      | nil =>
        cases hfull
        cases hb.1
      | cons c pre' => exact ⟨pre', by rw [(List.cons.inj hfull).1]⟩
    obtain rfl : bs = pre ++ b :: post := (List.cons.inj hfull).2
    have hr' : g.Region g.heapListp ((prologue :: pre) ++ b :: post) := hr
    obtain ⟨hhdr, -, hv⟩ := hr'.block
    obtain ⟨⟨hlp, -, hcur, -⟩, hplaced⟩ := Heap.place_spec hr' (show 8 ≤ asizeOf n by omega)
    rw [hdrp, Heap.getSize_of_tag hhdr hv]
    have hspan : span (pre ++ ⟨b.size, true⟩ :: post) = span (pre ++ b :: post) := by
      simp only [span_append, span_cons]
    refine ⟨rfl, pre ++ ⟨b.size, true⟩ :: post, ?_, ?_, freeBytes_allocate pre post hb.1⟩
    · refine Heap.Region.wellFormed ?_ ?_ (hw.noAdjacent.allocate _)
      · rw [hlp]; exact hplaced
      · rw [hlp, hcur, hspan]; exact hw.brk
    · rw [hlp, mem_blocksAt_append_cons]
      exact .inr (.inl (by rw [span_cons, ← Nat.add_assoc]))

/-- **`malloc` never splits.**  On every well-formed heap, a request for which `find_fit` finds a free
block with room for another block gets the whole block, and none of it stays free.  The addresses are
those that `sbrk` hands out. -/
theorem malloc_never_splits (hs : h.Searches g) (hw : WellFormed g bs) (hbase : 8 ≤ g.heapListp)
    (htop : g.curbrk ≤ maxAddr) (h0 : 0 < n) (hn : n < 2 ^ 29)
    (hfit : g.findFit (asizeOf n) = .ok (some bp))
    (hlarge : asizeOf n + 16 ≤ g.getSize (hdrp bp)) :
    TakesWhole bs bp (g.getSize (hdrp bp)) (h.malloc n) ∧
      ¬ Split bs bp (asizeOf n) (g.getSize (hdrp bp)) (h.malloc n) := by
  have hwhole := malloc_takesWhole hs hw hbase htop h0 hn hfit
  exact ⟨hwhole, hwhole.not_split (by omega)⟩

/-- The heap of the first call, with the break at `0x602000`: one free block of 4096 bytes. -/
theorem exists_first_chunk : ∃ g : Heap, (freshHeap 0x602000).Searches g ∧
    WellFormed g [⟨4096, false⟩] ∧ 8 ≤ g.heapListp ∧ g.curbrk ≤ maxAddr ∧
    g.findFit (asizeOf 1) = .ok (some 0x602010) ∧ g.getSize (hdrp 0x602010) = 4096 := by
  have hB : Blank (freshHeap 0x602000) := ⟨rfl, by decide, le_refl _, by decide⟩
  rcases minit_spec hB (by decide) with ⟨hlt, -⟩ | ⟨-, g, hinit, -, hcur, hR⟩
  · exact absurd hlt (by decide)
  have hbrk := hR.brk
  rw [hcur] at hbrk
  have hlp : g.heapListp = 0x602008 := Nat.add_right_cancel hbrk
  have hr : g.Region g.heapListp ([prologue] ++ ⟨4096, false⟩ :: []) := hR.region
  obtain ⟨hhdr, -, hv⟩ := hr.block
  have hsize := Heap.getSize_of_tag hhdr hv
  obtain ⟨bs, hbs, hok⟩ := hR.heapOk
  cases hbs
  refine ⟨g, .inr ⟨rfl, hinit⟩, hok.toWellFormed, hR.region.base, hR.top, ?_, ?_⟩
  · rcases hR.findFit (asizeOf 1) with ⟨-, hall⟩ | ⟨pre, b, post, hfull, hb, hsome⟩
    · exact absurd ⟨rfl, by decide⟩ (hall ⟨4096, false⟩ (by simp))
    · rcases pre with _ | ⟨c, pre⟩
      · cases hfull
        cases hb.1
      · obtain ⟨rfl, hrest⟩ := List.cons.inj hfull
        rcases pre with _ | ⟨d, pre⟩
        · rw [hsome, hlp]
          rfl
        · cases pre <;> simp at hrest
  · rw [hlp] at hsize
    exact hsize

/-- The first `malloc(1)` gets all 4096 bytes. -/
theorem malloc_never_splits_first :
    ¬ Split [⟨4096, false⟩] 0x602010 16 4096 ((freshHeap 0x602000).malloc 1) := by
  obtain ⟨g, hs, hw, hbase, htop, hfit, hsize⟩ := exists_first_chunk
  have hnot := (malloc_never_splits hs hw hbase htop (by decide) (by decide) hfit
    (by rw [hsize]; decide)).2
  rw [hsize] at hnot
  exact hnot

/-- `malloc(1)` as the first call. -/
theorem malloc_split_fails : ¬ ∀ (h g : Heap) (bs : List Blk) (n bp : ℕ), h.Searches g → WellFormed g bs →
    8 ≤ g.heapListp → g.curbrk ≤ maxAddr → 0 < n → n < 2 ^ 29 →
    g.findFit (asizeOf n) = .ok (some bp) → asizeOf n + 16 ≤ g.getSize (hdrp bp) →
    Split bs bp (asizeOf n) (g.getSize (hdrp bp)) (h.malloc n) := by
  intro hall
  obtain ⟨g, hs, hw, hbase, htop, hfit, hsize⟩ := exists_first_chunk
  have hsplit := hall _ g _ 1 _ hs hw hbase htop (by decide) (by decide) hfit (by rw [hsize]; decide)
  exact (malloc_takesWhole hs hw hbase htop (by decide) (by decide) hfit).not_split
    (by rw [hsize]; decide) hsplit

end PlumOs
