import Mathlib.Order.Bounds.Basic
import PlumOs.Libc.HeapInv

/-!
# First fit

`find_fit` (`libc/malloc.c`) follows the sizes in the headers from the prologue on, up to a header of
size 0.

* `Walkable` : a heap that is tiled from the prologue to such a header;
* `fitting` : the addresses of the free blocks that are large enough;
* `Walkable.findFit` : the search, over the list of blocks;
* `findFit_isLeast` : **the search ends**, and its result is the lowest of these addresses, or null if
  there is none.
-/

namespace PlumOs

variable {h : Heap} {bs : List Blk} {size : ℕ}

/-- The heap is tiled from the prologue to a header of size 0, which is below the break. -/
structure Walkable (h : Heap) (bs : List Blk) : Prop where
  tiled : Tiled h.mem h.heapListp (prologue :: bs)
  valid : ∀ b ∈ bs, b.Valid
  epilogue : h.getSize (hdrp (h.heapListp + 8 + span bs)) = 0
  brk : h.heapListp + 8 + span bs ≤ h.curbrk

/-- The addresses of the blocks that `find_fit(size)` accepts. -/
def fitting (h : Heap) (bs : List Blk) (size : ℕ) : Set ℕ :=
  { p | ∃ b, (p, b) ∈ blocksAt (h.heapListp + 8) bs ∧ Heap.Fits size b }

/-- A well-formed heap is walkable. -/
theorem WellFormed.walkable (hw : WellFormed h bs) : Walkable h bs where
  tiled := hw.tiled
  valid := hw.valid
  epilogue := by rw [hw.brk, hdrp, Heap.getSize, hw.epilogue]
  brk := Nat.le_of_eq hw.brk

/-- **`find_fit`** on a walkable heap. -/
theorem Walkable.findFit (hw : Walkable h bs) (size : ℕ) :
    (h.findFit size = .ok none ∧ ∀ b ∈ bs, ¬ Heap.Fits size b) ∨
      ∃ l b r, bs = l ++ b :: r ∧ Heap.Fits size b ∧ (∀ c ∈ l, ¬ Heap.Fits size c) ∧
        h.findFit size = .ok (some (h.heapListp + 8 + span l)) := by
  obtain ⟨hh, -, ht⟩ := hw.tiled
  have hsize : h.getSize (hdrp h.heapListp) = 8 :=
    Heap.getSize_of_tag hh ⟨by decide, by decide⟩
  have hstart : h.nextBlkp h.heapListp = h.heapListp + 8 := by
    rw [Heap.nextBlkp, Heap.ftrp, hsize]
    omega
  -- every block takes some bytes below the break
  have hlen : bs.length < h.curbrk + 1 := by
    have hle := length_le_span hw.valid
    have hbrk := hw.brk
    omega
  rw [Heap.findFit, hstart]
  exact Heap.findFitFrom_tiled ht hw.valid hw.epilogue hlen

/-- The first block that fits has the lowest address. -/
theorem isLeast_fitting {l r : List Blk} {b : Blk} (hbs : bs = l ++ b :: r) (hb : Heap.Fits size b)
    (hl : ∀ c ∈ l, ¬ Heap.Fits size c) :
    IsLeast (fitting h bs size) (h.heapListp + 8 + span l) := by
  subst hbs
  constructor
  · exact ⟨b, mem_blocksAt_append_cons.2 (.inr (.inl rfl)), hb⟩
  · rintro p ⟨c, hmem, hc⟩
    rcases mem_blocksAt_append_cons.1 hmem with hleft | heq | hright
    · obtain ⟨l₁, l₂, rfl, -⟩ := exists_split_of_mem_blocksAt hleft
      exact absurd hc (hl c (by simp))
    · rw [(Prod.mk.inj heq).1]
    · have hbound := (bounds_of_mem_blocksAt hright).1
      omega

theorem fitting_eq_empty (hall : ∀ b ∈ bs, ¬ Heap.Fits size b) : fitting h bs size = ∅ := by
  refine Set.eq_empty_of_forall_notMem ?_
  rintro p ⟨b, hmem, hb⟩
  obtain ⟨l, r, rfl, -⟩ := exists_split_of_mem_blocksAt hmem
  exact hall b (by simp) hb

/-- **First fit.**  On every heap that is tiled up to a header of size 0, `find_fit` comes back for every
size, with the lowest address of a free block of at least that size, or null if there is none. -/
theorem findFit_isLeast (hw : Walkable h bs) (size : ℕ) :
    ∃ r, h.findFit size = .ok r ∧ (∀ p, r = some p ↔ IsLeast (fitting h bs size) p) ∧
      (r = none ↔ fitting h bs size = ∅) := by
  rcases hw.findFit size with ⟨hnone, hall⟩ | ⟨l, b, r, hbs, hb, hl, hsome⟩
  · have hempty := fitting_eq_empty (h := h) hall
    refine ⟨none, hnone, fun p => ⟨fun hp => (Option.some_ne_none p hp.symm).elim, fun hp => ?_⟩, ?_⟩
    · rw [hempty] at hp
      exact absurd hp.1 (Set.notMem_empty p)
    · exact ⟨fun _ => hempty, fun _ => rfl⟩
  · have hleast := isLeast_fitting (h := h) hbs hb hl
    refine ⟨_, hsome, fun p => ⟨fun hp => ?_, fun hp => ?_⟩, fun hp => ?_, fun hp => ?_⟩
    · rw [← Option.some.inj hp]
      exact hleast
    · rw [hleast.unique hp]
    · cases hp
    · rw [hp] at hleast
      exact absurd hleast.1 (Set.notMem_empty _)

/-- A heap with an allocated block and two free ones. -/
def threeBlocks : Heap where
  mem a :=
    if a = 4 ∨ a = 8 then 9 else if a = 12 ∨ a = 24 then 17 else if a = 28 ∨ a = 48 then 24
    else if a = 52 ∨ a = 80 then 32 else if a = 84 then 1 else 0
  heapListp := 8
  uninitialized := false
  curbrk := 88
  userHeap := 0

/-- Both free blocks have 20 bytes; the search returns the lower one. -/
theorem findFit_isLeast_threeBlocks :
    IsLeast (fitting threeBlocks [⟨16, true⟩, ⟨24, false⟩, ⟨32, false⟩] 20) 32 := by
  have hw : Walkable threeBlocks [⟨16, true⟩, ⟨24, false⟩, ⟨32, false⟩] := by
    refine ⟨⟨rfl, rfl, rfl, rfl, rfl, rfl, rfl, rfl, trivial⟩, ?_, rfl, by decide⟩
    intro b hb
    simp only [List.mem_cons, List.not_mem_nil, or_false] at hb
    rcases hb with rfl | rfl | rfl <;> exact ⟨by decide, by decide⟩
  obtain ⟨r, hr, hleast, -⟩ := findFit_isLeast hw 20
  refine (hleast 32).1 ?_
  have hfit : threeBlocks.findFit 20 = .ok (some 32) := by decide +kernel
  rw [hfit] at hr
  exact (Except.ok.inj hr).symm

end PlumOs
