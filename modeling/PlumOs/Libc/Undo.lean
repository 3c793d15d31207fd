import PlumOs.Libc.Split

/-!
# `free` undoes `malloc`

A request that `find_fit` can satisfy takes a free block, and no neighbour of a free block is free: so
`coalesce` has nothing to merge when the block is freed again (`libc/malloc.c`).

* `InBlock` : the words of an allocation: its header, its payload and its footer;
* `Ready.undo` : placing a request and freeing it gives back the blocks, and writes nowhere else;
* `MallocState.free_undoes_malloc` : the same for the calls, after every run of requests `malloc` can
  handle.
-/

namespace PlumOs

variable {h g h' : Heap} {live : List (ℕ × ℕ)} {full pre post : List Blk} {l b : Blk} {n p rsize y : ℕ}

/-- The words of the allocation `q`: its header, its footer and its payload. -/
def InBlock (h : Heap) (q y : ℕ) : Prop := y = hdrp q ∨ y = h.ftrp q ∨ (q ≤ y ∧ y < h.ftrp q)

/-- A free block of a heap has an allocated block in front of it and is not followed by a free one. -/
theorem Ready.neighbours (hR : Ready h live (pre ++ b :: post)) (hb : b.alloc = false) :
    ∃ pre' l, pre = pre' ++ [l] ∧ l.alloc = true ∧ (post.head?.map Blk.alloc).getD true = true := by
  obtain ⟨hpre, hpost, -⟩ := List.isChain_append.1 hR.noAdjacent
  obtain ⟨bs, hbs⟩ := hR.head
  obtain ⟨pre', l, rfl⟩ : ∃ pre' l, pre = pre' ++ [l] := by
    cases pre with
    | nil =>
      cases hbs
      cases hb
    | cons c pre => exact exists_concat c pre
  have hadj : NoAdjacentFree ((pre' ++ [l]) ++ [b]) := by
    have hfull := hR.noAdjacent
    rw [List.append_cons] at hfull
    exact (List.isChain_append.1 hfull).1
  refine ⟨pre', l, rfl, hadj.last_alloc hb l List.getLast?_concat, ?_⟩
  cases post with
  | nil => rfl
  | cons q post => exact NoAdjacentFree.head_alloc hpost hb q rfl

/-- **Undoing.**  Placing a request in a free block and freeing it again gives back the blocks, and
neither step writes outside the block. -/
theorem Ready.undo (hR : Ready g live (pre ++ b :: post)) (hb : b.alloc = false) (h8 : 8 ≤ rsize)
    (hp : p = g.heapListp + span pre) :
    Ready ((g.place p rsize).free p) live (pre ++ b :: post) ∧
      ∀ y, y < p - 4 ∨ p + b.size - 4 ≤ y →
        (g.place p rsize).mem y = g.mem y ∧
          ((g.place p rsize).free p).mem y = (g.place p rsize).mem y := by
  obtain ⟨pre, l, rfl, hl, hq⟩ := hR.neighbours hb
  obtain ⟨hst, hplaced⟩ := Heap.place_spec hR.region h8
  rw [← hp] at hst hplaced
  have hplaced' : (g.place p rsize).Region g.heapListp (pre ++ l :: ⟨b.size, true⟩ :: post) := by
    rw [List.append_cons]
    exact hplaced
  have hp' : p = g.heapListp + span pre + l.size := by
    rw [hp, span_append, span_cons, span_nil, Nat.add_zero, Nat.add_assoc]
  obtain ⟨hst', hfreed, hout⟩ := Heap.free_neither hplaced' hp' hl hq
  refine ⟨hR.of_region (hst.trans hst') ?_, fun y hy => ⟨?_, hout y hy⟩⟩
  · have hblk : (⟨b.size, false⟩ : Blk) = b := by rw [← hb]
    rw [hblk, List.append_cons] at hfreed
    exact hfreed
  · rw [hp] at hy ⊢
    exact Heap.place_mem hR.region h8 hy

/-- The words of a live allocation lie outside a free block. -/
theorem Ready.outside (hR : Ready g live (pre ++ b :: post)) (hb : b.alloc = false) {x : ℕ × ℕ}
    (hx : x ∈ live) (hy : InBlock g x.1 y) :
    y < g.heapListp + span pre - 4 ∨ g.heapListp + span pre + b.size - 4 ≤ y := by
  obtain ⟨hlt, c, hc, halloc, -⟩ := hR.inside x hx
  have hmem : (g.heapListp + span pre, b) ∈ blocksAt g.heapListp (pre ++ b :: post) :=
    mem_blocksAt_append_cons.2 (.inr (.inl rfl))
  have hne : x.1 ≠ g.heapListp + span pre := by
    intro heq
    have hsame := blocksAt_unique hR.region.valid hc hmem heq
    rw [Prod.mk.injEq] at hsame
    rw [hsame.2, hb] at halloc
    cases halloc
  have hapart := blocksAt_disjoint hc hmem hne
  -- the tags of the live allocation say where its words end
  obtain ⟨l, r, hfull, hq⟩ := exists_split_of_mem_blocksAt hc
  have hreg := hR.region
  rw [hfull] at hreg
  obtain ⟨hhdr, -, hv⟩ := hreg.block
  have hftr : g.ftrp x.1 = x.1 + c.size - 8 := by
    simp only at hq
    rw [Heap.ftrp, hdrp, hq, Heap.getSize_of_tag hhdr hv]
  have hc8 := hv.eight_le
  have hbase := hR.region.base
  rw [InBlock, hdrp, hftr] at hy
  simp only at hapart hc8
  omega

/-- What `malloc` returned is undone by `free`: the same blocks as before, and in neither call a change
to a word of a live allocation. -/
def Undone (g : Heap) (live : List (ℕ × ℕ)) (p : ℕ) : Except Crash (Option ℕ × Heap) → Prop
  | .ok (some q, h) => q = p ∧ (∃ bs, WellFormed g bs ∧ WellFormed (h.free p) bs) ∧
      ∀ x ∈ live, ∀ y, InBlock g x.1 y → h.mem y = g.mem y ∧ (h.free p).mem y = h.mem y
  | _ => False

theorem Ready.undone (hR : Ready g live full) (hs : h.Searches g) (h0 : 0 < n) (hn : n < 2 ^ 29)
    (hfit : g.findFit (asizeOf n) = .ok (some p)) : Undone g live p (h.malloc n) := by
  have hlim : 2 ^ 29 + 15 < wordRange := by decide
  obtain ⟨h16, -, -⟩ := asizeOf_bounds (n := n) (by omega)
  rw [hs.malloc_fit h0 hfit]
  rcases hR.findFit (asizeOf n) with ⟨hnone, -⟩ | ⟨pre, b, post, rfl, hb, hsome⟩
  · rw [hnone] at hfit
    cases hfit
  · rw [hsome] at hfit
    cases hfit
    obtain ⟨hR', hout⟩ := hR.undo hb.1 (show 8 ≤ asizeOf n by omega) rfl
    obtain ⟨bs, hbs, hok⟩ := hR.heapOk
    obtain ⟨bs', hbs', hok'⟩ := hR'.heapOk
    obtain rfl : bs = bs' := (List.cons.inj (hbs.symm.trans hbs')).2
    exact ⟨rfl, ⟨bs, hok.toWellFormed, hok'.toWellFormed⟩,
      fun x hx y hy => hout y (hR.outside hb.1 hx hy)⟩

namespace MallocState

variable {s t : MallocState}

/-- The heap that a call of `malloc` searches is in order. -/
theorem Inv.ready_of_searches (hs : s.Inv) (hg : s.heap.Searches g) :
    ∃ full, Ready g s.live full := by
  rcases hs with ⟨hun, full, hR⟩ | ⟨hB, hl⟩
  · rcases hg with ⟨-, rfl⟩ | ⟨hun', -⟩
    · exact ⟨full, hR⟩
    · rw [hun] at hun'
      cases hun'
  · rcases hg with ⟨hun, -⟩ | ⟨-, hinit⟩
    · rw [hB.uninit] at hun
      cases hun
    by_cases h16 : s.heap.curbrk + 16 ≤ maxAddr
    · rcases minit_spec hB h16 with ⟨-, h', heq, -⟩ | ⟨-, h', heq, -, -, hR⟩
      · rw [heq] at hinit
        cases hinit
      · rw [heq] at hinit
        cases hinit
        rw [hl]
        exact ⟨_, hR⟩
    · rw [minit_null hB h16] at hinit
      cases hinit

/-- **`free` undoes `malloc`.**  After every run of requests `malloc` can handle, frees and stores into
live payloads, a request that `find_fit` can satisfy is undone by freeing what was returned. -/
theorem free_undoes_malloc {u : ℕ} {ops : List MallocOp} (hu : u % 4096 = 0) (hr : u < wordRange)
    (hfair : Along step Fair (start u) ops) (hrun : run step (start u) ops = .ok s)
    (h0 : 0 < n) (hn : n < 2 ^ 29) (hg : s.heap.Searches g)
    (hfit : g.findFit (asizeOf n) = .ok (some p)) : Undone g s.live p (s.heap.malloc n) := by
  obtain ⟨full, hR⟩ := (inv_of_run hu hr hfair hrun).ready_of_searches hg
  exact hR.undone hg h0 hn hfit

/-- The first of two blocks, when it is free again. -/
theorem free_undoes_malloc_first :
    ∃ s, run step (start 0x602000) [.malloc 24, .malloc 24, .free 0x602010] = .ok s ∧
      Undone s.heap s.live 0x602010 (s.heap.malloc 8) := by
  obtain ⟨s, hrun, htest⟩ := exists_of_reaches (show reaches
    (run step (start 0x602000) [.malloc 24, .malloc 24, .free 0x602010])
    (fun s => decide (s.heap.uninitialized = false ∧
      s.heap.findFit (asizeOf 8) = .ok (some 0x602010))) = true by decide +kernel)
  obtain ⟨hun, hfit⟩ := of_decide_eq_true htest
  have hfair : Along step Fair (start 0x602000) [.malloc 24, .malloc 24, .free 0x602010] :=
    along_of_decide (by decide +kernel)
  exact ⟨s, hrun, free_undoes_malloc (by decide) (by decide) hfair hrun (by decide) (by decide)
    (.inl ⟨hun, rfl⟩) hfit⟩

/-- `malloc(2^62 - 8)` asks `sbrk` for no bytes and returns the break: its footer is that of the block in
front of it, which the next call takes. -/
theorem free_undoes_malloc_fails : ¬ ∀ (u : ℕ) (ops : List MallocOp) (s : MallocState) (g : Heap) (n p : ℕ),
    u % 4096 = 0 → u < wordRange → Along step Legal (start u) ops → run step (start u) ops = .ok s →
    0 < n → n < 2 ^ 29 → s.heap.Searches g → g.findFit (asizeOf n) = .ok (some p) →
    Undone g s.live p (s.heap.malloc n) := by
  intro hall
  obtain ⟨s, hrun, htest⟩ := exists_of_reaches (show reaches
    (run step (start 0x602000) [.malloc 8, .malloc (2 ^ 62 - 8), .free 0x602010])
    (fun s => decide (s.heap.uninitialized = false ∧ s.live = [(0x603010, 2 ^ 62 - 8)] ∧
      s.heap.findFit (asizeOf 8) = .ok (some 0x602010) ∧
      (s.heap.place 0x602010 (asizeOf 8)).mem (s.heap.ftrp 0x603010) ≠
        s.heap.mem (s.heap.ftrp 0x603010))) = true by decide +kernel)
  obtain ⟨hun, hlive, hfit, hfooter⟩ := of_decide_eq_true htest
  have hlegal : Along step Legal (start 0x602000) [.malloc 8, .malloc (2 ^ 62 - 8), .free 0x602010] :=
    along_of_decide (by decide +kernel)
  have hg : s.heap.Searches s.heap := .inl ⟨hun, rfl⟩
  have hundone := hall 0x602000 _ s s.heap 8 _ (by decide) (by decide) hlegal hrun (by decide) (by decide)
    hg hfit
  rw [hg.malloc_fit (by decide) hfit] at hundone
  have hmem : (0x603010, 2 ^ 62 - 8) ∈ s.live := by
    rw [hlive]
    exact List.mem_singleton_self _
  exact hfooter (hundone.2.2 (0x603010, 2 ^ 62 - 8) hmem (s.heap.ftrp 0x603010) (.inr (.inl rfl))).1

end MallocState

end PlumOs
