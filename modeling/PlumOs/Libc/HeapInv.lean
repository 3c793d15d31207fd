import PlumOs.Libc.MallocSpec

/-!
# The heap invariant

* `HeapOk` : what a heap looks like after a call: tiled from the prologue to the epilogue in
  the last word below the break, no two free neighbours, live payloads inside and disjoint;
* `Ready` : the invariant of an initialised heap, which implies `HeapOk`;
* `Ready.place`, `Ready.free`, `Ready.store`, `Ready.extendHeap` : what keeps it;
* `minit_spec` : what `minit` makes of a heap that was not initialised.
-/

namespace PlumOs

/-- The prologue block. -/
abbrev prologue : Blk := ⟨8, true⟩

/-! ### The effect of coalescing on the list of blocks -/

namespace Heap.Coalesced

variable {pre post pre' post' : List Blk} {l b c : Blk}

theorem span_eq (h : Coalesced pre l b post pre' c post') :
    span (pre' ++ c :: post') = span (pre ++ l :: b :: post) := by
  cases h <;> simp <;> omega

theorem free (h : Coalesced pre l b post pre' c post') (hb : b.alloc = false) :
    c.alloc = false := by
  cases h <;> first | exact hb | rfl

theorem size_le (h : Coalesced pre l b post pre' c post') : b.size ≤ c.size := by
  cases h <;> simp

/-- Coalescing leaves the allocated blocks where they are. -/
theorem mem_blocksAt (h : Coalesced pre l b post pre' c post') (hb : b.alloc = false) {a : ℕ}
    {x : ℕ × Blk} (hx : x.2.alloc = true) :
    x ∈ blocksAt a (pre' ++ c :: post') ↔ x ∈ blocksAt a (pre ++ l :: b :: post) := by
  have hne : ∀ {y : ℕ} {d : Blk}, d.alloc = false → x ≠ (y, d) := by
    rintro y d hd rfl
    rw [hd] at hx
    exact Bool.false_ne_true hx
  cases h with
  | neither hl hq => simp
  | next hl hq =>
    simp only [blocksAt_append, blocksAt, List.mem_append, List.mem_cons, hne hq, hne hb,
      hne (d := ⟨_, false⟩) rfl, span_append, span_cons, span_nil, Nat.add_zero, List.not_mem_nil,
      or_false, false_or, or_assoc, Nat.add_assoc]
  | prev hl hq =>
    simp only [blocksAt_append, blocksAt, List.mem_append, List.mem_cons, hne hl, hne hb,
      hne (d := ⟨_, false⟩) rfl, false_or, Nat.add_assoc, Nat.add_comm l.size]
  | both hl hq =>
    simp only [blocksAt_append, blocksAt, List.mem_append, List.mem_cons, hne hl, hne hb, hne hq,
      hne (d := ⟨_, false⟩) rfl, false_or, Nat.add_assoc, Nat.add_left_comm l.size]

/-- Coalescing restores that no two neighbours are free. -/
theorem noAdjacentFree (h : Coalesced pre l b post pre' c post')
    (hpre : NoAdjacentFree (pre ++ [l])) (hpost : NoAdjacentFree post) :
    NoAdjacentFree (pre' ++ c :: post') := by
  have hlast : l.alloc = true → ∀ x ∈ (pre ++ [l]).getLast?, x.alloc = true := by
    intro hl x hx
    rw [List.getLast?_concat, Option.mem_def, Option.some.injEq] at hx
    rw [← hx]; exact hl
  have hhead : ∀ {post : List Blk}, (post.head?.map Blk.alloc).getD true = true →
      ∀ y ∈ post.head?, y.alloc = true := by
    intro post hq y hy
    simpa [Option.mem_def.1 hy] using hq
  have hleft := (List.isChain_append.1 hpre).1
  cases h with
  | neither hl hq => exact noAdjacentFree_insert b hpre hpost (hlast hl) (hhead hq)
  | next hl hq =>
    exact noAdjacentFree_insert _ hpre (List.isChain_cons.1 hpost).2 (hlast hl)
      (hpost.head_alloc hq)
  | prev hl hq => exact noAdjacentFree_insert _ hleft hpost (hpre.last_alloc hl) (hhead hq)
  | both hl hq =>
    exact noAdjacentFree_insert _ hleft (List.isChain_cons.1 hpost).2 (hpre.last_alloc hl)
      (hpost.head_alloc hq)

/-- Coalescing never touches the prologue. -/
theorem exists_prologue (h : Coalesced pre l b post pre' c post') {p : Blk}
    {bs : List Blk} (hp : p.alloc = true) (hbs : pre ++ l :: b :: post = p :: bs) :
    ∃ bs', pre' ++ c :: post' = p :: bs' := by
  cases pre with
  | nil =>
    obtain ⟨rfl, rfl⟩ : l = p ∧ b :: post = bs := by simpa using hbs
    cases h with
    | neither hl hq => exact ⟨_, rfl⟩
    | next hl hq => exact ⟨_, rfl⟩
    | prev hl hq => rw [hp] at hl; simp at hl
    | both hl hq => rw [hp] at hl; simp at hl
  | cons d pre =>
    obtain ⟨rfl, -⟩ : d = p ∧ _ = bs := by simpa using hbs
    cases h <;> exact ⟨_, rfl⟩

end Heap.Coalesced

/-! ### The invariant -/

/-- The block structure of a heap: tiled exactly from the prologue to the epilogue, headers and
footers in agreement, sizes positive multiples of 8, the epilogue in the last word below the
break, no two free neighbours. -/
structure WellFormed (h : Heap) (bs : List Blk) : Prop where
  /-- The blocks follow each other. -/
  tiled : Tiled h.mem h.heapListp (prologue :: bs)
  /-- Their sizes are multiples of 8. -/
  valid : ∀ b ∈ bs, b.Valid
  /-- The blocks end at the break. -/
  brk : h.heapListp + 8 + span bs = h.curbrk
  /-- The last header is in front of the break. -/
  epilogue : h.mem (h.curbrk - 4) = 1
  /-- No two free blocks are neighbours. -/
  noAdjacent : NoAdjacentFree bs

/-- A well-formed heap whose live allocations, given as pointer and requested size, lie in
allocated blocks large enough for them and do not overlap. -/
structure HeapOk (h : Heap) (live : List (ℕ × ℕ)) (bs : List Blk) : Prop
    extends WellFormed h bs where
  inside : ∀ x ∈ live, ∃ b, (x.1, b) ∈ blocksAt (h.heapListp + 8) bs ∧ b.alloc = true ∧
    x.2 + 8 ≤ b.size
  disjoint : live.Pairwise fun x y => x.1 + x.2 ≤ y.1 ∨ y.1 + y.2 ≤ x.1

/-- The invariant of an initialised heap; `full` lists its blocks with the prologue. -/
structure Ready (h : Heap) (live : List (ℕ × ℕ)) (full : List Blk) : Prop where
  /-- The first block is the prologue. -/
  head : ∃ bs, full = prologue :: bs
  /-- The blocks follow each other. -/
  region : h.Region h.heapListp full
  /-- The blocks end at the break. -/
  brk : h.heapListp + span full = h.curbrk
  /-- No two free blocks are neighbours. -/
  noAdjacent : NoAdjacentFree full
  /-- What was handed out is in allocated blocks, large enough for the request. -/
  inside : ∀ x ∈ live, h.heapListp < x.1 ∧
    ∃ b, (x.1, b) ∈ blocksAt h.heapListp full ∧ b.alloc = true ∧ x.2 + 8 ≤ b.size
  /-- No two pointers that were handed out are the same. -/
  nodup : (live.map Prod.fst).Nodup
  /-- The prologue is aligned. -/
  aligned : h.heapListp % 8 = 0
  /-- The break is at most the last address. -/
  top : h.curbrk ≤ maxAddr
  /-- The prologue is behind the start of the heap. -/
  low : h.userHeap + 8 ≤ h.heapListp

variable {h h' : Heap} {live : List (ℕ × ℕ)} {full pre post pre' post' : List Blk} {l b c : Blk}

theorem Ready.heapOk (hR : Ready h live full) : ∃ bs, full = prologue :: bs ∧ HeapOk h live bs := by
  obtain ⟨bs, rfl⟩ := hR.head
  have hbrk := hR.brk
  have h8 : prologue.size = 8 := rfl
  rw [span_cons] at hbrk
  refine ⟨bs, rfl, ⟨hR.region.tiled, fun b hb => hR.region.valid b (List.mem_cons_of_mem _ hb),
    by omega, ?_, (List.isChain_cons.1 hR.noAdjacent).2⟩, fun x hx => ?_, ?_⟩
  · have := hR.region.epilogue
    rwa [hR.brk] at this
  · obtain ⟨hlt, b, hb, ha, hn⟩ := hR.inside x hx
    refine ⟨b, ?_, ha, hn⟩
    rcases List.mem_cons.1 hb with hb | hb
    · exact absurd (congrArg Prod.fst hb) (by simp only; omega)
    · exact hb
  · refine (List.pairwise_map.1 hR.nodup).imp_of_mem fun {x y} hx hy hne => ?_
    obtain ⟨-, bx, hbx, -, hnx⟩ := hR.inside x hx
    obtain ⟨-, by', hby, -, hny⟩ := hR.inside y hy
    have := blocksAt_disjoint hbx hby hne
    simp only at this
    omega

/-- The invariant depends on the memory through the blocks only. -/
theorem Ready.of_region (hR : Ready h live full) (hst : h.SameStatics h')
    (hr : h'.Region h.heapListp full) : Ready h' live full := by
  obtain ⟨hlp, -, hcur, husr⟩ := hst
  refine ⟨hR.head, ?_, ?_, hR.noAdjacent, ?_, hR.nodup, ?_, ?_, ?_⟩
  · rw [hlp]; exact hr
  · rw [hlp, hcur]; exact hR.brk
  · rw [hlp]; exact hR.inside
  · rw [hlp]; exact hR.aligned
  · rw [hcur]; exact hR.top
  · rw [husr, hlp]; exact hR.low

/-- The heap after a block was merged with its free neighbours. -/
theorem ready_of_coalesced (hm : Heap.Coalesced pre l b post pre' c post') (hb : b.alloc = false)
    (hreg : h'.Region h'.heapListp (pre' ++ c :: post'))
    (hhead : ∃ bs, pre ++ l :: b :: post = prologue :: bs)
    (hbrk : h'.heapListp + span (pre ++ l :: b :: post) = h'.curbrk)
    (hpre : NoAdjacentFree (pre ++ [l])) (hpost : NoAdjacentFree post)
    (hin : ∀ x ∈ live, h'.heapListp < x.1 ∧ ∃ b', (x.1, b') ∈
      blocksAt h'.heapListp (pre ++ l :: b :: post) ∧ b'.alloc = true ∧ x.2 + 8 ≤ b'.size)
    (hnodup : (live.map Prod.fst).Nodup) (hal : h'.heapListp % 8 = 0) (htop : h'.curbrk ≤ maxAddr)
    (hlow : h'.userHeap + 8 ≤ h'.heapListp) : Ready h' live (pre' ++ c :: post') where
  head := by
    obtain ⟨bs, hbs⟩ := hhead
    exact hm.exists_prologue rfl hbs
  region := hreg
  brk := by rw [hm.span_eq]; exact hbrk
  noAdjacent := hm.noAdjacentFree hpre hpost
  inside x hx := by
    obtain ⟨hlt, b', hmem, ha, hn⟩ := hin x hx
    exact ⟨hlt, b', (hm.mem_blocksAt hb ha).2 hmem, ha, hn⟩
  nodup := hnodup
  aligned := hal
  top := htop
  low := hlow

/-- Placing a request in a free block. -/
theorem Ready.place {n rsize : ℕ} (hR : Ready h live (pre ++ b :: post)) (hb : b.alloc = false)
    (h8 : 8 ≤ rsize) (hle : rsize ≤ b.size) (hn : n + 8 ≤ rsize) :
    Ready (h.place (h.heapListp + span pre) rsize) ((h.heapListp + span pre, n) :: live)
      (pre ++ ⟨b.size, true⟩ :: post) := by
  obtain ⟨⟨hlp, -, hcur, husr⟩, hreg⟩ := Heap.place_spec hR.region h8
  obtain ⟨bs, hbs⟩ := hR.head
  obtain ⟨d, pre, rfl⟩ : ∃ d p, pre = d :: p := by
    cases pre with
    | nil =>
      have : b = prologue := by simpa using (List.cons.inj hbs).1
      rw [this] at hb; simp at hb
    | cons d p => exact ⟨d, p, rfl⟩
  have hd := (hR.region.valid d (by simp)).1
  have hmemb : (h.heapListp + span (d :: pre), b) ∈ blocksAt h.heapListp (d :: pre ++ b :: post) :=
    mem_blocksAt_append_cons.2 (.inr (.inl rfl))
  refine ⟨⟨pre ++ ⟨b.size, true⟩ :: post, ?_⟩, ?_, ?_, hR.noAdjacent.allocate _, ?_, ?_, ?_, ?_, ?_⟩
  · have : d = prologue := by simpa using (List.cons.inj hbs).1
    rw [this]; rfl
  · rw [hlp]; exact hreg
  · have := hR.brk
    rw [hlp, hcur]
    simp only [span_append, span_cons] at this ⊢
    omega
  · intro x hx
    rw [hlp]
    rcases List.mem_cons.1 hx with rfl | hx
    · exact ⟨by simp only [span_cons]; omega, ⟨b.size, true⟩,
        mem_blocksAt_append_cons.2 (.inr (.inl rfl)), rfl, by simp only; omega⟩
    · obtain ⟨hlt, b', hmem, ha, hxn⟩ := hR.inside x hx
      refine ⟨hlt, b', ?_, ha, hxn⟩
      rw [mem_blocksAt_append_cons] at hmem ⊢
      rcases hmem with hmem | hmem | hmem
      · exact .inl hmem
      · simp only [Prod.mk.injEq] at hmem
        rw [hmem.2, hb] at ha
        simp at ha
      · exact .inr (.inr hmem)
  · rw [List.map_cons, List.nodup_cons]
    refine ⟨fun hmem => ?_, hR.nodup⟩
    obtain ⟨x, hx, hxp⟩ := List.mem_map.1 hmem
    obtain ⟨-, b', hmem', ha, -⟩ := hR.inside x hx
    have := blocksAt_unique hR.region.valid hmem' hmemb hxp
    simp only [Prod.mk.injEq] at this
    rw [this.2, hb] at ha
    simp at ha
  · rw [hlp]; exact hR.aligned
  · rw [hcur]; exact hR.top
  · rw [husr, hlp]; exact hR.low

/-- Every nonempty list ends in a block. -/
theorem exists_concat (d : Blk) (l : List Blk) : ∃ pre x, d :: l = pre ++ [x] := by
  refine ⟨(d :: l).dropLast, (d :: l).getLast (by simp), ?_⟩
  rw [List.dropLast_append_getLast]

/-- **`free`** of a live allocation keeps the invariant. -/
theorem Ready.free (hR : Ready h live full) {p n : ℕ} (hp : (p, n) ∈ live) :
    (h.free p).uninitialized = h.uninitialized ∧
      ∃ full', Ready (h.free p) (live.filter fun x => x.1 ≠ p) full' := by
  obtain ⟨hlt, b, hmem, ha, -⟩ := hR.inside _ hp
  obtain ⟨bs, hbs⟩ := hR.head
  obtain ⟨front, post, hfull, hpeq⟩ := exists_split_of_mem_blocksAt hmem
  simp only at hlt hpeq
  -- the prologue is in front of the block, so the block has a predecessor
  obtain ⟨pre, l, rfl⟩ : ∃ pre l, front = pre ++ [l] := by
    cases front with
    | nil => simp at hpeq; omega
    | cons d f => exact exists_concat d f
  simp only [List.append_assoc, List.singleton_append] at hfull
  subst hfull
  have hpeq' : p = h.heapListp + span pre + l.size := by
    rw [hpeq]; simp only [span_append, span_cons, span_nil]; omega
  obtain ⟨pre', c, post', ⟨hlp, hun, hcur, husr⟩, hreg, hm⟩ := Heap.free_spec hR.region
  rw [← hpeq'] at hlp hun hcur husr hreg
  have hadj : NoAdjacentFree (pre ++ [l]) ∧ NoAdjacentFree post := by
    have h1 := List.isChain_append.1 hR.noAdjacent
    have h2 := (List.isChain_cons.1 (List.isChain_cons.1 h1.2.1).2).2
    have h3 := hR.noAdjacent
    rw [List.append_cons] at h3
    exact ⟨(List.isChain_append.1 h3).1, h2⟩
  refine ⟨hun, pre' ++ c :: post', ready_of_coalesced hm rfl (by rw [hlp]; exact hreg) ?_ ?_ hadj.1
    hadj.2 ?_ ?_ ?_ ?_ ?_⟩
  · cases pre with
    | nil =>
      have : l = prologue := by simpa using (List.cons.inj hbs).1
      exact ⟨_, by rw [this]; rfl⟩
    | cons d pre =>
      have : d = prologue := by simpa using (List.cons.inj hbs).1
      exact ⟨_, by rw [this]; rfl⟩
  · have := hR.brk
    rw [hlp, hcur]
    simpa using this
  · intro x hx
    rw [hlp]
    rw [List.mem_filter] at hx
    obtain ⟨hlt, b', hmem', ha', hn'⟩ := hR.inside x hx.1
    refine ⟨hlt, b', ?_, ha', hn'⟩
    rw [List.append_cons] at hmem' ⊢
    rw [mem_blocksAt_append_cons] at hmem' ⊢
    rcases hmem' with h1 | h1 | h1
    · exact .inl h1
    · simp only [Prod.mk.injEq] at h1
      rw [h1.1, ← hpeq] at hx
      simp at hx
    · exact .inr (.inr h1)
  · exact (hR.nodup.sublist (List.filter_sublist.map _))
  · rw [hlp]; exact hR.aligned
  · rw [hcur]; exact hR.top
  · rw [husr, hlp]; exact hR.low

/-- A store into a live payload keeps the invariant. -/
theorem Ready.store (hR : Ready h live full) {p n x v : ℕ} (hp : (p, n) ∈ live) (hx : p ≤ x)
    (hxn : x < p + n) (h4 : x % 4 = 0) : Ready (h.put x v) live full := by
  obtain ⟨-, b, hmem, -, hn⟩ := hR.inside _ hp
  obtain ⟨pre, post, rfl, hpeq⟩ := exists_split_of_mem_blocksAt hmem
  simp only at hn hpeq
  obtain ⟨hh, hf, hv⟩ := hR.region.block
  have hal : (h.heapListp + span pre) % 4 = 0 := by
    have := (span_mod_eight fun c hc => hR.region.valid c (List.mem_append_left _ hc))
    have := hR.aligned
    omega
  have hb := hR.region.base
  have hb8 := hv.2
  refine hR.of_region ⟨rfl, rfl, rfl, rfl⟩ ?_
  refine Heap.Region.retag (m := [b]) (c := b) hR.region hv (by simp) ?_ ?_ fun y hy => ?_
  · rw [Heap.put_mem_of_ne (by omega)]
    exact hh
  · rw [Heap.put_mem_of_ne (by omega)]
    exact hf
  · exact Heap.put_mem_of_ne (by omega) h v

/-- The heap after `extend_heap` got its bytes. -/
theorem Ready.extendHeap {w : ℕ} (hR : Ready h live (pre ++ [l])) (hw : w % 2 = 0)
    (h0 : 0 < w) (hmax : h.curbrk + w * 4 ≤ maxAddr) :
    ∃ (pre' : List Blk) (c : Blk) (post' : List Blk) (h' : Heap),
      h.extendHeap w = .ok (some (h'.heapListp + span pre'), h') ∧
      h'.uninitialized = h.uninitialized ∧ h'.curbrk = h.curbrk + w * 4 ∧
      Ready h' live (pre' ++ c :: post') ∧
      Heap.Coalesced pre l ⟨w * 4, false⟩ [] pre' c post' := by
  obtain ⟨bs, hbs⟩ := hR.head
  have hlow := hR.low
  have hbrk := hR.brk
  obtain ⟨pre', c, post', h', heq, hlp, hun, hcur, husr, hreg, hm⟩ :=
    Heap.extendHeap_spec hR.region hR.brk (by omega) hw h0 hmax
  have hsplit : pre ++ l :: ⟨w * 4, false⟩ :: [] = (pre ++ [l]) ++ [⟨w * 4, false⟩] := by
    simp
  refine ⟨pre', c, post', h', by rw [hlp]; exact heq, hun, hcur,
    ready_of_coalesced hm rfl (by rw [hlp]; exact hreg) ?_ ?_ hR.noAdjacent List.isChain_nil ?_
      hR.nodup ?_ ?_ ?_, hm⟩
  · exact ⟨bs ++ [⟨w * 4, false⟩], by rw [hsplit, hbs]; rfl⟩
  · rw [hsplit, hlp, hcur, ← hR.brk, span_append, span_cons, span_nil, Nat.add_zero,
      Nat.add_assoc]
  · intro x hx
    obtain ⟨hlt, b', hmem, ha, hn⟩ := hR.inside x hx
    rw [hlp, hsplit, blocksAt_append]
    exact ⟨hlt, b', List.mem_append_left _ hmem, ha, hn⟩
  · rw [hlp]; exact hR.aligned
  · rw [hcur]; exact hmax
  · rw [husr, hlp]; exact hR.low

/-! ### Initialisation -/

/-- A heap that was not initialised yet. -/
structure Blank (h : Heap) : Prop where
  /-- `malloc` was not called yet. -/
  uninit : h.uninitialized = true
  /-- The break is aligned. -/
  aligned : h.curbrk % 8 = 0
  /-- The break is not below the start of the heap. -/
  low : h.userHeap ≤ h.curbrk
  /-- There is room for the prologue. -/
  small : h.curbrk + 16 < wordRange

/-- The heap after `minit` got its first 16 bytes. -/
def Heap.prologued (h : Heap) : Heap := ({ h with curbrk := h.curbrk + 16 } : Heap).addPrologue h.curbrk

theorem Heap.prologued_mem {x : ℕ} (hx : x < h.curbrk ∨ h.curbrk + 16 ≤ x) :
    h.prologued.mem x = h.mem x := by
  simp only [prologued, addPrologue]
  rw [put_mem_of_ne (by omega), put_mem_of_ne (by omega), put_mem_of_ne (by omega),
    put_mem_of_ne (by omega)]

/-- The heap of a prologue and an epilogue is in order. -/
theorem ready_prologued (hB : Blank h) (h16 : h.curbrk + 16 ≤ maxAddr) :
    Ready h.prologued [] [prologue] := by
  obtain ⟨-, hal, hlow, -⟩ := hB
  obtain ⟨p, hp⟩ : ∃ p, h.curbrk = p := ⟨_, rfl⟩
  simp only [Heap.prologued, Heap.addPrologue, hp] at h16 hal hlow ⊢
  refine ⟨⟨[], rfl⟩, ⟨?_, ?_, ?_, ?_, ?_⟩, ?_, List.isChain_singleton _, by simp, by simp, ?_, ?_, ?_⟩
  · refine tiled_singleton.2 ⟨?_, ?_⟩
    · simp only [Heap.put]
      rw [Function.update_of_ne (by omega), Function.update_of_ne (by omega)]
      simp [pack, Blk.tag]
    · simp only [Heap.put]
      rw [Function.update_of_ne (by omega)]
      simp [pack, Blk.tag]
  · intro b hb
    rw [List.mem_singleton.1 hb]
    exact ⟨by decide, by decide⟩
  · simp only; omega
  · simp
  · simp [Heap.put, pack]
  · simp
  · simp only; omega
  · simp only [Heap.put]; omega
  · simp only [Heap.put]; omega

/-- `minit` with room for its first 16 bytes. -/
theorem minit_of_room {r : Option ℕ} (hB : Blank h) (h16 : h.curbrk + 16 ≤ maxAddr)
    (hext : h.prologued.extendHeap (chunkSize / 4) = .ok (r, h')) :
    h.minit = .ok (r.isSome, if r.isSome then { h' with uninitialized := false } else h') := by
  have hlim : maxAddr < wordRange := by decide
  have hlow := hB.low
  have hs := Heap.sbrk_spec (h := h) (show 0 < 16 by decide) (by omega) (by omega)
  rw [if_neg (by omega)] at hs
  simp only [Heap.prologued] at hext
  simp only [Heap.minit_def, hs, hext]
  cases r with
  | none => rfl
  | some bp => rfl

/-- What the first chunk makes of the heap of a prologue and an epilogue: one free block, and no change
to a word below the old break or from the new one on. -/
theorem extendHeap_prologued (hB : Blank h) (hmax : h.curbrk + 4112 ≤ maxAddr) :
    ∃ bp h', h.prologued.extendHeap (chunkSize / 4) = .ok (some bp, h') ∧
      h'.curbrk = h.curbrk + 4112 ∧
      Ready { h' with uninitialized := false } [] [prologue, ⟨4096, false⟩] ∧
      ∀ x, x < h.curbrk ∨ h'.curbrk ≤ x → h'.mem x = h.mem x := by
  have hR := ready_prologued hB (by omega)
  have hR₀ : h.prologued.Region h.prologued.heapListp ([] ++ [prologue]) := hR.region
  have hlow := hR.low
  have hbrk := hR.brk
  have hcur : h.prologued.curbrk = h.curbrk + 16 := rfl
  obtain ⟨h₁, heq, hlp, hun, hcur₁, husr, hreg, hout⟩ :=
    Heap.extendHeap_eq hR₀ hR.brk (by omega) (show chunkSize / 4 % 2 = 0 by decide) (by decide)
      (show h.prologued.curbrk + 4096 ≤ maxAddr by omega)
  -- the prologue is allocated, so the first chunk stands alone behind it
  have hco := Heap.coalesce_neither hreg rfl rfl
  rw [span_nil, Nat.add_zero, show h.prologued.heapListp + 8 = h.prologued.curbrk from hbrk] at hco
  rw [hco] at heq
  rw [show chunkSize / 4 * 4 = 4096 from rfl] at hcur₁ hout hreg
  have hcur' : h₁.curbrk = h.curbrk + 4112 := by rw [hcur₁, hcur]
  refine ⟨_, h₁, heq, hcur', ⟨⟨_, rfl⟩, ?_, ?_, ?_, by simp, by simp, ?_, ?_, ?_⟩, fun x hx => ?_⟩
  · exact ⟨by rw [hlp]; exact hreg.tiled, hreg.valid, by rw [hlp]; exact hreg.base, hreg.small, by
      rw [hlp]; exact hreg.epilogue⟩
  · simp only [hlp, hcur₁, ← hbrk]
    rfl
  · exact List.isChain_cons.2 ⟨fun _ _ => .inl rfl, List.isChain_singleton _⟩
  · simp only [hlp]; exact hR.aligned
  · rw [hcur']; exact hmax
  · simp only [husr, hlp]; exact hlow
  · rw [hcur'] at hx
    rw [hout x (by omega), Heap.prologued_mem (by omega)]

/-- The first chunk does not fit below the limit. -/
theorem extendHeap_prologued_none (hB : Blank h) (h16 : h.curbrk + 16 ≤ maxAddr)
    (hmax : maxAddr < h.curbrk + 4112) :
    h.prologued.extendHeap (chunkSize / 4) = .ok (none, h.prologued) := by
  have hlim : maxAddr + 4096 < wordRange := by decide
  have hcur : h.prologued.curbrk = h.curbrk + 16 := rfl
  have husr : h.prologued.userHeap = h.userHeap := rfl
  have hlow := hB.low
  have hwords : chunkSize / 4 * 4 = 4096 := rfl
  exact Heap.extendHeap_none (by omega) (by decide) (by decide) (by omega) (by omega)

/-- The heap of a prologue and an epilogue is retried by the next call. -/
theorem blank_prologued (hB : Blank h) (h16 : h.curbrk + 16 ≤ maxAddr) : Blank h.prologued := by
  have hlim : maxAddr + 16 < wordRange := by decide
  have hcur : h.prologued.curbrk = h.curbrk + 16 := rfl
  have husr : h.prologued.userHeap = h.userHeap := rfl
  have hlow := hB.low
  have hal := hB.aligned
  exact ⟨hB.uninit, by omega, by omega, by omega⟩

theorem heapOk_prologued (hB : Blank h) (h16 : h.curbrk + 16 ≤ maxAddr) : HeapOk h.prologued [] [] := by
  obtain ⟨bs, hbs, hok⟩ := (ready_prologued hB h16).heapOk
  obtain rfl : bs = [] := by simpa using hbs.symm
  exact hok

/-- **`minit`** on a heap with 16 bytes left: it initialises the heap, or leaves an empty one
behind when there is no room for the first chunk. -/
theorem minit_spec (hB : Blank h) (h16 : h.curbrk + 16 ≤ maxAddr) :
    (maxAddr < h.curbrk + 4112 ∧ ∃ h', h.minit = .ok (false, h') ∧ Blank h' ∧ HeapOk h' [] []) ∨
      (h.curbrk + 4112 ≤ maxAddr ∧ ∃ h', h.minit = .ok (true, h') ∧ h'.uninitialized = false ∧
        h'.curbrk = h.curbrk + 4112 ∧ Ready h' [] [prologue, ⟨4096, false⟩]) := by
  by_cases hmax : h.curbrk + 4112 ≤ maxAddr
  · obtain ⟨bp, h', heq, hcur, hR, -⟩ := extendHeap_prologued hB hmax
    exact .inr ⟨hmax, _, minit_of_room hB h16 heq, rfl, hcur, hR⟩
  · have heq := extendHeap_prologued_none hB h16 (by omega)
    exact .inl ⟨by omega, _, minit_of_room hB h16 heq, blank_prologued hB h16, heapOk_prologued hB h16⟩

end PlumOs
