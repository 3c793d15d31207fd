import PlumOs.Libc.FirstFit

/-!
# Runs of the allocator

A process is run as a machine over `malloc`, `free` of what it got and not yet freed, and stores
into its live payloads.

* `Serviceable` : the requests `malloc` can handle: none of its `size_t` sums wraps around, or the
  wrapped request finds no block and is refused by `sbrk`;
* `heapOk_of_run` : every run of small requests keeps the heap in order, as long as `minit` finds
  its 16 bytes;
* `malloc_gives_iff` : `malloc` gives what was asked exactly for the serviceable requests.
-/

namespace PlumOs

variable {h h' : Heap} {live : List (ℕ × ℕ)} {full : List Blk} {n brk : ℕ}

/-! ### Requests -/

/-- The sums of `malloc(n)` and `extend_heap` stay below `2^64` when the break is at `brk`. -/
def NoWrap (n brk : ℕ) : Prop :=
  n + 15 < wordRange ∧ brk + max (asizeOf n) chunkSize * 4 < wordRange

/-- `sbrk` refuses the bytes, counted modulo `2^64`, that `extend_heap` asks for. -/
def Refused (n brk : ℕ) : Prop :=
  maxAddr < (brk + max (asizeOf n) chunkSize * 4 % wordRange) % wordRange

/-- The requests that `malloc` handles as it should.  On a heap that was not initialised, `minit`
needs 16 bytes, and the search sees one block of 4096 bytes. -/
def Serviceable (h : Heap) (n : ℕ) : Prop :=
  if h.uninitialized then
    h.curbrk + 16 ≤ maxAddr ∧ (maxAddr < h.curbrk + 4112 ∨ NoWrap n (h.curbrk + 4112) ∨
      chunkSize < asizeOf n ∧ Refused n (h.curbrk + 4112))
  else NoWrap n h.curbrk ∨ h.findFit (asizeOf n) = .ok none ∧ Refused n h.curbrk

instance (n brk : ℕ) : Decidable (NoWrap n brk) := inferInstanceAs (Decidable (_ ∧ _))

instance (n brk : ℕ) : Decidable (Refused n brk) := inferInstanceAs (Decidable (_ < _))

instance (h : Heap) (n : ℕ) : Decidable (Serviceable h n) := by
  unfold Serviceable
  infer_instance

/-- An answer to `malloc(n)` that gives what was asked: `NULL` from a heap in order, or an aligned
pointer to a payload of at least `n` bytes below the break. -/
def Answered (n : ℕ) : Except Crash (Option ℕ × Heap) → Prop
  | .error _ => False
  | .ok (none, h) => ∃ bs, WellFormed h bs
  | .ok (some p, h) => p % 8 = 0 ∧ n + 8 ≤ h.getSize (hdrp p) ∧ p + n ≤ h.curbrk

theorem asizeOf_mod (n : ℕ) : asizeOf n % 8 = 0 := by
  unfold asizeOf alignSize
  split <;> omega

theorem asizeOf_bounds (hn : n + 15 < wordRange) :
    16 ≤ asizeOf n ∧ n + 8 ≤ asizeOf n ∧ asizeOf n ≤ n + 16 := by
  unfold asizeOf alignSize
  split
  · omega
  · rw [Nat.mod_eq_of_lt (by omega)]; omega

theorem noWrap_of_lt (hn : n < 2 ^ 29) (hb : brk ≤ 2 ^ 31) : NoWrap n brk := by
  have hr : wordRange = 2 ^ 64 := rfl
  obtain ⟨-, -, ha⟩ := asizeOf_bounds (n := n) (by omega)
  refine ⟨by omega, ?_⟩
  have hc : chunkSize = 4096 := rfl
  omega

/-- Only sizes far beyond 32 bits wrap around. -/
theorem large_of_not_noWrap (hw : ¬ NoWrap n brk) (hb : brk ≤ maxAddr) : 2 ^ 32 ≤ n := by
  by_contra hlt
  have hr : wordRange = 2 ^ 64 := rfl
  have hm : maxAddr = 2 ^ 30 := rfl
  have hc : chunkSize = 4096 := rfl
  obtain ⟨-, -, ha⟩ := asizeOf_bounds (n := n) (by omega)
  exact hw ⟨by omega, by omega⟩

/-! ### `malloc` on an initialised heap -/

/-- A region that starts with the prologue and ends at the break is walkable. -/
theorem Heap.Region.walkable {bs : List Blk} (hr : h.Region h.heapListp (prologue :: bs))
    (hbrk : h.heapListp + span (prologue :: bs) = h.curbrk) : Walkable h bs := by
  have he := hr.epilogue
  rw [span_cons, ← Nat.add_assoc] at he hbrk
  refine ⟨hr.tiled, fun b hb => hr.valid b (List.mem_cons_of_mem _ hb), ?_, Nat.le_of_eq hbrk⟩
  rw [hdrp, Heap.getSize, he]

/-- **`find_fit`** on a region that starts with the prologue and ends at the break. -/
theorem Heap.Region.findFit {bs : List Blk} (hr : h.Region h.heapListp (prologue :: bs))
    (hbrk : h.heapListp + span (prologue :: bs) = h.curbrk) (size : ℕ) :
    (h.findFit size = .ok none ∧ ∀ b ∈ prologue :: bs, ¬ Heap.Fits size b) ∨
      ∃ pre b post, prologue :: bs = pre ++ b :: post ∧ Heap.Fits size b ∧
        h.findFit size = .ok (some (h.heapListp + span pre)) := by
  rcases (hr.walkable hbrk).findFit size with ⟨hnone, hall⟩ | ⟨l, b, r, rfl, hb, -, hsome⟩
  · refine .inl ⟨hnone, fun b hb => ?_⟩
    rcases List.mem_cons.1 hb with rfl | hb
    · exact fun hfit => Bool.noConfusion hfit.1
    · exact hall b hb
  · refine .inr ⟨prologue :: l, b, r, rfl, hb, ?_⟩
    rw [hsome, span_cons, Nat.add_assoc]

theorem Ready.findFit (hR : Ready h live full) (size : ℕ) :
    (h.findFit size = .ok none ∧ ∀ b ∈ full, ¬ Heap.Fits size b) ∨
      ∃ pre b post, full = pre ++ b :: post ∧ Heap.Fits size b ∧
        h.findFit size = .ok (some (h.heapListp + span pre)) := by
  obtain ⟨bs, rfl⟩ := hR.head
  exact hR.region.findFit hR.brk size

/-- The live allocations after a `malloc(n)` that returned `r`. -/
def addLive (r : Option ℕ) (n : ℕ) (live : List (ℕ × ℕ)) : List (ℕ × ℕ) :=
  match r with
  | none => live
  | some p => (p, n) :: live

/-- A request that is placed in the block that `find_fit` found. -/
theorem Ready.place_found {bp : ℕ} (hR : Ready h live full) (hn : n + 15 < wordRange)
    (hfit : h.findFit (asizeOf n) = .ok (some bp)) :
    (h.place bp (asizeOf n)).uninitialized = h.uninitialized ∧
      ∃ full', Ready (h.place bp (asizeOf n)) ((bp, n) :: live) full' := by
  obtain ⟨h16, hn8, -⟩ := asizeOf_bounds hn
  rcases hR.findFit (asizeOf n) with ⟨hnone, -⟩ | ⟨pre, b, post, rfl, hb, hsome⟩
  · rw [hnone] at hfit
    cases hfit
  · rw [hsome] at hfit
    cases hfit
    exact ⟨(Heap.place_spec hR.region (by omega)).1.2.1,
      _, hR.place (n := n) hb.1 (by omega : 8 ≤ asizeOf n) hb.2 hn8⟩

/-- A request that is placed in the block by which `extend_heap` grows the heap. -/
theorem Ready.place_extended (hR : Ready h live full) (hn : n + 15 < wordRange)
    (hmax : h.curbrk + max (asizeOf n) chunkSize * 4 ≤ maxAddr) :
    ∃ bp h', h.extendHeap (max (asizeOf n) chunkSize) = .ok (some bp, h') ∧
      (h'.place bp (asizeOf n)).uninitialized = h.uninitialized ∧
      ∃ full', Ready (h'.place bp (asizeOf n)) ((bp, n) :: live) full' := by
  obtain ⟨h16, hn8, -⟩ := asizeOf_bounds hn
  have h8 := asizeOf_mod n
  have hc : chunkSize = 4096 := rfl
  obtain ⟨bs, rfl⟩ := hR.head
  obtain ⟨pre, l, hl⟩ := exists_concat prologue bs
  rw [hl] at hR
  obtain ⟨pre', c, post', h', heq, hun, -, hR', hm⟩ := hR.extendHeap (by omega) (by omega) hmax
  have hle := hm.size_le
  simp only at hle
  exact ⟨_, h', heq, (Heap.place_spec hR'.region (by omega)).1.2.1.trans hun,
    _, hR'.place (n := n) (hm.free rfl) (by omega : 8 ≤ asizeOf n) (by omega) hn8⟩

/-- The extension that a request needs does not fit below the limit. -/
theorem Ready.extendHeap_none (hR : Ready h live full) (hw : NoWrap n h.curbrk)
    (hmax : ¬ h.curbrk + max (asizeOf n) chunkSize * 4 ≤ maxAddr) :
    h.extendHeap (max (asizeOf n) chunkSize) = .ok (none, h) := by
  have h8 := asizeOf_mod n
  have hc : chunkSize = 4096 := rfl
  have hlow := hR.low
  have hbrk := hR.brk
  exact Heap.extendHeap_none (by omega) (by omega) (by omega) hw.2 (by omega)

/-- A request whose sums do not wrap around keeps the invariant. -/
theorem Ready.mallocInit (hR : Ready h live full) (hw : NoWrap n h.curbrk) :
    ∃ r h', h.mallocInit n = .ok (r, h') ∧ h'.uninitialized = h.uninitialized ∧
      ∃ full', Ready h' (addLive r n live) full' := by
  rw [Heap.mallocInit_def]
  by_cases h0 : n = 0
  · exact ⟨none, h, by rw [if_pos h0], rfl, full, hR⟩
  rw [if_neg h0]
  rcases hR.findFit (asizeOf n) with ⟨hnone, -⟩ | ⟨pre, b, post, rfl, hfit, hsome⟩
  · simp only [hnone]
    by_cases hmax : h.curbrk + max (asizeOf n) chunkSize * 4 ≤ maxAddr
    · obtain ⟨bp, h', heq, hun, hR'⟩ := hR.place_extended hw.1 hmax
      simp only [heq]
      exact ⟨some bp, _, rfl, hun, hR'⟩
    · rw [hR.extendHeap_none hw hmax]
      exact ⟨none, h, rfl, rfl, full, hR⟩
  · simp only [hsome]
    exact ⟨some _, _, rfl, hR.place_found hw.1 hsome⟩

/-- A live allocation has its payload below the break. -/
theorem Ready.answer {p : ℕ} (hR : Ready h live full) (hp : (p, n) ∈ live) :
    p % 8 = 0 ∧ n + 8 ≤ h.getSize (hdrp p) ∧ p + n ≤ h.curbrk := by
  obtain ⟨-, b, hmem, -, hn⟩ := hR.inside _ hp
  have hbound := (bounds_of_mem_blocksAt hmem).2
  obtain ⟨pre, post, rfl, hpeq⟩ := exists_split_of_mem_blocksAt hmem
  simp only at hn hpeq hbound hR
  obtain ⟨hh, -, hv⟩ := hR.region.block
  rw [← hpeq] at hh
  have hspan := span_mod_eight fun c hc => hR.region.valid c (List.mem_append_left _ hc)
  have hal := hR.aligned
  have hbrk := hR.brk
  refine ⟨by omega, ?_, by omega⟩
  rw [hdrp, Heap.getSize_of_tag hh hv]
  exact hn

theorem Ready.answered_mallocInit (hR : Ready h live full)
    (hw : NoWrap n h.curbrk) : Answered n (h.mallocInit n) := by
  obtain ⟨r, h', heq, -, full', hR'⟩ := hR.mallocInit hw
  rw [heq]
  cases r with
  | none =>
    obtain ⟨bs, -, hok⟩ := hR'.heapOk
    exact ⟨bs, hok.toWellFormed⟩
  | some p => exact hR'.answer List.mem_cons_self

/-! ### Requests that wrap around -/

/-- Headers are 32 bits wide, so no block that `place` hands out is larger. -/
theorem Heap.getSize_place_lt (h : Heap) (bp rsize : ℕ) :
    (h.place bp rsize).getSize (hdrp bp) < 2 ^ 32 := by
  have hput : ∀ (g : Heap) (x v w : ℕ), ((g.put (hdrp bp) v).put x w).mem (hdrp bp) < 2 ^ 32 := by
    intro g x v w
    by_cases hx : hdrp bp = x
    · rw [← hx, Heap.put_mem_self]; exact Nat.mod_lt _ (by decide)
    · rw [Heap.put_mem_of_ne hx, Heap.put_mem_self]; exact Nat.mod_lt _ (by decide)
  unfold Heap.getSize
  refine lt_of_le_of_lt (Nat.sub_le _ _) ?_
  unfold Heap.place
  exact hput _ _ _ _

/-- When `sbrk` neither refuses nor succeeds, the kernel has answered `brk(0)`, and the break is
back at the start of the heap. -/
theorem Heap.sbrk_none {incr : ℕ} (heq : h.sbrk incr = .ok (none, h'))
    (hgo : ¬ maxAddr < (h.curbrk + incr) % wordRange) : h' = { h with curbrk := h.userHeap } := by
  unfold Heap.sbrk Heap.sysBrk at heq
  rw [if_neg hgo] at heq
  by_cases h0 : incr = 0
  · simp [h0] at heq
  rw [if_neg h0] at heq
  by_cases hz : (h.curbrk + incr) % wordRange = 0
  · rw [if_pos hz] at heq
    simp only at heq
    split at heq
    · simp at heq
    · simp only [Except.ok.injEq, Prod.mk.injEq, true_and] at heq
      exact heq.symm
  · rw [if_neg hz] at heq
    by_cases hg : h.userHeap < (h.curbrk + incr) % wordRange ∧
        (h.curbrk + incr) % wordRange < heapLimit
    · rw [if_pos hg] at heq
      simp at heq
    · rw [if_neg hg] at heq
      simp at heq

theorem Heap.extendHeap_refused {words : ℕ} (hw : words % 2 = 0)
    (href : maxAddr < (h.curbrk + words * 4 % wordRange) % wordRange) :
    h.extendHeap words = .ok (none, h) := by
  have hs : h.sbrk (words * 4 % wordRange) = .ok (none, h) := by
    unfold Heap.sbrk
    rw [if_pos href]
  rw [Heap.extendHeap_def]
  rw [if_neg (by omega)]
  simp only [hs]

theorem Heap.sbrk_of_extendHeap_none {words : ℕ} (hw : words % 2 = 0)
    (heq : h.extendHeap words = .ok (none, h')) :
    h.sbrk (words * 4 % wordRange) = .ok (none, h') := by
  rw [Heap.extendHeap_def] at heq
  rw [if_neg (by omega)] at heq
  simp only at heq
  split at heq
  · simp at heq
  · next hs => rw [hs]; simpa using heq
  · simp at heq

theorem Heap.mallocInit_refused (hfit : h.findFit (asizeOf n) = .ok none)
    (href : Refused n h.curbrk) : h.mallocInit n = .ok (none, h) := by
  have h8 := asizeOf_mod n
  have hc : chunkSize = 4096 := rfl
  rw [Heap.mallocInit_def]
  split
  · rfl
  · simp only [hfit, Heap.extendHeap_refused (by omega : max (asizeOf n) chunkSize % 2 = 0) href]

/-- **Wrapped requests** are answered only by being refused. -/
theorem Ready.answered_wrapped (hR : Ready h live full) (hw : ¬ NoWrap n h.curbrk) :
    Answered n (h.mallocInit n) ↔
      h.findFit (asizeOf n) = .ok none ∧ Refused n h.curbrk := by
  have hlarge := large_of_not_noWrap hw hR.top
  have h8 := asizeOf_mod n
  have hc : chunkSize = 4096 := rfl
  have hplace : ∀ (g : Heap) (bp : ℕ), ¬ Answered n (.ok (some bp, g.place bp (asizeOf n))) := by
    rintro g bp ⟨-, hsize, -⟩
    have := g.getSize_place_lt bp (asizeOf n)
    omega
  rcases hR.findFit (asizeOf n) with ⟨hnone, -⟩ | ⟨pre, b, post, rfl, hfit, hsome⟩
  · by_cases href : Refused n h.curbrk
    · rw [Heap.mallocInit_refused hnone href]
      obtain ⟨bs, -, hok⟩ := hR.heapOk
      exact ⟨fun _ => ⟨hnone, href⟩, fun _ => ⟨bs, hok.toWellFormed⟩⟩
    · refine ⟨fun ha => ?_, fun hr => absurd hr.2 href⟩
      simp only [Heap.mallocInit_def, if_neg (by omega : ¬ n = 0), hnone] at ha
      cases heq : h.extendHeap (max (asizeOf n) chunkSize) with
      | error e => rw [heq] at ha; exact ha.elim
      | ok x =>
        obtain ⟨r, h'⟩ := x
        rw [heq] at ha
        cases r with
        | none =>
          -- the break was set back below the prologue
          obtain ⟨bs, hwf⟩ := ha
          have hbrk := hwf.brk
          rw [Heap.sbrk_none (Heap.sbrk_of_extendHeap_none (by omega) heq) href] at hbrk
          have hlow := hR.low
          simp only at hbrk
          omega
        | some bp => exact absurd ha (hplace _ _)
  · simp only [Heap.mallocInit_def, if_neg (by omega : ¬ n = 0), hsome]
    refine ⟨fun ha => absurd ha (hplace _ _), fun hr => ?_⟩
    exact absurd hr.1 (by simp)

theorem Ready.answered_iff (hR : Ready h live full) : Answered n (h.mallocInit n) ↔
    NoWrap n h.curbrk ∨ h.findFit (asizeOf n) = .ok none ∧ Refused n h.curbrk := by
  by_cases hw : NoWrap n h.curbrk
  · exact ⟨fun _ => .inl hw, fun _ => hR.answered_mallocInit hw⟩
  · rw [hR.answered_wrapped hw]
    exact ⟨.inr, fun hr => hr.resolve_left hw⟩

/-- The search in a heap that was just initialised sees one block of 4096 bytes. -/
theorem Ready.findFit_chunk (hR : Ready h [] [prologue, ⟨4096, false⟩]) {size : ℕ} :
    h.findFit size = .ok none ↔ chunkSize < size := by
  have hc : chunkSize = 4096 := rfl
  rcases hR.findFit size with ⟨hnone, hall⟩ | ⟨pre, b, post, hbs, hfit, hsome⟩
  · have hlt : ¬ size ≤ 4096 := fun hle => hall ⟨4096, false⟩ (by simp) ⟨rfl, hle⟩
    exact ⟨fun _ => by omega, fun _ => hnone⟩
  · have hmem : b ∈ [prologue, ⟨4096, false⟩] := by rw [hbs]; simp
    have hle : size ≤ 4096 := by
      rcases List.mem_cons.1 hmem with rfl | hmem
      · exact Bool.noConfusion hfit.1
      · rw [List.mem_singleton.1 hmem] at hfit; exact hfit.2
    rw [hsome]
    exact ⟨fun h => by simp at h, fun h => by omega⟩

/-! ### `malloc` -/

theorem Heap.malloc_of_initialized (hun : h.uninitialized = false) :
    h.malloc n = h.mallocInit n := by
  simp [Heap.malloc_def, hun]

/-- `minit` stores through the null pointer that `sbrk` returns when there is no room. -/
theorem minit_null (hB : Blank h) (h16 : ¬ h.curbrk + 16 ≤ maxAddr) : h.minit = .error .segfault := by
  have hs : h.sbrk 16 = .ok (none, h) := by
    unfold Heap.sbrk
    rw [Nat.mod_eq_of_lt hB.small, if_pos (by omega)]
  simp only [Heap.minit_def, hs]

theorem malloc_segfault (hB : Blank h) (h16 : ¬ h.curbrk + 16 ≤ maxAddr) :
    h.malloc n = .error .segfault := by
  simp only [Heap.malloc_def, hB.uninit, if_true, minit_null hB h16]

/-- `malloc` on a heap that was not initialised, once `minit` finds its 16 bytes. -/
theorem malloc_of_blank (hB : Blank h) (h16 : h.curbrk + 16 ≤ maxAddr) :
    (maxAddr < h.curbrk + 4112 ∧
      ∃ h', (∀ n, h.malloc n = .ok (none, h')) ∧ Blank h' ∧ HeapOk h' [] []) ∨
    (h.curbrk + 4112 ≤ maxAddr ∧
      ∃ h', (∀ n, h.malloc n = h'.mallocInit n) ∧ h'.uninitialized = false ∧
        h'.curbrk = h.curbrk + 4112 ∧ Ready h' [] [prologue, ⟨4096, false⟩]) := by
  rcases minit_spec hB h16 with ⟨hmax, h', heq, hB', hok⟩ | ⟨hmax, h', heq, hun, hcur, hR⟩
  · refine .inl ⟨hmax, h', fun n => ?_, hB', hok⟩
    simp only [Heap.malloc_def, hB.uninit, if_true, heq]
  · refine .inr ⟨hmax, h', fun n => ?_, hun, hcur, hR⟩
    simp only [Heap.malloc_def, hB.uninit, if_true, heq]

/-! ### The machine -/

/-- What a process does with its heap. -/
inductive MallocOp where
  | malloc (n : ℕ)
  | free (p : ℕ)
  | store (x v : ℕ)
  deriving DecidableEq, Repr

/-- A condition on requests can be tested when it can be tested for each size. -/
instance (P : ℕ → Prop) [DecidablePred P] : ∀ op : MallocOp, Decidable (∀ n, op = .malloc n → P n)
  | .malloc n => decidable_of_iff (P n) ⟨fun h _ heq => MallocOp.malloc.inj heq ▸ h, fun h => h n rfl⟩
  | .free _ => isTrue nofun
  | .store _ _ => isTrue nofun

/-- The heap with the allocations that were returned and not yet freed. -/
structure MallocState where
  /-- The heap. -/
  heap : Heap
  /-- The pointers that were handed out and not freed, with the sizes asked for. -/
  live : List (ℕ × ℕ)

namespace MallocState

/-- One call or store. -/
def step (s : MallocState) : MallocOp → Except Crash MallocState
  | .malloc n =>
    match s.heap.malloc n with
    | .error e => .error e
    | .ok (r, h) => .ok ⟨h, addLive r n s.live⟩
  | .free p => .ok ⟨s.heap.free p, s.live.filter fun x => x.1 ≠ p⟩
  | .store x v => .ok ⟨s.heap.put x v, s.live⟩

/-- A process that has not called `malloc` yet. -/
def start (userHeap : ℕ) : MallocState := ⟨freshHeap userHeap, []⟩

/-- `malloc` takes a `size_t`, `free` a pointer that was returned and not yet freed, and a store
goes to a word of a live payload. -/
def Legal (s : MallocState) : MallocOp → Prop
  | .malloc n => n < wordRange
  | .free p => ∃ n, (p, n) ∈ s.live
  | .store x _ => x % 4 = 0 ∧ ∃ p n, (p, n) ∈ s.live ∧ p ≤ x ∧ x < p + n

instance (s : MallocState) : ∀ op, Decidable (s.Legal op)
  | .malloc n => inferInstanceAs (Decidable (n < wordRange))
  | .free p => decidable_of_iff (∃ y ∈ s.live, y.1 = p)
      ⟨fun ⟨y, hy, hp⟩ => ⟨y.2, hp ▸ hy⟩, fun ⟨n, hp⟩ => ⟨(p, n), hp, rfl⟩⟩
  | .store x _ => decidable_of_iff (x % 4 = 0 ∧ ∃ y ∈ s.live, y.1 ≤ x ∧ x < y.1 + y.2)
      ⟨fun ⟨h4, y, hy, hx⟩ => ⟨h4, y.1, y.2, hy, hx⟩, fun ⟨h4, p, n, hp, hx⟩ => ⟨h4, (p, n), hp, hx⟩⟩

/-- Only requests below 512 MB. -/
def Small (s : MallocState) (op : MallocOp) : Prop :=
  s.Legal op ∧ ∀ n, op = .malloc n → n < 2 ^ 29

/-- A call that runs `minit` finds 16 bytes below the limit. -/
def MinitRoom (s : MallocState) (op : MallocOp) : Prop :=
  ∀ n, op = .malloc n → s.heap.uninitialized = true → s.heap.curbrk + 16 ≤ maxAddr

instance (s : MallocState) (op : MallocOp) : Decidable (s.Small op) := inferInstanceAs (Decidable (_ ∧ _))

instance (s : MallocState) (op : MallocOp) : Decidable (s.MinitRoom op) :=
  inferInstanceAs (Decidable (∀ n, op = .malloc n → _))

/-- Only requests that `malloc` can handle. -/
def Fair (s : MallocState) (op : MallocOp) : Prop :=
  s.Legal op ∧ ∀ n, op = .malloc n → Serviceable s.heap n

instance (s : MallocState) (op : MallocOp) : Decidable (s.Fair op) := inferInstanceAs (Decidable (_ ∧ _))

/-- The invariant of the machine after its first call. -/
def Settled (s : MallocState) : Prop :=
  (s.heap.uninitialized = false ∧ ∃ full, Ready s.heap s.live full) ∨
    (Blank s.heap ∧ s.live = [] ∧ HeapOk s.heap [] [])

/-- The invariant of the machine. -/
def Inv (s : MallocState) : Prop :=
  (s.heap.uninitialized = false ∧ ∃ full, Ready s.heap s.live full) ∨
    (Blank s.heap ∧ s.live = [])

variable {s : MallocState} {op : MallocOp}

theorem Settled.inv (hs : s.Settled) : s.Inv :=
  hs.imp id fun ⟨hB, hl, _⟩ => ⟨hB, hl⟩

theorem Settled.heapOk (hs : s.Settled) : ∃ bs, HeapOk s.heap s.live bs := by
  rcases hs with ⟨-, full, hR⟩ | ⟨-, hl, hok⟩
  · obtain ⟨bs, -, hok⟩ := hR.heapOk
    exact ⟨bs, hok⟩
  · rw [hl]; exact ⟨[], hok⟩

theorem inv_start {u : ℕ} (hu : u % 4096 = 0) (hr : u < wordRange) : (start u).Inv := by
  refine .inr ⟨⟨rfl, ?_, le_refl _, ?_⟩, rfl⟩
  · show u % 8 = 0
    omega
  · show u + 16 < wordRange
    have : wordRange = 2 ^ 64 := rfl
    omega

/-- **`malloc` gives what was asked** exactly when the request is serviceable, on every heap that
meets the invariant. -/
theorem Inv.answered_iff (hs : s.Inv) : Answered n (s.heap.malloc n) ↔ Serviceable s.heap n := by
  unfold Serviceable
  rcases hs with ⟨hun, full, hR⟩ | ⟨hB, -⟩
  · rw [Heap.malloc_of_initialized hun, hR.answered_iff, hun, if_neg Bool.false_ne_true]
  · rw [hB.uninit, if_pos rfl]
    by_cases h16 : s.heap.curbrk + 16 ≤ maxAddr
    · rcases malloc_of_blank hB h16 with ⟨hmax, h', heq, -, hok⟩ | ⟨hmax, h', heq, -, hcur, hR⟩
      · rw [heq]
        exact ⟨fun _ => ⟨h16, .inl hmax⟩, fun _ => ⟨[], hok.toWellFormed⟩⟩
      · rw [heq, hR.answered_iff, hR.findFit_chunk, hcur]
        exact ⟨fun ha => ⟨h16, .inr ha⟩, fun ha => ha.2.resolve_left (by omega)⟩
    · rw [malloc_segfault hB h16]
      exact ⟨False.elim, fun ha => absurd ha.1 h16⟩

/-- A serviceable request on an initialised heap. -/
theorem settled_mallocInit (hun : h.uninitialized = false) (hR : Ready h live full)
    (hn : NoWrap n h.curbrk ∨ h.findFit (asizeOf n) = .ok none ∧ Refused n h.curbrk) :
    ∃ r h', h.mallocInit n = .ok (r, h') ∧ Settled ⟨h', addLive r n live⟩ := by
  rcases hn with hw | ⟨hfit, href⟩
  · obtain ⟨r, h', heq, hun', full', hR'⟩ := hR.mallocInit hw
    exact ⟨r, h', heq, .inl ⟨hun'.trans hun, full', hR'⟩⟩
  · exact ⟨none, h, Heap.mallocInit_refused hfit href, .inl ⟨hun, full, hR⟩⟩

theorem Inv.malloc (hs : s.Inv) (hn : Serviceable s.heap n) :
    ∃ r h', s.heap.malloc n = .ok (r, h') ∧ Settled ⟨h', addLive r n s.live⟩ := by
  unfold Serviceable at hn
  rcases hs with ⟨hun, full, hR⟩ | ⟨hB, hl⟩
  · rw [hun, if_neg Bool.false_ne_true] at hn
    rw [Heap.malloc_of_initialized hun]
    exact settled_mallocInit hun hR hn
  · rw [hB.uninit, if_pos rfl] at hn
    rw [hl]
    rcases malloc_of_blank hB hn.1 with ⟨hmax, h', heq, hB', hok⟩ | ⟨hmax, h', heq, hun, hcur, hR⟩
    · exact ⟨none, h', heq n, .inr ⟨hB', rfl, hok⟩⟩
    · rw [heq]
      refine settled_mallocInit hun hR ?_
      rw [hcur, hR.findFit_chunk]
      exact hn.2.resolve_left (by omega)

/-- One fair step leads to a heap in order. -/
theorem Inv.step (hs : s.Inv) (hop : s.Fair op) : ∃ s', s.step op = .ok s' ∧ s'.Settled := by
  obtain ⟨hlegal, hserv⟩ := hop
  have hlive : ∀ {x : ℕ × ℕ}, x ∈ s.live →
      s.heap.uninitialized = false ∧ ∃ full, Ready s.heap s.live full := by
    intro x hx
    rcases hs with hs | ⟨-, hl⟩
    · exact hs
    · rw [hl] at hx; exact absurd hx List.not_mem_nil
  cases op with
  | malloc n =>
    obtain ⟨r, h', heq, hset⟩ := hs.malloc (hserv n rfl)
    exact ⟨_, by simp only [MallocState.step, heq], hset⟩
  | free p =>
    obtain ⟨n, hp⟩ := hlegal
    obtain ⟨hun, full, hR⟩ := hlive hp
    obtain ⟨hun', full', hR'⟩ := hR.free hp
    exact ⟨_, rfl, .inl ⟨hun'.trans hun, full', hR'⟩⟩
  | store x v =>
    obtain ⟨h4, p, n, hp, hle, hlt⟩ := hlegal
    obtain ⟨hun, full, hR⟩ := hlive hp
    exact ⟨_, rfl, .inl ⟨hun, full, hR.store hp hle hlt h4⟩⟩

/-- Small requests are serviceable once `minit` finds its 16 bytes. -/
theorem Inv.fair (hs : s.Inv) (hsmall : s.Small op) (hroom : s.MinitRoom op) : s.Fair op := by
  refine ⟨hsmall.1, ?_⟩
  rintro n rfl
  have hn := hsmall.2 n rfl
  have hm : maxAddr = 2 ^ 30 := rfl
  unfold Serviceable
  rcases hs with ⟨hun, full, hR⟩ | ⟨hB, -⟩
  · have htop := hR.top
    rw [hun, if_neg Bool.false_ne_true]
    exact .inl (noWrap_of_lt hn (by omega))
  · have h16 := hroom n rfl hB.uninit
    rw [hB.uninit, if_pos rfl]
    exact ⟨h16, .inr (.inl (noWrap_of_lt hn (by omega)))⟩

/-- **The heap stays in order.**  From a page-aligned start with room for the first `sbrk`, every
run of small requests, of frees of what was returned and not yet freed, and of stores into live
payloads goes through, and after each call the heap is tiled from the prologue to the epilogue at
the break, without free neighbours and with the live payloads inside and disjoint; provided every
call that runs `minit` finds 16 bytes below the limit. -/
theorem heapOk_of_run {u : ℕ} {ops : List MallocOp} (hu : u % 4096 = 0) (h16 : u + 16 ≤ maxAddr)
    (hsmall : Along step Small (start u) ops) (hroom : Along step MinitRoom (start u) ops) :
    ∃ s, run step (start u) ops = .ok s ∧ (ops ≠ [] → ∃ bs, HeapOk s.heap s.live bs) := by
  have hm : maxAddr < wordRange := by decide
  have hstep : ∀ s op, Inv s → Small s op ∧ MinitRoom s op → ∃ s', step s op = .ok s' ∧ Settled s' :=
    fun s op hs hop => hs.step (hs.fair hop.1 hop.2)
  cases ops with
  | nil => exact ⟨_, rfl, fun hne => absurd rfl hne⟩
  | cons op ops =>
    obtain ⟨t, ht, hset⟩ := hstep _ _ (inv_start hu (by omega)) ⟨hsmall.1, hroom.1⟩
    obtain ⟨s, hrun, hset'⟩ := run_progress hset (fun s op hs => hstep s op hs.inv)
      ((hsmall.2 t ht).and (hroom.2 t ht))
    exact ⟨s, by rw [run_cons_ok ht]; exact hrun, fun _ => hset'.heapOk⟩

/-- Two blocks are returned and freed, and become one, in which a larger one has room. -/
def coalescingOps : List MallocOp :=
  [.malloc 24, .malloc 24, .free 0x602010, .free 0x603010, .malloc 5000]

theorem heapOk_of_run_coalescing : ∃ s, run step (start 0x602000) coalescingOps = .ok s ∧
    ∃ bs, HeapOk s.heap s.live bs := by
  have hsmall : alongB step (fun s op => decide (s.Small op)) (start 0x602000) coalescingOps = true := by
    decide +kernel
  have hroom : alongB step (fun s op => decide (s.MinitRoom op)) (start 0x602000) coalescingOps = true := by
    decide +kernel
  obtain ⟨s, hrun, hok⟩ := heapOk_of_run (by decide) (by decide) (along_of_decide hsmall)
    (along_of_decide hroom)
  exact ⟨s, hrun, hok (by decide)⟩

/-- With the heap starting one page below the limit, `minit` fails 256 times for want of a chunk
and leaves 16 bytes behind each time; the next call stores through the null pointer. -/
theorem minit_segfault : ¬ ∀ u ops, u % 4096 = 0 → u + 16 ≤ maxAddr →
    Along step Small (start u) ops → ∃ s, run step (start u) ops = .ok s ∧
      (ops ≠ [] → ∃ bs, HeapOk s.heap s.live bs) := by
  intro hall
  obtain ⟨s, hrun, -⟩ := hall (2 ^ 30 - 4096) (List.replicate 257 (.malloc 1)) (by decide)
    (by decide) (along_replicate
      (fun s => ⟨(by decide : 1 < wordRange), fun n hn => by cases hn; decide⟩) _ _)
  have hcrash : (match run step (start (2 ^ 30 - 4096)) (List.replicate 257 (.malloc 1)) with
    | .error .segfault => true
    | _ => false) = true := by
    decide +kernel
  rw [hrun] at hcrash
  exact Bool.false_ne_true hcrash

/-- Requests that `malloc` can handle keep the invariant. -/
theorem inv_of_run {u : ℕ} {ops : List MallocOp} (hu : u % 4096 = 0) (hr : u < wordRange)
    (hfair : Along step Fair (start u) ops) (hrun : run step (start u) ops = .ok s) : s.Inv :=
  run_invariant (I := fun s => s.Inv) (inv_start hu hr)
    (fun s op s' hs hop heq => by
      obtain ⟨t, ht, hset⟩ := hs.step hop
      rw [heq, Except.ok.injEq] at ht
      rw [ht]; exact hset.inv) hfair hrun

/-- **`malloc` gives what was asked.**  On every heap reached by requests `malloc` can handle,
frees and stores into live payloads, a request is answered as it should exactly when it is
serviceable. -/
theorem malloc_gives_iff {u : ℕ} {ops : List MallocOp} {n : ℕ} (hu : u % 4096 = 0)
    (hr : u < wordRange) (hfair : Along step Fair (start u) ops)
    (hrun : run step (start u) ops = .ok s) :
    Answered n (s.heap.malloc n) ↔ Serviceable s.heap n :=
  (inv_of_run hu hr hfair hrun).answered_iff

theorem malloc_gives_iff_second : ∃ s, run step (start 0x602000) [.malloc 24] = .ok s ∧
    (Answered 100 (s.heap.malloc 100) ↔ Serviceable s.heap 100) := by
  have hfair : Fair (start 0x602000) (.malloc 24) := by
    refine ⟨(by decide : 24 < wordRange), ?_⟩
    rintro n ⟨⟩
    exact ⟨by decide, .inr (.inl ⟨by decide, by decide⟩)⟩
  obtain ⟨s, hs, -⟩ := (inv_start (u := 0x602000) (by decide) (by decide)).step hfair
  have hrun : run step (start 0x602000) [.malloc 24] = .ok s := by rw [run_cons_ok hs, run_nil]
  have hal : Along step Fair (start 0x602000) [.malloc 24] := ⟨hfair, fun _ _ => trivial⟩
  exact ⟨s, hrun, malloc_gives_iff (by decide) (by decide) hal hrun⟩

/-- `malloc(2^64 - 8)` rounds the size to 0, and the first free block is large enough. -/
theorem malloc_hands_out_short_block : ¬ ∀ u ops s n, u % 4096 = 0 → u < wordRange →
    Along step Legal (start u) ops → run step (start u) ops = .ok s → 0 < n → n < wordRange →
    Answered n (s.heap.malloc n) := by
  intro hall
  have ha := hall 0x602000 [] _ (2 ^ 64 - 8) (by decide) (by decide) trivial rfl (by decide)
    (by decide)
  rw [(inv_start (by decide) (by decide)).answered_iff] at ha
  rcases ha with ⟨-, h | h | h⟩
  · exact absurd h (by decide)
  · exact absurd h.1 (by decide)
  · exact absurd h.1 (by decide)

end MallocState

end PlumOs
