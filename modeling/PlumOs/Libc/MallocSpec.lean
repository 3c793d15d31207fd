import Mathlib.Tactic.SplitIfs
import PlumOs.Lib.Tiling
import PlumOs.Libc.Malloc

/-!
# What the heap operations do to the blocks

The heap of `libc/malloc.c` is read as a boundary-tag tiling: a region of memory that starts with
the prologue block and ends at the epilogue header.  Each operation gets one lemma that says how
it changes the list of blocks.

* `coalesce_spec` : the free block absorbs its free neighbours, and nothing else changes;
* `place_spec` : the whole block becomes allocated, whatever is left over;
* `findFitFrom_tiled` : the search finds the first free block that is large enough;
* `free_spec`, `extendHeap_spec` : both end in `coalesce`.
-/

namespace PlumOs

/-! ### Words and tags -/

theorem pack_zero (size : ℕ) : pack size 0 = size := Nat.or_zero size

theorem pack_one {size : ℕ} (h : size % 8 = 0) : pack size 1 = size + 1 := by
  obtain ⟨k, rfl⟩ : ∃ k, size = 2 ^ 3 * k := ⟨size / 8, by omega⟩
  exact (Nat.two_pow_add_eq_or_of_lt (by decide) k).symm

namespace Heap

variable {h : Heap}

@[simp] theorem put_mem_self (h : Heap) (p val : ℕ) : (h.put p val).mem p = val % 2 ^ 32 := by
  simp [put]

theorem put_mem_of_ne {x p : ℕ} (hx : x ≠ p) (h : Heap) (val : ℕ) :
    (h.put p val).mem x = h.mem x := by
  simp [put, hx]

theorem put_comm {p p' : ℕ} (hp : p ≠ p') (h : Heap) (val val' : ℕ) :
    (h.put p val).put p' val' = (h.put p' val').put p val := by
  unfold put
  rw [Function.update_comm hp.symm]

@[simp] theorem put_heapListp (h : Heap) (p val : ℕ) :
    (h.put p val).heapListp = h.heapListp := rfl

@[simp] theorem put_uninitialized (h : Heap) (p val : ℕ) :
    (h.put p val).uninitialized = h.uninitialized := rfl

@[simp] theorem put_curbrk (h : Heap) (p val : ℕ) : (h.put p val).curbrk = h.curbrk := rfl

@[simp] theorem put_userHeap (h : Heap) (p val : ℕ) : (h.put p val).userHeap = h.userHeap := rfl

theorem getSize_of_tag {p : ℕ} {b : Blk} (hp : h.mem p = b.tag) (hv : b.Valid) :
    h.getSize p = b.size := by
  have h8 := hv.2
  unfold getSize
  rw [hp]
  cases ha : b.alloc
  · rw [Blk.tag_free ha]; omega
  · rw [Blk.tag_alloc ha]; omega

theorem getAlloc_of_tag {p : ℕ} {b : Blk} (hp : h.mem p = b.tag) (hv : b.Valid) :
    h.getAlloc p = if b.alloc then 1 else 0 := by
  have h8 := hv.2
  unfold getAlloc
  rw [hp]
  cases ha : b.alloc
  · rw [Blk.tag_free ha]; simpa using h8
  · rw [Blk.tag_alloc ha]; simp only [if_true]; omega

theorem getSize_put_of_ne {x p : ℕ} (hx : x ≠ p) (h : Heap) (val : ℕ) :
    (h.put p val).getSize x = h.getSize x := by
  simp only [getSize, put_mem_of_ne hx]

theorem getSize_put_self {size : ℕ} (h8 : size % 8 = 0) (hlt : size + 1 < 2 ^ 32) (h : Heap)
    (p : ℕ) {alloc : ℕ} (ha : alloc = 0 ∨ alloc = 1) :
    (h.put p (pack size alloc)).getSize p = size := by
  simp only [getSize, put_mem_self]
  rcases ha with rfl | rfl
  · rw [pack_zero, Nat.mod_eq_of_lt (by omega)]; omega
  · rw [pack_one h8, Nat.mod_eq_of_lt hlt]; omega

theorem ftrp_put_of_ne {bp p : ℕ} (hx : bp - 4 ≠ p) (h : Heap) (val : ℕ) :
    (h.put p val).ftrp bp = h.ftrp bp := by
  simp only [ftrp, hdrp, getSize_put_of_ne hx]

theorem nextBlkp_put_of_ne {bp p : ℕ} (hx : bp - 4 ≠ p) (h : Heap) (val : ℕ) :
    (h.put p val).nextBlkp bp = h.nextBlkp bp := by
  simp only [nextBlkp, ftrp_put_of_ne hx]

theorem prevBlkp_put_of_ne {bp p : ℕ} (hx : bp - 8 ≠ p) (h : Heap) (val : ℕ) :
    (h.put p val).prevBlkp bp = h.prevBlkp bp := by
  simp only [prevBlkp, getSize_put_of_ne hx]

/-- Everything but the memory is the same. -/
def SameStatics (h h' : Heap) : Prop :=
  h'.heapListp = h.heapListp ∧ h'.uninitialized = h.uninitialized ∧ h'.curbrk = h.curbrk ∧
    h'.userHeap = h.userHeap

/-! ### Regions -/

/-- From `a` on the memory is tiled by `bs`, up to an epilogue header. -/
structure Region (h : Heap) (a : ℕ) (bs : List Blk) : Prop where
  tiled : Tiled h.mem a bs
  valid : ∀ b ∈ bs, b.Valid
  base : 8 ≤ a
  small : span bs < 2 ^ 32
  epilogue : h.mem (a + span bs - 4) = 1

/-- The block behind a prefix of the region, with its header and footer. -/
theorem Region.block {a : ℕ} {pre post : List Blk} {b : Blk} (hr : h.Region a (pre ++ b :: post)) :
    h.mem (a + span pre - 4) = b.tag ∧ h.mem (a + span pre + b.size - 8) = b.tag ∧ b.Valid := by
  have ht := (tiled_append.1 hr.tiled).2
  exact ⟨ht.1, ht.2.1, hr.valid b (by simp)⟩

/-- The word in front of the block behind a prefix tells whether that block is allocated; the
epilogue counts as an allocated block. -/
theorem Region.getAlloc_next {a : ℕ} {pre post : List Blk} (hr : h.Region a (pre ++ post)) :
    h.getAlloc (a + span pre - 4) = if (post.head?.map Blk.alloc).getD true then 1 else 0 := by
  cases post with
  | nil =>
    have he := hr.epilogue
    rw [List.append_nil] at he
    simp [getAlloc, he]
  | cons q post =>
    obtain ⟨h1, -, hv⟩ := hr.block
    rw [getAlloc_of_tag h1 hv]
    rfl

/-- Local edits of a region. -/
theorem Region.edit {h' : Heap} {a : ℕ} {pre mid mid' post : List Blk}
    (hr : h.Region a (pre ++ (mid ++ post))) (hv : ∀ b ∈ mid', b.Valid)
    (hspan : span mid' = span mid) (hmid : Tiled h'.mem (a + span pre) mid')
    (hout : ∀ x, x < a + span pre - 4 ∨ a + span pre + span mid - 4 ≤ x → h'.mem x = h.mem x) :
    h'.Region a (pre ++ (mid' ++ post)) := by
  have hb := hr.base
  have hpre : ∀ b ∈ pre, b.Valid := fun b hb => hr.valid b (by simp [hb])
  have hpost : ∀ b ∈ post, b.Valid := fun b hb => hr.valid b (by simp [hb])
  refine ⟨hr.tiled.edit hpre hpost (by omega) hspan hmid hout, fun b hmem => ?_, hb, ?_, ?_⟩
  · simp only [List.mem_append] at hmem
    rcases hmem with hmem | hmem | hmem
    · exact hpre b hmem
    · exact hv b hmem
    · exact hpost b hmem
  · have := hr.small; simpa [hspan] using this
  · have he := hr.epilogue
    simp only [span_append, hspan] at he ⊢
    rw [hout _ (.inr (by omega))]
    exact he

/-- Writing the tag of one block at both ends of some consecutive blocks makes them that block. -/
theorem Region.retag {h' : Heap} {a : ℕ} {pre m post : List Blk} {c : Blk}
    (hr : h.Region a (pre ++ (m ++ post))) (hc : c.Valid) (hspan : c.size = span m)
    (hhdr : h'.mem (a + span pre - 4) = c.tag) (hftr : h'.mem (a + span pre + c.size - 8) = c.tag)
    (hout : ∀ x, x < a + span pre - 4 ∨ a + span pre + c.size - 4 ≤ x → h'.mem x = h.mem x) :
    h'.Region a (pre ++ c :: post) := by
  refine hr.edit (by simpa using hc) (by simpa using hspan)
    (tiled_singleton.2 ⟨hhdr, hftr⟩) ?_
  rw [← hspan]; exact hout

/-- **The tag of a block is written** at both ends of some consecutive blocks.  What was written between
the ends before does not matter. -/
theorem Region.retag_put {h₁ : Heap} {a val hdr ftr : ℕ} {pre m post : List Blk} {c : Blk}
    (hr : h.Region a (pre ++ (m ++ post))) (hc : c.Valid) (hspan : c.size = span m) (hval : val = c.tag)
    (hhdr : hdr = a + span pre - 4) (hftr : ftr = a + span pre + c.size - 8)
    (hout : ∀ x, x < a + span pre - 4 ∨ a + span pre + c.size - 4 ≤ x → h₁.mem x = h.mem x) :
    ((h₁.put hdr val).put ftr val).Region a (pre ++ c :: post) := by
  have ha := hr.base
  have h8 := hc.eight_le
  have hmod : val % 2 ^ 32 = c.tag := by
    -- a size below the range of a word leaves room for the allocation bit
    have hsmall := hr.small
    have hsize := hc.2
    simp only [span_append] at hsmall
    rw [hval, Nat.mod_eq_of_lt]
    unfold Blk.tag
    split <;> omega
  rw [hhdr, hftr]
  refine hr.retag hc hspan ?_ ?_ fun x hx => ?_
  · rw [put_mem_of_ne (by omega), put_mem_self, hmod]
  · rw [put_mem_self, hmod]
  · rw [put_mem_of_ne (by omega), put_mem_of_ne (by omega)]
    exact hout x hx

/-- What `coalesce` makes of the free block `b` between `pre ++ [l]` and `post`: the block `c`
between `pre'` and `post'`. -/
inductive Coalesced (pre : List Blk) (l b : Blk) : List Blk → List Blk → Blk → List Blk → Prop
  | neither {post : List Blk} (hl : l.alloc = true) (hq : (post.head?.map Blk.alloc).getD true = true) :
      Coalesced pre l b post (pre ++ [l]) b post
  | next {q : Blk} {post : List Blk} (hl : l.alloc = true) (hq : q.alloc = false) :
      Coalesced pre l b (q :: post) (pre ++ [l]) ⟨b.size + q.size, false⟩ post
  | prev {post : List Blk} (hl : l.alloc = false) (hq : (post.head?.map Blk.alloc).getD true = true) :
      Coalesced pre l b post pre ⟨b.size + l.size, false⟩ post
  | both {q : Blk} {post : List Blk} (hl : l.alloc = false) (hq : q.alloc = false) :
      Coalesced pre l b (q :: post) pre ⟨b.size + (l.size + q.size), false⟩ post

theorem exists_free_head {post : List Blk} (h : (post.head?.map Blk.alloc).getD true = false) :
    ∃ q post', post = q :: post' ∧ q.alloc = false := by
  cases post with
  | nil => simp at h
  | cons q post' => exact ⟨q, post', rfl, by simpa using h⟩

/-- What `coalesce` reads about the block `b` and its neighbours. -/
theorem Region.reads {a bp : ℕ} {pre post : List Blk} {l b : Blk}
    (hr : h.Region a (pre ++ l :: b :: post)) (hbp : bp = a + span pre + l.size) :
    h.getSize (a + span pre - 4) = l.size ∧ h.getSize (bp - 4) = b.size ∧
      h.prevBlkp bp = a + span pre ∧ h.ftrp (a + span pre) = bp - 8 ∧
      h.ftrp bp = bp + b.size - 8 ∧ h.nextBlkp bp = bp + b.size ∧
      h.getAlloc (bp - 8) = (if l.alloc then 1 else 0) ∧
      h.getAlloc (bp + b.size - 4) = if (post.head?.map Blk.alloc).getD true then 1 else 0 := by
  have ha := hr.base
  obtain ⟨hlh, hlf, hlv⟩ := hr.block
  have hr' : h.Region a ((pre ++ [l]) ++ b :: post) := by simpa using hr
  obtain ⟨hbh, -, hbv⟩ := hr'.block
  have hr'' : h.Region a ((pre ++ [l, b]) ++ post) := by simpa using hr
  have hnext := hr''.getAlloc_next
  simp only [span_append, span_cons, span_nil, Nat.add_zero, ← Nat.add_assoc, ← hbp] at hbh hnext
  rw [← hbp] at hlf
  have hl8 := hlv.eight_le
  have hb8 := hbv.eight_le
  have hsizeb : h.getSize (bp - 4) = b.size := getSize_of_tag hbh hbv
  have hsizel : h.getSize (a + span pre - 4) = l.size := getSize_of_tag hlh hlv
  have hftb : h.ftrp bp = bp + b.size - 8 := by unfold ftrp hdrp; rw [hsizeb]
  refine ⟨hsizel, hsizeb, ?_, ?_, hftb, ?_, getAlloc_of_tag hlf hlv, hnext⟩
  · unfold prevBlkp; rw [getSize_of_tag hlf hlv]; omega
  · unfold ftrp hdrp; rw [hsizel]; omega
  · unfold nextBlkp; rw [hftb]; omega

/-- What `coalesce` reads about the block `q` behind `b`. -/
theorem Region.getSize_next {a bp : ℕ} {pre post : List Blk} {l b q : Blk}
    (hr : h.Region a (pre ++ l :: b :: q :: post)) (hbp : bp = a + span pre + l.size) :
    h.getSize (bp + b.size - 4) = q.size ∧ q.Valid := by
  have hr' : h.Region a ((pre ++ [l, b]) ++ q :: post) := by simpa using hr
  obtain ⟨hqh, -, hqv⟩ := hr'.block
  simp only [span_append, span_cons, span_nil, Nat.add_zero, ← Nat.add_assoc, ← hbp] at hqh
  exact ⟨getSize_of_tag hqh hqv, hqv⟩

/-- Between allocated neighbours `coalesce` has nothing to do. -/
theorem coalesce_neither {a : ℕ} {pre post : List Blk} {l b : Blk}
    (hr : h.Region a (pre ++ l :: b :: post)) (hl : l.alloc = true)
    (hq : (post.head?.map Blk.alloc).getD true = true) :
    h.coalesce (a + span pre + l.size) = (a + span pre + l.size, h) := by
  obtain ⟨-, -, hprev, hftl, -, hnxt, hla, hnext⟩ := hr.reads rfl
  unfold coalesce
  simp only [hprev, hftl, hnxt, hdrp, hla, hnext, hl, hq]
  exact if_pos ⟨Nat.one_ne_zero, Nat.one_ne_zero⟩

/-- **`coalesce`** merges the free block with its free neighbours. -/
theorem coalesce_spec {a : ℕ} {pre post : List Blk} {l b : Blk}
    (hr : h.Region a (pre ++ l :: b :: post)) :
    ∃ (pre' : List Blk) (c : Blk) (post' : List Blk) (h' : Heap),
      h.coalesce (a + span pre + l.size) = (a + span pre', h') ∧ h.SameStatics h' ∧
        h'.Region a (pre' ++ c :: post') ∧ Coalesced pre l b post pre' c post' := by
  set bp := a + span pre + l.size with hbp
  have ha := hr.base
  have hsmall := hr.small
  simp only [span_append, span_cons] at hsmall
  obtain ⟨-, -, hlv⟩ := hr.block
  have hr' : h.Region a ((pre ++ [l]) ++ b :: post) := by simpa using hr
  obtain ⟨-, -, hbv⟩ := hr'.block
  have hl8 := hlv.eight_le
  have hb8 := hbv.eight_le
  obtain ⟨hsizel, hsizeb, hprev, hftl, hftb, hnxt, hla, hnext⟩ := hr.reads hbp
  unfold coalesce
  simp only [hprev, hftl, hnxt, hdrp, hla, hnext, hsizeb, hsizel, hftb]
  cases hlal : l.alloc <;> cases hqal : (post.head?.map Blk.alloc).getD true
  · -- both neighbours are free: the header of `l` and the footer of `q` are rewritten
    obtain ⟨q, post, rfl, hq⟩ := exists_free_head hqal
    obtain ⟨hsizeq, hqv⟩ := hr.getSize_next hbp
    have hq8 := hqv.eight_le
    rw [span_cons] at hsmall
    have hS : (b.size + (l.size + q.size)) % 8 = 0 := by
      have := hlv.2; have := hbv.2; have := hqv.2; omega
    rw [if_neg (by simp), if_neg (by simp), if_neg (by simp), hsizeq]
    have haddr : ∀ v, (h.put (a + span pre - 4) v).ftrp
        ((h.put (a + span pre - 4) v).nextBlkp bp) = bp + b.size + q.size - 8 := by
      intro v
      rw [nextBlkp_put_of_ne (by omega), hnxt, ftrp_put_of_ne (by omega)]
      unfold ftrp hdrp; rw [hsizeq]
    rw [haddr]
    refine ⟨pre, ⟨b.size + (l.size + q.size), false⟩, post, _, Prod.ext ?_ rfl,
      ⟨rfl, rfl, rfl, rfl⟩, ?_, .both hlal hq⟩
    · simp only
      rw [prevBlkp_put_of_ne (by omega), prevBlkp_put_of_ne (by omega), hprev]
    · refine Region.retag_put (m := [l, b, q]) hr ⟨by simp only; omega, hS⟩ ?_ (pack_zero _) rfl ?_
        fun _ _ => rfl
      · simp only [span_cons, span_nil]; omega
      · simp only; omega
  · -- only `l` is free: its header and the footer of `b` are rewritten
    have hS : (b.size + l.size) % 8 = 0 := by
      have := hlv.2; have := hbv.2; omega
    rw [if_neg (by simp), if_neg (by simp), if_pos (by simp)]
    have hprev' : ∀ v, (h.put (bp + b.size - 8) v).prevBlkp bp = a + span pre := by
      intro v
      rw [prevBlkp_put_of_ne (by omega), hprev]
    rw [hprev']
    refine ⟨pre, ⟨b.size + l.size, false⟩, post, _, Prod.ext ?_ rfl, ⟨rfl, rfl, rfl, rfl⟩, ?_,
      .prev hlal hqal⟩
    · simp only
      rw [prevBlkp_put_of_ne (by omega), hprev']
    · rw [put_comm (by omega)]
      refine Region.retag_put (m := [l, b]) hr ⟨by simp only; omega, hS⟩ ?_ (pack_zero _) rfl ?_
        fun _ _ => rfl
      · simp only [span_cons, span_nil]; omega
      · simp only; omega
  · -- only the block behind is free: the header of `b` and the footer of `q` are rewritten
    obtain ⟨q, post, rfl, hq⟩ := exists_free_head hqal
    obtain ⟨hsizeq, hqv⟩ := hr.getSize_next hbp
    have hq8 := hqv.eight_le
    rw [span_cons] at hsmall
    have hS : (b.size + q.size) % 8 = 0 := by
      have := hbv.2; have := hqv.2; omega
    rw [if_neg (by simp), if_pos (by simp), hsizeq]
    have haddr : (h.put (bp - 4) (pack (b.size + q.size) 0)).ftrp bp =
        bp + (b.size + q.size) - 8 := by
      unfold ftrp hdrp; rw [getSize_put_self hS (by omega) _ _ (.inl rfl)]
    rw [haddr]
    refine ⟨pre ++ [l], ⟨b.size + q.size, false⟩, post, _, Prod.ext ?_ rfl, ⟨rfl, rfl, rfl, rfl⟩,
      ?_, .next hlal hq⟩
    · simp [hbp, Nat.add_assoc]
    · have hspan : a + span (pre ++ [l]) = bp := by simp [hbp, Nat.add_assoc]
      refine Region.retag_put (m := [b, q]) hr' ⟨by simp only; omega, hS⟩ ?_ (pack_zero _)
        (by rw [hspan]) (by rw [hspan]) fun _ _ => rfl
      simp only [span_cons, span_nil]; omega
  · exact ⟨pre ++ [l], b, post, h, by simp [hbp, Nat.add_assoc], ⟨rfl, rfl, rfl, rfl⟩, hr',
      .neither hlal hqal⟩

theorem SameStatics.trans {h₁ h₂ h₃ : Heap} (h12 : h₁.SameStatics h₂) (h23 : h₂.SameStatics h₃) :
    h₁.SameStatics h₃ :=
  ⟨h23.1.trans h12.1, h23.2.1.trans h12.2.1, h23.2.2.1.trans h12.2.2.1,
    h23.2.2.2.trans h12.2.2.2⟩

/-- `free` coalesces a heap `h₁` in which the allocation bit of the block is cleared. -/
theorem free_eq {a bp : ℕ} {pre post : List Blk} {l b : Blk}
    (hr : h.Region a (pre ++ l :: b :: post)) (hbp : bp = a + span pre + l.size) :
    ∃ h₁ : Heap, h.free bp = (h₁.coalesce bp).2 ∧ h.SameStatics h₁ ∧
      h₁.Region a (pre ++ l :: ⟨b.size, false⟩ :: post) ∧
      ∀ x, x < bp - 4 ∨ bp + b.size - 4 ≤ x → h₁.mem x = h.mem x := by
  have ha := hr.base
  have hsmall := hr.small
  simp only [span_append, span_cons] at hsmall
  have hr' : h.Region a ((pre ++ [l]) ++ ([b] ++ post)) := by simpa using hr
  obtain ⟨-, -, hbv⟩ := hr'.block
  have hb8 := hbv.eight_le
  have hspan : a + span (pre ++ [l]) = bp := by simp [hbp, Nat.add_assoc]
  obtain ⟨-, hsizeb, -⟩ := hr.reads hbp
  have hftr : (h.put (bp - 4) (pack b.size 0)).ftrp bp = bp + b.size - 8 := by
    unfold ftrp hdrp; rw [getSize_put_self hbv.2 (by have := hbv.2; omega) _ _ (.inl rfl)]
  refine ⟨(h.put (bp - 4) (pack b.size 0)).put (bp + b.size - 8) (pack b.size 0), ?_,
    ⟨rfl, rfl, rfl, rfl⟩, ?_, fun x hx => ?_⟩
  · unfold free
    simp only [hdrp, hsizeb, hftr]
  · suffices hreg : ((h.put (bp - 4) (pack b.size 0)).put (bp + b.size - 8)
        (pack b.size 0)).Region a ((pre ++ [l]) ++ ⟨b.size, false⟩ :: post) by simpa using hreg
    exact Region.retag_put (m := [b]) hr' hbv (by simp) (pack_zero _) (by rw [hspan]) (by rw [hspan])
      fun _ _ => rfl
  · rw [put_mem_of_ne (by omega), put_mem_of_ne (by omega)]

/-- **`free`** clears the allocation bit of the block and coalesces it. -/
theorem free_spec {a : ℕ} {pre post : List Blk} {l b : Blk}
    (hr : h.Region a (pre ++ l :: b :: post)) :
    ∃ (pre' : List Blk) (c : Blk) (post' : List Blk),
      h.SameStatics (h.free (a + span pre + l.size)) ∧
        (h.free (a + span pre + l.size)).Region a (pre' ++ c :: post') ∧
        Coalesced pre l ⟨b.size, false⟩ post pre' c post' := by
  obtain ⟨h₁, hfree, hst₁, hclear, -⟩ := free_eq hr rfl
  obtain ⟨pre', c, post', h', hco, hst, hreg, hmerge⟩ := coalesce_spec hclear
  rw [hfree, hco]
  exact ⟨pre', c, post', hst₁.trans hst, hreg, hmerge⟩

/-- `free` of a block between allocated neighbours clears its allocation bit and writes nowhere
else. -/
theorem free_neither {a bp : ℕ} {pre post : List Blk} {l b : Blk}
    (hr : h.Region a (pre ++ l :: b :: post)) (hbp : bp = a + span pre + l.size)
    (hl : l.alloc = true) (hq : (post.head?.map Blk.alloc).getD true = true) :
    h.SameStatics (h.free bp) ∧ (h.free bp).Region a (pre ++ l :: ⟨b.size, false⟩ :: post) ∧
      ∀ x, x < bp - 4 ∨ bp + b.size - 4 ≤ x → (h.free bp).mem x = h.mem x := by
  obtain ⟨h₁, hfree, hst, hclear, hout⟩ := free_eq hr hbp
  rw [hfree, hbp, coalesce_neither hclear hl hq, ← hbp]
  exact ⟨hst, hclear, hout⟩

/-- `place` writes the tags of the whole block, over a heap `h₁` in which the tags of a remainder
were written inside the block. -/
theorem place_eq {a rsize : ℕ} {pre post : List Blk} {b : Blk}
    (hr : h.Region a (pre ++ b :: post)) (h8 : 8 ≤ rsize) :
    ∃ h₁ : Heap, h.SameStatics h₁ ∧
      h.place (a + span pre) rsize = (h₁.put (a + span pre - 4) (pack b.size 1)).put
        (a + span pre + b.size - 8) (pack b.size 1) ∧
      ∀ x, x < a + span pre - 4 ∨ a + span pre + b.size - 4 ≤ x → h₁.mem x = h.mem x := by
  set bp := a + span pre with hbp
  have ha := hr.base
  have hsmall := hr.small
  simp only [span_append, span_cons] at hsmall
  obtain ⟨hbh, -, hbv⟩ := hr.block
  rw [← hbp] at hbh
  have hb8 := hbv.2
  have hsize : h.getSize (bp - 4) = b.size := getSize_of_tag hbh hbv
  obtain ⟨h₁, hst, hpl, hout⟩ : ∃ h₁ : Heap, h.SameStatics h₁ ∧
      h.place bp rsize = (h₁.put (bp - 4) (pack b.size 1)).put
        ((h₁.put (bp - 4) (pack b.size 1)).ftrp bp) (pack b.size 1) ∧
      ∀ x, x < bp - 4 ∨ bp + b.size - 4 ≤ x → h₁.mem x = h.mem x := by
    unfold place
    simp only [hdrp, hsize]
    by_cases hgt : b.size > rsize
    · refine ⟨(h.put (bp + rsize - 4) (pack (b.size - rsize) 0)).put
        ((h.put (bp + rsize - 4) (pack (b.size - rsize) 0)).ftrp (bp + rsize))
        (pack (b.size - rsize) 0), ⟨rfl, rfl, rfl, rfl⟩, by rw [if_pos hgt], fun x hx => ?_⟩
      have hftr : (h.put (bp + rsize - 4) (pack (b.size - rsize) 0)).ftrp (bp + rsize) ≤
          bp + b.size - 8 ∧ bp ≤ (h.put (bp + rsize - 4) (pack (b.size - rsize) 0)).ftrp
            (bp + rsize) := by
        unfold ftrp hdrp getSize
        rw [put_mem_self, pack_zero, Nat.mod_eq_of_lt (by omega)]
        omega
      rw [put_mem_of_ne (by omega), put_mem_of_ne (by omega)]
    · exact ⟨h, ⟨rfl, rfl, rfl, rfl⟩, by rw [if_neg hgt], fun _ _ => rfl⟩
  have hftr : (h₁.put (bp - 4) (pack b.size 1)).ftrp bp = bp + b.size - 8 := by
    unfold ftrp hdrp; rw [getSize_put_self hb8 (by omega) _ _ (.inr rfl)]
  rw [hftr] at hpl
  exact ⟨h₁, hst, hpl, hout⟩

/-- **`place`** allocates the whole block: the tags of a remainder are written and the last two
stores take them back. -/
theorem place_spec {a rsize : ℕ} {pre post : List Blk} {b : Blk}
    (hr : h.Region a (pre ++ b :: post)) (h8 : 8 ≤ rsize) :
    h.SameStatics (h.place (a + span pre) rsize) ∧
      (h.place (a + span pre) rsize).Region a (pre ++ ⟨b.size, true⟩ :: post) := by
  obtain ⟨-, -, hbv⟩ := hr.block
  obtain ⟨h₁, hst, hpl, hout⟩ := place_eq hr h8
  rw [hpl]
  exact ⟨hst.trans ⟨rfl, rfl, rfl, rfl⟩,
    Region.retag_put (m := [b]) hr hbv (by simp) (pack_one hbv.2) rfl rfl hout⟩

/-- `place` writes inside the block only. -/
theorem place_mem {a rsize x : ℕ} {pre post : List Blk} {b : Blk}
    (hr : h.Region a (pre ++ b :: post)) (h8 : 8 ≤ rsize)
    (hx : x < a + span pre - 4 ∨ a + span pre + b.size - 4 ≤ x) :
    (h.place (a + span pre) rsize).mem x = h.mem x := by
  have ha := hr.base
  obtain ⟨-, -, hbv⟩ := hr.block
  have hb8 := hbv.eight_le
  obtain ⟨h₁, -, hpl, hout⟩ := place_eq hr h8
  rw [hpl, put_mem_of_ne (by omega), put_mem_of_ne (by omega)]
  exact hout x hx

/-- A block that `find_fit(size)` accepts. -/
def Fits (size : ℕ) (b : Blk) : Prop := b.alloc = false ∧ size ≤ b.size

instance (size : ℕ) (b : Blk) : Decidable (Fits size b) := inferInstanceAs (Decidable (_ ∧ _))

/-- **The search of `find_fit`** over blocks that end at a header of size 0 ends, at the first block that
fits or at that header. -/
theorem findFitFrom_tiled {p size : ℕ} {bs : List Blk} (ht : Tiled h.mem p bs)
    (hv : ∀ b ∈ bs, b.Valid) (hend : h.getSize (hdrp (p + span bs)) = 0) {fuel : ℕ}
    (hfuel : bs.length < fuel) :
    (h.findFitFrom size fuel p = .ok none ∧ ∀ b ∈ bs, ¬ Fits size b) ∨
      ∃ l b r, bs = l ++ b :: r ∧ Fits size b ∧ (∀ c ∈ l, ¬ Fits size c) ∧
        h.findFitFrom size fuel p = .ok (some (p + span l)) := by
  induction bs generalizing p fuel with
  | nil =>
    obtain ⟨fuel, rfl⟩ : ∃ f, fuel = f + 1 := ⟨fuel - 1, by simp at hfuel; omega⟩
    rw [span_nil, Nat.add_zero] at hend
    exact .inl ⟨by rw [findFitFrom, if_pos hend], by simp⟩
  | cons b bs ih =>
    obtain ⟨fuel, rfl⟩ : ∃ f, fuel = f + 1 := ⟨fuel - 1, by simp at hfuel; omega⟩
    obtain ⟨hh, -, hrest⟩ := ht
    have hb := hv b List.mem_cons_self
    have hb8 := hb.eight_le
    have hsize : h.getSize (hdrp p) = b.size := getSize_of_tag hh hb
    have halloc : h.getAlloc (hdrp p) = if b.alloc then 1 else 0 := getAlloc_of_tag hh hb
    have hnext : h.nextBlkp p = p + b.size := by
      rw [nextBlkp, ftrp, hsize]
      omega
    rw [findFitFrom, hsize, halloc, hnext, if_neg (by omega)]
    by_cases hfit : Fits size b
    · refine .inr ⟨[], b, bs, rfl, hfit, by simp, ?_⟩
      rw [if_pos ⟨by simp [hfit.1], hfit.2⟩]
      rfl
    · have hcond : ¬ ((if b.alloc = true then 1 else 0) = 0 ∧ size ≤ b.size) := by
        rintro ⟨h1, h2⟩
        exact hfit ⟨by simpa using h1, h2⟩
      rw [if_neg hcond]
      rw [span_cons, ← Nat.add_assoc] at hend
      rcases ih hrest (fun c hc => hv c (List.mem_cons_of_mem _ hc)) hend (by simp at hfuel; omega) with
        ⟨hnone, hall⟩ | ⟨l, c, r, rfl, hc, hl, hsome⟩
      · exact .inl ⟨hnone, by simpa using ⟨hfit, hall⟩⟩
      · refine .inr ⟨b :: l, c, r, rfl, hc, by simpa using ⟨hfit, hl⟩, ?_⟩
        rw [hsome, span_cons, Nat.add_assoc]

/-! ### Growing the heap -/

/-- `sbrk` of an amount that does not wrap the break around. -/
theorem sbrk_spec {incr : ℕ} (h0 : 0 < incr) (hwrap : h.curbrk + incr < wordRange)
    (hlow : h.userHeap ≤ h.curbrk) :
    h.sbrk incr = if h.curbrk + incr > maxAddr then .ok (none, h)
      else .ok (some h.curbrk, { h with curbrk := h.curbrk + incr }) := by
  unfold sbrk sysBrk
  rw [Nat.mod_eq_of_lt hwrap]
  have hlim : maxAddr < heapLimit := by decide
  by_cases hgt : h.curbrk + incr > maxAddr
  · rw [if_pos hgt, if_pos hgt]
  · rw [if_neg hgt, if_neg (by omega), if_neg (by omega), if_pos ⟨by omega, by omega⟩,
      if_neg hgt]
    simp

/-- `extend_heap` coalesces a heap `h₁` in which the new block ends the heap. -/
theorem extendHeap_eq {a words : ℕ} {pre : List Blk} {l : Blk} (hr : h.Region a (pre ++ [l]))
    (hbrk : a + span (pre ++ [l]) = h.curbrk) (hlow : h.userHeap ≤ h.curbrk)
    (hw : words % 2 = 0) (h0 : 0 < words) (hmax : h.curbrk + words * 4 ≤ maxAddr) :
    ∃ h₁ : Heap, h.extendHeap words = .ok (some (h₁.coalesce h.curbrk).1, (h₁.coalesce h.curbrk).2) ∧
      h₁.heapListp = h.heapListp ∧ h₁.uninitialized = h.uninitialized ∧
      h₁.curbrk = h.curbrk + words * 4 ∧ h₁.userHeap = h.userHeap ∧
      h₁.Region a (pre ++ l :: ⟨words * 4, false⟩ :: []) ∧
      ∀ x, x < h.curbrk - 4 ∨ h.curbrk + words * 4 ≤ x → h₁.mem x = h.mem x := by
  have ha := hr.base
  set e := h.curbrk with he
  set S := words * 4 with hS
  have hlim : maxAddr < 2 ^ 32 := by decide
  have hlim' : maxAddr < wordRange := by decide
  have hS8 : S % 8 = 0 := by omega
  set h₁ : Heap := { h with curbrk := e + S } with hh₁
  have hftr : (h₁.put (e - 4) (pack S 0)).ftrp e = e + S - 8 := by
    unfold ftrp hdrp; rw [getSize_put_self hS8 (by omega) _ _ (.inl rfl)]
  have hnxt : ((h₁.put (e - 4) (pack S 0)).put (e + S - 8) (pack S 0)).nextBlkp e = e + S := by
    rw [nextBlkp_put_of_ne (by omega)]; unfold nextBlkp; rw [hftr]; omega
  refine ⟨((h₁.put (e - 4) (pack S 0)).put (e + S - 8) (pack S 0)).put (e + S - 4) (pack 0 1), ?_,
    rfl, rfl, rfl, rfl, ?_, fun x hx => ?_⟩
  · rw [extendHeap_def]
    rw [if_neg (by omega), Nat.mod_eq_of_lt (by omega)]
    simp only [sbrk_spec (by omega : 0 < S) (by omega) hlow, ← hS, ← he, ← hh₁,
      if_neg (by omega : ¬ e + S > maxAddr), Heap.addBlock, hdrp, hftr, hnxt]
  · -- the old epilogue has become the header of the new block
    have hsplit : pre ++ l :: ⟨S, false⟩ :: [] = (pre ++ [l]) ++ [⟨S, false⟩] := by simp
    rw [hsplit]
    refine ⟨tiled_append.2 ⟨?_, ?_⟩, ?_, ha, ?_, ?_⟩
    · refine hr.tiled.congr hr.valid (by omega) fun x _ hx => ?_
      rw [hbrk] at hx
      rw [put_mem_of_ne (by omega), put_mem_of_ne (by omega), put_mem_of_ne (by omega)]
    · rw [hbrk, tiled_singleton]
      constructor
      · rw [put_mem_of_ne (by omega), put_mem_of_ne (by omega), put_mem_self, pack_zero,
          Nat.mod_eq_of_lt (by omega)]
        rfl
      · rw [put_mem_of_ne (by simp only; omega), put_mem_self, pack_zero,
          Nat.mod_eq_of_lt (by omega)]
        rfl
    · intro b hb
      rcases List.mem_append.1 hb with hb | hb
      · exact hr.valid b hb
      · rw [List.mem_singleton.1 hb]; exact ⟨by simp only; omega, hS8⟩
    · rw [span_append]; simp only [span_cons, span_nil]; omega
    · rw [span_append, ← Nat.add_assoc, hbrk]
      simp only [span_cons, span_nil, Nat.add_zero, put_mem_self]
      rfl
  · rw [put_mem_of_ne (by omega), put_mem_of_ne (by omega), put_mem_of_ne (by omega)]

/-- **`extend_heap`** when the byte count fits below the limit: the new block, merged with a free
block in front of it, ends the heap. -/
theorem extendHeap_spec {a words : ℕ} {pre : List Blk} {l : Blk} (hr : h.Region a (pre ++ [l]))
    (hbrk : a + span (pre ++ [l]) = h.curbrk) (hlow : h.userHeap ≤ h.curbrk)
    (hw : words % 2 = 0) (h0 : 0 < words) (hmax : h.curbrk + words * 4 ≤ maxAddr) :
    ∃ (pre' : List Blk) (c : Blk) (post' : List Blk) (h' : Heap),
      h.extendHeap words = .ok (some (a + span pre'), h') ∧
      h'.heapListp = h.heapListp ∧ h'.uninitialized = h.uninitialized ∧
      h'.curbrk = h.curbrk + words * 4 ∧ h'.userHeap = h.userHeap ∧
      h'.Region a (pre' ++ c :: post') ∧
      Coalesced pre l ⟨words * 4, false⟩ [] pre' c post' := by
  obtain ⟨h₁, heq, hlp, hun, hcur, husr, hgrown, -⟩ := extendHeap_eq hr hbrk hlow hw h0 hmax
  obtain ⟨pre', c, post', h', hco, hst, hreg, hmerge⟩ := coalesce_spec hgrown
  have hbp : a + span pre + l.size = h.curbrk := by
    rw [← hbrk]; simp only [span_append, span_cons, span_nil]; omega
  rw [hbp] at hco
  rw [hco] at heq
  exact ⟨pre', c, post', h', heq, hst.1.trans hlp, hst.2.1.trans hun, hst.2.2.1.trans hcur,
    hst.2.2.2.trans husr, hreg, hmerge⟩

theorem extendHeap_none {words : ℕ} (hlow : h.userHeap ≤ h.curbrk) (hw : words % 2 = 0)
    (h0 : 0 < words) (hwrap : h.curbrk + words * 4 < wordRange)
    (hmax : maxAddr < h.curbrk + words * 4) : h.extendHeap words = .ok (none, h) := by
  rw [extendHeap_def]
  rw [if_neg (by omega), Nat.mod_eq_of_lt (by omega)]
  simp only [sbrk_spec (by omega : 0 < words * 4) hwrap hlow, if_pos hmax]

end Heap

end PlumOs
