import Mathlib.Data.Nat.Basic
import Mathlib.Data.List.Chain
import Mathlib.Algebra.BigOperators.Group.List.Basic
import Mathlib.Algebra.GroupWithZero.Nat

/-!
# Boundary-tag tilings

A region of word memory is tiled by blocks that carry their size and an allocation bit in a
header word and again in a footer word.  A block is named by the address behind its header: the
header of the block at `a` is the word at `a - 4`, its footer the word at `a + size - 8`, and the
next block is at `a + size`.

* `Tiled mem a bs` : starting at `a`, the memory holds the blocks `bs` back to back;
* `tiled_append` : a tiling splits wherever the list of blocks does;
* `Tiled.congr` : a tiling depends only on the words from its first header to its last footer;
* `Tiled.unique` : the memory determines the blocks;
* `blocksAt a bs` : the blocks with their addresses, which are strictly increasing
  (`blocksAt_disjoint`).
-/

namespace PlumOs

/-- A block: its size in bytes, header and footer included, and whether it is allocated. -/
structure Blk where
  /-- The size in bytes. -/
  size : ℕ
  /-- Whether the block is allocated. -/
  alloc : Bool
  deriving DecidableEq, Repr

namespace Blk

/-- The word stored in the header and in the footer. -/
def tag (b : Blk) : ℕ := b.size + if b.alloc then 1 else 0

/-- Sizes that a tag can encode: positive multiples of 8. -/
def Valid (b : Blk) : Prop := 0 < b.size ∧ b.size % 8 = 0

theorem Valid.eight_le {b : Blk} (h : b.Valid) : 8 ≤ b.size := by
  obtain ⟨h1, h2⟩ := h; omega

theorem tag_free {b : Blk} (h : b.alloc = false) : b.tag = b.size := by simp [tag, h]

theorem tag_alloc {b : Blk} (h : b.alloc = true) : b.tag = b.size + 1 := by simp [tag, h]

end Blk

/-- The bytes a list of blocks takes. -/
def span (bs : List Blk) : ℕ := (bs.map Blk.size).sum

@[simp] theorem span_nil : span [] = 0 := rfl

@[simp] theorem span_cons (b : Blk) (bs : List Blk) : span (b :: bs) = b.size + span bs := by
  simp [span]

@[simp] theorem span_append (l r : List Blk) : span (l ++ r) = span l + span r := by
  simp [span]

theorem span_mod_eight {bs : List Blk} (hv : ∀ b ∈ bs, b.Valid) : span bs % 8 = 0 := by
  induction bs with
  | nil => rfl
  | cons b bs ih =>
    have h1 := (hv b List.mem_cons_self).2
    have h2 := ih fun c hc => hv c (List.mem_cons_of_mem _ hc)
    rw [span_cons]
    omega

theorem length_le_span {bs : List Blk} (hv : ∀ b ∈ bs, b.Valid) : bs.length ≤ span bs := by
  induction bs with
  | nil => simp
  | cons b bs ih =>
    have h1 := (hv b List.mem_cons_self).1
    have h2 := ih fun c hc => hv c (List.mem_cons_of_mem _ hc)
    rw [span_cons, List.length_cons]
    omega

/-- The memory from address `a` on holds the blocks `bs` back to back. -/
def Tiled (mem : ℕ → ℕ) : ℕ → List Blk → Prop
  | _, [] => True
  | a, b :: bs => mem (a - 4) = b.tag ∧ mem (a + b.size - 8) = b.tag ∧ Tiled mem (a + b.size) bs

variable {mem mem' : ℕ → ℕ} {a : ℕ} {bs : List Blk}

@[simp] theorem tiled_nil : Tiled mem a [] := trivial

theorem tiled_append {l r : List Blk} :
    Tiled mem a (l ++ r) ↔ Tiled mem a l ∧ Tiled mem (a + span l) r := by
  induction l generalizing a with
  | nil => simp
  | cons b l ih => simp only [List.cons_append, Tiled, ih, span_cons, and_assoc, Nat.add_assoc]

/-- A tiling depends only on the words from its first header up to its last footer. -/
theorem Tiled.congr (h : Tiled mem a bs) (hv : ∀ b ∈ bs, b.Valid)
    (ha : 4 ≤ a) (hmem : ∀ x, a - 4 ≤ x → x < a + span bs - 4 → mem' x = mem x) :
    Tiled mem' a bs := by
  induction bs generalizing a with
  | nil => trivial
  | cons b bs ih =>
    obtain ⟨hhd, hft, hrest⟩ := h
    have hb := (hv b List.mem_cons_self).eight_le
    simp only [span_cons] at hmem
    refine ⟨?_, ?_, ih hrest (fun c hc => hv c (List.mem_cons_of_mem _ hc)) (by omega) ?_⟩
    · rw [hmem _ (by omega) (by omega)]; exact hhd
    · rw [hmem _ (by omega) (by omega)]; exact hft
    · exact fun x h1 h2 => hmem x (by omega) (by omega)

/-- **Local edits.**  Rewriting the words of some consecutive blocks so that other blocks of the
same total size stand there leaves a tiling. -/
theorem Tiled.edit {pre mid mid' post : List Blk} (h : Tiled mem a (pre ++ (mid ++ post)))
    (hpre : ∀ b ∈ pre, b.Valid) (hpost : ∀ b ∈ post, b.Valid) (ha : 4 ≤ a)
    (hspan : span mid' = span mid) (hmid : Tiled mem' (a + span pre) mid')
    (hout : ∀ x, x < a + span pre - 4 ∨ a + span pre + span mid - 4 ≤ x → mem' x = mem x) :
    Tiled mem' a (pre ++ (mid' ++ post)) := by
  rw [tiled_append, tiled_append] at h
  obtain ⟨h1, -, h3⟩ := h
  rw [tiled_append, tiled_append, hspan]
  exact ⟨h1.congr hpre ha fun x _ hx => hout x (.inl hx), hmid,
    h3.congr hpost (by omega) fun x hx _ => hout x (.inr hx)⟩

/-- A tag determines its block. -/
theorem Blk.Valid.tag_inj {b c : Blk} (hb : b.Valid) (hc : c.Valid) (h : b.tag = c.tag) : b = c := by
  obtain ⟨m, x⟩ := b
  obtain ⟨n, y⟩ := c
  have hm : m % 8 = 0 := hb.2
  have hn : n % 8 = 0 := hc.2
  -- tags with different bits differ modulo 8
  cases x <;> cases y <;> simp [Blk.tag] at h ⊢ <;> omega

/-- **The memory determines the blocks** of a region of a given size. -/
theorem Tiled.unique {bs' : List Blk} (h : Tiled mem a bs) (h' : Tiled mem a bs')
    (hv : ∀ b ∈ bs, b.Valid) (hv' : ∀ b ∈ bs', b.Valid) (hspan : span bs = span bs') : bs = bs' := by
  induction bs generalizing a bs' with
  | nil =>
    cases bs' with
    | nil => rfl
    | cons c cs =>
      have hc := (hv' c List.mem_cons_self).1
      rw [span_nil, span_cons] at hspan
      omega
  | cons b bs ih =>
    have hb := hv b List.mem_cons_self
    cases bs' with
    | nil =>
      have := hb.1
      rw [span_nil, span_cons] at hspan
      omega
    | cons c cs =>
      have hc := hv' c List.mem_cons_self
      obtain rfl : b = c := hb.tag_inj hc (h.1.symm.trans h'.1)
      rw [span_cons, span_cons, Nat.add_left_cancel_iff] at hspan
      rw [ih h.2.2 h'.2.2 (fun d hd => hv d (List.mem_cons_of_mem _ hd))
        (fun d hd => hv' d (List.mem_cons_of_mem _ hd)) hspan]

theorem tiled_singleton {b : Blk} :
    Tiled mem a [b] ↔ mem (a - 4) = b.tag ∧ mem (a + b.size - 8) = b.tag := by
  simp [Tiled]

/-! ### Blocks with their addresses -/

/-- The blocks of a tiling that starts at `a`, with their addresses. -/
def blocksAt : ℕ → List Blk → List (ℕ × Blk)
  | _, [] => []
  | a, b :: bs => (a, b) :: blocksAt (a + b.size) bs

@[simp] theorem blocksAt_nil : blocksAt a [] = [] := rfl

theorem blocksAt_append (l r : List Blk) :
    blocksAt a (l ++ r) = blocksAt a l ++ blocksAt (a + span l) r := by
  induction l generalizing a with
  | nil => simp
  | cons b l ih => simp only [List.cons_append, blocksAt, ih, span_cons, Nat.add_assoc]

theorem mem_blocksAt_append_cons {l r : List Blk} {b : Blk} {x : ℕ × Blk} :
    x ∈ blocksAt a (l ++ b :: r) ↔ x ∈ blocksAt a l ∨ x = (a + span l, b) ∨
      x ∈ blocksAt (a + span l + b.size) r := by
  simp only [blocksAt_append, blocksAt, List.mem_append, List.mem_cons]

/-- A block with its address marks a place where the list splits. -/
theorem exists_split_of_mem_blocksAt {x : ℕ × Blk} (h : x ∈ blocksAt a bs) :
    ∃ l r, bs = l ++ x.2 :: r ∧ x.1 = a + span l := by
  induction bs generalizing a with
  | nil => simp at h
  | cons b bs ih =>
    rcases List.mem_cons.1 h with rfl | h
    · exact ⟨[], bs, rfl, by simp⟩
    · obtain ⟨l, r, hbs, hx⟩ := ih h
      exact ⟨b :: l, r, by rw [hbs]; rfl, by simp only [hx, span_cons]; omega⟩

/-- Each block lies inside the region. -/
theorem bounds_of_mem_blocksAt {x : ℕ × Blk} (h : x ∈ blocksAt a bs) :
    a ≤ x.1 ∧ x.1 + x.2.size ≤ a + span bs := by
  obtain ⟨l, r, rfl, hx⟩ := exists_split_of_mem_blocksAt h
  simp only [span_append, span_cons]
  omega

/-- Two blocks at different addresses do not overlap. -/
theorem blocksAt_disjoint {x y : ℕ × Blk} (hx : x ∈ blocksAt a bs) (hy : y ∈ blocksAt a bs)
    (hne : x.1 ≠ y.1) : x.1 + x.2.size ≤ y.1 ∨ y.1 + y.2.size ≤ x.1 := by
  induction bs generalizing a with
  | nil => simp at hx
  | cons b bs ih =>
    rcases List.mem_cons.1 hx with rfl | hx <;> rcases List.mem_cons.1 hy with rfl | hy
    · exact absurd rfl hne
    · exact .inl (bounds_of_mem_blocksAt hy).1
    · exact .inr (bounds_of_mem_blocksAt hx).1
    · exact ih hx hy

/-- Only one block has a given address. -/
theorem blocksAt_unique (hv : ∀ b ∈ bs, b.Valid) {x y : ℕ × Blk} (hx : x ∈ blocksAt a bs)
    (hy : y ∈ blocksAt a bs) (h : x.1 = y.1) : x = y := by
  induction bs generalizing a with
  | nil => simp at hx
  | cons b bs ih =>
    have hb := (hv b List.mem_cons_self).1
    have hv' : ∀ c ∈ bs, c.Valid := fun c hc => hv c (List.mem_cons_of_mem _ hc)
    rcases List.mem_cons.1 hx with rfl | hx <;> rcases List.mem_cons.1 hy with rfl | hy
    · rfl
    · have := (bounds_of_mem_blocksAt hy).1; simp only at h; omega
    · have := (bounds_of_mem_blocksAt hx).1; simp only at h; omega
    · exact ih hv' hx hy

/-! ### Adjacent free blocks -/

/-- No two neighbouring blocks are both free. -/
def NoAdjacentFree (bs : List Blk) : Prop := bs.IsChain fun b c => b.alloc = true ∨ c.alloc = true

/-- A block between allocated neighbours has no free neighbour. -/
theorem noAdjacentFree_insert {pre post : List Blk} (c : Blk) (hpre : NoAdjacentFree pre)
    (hpost : NoAdjacentFree post) (hlast : ∀ x ∈ pre.getLast?, x.alloc = true)
    (hhead : ∀ y ∈ post.head?, y.alloc = true) : NoAdjacentFree (pre ++ c :: post) := by
  refine List.IsChain.append hpre (List.isChain_cons.2 ⟨fun y hy => .inr (hhead y hy), hpost⟩) ?_
  exact fun x hx _ _ => .inl (hlast x hx)

/-- The neighbours of a free block are allocated. -/
theorem NoAdjacentFree.last_alloc {pre : List Blk} {l : Blk} (h : NoAdjacentFree (pre ++ [l]))
    (hl : l.alloc = false) : ∀ x ∈ pre.getLast?, x.alloc = true := by
  intro x hx
  have := (List.isChain_append.1 h).2.2 x hx l rfl
  simpa [hl] using this

theorem NoAdjacentFree.head_alloc {post : List Blk} {q : Blk} (h : NoAdjacentFree (q :: post))
    (hq : q.alloc = false) : ∀ y ∈ post.head?, y.alloc = true := by
  intro y hy
  have := (List.isChain_cons.1 h).1 y hy
  simpa [hq] using this

/-- Marking a block allocated creates no free neighbours. -/
theorem NoAdjacentFree.allocate {pre post : List Blk} {b : Blk} (h : NoAdjacentFree (pre ++ b :: post))
    (n : ℕ) : NoAdjacentFree (pre ++ ⟨n, true⟩ :: post) := by
  obtain ⟨hpre, hpost, -⟩ := List.isChain_append.1 h
  refine List.IsChain.append hpre (List.isChain_cons.2 ⟨fun _ _ => .inl rfl, ?_⟩) ?_
  · exact (List.isChain_cons.1 hpost).2
  · rintro x - y hy
    simp only [List.head?_cons, Option.mem_def, Option.some.injEq] at hy
    exact .inr (by rw [← hy])

end PlumOs
