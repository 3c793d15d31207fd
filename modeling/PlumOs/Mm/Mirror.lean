import PlumOs.Mm.Exclusive

/-!
# The bitmap beside the reference counts (`sys/mm.c`)

A bit of the bitmap is set and cleared with `1 << (pfn % 64)`, which is an `int`: it has the bit
`pfn % 32`, and all the bits from 31 on if that is 31.  The pages of one word are tangled in this
way, while each has a count of its own.

* `getLsbD_sx32` : the bits of `1 << k`;
* `Mirror` : the bit of each page is set exactly if its count is not 0;
* `mirror_mmInit_iff` : exactly when it is so after `mm_init`, word by word;
* `Untangled` : the bits that one update changes are those of the page and of pages that agree;
* `mirror_getFreePage_iff`, `mirror_freePage_iff` : exactly when a call keeps it so;
* `bitmap_mirrors_iff` : **exactly when it is so in every state of a run**.
-/

namespace PlumOs

/-! ### The bits of a mask -/

/-- The bits of `1 << k` in a 64-bit word. -/
def Hits (k j : ℕ) : Prop := j = k % 32 ∨ k % 32 = 31 ∧ 31 ≤ j

instance (k j : ℕ) : Decidable (Hits k j) := inferInstanceAs (Decidable (_ ∨ _))

theorem getLsbD_sx32 (k : ℕ) {j : ℕ} (hj : j < 64) : (sx32 k).getLsbD j = true ↔ Hits k j := by
  have h : ∀ r < 32, ∀ j < 64, (((1 : BitVec 32) <<< r).signExtend 64).getLsbD j =
      decide (j = r ∨ r = 31 ∧ 31 ≤ j) := by
    decide +kernel
  unfold sx32 Hits
  rw [h _ (Nat.mod_lt _ (by decide)) j hj, decide_eq_true_iff]

/-- Bit `pfn % 64` of `bitmap[pfn / 64]`. -/
def BitSet (bm : ℕ → BitVec 64) (pfn : ℕ) : Prop := (bm (pfn / 64)).getLsbD (pfn % 64) = true

/-- The bitmap mirrors the counts. -/
def Mirror (s : PageState) : Prop :=
  ∀ pfn < pageArraySize, BitSet s.bitmap pfn ↔ s.pageArray pfn ≠ 0

section Bits

variable {bm : ℕ → BitVec 64} {pfn q : ℕ}

/-- `bitmap[i/64] |= 1 << (i%64)` sets the bits of the mask in its word. -/
theorem bitSet_or : BitSet (Function.update bm (pfn / 64) (bm (pfn / 64) ||| sx32 (pfn % 64))) q ↔
    BitSet bm q ∨ pfn / 64 = q / 64 ∧ Hits (pfn % 64) (q % 64) := by
  have hj : q % 64 < 64 := Nat.mod_lt _ (by decide)
  unfold BitSet
  by_cases hw : q / 64 = pfn / 64
  · simp only [hw, true_and]
    rw [Function.update_self, BitVec.getLsbD_or, Bool.or_eq_true, getLsbD_sx32 _ hj]
  · have hne : pfn / 64 ≠ q / 64 := fun h => hw h.symm
    rw [Function.update_of_ne hw]
    simp only [hne, false_and, or_false]

/-- `bitmap[i/64] &= ~(1 << (i%64))` clears them. -/
theorem bitSet_and_not :
    BitSet (Function.update bm (pfn / 64) (bm (pfn / 64) &&& ~~~ sx32 (pfn % 64))) q ↔
      BitSet bm q ∧ ¬ (pfn / 64 = q / 64 ∧ Hits (pfn % 64) (q % 64)) := by
  have hj : q % 64 < 64 := Nat.mod_lt _ (by decide)
  unfold BitSet
  by_cases hw : q / 64 = pfn / 64
  · simp only [hw, true_and]
    rw [Function.update_self, BitVec.getLsbD_and, BitVec.getLsbD_not, decide_eq_true hj,
      Bool.true_and, Bool.and_eq_true, Bool.not_eq_true', ← Bool.not_eq_true, getLsbD_sx32 _ hj]
  · have hne : pfn / 64 ≠ q / 64 := fun h => hw h.symm
    rw [Function.update_of_ne hw]
    simp only [hne, false_and, not_false_iff, and_true]

/-- The test `bitmap[pfn/64] & (1 << (pfn%64))` looks at all the bits of the mask. -/
theorem marked_iff : Marked bm pfn ↔
    ∃ j < 64, Hits (pfn % 64) j ∧ (bm (pfn / 64)).getLsbD j = true := by
  unfold Marked
  constructor
  · intro hne
    by_contra hnone
    apply hne
    apply BitVec.eq_of_getLsbD_eq
    intro j hj
    rw [BitVec.getLsbD_and]
    by_cases hhit : Hits (pfn % 64) j
    · have hclear : (bm (pfn / 64)).getLsbD j = false := by
        by_contra hset
        exact hnone ⟨j, hj, hhit, Bool.eq_true_of_not_eq_false hset⟩
      rw [hclear]
      simp
    · rw [← getLsbD_sx32 _ hj, Bool.not_eq_true] at hhit
      rw [hhit]
      simp
  · rintro ⟨j, hj, hhit, hset⟩ h0
    have hbit := congrArg (fun v : BitVec 64 => v.getLsbD j) h0
    simp only [BitVec.getLsbD_and, hset, (getLsbD_sx32 _ hj).2 hhit] at hbit
    simp at hbit

end Bits

/-! ### One word -/

section OneWord

variable {P M L : ℕ → Prop} {j : ℕ}

/-- A page of the word with `P` has bit `j` in its mask. -/
def Sets (P : ℕ → Prop) (j : ℕ) : Prop := ∃ k < 64, P k ∧ Hits k j

theorem sets_low (hj : j < 31) : Sets P j ↔ P j ∨ P (j + 32) := by
  unfold Sets Hits
  constructor
  · rintro ⟨k, hk, hP, hhit⟩
    have hk' : k = j ∨ k = j + 32 := by omega
    rcases hk' with rfl | rfl
    · exact .inl hP
    · exact .inr hP
  · rintro (hP | hP)
    · exact ⟨j, by omega, hP, by omega⟩
    · exact ⟨j + 32, by omega, hP, by omega⟩

/-- The upper half of the word and bit 31 change together. -/
theorem sets_high (hj : 31 ≤ j) : Sets P j ↔ P 31 ∨ P 63 := by
  unfold Sets Hits
  constructor
  · rintro ⟨k, hk, hP, hhit⟩
    have hk' : k = 31 ∨ k = 63 := by omega
    rcases hk' with rfl | rfl
    · exact .inl hP
    · exact .inr hP
  · rintro (hP | hP)
    · exact ⟨31, by omega, hP, by omega⟩
    · exact ⟨63, by omega, hP, by omega⟩

/-- The test for page `j` finds one of the bits that the pages with `P` have set. -/
def Finds (P : ℕ → Prop) (j : ℕ) : Prop := ∃ i < 64, Hits j i ∧ Sets P i

theorem finds_low (hj : j < 63) (hne : j ≠ 31) : Finds P j ↔ P (j % 32) ∨ P (j % 32 + 32) := by
  rw [← sets_low (P := P) (by omega : j % 32 < 31)]
  unfold Finds Hits
  constructor
  · rintro ⟨i, hi, hhit, hset⟩
    have heq : i = j % 32 := by omega
    exact heq ▸ hset
  · intro hset
    exact ⟨j % 32, by omega, .inl rfl, hset⟩

theorem finds_high (hj : j % 32 = 31) : Finds P j ↔ P 31 ∨ P 63 := by
  unfold Finds Hits
  constructor
  · rintro ⟨i, hi, hhit, hset⟩
    exact (sets_high (by omega)).1 hset
  · intro hP
    exact ⟨31, by omega, .inl hj.symm, (sets_high le_rfl).2 hP⟩

/-- A bit of the lower half, the sign bit of a half, or a bit of the upper half. -/
theorem bit_cases {k : ℕ} (hk : k < 64) : k < 31 ∨ k = 31 ∨ (∃ i < 31, k = i + 32) ∨ k = 63 := by
  by_cases hupper : ∃ i < 31, k = i + 32
  · exact .inr (.inr (.inl hupper))
  · have hnot : ¬ (32 ≤ k ∧ k < 63) := fun hk => hupper ⟨k - 32, by omega, by omega⟩
    omega

/-- The bit and the count of one page agree. -/
def Agree (M L : ℕ → Prop) (j : ℕ) : Prop := Sets M j ∧ ¬ Sets L j ↔ ¬ L j ∧ Finds M j

theorem agree_low (hj : j < 31) : Agree M L j ↔
    ((M j ∨ M (j + 32)) ∧ ¬ (L j ∨ L (j + 32)) ↔ ¬ L j ∧ (M j ∨ M (j + 32))) := by
  rw [Agree, sets_low hj, sets_low hj, finds_low (by omega) (by omega), Nat.mod_eq_of_lt (by omega)]

theorem agree_sign (hj : j = 31 ∨ j = 63) : Agree M L j ↔
    ((M 31 ∨ M 63) ∧ ¬ (L 31 ∨ L 63) ↔ ¬ L j ∧ (M 31 ∨ M 63)) := by
  rw [Agree, sets_high (by omega), sets_high (by omega), finds_high (by omega)]

theorem agree_upper (hj : j < 31) : Agree M L (j + 32) ↔
    ((M 31 ∨ M 63) ∧ ¬ (L 31 ∨ L 63) ↔ ¬ L (j + 32) ∧ (M j ∨ M (j + 32))) := by
  have hmod : (j + 32) % 32 = j := by omega
  rw [Agree, sets_high (by omega), sets_high (by omega), finds_low (by omega) (by omega), hmod]

section Agrees

variable (hLM : ∀ k, L k → M k) (hrange : ∀ i j k, L i → L k → i ≤ j → j ≤ k → L j)
  (h : ∀ j < 64, Agree M L j)

include hLM h

/-- A page of the lower half is freed with the one of the upper half. -/
theorem low_of_upper (hj : j < 31) (hL : L (j + 32)) : L j := by
  by_contra hnot
  exact (((agree_low hj).1 (h j (by omega))).2 ⟨hnot, .inr (hLM _ hL)⟩).2 (.inr hL)

include hrange

/-- If the sign bit was not marked, then nothing was: a page below 31 would be freed with the page 32
above it, and page 31 between them. -/
theorem unmarked_of_agree (hM : ¬ (M 31 ∨ M 63)) : ∀ k < 64, ¬ M k := by
  have hnone : ∀ k < 31, ¬ (M k ∨ M (k + 32)) := by
    intro k hk hMk
    have hL : L (k + 32) := by
      by_contra hnot
      exact hM (((agree_upper hk).1 (h (k + 32) (by omega))).2 ⟨hnot, hMk⟩).1
    have hlow := low_of_upper hLM h hk hL
    exact hM (.inl (hLM _ (hrange k 31 (k + 32) hlow hL (by omega) (by omega))))
  intro k hk hMk
  obtain hlow | rfl | ⟨i, hi, rfl⟩ | rfl := bit_cases hk
  · exact hnone k hlow (.inl hMk)
  · exact hM (.inl hMk)
  · exact hnone i hi (.inr hMk)
  · exact hM (.inr hMk)

/-- If the sign bit was freed, then everything was: both its pages belong to the range that is freed,
and what lies between them. -/
theorem freed_of_agree (hM : M 31 ∨ M 63) (hL : L 31 ∨ L 63) : ∀ k < 64, L k := by
  have hsign : ∀ k, k = 31 ∨ k = 63 → L k := fun k hk => by
    by_contra hnot
    exact (((agree_sign hk).1 (h k (by omega))).2 ⟨hnot, hM⟩).2 hL
  have hhigh : ∀ k < 64, 31 ≤ k → L k := fun k hk hle =>
    hrange 31 k 63 (hsign 31 (.inl rfl)) (hsign 63 (.inr rfl)) hle (by omega)
  intro k hk
  rcases Nat.lt_or_ge k 31 with hlt | hge
  · exact low_of_upper hLM h hlt (hhigh _ (by omega) (by omega))
  · exact hhigh k hk hge

end Agrees

/-- If the sign bit stays marked, then every bit is, and nothing of the upper half is freed. -/
theorem covered_of_agree (h : ∀ j < 64, Agree M L j) (hM : M 31 ∨ M 63) (hL : ¬ (L 31 ∨ L 63)) :
    (∀ k < 32, M k ∨ M (k + 32)) ∧ ∀ k < 64, 31 ≤ k → ¬ L k := by
  have hupper : ∀ k < 31, ¬ L (k + 32) ∧ (M k ∨ M (k + 32)) := fun k hk =>
    ((agree_upper hk).1 (h (k + 32) (by omega))).1 ⟨hM, hL⟩
  refine ⟨fun k hk => ?_, fun k hk hle => ?_⟩
  · rcases Nat.lt_or_ge k 31 with hlt | hge
    · exact (hupper k hlt).2
    · obtain rfl : k = 31 := by omega
      exact hM
  · obtain hlow | rfl | ⟨i, hi, rfl⟩ | rfl := bit_cases hk
    · omega
    · exact fun hk' => hL (.inl hk')
    · exact (hupper i hi).1
    · exact fun hk' => hL (.inr hk')

theorem agree_of_unmarked (hnone : ∀ k < 64, ¬ M k) (j : ℕ) : Agree M L j := by
  have hset : ¬ Sets M j := fun ⟨k, hk, hMk, _⟩ => hnone k hk hMk
  have hfind : ¬ Finds M j := fun ⟨_, _, _, k, hk, hMk, _⟩ => hnone k hk hMk
  exact iff_of_false (fun h => hset h.1) (fun h => hfind h.2)

theorem agree_of_freed (hall : ∀ k < 64, L k) (hj : j < 64) : Agree M L j := by
  have hset : Sets L j := by
    rcases Nat.lt_or_ge j 31 with hlt | hge
    · exact (sets_low hlt).2 (.inl (hall j hj))
    · exact (sets_high hge).2 (.inl (hall 31 (by decide)))
  exact iff_of_false (fun h => h.2 hset) (fun h => h.1 (hall j hj))

theorem agree_of_covered (hcover : ∀ k < 32, M k ∨ M (k + 32)) (hfree : ∀ k < 64, 31 ≤ k → ¬ L k)
    (hj : j < 64) : Agree M L j := by
  have hM : M 31 ∨ M 63 := hcover 31 (by decide)
  have hL : ¬ (L 31 ∨ L 63) := fun hL =>
    hL.elim (hfree 31 (by decide) le_rfl) (hfree 63 (by decide) (by decide))
  obtain hlow | hsign | ⟨i, hi, rfl⟩ | hsign := bit_cases hj
  · have hup : ¬ L (j + 32) := hfree _ (by omega) (by omega)
    refine (agree_low hlow).2 ⟨?_, ?_⟩
    · rintro ⟨hMj, hLj⟩
      exact ⟨fun hL => hLj (.inl hL), hMj⟩
    · rintro ⟨hLj, hMj⟩
      exact ⟨hMj, fun hL => hL.elim hLj hup⟩
  · exact (agree_sign (.inl hsign)).2 (iff_of_true ⟨hM, hL⟩ ⟨hfree j hj (by omega), hM⟩)
  · refine (agree_upper hi).2 (iff_of_true ⟨hM, hL⟩ ⟨hfree _ (by omega) (by omega), ?_⟩)
    exact hcover i (by omega)
  · exact (agree_sign (.inr hsign)).2 (iff_of_true ⟨hM, hL⟩ ⟨hfree j hj (by omega), hM⟩)

/-- The bits of a word and its counts after `mm_init`, where the pages in `M` were marked and the
pages in `L`, a range of them, were freed again. -/
theorem word_mirror_iff (hLM : ∀ k, L k → M k)
    (hrange : ∀ i j k, L i → L k → i ≤ j → j ≤ k → L j) :
    (∀ j < 64, Sets M j ∧ ¬ Sets L j ↔ ¬ L j ∧ Finds M j) ↔
      (∀ k < 64, ¬ M k) ∨ (∀ k < 64, L k) ∨
        (∀ k < 32, M k ∨ M (k + 32)) ∧ ∀ k < 64, 31 ≤ k → ¬ L k := by
  constructor
  · intro h
    by_cases hM : M 31 ∨ M 63
    · by_cases hL : L 31 ∨ L 63
      · exact .inr (.inl (freed_of_agree hLM hrange h hM hL))
      · exact .inr (.inr (covered_of_agree h hM hL))
    · exact .inl (unmarked_of_agree hLM hrange h hM)
  · rintro (hnone | hall | ⟨hcover, hfree⟩) j hj
    · exact agree_of_unmarked hnone j
    · exact agree_of_freed hall hj
    · exact agree_of_covered hcover hfree hj

end OneWord

/-! ### After `mm_init` -/

namespace BootInfo

variable (b : BootInfo)

/-- A frame of the boot loader image. -/
def Loader (pfn : ℕ) : Prop := b.loaderRange.1 ≤ pfn ∧ pfn < b.loaderRange.2

/-- A frame of one of the ranges that `setup_bitmap` marks busy. -/
def MarkedFrame (pfn : ℕ) : Prop :=
  ∃ r ∈ b.loaderRange :: b.foreverRanges, r.1 ≤ pfn ∧ pfn < r.2

/-- The ranges suit word `w` of the bitmap: they leave it alone, or the boot loader fills it, or the
32 bits that the masks can tell apart are all used and no frame of the upper half is freed. -/
def SuitsWord (w : ℕ) : Prop :=
  (∀ k < 64, ¬ b.MarkedFrame (64 * w + k)) ∨ (∀ k < 64, b.Loader (64 * w + k)) ∨
    (∀ k < 32, b.MarkedFrame (64 * w + k) ∨ b.MarkedFrame (64 * w + (k + 32))) ∧
      ∀ k < 64, 31 ≤ k → ¬ b.Loader (64 * w + k)

instance (pfn : ℕ) : Decidable (b.Loader pfn) := inferInstanceAs (Decidable (_ ∧ _))

instance (pfn : ℕ) : Decidable (b.MarkedFrame pfn) := inferInstanceAs (Decidable (∃ r ∈ _, _))

instance (w : ℕ) : Decidable (b.SuitsWord w) := inferInstanceAs (Decidable (_ ∨ _ ∨ _))

end BootInfo

section Boot

variable {b : BootInfo} {q w j : ℕ}

theorem bitSet_foldl_or (l : List ℕ) (bm : ℕ → BitVec 64) :
    BitSet (l.foldl (fun bm i =>
      Function.update bm (i / 64) (bm (i / 64) ||| sx32 (i % 64))) bm) q ↔
      BitSet bm q ∨ ∃ i ∈ l, i / 64 = q / 64 ∧ Hits (i % 64) (q % 64) := by
  induction l generalizing bm with
  | nil => simp
  | cons i l ih =>
    rw [List.foldl_cons, ih, bitSet_or, List.exists_mem_cons_iff, or_assoc]

theorem bitSet_foldl_markBusy (rs : List (ℕ × ℕ)) (bm : ℕ → BitVec 64) :
    BitSet (rs.foldl markBusy bm) q ↔ BitSet bm q ∨
      ∃ i, (∃ r ∈ rs, r.1 ≤ i ∧ i < r.2) ∧ i / 64 = q / 64 ∧ Hits (i % 64) (q % 64) := by
  induction rs generalizing bm with
  | nil => simp
  | cons r rs ih =>
    have hmem : ∀ i, i ∈ List.range' r.1 (r.2 - r.1) ↔ r.1 ≤ i ∧ i < r.2 := by
      intro i
      rw [List.mem_range'_1]
      omega
    rw [List.foldl_cons, ih, markBusy, bitSet_foldl_or, or_assoc]
    simp only [hmem, List.exists_mem_cons_iff, or_and_right, exists_or]

theorem bitSet_setupBitmap : BitSet (setupBitmap b) q ↔
    ∃ i, b.MarkedFrame i ∧ i / 64 = q / 64 ∧ Hits (i % 64) (q % 64) := by
  have hempty : ¬ BitSet (fun _ => 0) q := by simp [BitSet]
  unfold setupBitmap
  rw [bitSet_foldl_markBusy]
  exact or_iff_right hempty

theorem bitSet_freeInitmem (s : PageState) : BitSet (freeInitmem b s).bitmap q ↔
    BitSet s.bitmap q ∧ ¬ ∃ i, b.Loader i ∧ i / 64 = q / 64 ∧ Hits (i % 64) (q % 64) := by
  have key : ∀ (l : List ℕ) (s : PageState), BitSet (l.foldl (fun s i =>
      { bitmap := Function.update s.bitmap (i / 64) (s.bitmap (i / 64) &&& ~~~ sx32 (i % 64))
        pageArray := Function.update s.pageArray i 0 }) s).bitmap q ↔
      BitSet s.bitmap q ∧ ¬ ∃ i ∈ l, i / 64 = q / 64 ∧ Hits (i % 64) (q % 64) := by
    intro l
    induction l with
    | nil => simp
    | cons i l ih =>
      intro s
      rw [List.foldl_cons, ih, bitSet_and_not, List.exists_mem_cons_iff, not_or, and_assoc]
  have hmem : ∀ i, i ∈ List.range' b.loaderRange.1 (b.loaderRange.2 - b.loaderRange.1) ↔
      b.Loader i := by
    intro i
    rw [List.mem_range'_1, BootInfo.Loader]
    omega
  unfold freeInitmem
  rw [key]
  simp only [hmem]

/-- The frames of one word that meet a property, by their bits. -/
theorem exists_hits_iff (P : ℕ → Prop) (hj : j < 64) :
    (∃ i, P i ∧ i / 64 = (64 * w + j) / 64 ∧ Hits (i % 64) ((64 * w + j) % 64)) ↔
      Sets (fun k => P (64 * w + k)) j := by
  have hw : (64 * w + j) / 64 = w := by omega
  have hmod : (64 * w + j) % 64 = j := by omega
  rw [hw, hmod]
  constructor
  · rintro ⟨i, hP, hi, hhit⟩
    have heq : 64 * w + i % 64 = i := by omega
    have hP' : P (64 * w + i % 64) := by rwa [heq]
    exact ⟨i % 64, Nat.mod_lt _ (by decide), hP', hhit⟩
  · rintro ⟨k, hk, hP, hhit⟩
    have hk' : (64 * w + k) % 64 = k := by omega
    exact ⟨64 * w + k, hP, by omega, by rwa [hk']⟩

theorem bitSet_mmInit (hj : j < 64) : BitSet (mmInit b).bitmap (64 * w + j) ↔
    Sets (fun k => b.MarkedFrame (64 * w + k)) j ∧ ¬ Sets (fun k => b.Loader (64 * w + k)) j := by
  unfold mmInit
  rw [bitSet_freeInitmem, bitSet_setupBitmap, exists_hits_iff _ hj, exists_hits_iff _ hj]

theorem marked_setupBitmap_iff (hj : j < 64) : Marked (setupBitmap b) (64 * w + j) ↔
    Finds (fun k => b.MarkedFrame (64 * w + k)) j := by
  have hmod : (64 * w + j) % 64 = j := by omega
  rw [marked_iff, hmod]
  refine exists_congr fun i => and_congr_right fun hi => and_congr_right fun _ => ?_
  have hbit := bitSet_setupBitmap (b := b) (q := 64 * w + i)
  rw [exists_hits_iff _ hi] at hbit
  have hw : (64 * w + j) / 64 = (64 * w + i) / 64 := by omega
  have hi' : (64 * w + i) % 64 = i := by omega
  rw [← hbit, BitSet, hw, hi']

theorem setupPageArray_ne_zero {bm : ℕ → BitVec 64} : setupPageArray bm q ≠ 0 ↔ Marked bm q := by
  unfold setupPageArray Marked
  split_ifs with hmark
  · exact iff_of_true one_ne_zero hmark
  · exact iff_of_false (fun h => h rfl) hmark

theorem pageArray_mmInit_ne_zero (hj : j < 64) : (mmInit b).pageArray (64 * w + j) ≠ 0 ↔
    ¬ b.Loader (64 * w + j) ∧ Finds (fun k => b.MarkedFrame (64 * w + k)) j := by
  rw [← marked_setupBitmap_iff hj, ← setupPageArray_ne_zero]
  unfold mmInit
  rw [freeInitmem_pageArray]
  change (if b.Loader (64 * w + j) then (0 : ℤ) else _) ≠ 0 ↔ _
  split_ifs with hload
  · exact iff_of_false (fun h => h rfl) fun h => h.1 hload
  · exact (and_iff_right hload).symm

/-- **Exactly when `mm_init` leaves bits and counts that agree.** -/
theorem mirror_mmInit_iff (b : BootInfo) : Mirror (mmInit b) ↔ ∀ w < bitmapSize, b.SuitsWord w := by
  have hword : ∀ w, (∀ j < 64, (BitSet (mmInit b).bitmap (64 * w + j) ↔
      (mmInit b).pageArray (64 * w + j) ≠ 0)) ↔ b.SuitsWord w := by
    intro w
    refine Iff.trans ?_ (word_mirror_iff (M := fun k => b.MarkedFrame (64 * w + k))
      (L := fun k => b.Loader (64 * w + k)) ?_ ?_)
    · refine forall₂_congr fun j hj => ?_
      rw [bitSet_mmInit hj, pageArray_mmInit_ne_zero hj]
    · exact fun k hk => ⟨_, List.mem_cons_self, hk⟩
    · intro i j k hi hk hij hjk
      unfold BootInfo.Loader at *
      omega
  constructor
  · intro h w hw
    refine (hword w).1 fun j hj => h _ ?_
    unfold bitmapSize at hw
    unfold pageArraySize
    omega
  · intro h pfn hpfn
    have hpfn' : 64 * (pfn / 64) + pfn % 64 = pfn := by omega
    have hw := (hword (pfn / 64)).2 (h _ (by unfold bitmapSize; unfold pageArraySize at hpfn; omega))
      (pfn % 64) (Nat.mod_lt _ (by decide))
    rwa [hpfn'] at hw

end Boot

/-! ### The calls -/

/-- The bits that an update for `pfn` changes are its own and those of frames with `P`. -/
def Untangled (P : ℕ → Prop) (pfn : ℕ) : Prop :=
  pfn % 64 < 31 ∨
    pfn % 64 = 31 ∧ (∀ k < 64, 32 ≤ k → P (64 * (pfn / 64) + k)) ∨
    pfn % 64 = 63 ∧ ∀ k < 63, 31 ≤ k → P (64 * (pfn / 64) + k)

section Calls

variable {P : ℕ → Prop} {s : PageState} {pfn q : ℕ}

theorem untangled_iff : Untangled P pfn ↔ Hits (pfn % 64) (pfn % 64) ∧
    ∀ q, q ≠ pfn → pfn / 64 = q / 64 → Hits (pfn % 64) (q % 64) → P q := by
  unfold Untangled Hits
  constructor
  · rintro (hlt | ⟨heq, hall⟩ | ⟨heq, hall⟩)
    · exact ⟨by omega, fun q hne hw hhit => by omega⟩
    · refine ⟨by omega, fun q hne hw hhit => ?_⟩
      have hq := hall (q % 64) (by omega) (by omega)
      rwa [hw, Nat.div_add_mod] at hq
    · refine ⟨by omega, fun q hne hw hhit => ?_⟩
      have hq := hall (q % 64) (by omega) (by omega)
      rwa [hw, Nat.div_add_mod] at hq
  · rintro ⟨hself, hall⟩
    have hcases : pfn % 64 < 31 ∨ pfn % 64 = 31 ∨ pfn % 64 = 63 := by omega
    rcases hcases with hlt | heq | heq
    · exact .inl hlt
    · refine .inr (.inl ⟨heq, fun k hk hle => hall _ ?_ ?_ ?_⟩) <;> omega
    · refine .inr (.inr ⟨heq, fun k hk hle => hall _ ?_ ?_ ?_⟩) <;> omega

theorem bitSet_getFreePage {pages : PageState} (h : s.getFreePage = .ok (pfn, pages)) :
    BitSet pages.bitmap q ↔ BitSet s.bitmap q ∨ pfn / 64 = q / 64 ∧ Hits (pfn % 64) (q % 64) := by
  unfold PageState.getFreePage at h
  split at h
  · simp only [Except.ok.injEq, Prod.mk.injEq] at h
    obtain ⟨rfl, rfl⟩ := h
    exact bitSet_or
  · simp at h

/-- **Exactly when `get_free_page` keeps the bits and the counts alike.** -/
theorem mirror_getFreePage_iff {pages : PageState} (hs : Mirror s)
    (h : s.getFreePage = .ok (pfn, pages)) :
    Mirror pages ↔ Untangled (fun q => s.pageArray q ≠ 0) pfn := by
  obtain ⟨hfind, hpages⟩ := getFreePage_eq_ok h
  obtain ⟨-, hlt, hzero, -⟩ := findFree_spec hfind
  have hclear : ¬ BitSet s.bitmap pfn := fun hset =>
    (hs pfn (by unfold normalPfnEnd at hlt; unfold pageArraySize; omega)).1 hset hzero
  rw [untangled_iff]
  constructor
  · intro hm
    have hq : ∀ q, pfn / 64 = q / 64 → q < pageArraySize := by
      intro q hw
      unfold normalPfnEnd at hlt
      unfold pageArraySize
      omega
    constructor
    · have hself := (hm pfn (hq pfn rfl)).2 (by rw [hpages, Function.update_self]; exact one_ne_zero)
      rcases (bitSet_getFreePage h).1 hself with hset | ⟨-, hhit⟩
      · exact absurd hset hclear
      · exact hhit
    · intro q hne hw hhit
      have hcount := (hm q (hq q hw)).1 ((bitSet_getFreePage h).2 (.inr ⟨hw, hhit⟩))
      rwa [hpages, Function.update_of_ne hne] at hcount
  · rintro ⟨hself, hall⟩ q hq
    rw [bitSet_getFreePage h, hpages]
    by_cases hne : q = pfn
    · subst hne
      rw [Function.update_self]
      exact iff_of_true (.inr ⟨rfl, hself⟩) one_ne_zero
    · rw [Function.update_of_ne hne, hs q hq]
      exact ⟨fun h => h.elim id fun hhit => hall q hne hhit.1 hhit.2, .inl⟩

theorem bitSet_freePage : BitSet (s.freePage pfn).bitmap q ↔ BitSet s.bitmap q ∧
    ¬ (wrap32 (s.pageArray pfn - 1) = 0 ∧ pfn / 64 = q / 64 ∧ Hits (pfn % 64) (q % 64)) := by
  unfold PageState.freePage
  by_cases hzero : wrap32 (s.pageArray pfn - 1) = 0
  · simp only [hzero, if_true, true_and]
    exact bitSet_and_not
  · simp only [hzero, if_false, false_and, not_false_iff, and_true]

/-- **Exactly when `free_page` keeps the bits and the counts alike**, for a frame whose count is
not 0. -/
theorem mirror_freePage_iff (hs : Mirror s) (hpfn : pfn < pageArraySize)
    (href : s.pageArray pfn ≠ 0) : Mirror (s.freePage pfn) ↔
      (wrap32 (s.pageArray pfn - 1) = 0 → Untangled (fun q => s.pageArray q = 0) pfn) := by
  have hset : BitSet s.bitmap pfn := (hs pfn hpfn).2 href
  by_cases hzero : wrap32 (s.pageArray pfn - 1) = 0
  · rw [untangled_iff, forall_prop_of_true hzero]
    constructor
    · intro hm
      have hq : ∀ q, pfn / 64 = q / 64 → q < pageArraySize := by
        intro q hw
        unfold pageArraySize at *
        omega
      constructor
      · by_contra hself
        have hstill := (hm pfn hpfn).1 (bitSet_freePage.2 ⟨hset, fun h => hself h.2.2⟩)
        rw [freePage_pageArray, Function.update_self] at hstill
        exact hstill hzero
      · intro q hne hw hhit
        by_contra hcount
        have hbit := (hm q (hq q hw)).2
          (by rw [freePage_pageArray, Function.update_of_ne hne]; exact hcount)
        exact (bitSet_freePage.1 hbit).2 ⟨hzero, hw, hhit⟩
    · rintro ⟨hself, hall⟩ q hq
      rw [bitSet_freePage, freePage_pageArray]
      by_cases hne : q = pfn
      · subst hne
        rw [Function.update_self]
        exact iff_of_false (fun h => h.2 ⟨hzero, rfl, hself⟩) fun h => h hzero
      · rw [Function.update_of_ne hne, hs q hq]
        exact and_iff_left_of_imp fun hcount hhit => hcount (hall q hne hhit.2.1 hhit.2.2)
  · refine iff_of_true ?_ fun h => absurd h hzero
    intro q hq
    have hbit : BitSet (s.freePage pfn).bitmap q ↔ BitSet s.bitmap q := by
      rw [bitSet_freePage]
      exact and_iff_left fun h => hzero h.1
    rw [hbit, freePage_pageArray]
    by_cases hne : q = pfn
    · subst hne
      rw [Function.update_self]
      exact iff_of_true hset hzero
    · rw [Function.update_of_ne hne]
      exact hs q hq

end Calls

/-! ### Runs -/

namespace Ledger

/-- The calls that keep the bits and the counts alike. -/
def Untangles (s : Ledger) : PageOp → Prop
  | .getFreePage => ∀ pfn, findFree s.pages.pageArray = some pfn →
      Untangled (fun q => s.pages.pageArray q ≠ 0) pfn
  | .freePage pfn => wrap32 (s.pages.pageArray pfn - 1) = 0 →
      Untangled (fun q => s.pages.pageArray q = 0) pfn
  | _ => True

/-- What a run of the two calls keeps as long as the bits and the counts are alike. -/
structure MirrorInv (b : BootInfo) (s : Ledger) : Prop where
  mirror : Mirror s.pages
  ref : RefInv b s
  held : ∀ pfn, 0 < s.held pfn → pfn < pageArraySize

variable {b : BootInfo} {s s' : Ledger} {op : PageOp}

theorem held_step (h : ∀ pfn, 0 < s.held pfn → pfn < pageArraySize) (hop : op.isGetOrFree = true)
    (hstep : s.step op = .ok s') {pfn : ℕ} (hheld : 0 < s'.held pfn) : pfn < pageArraySize := by
  cases op with
  | getFreePage =>
    obtain ⟨⟨p, pages⟩, hget, rfl⟩ := map_eq_ok.1 hstep
    by_cases hp : pfn = p
    · subst hp
      have hlt := (findFree_spec (getFreePage_eq_ok hget).1).2.1
      unfold normalPfnEnd at hlt
      unfold pageArraySize
      omega
    · simp only [Function.update_of_ne hp] at hheld
      exact h pfn hheld
  | freePage p =>
    simp only [step, Except.ok.injEq] at hstep
    subst hstep
    by_cases hp : pfn = p
    · subst hp
      simp only [Function.update_self] at hheld
      exact h pfn (by omega)
    · simp only [Function.update_of_ne hp] at hheld
      exact h pfn hheld
  | addPageRef p => exact absurd hop Bool.false_ne_true
  | deductPageRef p => exact absurd hop Bool.false_ne_true

/-- A held frame has a count. -/
theorem RefInv.ne_zero (h : RefInv b s) {pfn : ℕ} (hheld : 0 < s.held pfn) :
    s.pages.pageArray pfn ≠ 0 := fun h0 => by
  have := (h.eq_zero h0).2
  omega

/-- A step of the run keeps the bits and the counts alike exactly if it meets the condition. -/
theorem MirrorInv.step_iff (h : MirrorInv b s) (hop : op.isGetOrFree = true) (hbal : s.Balanced op)
    (hstep : s.step op = .ok s') : Mirror s'.pages ↔ s.Untangles op := by
  cases op with
  | getFreePage =>
    obtain ⟨⟨p, pages⟩, hget, rfl⟩ := map_eq_ok.1 hstep
    have hfind := (getFreePage_eq_ok hget).1
    refine (mirror_getFreePage_iff h.mirror hget).trans ?_
    simp only [Untangles, hfind, Option.some.injEq, forall_eq']
  | freePage p =>
    simp only [step, Except.ok.injEq] at hstep
    subst hstep
    exact mirror_freePage_iff h.mirror (h.held p hbal) (h.ref.ne_zero hbal)
  | addPageRef p => exact absurd hop Bool.false_ne_true
  | deductPageRef p => exact absurd hop Bool.false_ne_true

theorem MirrorInv.step (h : MirrorInv b s) (hop : op.isGetOrFree = true) (hbal : s.Balanced op)
    (hgood : s.Untangles op) (hstep : s.step op = .ok s') : MirrorInv b s' where
  mirror := (h.step_iff hop hbal hstep).2 hgood
  ref := by
    have hbound : Bounded b s op := by
      cases op with
      | addPageRef p => exact absurd hop Bool.false_ne_true
      | _ => trivial
    exact refInv_step h.ref ⟨hbal, hbound⟩ hstep
  held := fun _ => held_step h.held hop hstep

/-- A call outside the condition goes through. -/
theorem step_ok_of_not_untangles (h : ¬ s.Untangles op) : ∃ s', s.step op = .ok s' := by
  cases op with
  | getFreePage =>
    obtain ⟨p, hp⟩ := not_forall.1 h
    obtain ⟨hfind, -⟩ := Classical.not_imp.1 hp
    obtain ⟨t, ht, -⟩ := step_getFreePage_ok hfind
    exact ⟨t, ht⟩
  | freePage p => exact ⟨_, rfl⟩
  | addPageRef p => exact absurd trivial h
  | deductPageRef p => exact absurd trivial h

end Ledger

/-- **Exactly when the bitmap mirrors the counts in a run.**  In a balanced run of `get_free_page`
and `free_page` every state has bits and counts that agree exactly if the ranges of `mm_init` suit
every word and each call takes or frees a frame whose mask meets only frames that are busy, or free,
as it is going to be. -/
theorem bitmap_mirrors_iff (b : BootInfo) {ops : List PageOp} (hops : ∀ op ∈ ops, op.isGetOrFree)
    (hbal : Along Ledger.step Ledger.Balanced (Ledger.boot b) ops) :
    Always Ledger.step (fun s => Mirror s.pages) (Ledger.boot b) ops ↔
      (∀ w < bitmapSize, b.SuitsWord w) ∧
        Along Ledger.step Ledger.Untangles (Ledger.boot b) ops := by
  rw [← mirror_mmInit_iff]
  by_cases hboot : Mirror (mmInit b)
  · rw [and_iff_right hboot]
    have hstart : Ledger.MirrorInv b (Ledger.boot b) :=
      ⟨hboot, Ledger.refInv_boot b, fun pfn h => absurd h (Nat.lt_irrefl 0)⟩
    refine always_iff_along hstart (fun _ h => h.mirror) ?_ ?_ (hbal.and_of_mem hops)
    · exact fun s op s' h hop hgood hstep => h.step hop.1 hop.2 hgood hstep
    · intro s op h hop hbad
      obtain ⟨s', hs'⟩ := Ledger.step_ok_of_not_untangles hbad
      exact ⟨s', hs', fun hm => hbad ((h.step_iff hop.1 hop.2 hs').1 hm)⟩
  · exact iff_of_false (fun h => hboot h.head) fun h => hboot h.1

/-- A run on the documented layout that takes the first frame and gives it back. -/
theorem bitmap_mirrors_iff_boot :
    Always Ledger.step (fun s => Mirror s.pages) (Ledger.boot (docLayout 0x23b000))
        [.getFreePage, .freePage normalPfnStart] ↔
      (∀ w < bitmapSize, (docLayout 0x23b000).SuitsWord w) ∧
        Along Ledger.step Ledger.Untangles (Ledger.boot (docLayout 0x23b000))
          [.getFreePage, .freePage normalPfnStart] := by
  refine bitmap_mirrors_iff _ (by decide) ⟨trivial, fun s hs => ⟨?_, fun _ _ => trivial⟩⟩
  obtain ⟨pages, hget, -⟩ := getFreePage_start mmInit_docLayout_start
  simp only [Ledger.step, Ledger.boot, hget, Except.map, Except.ok.injEq] at hs
  subst hs
  change 0 < Function.update (fun _ => 0) normalPfnStart 1 normalPfnStart
  rw [Function.update_self]
  exact one_pos

/-- On the documented layout the counts of the frames from `0x2a0` on are not those of the bitmap:
the last frame of `page_array` is 670, in the middle of a word. -/
theorem bitmap_mirrors_fails : (docLayout 0x23b000).TwoBlock ∧
    ¬ Mirror (Ledger.boot (docLayout 0x23b000)).pages := by
  refine ⟨docLayout_twoBlock (by decide) (by decide) (by decide), fun h => ?_⟩
  have hsuits := (mirror_mmInit_iff _).1 h 10 (by decide)
  exact absurd hsuits (by decide)

end PlumOs
