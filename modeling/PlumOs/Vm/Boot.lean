import Mathlib.Data.Set.Insert
import PlumOs.Mm.Exclusive
import PlumOs.Vm.Trick

/-!
# The kernel's own page tables and what was in the memory before (`sys/mm.c`)

`mm_init` takes memory as the boot loader left it.  `setup_initial_pgtables` stores two entries in
the page of the directory, one in the page of the `pud` and `PMD_T_NUM` in the page of the `pmd`,
and clears none of the other slots; `alloc_pgd` copies the whole page of the directory.

* `setupInitialPgtables`, `BootState.afterMmInit` : memory after `mm_init`, from any contents;
* `BootState.step` : what the kernel does up to the first `exec`: it takes zero pages and stores in
  them and in its own image;
* `BootState.allocPgd` : `alloc_pgd`;
* `SameLeftovers` : the slots that nothing is stored to lead to the same addresses in two memories;
* `freshSpace_iff` : **two boots give the same address space exactly if their leftovers do**, and if
  one of the memories has nothing there, exactly if the other one has nothing there either.

The directory refers to itself, so that each slot of the three pages is an entry of some address in
the kernel half: a slot with the present bit is one address more, whatever it points to.
-/

namespace PlumOs

/-! ### The tables -/

/-- `PMD_T_NUM`. -/
abbrev pmdTNum : ℕ := 64

/-- `PTE_T_NUM`. -/
abbrev pteTNum : ℕ := 512

/-- The words of physical memory, by frame and index. -/
abbrev Words := ℕ → ℕ → ℕ

namespace BootInfo

/-- The frame of the kernel's page directory. -/
def pgd (b : BootInfo) : ℕ := b.pgdStart / pgSize

/-- The frame of its `pud`. -/
def pud (b : BootInfo) : ℕ := b.pgd + 1

/-- The frame of its `pmd`. -/
def pmd (b : BootInfo) : ℕ := b.pud + 1

/-- The first frame of its `pte`. -/
def pte (b : BootInfo) : ℕ := b.pmd + 1

end BootInfo

/-- `setup_initial_pgtables`. -/
def setupInitialPgtables (b : BootInfo) (mem : Words) : Words :=
  let mem := Radix.write mem b.pgd 0x1ff (entry b.pud (pteP + pteRw))
  let mem := Radix.write mem b.pgd selfRefIndex (entry b.pgd (pteP + pteRw))
  let mem := Radix.write mem b.pud 0x1fe (entry b.pmd (pteP + pteRw))
  let mem := (List.range pmdTNum).foldl
    (fun mem i => Radix.write mem b.pmd i (entry (b.pte + i) (pteP + pteRw))) mem
  -- the bound is `PTE_T_NUM`, so this fills 512 pages behind the `pmd`, of which 64 are in use
  (List.range pteTNum).foldl
    (fun mem i => (List.range 512).foldl
      (fun mem j => Radix.write mem (b.pte + i) j (entry (i * 512 + j) (pteP + pteRw))) mem) mem

/-- `*(uint64_t *)addr = w`, where `addr` is aligned. -/
def putWord (mem : Words) (addr w : ℕ) : Words :=
  Radix.write mem (addr / pgSize) (addr % pgSize / 8) w

/-- Two counts of `page_array` in one word. -/
def refWord (pages : PageState) (k : ℕ) : ℕ :=
  (pages.pageArray (2 * k) % 2 ^ 32).toNat + 2 ^ 32 * (pages.pageArray (2 * k + 1) % 2 ^ 32).toNat

/-- The words of `bitmap` and `page_array`, where they stand in memory. -/
def storePages (b : BootInfo) (pages : PageState) (mem : Words) : Words :=
  let mem := (List.range bitmapSize).foldl
    (fun mem i => putWord mem (b.physfree + 8 * i) (pages.bitmap i).toNat) mem
  (List.range (pageArraySize / 2)).foldl
    (fun mem k => putWord mem (b.pgtableEnd + 8 * k) (refWord pages k)) mem

/-- The kernel while it boots: the allocator, the memory, and the pages it took. -/
structure BootState where
  /-- The allocator. -/
  pages : PageState
  /-- The words of each frame. -/
  mem : Words
  /-- The frames that were handed out, the last one first. -/
  taken : List ℕ

namespace BootState

/-- `mm_init` on memory that holds `mem`. -/
def afterMmInit (b : BootInfo) (mem : Words) : BootState where
  pages := mmInit b
  mem := storePages b (mmInit b) (setupInitialPgtables b mem)
  taken := []

/-- `get_zero_page`. -/
def getZeroPage (b : BootInfo) (s : BootState) : Except Stop (ℕ × BootState) := do
  let (pfn, pages) ← s.pages.getFreePage
  .ok (pfn,
    { pages := pages
      mem := Function.update (storePages b pages s.mem) pfn fun _ => 0
      taken := pfn :: s.taken })

/-- `alloc_pgd`. -/
def allocPgd (b : BootInfo) (s : BootState) : Except Stop (ℕ × BootState) := do
  let (p, s) ← s.getZeroPage b
  let mem := Function.update s.mem p (s.mem b.pgd)
  .ok (p, { s with mem := Radix.write mem p selfRefIndex (entry p (pteP + pteRw)) })

/-- What the kernel does before the first process has an address space. -/
inductive Act where
  | zeroPage
  | store (pfn off w : ℕ)
  deriving DecidableEq, Repr

/-- One of these; a store goes to a page that was taken, or below the end of the kernel image. -/
def step (b : BootInfo) (s : BootState) : Act → Except Stop BootState
  | .zeroPage => do
    let (_, s) ← s.getZeroPage b
    .ok s
  | .store pfn off w =>
    if pfn ∈ s.taken ∨ pfn < b.physfree / pgSize then
      .ok { s with mem := Radix.write s.mem pfn off w }
    else .ok s

end BootState

/-! ### What is stored to the tables -/

section Tables

variable {b : BootInfo} {mem : Words} {i j k : ℕ}

theorem fillPtes_apply (n pte k j : ℕ) (mem : Words) :
    ((List.range n).foldl (fun mem i => (List.range 512).foldl
      (fun mem j => Radix.write mem (pte + i) j (entry (i * 512 + j) (pteP + pteRw))) mem) mem)
        (pte + k) j =
      if k < n ∧ j < 512 then entry (k * 512 + j) (pteP + pteRw) else mem (pte + k) j := by
  induction n with
  | zero => simp
  | succ n ih =>
    have hrange : List.range (n + 1) = List.range n ++ [n] := List.range_succ
    rw [hrange, List.foldl_append, List.foldl_cons, List.foldl_nil, Radix.foldl_write, ih]
    simp only [List.mem_range, Nat.add_left_cancel_iff]
    by_cases hk : k = n
    · subst hk
      by_cases hj : j < 512 <;> simp [hj]
    · have hlt : k < n + 1 ↔ k < n := by omega
      simp [hk, hlt]

/-- A frame below the `pte` pages is not touched by the last loop. -/
theorem fillPtes_of_lt (n pte : ℕ) {f : ℕ} (hf : f < pte) (mem : Words) :
    ((List.range n).foldl (fun mem i => (List.range 512).foldl
      (fun mem j => Radix.write mem (pte + i) j (entry (i * 512 + j) (pteP + pteRw))) mem) mem) f =
      mem f := by
  refine Radix.foldl_of_ne _ _ (fun m i _ => ?_) mem
  funext j
  rw [Radix.foldl_write, if_neg]
  rintro ⟨heq, -⟩
  omega

theorem setupInitialPgtables_pgd (b : BootInfo) (mem : Words) (i : ℕ) :
    setupInitialPgtables b mem b.pgd i =
      if i = selfRefIndex then entry b.pgd (pteP + pteRw)
      else if i = 0x1ff then entry b.pud (pteP + pteRw)
      else mem b.pgd i := by
  unfold setupInitialPgtables
  have hpte : b.pgd < b.pte := by unfold BootInfo.pte BootInfo.pmd BootInfo.pud; omega
  have hpmd : b.pgd ≠ b.pmd := by unfold BootInfo.pmd BootInfo.pud; omega
  have hpud : b.pgd ≠ b.pud := by unfold BootInfo.pud; omega
  rw [fillPtes_of_lt _ _ hpte, Radix.foldl_write, if_neg fun h => hpmd h.1,
    Radix.write_of_ne fun h => hpud h.1]
  by_cases hi : i = selfRefIndex
  · rw [if_pos hi, hi, Radix.write_self]
  · rw [if_neg hi, Radix.write_of_ne fun h => hi h.2]
    by_cases hi' : i = 0x1ff
    · rw [if_pos hi', hi', Radix.write_self]
    · rw [if_neg hi', Radix.write_of_ne fun h => hi' h.2]

theorem setupInitialPgtables_pud (b : BootInfo) (mem : Words) (i : ℕ) :
    setupInitialPgtables b mem b.pud i =
      if i = 0x1fe then entry b.pmd (pteP + pteRw) else mem b.pud i := by
  unfold setupInitialPgtables
  have hpte : b.pud < b.pte := by unfold BootInfo.pte BootInfo.pmd; omega
  have hpmd : b.pud ≠ b.pmd := by unfold BootInfo.pmd; omega
  have hpgd : b.pud ≠ b.pgd := by unfold BootInfo.pud; omega
  rw [fillPtes_of_lt _ _ hpte, Radix.foldl_write, if_neg fun h => hpmd h.1]
  by_cases hi : i = 0x1fe
  · rw [if_pos hi, hi, Radix.write_self]
  · rw [if_neg hi, Radix.write_of_ne fun h => hi h.2, Radix.write_of_ne fun h => hpgd h.1,
      Radix.write_of_ne fun h => hpgd h.1]

theorem setupInitialPgtables_pmd (b : BootInfo) (mem : Words) (i : ℕ) :
    setupInitialPgtables b mem b.pmd i =
      if i < pmdTNum then entry (b.pte + i) (pteP + pteRw) else mem b.pmd i := by
  unfold setupInitialPgtables
  have hpte : b.pmd < b.pte := by unfold BootInfo.pte; omega
  have hpud : b.pmd ≠ b.pud := by unfold BootInfo.pmd; omega
  have hpgd : b.pmd ≠ b.pgd := by unfold BootInfo.pmd BootInfo.pud; omega
  rw [fillPtes_of_lt _ _ hpte, Radix.foldl_write, Radix.write_of_ne fun h => hpud h.1,
    Radix.write_of_ne fun h => hpgd h.1, Radix.write_of_ne fun h => hpgd h.1]
  simp only [true_and, List.mem_range]

theorem setupInitialPgtables_pte (b : BootInfo) (mem : Words) (hk : k < pteTNum) (hj : j < 512) :
    setupInitialPgtables b mem (b.pte + k) j = entry (k * 512 + j) (pteP + pteRw) := by
  unfold setupInitialPgtables
  rw [fillPtes_apply, if_pos ⟨hk, hj⟩]

/-- The bitmap lies below the tables and the page array above them. -/
theorem storePages_table (b : BootInfo) (pages : PageState) (mem : Words) (hk : k < 67) :
    storePages b pages mem (b.pgd + k) = mem (b.pgd + k) := by
  have hput : ∀ (m : Words) (addr w : ℕ), addr / pgSize ≠ b.pgd + k →
      putWord m addr w (b.pgd + k) = m (b.pgd + k) := by
    intro m addr w hne
    funext j
    exact Radix.write_of_ne fun h => hne h.1.symm
  unfold storePages
  rw [Radix.foldl_of_ne _ _ fun m x hx => hput m _ _ ?_, Radix.foldl_of_ne _ _ fun m i hi => hput m _ _ ?_]
  · rw [List.mem_range] at hi
    unfold BootInfo.pgd BootInfo.pgdStart pgAlign pgSize bitmapSize at *
    omega
  · unfold BootInfo.pgd BootInfo.pgtableEnd pgSize
    omega

end Tables

/-! ### What the leftovers are -/

/-- Every entry on the way that these indices take from a table is present. -/
def Walks (mem : Words) (table : ℕ) (is : List ℕ) : Prop := (Vm.mmuWalk mem table is).isSome = true

/-- The entry is present, and so is every entry on the way from the table it refers to. -/
def Leads (mem : Words) (e : ℕ) (is : List ℕ) : Prop :=
  e.testBit 0 = true ∧ Walks mem (frameOf e) is

/-- The slots of the three upper tables that `setup_initial_pgtables` does not store to. -/
def Leftover (b : BootInfo) (table i : ℕ) : Prop :=
  i < 512 ∧ (table = b.pgd ∧ i < selfRefIndex ∨ table = b.pud ∧ i ≠ 0x1fe ∨
    table = b.pmd ∧ pmdTNum ≤ i)

/-- None of them has the present bit. -/
def Clear (b : BootInfo) (mem : Words) : Prop :=
  ∀ table i, Leftover b table i → (mem table i).testBit 0 = false

/-- How many indices follow a slot in a kernel address.  The directory can stand for any of the
tables, but an address that begins with a slot of the user half is not in the kernel half. -/
def indicesBelow (b : BootInfo) (table i : ℕ) : ℕ :=
  if table = b.pgd then if 256 ≤ i then 3 else 2
  else if table = b.pud then 2 else 1

/-- The leftovers of the user half are not present, and the others lead to the same addresses in
both memories. -/
structure SameLeftovers (b : BootInfo) (mem₁ mem₂ : Words) : Prop where
  noUser : ∀ i < 256, (mem₁ b.pgd i).testBit 0 = false ∧ (mem₂ b.pgd i).testBit 0 = false
  same : ∀ table i, Leftover b table i → ∀ is : List ℕ, is.length ≤ indicesBelow b table i →
    (∀ j ∈ is, j < 512) →
    (Leads (BootState.afterMmInit b mem₁).mem (mem₁ table i) is ↔
      Leads (BootState.afterMmInit b mem₂).mem (mem₂ table i) is)

/-! ### The walks after `mm_init` -/

theorem walks_nil (mem : Words) (table : ℕ) : Walks mem table [] := rfl

theorem walks_cons {mem : Words} {table i : ℕ} {is : List ℕ} :
    Walks mem table (i :: is) ↔ Leads mem (mem table i) is := by
  unfold Leads Walks
  rw [Vm.mmuWalk]
  cases he : (mem table i).testBit 0 with
  | true => simp
  | false => simp

/-- An entry of the kernel leads on to the table it was made for. -/
theorem leads_entry {mem : Words} {f : ℕ} {is : List ℕ} :
    Leads mem (entry f (pteP + pteRw)) is ↔ Walks mem f is := by
  have hbit : (entry f (pteP + pteRw)).testBit 0 = true := by
    rw [Vm.testBit_entry (by decide) 0 (by decide)]
    decide
  have hframe : frameOf (entry f (pteP + pteRw)) = f := by
    unfold frameOf entry pgSize pteP pteRw
    omega
  unfold Leads
  rw [hframe]
  exact and_iff_right hbit

section AfterMmInit

variable {b : BootInfo} {mem : Words} {i k table : ℕ} {is : List ℕ}

theorem afterMmInit_mem (b : BootInfo) (mem : Words) :
    (BootState.afterMmInit b mem).mem = storePages b (mmInit b) (setupInitialPgtables b mem) := by
  rw [BootState.afterMmInit]

theorem afterMmInit_pgd (b : BootInfo) (mem : Words) (i : ℕ) :
    (BootState.afterMmInit b mem).mem b.pgd i =
      if i = selfRefIndex then entry b.pgd (pteP + pteRw)
      else if i = 0x1ff then entry b.pud (pteP + pteRw)
      else mem b.pgd i := by
  have htab := storePages_table b (mmInit b) (setupInitialPgtables b mem) (k := 0) (by decide)
  rw [Nat.add_zero] at htab
  rw [afterMmInit_mem, htab, setupInitialPgtables_pgd]

theorem afterMmInit_pud (b : BootInfo) (mem : Words) (i : ℕ) :
    (BootState.afterMmInit b mem).mem b.pud i =
      if i = 0x1fe then entry b.pmd (pteP + pteRw) else mem b.pud i := by
  have htab := storePages_table b (mmInit b) (setupInitialPgtables b mem) (k := 1) (by decide)
  have hframe : b.pgd + 1 = b.pud := rfl
  rw [hframe] at htab
  rw [afterMmInit_mem, htab, setupInitialPgtables_pud]

theorem afterMmInit_pmd (b : BootInfo) (mem : Words) (i : ℕ) :
    (BootState.afterMmInit b mem).mem b.pmd i =
      if i < pmdTNum then entry (b.pte + i) (pteP + pteRw) else mem b.pmd i := by
  have htab := storePages_table b (mmInit b) (setupInitialPgtables b mem) (k := 2) (by decide)
  have hframe : b.pgd + 2 = b.pmd := rfl
  rw [hframe] at htab
  rw [afterMmInit_mem, htab, setupInitialPgtables_pmd]

theorem afterMmInit_pte (b : BootInfo) (mem : Words) {k j : ℕ} (hk : k < pmdTNum) (hj : j < 512) :
    (BootState.afterMmInit b mem).mem (b.pte + k) j = entry (k * 512 + j) (pteP + pteRw) := by
  unfold pmdTNum at hk
  have htab := storePages_table b (mmInit b) (setupInitialPgtables b mem) (k := 3 + k) (by omega)
  have hframe : b.pgd + (3 + k) = b.pte + k := by
    unfold BootInfo.pte BootInfo.pmd BootInfo.pud
    omega
  rw [hframe] at htab
  rw [afterMmInit_mem, htab]
  exact setupInitialPgtables_pte b mem (by unfold pteTNum; omega) hj

/-- The leftovers are still there after `mm_init`. -/
theorem afterMmInit_leftover (b : BootInfo) (mem : Words) (h : Leftover b table i) :
    (BootState.afterMmInit b mem).mem table i = mem table i := by
  obtain ⟨-, ⟨rfl, hi⟩ | ⟨rfl, hi⟩ | ⟨rfl, hi⟩⟩ := h
  · have hend : i ≠ 0x1ff := by unfold selfRefIndex at hi; omega
    rw [afterMmInit_pgd, if_neg hi.ne, if_neg hend]
  · rw [afterMmInit_pud, if_neg hi]
  · rw [afterMmInit_pmd, if_neg (by omega)]

theorem walks_leftover (h : Leftover b table i) :
    Walks (BootState.afterMmInit b mem).mem table (i :: is) ↔
      Leads (BootState.afterMmInit b mem).mem (mem table i) is := by
  rw [walks_cons, afterMmInit_leftover b mem h]

/-- The self-reference goes from the directory to the directory. -/
theorem walks_self :
    Walks (BootState.afterMmInit b mem).mem b.pgd (selfRefIndex :: is) ↔
      Walks (BootState.afterMmInit b mem).mem b.pgd is := by
  rw [walks_cons, afterMmInit_pgd, if_pos rfl, leads_entry]

theorem walks_pgd :
    Walks (BootState.afterMmInit b mem).mem b.pgd (0x1ff :: is) ↔
      Walks (BootState.afterMmInit b mem).mem b.pud is := by
  rw [walks_cons, afterMmInit_pgd, if_neg (by decide), if_pos rfl, leads_entry]

theorem walks_pud :
    Walks (BootState.afterMmInit b mem).mem b.pud (0x1fe :: is) ↔
      Walks (BootState.afterMmInit b mem).mem b.pmd is := by
  rw [walks_cons, afterMmInit_pud, if_pos rfl, leads_entry]

theorem walks_pmd (hi : i < pmdTNum) :
    Walks (BootState.afterMmInit b mem).mem b.pmd (i :: is) ↔
      Walks (BootState.afterMmInit b mem).mem (b.pte + i) is := by
  rw [walks_cons, afterMmInit_pmd, if_pos hi, leads_entry]

/-- Every slot of the 64 pages behind the `pmd` is present. -/
theorem walks_pte (hk : k < pmdTNum) (hlen : is.length ≤ 1) (his : ∀ j ∈ is, j < 512) :
    Walks (BootState.afterMmInit b mem).mem (b.pte + k) is := by
  match is, hlen with
  | [], _ => exact walks_nil _ _
  | [j], _ =>
    rw [walks_cons, afterMmInit_pte b mem hk (his j (List.mem_singleton.2 rfl)), leads_entry]
    exact walks_nil _ _

end AfterMmInit

/-! ### Two memories -/

section TwoMemories

variable {b : BootInfo} {mem₁ mem₂ : Words} {is : List ℕ}

/-- The walks from a table take the same indices in both memories. -/
def SameWalks (b : BootInfo) (mem₁ mem₂ : Words) (table : ℕ) (is : List ℕ) : Prop :=
  Walks (BootState.afterMmInit b mem₁).mem table is ↔
    Walks (BootState.afterMmInit b mem₂).mem table is

theorem SameLeftovers.walks (h : SameLeftovers b mem₁ mem₂) {table i : ℕ}
    (hslot : Leftover b table i) (hlen : is.length ≤ indicesBelow b table i)
    (his : ∀ j ∈ is, j < 512) : SameWalks b mem₁ mem₂ table (i :: is) := by
  unfold SameWalks
  rw [walks_leftover hslot, walks_leftover hslot]
  exact h.same table i hslot is hlen his

theorem SameLeftovers.pmd (h : SameLeftovers b mem₁ mem₂) (hlen : is.length ≤ 2)
    (his : ∀ j ∈ is, j < 512) : SameWalks b mem₁ mem₂ b.pmd is := by
  cases is with
  | nil => exact iff_of_true (walks_nil _ _) (walks_nil _ _)
  | cons i is =>
    obtain ⟨hi, his⟩ := List.forall_mem_cons.1 his
    rw [List.length_cons] at hlen
    by_cases hlt : i < pmdTNum
    · have hpte : ∀ mem, Walks (BootState.afterMmInit b mem).mem (b.pte + i) is := fun mem =>
        walks_pte hlt (by omega) his
      exact iff_of_true ((walks_pmd hlt).2 (hpte mem₁)) ((walks_pmd hlt).2 (hpte mem₂))
    · refine h.walks ⟨hi, .inr (.inr ⟨rfl, by omega⟩)⟩ ?_ his
      unfold indicesBelow BootInfo.pmd BootInfo.pud
      rw [if_neg (by omega), if_neg (by omega)]
      omega

theorem SameLeftovers.pud (h : SameLeftovers b mem₁ mem₂) (hlen : is.length ≤ 3)
    (his : ∀ j ∈ is, j < 512) : SameWalks b mem₁ mem₂ b.pud is := by
  cases is with
  | nil => exact iff_of_true (walks_nil _ _) (walks_nil _ _)
  | cons i is =>
    obtain ⟨hi, his⟩ := List.forall_mem_cons.1 his
    rw [List.length_cons] at hlen
    by_cases heq : i = 0x1fe
    · have hpmd : SameWalks b mem₁ mem₂ b.pmd is := h.pmd (by omega) his
      unfold SameWalks at hpmd ⊢
      rw [heq, walks_pud, walks_pud]
      exact hpmd
    · refine h.walks ⟨hi, .inr (.inl ⟨rfl, heq⟩)⟩ ?_ his
      unfold indicesBelow BootInfo.pud
      rw [if_neg (by omega), if_pos rfl]
      omega

/-- One index more from the directory. -/
theorem SameLeftovers.pgd_cons (h : SameLeftovers b mem₁ mem₂) {i : ℕ} (hi : i < 512)
    (his : ∀ j ∈ is, j < 512) (hlen : is.length ≤ 2 ∨ is.length ≤ 3 ∧ 256 ≤ i)
    (hpgd : SameWalks b mem₁ mem₂ b.pgd is) : SameWalks b mem₁ mem₂ b.pgd (i :: is) := by
  by_cases hself : i = selfRefIndex
  · unfold SameWalks at hpgd ⊢
    rw [hself, walks_self, walks_self]
    exact hpgd
  · by_cases hend : i = 0x1ff
    · have hpud : SameWalks b mem₁ mem₂ b.pud is := h.pud (by omega) his
      unfold SameWalks at hpud ⊢
      rw [hend, walks_pgd, walks_pgd]
      exact hpud
    · refine h.walks ⟨hi, .inl ⟨rfl, ?_⟩⟩ ?_ his
      · unfold selfRefIndex at hself ⊢
        omega
      · unfold indicesBelow
        rw [if_pos rfl]
        split_ifs <;> omega

theorem SameLeftovers.pgd (h : SameLeftovers b mem₁ mem₂) (hlen : is.length ≤ 3)
    (his : ∀ j ∈ is, j < 512) : SameWalks b mem₁ mem₂ b.pgd is := by
  induction is with
  | nil => exact iff_of_true (walks_nil _ _) (walks_nil _ _)
  | cons i is ih =>
    obtain ⟨hi, his⟩ := List.forall_mem_cons.1 his
    rw [List.length_cons] at hlen
    exact h.pgd_cons hi his (.inl (by omega)) (ih (by omega) his)

/-- The way from the directory to a slot that an address of the kernel half takes, when `n` indices
follow: as often as needed from the directory to itself, and then down to the table. -/
theorem exists_wayTo {table i n : ℕ} (hslot : Leftover b table i) (hn : n ≤ indicesBelow b table i) :
    ∃ way : List ℕ, way.length + n = 3 ∧ (∀ j ∈ way, j < 512) ∧
      (∀ j ∈ (way ++ [i]).head?, 256 ≤ j) ∧
      ∀ mem is, Walks (BootState.afterMmInit b mem).mem b.pgd (way ++ is) ↔
        Walks (BootState.afterMmInit b mem).mem table is := by
  have hself : ∀ (k : ℕ) (mem : Words) (is : List ℕ),
      Walks (BootState.afterMmInit b mem).mem b.pgd (List.replicate k selfRefIndex ++ is) ↔
        Walks (BootState.afterMmInit b mem).mem b.pgd is := by
    intro k mem is
    induction k with
    | zero => rfl
    | succ k ih => rw [List.replicate_succ, List.cons_append, walks_self, ih]
  have hlow : ∀ k, ∀ j ∈ List.replicate k selfRefIndex, j < 512 := by
    intro k j hj
    rw [(List.mem_replicate.1 hj).2]
    decide
  have hhead : ∀ (k : ℕ) (l : List ℕ), (∀ j ∈ l.head?, 256 ≤ j) →
      ∀ j ∈ (List.replicate k selfRefIndex ++ l).head?, 256 ≤ j := by
    intro k l hl j hj
    cases k with
    | zero => exact hl j hj
    | succ k =>
      rw [List.replicate_succ, List.cons_append, List.head?_cons, Option.mem_some] at hj
      rw [← hj]
      decide
  obtain ⟨hi, ⟨rfl, -⟩ | ⟨rfl, -⟩ | ⟨rfl, -⟩⟩ := hslot
  · unfold indicesBelow at hn
    rw [if_pos rfl] at hn
    refine ⟨List.replicate (3 - n) selfRefIndex, ?_, hlow _, ?_, fun mem is => hself _ mem is⟩
    · rw [List.length_replicate]
      split_ifs at hn <;> omega
    · by_cases hn3 : n = 3
      · rw [hn3] at hn ⊢
        have hup : 256 ≤ i := by
          by_contra hlt
          rw [if_neg hlt] at hn
          omega
        simpa using hup
      · have hlen : 3 - n = (2 - n) + 1 := by
          split_ifs at hn <;> omega
        rw [hlen, List.replicate_succ]
        intro j hj
        rw [List.cons_append, List.head?_cons, Option.mem_some] at hj
        rw [← hj]
        decide
  · have hn2 : n ≤ 2 := by
      unfold indicesBelow BootInfo.pud at hn
      rwa [if_neg (by omega), if_pos rfl] at hn
    refine ⟨List.replicate (2 - n) selfRefIndex ++ [0x1ff], ?_, ?_, ?_, fun mem is => ?_⟩
    · rw [List.length_append, List.length_replicate, List.length_singleton]
      omega
    · exact List.forall_mem_append.2 ⟨hlow _, by simp⟩
    · rw [List.append_assoc]
      exact hhead _ _ (by simp)
    · rw [List.append_assoc, hself]
      exact walks_pgd
  · have hn1 : n ≤ 1 := by
      unfold indicesBelow BootInfo.pmd BootInfo.pud at hn
      rwa [if_neg (by omega), if_neg (by omega)] at hn
    refine ⟨List.replicate (1 - n) selfRefIndex ++ [0x1ff, 0x1fe], ?_, ?_, ?_, fun mem is => ?_⟩
    · rw [List.length_append, List.length_replicate]
      simp only [List.length_cons, List.length_nil]
      omega
    · exact List.forall_mem_append.2 ⟨hlow _, by simp⟩
    · rw [List.append_assoc]
      exact hhead _ _ (by simp)
    · rw [List.append_assoc, hself]
      exact walks_pgd.trans walks_pud

end TwoMemories

/-! ### The addresses -/

/-- The addresses of the kernel half that the kernel's tables translate. -/
def kernelAddrs (b : BootInfo) (mem : Words) : Set ℕ :=
  {va | 0xffff800000000000 ≤ va ∧ va < 2 ^ 64 ∧
    Walks (BootState.afterMmInit b mem).mem b.pgd (walkIndices va)}

theorem walkIndices_lt (va : ℕ) : ∀ j ∈ walkIndices va, j < 512 := by
  unfold walkIndices
  intro j hj
  simp only [List.mem_cons, List.not_mem_nil, or_false] at hj
  omega

/-- Any four indices, of which the first is from the upper half, belong to an address. -/
theorem exists_walkIndices {is : List ℕ} (hlen : is.length = 4) (his : ∀ j ∈ is, j < 512)
    (hhead : ∀ j ∈ is.head?, 256 ≤ j) :
    ∃ va, 0xffff800000000000 ≤ va ∧ va < 2 ^ 64 ∧ walkIndices va = is := by
  match is, hlen with
  | [i, j, k, l], _ =>
    have hi : 256 ≤ i := hhead i rfl
    simp only [List.forall_mem_cons] at his
    obtain ⟨hi', hj, hk, hl, -⟩ := his
    refine ⟨0xffff000000000000 + i * 2 ^ 39 + j * 2 ^ 30 + k * 2 ^ 21 + l * 2 ^ 12, ?_, ?_, ?_⟩
    · omega
    · omega
    · unfold walkIndices
      simp only [List.cons.injEq, and_true]
      omega

section Kernel

variable {b : BootInfo} {mem₁ mem₂ : Words}

theorem SameLeftovers.kernelAddrs (h : SameLeftovers b mem₁ mem₂) :
    kernelAddrs b mem₁ = kernelAddrs b mem₂ := by
  have hwalks : ∀ va, 0xffff800000000000 ≤ va → va < 2 ^ 64 →
      SameWalks b mem₁ mem₂ b.pgd (walkIndices va) := by
    intro va hlow hhigh
    have his := walkIndices_lt va
    unfold walkIndices at his ⊢
    obtain ⟨hi, his⟩ := List.forall_mem_cons.1 his
    refine h.pgd_cons hi his (.inr ⟨by simp, by omega⟩) (h.pgd (by simp) his)
  ext va
  constructor
  · rintro ⟨hlow, hhigh, hva⟩
    exact ⟨hlow, hhigh, (hwalks va hlow hhigh).1 hva⟩
  · rintro ⟨hlow, hhigh, hva⟩
    exact ⟨hlow, hhigh, (hwalks va hlow hhigh).2 hva⟩

/-- A slot with something in it shows in the addresses: there is one for each way on from it. -/
theorem leads_iff_of_kernelAddrs (h : kernelAddrs b mem₁ = kernelAddrs b mem₂) {table i : ℕ}
    {is : List ℕ} (hslot : Leftover b table i) (hlen : is.length ≤ indicesBelow b table i)
    (his : ∀ j ∈ is, j < 512) :
    Leads (BootState.afterMmInit b mem₁).mem (mem₁ table i) is ↔
      Leads (BootState.afterMmInit b mem₂).mem (mem₂ table i) is := by
  obtain ⟨way, hway, hlow, hhead, hto⟩ := exists_wayTo hslot hlen
  have hhead' : ∀ j ∈ (way ++ i :: is).head?, 256 ≤ j := by
    intro j hj
    apply hhead j
    cases way <;> exact hj
  have hall : ∀ j ∈ way ++ i :: is, j < 512 :=
    List.forall_mem_append.2 ⟨hlow, List.forall_mem_cons.2 ⟨hslot.1, his⟩⟩
  have hfour : (way ++ i :: is).length = 4 := by
    rw [List.length_append, List.length_cons]
    omega
  obtain ⟨va, hva, hva', heq⟩ := exists_walkIndices hfour hall hhead'
  have hmem : ∀ mem, va ∈ kernelAddrs b mem ↔
      Leads (BootState.afterMmInit b mem).mem (mem table i) is := by
    intro mem
    rw [← walks_leftover hslot, ← hto mem (i :: is), ← heq]
    exact ⟨fun hmem => hmem.2.2, fun hwalk => ⟨hva, hva', hwalk⟩⟩
  rw [← hmem mem₁, ← hmem mem₂, h]

end Kernel

/-! ### The first address space -/

namespace BootState

variable {b : BootInfo} {mem : Words} {s s' : BootState} {p : ℕ}

/-- No page of the tables is handed out, and they stay as `mm_init` left them. -/
structure BootInv (b : BootInfo) (mem : Words) (s : BootState) : Prop where
  counts : ∀ k < 67, s.pages.pageArray (b.pgd + k) ≠ 0
  tables : ∀ k < 67, s.mem (b.pgd + k) = (afterMmInit b mem).mem (b.pgd + k)
  taken : ∀ f ∈ s.taken, ∀ k < 67, b.pgd + k ≠ f

theorem bootInv_afterMmInit (hb : b.TwoBlock) : BootInv b mem (afterMmInit b mem) where
  counts := by
    intro k hk
    have hres : b.Reserved (b.pgd + k) := by
      have := hb.physfree_aligned
      unfold BootInfo.Reserved Touches BootInfo.pgd BootInfo.pgtableEnd BootInfo.pgdStart pgAlign
        pgSize bitmapSize at *
      omega
    have hone : (mmInit b).pageArray (b.pgd + k) = 1 := pageArray_mmInit_of_reserved hb hres
    change (mmInit b).pageArray (b.pgd + k) ≠ 0
    rw [hone]
    exact one_ne_zero
  tables := fun _ _ => rfl
  taken := fun f hf => absurd hf List.not_mem_nil

theorem BootInv.getZeroPage (h : BootInv b mem s) (hget : s.getZeroPage b = .ok (p, s')) :
    BootInv b mem s' ∧ ∀ k < 67, b.pgd + k ≠ p := by
  obtain ⟨⟨pfn, pages⟩, hfree, heq⟩ := bind_eq_ok.1 hget
  simp only [Except.ok.injEq, Prod.mk.injEq] at heq
  obtain ⟨rfl, rfl⟩ := heq
  obtain ⟨hfind, hpages⟩ := getFreePage_eq_ok hfree
  have hzero : s.pages.pageArray pfn = 0 := (findFree_spec hfind).2.2.1
  have hne : ∀ k < 67, b.pgd + k ≠ pfn := by
    intro k hk heq
    apply h.counts k hk
    rw [heq, hzero]
  refine ⟨⟨fun k hk => ?_, fun k hk => ?_, fun f hf k hk => ?_⟩, hne⟩
  · change pages.pageArray (b.pgd + k) ≠ 0
    rw [hpages, Function.update_of_ne (hne k hk)]
    exact h.counts k hk
  · change Function.update (storePages b pages s.mem) pfn (fun _ => 0) (b.pgd + k) = _
    rw [Function.update_of_ne (hne k hk), storePages_table b pages s.mem hk]
    exact h.tables k hk
  · rcases List.mem_cons.1 hf with rfl | hf
    · exact hne k hk
    · exact h.taken f hf k hk

theorem BootInv.step {act : Act} (h : BootInv b mem s) (hstep : s.step b act = .ok s') :
    BootInv b mem s' := by
  cases act with
  | zeroPage =>
    obtain ⟨⟨p, t⟩, hget, heq⟩ := bind_eq_ok.1 hstep
    simp only [Except.ok.injEq] at heq
    subst heq
    exact (h.getZeroPage hget).1
  | store pfn off w =>
    simp only [BootState.step] at hstep
    split_ifs at hstep with hmine
    · simp only [Except.ok.injEq] at hstep
      subst hstep
      refine ⟨h.counts, fun k hk => ?_, h.taken⟩
      have hne : b.pgd + k ≠ pfn := by
        rcases hmine with hmem | hlt
        · exact h.taken pfn hmem k hk
        · unfold BootInfo.pgd BootInfo.pgdStart pgAlign pgSize bitmapSize at *
          omega
      have hsame : Radix.write s.mem pfn off w (b.pgd + k) = s.mem (b.pgd + k) :=
        funext fun j => Radix.write_of_ne fun heq => hne heq.1
      exact hsame.trans (h.tables k hk)
    · simp only [Except.ok.injEq] at hstep
      subst hstep
      exact h

theorem bootInv_of_run {acts : List Act} (hb : b.TwoBlock)
    (hrun : run (step b) (afterMmInit b mem) acts = .ok s) : BootInv b mem s :=
  run_invariant (I := BootInv b mem) (G := fun _ _ => True) (bootInv_afterMmInit hb)
    (fun _ _ _ h _ hstep => h.step hstep) (along_of_forall (fun _ _ => trivial) _ _) hrun

/-- The entries of the new directory are those that stood in the kernel's, up to its reference to
itself. -/
theorem BootInv.allocPgd (h : BootInv b mem s) (halloc : s.allocPgd b = .ok (p, s')) {off : ℕ}
    (hoff : off < 256) : s'.mem p off = mem b.pgd off := by
  obtain ⟨⟨p', t⟩, hget, heq⟩ := bind_eq_ok.1 halloc
  simp only [Except.ok.injEq, Prod.mk.injEq] at heq
  obtain ⟨rfl, rfl⟩ := heq
  have hinv := (h.getZeroPage hget).1
  have htab := hinv.tables 0 (by decide)
  rw [Nat.add_zero] at htab
  change Radix.write (Function.update t.mem p' (t.mem b.pgd)) p' selfRefIndex
    (entry p' (pteP + pteRw)) p' off = mem b.pgd off
  have hself : ¬ (p' = p' ∧ off = selfRefIndex) := by
    rintro ⟨-, rfl⟩
    exact absurd hoff (by decide)
  have hend : off ≠ 0x1ff := by omega
  rw [Radix.write_of_ne hself, Function.update_self, htab, afterMmInit_pgd,
    if_neg fun heq => hself ⟨rfl, heq⟩, if_neg hend]

/-- The present entries in the user half of a directory. -/
def userEntries (r : ℕ × BootState) : Set (ℕ × ℕ) :=
  {x | x.1 < 256 ∧ r.2.mem r.1 x.1 = x.2 ∧ x.2.testBit 0 = true}

theorem BootInv.userEntries_eq_empty {r : ℕ × BootState} (h : BootInv b mem s)
    (halloc : s.allocPgd b = .ok r) :
    userEntries r = ∅ ↔ ∀ i < 256, (mem b.pgd i).testBit 0 = false := by
  rw [Set.eq_empty_iff_forall_notMem]
  constructor
  · intro hnone i hi
    have hnot := hnone (i, mem b.pgd i)
    rw [← h.allocPgd halloc hi] at hnot ⊢
    by_contra hbit
    exact hnot ⟨hi, rfl, Bool.eq_true_of_not_eq_false hbit⟩
  · rintro hclear ⟨i, e⟩ ⟨hi, he, hbit⟩
    change r.2.mem r.1 i = e at he
    rw [h.allocPgd halloc hi] at he
    rw [← he, hclear i hi] at hbit
    exact Bool.false_ne_true hbit

end BootState

open BootState

/-- Two boots end in the same address space: the first process has no entry for the user in either,
and the kernel's tables translate the same addresses. -/
structure FreshSpace (b : BootInfo) (mem₁ mem₂ : Words) (r₁ r₂ : ℕ × BootState) : Prop where
  /-- The entries for the user are the same. -/
  sameUser : userEntries r₁ = userEntries r₂
  /-- There are none. -/
  noUser : userEntries r₁ = ∅
  /-- The tables of the kernel translate the same addresses. -/
  sameKernel : kernelAddrs b mem₁ = kernelAddrs b mem₂

section Fresh

variable {b : BootInfo} {mem₁ mem₂ : Words} {s₁ s₂ : BootState} {r₁ r₂ : ℕ × BootState}

theorem SameLeftovers.of_clear (h₁ : Clear b mem₁) (h₂ : Clear b mem₂) :
    SameLeftovers b mem₁ mem₂ where
  noUser := by
    intro i hi
    have hslot : Leftover b b.pgd i := ⟨by omega, .inl ⟨rfl, by unfold selfRefIndex; omega⟩⟩
    exact ⟨h₁ _ _ hslot, h₂ _ _ hslot⟩
  same := by
    intro table i hslot is _ _
    have hno₁ : ¬ Leads (afterMmInit b mem₁).mem (mem₁ table i) is := fun hl =>
      Bool.false_ne_true ((h₁ _ _ hslot).symm.trans hl.1)
    have hno₂ : ¬ Leads (afterMmInit b mem₂).mem (mem₂ table i) is := fun hl =>
      Bool.false_ne_true ((h₂ _ _ hslot).symm.trans hl.1)
    exact iff_of_false hno₁ hno₂

/-- Next to a memory with nothing in these slots, another one is the same only if it has nothing
there either. -/
theorem SameLeftovers.clear (h : SameLeftovers b mem₁ mem₂) (h₁ : Clear b mem₁) :
    Clear b mem₂ := by
  intro table i hslot
  have hsame := h.same table i hslot [] (Nat.zero_le _) (fun j hj => absurd hj List.not_mem_nil)
  by_contra hbit
  have hlead : Leads (afterMmInit b mem₂).mem (mem₂ table i) [] :=
    ⟨Bool.eq_true_of_not_eq_false hbit, walks_nil _ _⟩
  exact Bool.false_ne_true ((h₁ _ _ hslot).symm.trans (hsame.2 hlead).1)

theorem freshSpace_of_bootInv (h₁ : BootInv b mem₁ s₁) (h₂ : BootInv b mem₂ s₂)
    (ha₁ : s₁.allocPgd b = .ok r₁) (ha₂ : s₂.allocPgd b = .ok r₂) :
    FreshSpace b mem₁ mem₂ r₁ r₂ ↔ SameLeftovers b mem₁ mem₂ := by
  have hempty₁ := h₁.userEntries_eq_empty ha₁
  have hempty₂ := h₂.userEntries_eq_empty ha₂
  constructor
  · rintro ⟨hsame, hno, hkernel⟩
    refine ⟨fun i hi => ⟨hempty₁.1 hno i hi, hempty₂.1 (hsame.symm.trans hno) i hi⟩, ?_⟩
    intro table i hslot is hlen his
    exact leads_iff_of_kernelAddrs hkernel hslot hlen his
  · intro h
    have hno₁ := hempty₁.2 fun i hi => (h.noUser i hi).1
    have hno₂ := hempty₂.2 fun i hi => (h.noUser i hi).2
    exact ⟨hno₁.trans hno₂.symm, hno₁, h.kernelAddrs⟩

/-- **A fresh address space shows the leftovers in memory and nothing else of it.**  Two boots give
the same one exactly if the slots that nothing is stored to hold nothing for the user and lead to
the same addresses; next to a boot that finds nothing there, exactly if nothing is there. -/
theorem freshSpace_iff (hb : b.TwoBlock) {acts₁ acts₂ : List Act}
    (h₁ : run (step b) (afterMmInit b mem₁) acts₁ = .ok s₁)
    (h₂ : run (step b) (afterMmInit b mem₂) acts₂ = .ok s₂)
    (ha₁ : s₁.allocPgd b = .ok r₁) (ha₂ : s₂.allocPgd b = .ok r₂) :
    (FreshSpace b mem₁ mem₂ r₁ r₂ ↔ SameLeftovers b mem₁ mem₂) ∧
      (Clear b mem₁ → (FreshSpace b mem₁ mem₂ r₁ r₂ ↔ Clear b mem₂)) := by
  have hiff := freshSpace_of_bootInv (bootInv_of_run hb h₁) (bootInv_of_run hb h₂) ha₁ ha₂
  refine ⟨hiff, fun hclear => hiff.trans ⟨fun h => h.clear hclear, fun h => ?_⟩⟩
  exact SameLeftovers.of_clear hclear h

end Fresh

/-- With the image ending at `0x23b000` there is a page for the directory. -/
theorem exists_allocPgd (mem : Words) : ∃ r : ℕ × BootState,
    (afterMmInit (docLayout 0x23b000) mem).allocPgd (docLayout 0x23b000) = .ok r := by
  obtain ⟨pages, hget, -⟩ := getFreePage_start mmInit_docLayout_start
  have hfree : (afterMmInit (docLayout 0x23b000) mem).pages.getFreePage =
      .ok (normalPfnStart, pages) := hget
  unfold BootState.allocPgd BootState.getZeroPage
  rw [hfree]
  exact ⟨_, rfl⟩

theorem docLayout_boot : (docLayout 0x23b000).TwoBlock :=
  docLayout_twoBlock (by decide) (by decide) (by decide)

/-- A memory in which the page that becomes the directory begins with the entry that a directory
with an identity mapping begins with. -/
def staleEntry : Words := Radix.write (fun _ _ => 0) 0x23c 0 (entry 0 (pteP + pteRw + pteUs))

theorem freshSpace_iff_boot : ∃ r₁ r₂,
    (FreshSpace (docLayout 0x23b000) (fun _ _ => 0) staleEntry r₁ r₂ ↔
      SameLeftovers (docLayout 0x23b000) (fun _ _ => 0) staleEntry) ∧
    (Clear (docLayout 0x23b000) (fun _ _ => 0) →
      (FreshSpace (docLayout 0x23b000) (fun _ _ => 0) staleEntry r₁ r₂ ↔
        Clear (docLayout 0x23b000) staleEntry)) := by
  obtain ⟨r₁, ha₁⟩ := exists_allocPgd fun _ _ => 0
  obtain ⟨r₂, ha₂⟩ := exists_allocPgd staleEntry
  exact ⟨r₁, r₂, freshSpace_iff docLayout_boot (run_nil _) (run_nil _) ha₁ ha₂⟩

/-- The first process gets the stale entry, with the user bit set. -/
theorem freshSpace_fails : ¬ ∀ (b : BootInfo) (mem₁ mem₂ : Words) (acts : List Act)
    (s₁ s₂ : BootState) (r₁ r₂ : ℕ × BootState), b.TwoBlock →
    run (step b) (afterMmInit b mem₁) acts = .ok s₁ →
    run (step b) (afterMmInit b mem₂) acts = .ok s₂ →
    s₁.allocPgd b = .ok r₁ → s₂.allocPgd b = .ok r₂ → FreshSpace b mem₁ mem₂ r₁ r₂ := by
  intro hall
  obtain ⟨r₁, ha₁⟩ := exists_allocPgd fun _ _ => 0
  obtain ⟨r₂, ha₂⟩ := exists_allocPgd staleEntry
  have hfresh := hall _ _ _ [] _ _ r₁ r₂ docLayout_boot (run_nil _) (run_nil _) ha₁ ha₂
  have hempty := (bootInv_afterMmInit docLayout_boot).userEntries_eq_empty ha₂
  have hbit := hempty.1 (hfresh.sameUser.symm.trans hfresh.noUser) 0 (by decide)
  have hslot : staleEntry (docLayout 0x23b000).pgd 0 = entry 0 (pteP + pteRw + pteUs) :=
    Radix.write_self
  rw [hslot] at hbit
  exact absurd hbit (by decide)

/-! ### The machine of the address spaces -/

section Machine

variable {b : BootInfo} {mem : Words} {s s' : BootState} {p : ℕ}

/-- The kernel after boot as the machine of the address spaces takes it up; the slots of the user
half have to be 0, which a memory that was cleared before gives. -/
def BootState.toVm (b : BootInfo) (archive : Tarfs) (s : BootState)
    (h : ∀ off < 256, s.mem b.pgd off = 0) : Vm where
  pages := s.pages
  mem := s.mem
  mms := fun _ => none
  tasks := fun _ => none
  archive := archive
  kernel := fun _ => none
  pgdStart := s.mem b.pgd
  pgdUser := h

/-- `mm_init` leaves a state that runs of that machine start in. -/
theorem start_afterMmInit (archive : Tarfs) (h : ∀ off < 256, (afterMmInit b mem).mem b.pgd off = 0) :
    Vm.Start ((afterMmInit b mem).toVm b archive h) where
  counts := mmInit_pageArray_mem b
  noSpace := fun _ => rfl
  noTask := fun _ => rfl

/-- The two `alloc_pgd` agree on the new directory. -/
theorem allocPgd_toVm (hinv : BootInv b mem s) (archive : Tarfs)
    (h : ∀ off < 256, s.mem b.pgd off = 0) (halloc : s.allocPgd b = .ok (p, s')) :
    ∃ v, (s.toVm b archive h).allocPgd = .ok (p, v) ∧ v.pages = s'.pages ∧ v.mem p = s'.mem p := by
  obtain ⟨⟨p', t⟩, hget, heq⟩ := bind_eq_ok.1 halloc
  simp only [Except.ok.injEq, Prod.mk.injEq] at heq
  obtain ⟨rfl, rfl⟩ := heq
  have htab := (hinv.getZeroPage hget).1.tables 0 (by decide)
  rw [← hinv.tables 0 (by decide), Nat.add_zero] at htab
  obtain ⟨⟨pfn, pages⟩, hfree, heq⟩ := bind_eq_ok.1 hget
  simp only [Except.ok.injEq, Prod.mk.injEq] at heq
  obtain ⟨rfl, rfl⟩ := heq
  have hfree' : (s.toVm b archive h).pages.getFreePage = .ok (pfn, pages) := hfree
  unfold Vm.allocPgd Vm.getZeroPage
  rw [hfree']
  refine ⟨_, rfl, rfl, ?_⟩
  simp only [Vm.putEntry, Vm.putPage, Radix.write, Function.update_self]
  simp only at htab
  rw [htab]
  rfl

end Machine

end PlumOs
