import PlumOs.Vm.Isolation

/-!
# The self-referencing trick (`sys/pgtable.h`)

The entry 0x1fe of a page directory refers to the directory.  A walk of the processor that goes
through it once ends at a page table instead of a page, and one that goes through it four times ends
at the directory.  The macros `get_pgd_entry_addr_trick` to `get_pte_entry_addr_trick` make the
addresses for such walks with shifts and masks; `map_a_page` and `copy_vma_deep` go down from the
directory with `get_pgd_off` to `get_pte_off`.

* `hardwareWalk` : the physical address that the processor finds for a virtual address;
* `TrickAgrees` : both ways lead to the same slots;
* `trickAgrees_of_run` : **in every reached state, for every address space**.
-/

namespace PlumOs

/-! ### The macros -/

/-- `PGD_MASK`. -/
abbrev pgdMask : ℕ := 0xffffff7fbfdfe000

/-- `PUD_MASK`. -/
abbrev pudMask : ℕ := 0xffffff7fbfc00000

/-- `PMD_MASK`. -/
abbrev pmdMask : ℕ := 0xffffff7f80000000

/-- `PTE_MASK`. -/
abbrev pteMask : ℕ := 0xffffff0000000000

/-- `(((addr >> shift) & ((1 << bits) - 1)) | mask) & ~0x7`. -/
def entryAddrTrick (shift bits mask addr : ℕ) : ℕ :=
  (((addr >>> shift) &&& (2 ^ bits - 1)) ||| mask) &&& 0xfffffffffffffff8

/-- `get_pgd_entry_addr_trick`. -/
def getPgdEntryAddrTrick (addr : ℕ) : ℕ := entryAddrTrick 36 12 pgdMask addr

/-- `get_pud_entry_addr_trick`. -/
def getPudEntryAddrTrick (addr : ℕ) : ℕ := entryAddrTrick 27 (12 + 9) pudMask addr

/-- `get_pmd_entry_addr_trick`. -/
def getPmdEntryAddrTrick (addr : ℕ) : ℕ := entryAddrTrick 18 (12 + 9 + 9) pmdMask addr

/-- `get_pte_entry_addr_trick`. -/
def getPteEntryAddrTrick (addr : ℕ) : ℕ := entryAddrTrick 9 (12 + 9 + 9 + 9) pteMask addr

/-- Clearing the three lowest bits of a 64-bit word. -/
theorem and_not_seven {x : ℕ} (hx : x < 2 ^ 64) : x &&& 0xfffffffffffffff8 = x / 8 * 8 := by
  have hmask : 0xfffffffffffffff8 = (2 ^ 61 - 1) <<< 3 := by decide
  have hmul : x / 8 * 8 = (x >>> 3) <<< 3 := by
    rw [Nat.shiftLeft_eq, Nat.shiftRight_eq_div_pow]
  rw [hmask, hmul]
  refine Nat.eq_of_testBit_eq fun i => ?_
  rw [Nat.testBit_and, Nat.testBit_shiftLeft, Nat.testBit_shiftLeft, Nat.testBit_two_pow_sub_one,
    Nat.testBit_shiftRight]
  by_cases h3 : 3 ≤ i
  · rw [Nat.add_sub_cancel' h3]
    by_cases h64 : i < 64
    · simp [h3, show i - 3 < 61 by omega]
    · have hbit : x.testBit i = false :=
        Nat.testBit_lt_two_pow (hx.trans_le (Nat.pow_le_pow_right (by decide) (by omega)))
      simp [hbit]
  · simp [h3]

/-- The shift and the mask do not meet: the address is a sum. -/
theorem entryAddrTrick_eq {shift bits n m : ℕ} (hbits : bits ≤ n) (hmask : 2 ^ n * m + 2 ^ n ≤ 2 ^ 64)
    (h8 : 2 ^ n * m % 8 = 0) (addr : ℕ) : entryAddrTrick shift bits (2 ^ n * m) addr =
      2 ^ n * m + addr / 2 ^ shift % 2 ^ bits / 8 * 8 := by
  have hlow : addr / 2 ^ shift % 2 ^ bits < 2 ^ n :=
    (Nat.mod_lt _ (Nat.two_pow_pos bits)).trans_le (Nat.pow_le_pow_right (by decide) hbits)
  unfold entryAddrTrick
  rw [Nat.and_two_pow_sub_one_eq_mod, Nat.shiftRight_eq_div_pow, Nat.or_comm,
    ← Nat.two_pow_add_eq_or_of_lt hlow, and_not_seven (by omega)]
  omega

/-! ### The walks -/

/-- The indices that the processor takes from a virtual address. -/
def walkIndices (va : ℕ) : List ℕ :=
  [va / 2 ^ 39 % 512, va / 2 ^ 30 % 512, va / 2 ^ 21 % 512, va / 2 ^ 12 % 512]

section Indices

variable {addr : ℕ} (h : addr < userTop)

include h

theorem walkIndices_pgd :
    walkIndices (getPgdEntryAddrTrick addr) = [selfRefIndex, selfRefIndex, selfRefIndex,
      selfRefIndex] ∧ getPgdEntryAddrTrick addr % pgSize = 8 * getPgdOff (addr / pgSize) := by
  have heq : getPgdEntryAddrTrick addr = pgdMask + addr / 2 ^ 36 % 2 ^ 12 / 8 * 8 :=
    entryAddrTrick_eq (n := 13) (m := 0x7fffffbfdfeff) (by decide) (by decide) (by decide) addr
  rw [heq, getPgdOff_eq, walkIndices]
  simp only [List.cons.injEq, and_true]
  unfold userTop at h
  unfold pgSize selfRefIndex pgdMask
  omega

theorem walkIndices_pud :
    walkIndices (getPudEntryAddrTrick addr) = [selfRefIndex, selfRefIndex, selfRefIndex,
      getPgdOff (addr / pgSize)] ∧
    getPudEntryAddrTrick addr % pgSize = 8 * getPudOff (addr / pgSize) := by
  have heq : getPudEntryAddrTrick addr = pudMask + addr / 2 ^ 27 % 2 ^ 21 / 8 * 8 :=
    entryAddrTrick_eq (n := 22) (m := 0x3fffffdfeff) (by decide) (by decide) (by decide) addr
  rw [heq, getPgdOff_eq, getPudOff_eq, walkIndices]
  simp only [List.cons.injEq, and_true]
  unfold userTop at h
  unfold pgSize selfRefIndex pudMask
  omega

theorem walkIndices_pmd :
    walkIndices (getPmdEntryAddrTrick addr) = [selfRefIndex, selfRefIndex, getPgdOff (addr / pgSize),
      getPudOff (addr / pgSize)] ∧
    getPmdEntryAddrTrick addr % pgSize = 8 * getPmdOff (addr / pgSize) := by
  have heq : getPmdEntryAddrTrick addr = pmdMask + addr / 2 ^ 18 % 2 ^ 30 / 8 * 8 :=
    entryAddrTrick_eq (n := 31) (m := 0x1fffffeff) (by decide) (by decide) (by decide) addr
  rw [heq, getPgdOff_eq, getPudOff_eq, getPmdOff_eq, walkIndices]
  simp only [List.cons.injEq, and_true]
  unfold userTop at h
  unfold pgSize selfRefIndex pmdMask
  omega

theorem walkIndices_pte :
    walkIndices (getPteEntryAddrTrick addr) = [selfRefIndex, getPgdOff (addr / pgSize),
      getPudOff (addr / pgSize), getPmdOff (addr / pgSize)] ∧
    getPteEntryAddrTrick addr % pgSize = 8 * getPteOff (addr / pgSize) := by
  have heq : getPteEntryAddrTrick addr = pteMask + addr / 2 ^ 9 % 2 ^ 39 / 8 * 8 :=
    entryAddrTrick_eq (n := 40) (m := 0xffffff) (by decide) (by decide) (by decide) addr
  rw [heq, getPgdOff_eq, getPudOff_eq, getPmdOff_eq, getPteOff_eq, walkIndices]
  simp only [List.cons.injEq, and_true]
  unfold userTop at h
  unfold pgSize selfRefIndex pteMask
  omega

end Indices

namespace Vm

variable {s s₀ : Vm} {a r f pgd pfn i : ℕ} {mm : MmStruct}

/-- The physical address that the processor finds for an access of the kernel to a virtual address. -/
def hardwareWalk (s : Vm) (pgd va : ℕ) : Option ℕ :=
  (mmuWalk s.mem pgd (walkIndices va)).map fun x => x.1 * pgSize + va % pgSize

/-- The physical address of the entry `off` of a table. -/
def slot (table off : ℕ) : ℕ := table * pgSize + 8 * off

/-- The `pud` table that the explicit walk reaches for a page. -/
def pudTable (s : Vm) (pgd pfn : ℕ) : ℕ := frameOf (s.mem pgd (getPgdOff pfn))

/-- The `pmd` table. -/
def pmdTable (s : Vm) (pgd pfn : ℕ) : ℕ := frameOf (s.mem (s.pudTable pgd pfn) (getPudOff pfn))

/-- The `pte` table. -/
def pteTable (s : Vm) (pgd pfn : ℕ) : ℕ := frameOf (s.mem (s.pmdTable pgd pfn) (getPmdOff pfn))

/-- An entry is present. -/
def Present (s : Vm) (table off : ℕ) : Prop := (s.mem table off).testBit 0 = true

/-- The entries above the `pmd` table of a page are present. -/
def PresentPud (s : Vm) (pgd pfn : ℕ) : Prop :=
  s.Present pgd (getPgdOff pfn) ∧ s.Present (s.pudTable pgd pfn) (getPudOff pfn)

/-- The entries above the `pte` table of a page are present. -/
def PresentPmd (s : Vm) (pgd pfn : ℕ) : Prop :=
  s.PresentPud pgd pfn ∧ s.Present (s.pmdTable pgd pfn) (getPmdOff pfn)

/-- Both ways to the entries of a directory agree, for all the user addresses. -/
structure TrickAgrees (s : Vm) (pgd : ℕ) : Prop where
  pgdSlot : ∀ addr : UserAddr, s.hardwareWalk pgd (getPgdEntryAddrTrick addr) =
    some (slot pgd (getPgdOff (addr / pgSize)))
  pudSlot : ∀ addr : UserAddr, s.Present pgd (getPgdOff (addr / pgSize)) →
    s.hardwareWalk pgd (getPudEntryAddrTrick addr) =
      some (slot (s.pudTable pgd (addr / pgSize)) (getPudOff (addr / pgSize)))
  pmdSlot : ∀ addr : UserAddr, s.PresentPud pgd (addr / pgSize) →
    s.hardwareWalk pgd (getPmdEntryAddrTrick addr) =
      some (slot (s.pmdTable pgd (addr / pgSize)) (getPmdOff (addr / pgSize)))
  pteSlot : ∀ addr : UserAddr, s.PresentPmd pgd (addr / pgSize) →
    s.hardwareWalk pgd (getPteEntryAddrTrick addr) =
      some (slot (s.pteTable pgd (addr / pgSize)) (getPteOff (addr / pgSize)))
  /-- Addresses on different pages have different entries. -/
  distinct : ∀ x y : UserAddr, s.PresentPmd pgd (x / pgSize) → s.PresentPmd pgd (y / pgSize) →
    x.val / pgSize ≠ y.val / pgSize →
    s.hardwareWalk pgd (getPteEntryAddrTrick x) ≠ s.hardwareWalk pgd (getPteEntryAddrTrick y)

/-- The frame at the end of a walk. -/
def walkFrame (mem : ℕ → ℕ → ℕ) (table : ℕ) (is : List ℕ) : Option ℕ := (mmuWalk mem table is).map Prod.fst

theorem walkFrame_present {is : List ℕ} (h : s.Present f i) :
    walkFrame s.mem f (i :: is) = walkFrame s.mem (frameOf (s.mem f i)) is := by
  unfold Present at h
  unfold walkFrame
  rw [mmuWalk, if_pos h, Option.map_map]
  rfl

theorem TableInv.walkFrame_self (h : TableInv s) (hr : s.roots a = some r) (is : List ℕ) :
    walkFrame s.mem r (selfRefIndex :: is) = walkFrame s.mem r is := by
  unfold walkFrame
  rw [h.mmuWalk_self hr, Option.map_map]
  rfl

theorem hardwareWalk_eq {va table : ℕ} {is : List ℕ} (h : walkIndices va = is ∧ va % pgSize = 8 * i)
    (hwalk : walkFrame s.mem pgd is = some table) : s.hardwareWalk pgd va = some (slot table i) := by
  unfold walkFrame at hwalk
  obtain ⟨x, hx, rfl⟩ := Option.map_eq_some_iff.1 hwalk
  unfold hardwareWalk slot
  rw [h.1, h.2, hx]
  rfl

theorem Present.ne_zero (h : s.Present f i) : s.mem f i ≠ 0 := by
  intro h0
  unfold Present at h
  simp [h0] at h

/-- The `pte` table of a page is the one in the tree. -/
theorem PresentPmd.table (h : s.PresentPmd r pfn) (hr : s.roots a = some r) (hv : pfn < userPages) :
    s.Table a (path pfn) (s.pteTable r pfn) := by
  obtain ⟨⟨h₁, h₂⟩, h₃⟩ := h
  have ht₁ := (Table.root hr).next (userPath_pgd hv) h₁.ne_zero
  have ht₂ := ht₁.next (userPath_pud hv) h₂.ne_zero
  exact ht₂.next (userPath_path hv) h₃.ne_zero

/-- Different entries are at different physical addresses. -/
theorem slot_inj {t t' i i' : ℕ} (hi : i < 512) (hi' : i' < 512) (h : slot t i = slot t' i') :
    t = t' ∧ i = i' := by
  unfold slot pgSize at h
  omega

theorem getPteOff_lt (v : ℕ) : getPteOff v < 512 := by
  rw [getPteOff_eq]
  omega

/-- **The trick agrees with the explicit walk.** -/
theorem TableInv.trickAgrees (h : TableInv s) (hr : s.roots a = some r) : TrickAgrees s r := by
  have hpte : ∀ addr : UserAddr, s.PresentPmd r (addr / pgSize) →
      s.hardwareWalk r (getPteEntryAddrTrick addr) =
        some (slot (s.pteTable r (addr / pgSize)) (getPteOff (addr / pgSize))) := by
    rintro addr ⟨⟨h₁, h₂⟩, h₃⟩
    refine hardwareWalk_eq (walkIndices_pte addr.isLt) ?_
    rw [h.walkFrame_self hr, walkFrame_present h₁]
    exact (walkFrame_present h₂).trans (walkFrame_present h₃)
  refine ⟨fun addr => ?_, fun addr h₁ => ?_, fun addr ⟨h₁, h₂⟩ => ?_, hpte, fun x y hx hy hxy heq => ?_⟩
  · refine hardwareWalk_eq (walkIndices_pgd addr.isLt) ?_
    simp only [h.walkFrame_self hr]
    rfl
  · refine hardwareWalk_eq (walkIndices_pud addr.isLt) ?_
    simp only [h.walkFrame_self hr]
    exact walkFrame_present h₁
  · refine hardwareWalk_eq (walkIndices_pmd addr.isLt) ?_
    simp only [h.walkFrame_self hr]
    exact (walkFrame_present h₁).trans (walkFrame_present h₂)
  · rw [hpte x hx, hpte y hy, Option.some.injEq] at heq
    obtain ⟨htable, hoff⟩ := slot_inj (getPteOff_lt _) (getPteOff_lt _) heq
    -- no table is at two paths
    have hty := hy.table hr y.page_lt
    rw [← htable] at hty
    obtain ⟨-, hpath⟩ := h.separate a a _ _ _ (hx.table hr x.page_lt) hty
    exact hxy (path_inj x.page_lt y.page_lt hpath hoff)

/-- **The two ways agree in every reached state**, for every address space. -/
theorem trickAgrees_of_run {acts : List Act} (h : Start s₀) (hrun : run step s₀ acts = .ok s)
    (hmm : s.mms a = some mm) : TrickAgrees s mm.pgd :=
  (run_inv h hrun).tables.trickAgrees (roots_of_mm hmm)

/-- The child of a process with a page in its heap. -/
theorem trickAgrees_onceActs : ∃ s mm, run step smallVm onceActs = .ok s ∧ s.mms 719 = some mm ∧
    s.PresentPmd mm.pgd 0x401 ∧ TrickAgrees s mm.pgd := by
  have hrun : reaches (run step smallVm onceActs) (fun s => (s.mms 719).any fun mm =>
      (s.mem mm.pgd (getPgdOff 0x401)).testBit 0 &&
      (s.mem (s.pudTable mm.pgd 0x401) (getPudOff 0x401)).testBit 0 &&
      (s.mem (s.pmdTable mm.pgd 0x401) (getPmdOff 0x401)).testBit 0) = true := by decide +kernel
  obtain ⟨s, hs, htest⟩ := exists_of_reaches hrun
  simp only [Option.any_eq_true, Bool.and_eq_true] at htest
  obtain ⟨mm, hmm, ⟨h₁, h₂⟩, h₃⟩ := htest
  exact ⟨s, mm, hs, hmm, ⟨⟨h₁, h₂⟩, h₃⟩, trickAgrees_of_run smallVm_start hs hmm⟩

end Vm

end PlumOs
