import PlumOs.Vm.Boot

/-!
# The stores of `setup_initial_pgtables` and the translation they make

* `pgtableStores` : the addresses and words that are stored, in their order, with the `int` shifts
  of the loops;
* `foldl_pgtableStores` : done one after the other they are `setupInitialPgtables`, so that no
  later store falls into an entry of an earlier one;
* `boot_translate` : **the tables map physical memory linearly**, for the kernel only;
* `storesInside_never` : **the stores do not stay in the pages `setup_bitmap` reserves**: the loop
  over the `pte` pages runs to `PTE_T_NUM`, the entries of one page, where 64 pages are reserved.
-/

namespace PlumOs

/-- An `int` that is used as a `uint64_t`. -/
def widen (x : ℤ) : ℕ := (wrap32 x % 2 ^ 64).toNat

/-- The stores of `setup_initial_pgtables`; `PGD_P` and the like are the bits of `PTE_P`. -/
def pgtableStores (b : BootInfo) : List (ℕ × ℕ) :=
  let pgd := b.pgdStart
  let pud := pgd + pgSize
  let pmd := pud + pgSize
  let pte := pmd + pgSize
  [ (pgd + 8 * 0x1ff, pud ||| pteP ||| pteRw),
    (pgd + 8 * 0x1fe, pgd ||| pteP ||| pteRw),
    (pud + 8 * 0x1fe, pmd ||| pteP ||| pteRw) ] ++
  (List.range pmdTNum).map
    (fun i : ℕ => (pmd + 8 * i, (pte + widen (i * 2 ^ 12)) ||| pteP ||| pteRw)) ++
  (List.range pteTNum).flatMap fun i : ℕ =>
    let ptep := pte + widen (i * 2 ^ 12)
    (List.range 512).map fun j : ℕ =>
      (ptep + 8 * j, widen (i * 2 ^ 21 + j * 2 ^ 12) ||| pteP ||| pteRw)

/-- Every store lies in `[pgd_start, pgtable_end)`. -/
def StoresInside (b : BootInfo) : Prop :=
  ∀ st ∈ pgtableStores b, b.pgdStart ≤ st.1 ∧ st.1 + 8 ≤ b.pgtableEnd

/-- The physical address that the processor finds for a virtual one, and whether the user may use it
and whether it may be written to. -/
def bootWalk (mem : Words) (pgd va : ℕ) : Option (ℕ × Bool × Bool) :=
  (Vm.mmuWalk mem pgd (walkIndices va)).map fun x => (x.1 * pgSize + va % pgSize, x.2)

/-! ### One store after the other -/

section Stores

variable {b : BootInfo} {mem : Words}

/-- The shifts of the loops stay below `2 ^ 31`. -/
theorem widen_of_lt {x : ℕ} (h : x < 2 ^ 31) : widen x = x := by
  unfold widen
  rw [wrap32_of_mem (by omega) (by omega)]
  omega

theorem widen_shift {i : ℕ} (hi : i < 512) : widen (i * 2 ^ 12) = i * pgSize := by
  have h := widen_of_lt (x := i * 2 ^ 12) (by omega)
  rw [Nat.cast_mul] at h
  exact h

theorem widen_frame {i j : ℕ} (hi : i < 512) (hj : j < 512) :
    widen (i * 2 ^ 21 + j * 2 ^ 12) = (i * 512 + j) * pgSize := by
  have h := widen_of_lt (x := i * 2 ^ 21 + j * 2 ^ 12) (by omega)
  rw [Nat.cast_add, Nat.cast_mul, Nat.cast_mul] at h
  refine Eq.trans h ?_
  unfold pgSize
  omega

/-- The address of a page and the bits of an entry do not meet. -/
theorem or_bits (pfn : ℕ) : pfn * pgSize ||| pteP ||| pteRw = entry pfn (pteP + pteRw) := by
  have h := (Nat.two_pow_add_eq_or_of_lt (i := 12) (b := 3) (by decide) pfn).symm
  rw [Nat.or_assoc, Nat.mul_comm]
  refine h.trans ?_
  unfold entry pgSize pteP pteRw
  omega

theorem putWord_slot {off : ℕ} (hoff : off < 512) (f w : ℕ) :
    putWord mem (f * pgSize + 8 * off) w = Radix.write mem f off w := by
  have hf : (f * pgSize + 8 * off) / pgSize = f := by unfold pgSize; omega
  have hoff' : (f * pgSize + 8 * off) % pgSize / 8 = off := by unfold pgSize; omega
  unfold putWord
  rw [hf, hoff']

theorem pgdStart_eq (b : BootInfo) : b.pgdStart = b.pgd * pgSize := by
  unfold BootInfo.pgd BootInfo.pgdStart pgAlign pgSize
  omega

theorem pud_mul (b : BootInfo) : b.pgd * pgSize + pgSize = b.pud * pgSize := (Nat.succ_mul _ _).symm

theorem pmd_mul (b : BootInfo) : b.pud * pgSize + pgSize = b.pmd * pgSize := (Nat.succ_mul _ _).symm

theorem pte_mul (b : BootInfo) : b.pmd * pgSize + pgSize = b.pte * pgSize := (Nat.succ_mul _ _).symm

/-- The stores with the tables named. -/
theorem pgtableStores_eq (b : BootInfo) : pgtableStores b =
    [ (b.pgd * pgSize + 8 * 0x1ff, entry b.pud (pteP + pteRw)),
      (b.pgd * pgSize + 8 * 0x1fe, entry b.pgd (pteP + pteRw)),
      (b.pud * pgSize + 8 * 0x1fe, entry b.pmd (pteP + pteRw)) ] ++
    (List.range pmdTNum).map
      (fun i => (b.pmd * pgSize + 8 * i, entry (b.pte + i) (pteP + pteRw))) ++
    (List.range pteTNum).flatMap fun i => (List.range 512).map fun j =>
      ((b.pte + i) * pgSize + 8 * j, entry (i * 512 + j) (pteP + pteRw)) := by
  have hpte : ∀ i : ℕ, i < 512 → b.pte * pgSize + widen (i * 2 ^ 12) = (b.pte + i) * pgSize := by
    intro i hi
    rw [widen_shift hi, Nat.add_mul]
  have hpmd : (List.range pmdTNum).map
      (fun i : ℕ => (b.pmd * pgSize + 8 * i, (b.pte * pgSize + widen (i * 2 ^ 12)) ||| pteP ||| pteRw)) =
      (List.range pmdTNum).map
        (fun i => (b.pmd * pgSize + 8 * i, entry (b.pte + i) (pteP + pteRw))) := by
    refine List.map_congr_left fun i hi => ?_
    rw [List.mem_range, pmdTNum] at hi
    rw [hpte i (by omega), or_bits]
  have hlast : ((List.range pteTNum).flatMap fun i : ℕ => (List.range 512).map fun j : ℕ =>
      (b.pte * pgSize + widen (i * 2 ^ 12) + 8 * j,
        widen (i * 2 ^ 21 + j * 2 ^ 12) ||| pteP ||| pteRw)) =
      (List.range pteTNum).flatMap fun i => (List.range 512).map fun j =>
        ((b.pte + i) * pgSize + 8 * j, entry (i * 512 + j) (pteP + pteRw)) := by
    refine List.flatMap_congr fun i hi => List.map_congr_left fun j hj => ?_
    rw [List.mem_range] at hi hj
    rw [hpte i hi, widen_frame hi hj, or_bits]
  unfold pgtableStores
  simp only [pgdStart_eq, pud_mul, pmd_mul, pte_mul, or_bits]
  rw [hpmd, hlast]

/-- The loop over the `pmd`. -/
theorem fillPmd_stores (b : BootInfo) (mem : Words) :
    (List.range pmdTNum).foldl
      (fun mem i => putWord mem (b.pmd * pgSize + 8 * i) (entry (b.pte + i) (pteP + pteRw))) mem =
    (List.range pmdTNum).foldl
      (fun mem i => Radix.write mem b.pmd i (entry (b.pte + i) (pteP + pteRw))) mem := by
  refine List.foldl_ext _ _ _ fun mem i hi => putWord_slot ?_ _ _
  rw [List.mem_range, pmdTNum] at hi
  omega

/-- The loops over the `pte` pages. -/
theorem fillPte_stores (b : BootInfo) (mem : Words) :
    (List.range pteTNum).foldl (fun mem i => ((List.range 512).map fun j =>
      ((b.pte + i) * pgSize + 8 * j, entry (i * 512 + j) (pteP + pteRw))).foldl
        (fun mem st => putWord mem st.1 st.2) mem) mem =
    (List.range pteTNum).foldl (fun mem i => (List.range 512).foldl
      (fun mem j => Radix.write mem (b.pte + i) j (entry (i * 512 + j) (pteP + pteRw))) mem) mem := by
  refine List.foldl_ext _ _ _ fun mem i _ => ?_
  rw [List.foldl_map]
  refine List.foldl_ext _ _ _ fun mem j hj => ?_
  exact putWord_slot (List.mem_range.1 hj) _ _

theorem foldl_pgtableStores_eq (b : BootInfo) (mem : Words) :
    (pgtableStores b).foldl (fun mem st => putWord mem st.1 st.2) mem =
      (List.range pteTNum).foldl (fun mem i => ((List.range 512).map fun j =>
        ((b.pte + i) * pgSize + 8 * j, entry (i * 512 + j) (pteP + pteRw))).foldl
          (fun mem st => putWord mem st.1 st.2) mem)
        ((List.range pmdTNum).foldl
          (fun mem i => putWord mem (b.pmd * pgSize + 8 * i) (entry (b.pte + i) (pteP + pteRw)))
          (putWord (putWord (putWord mem
            (b.pgd * pgSize + 8 * 0x1ff) (entry b.pud (pteP + pteRw)))
            (b.pgd * pgSize + 8 * 0x1fe) (entry b.pgd (pteP + pteRw)))
            (b.pud * pgSize + 8 * 0x1fe) (entry b.pmd (pteP + pteRw)))) := by
  rw [pgtableStores_eq, List.foldl_append, List.foldl_append, List.foldl_map, List.foldl_flatMap,
    List.foldl_cons, List.foldl_cons, List.foldl_cons, List.foldl_nil]

/-- The list of stores and the function on the tables do the same. -/
theorem foldl_pgtableStores (b : BootInfo) (mem : Words) :
    (pgtableStores b).foldl (fun mem st => putWord mem st.1 st.2) mem =
      setupInitialPgtables b mem := by
  rw [foldl_pgtableStores_eq, fillPte_stores, fillPmd_stores, putWord_slot (by decide),
    putWord_slot (by decide), putWord_slot (by decide), setupInitialPgtables]

end Stores

/-! ### The linear map -/

section Linear

variable {mem : Words} {f table i : ℕ} {is : List ℕ}

/-- A step of the walk through an entry that the kernel made for itself. -/
theorem mmuWalk_entry (h : mem table i = entry f (pteP + pteRw)) :
    Vm.mmuWalk mem table (i :: is) = (Vm.mmuWalk mem f is).map fun x => (x.1, false, x.2.2) := by
  have hbit : ∀ j < 12, (mem table i).testBit j = (pteP + pteRw).testBit j := by
    intro j hj
    rw [h]
    exact Vm.testBit_entry (by decide) j hj
  have hframe : frameOf (mem table i) = f := by
    rw [h]
    unfold frameOf entry pgSize pteP pteRw
    omega
  have hp : (mem table i).testBit 0 = true := hbit 0 (by decide)
  have hrw : (mem table i).testBit 1 = true := hbit 1 (by decide)
  have hus : (mem table i).testBit 2 = false := hbit 2 (by decide)
  rw [Vm.mmuWalk]
  simp only [hp, hrw, hus, hframe, if_true, Bool.false_and, Bool.true_and]

end Linear

theorem walkIndices_pa2va {pa : ℕ} (h : pa < phymemSize) :
    walkIndices (pa2va pa) = [0x1ff, 0x1fe, pa / 2 ^ 21, pa / pgSize % 512] ∧
      pa2va pa % pgSize = pa % pgSize := by
  unfold walkIndices pa2va
  unfold phymemSize at h
  simp only [List.cons.injEq, and_true]
  unfold pgSize
  omega

/-- **The boot tables map physical memory linearly.**  After the stores of `setup_initial_pgtables`,
whatever the memory held before, each physical address below 128 MB is found at `PA2VA` of it,
through entries that are present and writable and not for the user, and the directory's own entry
leads back to it. -/
theorem boot_translate (b : BootInfo) (mem : Words) :
    (∀ pa < phymemSize,
      bootWalk ((pgtableStores b).foldl (fun mem st => putWord mem st.1 st.2) mem) b.pgd (pa2va pa) =
        some (pa, false, true)) ∧
    Vm.mmuWalk ((pgtableStores b).foldl (fun mem st => putWord mem st.1 st.2) mem) b.pgd
      [selfRefIndex] = some (b.pgd, false, true) := by
  rw [foldl_pgtableStores]
  constructor
  · intro pa hpa
    obtain ⟨hwalk, hoff⟩ := walkIndices_pa2va hpa
    have hpmd : pa / 2 ^ 21 < pmdTNum := by unfold phymemSize at hpa; unfold pmdTNum; omega
    have hpte : pa / pgSize % 512 < 512 := Nat.mod_lt _ (by decide)
    have h₁ : setupInitialPgtables b mem b.pgd 0x1ff = entry b.pud (pteP + pteRw) := by
      rw [setupInitialPgtables_pgd, if_neg (by decide), if_pos rfl]
    have h₂ : setupInitialPgtables b mem b.pud 0x1fe = entry b.pmd (pteP + pteRw) := by
      rw [setupInitialPgtables_pud, if_pos rfl]
    have h₃ : setupInitialPgtables b mem b.pmd (pa / 2 ^ 21) =
        entry (b.pte + pa / 2 ^ 21) (pteP + pteRw) := by
      rw [setupInitialPgtables_pmd, if_pos hpmd]
    have h₄ : setupInitialPgtables b mem (b.pte + pa / 2 ^ 21) (pa / pgSize % 512) =
        entry (pa / 2 ^ 21 * 512 + pa / pgSize % 512) (pteP + pteRw) :=
      setupInitialPgtables_pte b mem (by unfold pmdTNum at hpmd; unfold pteTNum; omega) hpte
    have hpa' : (pa / 2 ^ 21 * 512 + pa / pgSize % 512) * pgSize + pa % pgSize = pa := by
      unfold pgSize
      omega
    unfold bootWalk
    rw [hwalk, hoff, mmuWalk_entry h₁, mmuWalk_entry h₂, mmuWalk_entry h₃, mmuWalk_entry h₄]
    simp only [Vm.mmuWalk, Option.map_some, hpa']
  · have hself : setupInitialPgtables b mem b.pgd selfRefIndex = entry b.pgd (pteP + pteRw) := by
      rw [setupInitialPgtables_pgd, if_pos rfl]
    rw [mmuWalk_entry hself]
    rfl

/-! ### Where the stores go -/

section Extent

variable {b : BootInfo} {addr : ℕ}

theorem pgtableEnd_eq (b : BootInfo) : b.pgtableEnd = (b.pte + 64) * pgSize := rfl

/-- Each word of the 512 pages behind the `pmd` is stored to. -/
theorem mem_pgtableStores {i j : ℕ} (hi : i < pteTNum) (hj : j < 512) :
    ((b.pte + i) * pgSize + 8 * j, entry (i * 512 + j) (pteP + pteRw)) ∈ pgtableStores b := by
  rw [pgtableStores_eq]
  refine List.mem_append_right _ (List.mem_flatMap.2 ⟨i, List.mem_range.2 hi, ?_⟩)
  exact List.mem_map.2 ⟨j, List.mem_range.2 hj, rfl⟩

theorem exists_store_above (haddr : 8 ∣ addr) (hlow : b.pgtableEnd ≤ addr)
    (hhigh : addr < b.pgtableEnd + 448 * pgSize) : ∃ w, (addr, w) ∈ pgtableStores b := by
  rw [pgtableEnd_eq] at hlow hhigh
  have hi : addr / pgSize - b.pte < pteTNum := by unfold pteTNum pgSize at *; omega
  have hj : addr % pgSize / 8 < 512 := by unfold pgSize; omega
  have heq : (b.pte + (addr / pgSize - b.pte)) * pgSize + 8 * (addr % pgSize / 8) = addr := by
    unfold pgSize at *
    omega
  have hmem := mem_pgtableStores (b := b) hi hj
  rw [heq] at hmem
  exact ⟨_, hmem⟩

/-- `page_array` is the first of what follows. -/
theorem pageArrayEnd_eq (b : BootInfo) : b.pageArrayEnd + 416 * pgSize = b.pgtableEnd + 448 * pgSize := by
  unfold BootInfo.pageArrayEnd pgAlign
  rw [pgtableEnd_eq]
  unfold pageArraySize pgSize
  omega

theorem not_storesInside (b : BootInfo) : ¬ StoresInside b := by
  have hend : 8 ∣ b.pgtableEnd := by rw [pgtableEnd_eq]; unfold pgSize; omega
  obtain ⟨w, hw⟩ := exists_store_above hend le_rfl (Nat.lt_add_of_pos_right (by decide))
  intro hin
  have hle : b.pgtableEnd + 8 ≤ b.pgtableEnd := (hin _ hw).2
  omega

end Extent

/-- **The stores leave the reserved pages, wherever the kernel image ends.**  They fill all of
`page_array` and 416 more pages behind it. -/
theorem storesInside_never (b : BootInfo) : ¬ StoresInside b ∧
    ∀ addr, 8 ∣ addr → b.pgtableEnd ≤ addr → addr < b.pageArrayEnd + 416 * pgSize →
      ∃ w, (addr, w) ∈ pgtableStores b := by
  refine ⟨not_storesInside b, fun addr haddr hlow hhigh => ?_⟩
  rw [pageArrayEnd_eq] at hhigh
  exact exists_store_above haddr hlow hhigh

/-- With the image ending at `0x23b000` the first word of `page_array` is stored to. -/
theorem storesInside_fails : pgSize ∣ (docLayout 0x23b000).physfree ∧
    ¬ StoresInside (docLayout 0x23b000) :=
  ⟨by decide, not_storesInside _⟩

end PlumOs
