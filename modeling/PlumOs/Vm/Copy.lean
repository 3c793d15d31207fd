import PlumOs.Vm.Isolation

/-!
# Copies between the kernel and the user (`sys/syscall.c`)

`copy_from_kernel` and `copy_from_user` map the page of the first address and then go through the
bytes in kernel mode.  There the processor looks at the presence of a page only, so a store does not
break sharing, and a page that is not present is a fault that `page_fault_handler` does not handle.

* `copyFromKernel`, `copyFromUser` : the two functions;
* `kernelStores_spec` : **the stores** need all the pages, and go to the frames that are mapped;
* `noKernelFault_iff` : **the copies run into no page fault exactly if** the pages of the range behind
  the first one are mapped before, and that of the first byte can be brought in;
* `noKernelFault_fails` : two bytes on two pages of a heap.
-/

namespace PlumOs

open Cow (Mode)

namespace Vm

/-- `*(ubuf + i) = *(kbuf + i)`, for the bytes of the kernel. -/
def kernelStores (pgd : ℕ) : Vm → ℕ → List ℕ → Except Stop Vm
  | s, _, [] => .ok s
  | s, addr, b :: bytes => do
    let s ← s.kernelStore pgd addr b
    kernelStores pgd s (addr + 1) bytes

/-- `*(ubuf + i) = *(kbuf + i)`, for `n` bytes from the address `src` of the kernel on. -/
def kernelCopy (pgd : ℕ) : ℕ → ℕ → ℕ → Vm → Except Stop Vm
  | 0, _, _, s => .ok s
  | n + 1, src, dst, s => do
    let b ← s.kernelLoad pgd (src % 2 ^ 64)
    let s ← s.kernelStore pgd dst b
    kernelCopy pgd n (src + 1) (dst + 1) s

/-- `*(kbuf + i) = *(ubuf + i)`, for `n` bytes of the user. -/
def kernelLoads (s : Vm) (pgd : ℕ) : ℕ → ℕ → Except Stop (List ℕ)
  | _, 0 => .ok []
  | addr, n + 1 => do
    let frame ← s.kernelFrame pgd addr
    let bytes ← s.kernelLoads pgd (addr + 1) n
    .ok (pageByte (s.mem frame) (addr % pgSize) :: bytes)

/-- `copy_from_kernel`, which returns 0 or -1. -/
def copyFromKernel (s : Vm) (mm : MmStruct) (ubuf : ℕ) (bytes : List ℕ) : Except Stop (ℤ × Vm) :=
  match searchVma ubuf mm with
  | some vma => do
    let s ← s.mapAPage mm.pgd vma ubuf
    let s ← kernelStores mm.pgd s ubuf bytes
    .ok (0, s)
  | none => .ok (-1, s)

/-- `copy_from_kernel`, of `n` bytes from the address `src` of the kernel on. -/
def copyFromMemory (s : Vm) (mm : MmStruct) (ubuf src n : ℕ) : Except Stop (ℤ × Vm) :=
  match searchVma ubuf mm with
  | some vma => do
    let s ← s.mapAPage mm.pgd vma ubuf
    let s ← kernelCopy mm.pgd n src ubuf s
    .ok (0, s)
  | none => .ok (-1, s)

/-- `copy_from_user`: the bytes that are in `kbuf` afterwards. -/
def copyFromUser (s : Vm) (mm : MmStruct) (ubuf n : ℕ) : Except Stop (List ℕ × Vm) := do
  let s ← match searchVma ubuf mm with
    | some vma => s.mapAPage mm.pgd vma ubuf
    | none => .ok s
  let bytes ← s.kernelLoads mm.pgd ubuf n
  .ok (bytes, s)

/-! ### What an access does -/

variable {s s' s₀ : Vm} {a b v w f g r t q addr n : ℕ} {k : Mode} {mm : MmStruct} {vma : Vma}
  {bytes : List ℕ}

/-- `map_a_page` does nothing for a page that is mapped. -/
theorem mapAPage_of_mapped (h : s.roots a = some r)
    (hmap : s.ptes a (addr / pgSize) = some (f, k)) (vma : Vma) :
    s.mapAPage r vma addr = .ok s := by
  obtain ⟨hv, table, ht, hne, -, -⟩ := exists_table_of_ptes hmap
  obtain ⟨pud, pmd, h0, rfl, -, h1, rfl, -, h2, rfl⟩ := ht.walk h hv
  simp only [mapAPage, reservePage, nextTable, if_neg h0, if_neg h1, if_neg h2, if_neg hne, ok_bind]

/-- No frame is at two pages of the address space `a`. -/
def AlignedIn (s : Vm) (a : ℕ) : Prop :=
  ∀ v w f k k', s.ptes a v = some (f, k) → s.ptes a w = some (f, k') → v = w

theorem VmInv.alignedIn (h : VmInv s) (a : ℕ) : s.AlignedIn a :=
  fun v w f k k' => h.cow.aligned a a v w f k k'

/-- What the stores of some bytes from `addr` on leave behind: the page tables as they were, and the
bytes in the pages of the address space `a`. -/
structure Written (s s' : Vm) (a addr : ℕ) (bytes : List ℕ) : Prop where
  mms : s'.mms = s.mms
  tasks : s'.tasks = s.tasks
  archive : s'.archive = s.archive
  ptes : s'.ptes = s.ptes
  /-- The pages of `a` hold the bytes. -/
  own : ∀ v f k off, off < pgSize → s.ptes a v = some (f, k) → pageByte (s'.mem f) off =
    if addr ≤ v * pgSize + off ∧ v * pgSize + off < addr + bytes.length then
      bytes.getD (v * pgSize + off - addr) 0 % 256
    else pageByte (s.mem f) off
  /-- The pages that `a` has not got are as they were. -/
  other : ∀ b w f k, s.ptes b w = some (f, k) → (∀ v k', s.ptes a v ≠ some (f, k')) →
    s'.mem f = s.mem f

theorem Written.nil : Written s s a addr [] where
  mms := rfl
  tasks := rfl
  archive := rfl
  ptes := rfl
  own v f k off _ _ := by
    rw [if_neg (by simp)]
  other _ _ _ _ _ _ := rfl

/-- One byte, before the others. -/
theorem Written.cons {byte : ℕ} (h : TableInv s) (hal : s.AlignedIn a)
    (hmap : s.ptes a (addr / pgSize) = some (f, k))
    (hw : Written (s.putPage f (pageSetByte (s.mem f) (addr % pgSize) byte)) s' a (addr + 1) bytes) :
    Written s s' a addr (byte :: bytes) where
  mms := hw.mms
  tasks := hw.tasks
  archive := hw.archive
  ptes := hw.ptes.trans (h.putPage (h.data hmap).2 _).2.1
  own v g k' off hoff hg := by
    have hptes := (h.putPage (h.data hmap).2
      (pageSetByte (s.mem f) (addr % pgSize) byte)).2.1
    have hown := hw.own v g k' off hoff (by rw [hptes]; exact hg)
    -- the frame is that of the byte only if the page is
    have hpage : g = f ↔ v = addr / pgSize := by
      constructor
      · rintro rfl
        exact hal v _ g k' k hg hmap
      · rintro rfl
        exact (Prod.mk.inj (Option.some.inj (hg.symm.trans hmap))).1
    have hstored : pageByte ((s.putPage f (pageSetByte (s.mem f) (addr % pgSize) byte)).mem g) off =
        if v * pgSize + off = addr then byte % 256 else pageByte (s.mem g) off := by
      by_cases hgf : g = f
      · have hmem : (s.putPage f (pageSetByte (s.mem f) (addr % pgSize) byte)).mem g =
            pageSetByte (s.mem f) (addr % pgSize) byte := by
          rw [hgf]
          exact Function.update_self ..
        have hoffs : off = addr % pgSize ↔ v * pgSize + off = addr := by
          have hv := hpage.1 hgf
          unfold pgSize at hoff hv ⊢
          omega
        rw [hmem, pageByte_pageSetByte, hgf]
        simp only [hoffs]
      · have hmem : (s.putPage f (pageSetByte (s.mem f) (addr % pgSize) byte)).mem g = s.mem g :=
          Function.update_of_ne hgf ..
        rw [hmem, if_neg fun heq => hgf (hpage.2 (by unfold pgSize at heq hoff ⊢; omega))]
    rw [hown, hstored]
    -- the first byte, one of the others, or a byte outside of the range
    generalize hx : v * pgSize + off = x
    by_cases heq : x = addr
    · rw [if_neg (by omega), if_pos heq, if_pos (by rw [List.length_cons]; omega), heq, Nat.sub_self]
      rfl
    · rw [if_neg heq]
      by_cases hin : addr ≤ x ∧ x < addr + (byte :: bytes).length
      · have hsub : x - addr = x - (addr + 1) + 1 := by omega
        rw [List.length_cons] at hin
        rw [if_pos (by omega), if_pos (by rw [List.length_cons]; omega), hsub, List.getD_cons_succ]
      · rw [List.length_cons] at hin
        rw [if_neg (by omega), if_neg (by rw [List.length_cons]; omega)]
  other b w g k' hk hg := by
    have hptes := (h.putPage (h.data hmap).2
      (pageSetByte (s.mem f) (addr % pgSize) byte)).2.1
    refine (hw.other b w g k' (by rw [hptes]; exact hk) (by rw [hptes]; exact hg)).trans
      (Function.update_of_ne ?_ ..)
    rintro rfl
    exact hg _ k hmap

/-- A condition on a range of addresses, split at the first one. -/
theorem forall_range_succ {P : ℕ → Prop} (addr n : ℕ) :
    (∀ i < n + 1, P (addr + i)) ↔ P addr ∧ ∀ i < n, P (addr + 1 + i) := by
  constructor
  · intro hall
    refine ⟨hall 0 (Nat.succ_pos n), fun i hi => ?_⟩
    rw [Nat.add_assoc, Nat.add_comm 1]
    exact hall (i + 1) (by omega)
  · rintro ⟨hfirst, hrest⟩ i hi
    cases i with
    | zero => exact hfirst
    | succ i =>
      rw [Nat.add_comm i, ← Nat.add_assoc]
      exact hrest i (by omega)

theorem exists_range_succ {P : ℕ → Prop} {addr n : ℕ} (h : ∃ i < n, P (addr + 1 + i)) :
    ∃ i < n + 1, P (addr + i) := by
  by_contra hnone
  obtain ⟨i, hi, hP⟩ := h
  have hall : ∀ i < n + 1, ¬ P (addr + i) := fun i hi hP => hnone ⟨i, hi, hP⟩
  exact ((forall_range_succ (P := fun x => ¬ P x) addr n).1 hall).2 i hi hP

/-- **The stores** go through if all the pages are mapped, and end in a page fault otherwise. -/
theorem kernelStores_spec (h : TableInv s) (hal : s.AlignedIn a) (hr : s.roots a = some r) (addr : ℕ)
    (bytes : List ℕ) :
    (∀ i < bytes.length, s.ptes a ((addr + i) / pgSize) ≠ none) ∧
        (∃ s', kernelStores r s addr bytes = .ok s' ∧ TableInv s' ∧ Written s s' a addr bytes) ∨
      (∃ i < bytes.length, s.ptes a ((addr + i) / pgSize) = none) ∧
        kernelStores r s addr bytes = .error .kernelFault := by
  induction bytes generalizing s addr with
  | nil => exact .inl ⟨fun i hi => absurd hi (by simp), s, rfl, h, Written.nil⟩
  | cons byte bytes ih =>
    rw [kernelStores, kernelStore, h.kernelFrame_eq hr]
    cases hmap : s.ptes a (addr / pgSize) with
    | none => exact .inr ⟨⟨0, by simp, hmap⟩, rfl⟩
    | some x =>
      obtain ⟨f, k⟩ := x
      obtain ⟨htables, hptes, -⟩ := h.putPage (h.data hmap).2
        (pageSetByte (s.mem f) (addr % pgSize) byte)
      have hal' : (s.putPage f (pageSetByte (s.mem f) (addr % pgSize) byte)).AlignedIn a := by
        rw [AlignedIn, hptes]
        exact hal
      have hfirst : s.ptes a (addr / pgSize) ≠ none := by
        rw [hmap]
        simp
      rcases ih htables hal' hr (addr + 1) with ⟨hall, s', hs', ht', hw⟩ | ⟨hnone, herr⟩
      · rw [hptes] at hall
        refine .inl ⟨?_, s', hs', ht', hw.cons h hal hmap⟩
        exact (forall_range_succ (P := fun x => s.ptes a (x / pgSize) ≠ none) addr _).2 ⟨hfirst, hall⟩
      · rw [hptes] at hnone
        exact .inr ⟨exists_range_succ (P := fun x => s.ptes a (x / pgSize) = none) hnone, herr⟩

/-- The stores take and free no page. -/
theorem pages_kernelStores (hok : kernelStores r s addr bytes = .ok s') : s'.pages = s.pages := by
  induction bytes generalizing s addr with
  | nil =>
    obtain rfl := Except.ok.inj hok
    rfl
  | cons byte bytes ih =>
    obtain ⟨s₁, hstore, hrest⟩ := bind_eq_ok.1 hok
    obtain ⟨frame, -, hput⟩ := bind_eq_ok.1 hstore
    obtain rfl := Except.ok.inj hput
    have hpages := ih hrest
    exact hpages

/-- **The loads** likewise. -/
theorem kernelLoads_spec (h : TableInv s) (hr : s.roots a = some r) (addr n : ℕ) :
    (∀ i < n, s.ptes a ((addr + i) / pgSize) ≠ none) ∧ (∃ bytes, s.kernelLoads r addr n = .ok bytes) ∨
      (∃ i < n, s.ptes a ((addr + i) / pgSize) = none) ∧
        s.kernelLoads r addr n = .error .kernelFault := by
  induction n generalizing addr with
  | zero => exact .inl ⟨fun i hi => absurd hi (by simp), [], rfl⟩
  | succ n ih =>
    rw [kernelLoads, h.kernelFrame_eq hr]
    cases hmap : s.ptes a (addr / pgSize) with
    | none => exact .inr ⟨⟨0, by simp, hmap⟩, rfl⟩
    | some x =>
      have hfirst : s.ptes a (addr / pgSize) ≠ none := by
        rw [hmap]
        simp
      rcases ih (addr + 1) with ⟨hall, bytes, hbytes⟩ | ⟨hnone, herr⟩
      · simp only [ok_bind, hbytes]
        refine .inl ⟨?_, _, rfl⟩
        exact (forall_range_succ (P := fun x => s.ptes a (x / pgSize) ≠ none) addr n).2 ⟨hfirst, hall⟩
      · simp only [ok_bind, herr]
        exact .inr ⟨exists_range_succ (P := fun x => s.ptes a (x / pgSize) = none) hnone, rfl⟩

/-! ### Page faults in kernel mode -/

/-- After `map_a_page` the page is there, and the others are as before. -/
theorem ptes_mapAPage (h : VmInv s) (hmm : s.mms a = some mm) (hfind : searchVma addr mm = some vma)
    (hok : s.mapAPage mm.pgd vma addr = .ok s') :
    VmInv s' ∧ s'.roots a = some mm.pgd ∧ s'.ptes a (addr / pgSize) ≠ none ∧
      ∀ v, v ≠ addr / pgSize → s'.ptes a v = s.ptes a v := by
  obtain ⟨hvma, hholds⟩ := holds_of_searchVma hfind
  have hpage := mem_pages_of_holds hholds
  obtain ⟨hkeeps, hmms, -⟩ := (keeps_mapAPage (o := True) h hmm hvma hpage).of_eq_ok hok
  refine ⟨hkeeps.inv, by rw [Vm.roots, hmms]; exact roots_of_mm hmm, ?_⟩
  have hspec := (mapAPage_spec h.tables (roots_of_mm hmm) (lt_of_mem_pages hpage) vma).of_eq_ok hok
  rcases hspec with ⟨hne, -, hgrown⟩ | ⟨-, g, page, hm, -⟩
  · rw [hgrown.ptes]
    exact ⟨hne, fun _ _ => rfl⟩
  · rw [hm.ptes]
    exact ⟨by rw [Cow.set_self]; simp, fun v hv => Cow.set_of_ne fun he => hv he.2⟩

/-- The first page can be brought in from its file, and the others of the range from `ubuf` on are mapped;
or no page can be mapped, so that the kernel stops before it copies. -/
def CopyReady (s : Vm) (a : ℕ) (mm : MmStruct) (ubuf n : ℕ) : Prop :=
  (∃ vma e, searchVma ubuf mm = some vma ∧ s.mapAPage mm.pgd vma ubuf = .error e ∧ e ≠ .kernelFault) ∨
    (∀ vma, searchVma ubuf mm = some vma → s.mapAPage mm.pgd vma ubuf ≠ .error .kernelFault) ∧
      ∀ i < n, (ubuf + i) / pgSize ≠ ubuf / pgSize → s.ptes a ((ubuf + i) / pgSize) ≠ none

section Ready

variable {ubuf : ℕ} (h : VmInv s) (hmm : s.mms a = some mm) (hfind : searchVma ubuf mm = some vma)

include h hmm hfind

/-- The condition, if the first page can be mapped: then all the pages are there for the copy. -/
theorem copyReady_iff (hok : s.mapAPage mm.pgd vma ubuf = .ok s') :
    CopyReady s a mm ubuf n ↔ ∀ i < n, s'.ptes a ((ubuf + i) / pgSize) ≠ none := by
  obtain ⟨-, -, hfirst, hothers⟩ := ptes_mapAPage h hmm hfind hok
  constructor
  · rintro (⟨vma', e, hfind', herr, -⟩ | ⟨-, hall⟩) i hi
    · obtain rfl := Option.some.inj (hfind.symm.trans hfind')
      rw [hok] at herr
      cases herr
    · by_cases hpage : (ubuf + i) / pgSize = ubuf / pgSize
      · rwa [hpage]
      · rw [hothers _ hpage]
        exact hall i hi hpage
  · refine fun hall => .inr ⟨fun vma' hfind' herr => ?_, fun i hi hpage => ?_⟩
    · obtain rfl := Option.some.inj (hfind.symm.trans hfind')
      rw [hok] at herr
      cases herr
    · rw [← hothers _ hpage]
      exact hall i hi

/-- A copy behind `map_a_page`, if it needs the pages of its range and nothing else. -/
theorem fault_iff {α : Type} {f : Vm → Except Stop α} (hf : ∀ s₁, VmInv s₁ → s₁.roots a = some mm.pgd →
      (∀ i < n, s₁.ptes a ((ubuf + i) / pgSize) ≠ none) ∧ (∃ y, f s₁ = .ok y) ∨
        (∃ i < n, s₁.ptes a ((ubuf + i) / pgSize) = none) ∧ f s₁ = .error .kernelFault) :
    (s.mapAPage mm.pgd vma ubuf >>= f) ≠ .error .kernelFault ↔ CopyReady s a mm ubuf n := by
  cases hok : s.mapAPage mm.pgd vma ubuf with
  | error e =>
    constructor
    · exact fun hne => .inl ⟨vma, e, hfind, hok, fun he => hne (by rw [he]; rfl)⟩
    · rintro (⟨vma', e', hfind', herr, hne⟩ | ⟨hno, -⟩) he
      · obtain rfl := Option.some.inj (hfind.symm.trans hfind')
        obtain rfl := Except.error.inj (hok.symm.trans herr)
        exact hne (Except.error.inj he)
      · exact hno vma hfind (by rw [hok, Except.error.inj he])
  | ok s₁ =>
    obtain ⟨hinv, hr, -⟩ := ptes_mapAPage h hmm hfind hok
    rw [copyReady_iff h hmm hfind hok, ok_bind]
    rcases hf s₁ hinv hr with ⟨hall, y, hy⟩ | ⟨⟨i, hi, hnone⟩, herr⟩
    · rw [hy]
      exact ⟨fun _ => hall, fun _ he => by cases he⟩
    · rw [herr]
      exact ⟨fun hne => absurd rfl hne, fun hall => absurd hnone (hall i hi)⟩

theorem copyFromKernel_fault_iff (bytes : List ℕ) :
    s.copyFromKernel mm ubuf bytes ≠ .error .kernelFault ↔ CopyReady s a mm ubuf bytes.length := by
  simp only [copyFromKernel, hfind]
  apply fault_iff h hmm hfind
  intro s₁ hinv hr
  rcases kernelStores_spec hinv.tables (hinv.alignedIn a) hr ubuf bytes with
    ⟨hall, s', hs', -⟩ | ⟨hnone, herr⟩
  · rw [hs']
    exact .inl ⟨hall, _, rfl⟩
  · rw [herr]
    exact .inr ⟨hnone, rfl⟩

theorem copyFromUser_fault_iff (n : ℕ) :
    s.copyFromUser mm ubuf n ≠ .error .kernelFault ↔ CopyReady s a mm ubuf n := by
  simp only [copyFromUser, hfind]
  apply fault_iff h hmm hfind
  intro s₁ hinv hr
  rcases kernelLoads_spec hinv.tables hr ubuf n with ⟨hall, bytes, hbytes⟩ | ⟨hnone, herr⟩
  · rw [hbytes]
    exact .inl ⟨hall, _, rfl⟩
  · rw [herr]
    exact .inr ⟨hnone, rfl⟩

end Ready

/-- An address of an area is found. -/
theorem exists_searchVma (hvma : vma ∈ mm.mmap) (hholds : vma.Holds addr) :
    ∃ vma', searchVma addr mm = some vma' := by
  refine Option.isSome_iff_exists.1 (List.find?_isSome.2 ⟨vma, hvma, ?_⟩)
  exact decide_eq_true hholds

/-- **The copies run into no page fault exactly if** the pages of the range behind the first one are
mapped before, and that of the first byte can be brought in. -/
theorem noKernelFault_iff {acts : List Act} (h : Start s₀) (hrun : run step s₀ acts = .ok s)
    (ht : s.userMm t = some (a, mm)) (hvma : vma ∈ mm.mmap) {ubuf : ℕ} (bytes : List ℕ)
    (hrange : ∀ i < bytes.length, vma.Holds (ubuf + i)) :
    (s.copyFromKernel mm ubuf bytes ≠ .error .kernelFault ↔ CopyReady s a mm ubuf bytes.length) ∧
      (s.copyFromUser mm ubuf bytes.length ≠ .error .kernelFault ↔
        CopyReady s a mm ubuf bytes.length) := by
  have hinv := run_inv h hrun
  have hmm := (userMm_eq_some ht).1
  cases hfind : searchVma ubuf mm with
  | some vma' =>
    exact ⟨copyFromKernel_fault_iff hinv hmm hfind bytes, copyFromUser_fault_iff hinv hmm hfind _⟩
  | none =>
    -- an address outside of all the areas is possible only for an empty range
    have hempty : bytes = [] := by
      cases bytes with
      | nil => rfl
      | cons byte bytes =>
        obtain ⟨vma', hfind'⟩ := exists_searchVma hvma (hrange 0 (by simp))
        rw [Nat.add_zero, hfind] at hfind'
        cases hfind'
    have hready : CopyReady s a mm ubuf bytes.length := by
      rw [hempty]
      refine .inr ⟨fun vma' hfind' => ?_, fun i hi => absurd hi (by simp)⟩
      rw [hfind] at hfind'
      cases hfind'
    rw [copyFromKernel, copyFromUser, hfind, hempty] at *
    exact ⟨⟨fun _ => hready, fun _ he => by cases he⟩, ⟨fun _ => hready, fun _ he => by cases he⟩⟩

/-- The first task has a heap of two pages, of which `touch` may be mapped. -/
def twoPageActs (touch : Option UserAddr) : List Act :=
  [.kernelThread, .exec 700 none (fun _ => 0) smallProgram, .brk 700 0x403000] ++
    touch.toList.map fun addr => .store 700 addr 7

/-- A range over two pages of the heap, the second of which is mapped. -/
theorem noKernelFault_mapped : ∃ s a mm,
    run step smallVm (twoPageActs (some ⟨0x402000, by decide⟩)) = .ok s ∧
      s.userMm 700 = some (a, mm) ∧
      (s.copyFromKernel mm 0x401fff [1, 2] ≠ .error .kernelFault ↔ CopyReady s a mm 0x401fff 2) ∧
      (s.copyFromUser mm 0x401fff 2 ≠ .error .kernelFault ↔ CopyReady s a mm 0x401fff 2) := by
  have hrun : reaches (run step smallVm (twoPageActs (some ⟨0x402000, by decide⟩))) (fun s =>
      (s.userMm 700).any fun x => x.2.mmap.any fun vma =>
        decide (vma.Holds 0x401fff) && decide (vma.Holds 0x402000)) = true := by
    decide +kernel
  obtain ⟨s, hs, htest⟩ := exists_of_reaches hrun
  obtain ⟨⟨a, mm⟩, hmm, hany⟩ := (Option.any_eq_true _ _).1 htest
  obtain ⟨vma, hvma, hholds⟩ := List.any_eq_true.1 hany
  simp only [Bool.and_eq_true, decide_eq_true_eq] at hholds
  refine ⟨s, a, mm, hs, hmm, noKernelFault_iff smallVm_start hs hmm hvma [1, 2] fun i hi => ?_⟩
  obtain rfl | rfl : i = 0 ∨ i = 1 := by
    rw [List.length_cons, List.length_singleton] at hi
    omega
  exacts [hholds.1, hholds.2]

/-- The same range, with neither page mapped: the second byte has no page. -/
theorem noKernelFault_fails : ¬∀ (s₀ : Vm) (acts : List Act) (s : Vm) (t a : ℕ) (mm : MmStruct)
    (vma : Vma) (ubuf : ℕ) (bytes : List ℕ), Start s₀ → run step s₀ acts = .ok s →
      s.userMm t = some (a, mm) → vma ∈ mm.mmap → (∀ i < bytes.length, vma.Holds (ubuf + i)) →
      s.copyFromKernel mm ubuf bytes ≠ .error .kernelFault ∧
        s.copyFromUser mm ubuf bytes.length ≠ .error .kernelFault := by
  intro hall
  have hrun : reaches (run step smallVm (twoPageActs none)) (fun s =>
      (s.userMm 700).any fun x => (x.2.mmap.any fun vma =>
        decide (vma.Holds 0x401fff) && decide (vma.Holds 0x402000)) &&
        match s.copyFromKernel x.2 0x401fff [1, 2] with
        | .error e => decide (e = .kernelFault)
        | .ok _ => false) = true := by
    decide +kernel
  obtain ⟨s, hs, htest⟩ := exists_of_reaches hrun
  obtain ⟨⟨a, mm⟩, hmm, hany⟩ := (Option.any_eq_true _ _).1 htest
  obtain ⟨harea, hfault⟩ := Bool.and_eq_true_iff.1 hany
  obtain ⟨vma, hvma, hholds⟩ := List.any_eq_true.1 harea
  simp only [Bool.and_eq_true, decide_eq_true_eq] at hholds
  refine (hall smallVm _ s 700 a mm vma 0x401fff [1, 2] smallVm_start hs hmm hvma
    (fun i hi => ?_)).1 ?_
  · obtain rfl | rfl : i = 0 ∨ i = 1 := by
      rw [List.length_cons, List.length_singleton] at hi
      omega
    exacts [hholds.1, hholds.2]
  · split at hfault
    · next e he => rw [he, of_decide_eq_true hfault]
    · cases hfault

end Vm

end PlumOs
