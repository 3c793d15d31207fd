import PlumOs.Vm.Areas
import PlumOs.Vm.Mapping

/-!
# `fork` duplicates the address space

The child of a `fork` gets the list of areas of its parent and the frames that the parent has mapped.
The entries of the pages in writable areas become copy-on-write in both page tables; those of the
pages in read-only areas stay as they are in the parent, and the child may read them.

* `SameProt` : areas of different protection share no page;
* `Duplicated` : the entries that the walks of the parent and of the child find;
* `duplicated_of_run` : **what `fork` does in every reached state**.
-/

namespace PlumOs

open Cow (Mode)

namespace Vm

variable {s s' s₀ : Vm} {a b v f p child : ℕ} {k : Mode} {mm : MmStruct} {vma : Vma}

/-! ### The copy -/

/-- Areas of different protection share no page. -/
def SameProt (mm : MmStruct) : Prop :=
  ∀ x ∈ mm.mmap, ∀ y ∈ mm.mmap, ∀ v ∈ x.pages, v ∈ y.pages → x.prot = y.prot

instance (mm : MmStruct) : Decidable (SameProt mm) :=
  inferInstanceAs (Decidable (∀ x ∈ mm.mmap, ∀ y ∈ mm.mmap, ∀ v ∈ x.pages, v ∈ y.pages → x.prot = y.prot))

/-- The entries of the directory `r` of the parent before a `fork` in `s` and after it in `s'`, and those of
the directory `r'` of the child. -/
structure Duplicated (s s' : Vm) (r r' : ℕ) (mm : MmStruct) : Prop where
  /-- A page that the parent has not mapped is mapped for neither. -/
  absent : ∀ vma ∈ mm.mmap, ∀ v ∈ vma.pages, s.walkEntry r v = none →
    s'.walkEntry r v = none ∧ s'.walkEntry r' v = none
  /-- A page of a writable area is copy-on-write for both, in the frame of the parent. -/
  writable : ∀ vma ∈ mm.mmap, vma.prot = .readWrite → ∀ v ∈ vma.pages, ∀ e, s.walkEntry r v = some e →
    s'.walkEntry r v = some (entry (frameOf e) (pteP + pteCow + pteUs)) ∧
      s'.walkEntry r' v = some (entry (frameOf e) (pteP + pteCow + pteUs))
  /-- A page of a read-only area stays as it is, and the child may read it. -/
  readOnly : ∀ vma ∈ mm.mmap, vma.prot = .readOnly → ∀ v ∈ vma.pages, ∀ e, s.walkEntry r v = some e →
    s'.walkEntry r v = some e ∧ s'.walkEntry r' v = some (entry (frameOf e) (pteP + pteUs))
  /-- Every other translation of the parent, in the user half and in that of the kernel. -/
  parent : ∀ w < 2 ^ 36, (∀ vma ∈ mm.mmap, w ∉ vma.pages) → s'.walkEntry r w = s.walkEntry r w
  /-- Every other translation of a user address for the child. -/
  child : ∀ v < userPages, (∀ vma ∈ mm.mmap, v ∉ vma.pages) → s'.walkEntry r' v = none

/-- The visits of a page say whether its areas are writable. -/
theorem visit_writable {rw : Bool} (hprot : SameProt mm) (hvma : vma ∈ mm.mmap) (hv : v ∈ vma.pages)
    (hvisit : (v, rw) ∈ mmapVisits mm.mmap) : vma.writable = rw := by
  unfold mmapVisits areaVisits at hvisit
  obtain ⟨x, hx, hxv⟩ := List.mem_flatMap.1 hvisit
  obtain ⟨w, hw, heq⟩ := List.mem_map.1 hxv
  obtain ⟨rfl, rfl⟩ := Prod.mk.inj heq
  unfold Vma.writable
  rw [hprot vma hvma x hx w hv hw]

section Forked

variable (h : VmInv s) (hmm : s.mms a = some mm) (hf : Forked s s' a mm child b)

include hmm hf

theorem Forked.roots_parent : s'.roots a = some mm.pgd := by
  have hab : a ≠ b := by
    rintro rfl
    exact absurd (hmm.symm.trans hf.freshMm) (by simp)
  exact roots_of_mm ((hf.spaces a hab).trans hmm)

/-- The pages of the parent and of the child after the `fork`, in the modes that the areas ask for. -/
theorem Forked.ptes_none (hv : s.ptes a v = none) : s'.ptes a v = none ∧ s'.ptes b v = none := by
  have hab : a ≠ b := by
    rintro rfl
    exact absurd (hmm.symm.trans hf.freshMm) (by simp)
  have ha := hf.frames a v
  have hb := hf.frames b v
  rw [if_neg hab, hv, Option.map_none, Option.map_eq_none_iff] at ha
  rw [if_pos rfl, hv, Option.map_none, Option.map_eq_none_iff] at hb
  exact ⟨ha, hb⟩

omit hmm in
theorem Forked.ptes_some (hprot : SameProt mm) (hvma : vma ∈ mm.mmap) (hpage : v ∈ vma.pages)
    (hv : s.ptes a v = some (f, k)) :
    s'.ptes a v = some (f, if vma.writable then .cow else k) ∧
      s'.ptes b v = some (f, Cow.copyMode vma.writable) := by
  constructor
  · rw [hf.parent v, hv, Option.map_some]
    have hvisit : (v, true) ∈ mmapVisits mm.mmap ↔ vma.writable = true :=
      ⟨fun hx => visit_writable hprot hvma hpage hx, fun hx => mem_mmapVisits.2 ⟨vma, hvma, hpage, hx⟩⟩
    simp only [hvisit]
  · have hb := hf.frames b v
    rw [if_pos rfl, hv, Option.map_some, Option.map_eq_some_iff] at hb
    obtain ⟨⟨g, k'⟩, hx, rfl⟩ := hb
    obtain ⟨rw, hvisit, rfl⟩ := hf.mode v g k' hx
    rw [hx, visit_writable hprot hvma hpage hvisit]

include h

/-- The entries of the pages of an area. -/
theorem Forked.entries (hprot : SameProt mm) {r' e : ℕ} (hr' : s'.roots b = some r') (hvma : vma ∈ mm.mmap)
    (hv : v ∈ vma.pages) (he : s.walkEntry mm.pgd v = some e) :
    e = entry (frameOf e) (flagsOf (modeOf e)) ∧
      s'.walkEntry mm.pgd v =
        some (entry (frameOf e) (flagsOf (if vma.writable then .cow else modeOf e))) ∧
      s'.walkEntry r' v = some (entry (frameOf e) (flagsOf (Cow.copyMode vma.writable))) := by
  have hlt := lt_of_mem_pages hv
  have hinv := hf.keeps.inv.tables
  rw [h.tables.walkEntry_eq (roots_of_mm hmm) hlt] at he
  split at he
  · cases he
  next hne =>
  obtain rfl := Option.some.inj he
  have hpte := ptes_of_ne_zero hlt hne
  obtain ⟨ha, hb⟩ := hf.ptes_some hprot hvma hv hpte
  refine ⟨h.tables.pte_of_some hpte, ?_, ?_⟩
  · rw [hinv.walkEntry_eq (hf.roots_parent hmm) hlt, hinv.pte_of_some ha,
      if_neg (entry_ne_zero (flagsOf_lt _).1)]
  · rw [hinv.walkEntry_eq hr' hlt, hinv.pte_of_some hb, if_neg (entry_ne_zero (flagsOf_lt _).1)]

/-- The entries of a page that is not mapped. -/
theorem Forked.entries_none {r' : ℕ} (hr' : s'.roots b = some r') (hv : v < userPages)
    (he : s.walkEntry mm.pgd v = none) :
    s'.walkEntry mm.pgd v = none ∧ s'.walkEntry r' v = none := by
  have hinv := hf.keeps.inv.tables
  rw [h.tables.walkEntry_eq (roots_of_mm hmm) hv] at he
  split at he
  · next h0 =>
    have hnone : s.ptes a v = none := by
      unfold ptes
      rw [if_pos hv, h0]
      rfl
    obtain ⟨ha, hb⟩ := hf.ptes_none hmm hnone
    rw [hinv.walkEntry_eq (hf.roots_parent hmm) hv, hinv.walkEntry_eq hr' hv, pte_of_none hv ha,
      pte_of_none hv hb]
    exact ⟨if_pos rfl, if_pos rfl⟩
  · cases he

omit hf in
/-- Nothing is mapped outside of the areas. -/
theorem VmInv.outside (hv : v < userPages) (hno : ∀ vma ∈ mm.mmap, v ∉ vma.pages) :
    s.walkEntry mm.pgd v = none := by
  rw [h.tables.walkEntry_eq (roots_of_mm hmm) hv, if_pos (pte_of_none hv ?_)]
  cases hx : s.ptes a v with
  | none => rfl
  | some x =>
    obtain ⟨vma, hvma, hpage⟩ := (h.covered a mm v x.1 x.2 hmm hx).1
    exact absurd hpage (hno vma hvma)

/-- **The entries after a `fork`.** -/
theorem Forked.duplicated (hprot : SameProt mm) (hk : s.KernelTables mm.pgd) (hsame : SameTables s s' a)
    {r' : ℕ} (hr' : s'.roots b = some r') : Duplicated s s' mm.pgd r' mm := by
  have hinv := hf.keeps.inv.tables
  have hr := roots_of_mm hmm
  have hrs := hf.roots_parent hmm
  refine ⟨fun vma hvma v hv he => ?_, fun vma hvma hrw v hv e he => ?_, fun vma hvma hro v hv e he => ?_,
    fun w hw hno => ?_, fun v hv hno => ?_⟩
  · exact hf.entries_none h hmm hr' (lt_of_mem_pages hv) he
  · obtain ⟨-, hboth⟩ := hf.entries h hmm hprot hr' hvma hv he
    have hwr : vma.writable = true := by unfold Vma.writable; rw [hrw]; rfl
    rw [hwr] at hboth
    exact hboth
  · obtain ⟨heq, hboth⟩ := hf.entries h hmm hprot hr' hvma hv he
    have hwr : vma.writable = false := by unfold Vma.writable; rw [hro]; rfl
    rw [hwr] at hboth
    exact ⟨hboth.1.trans (congrArg some heq.symm), hboth.2⟩
  · by_cases hself : getPgdOff w = selfRefIndex
    · exact hsame.walkEntry_eq h.tables hinv hk hr hrs hf.keeps.pgdStart hf.mem hself
    · by_cases hupper : 256 ≤ getPgdOff w
      · exact hk.walkEntry_eq h.tables hinv hr hrs hf.keeps.pgdStart hf.mem hupper hself
      · have hlt : w < userPages := by
          rw [getPgdOff_eq] at hupper
          unfold userPages
          omega
        have hnone := h.outside hmm hlt hno
        rw [hnone]
        exact (hf.entries_none h hmm hr' hlt hnone).1
  · exact (hf.entries_none h hmm hr' hv (h.outside hmm hv hno)).2

end Forked

/-- `fork` makes no tables of the parent. -/
theorem Forked.sameTables (h : VmInv s) (hmm : s.mms a = some mm) (hf : Forked s s' a mm child b)
    (hok : s.fork mm = .ok (child, s')) : SameTables s s' a := by
  intro p f
  have hab : a ≠ b := by
    rintro rfl
    exact absurd (hmm.symm.trans hf.freshMm) (by simp)
  constructor
  · intro ht
    obtain ⟨hold, -⟩ | ⟨-, hnew⟩ := fork_newTables h hmm hf hok a p f ht
    · exact hold
    · cases p with
      | nil =>
        obtain ⟨-, r, hr, hn⟩ := ht
        rw [hf.roots_parent hmm] at hr
        exact ⟨userPath_nil, r, (roots_of_mm hmm).trans hr, hn⟩
      | cons i p =>
        obtain ⟨v, ⟨rfl, -⟩, -⟩ := hnew (List.cons_ne_nil i p)
        exact absurd rfl hab
  · exact hf.table a p f

/-- **`fork` duplicates the address space**: the child has the areas of its parent, and the translations of
both are as they should be.  The tables of the kernel half are pages that the kernel uses from the start. -/
theorem duplicated_of_run {acts : List Act} (h : Start s₀) (hrun : run step s₀ acts = .ok s)
    (hp : s.userMm p = some (a, mm)) (hprot : SameProt mm) (hk : s.KernelTables mm.pgd)
    (hfork : s.fork mm = .ok (child, s')) :
    ∃ b pgd, s'.userMm child = some (b, { mm with pgd := pgd }) ∧ Duplicated s s' mm.pgd pgd mm := by
  have hinv := run_inv h hrun
  have hmm := (userMm_eq_some hp).1
  obtain ⟨b, hf⟩ := (fork_spec hinv hmm).of_eq_ok hfork
  obtain ⟨⟨pgd, hchild⟩, -⟩ := hinv.userMm_of_forked hf
  exact ⟨b, pgd, hchild, hf.duplicated hinv hmm hprot hk (hf.sameTables hinv hmm hfork)
    (roots_of_mm (userMm_eq_some hchild).1)⟩

/-- A process with a page in its heap forks. -/
theorem duplicated_heap : ∃ s s' a mm child b pgd, run step bareVm (onceActs.take 4) = .ok s ∧
    s.userMm 700 = some (a, mm) ∧ SameProt mm ∧ s.fork mm = .ok (child, s') ∧
    s'.userMm child = some (b, { mm with pgd := pgd }) ∧ Duplicated s s' mm.pgd pgd mm := by
  have hrun : reaches (run step bareVm (onceActs.take 4)) (fun s => (s.userMm 700).any fun x =>
      decide (SameProt x.2) && reaches (s.fork x.2) fun _ => true) = true := by decide +kernel
  obtain ⟨s, hs, htest⟩ := exists_of_reaches hrun
  simp only [Option.any_eq_true, Bool.and_eq_true, decide_eq_true_eq] at htest
  obtain ⟨⟨a, mm⟩, hmm, hprot, hfork⟩ := htest
  obtain ⟨⟨child, s'⟩, hs', -⟩ := exists_of_reaches hfork
  obtain ⟨b, pgd, hchild, hdup⟩ := duplicated_of_run bareVm_start hs hmm hprot
    (kernelTables_bareVm hs (roots_of_mm (userMm_eq_some hmm).1)) hs'
  exact ⟨s, s', a, mm, child, b, pgd, hs, hmm, hprot, hs', hchild, hdup⟩

end Vm

end PlumOs
