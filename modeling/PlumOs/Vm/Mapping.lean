import PlumOs.Vm.Copy
import PlumOs.Vm.Walk

/-!
# `map_a_page` maps one page (`sys/mm.c`)

The walk of the kernel goes down from the directory to the entry of a page.  `map_a_page` adds tables
on the way to the page and its entry, and nothing else; but the pages behind the entry 0x1fe of the
directory are the tables themselves, so that the new ones appear there.

* `MapsOnly`, `mapAPage_maps_only` : **what `map_a_page` does to the walks** of all page numbers but
  those behind the entry 0x1fe;
* `mapAPage_fails` : a page number behind that entry.
-/

namespace PlumOs

namespace Vm

variable {s s' : Vm} {a b f g i r v w addr : ℕ} {k : Cow.Mode} {vma : Vma}

/-! ### The mapping -/

/-- The entries of the directory `r` after `map_a_page` for the page `v` of an area. -/
structure MapsOnly (s s' : Vm) (r v : ℕ) (prot : Prot) : Prop where
  present : ∃ e, s'.walkEntry r v = some e ∧ e.testBit 2 = true
  /-- If the page was mapped, nothing happens. -/
  same : s.walkEntry r v ≠ none → s' = s
  /-- Otherwise its frame was mapped for no page of a user, and the entry has the flags of the area. -/
  fresh : s.walkEntry r v = none → ∃ g,
    s'.walkEntry r v = some (entry g (pteP + prot.bits + pteUs)) ∧
      ∀ b r' w e, s.roots b = some r' → w < userPages → s.walkEntry r' w = some e → frameOf e ≠ g
  others : ∀ w < 2 ^ 36, w ≠ v → getPgdOff w ≠ selfRefIndex → s'.walkEntry r w = s.walkEntry r w

theorem flagsOf_mode (prot : Prot) : flagsOf prot.mode = pteP + prot.bits + pteUs := by
  cases prot <;> rfl

/-- **`map_a_page` maps one page.** -/
theorem mapAPage_maps_only (h : TableInv s) (hk : s.KernelTables r) (hr : s.roots a = some r)
    (hv : addr / pgSize < userPages) (vma : Vma) :
    Yields (s.mapAPage r vma addr) (fun s' => MapsOnly s s' r (addr / pgSize) vma.prot) fun _ => True := by
  obtain ⟨v, hva⟩ : ∃ v, v = addr / pgSize := ⟨_, rfl⟩
  have hwalk := h.walkEntry_eq hr hv
  cases hpte : s.ptes a (addr / pgSize) with
  | some x =>
    obtain ⟨g, k⟩ := x
    rw [h.pte_of_some hpte, if_neg (entry_ne_zero (flagsOf_lt k).1)] at hwalk
    rw [mapAPage_of_mapped hr hpte]
    refine ⟨⟨_, hwalk, ?_⟩, fun _ => rfl, fun hnone => ?_, fun _ _ _ _ => rfl⟩
    · rw [testBit_entry (flagsOf_lt k).2 2 (by decide)]
      cases k <;> decide
    · rw [hwalk] at hnone
      cases hnone
  | none =>
    rw [pte_of_none hv hpte, if_pos rfl] at hwalk
    refine (mapAPage_spec h hr hv vma).mono ?_
    rintro s' (⟨hne, -⟩ | ⟨-, g, page, hm, -⟩)
    · exact absurd hpte hne
    rw [← hva] at hm hv hwalk hpte ⊢
    have h' := hm.tables
    have hr' : s'.roots a = some r := by
      rw [roots, hm.mms]
      exact hr
    have hnew : s'.walkEntry r v = some (entry g (pteP + vma.prot.bits + pteUs)) := by
      have hset : s'.ptes a v = some (g, vma.prot.mode) := by
        rw [hm.ptes]
        exact Cow.set_self _
      rw [h'.walkEntry_eq hr' hv, h'.pte_of_some hset, if_neg (entry_ne_zero (flagsOf_lt _).1),
        flagsOf_mode]
    refine ⟨⟨_, hnew, ?_⟩, fun hne => absurd hwalk hne, fun _ => ⟨g, hnew, ?_⟩, fun w hw hwv hself => ?_⟩
    · rw [testBit_entry vma.prot.flags.2.1 2 (by decide)]
      cases vma.prot <;> decide
    · -- a frame that is mapped is in use
      intro b r' w e hb hw he
      rw [h.walkEntry_eq hb hw] at he
      split at he
      · cases he
      · next hne =>
        have hlive := (h.frames b w _ _ (ptes_of_ne_zero hw hne)).1
        rw [Option.some.inj he] at hlive
        rintro rfl
        exact hlive hm.free
    · by_cases hupper : 256 ≤ getPgdOff w
      · exact hk.walkEntry_eq h h' hr hr' hm.pgdStart hm.mem hupper hself
      · have hwu : w < userPages := by
          rw [getPgdOff_eq] at hupper
          unfold userPages
          omega
        have hsame : s'.ptes a w = s.ptes a w := by
          rw [hm.ptes]
          exact Cow.set_of_ne fun hboth => hwv hboth.2
        rw [h.walkEntry_eq hr hwu, h'.walkEntry_eq hr' hwu, h.pte_congr h' hwu hsame]

/-! ### A page of the tables -/

theorem ne_selfRefIndex {off : ℕ} (hoff : off < 256) : off ≠ selfRefIndex := by
  unfold selfRefIndex
  omega

/-- A machine with a hundred free frames, and with nothing in the kernel half but the directories. -/
def bareVm : Vm where
  pages := smallVm.pages
  mem := smallVm.mem
  mms := smallVm.mms
  tasks := smallVm.tasks
  archive := smallVm.archive
  kernel := smallVm.kernel
  pgdStart := fun off => if off = selfRefIndex then entry 600 (pteP + pteRw) else 0
  pgdUser := fun _ hoff => if_neg (ne_selfRefIndex hoff)

theorem bareVm_start : Start bareVm :=
  ⟨smallVm_start.counts, smallVm_start.noSpace, smallVm_start.noTask⟩

theorem kernelTables_bareVm {acts : List Act} (hrun : run step bareVm acts = .ok s)
    (hr : s.roots a = some r) : s.KernelTables r := by
  intro i is f hupper hself _ hwalk
  have hpgd : s.pgdStart i = 0 := by
    rw [(run_keeps bareVm_start hrun).pgdStart]
    exact if_neg hself
  have hentry : s.mem r i = 0 := by
    rw [(run_inv bareVm_start hrun).tables.upper a r i hr hupper, upperEntry, if_neg hself, hpgd]
  rw [walkFrame_cons, hentry] at hwalk
  cases hwalk

/-- The first task runs a program. -/
def programActs : List Act := [.kernelThread, .exec 700 none (fun _ => 0) smallProgram]

/-- The page number of the slot for the last table of the page 0x400, behind the entry 0x1fe. -/
abbrev tableSlot : ℕ := 0x1fe * 2 ^ 27 + 2

/-- The page of the program's code is mapped: a walk to its last table appears. -/
theorem exists_programActs : ∃ s s' a mm vma, run step bareVm programActs = .ok s ∧
    s.mms a = some mm ∧ vma ∈ mm.mmap ∧ vma.Holds 0x400000 ∧
    s.mapAPage mm.pgd vma 0x400000 = .ok s' ∧ s.walkEntry mm.pgd tableSlot = none ∧
      s'.walkEntry mm.pgd tableSlot ≠ none := by
  have hrun : reaches (run step bareVm programActs) (fun s => (s.userMm 700).any fun x =>
      x.2.mmap.any fun vma => decide (vma.Holds 0x400000) &&
        reaches (s.mapAPage x.2.pgd vma 0x400000) fun s' =>
          (s.walkEntry x.2.pgd tableSlot).isNone && (s'.walkEntry x.2.pgd tableSlot).isSome) = true := by
    decide +kernel
  obtain ⟨s, hs, htest⟩ := exists_of_reaches hrun
  obtain ⟨⟨a, mm⟩, hmm, harea⟩ := (Option.any_eq_true _ _).1 htest
  obtain ⟨vma, hvma, hboth⟩ := List.any_eq_true.1 harea
  obtain ⟨hholds, hmap⟩ := Bool.and_eq_true_iff.1 hboth
  obtain ⟨s', hs', hwalks⟩ := exists_of_reaches hmap
  obtain ⟨hbefore, hafter⟩ := Bool.and_eq_true_iff.1 hwalks
  exact ⟨s, s', a, mm, vma, hs, (userMm_eq_some hmm).1, hvma, of_decide_eq_true hholds, hs',
    Option.isNone_iff_eq_none.1 hbefore, Option.isSome_iff_ne_none.1 hafter⟩

theorem mapAPage_maps_only_code : ∃ (s : Vm) (mm : MmStruct) (vma : Vma), run step bareVm programActs = .ok s ∧
    Yields (s.mapAPage mm.pgd vma 0x400000)
      (fun s' => MapsOnly s s' mm.pgd (0x400000 / pgSize) vma.prot) fun _ => True := by
  obtain ⟨s, s', a, mm, vma, hs, hmm, -⟩ := exists_programActs
  have hr := roots_of_mm hmm
  exact ⟨s, mm, vma, hs, mapAPage_maps_only (run_inv bareVm_start hs).tables
    (kernelTables_bareVm hs hr) hr (by decide) vma⟩

/-- A new last table appears behind the entry 0x1fe. -/
theorem mapAPage_fails : ¬ ∀ (s s' : Vm) (a addr : ℕ) (mm : MmStruct) (vma : Vma), TableInv s →
    s.KernelTables mm.pgd → s.mms a = some mm → vma ∈ mm.mmap → vma.Holds addr →
    s.mapAPage mm.pgd vma addr = .ok s' →
    ∀ w < 2 ^ 36, w ≠ addr / pgSize → s'.walkEntry mm.pgd w = s.walkEntry mm.pgd w := by
  intro hall
  obtain ⟨s, s', a, mm, vma, hs, hmm, hvma, hholds, hs', hbefore, hafter⟩ := exists_programActs
  have hsame := hall s s' a 0x400000 mm vma (run_inv bareVm_start hs).tables
    (kernelTables_bareVm hs (roots_of_mm hmm)) hmm hvma hholds hs' tableSlot (by decide) (by decide)
  exact hafter (hsame.trans hbefore)

end Vm

end PlumOs
