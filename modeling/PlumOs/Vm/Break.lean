import PlumOs.Vm.Areas

/-!
# The break of a process (`sys/syscall.c`)

`brk` decides from `mm->brk` whether the heap has an area yet, and never stores a new break there.  So
every call that grows the heap makes an area for it, as the first one does.  The branch that would
extend the area compares a flag with 1 that is 0 or 2.

* `MmStruct.Consistent` : the break and the area of the heap agree;
* `brk_first`, `brk_extend` : what the two branches do;
* `brk_keeps` : no call, and no sequence of calls, changes the break;
* `not_correctBrk` : **no call that grows the heap is a correct step**;
* `correctBrk_fails` : the first call of a program.
-/

namespace PlumOs

/-- The area of a heap: it has no file, can be written to, and starts where the heap does. -/
def MmStruct.IsHeap (mm : MmStruct) (vma : Vma) : Prop :=
  vma.vmFile = none ∧ vma.prot = .readWrite ∧ vma.vmStart = mm.userHeap

instance (mm : MmStruct) : DecidablePred mm.IsHeap := fun vma =>
  inferInstanceAs (Decidable (vma.vmFile = none ∧ vma.prot = .readWrite ∧ vma.vmStart = mm.userHeap))

/-- Nothing was allocated and the heap has no area, or exactly one area goes from its start to the
break. -/
def MmStruct.Consistent (mm : MmStruct) : Prop :=
  (mm.brk = mm.userHeap ∧ ∀ vma ∈ mm.mmap, ¬mm.IsHeap vma) ∨
    (mm.userHeap < mm.brk ∧ mm.mmap.countP (fun vma => mm.IsHeap vma ∧ vma.vmEnd = mm.brk) = 1)

instance (mm : MmStruct) : Decidable mm.Consistent :=
  inferInstanceAs (Decidable (_ ∨ _))

namespace Vm

variable {s s' : Vm} {a newBreak : ℕ} {mm mm' : MmStruct}

/-- `brk(0)` returns the break and changes nothing; `brk(newBreak)` returns the new break and leaves a
consistent state with it. -/
def CorrectBrk (s : Vm) (a : ℕ) (mm : MmStruct) (newBreak : ℕ) : Prop :=
  s.brk a mm 0 = .ok (mm.brk, s) ∧ ∃ s' mm', s.brk a mm newBreak = .ok (newBreak, s') ∧
    s'.mms a = some mm' ∧ mm'.Consistent ∧ mm'.brk = newBreak

/-- `brk(0)`. -/
theorem brk_zero (s : Vm) (a : ℕ) (mm : MmStruct) : s.brk a mm 0 = .ok (mm.brk, s) := rfl

/-- The branch for a heap without an area: the new area is there, and the break is the old one. -/
theorem brk_first (hmm : s.mms a = some mm) (hbrk : mm.brk = mm.userHeap) (hlt : mm.brk < newBreak)
    (hlimit : newBreak < heapLimit) : Yields (s.brk a mm newBreak) (fun x => x.1 = newBreak ∧
      ∃ vma : Vma, mm.IsHeap vma ∧ vma.vmEnd = newBreak ∧
        x.2.mms a = some { mm with mmap := mm.mmap ++ [vma] }) fun _ => True := by
  have h0 : newBreak ≠ 0 := by omega
  rw [brk, if_neg h0, dif_pos ⟨hlt, hlimit⟩, if_pos hbrk]
  refine yields_bind (getZeroPage_spec s) ?_
  rintro ⟨page, s₁⟩ hz
  have hmm₁ : s₁.mms a = some mm := (congrFun hz.mms a).trans hmm
  refine ⟨rfl, ?_⟩
  simp only [insertVma, Function.update_self, hmm₁, Option.map_some]
  exact ⟨_, ⟨rfl, rfl, hbrk⟩, rfl, rfl⟩

/-- The branch that extends the area never gets past its assertion. -/
theorem brk_extend (hbrk : mm.brk ≠ mm.userHeap) (hlt : mm.brk < newBreak)
    (hlimit : newBreak < heapLimit) : s.brk a mm newBreak = .error (.assertFail "brk") := by
  have h0 : newBreak ≠ 0 := by omega
  rw [brk, if_neg h0, dif_pos ⟨hlt, hlimit⟩, if_neg hbrk]
  split
  · next vma _ =>
    rw [if_neg fun hbit => vma.prot.bits_ne_one hbit.1]
  · rfl

/-- **No call changes the break.** -/
theorem brk_keeps (hmm : s.mms a = some mm) (newBreak : ℕ) : Yields (s.brk a mm newBreak)
    (fun x => ∃ mm', x.2.mms a = some mm' ∧ mm'.brk = mm.brk) fun _ => True := by
  refine (brk_areas s a mm newBreak).mono ?_
  rintro ⟨ret, s'⟩ ⟨-, ⟨-, hsame⟩ | ⟨-, -, -, vma, -, -, -, hmms⟩⟩
  · exact ⟨mm, (congrFun hsame a).trans hmm, rfl⟩
  · refine ⟨{ mm with mmap := mm.mmap ++ [vma] }, ?_, rfl⟩
    rw [hmms, Function.update_self, hmm]
    rfl

/-- **No call that grows the heap is a correct step.** -/
theorem not_correctBrk (hmm : s.mms a = some mm) (hlt : mm.brk < newBreak) :
    ¬CorrectBrk s a mm newBreak := by
  rintro ⟨-, s', mm', hcall, hmm', -, hbrk⟩
  obtain ⟨mm'', hmm'', hsame⟩ := (brk_keeps hmm newBreak).of_eq_ok hcall
  obtain rfl := Option.some.inj (hmm'.symm.trans hmm'')
  omega

/-! ### Sequences of calls -/

/-- The system call `brk` of the process with the address space `a`. -/
def sysBrk (a : ℕ) (s : Vm) (newBreak : ℕ) : Except Stop Vm :=
  match s.mms a with
  | some mm => do
    let (_, s) ← s.brk a mm newBreak
    .ok s
  | none => .error (.nullDeref "brk")

theorem sysBrk_keeps {b : ℕ} (h : ∃ mm, s.mms a = some mm ∧ mm.brk = b) (newBreak : ℕ) :
    Yields (sysBrk a s newBreak) (fun s' => ∃ mm, s'.mms a = some mm ∧ mm.brk = b) fun _ => True := by
  obtain ⟨mm, hmm, rfl⟩ := h
  rw [sysBrk, hmm]
  exact yields_bind (brk_keeps hmm newBreak) fun x hx => hx

/-- **After any sequence of calls `brk(0)` returns the first break.** -/
theorem brk_zero_of_run {breaks : List ℕ} (hmm : s.mms a = some mm)
    (hrun : run (sysBrk a) s breaks = .ok s') :
    ∃ mm', s'.mms a = some mm' ∧ s'.brk a mm' 0 = .ok (mm.brk, s') := by
  have hkeep : Yields (run (sysBrk a) s breaks) (fun s' => ∃ mm', s'.mms a = some mm' ∧
      mm'.brk = mm.brk) fun _ => True :=
    run_yields (G := fun _ _ => True) ⟨mm, hmm, rfl⟩ (fun t newBreak ht _ => sysBrk_keeps ht newBreak)
      (along_of_forall (fun _ _ => trivial) s breaks)
  obtain ⟨mm', hmm', hbrk⟩ := hkeep.of_eq_ok hrun
  exact ⟨mm', hmm', by rw [brk_zero, hbrk]⟩

/-- **A call that grows the heap is never a correct step.**  Before anything was allocated it keeps the
break and leaves an inconsistent state, and from then on the assertion fails. -/
theorem brk_never_correct (hmm : s.mms a = some mm) (hlt : mm.brk < newBreak)
    (hlimit : newBreak < heapLimit) : ¬CorrectBrk s a mm newBreak ∧
      (mm.brk = mm.userHeap → Yields (s.brk a mm newBreak) (fun x => x.1 = newBreak ∧
        ∃ mm', x.2.mms a = some mm' ∧ mm'.brk = mm.brk ∧ ¬mm'.Consistent) fun _ => True) ∧
      (mm.brk ≠ mm.userHeap → s.brk a mm newBreak = .error (.assertFail "brk")) := by
  refine ⟨not_correctBrk hmm hlt, fun hbrk => ?_, fun hbrk => brk_extend hbrk hlt hlimit⟩
  refine (brk_first hmm hbrk hlt hlimit).mono ?_
  rintro ⟨ret, s'⟩ ⟨hret, vma, hheap, hend, hmm'⟩
  refine ⟨hret, _, hmm', rfl, ?_⟩
  rintro (⟨-, hnone⟩ | ⟨hgt, -⟩)
  · exact hnone vma (by simp) hheap
  · exact absurd (hbrk ▸ hgt) (lt_irrefl _)

/-- An address space with its stack and an empty heap. -/
def emptyHeap : MmStruct :=
  { mmap := [stackVma], pgd := 600, codeEnd := 0x401000, dataEnd := 0, userHeap := 0x401000, brk := 0x401000 }

/-- A machine with this address space. -/
def heapVm : Vm := { smallVm with mms := Function.update smallVm.mms 700 (some emptyHeap) }

theorem heapVm_mms : heapVm.mms 700 = some emptyHeap := by simp [heapVm]

theorem brk_never_correct_first : emptyHeap.Consistent ∧ ¬CorrectBrk heapVm 700 emptyHeap 0x402000 :=
  ⟨by decide, (brk_never_correct heapVm_mms (by decide) (by decide)).1⟩

/-- The first call of a program. -/
theorem correctBrk_fails : ¬∀ (s : Vm) (a : ℕ) (mm : MmStruct) (newBreak : ℕ), s.mms a = some mm →
    mm.Consistent → mm.brk < newBreak → newBreak < heapLimit → CorrectBrk s a mm newBreak := by
  intro hall
  have hcall := hall heapVm 700 emptyHeap 0x402000 heapVm_mms (by decide) (by decide) (by decide)
  exact not_correctBrk heapVm_mms (by decide) hcall

end Vm

end PlumOs
