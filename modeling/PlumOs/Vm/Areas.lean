import PlumOs.Vm.Isolation

/-!
# The areas of a process

`exec`, `brk` and `copy_mm` put areas at the end of an unsorted list without a look at those that are
there.  After an `exec` of a program whose segments are apart and below the heap and the stack the
areas are apart too.  The first `brk` adds the heap, and `fork` copies the list.  A second `brk` adds
an area over the first: it decides by the break whether there is a heap, and the break is never
stored.

* `Laid` : the areas are apart, and there is none above the break but the stack and the heap;
* `disjoint_of_run` : **the areas of a process are disjoint** as long as no process that has a heap
  calls `brk`;
* `disjoint_fails` : two calls of `brk`.
-/

namespace PlumOs

/-- Two areas share no address. -/
def Vma.Disjoint (x y : Vma) : Prop := ∀ addr, ¬ (x.Holds addr ∧ y.Holds addr)

theorem Vma.disjoint_iff {x y : Vma} :
    x.Disjoint y ↔ min x.vmEnd y.vmEnd ≤ max x.vmStart y.vmStart := by
  unfold Vma.Disjoint Vma.Holds
  constructor
  · intro h
    have hmax := h (max x.vmStart y.vmStart)
    omega
  · intro h addr
    omega

instance (x y : Vma) : Decidable (x.Disjoint y) := decidable_of_iff _ Vma.disjoint_iff.symm

namespace Vm

variable {s s' s₀ : Vm} {a b t p addr newBreak : ℕ} {mm : MmStruct} {vma : Vma} {act : Act}
  {F F₀ : ℕ → Bool}

/-! ### Areas that are apart -/

/-- The segments of a program are apart, and below the heap and the stack. -/
def Program.Tidy : Program → Prop
  | .elf file headers =>
    (headers.reduceOption.map fun seg => seg.vma file).Pairwise Vma.Disjoint ∧
      ∀ seg ∈ headers.reduceOption, seg.pVaddr + seg.pMemsz ≤ heapStart headers ∧
        seg.pVaddr + seg.pMemsz ≤ stackVma.vmStart
  | .script interp => interp.Tidy

instance decidableTidy : (program : Program) → Decidable program.Tidy
  | .elf _ _ => inferInstanceAs (Decidable (_ ∧ _))
  | .script interp => decidableTidy interp

/-- The areas are apart.  Every area ends below the break, is the one that the break is in, or is
above the limit of the heap. -/
structure Laid (mm : MmStruct) : Prop where
  disjoint : mm.mmap.Pairwise Vma.Disjoint
  heap : ∀ vma ∈ mm.mmap, vma.vmEnd ≤ mm.brk ∨ vma.Holds mm.brk ∨ heapLimit ≤ vma.vmStart

theorem loaded_sublist (headers : List (Option LoadSegment)) :
    (loaded headers).Sublist headers.reduceOption := by
  induction headers with
  | nil => exact List.Sublist.refl _
  | cons seg headers ih =>
    cases seg with
    | none => exact List.nil_sublist _
    | some seg =>
      exact ih.cons_cons seg

/-- `exec` lays out the areas of a tidy program. -/
theorem laid_space {program : Program} (htidy : program.Tidy) (hspace : program.Space mm) :
    Laid mm := by
  induction program with
  | script interp ih => exact ih htidy hspace
  | elf file headers =>
    obtain ⟨hdis, hbelow⟩ := htidy
    obtain ⟨hmmap, -, hbrk⟩ := hspace
    have hsub := loaded_sublist headers
    have hseg : ∀ vma ∈ (loaded headers).map (fun seg => seg.vma file),
        vma.vmEnd ≤ heapStart headers ∧ vma.vmEnd ≤ stackVma.vmStart := by
      intro vma hvma
      obtain ⟨seg, hmem, rfl⟩ := List.mem_map.1 hvma
      exact hbelow seg (hsub.subset hmem)
    constructor
    · rw [hmmap, List.pairwise_append]
      refine ⟨hdis.sublist (hsub.map _), List.pairwise_singleton .., fun x hx y hy => ?_⟩
      obtain rfl := List.mem_singleton.1 hy
      rw [Vma.disjoint_iff]
      exact (min_le_left ..).trans ((hseg x hx).2.trans (le_max_right ..))
    · intro vma hvma
      rw [hmmap, List.mem_append] at hvma
      rcases hvma with hvma | hvma
      · rw [hbrk]
        exact .inl (hseg vma hvma).1
      · obtain rfl := List.mem_singleton.1 hvma
        exact .inr (.inr (by decide))

/-- The first `brk` puts the heap between the segments and the stack. -/
theorem Laid.heap_append (h : Laid mm) (hlt : mm.brk < newBreak) (hlimit : newBreak < heapLimit)
    (hstart : vma.vmStart = mm.brk) (hstop : vma.vmEnd = newBreak)
    (hnone : searchVma mm.brk mm = none) : Laid { mm with mmap := mm.mmap ++ [vma] } := by
  have hno : ∀ x ∈ mm.mmap, ¬ x.Holds mm.brk := fun x hx hholds => by
    simpa using List.find?_eq_none.1 hnone x hx (by simpa using hholds)
  refine ⟨List.pairwise_append.2 ⟨h.disjoint, List.pairwise_singleton .., fun x hx y hy => ?_⟩,
    fun x hx => ?_⟩
  · obtain rfl := List.mem_singleton.1 hy
    rw [Vma.disjoint_iff, hstart, hstop]
    rcases h.heap x hx with hend | hholds | habove
    · omega
    · exact absurd hholds (hno x hx)
    · omega
  · rcases List.mem_append.1 hx with hx | hx
    · exact h.heap x hx
    · obtain rfl := List.mem_singleton.1 hx
      exact .inr (.inl ⟨hstart.le, by rw [hstop]; exact hlt⟩)

/-- Areas that are apart have at most one answer for `search_vma`. -/
theorem countP_holds (h : mm.mmap.Pairwise Vma.Disjoint) (addr : ℕ) :
    (mm.mmap.countP fun vma => vma.Holds addr) ≤ 1 := by
  refine countP_le_one (h.imp fun {x y} hxy hboth => ?_)
  simp only [decide_eq_true_eq] at hboth
  exact hxy addr hboth

/-! ### Runs -/

/-- The tasks that run a tidy program: they called `exec`, or one of their ancestors did. -/
def family (s s' : Vm) (F : ℕ → Bool) : Act → ℕ → Bool
  | .exec t _ _ program => Function.update F t (decide program.Tidy)
  | .fork t => fun c => if (s.tasks c).isSome then F c else F t && (s'.tasks c).isSome
  | _ => F

/-- One step, which keeps account of these tasks. -/
def familyStep (x : Vm × (ℕ → Bool)) (act : Act) : Except Stop (Vm × (ℕ → Bool)) := do
  let s ← x.1.step act
  .ok (s, family x.1 s x.2 act)

/-- The condition on a step: a task that runs a tidy program asks for the break, or it has no heap. -/
def BrkOnce (x : Vm × (ℕ → Bool)) : Act → Prop
  | .brk t newBreak => x.2 t = true → ∀ a mm, x.1.userMm t = some (a, mm) →
      newBreak = 0 ∨ searchVma mm.brk mm = none
  | _ => True

/-- The tasks that run a tidy program have their areas laid out. -/
def FamilyInv (x : Vm × (ℕ → Bool)) : Prop :=
  VmInv x.1 ∧ ∀ t a mm, x.2 t = true → x.1.userMm t = some (a, mm) → Laid mm

theorem familyStep_inv (x : Vm × (ℕ → Bool)) (act : Act) (x' : Vm × (ℕ → Bool)) (h : FamilyInv x)
    (hG : BrkOnce x act) (hstep : familyStep x act = .ok x') : FamilyInv x' := by
  obtain ⟨s, F⟩ := x
  obtain ⟨hinv, hlaid⟩ := h
  have hpost : Yields (familyStep (s, F) act) (fun y => VmInv y.1 ∧ y.2 = family s y.1 F act ∧
      ∀ t a mm, y.1.userMm t = some (a, mm) → Derived s t mm act) fun _ => True := by
    unfold familyStep
    cases hs : s.step act with
    | error e => trivial
    | ok s' =>
      exact ⟨((step_keeps hinv act).of_eq_ok hs).inv, rfl, (step_derived hinv act).of_eq_ok hs⟩
  obtain ⟨s', F'⟩ := x'
  obtain ⟨hinv', hF', hder⟩ := hpost.of_eq_ok hstep
  refine ⟨hinv', fun t a mm hF ht => ?_⟩
  simp only at hF' hF ht hlaid
  rw [hF'] at hF
  -- by where the address space comes from
  cases hder t a mm ht with
  | @same _ b was noExec =>
    refine hlaid t b mm ?_ was
    cases act with
    | exec p argv args program =>
      have htp : t ≠ p := by
        rintro rfl
        exact noExec argv args program rfl
      rwa [family, Function.update_of_ne htp] at hF
    | fork p =>
      simp only [family] at hF
      rwa [if_pos (Option.isSome_iff_ne_none.2 (tasks_ne_none was))] at hF
    | _ => exact hF
  | exec space =>
    rw [family, Function.update_self] at hF
    exact laid_space (of_decide_eq_true hF) space
  | @child p b pgd old parent fresh copy =>
    simp only [family] at hF
    rw [if_neg (by simp [fresh]), Bool.and_eq_true] at hF
    have hold := hlaid p b old hF.1 parent
    rw [copy]
    exact ⟨hold.disjoint, hold.heap⟩
  | @heap b newBreak old vma was lt limit start stop anonymous more =>
    rw [more]
    -- the first call finds no area at the break
    rcases hG hF b old was with h0 | hnone
    · omega
    · exact (hlaid t b old hF was).heap_append lt limit start stop hnone

/-- **The areas of a process are disjoint**, if it runs a tidy program and no process that runs such a
program calls `brk` when it has a heap. -/
theorem disjoint_of_run {acts : List Act} (h : Start s₀)
    (hal : Along familyStep BrkOnce (s₀, fun _ => false) acts)
    (hrun : run familyStep (s₀, fun _ => false) acts = .ok (s, F)) (hF : F t = true)
    (ht : s.userMm t = some (a, mm)) :
    mm.mmap.Pairwise Vma.Disjoint ∧ ∀ addr, (mm.mmap.countP fun vma => vma.Holds addr) ≤ 1 := by
  have hinv : FamilyInv (s, F) := by
    refine run_invariant ⟨h.inv, fun t a mm hF => ?_⟩ familyStep_inv hal hrun
    simp at hF
  have hlaid := hinv.2 t a mm hF ht
  exact ⟨hlaid.disjoint, countP_holds hlaid.disjoint⟩

/-- The condition is exact: a `brk` that goes through adds an area over the one that holds the
break. -/
theorem brk_overlaps {x : ℕ} (hmm : s.mms a = some mm) (h0 : newBreak ≠ 0)
    (hfind : searchVma mm.brk mm = some vma) (hbrk : s.brk a mm newBreak = .ok (x, s')) :
    ∃ mm', s'.mms a = some mm' ∧ ¬ mm'.mmap.Pairwise Vma.Disjoint := by
  obtain ⟨-, hmms⟩ := (brk_areas s a mm newBreak).of_eq_ok hbrk
  obtain ⟨hmem, hholds⟩ := holds_of_searchVma hfind
  rcases hmms with ⟨h0', -⟩ | ⟨-, hlt, -, new, hstart, hstop, -, hmms⟩
  · exact absurd h0' h0
  · refine ⟨{ mm with mmap := mm.mmap ++ [new] }, ?_, fun hdis => ?_⟩
    · refine (congrFun hmms a).trans ?_
      rw [Function.update_self, hmm]
      rfl
    · refine (List.pairwise_append.1 hdis).2.2 vma hmem new (List.mem_singleton_self _) mm.brk ?_
      exact ⟨hholds, hstart.le, by rw [hstop]; exact hlt⟩

/-- The first task extends its heap once, and forks. -/
theorem disjoint_onceActs : ∃ s F a mm, run familyStep (smallVm, fun _ => false) onceActs = .ok (s, F) ∧
    F 700 = true ∧ s.userMm 700 = some (a, mm) ∧ mm.mmap.length = 3 ∧
    mm.mmap.Pairwise Vma.Disjoint ∧ ∀ addr, (mm.mmap.countP fun vma => vma.Holds addr) ≤ 1 := by
  have hrun : reaches (run familyStep (smallVm, fun _ => false) onceActs) (fun x => x.2 700 &&
      (x.1.userMm 700).any fun y => y.2.mmap.length == 3) = true := by decide +kernel
  have hal : alongB familyStep (fun x act => match act with
      | .brk t _ => (x.1.userMm t).all fun y => (searchVma y.2.brk y.2).isNone
      | _ => true) (smallVm, fun _ => false) onceActs = true := by decide +kernel
  obtain ⟨⟨s, F⟩, hs, htest⟩ := exists_of_reaches hrun
  simp only [Bool.and_eq_true, Option.any_eq_true, beq_iff_eq] at htest
  obtain ⟨hF, ⟨a, mm⟩, hmm, hlen⟩ := htest
  refine ⟨s, F, a, mm, hs, hF, hmm, hlen, disjoint_of_run smallVm_start
    (along_of_alongB (I := fun _ => True) trivial (fun x act _ htest => ?_)
      (fun _ _ _ _ _ _ => trivial) hal) hs hF hmm⟩
  cases act with
  | brk t newBreak =>
    intro _ a mm hmm
    simp only [hmm, Option.all_some, Option.isNone_iff_eq_none] at htest
    exact .inr htest
  | _ => trivial

/-- **Two calls of `brk`**, each of which goes through: the areas overlap, and `search_vma` has two
answers for the start of the heap. -/
theorem disjoint_fails : ∃ s F a mm, run familyStep (smallVm, fun _ => false)
      [.kernelThread, .exec 700 none (fun _ => 0) smallProgram, .brk 700 0x402000,
        .brk 700 0x403000] = .ok (s, F) ∧
    F 700 = true ∧ s.userMm 700 = some (a, mm) ∧ ¬ mm.mmap.Pairwise Vma.Disjoint ∧
    (mm.mmap.countP fun vma => vma.Holds 0x401000) = 2 := by
  have hrun : reaches (run familyStep (smallVm, fun _ => false)
      [.kernelThread, .exec 700 none (fun _ => 0) smallProgram, .brk 700 0x402000,
        .brk 700 0x403000]) (fun x => x.2 700 && (x.1.userMm 700).any fun y =>
      (y.2.mmap.countP fun vma => vma.Holds 0x401000) == 2) = true := by decide +kernel
  obtain ⟨⟨s, F⟩, hs, htest⟩ := exists_of_reaches hrun
  simp only [Bool.and_eq_true, Option.any_eq_true, beq_iff_eq] at htest
  obtain ⟨hF, ⟨a, mm⟩, hmm, htwo⟩ := htest
  refine ⟨s, F, a, mm, hs, hF, hmm, fun hdis => ?_, htwo⟩
  exact absurd (htwo.symm.le.trans (countP_holds hdis 0x401000)) (by decide)

end Vm

end PlumOs
