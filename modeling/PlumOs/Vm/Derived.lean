import PlumOs.Vm.Steps

/-!
# Where an address space comes from

A step leaves a task its address space, or adds an area to it, or the task got it by `exec` or from its
parent.

* `Derived` : where the address space of a task in the next state comes from;
* `step_derived` : **each step** leads to such address spaces only;
* `Act.InArchive` : the pages of a program that is run are in the archive;
* `fromArchive_of_run` : **then so are the pages of all the areas** of a run.
-/

namespace PlumOs

namespace Vm

variable {s s' s₀ : Vm} {a b t p addr newBreak : ℕ} {mm : MmStruct} {vma : Vma} {act : Act}

/-! ### One step -/

theorem userMm_congr (hmms : s'.mms = s.mms) (htask : s'.tasks t = s.tasks t) :
    s'.userMm t = s.userMm t := by
  unfold userMm
  rw [hmms, htask]

/-- What `brk` does: nothing, or one more area. -/
theorem brk_areas (s : Vm) (a : ℕ) (mm : MmStruct) (newBreak : ℕ) :
    Yields (s.brk a mm newBreak) (fun x => x.2.tasks = s.tasks ∧
      (newBreak = 0 ∧ x.2.mms = s.mms ∨ newBreak ≠ 0 ∧ mm.brk < newBreak ∧ newBreak < heapLimit ∧
        ∃ vma : Vma, vma.vmStart = mm.brk ∧ vma.vmEnd = newBreak ∧ vma.vmFile = none ∧
          x.2.mms = Function.update s.mms a ((s.mms a).map fun mm =>
            { mm with mmap := mm.mmap ++ [vma] }))) fun _ => True := by
  unfold brk
  split
  · next h0 => exact ⟨rfl, .inl ⟨h0, rfl⟩⟩
  · next h0 =>
    split
    · next hlt =>
      split
      · -- no area yet: a new one from the break on
        refine yields_bind (getZeroPage_spec s) ?_
        rintro ⟨page, s₁⟩ hz
        refine ⟨hz.tasks, .inr ⟨h0, hlt.1, hlt.2, ?_⟩⟩
        rw [← hz.mms]
        refine ⟨_, ?_, ?_, ?_, rfl⟩
        · rfl
        · rfl
        · rfl
      · split
        · next vma _ =>
          -- the area is never extended
          rw [if_neg fun hbit => vma.prot.bits_ne_one hbit.1]
          trivial
        · trivial
    · split <;> trivial

/-- Where the address space `mm` of the task `t` comes from in a step from `s`. -/
inductive Derived (s : Vm) (t : ℕ) (mm : MmStruct) : Act → Prop
  | same {act : Act} {a : ℕ} (was : s.userMm t = some (a, mm))
      (noExec : ∀ argv args program, act ≠ .exec t argv args program) : Derived s t mm act
  | exec {argv : Option UserAddr} {args : ℕ → ℕ} {program : Program} (space : program.Space mm) :
      Derived s t mm (.exec t argv args program)
  | child {p a pgd : ℕ} {old : MmStruct} (parent : s.userMm p = some (a, old))
      (fresh : s.tasks t = none) (copy : mm = { old with pgd := pgd }) : Derived s t mm (.fork p)
  | heap {a newBreak : ℕ} {old : MmStruct} {vma : Vma} (was : s.userMm t = some (a, old))
      (lt : old.brk < newBreak) (limit : newBreak < heapLimit) (start : vma.vmStart = old.brk)
      (stop : vma.vmEnd = newBreak) (anonymous : vma.vmFile = none) (more : mm = { old with mmap := old.mmap ++ [vma] }) :
      Derived s t mm (.brk t newBreak)

theorem userMm_eq (htask : s.tasks t = some { mm := some a, zombie := false }) :
    s.userMm t = (s.mms a).map fun mm => (a, mm) := by
  unfold userMm
  rw [htask]
  rfl

/-- A task that is not there has no address space. -/
theorem tasks_ne_none (h : s.userMm t = some (a, mm)) : s.tasks t ≠ none := by
  obtain ⟨-, task, htask, -⟩ := userMm_eq_some h
  simp [htask]

/-- The address spaces of the tasks that go on are the same, or changed at one place. -/
theorem userMm_of_tasks (htask : s'.tasks t = s.tasks t)
    (hmms : ∀ c, s.mms c ≠ none → c ≠ b → s'.mms c = s.mms c)
    (hown : ∀ task, s.tasks t = some task → task.mm ≠ some b)
    (hmm : ∀ task c, s.tasks t = some task → task.mm = some c → s.mms c ≠ none) :
    s'.userMm t = s.userMm t := by
  unfold userMm
  rw [htask]
  cases hx : s.tasks t with
  | none => rfl
  | some task =>
    simp only
    split
    · rfl
    · cases hc : task.mm with
      | none => rfl
      | some c =>
        have hcb : c ≠ b := by
          rintro rfl
          exact hown task hx hc
        rw [Option.bind_some, Option.bind_some, hmms c (hmm task c hx hc) hcb]

theorem VmInv.userMm_of_execed (h : VmInv s) (hex : Execed s s' p mm) :
    (∃ a, s'.userMm p = some (a, mm)) ∧ ∀ t, t ≠ p → s'.userMm t = s.userMm t := by
  obtain ⟨a, ha, hmms, htasks⟩ := hex
  refine ⟨⟨a, ?_⟩, fun t ht => userMm_of_tasks (b := a) ?_ (fun c _ hca => ?_) (fun task htask hc => ?_)
    (fun task c htask hc => h.taskMm t task c htask hc)⟩
  · rw [userMm_eq (by rw [htasks]; exact Function.update_self ..), hmms, Function.update_self]
    rfl
  · rw [htasks]
    exact Function.update_of_ne ht ..
  · rw [hmms]
    exact Function.update_of_ne hca ..
  · exact h.taskMm t task a htask hc ha

theorem VmInv.userMm_of_forked {child : ℕ} (h : VmInv s) (hf : Forked s s' a mm child b) :
    (∃ pgd, s'.userMm child = some (b, { mm with pgd := pgd })) ∧
      ∀ t, t ≠ child → s'.userMm t = s.userMm t := by
  obtain ⟨pgd, hpgd⟩ := hf.space
  refine ⟨⟨pgd, ?_⟩, fun t ht => userMm_of_tasks (b := b) (hf.tasks t ht) (fun c _ => hf.spaces c)
    (fun task htask hc => ?_) (fun task c htask hc => h.taskMm t task c htask hc)⟩
  · rw [userMm_eq hf.task, hpgd]
    rfl
  · exact h.taskMm t task b htask hc hf.freshMm

theorem userMm_of_exitSt {x : ℕ × MmStruct} (ht : (s.exitSt p).userMm t = some x) :
    s.userMm t = some x := by
  by_cases htp : t = p
  · subst htp
    cases hx : s.tasks t <;> simp [userMm, exitSt, hx] at ht
  · have hsame : (s.exitSt p).userMm t = s.userMm t :=
      userMm_congr rfl (Function.update_of_ne htp ..)
    rwa [hsame] at ht

/-- A fault leaves a task its address space, unless it ends it. -/
theorem userMm_of_handled (hh : Handled s p a mm addr s') {x : ℕ × MmStruct}
    (ht : s'.userMm t = some x) : s.userMm t = some x := by
  cases hh with
  | mapped hvma hfind hnone hm hfills => rwa [userMm_congr hm.mms (congrFun hm.tasks t)] at ht
  | copied hcow hshared hc => rwa [userMm_congr hc.mms (congrFun hc.tasks t)] at ht
  | owned hcow hsole ho => rwa [userMm_congr ho.mms (congrFun ho.tasks t)] at ht
  | exited => exact userMm_of_exitSt ht

/-- A new task without an address space. -/
theorem kernelThread_userMm (s : Vm) : Yields s.kernelThread (fun x => ∀ t y,
    x.2.userMm t = some y → s.userMm t = some y) fun _ => True := by
  unfold kernelThread
  refine yields_bind (getZeroPage_spec s) ?_
  rintro ⟨tsp, s₁⟩ hz₁
  refine yields_bind (getZeroPage_spec s₁) ?_
  rintro ⟨stack, s₂⟩ hz₂ t y ht
  obtain ⟨s₃, hs₃⟩ : ∃ s₃ : Vm, s₃ = { s₂ with
    tasks := Function.update s₂.tasks tsp (some { mm := none, zombie := false }) } := ⟨_, rfl⟩
  simp only [← hs₃] at ht
  by_cases htt : t = tsp
  · subst htt
    simp [userMm, hs₃] at ht
  · have hmms : s₃.mms = s.mms := by rw [hs₃]; exact hz₂.mms.trans hz₁.mms
    have htask : s₃.tasks t = s.tasks t := by
      rw [hs₃]
      exact (Function.update_of_ne htt ..).trans (congrFun (hz₂.tasks.trans hz₁.tasks) t)
    rwa [userMm_congr hmms htask] at ht

/-- `exec` gives the task a new address space, unless it is gone. -/
theorem exec_derived (h : VmInv s) (p : ℕ) (argv : Option UserAddr) (args : ℕ → ℕ)
    (program : Program) :
    Yields (s.step (.exec p argv args program)) (fun s' => ∀ t a mm, s'.userMm t = some (a, mm) →
      Derived s t mm (.exec p argv args program)) fun _ => True := by
  rw [step]
  cases htask : s.tasks p with
  | none =>
    refine fun t a mm ht => .same ht ?_
    rintro _ _ _ ⟨⟩
    exact tasks_ne_none ht htask
  | some task =>
    simp only
    split
    · next hz =>
      -- a zombie has no address space that could be replaced
      refine fun t a mm ht => .same ht ?_
      rintro _ _ _ ⟨⟩
      obtain ⟨-, task', htask', hz', -⟩ := userMm_eq_some ht
      obtain rfl := Option.some.inj (htask.symm.trans htask')
      exact absurd hz (by rw [hz']; decide)
    · refine (exec_spec (o := True) program h (fun mm hmm => ?_) htask _ args).mono ?_
      · obtain ⟨a, -, ha⟩ := Option.bind_eq_some_iff.1 hmm
        exact ⟨a, ha⟩
      · rintro s' ⟨-, mm', hspace, hex⟩ t a mm ht
        obtain ⟨⟨b, hb⟩, hothers⟩ := h.userMm_of_execed hex
        by_cases htp : t = p
        · subst htp
          obtain ⟨-, rfl⟩ := Prod.mk.inj (Option.some.inj (ht.symm.trans hb))
          exact .exec hspace
        · refine .same ((hothers t htp).symm.trans ht) ?_
          rintro _ _ _ ⟨⟩
          exact htp rfl

/-- The address space of a task after an area was added to that of the task `p`. -/
theorem userMm_of_added (h : VmInv s) {p c t : ℕ} {old : MmStruct} {vma : Vma}
    (hp : s.userMm p = some (c, old)) (htasks : s'.tasks = s.tasks)
    (hmms : s'.mms = Function.update s.mms c
      ((s.mms c).map fun mm => { mm with mmap := mm.mmap ++ [vma] })) :
    s'.userMm t = if t = p then some (c, { old with mmap := old.mmap ++ [vma] }) else s.userMm t := by
  obtain ⟨hold, task, htask, hz, hc⟩ := userMm_eq_some hp
  by_cases htp : t = p
  · have hnew : s'.mms c = some { old with mmap := old.mmap ++ [vma] } := by
      rw [hmms, Function.update_self, hold]
      rfl
    rw [if_pos htp, htp, userMm, htasks, htask]
    simp [hz, hc, hnew]
  · rw [if_neg htp]
    refine userMm_of_tasks (b := c) (congrFun htasks t) (fun d _ hdc => ?_)
      (fun task' htask' hc' => ?_) fun task' d htask' hd => h.taskMm t task' d htask' hd
    · rw [hmms]
      exact Function.update_of_ne hdc ..
    · exact htp (h.own t p task' task c htask' htask hc' hc)

/-- `brk` adds an area to the task, if it does anything. -/
theorem brk_derived (h : VmInv s) (p newBreak : ℕ) :
    Yields (s.step (.brk p newBreak)) (fun s' => ∀ t a mm, s'.userMm t = some (a, mm) →
      Derived s t mm (.brk p newBreak)) fun _ => True := by
  rw [step]
  cases hp : s.userMm p with
  | none => exact fun t a mm ht => .same ht (by simp)
  | some x =>
    obtain ⟨c, old⟩ := x
    refine yields_bind (brk_areas s c old newBreak) ?_
    rintro ⟨y, s'⟩ ⟨htasks, hmms⟩ t a mm ht
    obtain ⟨hold, task, htask, hz, hc⟩ := userMm_eq_some hp
    rcases hmms with ⟨-, hmms⟩ | ⟨-, hlt, hlimit, vma, hstart, hstop, hfile, hmms⟩
    · rw [userMm_congr hmms (congrFun htasks t)] at ht
      exact .same ht (by simp)
    · rw [userMm_of_added h hp htasks hmms] at ht
      split at ht
      · next htp =>
        subst htp
        obtain ⟨-, rfl⟩ := Prod.mk.inj (Option.some.inj ht)
        exact .heap hp hlt hlimit hstart hstop hfile rfl
      · exact .same ht (by simp)

/-- `fork` gives the child the areas of its parent. -/
theorem fork_derived (h : VmInv s) (p : ℕ) :
    Yields (s.step (.fork p)) (fun s' => ∀ t a mm, s'.userMm t = some (a, mm) →
      Derived s t mm (.fork p)) fun _ => True := by
  rw [step]
  cases hp : s.userMm p with
  | none => exact fun t a mm ht => .same ht (by simp)
  | some x =>
    obtain ⟨c, old⟩ := x
    refine yields_bind (fork_spec h (userMm_eq_some hp).1) ?_
    rintro ⟨child, s'⟩ ⟨d, hf⟩ t a mm ht
    obtain ⟨⟨pgd, hchild⟩, hothers⟩ := h.userMm_of_forked hf
    by_cases htc : t = child
    · subst htc
      obtain ⟨-, rfl⟩ := Prod.mk.inj (Option.some.inj (ht.symm.trans hchild))
      exact .child hp hf.freshTask rfl
    · exact .same ((hothers t htc).symm.trans ht) (by simp)

/-- **What one step does to the address spaces of the tasks.** -/
theorem step_derived (h : VmInv s) (act : Act) : Yields (s.step act) (fun s' => ∀ t a mm,
    s'.userMm t = some (a, mm) → Derived s t mm act) fun _ => True := by
  have hsame : ∀ {act : Act}, (∀ t argv args program, act ≠ .exec t argv args program) →
      ∀ t a mm, s.userMm t = some (a, mm) → Derived s t mm act :=
    fun hno t a mm ht => .same ht (hno t)
  cases act with
  | kernelThread =>
    rw [step]
    refine yields_bind (kernelThread_userMm s) fun x hx t a mm ht => ?_
    exact hsame (by simp) t a mm (hx t _ ht)
  | exec p argv args program => exact exec_derived h p argv args program
  | fork p => exact fork_derived h p
  | brk p newBreak => exact brk_derived h p newBreak
  | load p addr =>
    rw [step]
    cases hp : s.userMm p with
    | none => exact hsame (by simp)
    | some x =>
      refine yields_bind (load_spec h (userMm_eq_some hp).1 addr) ?_
      rintro ⟨y, s'⟩ (⟨f, k, -, heq⟩ | ⟨-, hh⟩) t a mm ht
      · obtain ⟨-, rfl⟩ := Prod.mk.inj heq
        exact hsame (by simp) t a mm ht
      · exact hsame (by simp) t a mm (userMm_of_handled hh ht)
  | store p addr byte =>
    rw [step]
    cases hp : s.userMm p with
    | none => exact hsame (by simp)
    | some x =>
      refine (store_spec h (userMm_eq_some hp).1 addr byte).mono ?_
      intro s' hs t a mm ht
      cases hs with
      | written page hmap => exact hsame (by simp) t a mm ht
      | faulted hh => exact hsame (by simp) t a mm (userMm_of_handled hh ht)
  | put p addr byte =>
    rw [step]
    cases hp : s.userMm p with
    | none => exact hsame (by simp)
    | some x =>
      have hr := roots_of_mm (userMm_eq_some hp).1
      refine (kernelStore_spec h.tables hr addr byte).imp ?_ fun _ _ => trivial
      rintro s' ⟨f, k, -, rfl⟩ t a mm ht
      exact hsame (by simp) t a mm ht
  | keep bytes => exact fun t a mm ht => hsame (by simp) t a mm ht
  | exit p =>
    rw [step]
    cases s.userMm p with
    | none => exact hsame (by simp)
    | some x => exact fun t a mm ht => hsame (by simp) t a mm (userMm_of_exitSt ht)

/-! ### Programs in the archive -/

/-- The pages of the segments are in the archive. -/
def Program.InArchive (img : Tarfs) : Program → Prop
  | .elf file headers => ∀ seg ∈ loaded headers, (seg.vma file).InArchive img
  | .script interp => interp.InArchive img

instance decidableInArchive (img : Tarfs) : (program : Program) → Decidable (program.InArchive img)
  | .elf _ headers => inferInstanceAs (Decidable (∀ seg ∈ loaded headers, _))
  | .script interp => decidableInArchive img interp

/-- A program that is run is in the archive. -/
def Act.InArchive (img : Tarfs) : Act → Prop
  | .exec _ _ _ program => program.InArchive img
  | _ => True

instance decidableActInArchive (img : Tarfs) : (act : Act) → Decidable (act.InArchive img)
  | .exec _ _ _ program => decidableInArchive img program
  | .kernelThread | .fork _ | .brk _ _ | .load _ _ | .store _ _ _ | .put _ _ _ | .keep _ | .exit _ =>
    isTrue trivial

/-- The areas of all the tasks come from the archive. -/
def FromArchive (s : Vm) : Prop :=
  ∀ t a mm, s.userMm t = some (a, mm) → ∀ vma ∈ mm.mmap, vma.InArchive s.archive

theorem inArchive_of_anonymous (hfile : vma.vmFile = none) (img : Tarfs) : vma.InArchive img := by
  intro pfn _ start hstart
  rw [hfile] at hstart
  cases hstart

theorem inArchive_of_space {img : Tarfs} {program : Program} (hin : program.InArchive img)
    (hspace : program.Space mm) (hvma : vma ∈ mm.mmap) : vma.InArchive img := by
  induction program with
  | script interp ih => exact ih hin hspace
  | elf file headers =>
    rw [hspace.1, List.mem_append] at hvma
    rcases hvma with hseg | hstack
    · obtain ⟨seg, hmem, rfl⟩ := List.mem_map.1 hseg
      exact hin seg hmem
    · obtain rfl := List.mem_singleton.1 hstack
      exact inArchive_of_anonymous rfl img

/-- **One step.** -/
theorem FromArchive.step (hs : s.FromArchive) (h : VmInv s) (hact : act.InArchive s.archive)
    (hstep : s.step act = .ok s') : s'.FromArchive := by
  intro t a mm ht vma hvma
  rw [((step_keeps h act).of_eq_ok hstep).archive]
  cases (step_derived h act).of_eq_ok hstep t a mm ht with
  | same was noExec => exact hs t _ mm was vma hvma
  | exec space => exact inArchive_of_space hact space hvma
  | @child p c pgd old parent fresh copy =>
    rw [copy] at hvma
    exact hs p c old parent vma hvma
  | @heap c newBreak old new was lt limit start stop anonymous more =>
    rw [more] at hvma
    rcases List.mem_append.1 hvma with hold | hnew
    · exact hs t c old was vma hold
    · obtain rfl := List.mem_singleton.1 hnew
      exact inArchive_of_anonymous anonymous s.archive

/-- **The areas of a run** whose programs are in the archive. -/
theorem fromArchive_of_run {acts : List Act} (h : Start s₀) (hin : ∀ act ∈ acts, act.InArchive s₀.archive)
    (hrun : run step s₀ acts = .ok s) : s.FromArchive := by
  have hinv : Keeps s₀ s False ∧ s.FromArchive := by
    refine run_invariant (I := fun s => Keeps s₀ s False ∧ s.FromArchive)
      (G := fun _ act => act.InArchive s₀.archive ∧ True) ⟨Keeps.refl h.inv, fun t a mm ht => ?_⟩
      (fun s act s' hs hact hstep => ?_)
      ((along_of_forall (fun _ _ => trivial) s₀ acts).and_of_mem hin) hrun
    · rw [userMm, h.noTask t] at ht
      cases ht
    · have hkeeps := (step_keeps hs.1.inv act).of_eq_ok hstep
      refine ⟨hs.1.trans (hkeeps.weaken False.elim), hs.2.step hs.1.inv ?_ hstep⟩
      rw [hs.1.archive]
      exact hact.1
  exact hinv.2

end Vm

end PlumOs
