import PlumOs.Proc.Effect

/-!
# The files behind the areas (`sys/process.c`, `sys/syscall.c`)

`exec` gives an area a `vm_file` that points into the `file_array` of the task that runs it, and
`copy_vma` gives the child of a `fork` the same pointer.  The entry goes with the `task_struct`, which
`free_process` gives back, while the descendants of the task may still have pages to load.

* `FilePtr`, `FileKernel` : the pointers of the areas, over the tasks of the kernel;
* `Backed` : the entries belong to tasks that were not freed;
* `Spares` : nobody waits for a stranger, and no task exits while another process runs the program that it
  has loaded;
* `backed_of_run` : **in every run that spares these programs, all entries are backed**;
* `backed_fails` : a father collects his child, and his grandchild runs on.
-/

namespace PlumOs

/-! ### Files -/

/-- `vm_file`: the entry `fd` of the `file_array` of the task at an address.  `gen` tells apart the
tasks that were there one after the other; only for stating results. -/
structure FilePtr where
  /-- The task that called `exec`. -/
  task : ℕ
  /-- The descriptor of the program in that task. -/
  fd : ℕ
  /-- Which of the tasks at this address it was. -/
  gen : ℕ
  deriving DecidableEq, Repr

/-- The kernel with the files of the areas. -/
structure FileKernel where
  kernel : Kernel
  /-- `vm_file` of the areas of a task that have one. -/
  vmFiles : ℕ → List FilePtr
  /-- How many tasks were at an address; only for stating results. -/
  gen : ℕ → ℕ

/-- An action, with what `exec` finds: the descriptor of the program and the number of its
segments. -/
structure FAct where
  /-- What the kernel does. -/
  act : KAct
  /-- The descriptor that `exec` has opened. -/
  fd : ℕ
  /-- The number of segments of the program. -/
  segments : ℕ

/-- The action is a `fork`. -/
def KAct.isFork : KAct → Bool
  | .fork _ => true
  | _ => false

/-- The task that runs gets a new program. -/
def Kernel.execs (k : Kernel) : KAct → Bool
  | .execve found => found
  | .kernel _ outcome =>
    outcome && (k.info k.current).any fun t => t.frames.head? == some .runInit
  | _ => false

namespace FileKernel

variable {s s' : FileKernel} {k : Kernel} {a : FAct} {p q : ℕ} {ptr : FilePtr}

/-- There is a new task at `p`. -/
def isNew (s : FileKernel) (k : Kernel) (p : ℕ) : Bool :=
  (s.kernel.tasks p).isNone && (k.tasks p).isSome

/-- The files after a step of the kernel to `k`: `fork` copies them with the areas, `exec` sets
them. -/
def advance (s : FileKernel) (a : FAct) (k : Kernel) : FileKernel where
  kernel := k
  vmFiles p :=
    if s.isNew k p then if a.act.isFork then s.vmFiles s.kernel.current else []
    else if p = s.kernel.current ∧ s.kernel.execs a.act then
      List.replicate a.segments ⟨p, a.fd, s.gen p⟩
    else s.vmFiles p
  gen p := if s.isNew k p then s.gen p + 1 else s.gen p

/-- One step. -/
def step (s : FileKernel) (a : FAct) : Except Halt FileKernel := do
  let k ← s.kernel.step a.act
  .ok (s.advance a k)

/-- The task of the entry was not freed. -/
def Held (s : FileKernel) (ptr : FilePtr) : Prop :=
  s.kernel.tasks ptr.task ≠ none ∧ s.gen ptr.task = ptr.gen

/-- The entries behind the areas of the processes that have not exited belong to tasks that were not
freed. -/
def Backed (s : FileKernel) : Prop :=
  ∀ q, s.kernel.tasks q ≠ none → ¬ s.kernel.HasExited q → ∀ ptr ∈ s.vmFiles q, s.Held ptr

/-- No other process that has not exited runs the program that the task at `p` has loaded. -/
def Unused (s : FileKernel) (p : ℕ) : Prop :=
  ∀ q, q ≠ p → s.kernel.tasks q ≠ none → ¬ s.kernel.HasExited q → ∀ ptr ∈ s.vmFiles q, ptr.task ≠ p

/-- The condition on a step. -/
structure Spares (s : FileKernel) (a : FAct) : Prop where
  /-- `wait4` names a child of its caller. -/
  waits : s.kernel.Own a.act
  /-- A task for which `exit_st` is called is the last one to run the program that it has loaded. -/
  exits : ∀ k p status, s.kernel.Exits a.act k p status → s.Unused p

/-- In between, the entries belong to tasks that have not exited. -/
structure Inv (i : ℕ) (s : FileKernel) : Prop where
  good : Kernel.Good i s.kernel
  numbered : s.kernel.Numbered
  alive : ∀ q, s.kernel.tasks q ≠ none → ¬ s.kernel.HasExited q → ∀ ptr ∈ s.vmFiles q,
    s.Held ptr ∧ ¬ s.kernel.HasExited ptr.task

theorem isFork_iff {act : KAct} : act.isFork = true ↔ ∃ page, act = .fork page := by
  cases act <;> simp [KAct.isFork]

theorem isNew_of_some (h : s.kernel.tasks p ≠ none) : s.isNew k p = false := by
  obtain ⟨t, ht⟩ := Option.ne_none_iff_exists'.1 h
  rw [isNew, ht]
  rfl

/-- An entry stays if its task is not freed. -/
theorem Held.advance (h : s.Held ptr) (hkept : k.tasks ptr.task ≠ none) : (s.advance a k).Held ptr := by
  refine ⟨hkept, ?_⟩
  show (if s.isNew k ptr.task then _ else _) = _
  rw [isNew_of_some h.1]
  exact h.2

/-- A task that has not exited and is not passed to `exit_st` is there after the step, and has not exited. -/
theorem Inv.survives {i : ℕ} (h : s.Inv i) (hk : s.kernel.step a.act = .ok k)
    (hp : s.kernel.tasks p ≠ none) (hex : ¬ s.kernel.HasExited p)
    (hno : ∀ k₁ status, ¬ s.kernel.Exits a.act k₁ p status) : k.tasks p ≠ none ∧ ¬ k.HasExited p := by
  obtain ⟨n, hn⟩ := Option.ne_none_iff_exists'.1 hp
  have ht := Kernel.info_of_tasks hn
  refine ⟨fun hnone => ?_, fun hexited => ?_⟩
  · -- only a task that has exited is freed
    obtain ⟨t, ht', hz⟩ := ((Kernel.step_effect s.kernel a.act).of_eq_ok hk).freed p hp hnone
    exact hex ((h.good.hasExited_iff ht').2 hz)
  · obtain ⟨t', r, ht', hr⟩ := hexited
    have hpid := (Kernel.same_step hk ht ht').1
    rw [hpid] at hr
    rcases Kernel.exitLog_step hk with hlog | ⟨k₁, q, status, u, hx, hu, hlog⟩
    · rw [hlog] at hr
      exact hex ⟨_, r, ht, hr⟩
    · rw [hlog] at hr
      rcases List.mem_cons.1 hr with heq | hr
      · -- the task that exits has another pid
        obtain ⟨v, hv, hpidv⟩ := hx.pid_eq hu
        obtain rfl := h.numbered.pids.inj p q _ v ht hv ((Prod.mk.inj heq).1.trans hpidv.symm)
        exact hno k₁ status hx
      · exact hex ⟨_, r, ht, hr⟩

/-- A task that has exited or is passed to `exit_st` has exited after the step. -/
theorem hasExited_of_step (hk : s.kernel.step a.act = .ok k)
    (hp : s.kernel.tasks p ≠ none) (hp' : k.tasks p ≠ none) :
    (s.kernel.HasExited p → k.HasExited p) ∧
      ∀ k₁ status, s.kernel.Exits a.act k₁ p status → k.HasExited p := by
  obtain ⟨n, hn⟩ := Option.ne_none_iff_exists'.1 hp
  obtain ⟨n', hn'⟩ := Option.ne_none_iff_exists'.1 hp'
  have ht := Kernel.info_of_tasks hn
  have ht' := Kernel.info_of_tasks hn'
  have hpid := (Kernel.same_step hk ht ht').1
  constructor
  · rintro ⟨t, r, htr, hr⟩
    obtain rfl := Option.some.inj (ht.symm.trans htr)
    refine ⟨_, r, ht', ?_⟩
    rw [hpid]
    rcases Kernel.exitLog_step hk with hlog | ⟨_, _, _, _, -, -, hlog⟩
    · rw [hlog]
      exact hr
    · rw [hlog]
      exact List.mem_cons_of_mem _ hr
  · intro k₁ status hx
    obtain ⟨u, hu, hlog⟩ := Kernel.exitLog_of_exits hx hk
    obtain ⟨v, hv, hpidv⟩ := hx.pid_eq hu
    obtain rfl := Option.some.inj (ht.symm.trans hv)
    refine ⟨_, status, ht', ?_⟩
    rw [hpid, hpidv, hlog]
    exact List.mem_cons_self

/-- What a process that does not exit has as entries is still there after the step. -/
theorem Inv.kept {i : ℕ} (h : s.Inv i) (hspare : s.Spares a) (hk : s.kernel.step a.act = .ok k)
    (hq : s.kernel.tasks q ≠ none) (hex : ¬ s.kernel.HasExited q)
    (hno : ∀ k₁ status, ¬ s.kernel.Exits a.act k₁ q status) (hptr : ptr ∈ s.vmFiles q) :
    (s.advance a k).Held ptr ∧ ¬ k.HasExited ptr.task := by
  obtain ⟨hheld, halive⟩ := h.alive q hq hex ptr hptr
  have hsurvives := h.survives hk hheld.1 halive fun k₁ status hx => by
    by_cases heq : q = ptr.task
    · exact hno k₁ status (heq ▸ hx)
    · exact hspare.exits k₁ _ status hx q heq hq hex ptr hptr rfl
  exact ⟨hheld.advance hsurvives.1, hsurvives.2⟩

/-- **One step.** -/
theorem Inv.step {i : ℕ} (h : s.Inv i) (hspare : s.Spares a) (hstep : s.step a = .ok s') : s'.Inv i := by
  obtain ⟨k, hk, hs'⟩ := bind_eq_ok.1 hstep
  obtain rfl : s.advance a k = s' := Except.ok.inj hs'
  refine ⟨((h.good.step hspare.waits (h.numbered.pidRoom _)).of_eq_ok hk).1,
    Kernel.numbered_step h.numbered hk, fun q hq hex ptr hptr => ?_⟩
  have hfiles : ptr ∈ (if s.isNew k q then if a.act.isFork then s.vmFiles s.kernel.current else []
    else if q = s.kernel.current ∧ s.kernel.execs a.act then
      List.replicate a.segments ⟨q, a.fd, s.gen q⟩ else s.vmFiles q) := hptr
  by_cases hnew : s.isNew k q = true
  · rw [if_pos hnew] at hfiles
    split at hfiles
    · next hfork =>
      -- the process that forks is in user mode
      obtain ⟨page, hact⟩ := isFork_iff.1 hfork
      rw [hact] at hk
      obtain ⟨t, ht, hready⟩ := h.good.forks hk
      have hnone := mt (h.good.hasExited_iff ht).1 (TaskInfo.place_eq_taskHeadp.1 hready).2
      obtain ⟨n, hn⟩ := Kernel.info_eq_some.1 ht
      rw [← hact] at hk
      refine h.kept hspare hk (by rw [hn]; simp) hnone (fun k₁ status hx => ?_) hfiles
      rw [hact] at hx
      cases hx
    · cases hfiles
  · obtain ⟨n, hn⟩ := Option.ne_none_iff_exists'.1 hq
    have hq₀ : s.kernel.tasks q ≠ none := by
      intro hnone
      refine hnew ?_
      rw [isNew, hnone, show k.tasks q = some n from hn]
      rfl
    rw [if_neg hnew] at hfiles
    split at hfiles
    · obtain rfl := List.eq_of_mem_replicate hfiles
      exact ⟨Held.advance ⟨hq₀, rfl⟩ hq, hex⟩
    · -- a process that has not exited after the step had not before it, and does not exit in it
      have hmono := hasExited_of_step hk hq₀ hq
      exact h.kept hspare hk hq₀ (fun hold => hex (hmono.1 hold))
        (fun k₁ status hx => hex (hmono.2 k₁ status hx)) hfiles

/-- The kernel before a program was loaded. -/
def booted (k : Kernel) : FileKernel where
  kernel := k
  vmFiles _ := []
  gen _ := 0

theorem inv_booted {p₀ p₁ p₂ p₃ : ℕ} (h : [0, p₀, p₁, p₂, p₃].Nodup) :
    (booted (Kernel.started p₀ p₁ p₂ p₃)).Inv p₁ :=
  ⟨Kernel.good_started h, Kernel.started_numbered h, fun _ _ _ _ hptr => absurd hptr List.not_mem_nil⟩

/-- **The backing files outlive their mappings** in every run from boot in which nobody waits for a stranger
and no task exits while another process runs the program that it has loaded. -/
theorem backed_of_run {p₀ p₁ p₂ p₃ : ℕ} (h : [0, p₀, p₁, p₂, p₃].Nodup)
    (hboot : bootKernel p₀ p₁ p₂ p₃ = .ok k) {as : List FAct}
    (hal : Along FileKernel.step Spares (booted k) as)
    (hrun : run FileKernel.step (booted k) as = .ok s) : s.Backed := by
  obtain rfl := Except.ok.inj ((Kernel.bootKernel_eq h).symm.trans hboot)
  have hinv := run_invariant (I := Inv p₁) (inv_booted h)
    (fun s a s' hs hspare hstep => hs.step hspare hstep) hal hrun
  exact fun q hq hex ptr hptr => (hinv.alive q hq hex ptr hptr).1

/-! ### Testing the condition -/

/-- A test for `Exits`: the task for which the step calls `exit_st`. -/
def exiting (k : Kernel) : KAct → Option ℕ
  | .kernel _ outcome =>
    match (k.info k.current).bind fun t => t.frames.head? with
    | some .schedule =>
      match k.selectTaskStruct with
      | .ok next => if (k.info next).any TaskInfo.sigterm then some next else none
      | .error _ => none
    | some .runInit => if outcome then none else some k.current
    | _ => none
  | .exit _ => some k.current
  | .execve found => if found then none else some k.current
  | .segfault => some k.current
  | _ => none

theorem exiting_of_exits {act : KAct} {k₁ : Kernel} {status : ℤ} (h : k.Exits act k₁ p status) :
    exiting k act = some p := by
  cases h with
  | killed hin hsel hget hsig =>
    obtain ⟨u, fs, hu, hfs⟩ := hin
    have hn := Kernel.info_of_tasks (Kernel.get_eq_ok hget)
    simp [exiting, hu, hfs, hsel, hn, hsig]
  | init hin hpop =>
    obtain ⟨u, fs, hu, hfs⟩ := hin
    obtain ⟨t, -, -, rfl⟩ := Kernel.modify_cases hpop
    simp [exiting, hu, hfs]
    rfl
  | _ => rfl

/-- A test for `HasExited`. -/
def hasExitedB (k : Kernel) (p : ℕ) : Bool :=
  (k.info p).any fun t => k.exitLog.any fun e => e.1 == t.pid

theorem hasExited_of_test (h : hasExitedB k p = true) : k.HasExited p := by
  obtain ⟨t, ht, hlog⟩ := (Option.any_eq_true _ _).1 h
  obtain ⟨⟨pid, r⟩, hmem, hpid⟩ := List.any_eq_true.1 hlog
  obtain rfl : pid = t.pid := beq_iff_eq.1 hpid
  exact ⟨t, r, ht, hmem⟩

/-- A test for `Spares`, if all the tasks are below `n`. -/
def sparesB (n : ℕ) (s : FileKernel) (a : FAct) : Bool :=
  s.kernel.fairB a.act && (Kernel.pageOf a.act).all (fun page => decide (page < n)) &&
    (exiting s.kernel a.act).all fun p => (List.range n).all fun q =>
      q == p || (s.kernel.tasks q).isNone || hasExitedB s.kernel q ||
        (s.vmFiles q).all fun ptr => ptr.task != p

/-- All the tasks are below `n`. -/
def Below (n : ℕ) (s : FileKernel) : Prop := ∀ q, n ≤ q → s.kernel.tasks q = none

theorem Below.spares {i n : ℕ} (h : s.Below n) (hinv : s.Inv i) (htest : sparesB n s a = true) :
    s.Spares a := by
  simp only [sparesB, Bool.and_eq_true] at htest
  obtain ⟨⟨hfair, -⟩, hunused⟩ := htest
  refine ⟨(Kernel.fair_of_fairB hinv.good hfair).1, fun k₁ p status hx q hqp hq hex ptr hptr => ?_⟩
  have hlt : q < n := by
    by_contra hle
    exact hq (h q (not_lt.1 hle))
  rw [exiting_of_exits hx, Option.all_some] at hunused
  have hq' := List.all_eq_true.1 hunused q (List.mem_range.2 hlt)
  simp only [Bool.or_eq_true, beq_iff_eq, Option.isNone_iff_eq_none, List.all_eq_true, bne_iff_ne] at hq'
  rcases hq' with ((heq | hnone) | hexited) | hfiles
  · exact absurd heq hqp
  · exact absurd hnone hq
  · exact absurd (hasExited_of_test hexited) hex
  · exact hfiles ptr hptr

theorem Below.step {n : ℕ} (h : s.Below n) (htest : sparesB n s a = true)
    (hstep : s.step a = .ok s') : s'.Below n := by
  simp only [sparesB, Bool.and_eq_true] at htest
  obtain ⟨⟨-, hpage⟩, -⟩ := htest
  obtain ⟨k, hk, hs'⟩ := bind_eq_ok.1 hstep
  obtain rfl : s.advance a k = s' := Except.ok.inj hs'
  intro q hq
  by_contra hsome
  have hgives := ((Kernel.step_effect s.kernel a.act).of_eq_ok hk).created q (h q hq) hsome
  rcases hgives with hact | ⟨outcome, hact⟩ <;>
    · rw [hact] at hpage
      simp only [Kernel.pageOf, Option.all_some, decide_eq_true_eq] at hpage
      omega

/-- The same program for every `exec`. -/
def withProgram (acts : List KAct) : List FAct := acts.map fun act => ⟨act, 3, 2⟩

/-- The init process collects a child that ran its program. -/
theorem backed_forkWait : ∃ k s, bootKernel 10 11 12 13 = .ok k ∧ run FileKernel.step (booted k)
    (withProgram (Kernel.forkWaitActs ++ [.kernel 0 true])) = .ok s ∧ s.Backed := by
  have hpages : [0, 10, 11, 12, 13].Nodup := by decide
  have hrun : reaches (run FileKernel.step (booted (Kernel.started 10 11 12 13))
      (withProgram (Kernel.forkWaitActs ++ [.kernel 0 true])))
      (fun s => (s.kernel.tasks 14).isNone) = true := by
    decide +kernel
  obtain ⟨s, hs, -⟩ := exists_of_reaches hrun
  have htest : alongB FileKernel.step (sparesB 20) (booted (Kernel.started 10 11 12 13))
      (withProgram (Kernel.forkWaitActs ++ [.kernel 0 true])) = true := by
    decide +kernel
  have hbelow : (booted (Kernel.started 10 11 12 13)).Below 20 := by
    intro q hq
    simp [booted, Kernel.started, show q ≠ 10 by omega, show q ≠ 11 by omega,
      show q ≠ 12 by omega, show q ≠ 13 by omega]
  have hal : Along FileKernel.step (fun s a => s.Spares a ∧ sparesB 20 s a = true)
      (booted (Kernel.started 10 11 12 13))
      (withProgram (Kernel.forkWaitActs ++ [.kernel 0 true])) :=
    along_of_alongB (I := fun s => s.Inv 11 ∧ s.Below 20) ⟨inv_booted hpages, hbelow⟩
      (fun s a h ht => ⟨h.2.spares h.1 ht, ht⟩)
      (fun s a s' h hg hstep => ⟨h.1.step hg.1 hstep, h.2.step hg.2 hstep⟩) htest
  exact ⟨_, s, Kernel.bootKernel_eq hpages, hs,
    backed_of_run hpages (Kernel.bootKernel_eq hpages) (hal.mono fun _ _ => And.left) hs⟩

/-- The child of the init process loads a program, forks and exits; the init process collects it. -/
def orphanFileActs : List KAct :=
  [.kernel 0 true, .kernel 0 true, .kernel 0 true, .kernel 0 true, .timer, .kernel 0 true,
    .kernel 0 true, .fork 14, .wait4 4, .kernel 0 true, .timer, .kernel 0 true, .execve true,
    .fork 15, .exit 7, .kernel 0 true, .timer, .kernel 0 true, .timer, .kernel 0 true,
    .kernel 0 true]

/-- The grandchild then has areas with a file of a task that was freed. -/
theorem backed_fails : ¬∀ (p₀ p₁ p₂ p₃ : ℕ) (k : Kernel) (as : List FAct) (s : FileKernel),
    bootKernel p₀ p₁ p₂ p₃ = .ok k → run FileKernel.step (booted k) as = .ok s → s.Backed := by
  intro hall
  have hrun : reaches (run FileKernel.step (booted (Kernel.started 10 11 12 13))
      (withProgram orphanFileActs)) (fun s => (s.kernel.tasks 15).isSome &&
        (s.kernel.info 15).all (fun t => s.kernel.exitLog.all fun e => e.1 != t.pid) &&
        (s.kernel.tasks 14).isNone && (s.vmFiles 15).any fun ptr => ptr.task == 14) = true := by
    decide +kernel
  obtain ⟨s, hs, htest⟩ := exists_of_reaches hrun
  simp only [Bool.and_eq_true, Option.isNone_iff_eq_none, List.any_eq_true, Option.all_eq_true,
    List.all_eq_true, bne_iff_ne, beq_iff_eq] at htest
  obtain ⟨⟨⟨hsome, hlog⟩, hfreed⟩, ptr, hptr, htask⟩ := htest
  have hbacked := hall 10 11 12 13 _ _ s (Kernel.bootKernel_eq (by decide)) hs
  have hex : ¬ s.kernel.HasExited 15 := by
    rintro ⟨t, r, ht, hr⟩
    exact hlog t ht _ hr rfl
  have hheld := hbacked 15 (Option.isSome_iff_ne_none.1 hsome) hex ptr hptr
  rw [Held, htask] at hheld
  exact hheld.1 hfreed

end FileKernel

end PlumOs
