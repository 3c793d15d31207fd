import PlumOs.Proc.Effect

/-!
# Tasks that were killed (`sys/process.c`, `sys/syscall.c`)

`kill_by_pid` sets `sigterm`, and `schedule` calls `exit_st` for a task that it selects and that has
`sigterm` set.  `select_task_struct` looks up `current` on `task_headp` by its pid.

* `Watched` : the kernel, with the tasks that were killed;
* `NeverAgain` : `schedule` makes current neither a task that was killed nor one on `zombie_list`;
* `neverAgain_iff_not_revives` : so it is exactly if `schedule` is not called by a zombie in front of another
  one while some task that is ready has the same pid;
* `neverAgain_of_run` : **in every run neither a killed task nor a zombie is ever made current**, as no pid
  is given out twice.
-/

namespace PlumOs

namespace Kernel

variable {s s' s₁ s₂ : Kernel} {L : ListId → List ℕ} {p page : ℕ} {t : TaskInfo} {a : KAct}

/-! ### What `exit_st` does to the task and to its caller -/

/-- The frames of the task at `p`. -/
def framesOf (s : Kernel) (p : ℕ) : Option (List KFrame) := (s.info p).map TaskInfo.frames

theorem framesOf_update {m : Kernel} {q : ℕ} {u u' : TaskInfo} (hu : s.info q = some u)
    (hm : m.info = Function.update s.info q (some u')) (hf : u'.frames = u.frames) (p : ℕ) :
    m.framesOf p = s.framesOf p := by
  rw [framesOf, framesOf, hm, Function.update_apply]
  split
  · next h =>
    rw [h, hu]
    exact congrArg some hf
  · rfl

theorem Woken.framesOf {l : ListId} (h : s.Woken L l p s') (q : ℕ) : s'.framesOf q = s.framesOf q := by
  obtain ⟨t, ht, hm⟩ := h.info
  exact framesOf_update ht hm rfl q

theorem Woken.mem_of_ne {l : ListId} (h : s.Woken L l p s') (hL : s.Lists L) {k : ListId} (hk : k ≠ l)
    {q : ℕ} (hq : q ∈ L k) : q ∈ moved L l .taskHeadp p k := by
  refine mem_moved_of_ne ?_ hq
  rintro rfl
  exact hk (hL.disjoint _ _ q hq h.mem)

theorem countOrphan_cases (hL : s.Lists L) (hs : s.countOrphan = .ok s') :
    (wrap32 (s.zombieCount + 1) ≠ 50 ∧ s' = { s with zombieCount := wrap32 (s.zombieCount + 1) }) ∨
      wrap32 (s.zombieCount + 1) = 50 ∧
        Woken { s with zombieCount := wrap32 (s.zombieCount + 1) } L .sleepTaskList s.clearZombie s' := by
  rw [countOrphan] at hs
  split at hs
  · next h => exact .inr ⟨h, wakeup_cases (hL.globals le_rfl) (by decide) hs⟩
  · next h => exact .inl ⟨h, (Except.ok.inj hs).symm⟩

/-- What `exit_st` leaves: the task on `zombie_list`, and a call of `schedule` by the task that runs. -/
structure Buried (s : Kernel) (p : ℕ) (s' : Kernel) : Prop where
  mem : s'.On .zombieList p
  current : s'.current = s.current
  frames : s'.framesOf s.current = (s.framesOf s.current).map (.schedule :: ·)

theorem pushFrame_buried (hL : s₂.Lists L) (hp : p ∈ L .zombieList) (hcur : s₂.current = s.current)
    (hf : s₂.framesOf s.current = s.framesOf s.current) (hs : s₂.pushFrame .schedule = .ok s') :
    s.Buried p s' := by
  obtain ⟨t, -, ht, rfl⟩ := modify_cases hs
  refine ⟨(hL.assign.on_iff).2 hp, hcur, ?_⟩
  rw [← hf, framesOf, framesOf, assign_info, hcur, Function.update_self, ← hcur, ht]
  rfl

theorem exitSt_buried {status : ℤ} (hL : s.Lists L) (hs : s.exitSt p status = .ok s') :
    s.Buried p s' := by
  obtain ⟨t, s₁, s₂, u, ht, hdead, htold, hu, hafter⟩ := exitSt_cases hL hs
  have hf₁ := framesOf_update ht hdead.info rfl s.current
  have hcur₁ : s₁.current = s.current := by rw [hdead.globals]
  -- the father is told
  obtain ⟨L₂, hL₂, hp₂, hcur₂, hf₂⟩ : ∃ L₂, s₂.Lists L₂ ∧ p ∈ L₂ .zombieList ∧
      s₂.current = s.current ∧ s₂.framesOf s.current = s.framesOf s.current := by
    cases htold with
    | orphan h =>
      subst h
      have ht₁ : s₁.info p = some { t with exitStatus := status, state := .zombie } := by
        rw [hdead.info, Function.update_self]
      refine ⟨_, hdead.lists.assign, mem_moved_self, hcur₁, ?_⟩
      rw [← hf₁]
      refine framesOf_update ht₁ assign_info ?_ _
      rfl
    | father f v hw hv hpid hwoken =>
      exact ⟨_, hwoken.lists, hwoken.mem_of_ne hdead.lists (by decide) mem_moved_self,
        (congrArg Globals.current hwoken.globals).trans hcur₁, (hwoken.framesOf _).trans hf₁⟩
  -- an orphan is counted
  obtain ⟨s₃, ⟨-, hcount⟩ | ⟨-, rfl⟩, hpush⟩ := afterTold_cases hafter
  · have hL₃ : Lists { s₂ with zombieCount := wrap32 (s₂.zombieCount + 1) } L₂ := hL₂.globals le_rfl
    rcases countOrphan_cases hL₂ hcount with ⟨-, rfl⟩ | ⟨-, hwoken⟩
    · exact pushFrame_buried hL₃ hp₂ hcur₂ hf₂ hpush
    · exact pushFrame_buried hwoken.lists (hwoken.mem_of_ne hL₃ (by decide) hp₂)
        ((congrArg Globals.current hwoken.globals).trans hcur₂) ((hwoken.framesOf _).trans hf₂) hpush
  · exact pushFrame_buried hL₂ hp₂ hcur₂ hf₂ hpush

/-! ### `schedule` -/

/-- What one turn of the loop of `schedule` does: the selected task exits, or it runs. -/
theorem schedule_cases (hs : s.schedule = .ok s') : ∃ next n, s.selectTaskStruct = .ok next ∧
    s.tasks next = some n ∧ (n.sigterm = true ∧ s.exitSt next 1 = .ok s' ∨
      n.sigterm = false ∧ ∃ s₁, s.popFrame = .ok s₁ ∧ s' = { s₁ with current := next }) := by
  rw [schedule] at hs
  obtain ⟨next, hsel, hrest⟩ := bind_eq_ok.1 hs
  obtain ⟨n, hget, hturn⟩ := bind_eq_ok.1 hrest
  clear hs hrest
  refine ⟨next, n, hsel, get_eq_ok hget, ?_⟩
  split at hturn
  · next hsig => exact .inl ⟨hsig, hturn⟩
  · next hsig =>
    obtain ⟨s₁, hpop, hswitch⟩ := bind_eq_ok.1 hturn
    refine .inr ⟨by simpa using hsig, s₁, hpop, ?_⟩
    obtain ⟨u, -, -, rfl⟩ := modify_cases hpop
    split at hswitch
    · next hme => rw [← Except.ok.inj hswitch, hme]
    · exact (Except.ok.inj hswitch).symm

/-- The call of `schedule` under way ends in the step, and then `p` runs. -/
def Dispatches (s s' : Kernel) (p : ℕ) : Prop :=
  s.Innermost .schedule ∧ s'.framesOf s.current = (s.framesOf s.current).map List.tail ∧ s'.current = p

/-- `schedule` is called by a task on `zombie_list` that has another zombie behind it, which was not
killed, while a task that is ready has the pid of the caller. -/
structure Revives (s : Kernel) (a : KAct) : Prop where
  /-- The action is one of the kernel. -/
  act : ∃ page outcome, a = .kernel page outcome
  /-- The task that runs is inside `schedule`. -/
  inside : s.Innermost .schedule
  /-- The task that runs is a zombie. -/
  dead : s.On .zombieList s.current
  /-- The task behind it was not killed. -/
  behind : ∃ t, s.info (s.nextOf s.current) = some t ∧ t.sigterm = false
  /-- A ready task has the same pid. -/
  twin : ∃ q t u, s.On .taskHeadp q ∧ s.info q = some t ∧ s.info s.current = some u ∧ t.pid = u.pid

/-- No interrupt is taken inside `schedule`. -/
theorem schedule_of_step (hin : s.Innermost .schedule) (hstep : s.step a = .ok s') :
    (∃ page outcome, a = .kernel page outcome) ∧ s.schedule = .ok s' := by
  have hact : ∃ page outcome, a = .kernel page outcome := by
    obtain ⟨t, fs, ht, hf⟩ := hin
    obtain ⟨n, hn⟩ := info_eq_some.1 ht
    rw [step] at hstep
    obtain ⟨u, hget, hrest⟩ := bind_eq_ok.1 hstep
    obtain rfl := Option.some.inj (hn.symm.trans (get_eq_ok hget))
    cases a with
    | kernel page outcome => exact ⟨page, outcome, rfl⟩
    | _ => simp only [hf] at hrest; cases hrest
  refine ⟨hact, ?_⟩
  obtain ⟨page, outcome, rfl⟩ := hact
  exact kernelStep_of_step hin hstep

theorem schedule_ok {next : ℕ} {n : Task} (hsel : s.selectTaskStruct = .ok next)
    (hn : s.get next = .ok n) (hsig : n.sigterm = false) (hcur : s.current ≠ 0)
    (ht : s.info s.current = some t) : s.schedule =
      .ok { s.assign s.current { t with frames := t.frames.tail } with current := next } := by
  have hpop : s.popFrame = .ok (s.assign s.current { t with frames := t.frames.tail }) :=
    modify_ok hcur ht _
  rw [schedule, hsel, ok_bind, hn, ok_bind, if_neg (by rw [hsig]; decide), hpop, ok_bind]
  split
  · next hme => rw [hme]; rfl
  · rfl

theorem not_dispatches_of_buried {r : ℕ} (h : s.Buried r s') : ¬ s.Dispatches s' p := by
  rintro ⟨⟨t, fs, ht, hf⟩, hpop, -⟩
  rw [h.frames, framesOf, ht] at hpop
  have hlength := congrArg List.length (Option.some.inj hpop)
  simp only [hf, List.length_cons, List.tail_cons] at hlength
  omega

/-- Behind a task that is not ready, `select_task_struct` finds a task of the same list. -/
theorem mem_of_select (hw : s.Whole) {n : ℕ} (hsel : s.selectTaskStruct = .ok n)
    (hdead : s.On .zombieList n) : s.On .zombieList s.current ∧ n = s.nextOf s.current ∧
      ∃ q t u, s.On .taskHeadp q ∧ s.info q = some t ∧ s.info s.current = some u ∧ t.pid = u.pid := by
  obtain ⟨L, hL, hall⟩ := hw
  rw [hL.on_iff] at hdead
  rcases selectTaskStruct_cases hL hsel with hready | ⟨-, hnext, hne, u, q, t, hu, hq, ht, hpid⟩
  · exact absurd (hL.disjoint _ _ n hready hdead) (by decide)
  · obtain ⟨l, hl⟩ := hall _ u hu
    have hnl : n ∈ L l := by
      rw [hnext]
      exact (hL.linked l).next_mem hl (by rwa [← hnext])
    obtain rfl := hL.disjoint _ _ n hnl hdead
    exact ⟨hL.on_iff.2 hl, hnext, q, t, u, hL.on_iff.2 hq, ht, hu, hpid⟩

/-- In front of another zombie, with a twin that is ready, `select_task_struct` returns the zombie. -/
theorem select_behind (hw : s.Whole) (h : s.Revives a) :
    s.selectTaskStruct = .ok (s.nextOf s.current) ∧ s.On .zombieList (s.nextOf s.current) := by
  obtain ⟨L, hL, hall⟩ := hw
  obtain ⟨z, hz, -⟩ := h.behind
  obtain ⟨q, t, u, hq, ht, hu, hpid⟩ := h.twin
  obtain ⟨l, hl⟩ := hall _ z hz
  have hz0 := hL.ne_zero hl
  have hcur := hL.on_iff.1 h.dead
  have hget := get_of_info (hL.ne_zero hcur) hu
  refine ⟨?_, hL.on_iff.2 ((hL.linked _).next_mem hcur hz0)⟩
  rcases findProcessByPid_spec hL .taskHeadp u.pid with ⟨-, hnone⟩ | ⟨y, -, v, -, -, hsome⟩
  · exact absurd hpid (hnone q (hL.on_iff.1 hq) t ht)
  · rw [selectTaskStruct, hget, ok_bind, hsome, ok_bind]
    simp only [Option.isSome_some, if_true, hget, ok_bind, if_pos hz0]
    rfl

end Kernel

/-- The kernel, with the tasks that were killed since they were made; only for stating results. -/
structure Watched where
  /-- The kernel. -/
  kernel : Kernel
  /-- The tasks that were killed, by their addresses. -/
  killed : ℕ → Bool

namespace Watched

open Kernel

variable {w w' : Watched} {a : KAct} {p : ℕ}

/-- One step.  A task that has had `sigterm` set counts as killed until its page is freed. -/
def step (w : Watched) (a : KAct) : Except Halt Watched := do
  let k ← w.kernel.step a
  return { kernel := k, killed := fun p => (k.tasks p).any fun t => t.sigterm || w.killed p }

/-- `schedule` makes current neither a task that was killed nor one on `zombie_list`; a task that was
killed goes to `zombie_list` when it is selected. -/
structure NeverAgain (w : Watched) (a : KAct) : Prop where
  current : ∀ w' p, w.step a = .ok w' → w.kernel.Dispatches w'.kernel p →
    w.killed p = false ∧ ¬ w'.kernel.On .zombieList p
  reaped : ∀ w' p, w.step a = .ok w' → w.kernel.Innermost .schedule →
    w.kernel.selectTaskStruct = .ok p → w.killed p = true → w'.kernel.On .zombieList p

/-- The lists are whole, every task has its own pid, and a task that was killed has `sigterm` set. -/
structure Inv (w : Watched) : Prop where
  whole : w.kernel.Whole
  numbered : w.kernel.Numbered
  killed : ∀ p, w.killed p = true → ∃ t, w.kernel.info p = some t ∧ t.sigterm = true

theorem kernel_of_step (h : w.step a = .ok w') : w.kernel.step a = .ok w'.kernel ∧
    w'.killed = fun p => (w'.kernel.tasks p).any fun t => t.sigterm || w.killed p := by
  obtain ⟨k, hk, hw'⟩ := bind_eq_ok.1 h
  obtain rfl := Except.ok.inj hw'
  exact ⟨hk, rfl⟩

theorem Inv.step (h : w.Inv) (hstep : w.step a = .ok w') : w'.Inv := by
  obtain ⟨hk, hkilled⟩ := kernel_of_step hstep
  refine ⟨whole_step h.whole hk, numbered_step h.numbered hk, fun p hp => ?_⟩
  rw [hkilled] at hp
  obtain ⟨t, ht, hor⟩ := (Option.any_eq_true _ _).1 hp
  refine ⟨t.toTaskInfo, info_of_tasks ht, ?_⟩
  rcases Bool.or_eq_true_iff.1 hor with hsig | hold
  · exact hsig
  · obtain ⟨u, hu, hsig⟩ := h.killed p hold
    exact (same_step hk hu (info_of_tasks ht)).2 hsig

/-- **What one step does**, in a state with the invariant. -/
theorem neverAgain_iff_not_revives (h : w.Inv) : w.NeverAgain a ↔ ¬ w.kernel.Revives a := by
  constructor
  · intro hnever hrev
    obtain ⟨hsel, hzombie⟩ := select_behind h.whole hrev
    obtain ⟨page, outcome, rfl⟩ := hrev.act
    obtain ⟨z, hz, hsig⟩ := hrev.behind
    obtain ⟨q, t, u, -, -, hu, -⟩ := hrev.twin
    obtain ⟨L, hL, hall⟩ := id h.whole
    have hz0 := hL.ne_zero (hL.on_iff.1 hzombie)
    have hcur := hL.ne_zero (hL.on_iff.1 hrev.dead)
    have hsched := schedule_ok hsel (get_of_info hz0 hz) hsig hcur hu
    have hk : w.kernel.step (.kernel page outcome) = _ :=
      (step_kernel hrev.inside hcur page outcome).trans hsched
    refine (hnever.current _ (w.kernel.nextOf w.kernel.current)
      (by rw [Watched.step, hk]; rfl) ⟨hrev.inside, ?_, rfl⟩).2 (hL.assign.on_iff.2 (hL.on_iff.1 hzombie))
    have hpopped := congrFun (assign_info (s := w.kernel) (p := w.kernel.current)
      (t := { u with frames := u.frames.tail })) w.kernel.current
    rw [Function.update_self] at hpopped
    show (Kernel.info _ _).map _ = ((Kernel.info _ _).map _).map _
    rw [hu]
    exact congrArg (Option.map TaskInfo.frames) hpopped
  · intro hno
    refine ⟨fun w' p hstep hdis => ?_, fun w' p hstep hin hsel hkilled => ?_⟩
    · obtain ⟨hk, -⟩ := kernel_of_step hstep
      obtain ⟨hact, hsched⟩ := schedule_of_step hdis.1 hk
      obtain ⟨L, hL, hall⟩ := id h.whole
      obtain ⟨next, n, hsel, hn, ⟨hsig, hexit⟩ | ⟨hsig, s₁, hpop, hs'⟩⟩ := schedule_cases hsched
      · exact absurd hdis (not_dispatches_of_buried (exitSt_buried hL hexit))
      · obtain ⟨u, -, -, rfl⟩ := modify_cases hpop
        have hp : next = p := by rw [← hdis.2.2, hs']
        subst hp
        refine ⟨?_, fun hzombie => hno ?_⟩
        · cases hkilled : w.killed next with
          | false => rfl
          | true =>
            obtain ⟨t, ht, hsig'⟩ := h.killed next hkilled
            obtain rfl := Option.some.inj (ht.symm.trans (info_of_tasks hn))
            exact absurd (hsig'.symm.trans hsig) (by decide)
        · have hL' : w'.kernel.Lists L := by
            rw [hs']
            exact hL.assign.globals le_rfl
          have hbefore : w.kernel.On .zombieList next := hL.on_iff.2 (hL'.on_iff.1 hzombie)
          obtain ⟨hdead, hnext, htwin⟩ := mem_of_select h.whole hsel hbefore
          exact ⟨hact, hdis.1, hdead, ⟨_, by rw [← hnext]; exact info_of_tasks hn, hsig⟩, htwin⟩
    · obtain ⟨hk, -⟩ := kernel_of_step hstep
      obtain ⟨-, hsched⟩ := schedule_of_step hin hk
      obtain ⟨L, hL, -⟩ := h.whole
      obtain ⟨t, ht, hsig'⟩ := h.killed p hkilled
      obtain ⟨next, n, hsel', hn, ⟨-, hexit⟩ | ⟨hsig, -⟩⟩ := schedule_cases hsched
      · obtain rfl := Except.ok.inj (hsel'.symm.trans hsel)
        exact (exitSt_buried hL hexit).mem
      · obtain rfl := Except.ok.inj (hsel'.symm.trans hsel)
        obtain rfl := Option.some.inj (ht.symm.trans (info_of_tasks hn))
        exact absurd (hsig'.symm.trans hsig) (by decide)

/-- As no pid is given out twice, no zombie is revived. -/
theorem not_revives {s : Kernel} (hw : s.Whole) (hn : s.Numbered) : ¬ s.Revives a := by
  intro h
  obtain ⟨q, t, u, hq, ht, hu, hpid⟩ := h.twin
  obtain ⟨L, hL, -⟩ := hw
  obtain rfl := hn.pids.inj q _ t u ht hu hpid
  exact absurd (hL.disjoint _ _ _ (hL.on_iff.1 hq) (hL.on_iff.1 h.dead)) (by decide)

/-- **Neither a killed task nor a zombie is ever made current**, in any run from boot. -/
theorem neverAgain_of_run {p₀ p₁ p₂ p₃ : ℕ} (h : [0, p₀, p₁, p₂, p₃].Nodup) {s₀ : Kernel}
    (hboot : bootKernel p₀ p₁ p₂ p₃ = .ok s₀) (as : List KAct) :
    Along step NeverAgain ⟨s₀, fun _ => false⟩ as := by
  obtain rfl := Except.ok.inj ((bootKernel_eq h).symm.trans hboot)
  have hinv : Inv ⟨started p₀ p₁ p₂ p₃, fun _ => false⟩ :=
    ⟨(started_listed h).whole, started_numbered h, fun p hp => absurd hp Bool.false_ne_true⟩
  refine along_of_invariant hinv (fun w a hw => ?_) (fun w a w' hw hstep => hw.step hstep) as
  exact (neverAgain_iff_not_revives hw).2 (not_revives hw.whole hw.numbered)

/-- The init process forks a child and kills it.  The idle thread selects the child, which exits, and the
inner call of `schedule` selects the init process. -/
def killActs : List KAct :=
  [.kernel 0 true, .kernel 0 true, .kernel 0 true, .kernel 0 true, .timer, .kernel 0 true,
    .kernel 0 true, .fork 14, .kill 4 9, .timer, .kernel 0 true, .timer, .kernel 0 true,
    .kernel 0 true, .timer, .kernel 0 true, .kernel 0 true]

theorem neverAgain_of_run_kill : ∃ s₀, bootKernel 10 11 12 13 = .ok s₀ ∧
    Along step NeverAgain ⟨s₀, fun _ => false⟩ killActs ∧
      reaches (run step ⟨s₀, fun _ => false⟩ killActs) (fun w => w.killed 14) = true := by
  have hpages : [0, 10, 11, 12, 13].Nodup := by decide
  refine ⟨_, bootKernel_eq hpages, neverAgain_of_run hpages (bootKernel_eq hpages) killActs, ?_⟩
  decide +kernel

end Watched

end PlumOs
