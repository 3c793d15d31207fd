import PlumOs.Proc.Whole

/-!
# What a step makes, frees and logs

* `Effect`, `step_effect` : **a step frees only zombies**, and makes a task only where it is given a page;
* `same_step` : a task keeps its pid, and nothing takes back a signal;
* `exitLog_step` : **a step logs the exit of the task that it calls `exit_st` for**, and no other.
-/

namespace PlumOs

namespace Kernel

variable {s s' s₁ : Kernel} {p q page : ℕ} {t : TaskInfo} {l : ListId}
  {a : KAct} {status : ℤ}

/-! ### What the operations do to the set of tasks -/

/-- No task goes and none comes. -/
def SameTasks (s s' : Kernel) : Prop := ∀ p, s'.tasks p = none ↔ s.tasks p = none

theorem SameTasks.refl (s : Kernel) : s.SameTasks s := fun _ => Iff.rfl

theorem SameTasks.trans {s₂ : Kernel} (h : s.SameTasks s₁) (h' : s₁.SameTasks s₂) : s.SameTasks s₂ :=
  fun p => (h' p).trans (h p)

theorem sameTasks_of_info (h : s'.info = s.info) : s.SameTasks s' := fun p => by
  rw [← info_eq_none, h, info_eq_none]

theorem closed_sameTasks : Closed SameTasks fun _ _ => True where
  refl := SameTasks.refl
  trans _ _ _ := SameTasks.trans
  assign s p u t hu _ q := by
    show Function.update s.tasks p _ q = none ↔ s.tasks q = none
    by_cases hq : q = p
    · rw [hq, hu, Function.update_self]
      simp
    · rw [Function.update_of_ne hq]
  current _ _ _ := Iff.rfl
  zombieCount _ _ _ := Iff.rfl
  exitLog _ _ _ := Iff.rfl
  waitLog _ _ _ := Iff.rfl
  asleep := trivial
  dead := trivial
  awake := trivial
  move s s₁ _ l l' p _ hrem hadd := sameTasks_of_info
    (((addToTasklist_info s₁ l' p).of_eq_ok hadd).trans ((removeFromTasklist_info s l p).of_eq_ok hrem))

/-! ### Creation and the end of tasks -/

/-- Only the task at `page` may be new. -/
def Adds (s : Kernel) (page : ℕ) (s' : Kernel) : Prop :=
  ∀ p, p ≠ page → (s'.tasks p = none ↔ s.tasks p = none)

theorem Born.adds (h : s.Born page t s') : s.Adds page s' ∧ s.tasks page = none ∧
    s'.tasks page ≠ none := by
  obtain ⟨-, hnone, hinfo⟩ := h.info_eq
  refine ⟨fun p hp => ?_, info_eq_none.1 hnone, fun hpage => ?_⟩
  · rw [← info_eq_none, hinfo, Function.update_of_ne hp, info_eq_none]
  · rw [← info_eq_none, hinfo, Function.update_self] at hpage
    cases hpage

/-- The loop of `thread_clear` frees zombies that are orphans. -/
theorem clearFrom_info (fuel p : ℕ) (s : Kernel) : Yields (clearFrom fuel p s) (fun s' =>
    ∀ q, s'.info q = s.info q ∨ s'.info q = none ∧ ∃ t, s.info q = some t ∧ t.state = .zombie ∧
      t.orphan = true) fun _ => True := by
  induction fuel generalizing p s with
  | zero => trivial
  | succ fuel ih =>
    rw [clearFrom]
    split
    · exact fun q => .inl rfl
    cases hget : s.get p with
    | error e => trivial
    | ok u =>
      have hu := info_of_tasks (get_eq_ok hget)
      show Yields (if u.orphan = true then _ else _) _ _
      split
      · next horphan =>
        refine yields_bind (freeProcess_info s p) fun s₁ hfree => ?_
        obtain ⟨h₁, t, ht, hz⟩ := hfree
        obtain rfl := Option.some.inj (hu.symm.trans ht)
        refine (ih u.next s₁).mono fun s₂ h₂ q => ?_
        by_cases hq : q = p
        · subst hq
          refine .inr ⟨?_, _, hu, hz, horphan⟩
          rcases h₂ q with heq | ⟨hnone, -⟩
          · rw [heq, h₁, Function.update_self]
          · exact hnone
        · have hsame : s₁.info q = s.info q := by rw [h₁, Function.update_of_ne hq]
          rw [← hsame]
          exact h₂ q
      · exact ih u.next s

/-! ### One step -/

/-- The action gives the page to a new task. -/
def Gives (a : KAct) (p : ℕ) : Prop := a = .fork p ∨ ∃ outcome, a = .kernel p outcome

theorem gives_of_pageOf {a : KAct} (h : pageOf a = some p) : Gives a p := by
  cases a with
  | kernel page outcome =>
    obtain rfl := Option.some.inj h
    exact .inr ⟨outcome, rfl⟩
  | fork page =>
    obtain rfl := Option.some.inj h
    exact .inl rfl
  | _ => cases h

/-- Only zombies go, and a task comes only where the step is given a page. -/
structure Effect (s : Kernel) (a : KAct) (s' : Kernel) : Prop where
  freed : ∀ p, s.tasks p ≠ none → s'.tasks p = none → ∃ t, s.info p = some t ∧ t.state = .zombie
  created : ∀ p, s.tasks p = none → s'.tasks p ≠ none → Gives a p

theorem Adds.effect {a : KAct} (h : s.Adds page s') (hsome : s'.tasks page ≠ none)
    (hgives : Gives a page) : s.Effect a s' where
  freed p hp hnone := by
    by_cases hpage : p = page
    · rw [hpage] at hnone
      exact absurd hnone hsome
    · exact absurd ((h p hpage).1 hnone) hp
  created p hnone hp := by
    by_cases hpage : p = page
    · rw [hpage]
      exact hgives
    · exact absurd ((h p hpage).2 hnone) hp

theorem SameTasks.effect {a : KAct} (h : s.SameTasks s') : s.Effect a s' :=
  ⟨fun p hp hnone => absurd ((h p).1 hnone) hp, fun p hnone hp => absurd ((h p).2 hnone) hp⟩

/-- `waitpid` behind the sleep frees the child. -/
theorem waitpidReturn_effect (a : KAct) (c : ℕ) :
    Yields (s.waitpidReturn c) (s.Effect a) fun _ => True := by
  rw [waitpidReturn]
  cases s.get s.current with
  | error e => trivial
  | ok u =>
    cases s.get c with
    | error e => trivial
    | ok v =>
      rw [ok_bind, ok_bind]
      refine yields_bind (freeProcess_info s c) fun s₁ hfree => ?_
      obtain ⟨h₁, hzombie⟩ := hfree
      refine yields_bind (closed_sameTasks.popFrame s₁) fun s₂ h₂ => ?_
      have hother : ∀ p, p ≠ c → (s₁.tasks p = none ↔ s.tasks p = none) := fun p hpc => by
        rw [← info_eq_none, h₁, Function.update_of_ne hpc, info_eq_none]
      refine ⟨fun p hp hnone => ?_, fun p hnone hp => ?_⟩
      · by_cases hpc : p = c
        · rw [hpc]
          exact hzombie
        · exact absurd ((hother p hpc).1 ((h₂ p).1 hnone)) hp
      · refine absurd ((h₂ p).2 ?_) hp
        by_cases hpc : p = c
        · rw [← info_eq_none, h₁, hpc, Function.update_self]
        · exact (hother p hpc).2 hnone

/-- `thread_clear` frees the orphans. -/
theorem threadClear_effect (a : KAct) : Yields s.threadClear (s.Effect a) fun _ => True := by
  rw [threadClear]
  refine yields_bind (clearFrom_info s.fuel (s.head .zombieList) s) fun s₁ h₁ => ?_
  refine (closed_sameTasks.sleep trivial { s₁ with zombieCount := 0 }).mono fun s₂ h₂ => ?_
  refine ⟨fun p hp hnone => ?_, fun p hnone hp => ?_⟩
  · have hnone₁ : s₁.info p = none := info_eq_none.2 ((h₂ p).1 hnone)
    rcases h₁ p with heq | ⟨-, t, ht, hzombie, -⟩
    · rw [heq, info_eq_none] at hnone₁
      exact absurd hnone₁ hp
    · exact ⟨t, ht, hzombie⟩
  · refine absurd ((h₂ p).2 ?_) hp
    rcases h₁ p with heq | ⟨hnone₁, -⟩
    · exact info_eq_none.1 (heq.trans (info_eq_none.2 hnone))
    · exact info_eq_none.1 hnone₁

/-- A step that frees no task. -/
theorem Made.effect {a : KAct} (h : Made SameTasks a s s') : s.Effect a s' := by
  rcases h with h | ⟨page, s₁, t, s₂, hpage, h₁, hborn, -, h₂⟩
  · exact h.effect
  · obtain ⟨hadds, -, hsome⟩ := hborn.adds
    have hadds' : s.Adds page s' := fun p hp => ((h₂ p).trans (hadds p hp)).trans (h₁ p)
    exact hadds'.effect (mt (h₂ page).1 hsome) (gives_of_pageOf hpage)

/-- **A step frees only zombies**, and makes a task only where it is given a page. -/
theorem step_effect (s : Kernel) (a : KAct) : Yields (s.step a) (s.Effect a) fun _ => True := by
  cases hstep : s.step a with
  | error e => trivial
  | ok s' =>
    rcases closed_sameTasks.step_cases trivial trivial (fun _ _ _ => Iff.rfl) hstep with
      hmade | ⟨f, page, outcome, rfl, hin, hf, hs'⟩
    · exact hmade.effect
    cases f with
    | waitFree c => exact (waitpidReturn_effect _ c).of_eq_ok hs'
    | threadClear => exact (threadClear_effect _).of_eq_ok hs'
    | _ => cases hf

/-! ### Pids and signals -/

/-- Every task was there before with its pid, and is killed if it was. -/
def Older (s s' : Kernel) : Prop := ∀ p t', s'.info p = some t' →
  ∃ t, s.info p = some t ∧ t'.pid = t.pid ∧ (t.sigterm = true → t'.sigterm = true)

theorem older_of_info (h : s'.info = s.info) : s.Older s' :=
  fun p t' ht' => ⟨t', by rw [← h]; exact ht', rfl, id⟩

theorem closed_older : Closed Older fun _ _ => True where
  refl s := older_of_info rfl
  trans s s₁ s₂ h h' p t₂ ht₂ := by
    obtain ⟨t₁, ht₁, hpid₁, hsig₁⟩ := h' p t₂ ht₂
    obtain ⟨t, ht, hpid, hsig⟩ := h p t₁ ht₁
    exact ⟨t, ht, hpid₁.trans hpid, hsig₁ ∘ hsig⟩
  assign s p u t hu ha q t' ht' := by
    rw [put_eq_assign hu, assign_info] at ht'
    rcases update_eq_some.1 ht' with ⟨rfl, rfl⟩ | ⟨-, ht'⟩
    · exact ⟨_, info_of_tasks hu, ha.pid, ha.sigterm⟩
    · exact ⟨t', ht', rfl, id⟩
  current _ _ := older_of_info rfl
  zombieCount _ _ := older_of_info rfl
  exitLog _ _ := older_of_info rfl
  waitLog _ _ := older_of_info rfl
  asleep := trivial
  dead := trivial
  awake := trivial
  move s s₁ _ l l' p _ hrem hadd := older_of_info
    (((addToTasklist_info s₁ l' p).of_eq_ok hadd).trans ((removeFromTasklist_info s l p).of_eq_ok hrem))

theorem older_free : KeptByFree Older := by
  intro s p s' hs q t' ht'
  obtain ⟨hinfo, -⟩ := (freeProcess_info s p).of_eq_ok hs
  rw [hinfo, Function.update_apply] at ht'
  split at ht'
  · cases ht'
  · exact ⟨t', ht', rfl, id⟩

/-- **A task keeps its pid, and nothing takes back a signal**: a task that is there before and after a step
is the same task, and still killed. -/
theorem same_step {a : KAct} (hstep : s.step a = .ok s') {t' : TaskInfo} (ht : s.info p = some t)
    (ht' : s'.info p = some t') : t'.pid = t.pid ∧ (t.sigterm = true → t'.sigterm = true) := by
  have holder : s.Older s' → t'.pid = t.pid ∧ (t.sigterm = true → t'.sigterm = true) := by
    intro h
    obtain ⟨u, hu, hkept⟩ := h p t' ht'
    obtain rfl := Option.some.inj (ht.symm.trans hu)
    exact hkept
  rcases (closed_older.and closed_sameTasks).step_cases trivial trivial
    (fun _ _ => ⟨older_of_info rfl, fun _ => Iff.rfl⟩) hstep with
    (hkept | ⟨page, s₁, u, s₂, -, h₁, hborn, -, h₂⟩) | ⟨f, page, outcome, -, -, hf, hs'⟩
  · exact holder hkept.1
  · -- the new task has a page of its own
    obtain ⟨t₂, ht₂, hpid₂, hsig₂⟩ := h₂.1 p t' ht'
    obtain ⟨-, hnone, hinfo⟩ := hborn.info_eq
    have hne : p ≠ page := by
      rintro rfl
      rw [(info_eq_none.2 ((h₁.2 p).1 (info_eq_none.1 hnone)))] at ht
      cases ht
    rw [hinfo, Function.update_of_ne hne] at ht₂
    obtain ⟨t₁, ht₁, hpid₁, hsig₁⟩ := h₁.1 p t₂ ht₂
    obtain rfl := Option.some.inj (ht.symm.trans ht₁)
    exact ⟨hpid₂.trans hpid₁, hsig₂ ∘ hsig₁⟩
  · refine holder ?_
    cases f with
    | waitFree c => exact (closed_older.waitpidReturn older_free s c).of_eq_ok hs'
    | threadClear => exact (closed_older.threadClear older_free s).of_eq_ok hs'
    | _ => cases hf

/-! ### The log of exits -/

/-- Nothing was added to the log of exits. -/
def SameExits (s s' : Kernel) : Prop := s'.exitLog = s.exitLog

theorem sameExits_of_globals (h : s'.toGlobals = s.toGlobals) : s.SameExits s' :=
  congrArg Globals.exitLog h

theorem tame_sameExits : Tame SameExits fun _ _ => True where
  refl _ := rfl
  trans _ _ _ h h' := Eq.trans h' h
  assign _ _ _ _ _ _ := rfl
  current _ _ := rfl
  waitLog _ _ := rfl
  asleep := trivial
  move s s₁ s₂ l l' p _ hrem hadd := by
    have hrem' := (removeFromTasklist_globals s l p).of_eq_ok hrem
    have hadd' := (addToTasklist_globals s₁ l' p).of_eq_ok hadd
    exact sameExits_of_globals (hadd'.trans hrem')

theorem free_sameExits : KeptByFree SameExits :=
  fun _ _ _ hs => sameExits_of_globals (freeProcess_globals hs)

theorem threadClear_sameExits (s : Kernel) : Kept SameExits s s.threadClear := by
  rw [threadClear]
  refine tame_sameExits.bind (tame_sameExits.clearFrom free_sameExits _ _ s) fun s₁ _ => ?_
  exact (tame_sameExits.sleep trivial { s₁ with zombieCount := 0 }).mono fun s₂ h₂ => h₂

theorem Born.sameExits (h : s.Born page t s') : s.SameExits s' := by
  have hlog := congrArg Globals.exitLog h.globals
  exact hlog

/-- `exit_st` logs one exit. -/
theorem exitSt_log (s : Kernel) (p : ℕ) (status : ℤ) : Yields (s.exitSt p status)
    (fun s' => ∃ t, s.info p = some t ∧ s'.exitLog = (t.pid, status) :: s.exitLog) fun _ => True := by
  have h := tame_sameExits
  rw [exitSt]
  cases hget : s.get p with
  | error e => trivial
  | ok u =>
    rw [ok_bind]
    obtain ⟨s₀, hs₀⟩ : ∃ s₀ : Kernel, s₀ = { s with exitLog := (u.pid, status) :: s.exitLog } :=
      ⟨_, rfl⟩
    have hcount : ∀ s₁ : Kernel, Kept SameExits s₁ s₁.countOrphan := by
      intro s₁
      rw [countOrphan]
      show Kept SameExits s₁ (if _ then _ else _)
      split
      · exact h.wakeup trivial { s₁ with zombieCount := wrap32 (s₁.zombieCount + 1) } _
      · exact rfl
    simp only
    rw [← hs₀]
    refine Yields.mono (Q := SameExits s₀) ?_ fun s' hs' => ⟨u.toTaskInfo, info_of_tasks (get_eq_ok hget), ?_⟩
    · refine h.bind (h.modify s₀ p fun _ => ⟨rfl, rfl, id, id⟩) fun s₁ _ => ?_
      refine h.moved trivial s₁ p fun s₂ => ?_
      refine h.bind (h.tellFather trivial s₂ p) fun s₃ _ => kept_read (s₃.get p) fun v _ => ?_
      show Kept SameExits s₃ (if v.orphan = true then _ else _)
      split
      · exact h.bind (hcount s₃) fun s₄ _ => h.pushFrame s₄ (by decide)
      · exact h.pushFrame s₃ (by decide)
    · rw [hs', hs₀]

/-- A step that calls `exit_st` does nothing after it. -/
theorem exitSt_of_exits (hx : s.Exits a s₁ p status) (hstep : s.step a = .ok s') :
    s₁.exitSt p status = .ok s' := by
  have huser : ∀ {b : KAct}, s.UserMode → s.step b = .ok s' → (∀ page outcome, b ≠ .kernel page outcome) →
      b ≠ .timer → b ≠ .newline → b ≠ .ctrlC → s.userStep b = .ok s' := by
    rintro b ⟨u, hu, hf, hmm⟩ hb hk htimer hnewline hctrlC
    rw [step] at hb
    obtain ⟨v, hget, hrest⟩ := bind_eq_ok.1 hb
    obtain rfl := Option.some.inj (hu.symm.trans (get_eq_ok hget))
    cases b with
    | kernel page outcome => exact absurd rfl (hk page outcome)
    | timer => exact absurd rfl htimer
    | newline => exact absurd rfl hnewline
    | ctrlC => exact absurd rfl hctrlC
    | _ => simpa only [hf, hmm, if_true] using hrest
  cases hx with
  | @killed page next outcome n hin hsel hget hsig =>
    have hsch := kernelStep_of_step hin hstep
    rw [kernelStep, schedule, hsel, ok_bind, hget, ok_bind, if_pos hsig] at hsch
    exact hsch
  | @init page s₁ hin hpop =>
    have hrun := kernelStep_of_step hin hstep
    rw [kernelStep, hpop, ok_bind, if_neg (by decide)] at hrun
    exact hrun
  | exit hu => exact huser hu hstep (by simp) (by simp) (by simp) (by simp)
  | execve hu => exact huser hu hstep (by simp) (by simp) (by simp) (by simp)
  | segfault hu => exact huser hu hstep (by simp) (by simp) (by simp) (by simp)

/-- The task for which `exit_st` is called was there before the step, with its pid. -/
theorem Exits.pid_eq (hx : s.Exits a s₁ p status) (ht : s₁.info p = some t) :
    ∃ u, s.info p = some u ∧ u.pid = t.pid := by
  cases hx with
  | init hin hpop =>
    obtain ⟨u, -, hu, rfl⟩ := modify_cases hpop
    rw [assign_info] at ht
    rcases update_eq_some.1 ht with ⟨hcur, rfl⟩ | ⟨-, ht⟩
    · exact ⟨u, hcur ▸ hu, rfl⟩
    · exact ⟨t, ht, rfl⟩
  | _ => exact ⟨t, ht, rfl⟩

/-- A step that calls `exit_st` logs it. -/
theorem exitLog_of_exits (hx : s.Exits a s₁ p status) (hstep : s.step a = .ok s') :
    ∃ t, s₁.info p = some t ∧ s'.exitLog = (t.pid, status) :: s.exitLog := by
  obtain ⟨t, ht, hlog⟩ := (exitSt_log s₁ p status).of_eq_ok (exitSt_of_exits hx hstep)
  refine ⟨t, ht, ?_⟩
  cases hx with
  | init hin hpop =>
    obtain ⟨u, -, -, rfl⟩ := modify_cases hpop
    exact hlog
  | _ => exact hlog

/-- **A step logs the exit of the task that it calls `exit_st` for**, and no other. -/
theorem exitLog_step (hstep : s.step a = .ok s') : s'.exitLog = s.exitLog ∨
    ∃ s₁ p status t, s.Exits a s₁ p status ∧ s₁.info p = some t ∧
      s'.exitLog = (t.pid, status) :: s.exitLog := by
  by_cases hx : ∃ s₁ p status, s.Exits a s₁ p status
  · obtain ⟨s₁, p, status, hx⟩ := hx
    obtain ⟨t, ht, hlog⟩ := exitLog_of_exits hx hstep
    exact .inr ⟨s₁, p, status, t, hx, ht, hlog⟩
  · left
    have hready : ∀ (s : Kernel) b, s.SameExits { s with bufReady := b } := fun _ _ => rfl
    have hmade := (tame_sameExits.step s a (fun _ => tame_sameExits.newline trivial hready s)
      (fun f page outcome _ _ hplain => ?_) fun s₁ p status h => absurd ⟨s₁, p, status, h⟩ hx).of_eq_ok
        hstep
    · rcases hmade with hkept | ⟨page, s₁, t, s₂, -, h₁, hborn, -, h₂⟩
      · exact hkept
      · exact Eq.trans h₂ (hborn.sameExits.trans h₁)
    · cases f with
      | waitFree c => exact tame_sameExits.waitpidReturn free_sameExits s c
      | readStdin => exact tame_sameExits.readStdin trivial hready s page outcome
      | threadClear => exact threadClear_sameExits s
      | _ => cases hplain

/-- `exit_st` was called for the task at `p`. -/
def HasExited (s : Kernel) (p : ℕ) : Prop := ∃ t r, s.info p = some t ∧ (t.pid, r) ∈ s.exitLog

/-- While the lists are in order, the tasks that have exited are the zombies. -/
theorem Good.hasExited_iff {i : ℕ} (h : Good i s) (ht : s.info p = some t) :
    s.HasExited p ↔ t.state = .zombie := by
  have hlocal := h.proto.each p t ht
  constructor
  · rintro ⟨u, r, hu, hr⟩
    obtain rfl := Option.some.inj (ht.symm.trans hu)
    by_contra hne
    exact (hlocal.alive hne).2 r hr
  · exact fun hz => ⟨t, t.exitStatus, ht, (hlocal.dead hz _).2 rfl⟩

/-- The process that forks is ready. -/
theorem Good.forks {i : ℕ} (h : Good i s) (hstep : s.step (.fork page) = .ok s') :
    ∃ t, s.info s.current = some t ∧ t.place = .taskHeadp := by
  obtain ⟨t, ht⟩ := h.current
  refine ⟨t, ht, h.ready ht fun fs hfs => ?_⟩
  rw [Kernel.step, get_of_info (h.proto.pids.ne_zero ht) ht, ok_bind] at hstep
  simp only [hfs] at hstep
  cases hstep

end Kernel

end PlumOs
