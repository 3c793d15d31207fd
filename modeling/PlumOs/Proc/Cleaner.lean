import PlumOs.Proc.Attended

/-!
# The zombie cleaner, statement by statement (`sys/process.c`, `sys/syscall.c`)

`thread_clear` is a kernel thread and runs with the interrupts on: the timer can stop it between any two
statements, and other processes exit before it goes on.  The kernel of `Task.lean` executes one turn of
its loop as a whole; here every statement is a step, with one call of `remove_from_tasklist`,
`add_to_tasklist` or `free_process` as the smallest unit.  The other tasks keep the steps of `Task.lean`,
also a system call that goes on with the interrupts on because it has slept.

* `ClearKernel` : the kernel, with the next statement of the cleaner;
* `run_threadClear` : a turn that nobody interrupts is one step of the kernel of `Task.lean`;
* `Inv` : where the cleaner is at each of its statements;
* `wakesCleaner_iff` : **waking the cleaner is legal exactly if** the fiftieth orphan since the last reset
  of `zombie_count` exits after the cleaner has gone to sleep;
* `wakesCleaner_fails` : fifty orphans exit between the two statements.
-/

namespace PlumOs

/-- The next statement of `thread_clear`. -/
inductive ClearPc where
  /-- `p = zombie_list`. -/
  | start
  /-- The test of the inner loop, and `next = p->next`. -/
  | test (p : ℕ)
  /-- The body of the inner loop, and `p = next`. -/
  | body (p next : ℕ)
  /-- `zombie_count = 0`. -/
  | reset
  /-- The statements of `sleep(&sleep_task_list, -1)`. -/
  | remove
  | add
  | setState
  | yield
  deriving DecidableEq, Repr

/-- The kernel with the cleaner in the middle of its loop. -/
structure ClearKernel where
  kernel : Kernel
  pc : ClearPc
  /-- How often `zombie_count` was incremented since the cleaner reset it; only for stating results. -/
  since : ℕ
  /-- Whether the cleaner has put itself on `sleep_task_list` since then; only for stating results. -/
  slept : Bool

namespace ClearKernel

variable (w : ClearKernel)

/-- The next statement of `thread_clear`, for the cleaner as `current`. -/
def clearStep : Except Halt ClearKernel :=
  match w.pc with
  | .start => .ok { w with pc := .test (w.kernel.head .zombieList) }
  | .test p =>
    if p = 0 then .ok { w with pc := .reset }
    else do
      let t ← w.kernel.get p
      return { w with pc := .body p t.next }
  | .body p next => do
    let t ← w.kernel.get p
    let k ← if t.orphan then w.kernel.freeProcess p else pure w.kernel
    return { w with kernel := k, pc := .test next }
  | .reset =>
    .ok { w with kernel := { w.kernel with zombieCount := 0 }, pc := .remove, since := 0, slept := false }
  | .remove => do
    let k ← w.kernel.removeFromTasklist .taskHeadp w.kernel.current
    return { w with kernel := k, pc := .add }
  | .add => do
    let k ← w.kernel.addToTasklist .sleepTaskList w.kernel.current
    return { w with kernel := k, pc := .setState, slept := true }
  | .setState => do
    let k ← w.kernel.modify w.kernel.current fun t => { t with state := .sleep }
    return { w with kernel := k, pc := .yield }
  | .yield => do
    let k ← w.kernel.pushFrame .schedule
    return { w with kernel := k, pc := .start }

/-- One step of the machine: a statement of the cleaner, or a step of the others. -/
def step (a : KAct) : Except Halt ClearKernel := do
  let t ← w.kernel.get w.kernel.current
  match a, t.frames with
  | .kernel _ _, .threadClear :: _ => w.clearStep
  | a, _ => do
    let k ← w.kernel.step a
    return { w with
      kernel := k
      since := if k.zombieCount = w.kernel.zombieCount then w.since else w.since + 1 }

end ClearKernel

/-- The cleaner has not run yet. -/
def clearBoot (s : Kernel) : ClearKernel := ⟨s, .start, 0, false⟩

namespace ClearKernel

open Kernel

variable {w w' : ClearKernel} {a : KAct}

/-- What a step is. -/
theorem step_cases (hs : w.step a = .ok w') :
    (∃ page outcome, a = .kernel page outcome ∧ w.kernel.Innermost .threadClear ∧ w.clearStep = .ok w') ∨
      (∃ k, (∀ page outcome, a = .kernel page outcome → ¬ w.kernel.Innermost .threadClear) ∧
        w.kernel.step a = .ok k ∧ w' = { w with
          kernel := k
          since := if k.zombieCount = w.kernel.zombieCount then w.since else w.since + 1 }) := by
  rw [step] at hs
  obtain ⟨t, hget, hrest⟩ := bind_eq_ok.1 hs
  have ht := info_of_tasks (get_eq_ok hget)
  split at hrest
  · next page outcome fs hf => exact .inl ⟨page, outcome, rfl, ⟨_, fs, ht, hf⟩, hrest⟩
  · next hno =>
    obtain ⟨k, hk, hw'⟩ := bind_eq_ok.1 hrest
    refine .inr ⟨k, ?_, hk, (Except.ok.inj hw').symm⟩
    rintro page outcome rfl ⟨u, fs, hu, hf⟩
    obtain rfl := Option.some.inj (ht.symm.trans hu)
    exact hno page outcome fs rfl hf

/-! ### A turn that nobody interrupts -/

/-- The cleaner runs. -/
structure Runs (k : Kernel) : Prop where
  ne_zero : k.current ≠ 0
  inside : k.Innermost .threadClear
  alive : ∀ t, k.info k.current = some t → t.state ≠ .zombie

variable {k k₁ : Kernel} {p : ℕ}

theorem step_runs (h : Runs w.kernel) : w.step (.kernel 0 true) = w.clearStep := by
  obtain ⟨t, fs, ht, hf⟩ := h.inside
  rw [step, get_of_info h.ne_zero ht, ok_bind]
  simp only [hf]

theorem Runs.congr (h : Runs k) (hg : k₁.toGlobals = k.toGlobals)
    (hi : k₁.info k.current = k.info k.current) : Runs k₁ := by
  have hcur : k₁.current = k.current := congrArg Globals.current hg
  refine ⟨by rw [hcur]; exact h.ne_zero, ?_, ?_⟩
  · unfold Kernel.Innermost
    rw [hcur, hi]
    exact h.inside
  · rw [hcur, hi]
    exact h.alive

theorem Runs.free (h : Runs k) (hs : k.freeProcess p = .ok k₁) : Runs k₁ := by
  obtain ⟨hinfo, t, ht, hz⟩ := (freeProcess_info k p).of_eq_ok hs
  refine h.congr (freeProcess_globals hs) ?_
  rw [hinfo, Function.update_of_ne]
  rintro rfl
  exact h.alive t ht hz

/-- The inner loop. -/
theorem run_clearFrom {fuel : ℕ} (h : Runs k) (hs : clearFrom fuel p k = .ok k₁) (n : ℕ) (b : Bool) :
    Runs k₁ ∧ ∃ m, run step ⟨k, .test p, n, b⟩ (List.replicate m (.kernel 0 true)) =
      .ok ⟨k₁, .reset, n, b⟩ := by
  induction fuel generalizing p k with
  | zero => cases hs
  | succ fuel ih =>
    rw [clearFrom] at hs
    split at hs
    · next hp =>
      obtain rfl := Except.ok.inj hs
      refine ⟨h, 1, run_cons_ok ?_ []⟩
      rw [step_runs h, clearStep]
      simp only [if_pos hp]
    · next hp =>
      obtain ⟨t, hget, hbody⟩ := bind_eq_ok.1 hs
      have htest : step ⟨k, .test p, n, b⟩ (.kernel 0 true) = .ok ⟨k, .body p t.next, n, b⟩ := by
        rw [step_runs h, clearStep]
        simp only [if_neg hp, hget, ok_bind]
        rfl
      obtain ⟨k₂, h₂, hnext, hrest⟩ : ∃ k₂, Runs k₂ ∧
          step ⟨k, .body p t.next, n, b⟩ (.kernel 0 true) = .ok ⟨k₂, .test t.next, n, b⟩ ∧
          clearFrom fuel t.next k₂ = .ok k₁ := by
        rw [step_runs h, clearStep]
        simp only [hget, ok_bind]
        cases ho : t.orphan with
        | true =>
          simp only [ho, if_true] at hbody
          obtain ⟨k₂, hfree, hrest⟩ := bind_eq_ok.1 hbody
          refine ⟨k₂, h.free hfree, ?_, hrest⟩
          simp only [if_true, hfree, ok_bind]
          rfl
        | false =>
          simp only [ho, Bool.false_eq_true, if_false] at hbody
          exact ⟨k, h, rfl, hbody⟩
      obtain ⟨h₁, m, hm⟩ := ih h₂ hrest
      refine ⟨h₁, m + 2, ?_⟩
      rw [List.replicate_succ, run_cons_ok htest, List.replicate_succ, run_cons_ok hnext, hm]

/-- **A turn of the loop that nobody interrupts** is what `Kernel.threadClear` does in one step. -/
theorem run_threadClear {page : ℕ} {outcome : Bool} (n : ℕ) (b : Bool) (hin : k.Innermost .threadClear)
    (halive : ∀ t, k.info k.current = some t → t.state ≠ .zombie)
    (hs : k.step (.kernel page outcome) = .ok k₁) :
    ∃ m, run step ⟨k, .start, n, b⟩ (List.replicate m (.kernel 0 true)) = .ok ⟨k₁, .start, 0, true⟩ := by
  have h : Runs k := by
    refine ⟨fun hzero => ?_, hin, halive⟩
    rw [Kernel.step, hzero, get_zero] at hs
    cases hs
  have hclear : k.threadClear = .ok k₁ := kernelStep_of_step hin hs
  rw [threadClear] at hclear
  obtain ⟨k₂, hscan, hsleep⟩ := bind_eq_ok.1 hclear
  obtain ⟨k₃, hrem, hsleep₁⟩ := bind_eq_ok.1 hsleep
  obtain ⟨k₄, hadd, hsleep₂⟩ := bind_eq_ok.1 hsleep₁
  obtain ⟨k₅, hmod, hpush⟩ := bind_eq_ok.1 hsleep₂
  obtain ⟨h₂, m, hm⟩ := run_clearFrom h hscan n b
  have h₀ : Runs { k₂ with zombieCount := 0 } := ⟨h₂.ne_zero, h₂.inside, h₂.alive⟩
  have h₃ : Runs k₃ := h₀.congr ((removeFromTasklist_globals _ _ _).of_eq_ok hrem)
    (congrFun ((removeFromTasklist_info _ _ _).of_eq_ok hrem) _)
  have h₄ : Runs k₄ := h₃.congr ((addToTasklist_globals _ _ _).of_eq_ok hadd)
    (congrFun ((addToTasklist_info _ _ _).of_eq_ok hadd) _)
  have h₅ : Runs k₅ := by
    obtain ⟨t, fs, ht, hf⟩ := h₄.inside
    obtain ⟨u, -, hu, rfl⟩ := modify_cases hmod
    obtain rfl := Option.some.inj (ht.symm.trans hu)
    have hself : (k₄.assign k₄.current { t with state := .sleep }).info k₄.current =
        some { t with state := .sleep } := assign_info_self
    refine ⟨h₄.ne_zero, ⟨_, fs, hself, hf⟩, fun v hv => ?_⟩
    obtain rfl := Option.some.inj (hself.symm.trans hv)
    exact (by decide : TaskState.sleep ≠ .zombie)
  -- the statements, one after the other
  have s₀ : step ⟨k, .start, n, b⟩ (.kernel 0 true) = .ok ⟨k, .test (k.head .zombieList), n, b⟩ :=
    step_runs h
  have s₁ : step ⟨k₂, .reset, n, b⟩ (.kernel 0 true) =
      .ok ⟨{ k₂ with zombieCount := 0 }, .remove, 0, false⟩ := step_runs h₂
  have s₂ : step ⟨{ k₂ with zombieCount := 0 }, .remove, 0, false⟩ (.kernel 0 true) =
      .ok ⟨k₃, .add, 0, false⟩ := by
    rw [step_runs h₀, clearStep]
    simp only [hrem, ok_bind]
    rfl
  have s₃ : step ⟨k₃, .add, 0, false⟩ (.kernel 0 true) = .ok ⟨k₄, .setState, 0, true⟩ := by
    rw [step_runs h₃, clearStep]
    simp only [hadd, ok_bind]
    rfl
  have s₄ : step ⟨k₄, .setState, 0, true⟩ (.kernel 0 true) = .ok ⟨k₅, .yield, 0, true⟩ := by
    rw [step_runs h₄, clearStep]
    simp only [hmod, ok_bind]
    rfl
  have s₅ : step ⟨k₅, .yield, 0, true⟩ (.kernel 0 true) = .ok ⟨k₁, .start, 0, true⟩ := by
    rw [step_runs h₅, clearStep]
    simp only [hpush, ok_bind]
    rfl
  refine ⟨m + 5 + 1, ?_⟩
  rw [List.replicate_succ, run_cons_ok s₀, List.replicate_add, run_append_ok hm]
  exact (run_cons_ok s₁ _).trans ((run_cons_ok s₂ _).trans ((run_cons_ok s₃ _).trans
    ((run_cons_ok s₄ _).trans (run_cons_ok s₅ _))))

/-! ### Where the cleaner is -/

/-- The list of the cleaner: it goes to sleep after the reset of `zombie_count`, and the fiftieth orphan
wakes it up. -/
def place (w : ClearKernel) : Option ListId :=
  if w.pc = .add then none
  else if w.slept = true ∧ w.since < 50 then some .sleepTaskList
  else some .taskHeadp

/-- The cleaner has left `task_headp` in its call of `sleep`, and has not called `schedule` yet. -/
def Leaving (w : ClearKernel) : Prop := w.pc = .add ∨ w.pc = .setState ∨ w.pc = .yield

/-- The invariant. -/
structure Inv (z : ℕ) (c : ℤ) (v : CleanerView) (w : ClearKernel) : Prop where
  attended : Attended z c v w.kernel
  list : v.list = w.place
  count : v.count = wrap32 w.since
  /-- Fifty orphans do not exit before the cleaner sleeps, or the kernel stops. -/
  early : w.slept = false → w.since < 50
  window : w.pc = .remove ∨ w.pc = .add → w.slept = false
  /-- The cleaner does not run while it is asleep. -/
  awake : v.current = z → v.frames.head? = some .threadClear →
    v.list = some .taskHeadp ∨ w.Leaving

variable {z : ℕ} {c : ℤ} {v : CleanerView}

theorem place_cases (w : ClearKernel) :
    w.place = none ∧ w.pc = .add ∨ w.place = some .sleepTaskList ∨ w.place = some .taskHeadp := by
  unfold place
  split
  · next h => exact .inl ⟨rfl, h⟩
  · split
    · exact .inr (.inl rfl)
    · exact .inr (.inr rfl)

theorem Inv.list_ne (h : Inv z c v w) :
    v.list ≠ some .waitStdinList ∧ v.list ≠ some .zombieList := by
  rw [h.list]
  rcases place_cases w with ⟨hp, -⟩ | hp | hp <;> rw [hp] <;> exact ⟨nofun, nofun⟩

/-- The frames of the cleaner, when it runs its loop. -/
theorem Inv.running (h : Inv z c v w) (hin : w.kernel.Innermost .threadClear) :
    w.kernel.current = z ∧ v.current = z ∧ v.frames.head? = some .threadClear := by
  obtain ⟨t, fs, ht, hf⟩ := hin
  have hz : w.kernel.current = z := h.attended.sole _ t ht (by rw [hf]; exact List.mem_cons_self)
  obtain ⟨u, hu, hclean⟩ := h.attended.cleaner
  rw [hz] at ht
  obtain rfl := Option.some.inj (ht.symm.trans hu)
  refine ⟨hz, h.attended.current.symm.trans hz, ?_⟩
  rw [← hclean.frames, hf]
  rfl

/-- A statement that changes neither the place of the cleaner nor its frames. -/
theorem Inv.next (h : Inv z c v w) (hk : Attended z c v k) {pc : ClearPc} (hplace : v.list = some .taskHeadp)
    (hpc : pc ≠ .add) (hwindow : pc = .remove → w.slept = false) :
    Inv z c v { w with kernel := k, pc := pc } where
  attended := hk
  list := by
    have hlist := h.list
    rw [hplace] at hlist ⊢
    unfold place at hlist ⊢
    rw [if_neg hpc]
    split at hlist
    · cases hlist
    · exact hlist
  count := h.count
  early := h.early
  window hor := hwindow (hor.resolve_right hpc)
  awake _ _ := .inl hplace

/-- **Every statement of the cleaner keeps the invariant.** -/
theorem Inv.clearStep (h : Inv z c v w) (hin : w.kernel.Innermost .threadClear)
    (hs : w.clearStep = .ok w') : ∃ v', Inv z c v' w' := by
  obtain ⟨hcur, hvcur, hhead⟩ := h.running hin
  have hready : ¬ w.Leaving → v.list = some .taskHeadp := (h.awake hvcur hhead).resolve_right
  have hatt := h.attended
  rw [ClearKernel.clearStep] at hs
  cases hpc : w.pc with
  | start =>
    simp only [hpc] at hs
    obtain rfl := Except.ok.inj hs
    exact ⟨v, h.next hatt (hready (by simp [Leaving, hpc])) nofun nofun⟩
  | test p =>
    have hplace := hready (by simp [Leaving, hpc])
    simp only [hpc] at hs
    split at hs
    · obtain rfl := Except.ok.inj hs
      exact ⟨v, h.next hatt hplace nofun nofun⟩
    · obtain ⟨t, -, hs₁⟩ := bind_eq_ok.1 hs
      obtain rfl := Except.ok.inj hs₁
      exact ⟨v, h.next hatt hplace nofun nofun⟩
  | body p next =>
    have hplace := hready (by simp [Leaving, hpc])
    simp only [hpc] at hs
    obtain ⟨t, -, hs₁⟩ := bind_eq_ok.1 hs
    clear hs
    split at hs₁
    · obtain ⟨k₁, hfree, hs₂⟩ := bind_eq_ok.1 hs₁
      obtain rfl := Except.ok.inj hs₂
      exact ⟨v, h.next (hatt.free h.list_ne.2 hfree) hplace nofun nofun⟩
    · obtain rfl := Except.ok.inj hs₁
      exact ⟨v, h.next hatt hplace nofun nofun⟩
  | reset =>
    have hplace := hready (by simp [Leaving, hpc])
    simp only [hpc] at hs
    obtain rfl := Except.ok.inj hs
    have hzero : Attended z c { v with count := 0 } { w.kernel with zombieCount := 0 } :=
      hatt.globals rfl rfl hatt.current hatt.clear rfl rfl rfl
    have hcount : (0 : ℤ) = wrap32 ((0 : ℕ) : ℤ) := by decide
    refine ⟨_, hzero, ?_, hcount, fun _ => Nat.succ_pos 49, fun _ => rfl, fun _ _ => .inl hplace⟩
    show v.list = _
    rw [hplace]
    simp [place]
  | remove =>
    simp only [hpc] at hs
    obtain ⟨k₁, hrem, hs₁⟩ := bind_eq_ok.1 hs
    obtain rfl := Except.ok.inj hs₁
    rw [hcur] at hrem
    exact ⟨_, hatt.removeSelf hrem, rfl, h.count, h.early, fun _ => h.window (.inl hpc),
      fun _ _ => .inr (.inl rfl)⟩
  | add =>
    have hnone : v.list = none := by rw [h.list, place, if_pos hpc]
    have hearly := h.early (h.window (.inr hpc))
    simp only [hpc] at hs
    obtain ⟨k₁, hadd, hs₁⟩ := bind_eq_ok.1 hs
    obtain rfl := Except.ok.inj hs₁
    rw [hcur] at hadd
    refine ⟨_, hatt.addSelf hnone hadd, ?_, h.count, nofun, nofun, fun _ _ => .inr (.inr (.inl rfl))⟩
    simp [place, hearly]
  | setState =>
    simp only [hpc] at hs
    obtain ⟨k₁, hmod, hs₁⟩ := bind_eq_ok.1 hs
    obtain rfl := Except.ok.inj hs₁
    have h₁ := hatt.modify hmod (fun _ => ⟨rfl, rfl, id, id⟩)
      fun _ _ _ hclean => ⟨hclean.pid, hclean.mm, hclean.sigterm, hclean.frames⟩
    refine ⟨v, h₁, ?_, h.count, h.early, nofun, fun _ _ => .inr (.inr (.inr rfl))⟩
    rw [h.list]
    simp [place, hpc]
  | yield =>
    simp only [hpc] at hs
    obtain ⟨k₁, hpush, hs₁⟩ := bind_eq_ok.1 hs
    obtain rfl := Except.ok.inj hs₁
    refine ⟨_, hatt.pushSchedule hpush, ?_, h.count, h.early, nofun, fun _ hf => ?_⟩
    · show v.list = _
      rw [h.list]
      simp [place, hpc]
    · rw [if_pos hvcur] at hf
      cases hf

theorem wrap32_succ (n : ℤ) : wrap32 (wrap32 n + 1) = wrap32 (n + 1) := by
  unfold wrap32
  omega

theorem wrap32_succ_ne (n : ℤ) : wrap32 (n + 1) ≠ wrap32 n := by
  unfold wrap32
  omega

/-- The cleaner is on `sleep_task_list` when `since` orphans have exited. -/
theorem Inv.asleep_iff (h : Inv z c v w) :
    v.list = some .sleepTaskList ↔ w.slept = true ∧ w.since < 50 := by
  rw [h.list, place]
  split
  · next hpc => simp [h.window (.inr hpc)]
  · split
    · next hslept => exact iff_of_true rfl hslept
    · next hslept => exact iff_of_false (by decide) hslept

/-- **Every step of the others keeps the invariant.** -/
theorem Inv.kernelStep (h : Inv z c v w)
    (hother : ∀ page outcome, a = .kernel page outcome → ¬ w.kernel.Innermost .threadClear)
    (hroom : w.kernel.PidRoom a) (hs : w.kernel.step a = .ok k) : ∃ v', Inv z c v' { w with
      kernel := k
      since := if k.zombieCount = w.kernel.zombieCount then w.since else w.since + 1 } := by
  have hcount := h.attended.count
  rcases h.attended.step h.list_ne.1 h.list_ne.2 hother hroom hs with
    ⟨v', hatt, hlist, hsame, hturn⟩ | ⟨s₁, q, status, hx, hexit⟩
  · rw [if_pos (by rw [hatt.count, hsame, hcount])]
    refine ⟨v', hatt, hlist.trans h.list, hsame.trans h.count, h.early, h.window, fun hcur hf => ?_⟩
    rw [hlist]
    rcases hturn hcur hf with hready | ⟨hcur', hf'⟩
    · exact .inl hready
    · exact h.awake hcur' hf'
  · obtain ⟨h₁, hq⟩ := h.attended.exits hx
    obtain ⟨v', hatt, hhead, hcases⟩ := h₁.exitSt hq hexit
    -- whoever runs is inside `schedule` now
    have hawake : ∀ {b : Prop}, v'.current = z → v'.frames.head? = some .threadClear → b := by
      intro b hcur hf
      rw [hhead hcur] at hf
      cases hf
    refine ⟨v', ?_⟩
    rcases hcases with ⟨hlist, hsame⟩ | ⟨hne, hlist, hone⟩ | ⟨h50, hasleep, hlist, hone⟩
    · rw [if_pos (by rw [hatt.count, hsame, hcount])]
      exact ⟨hatt, hlist.trans h.list, hsame.trans h.count, h.early, h.window, hawake⟩
    · rw [h.count, wrap32_succ] at hne hone
      rw [if_neg (by rw [hatt.count, hone, hcount, h.count]; exact wrap32_succ_ne _)]
      have hsince : w.since + 1 ≠ 50 := by
        intro heq
        apply hne
        rw [show (w.since : ℤ) + 1 = 50 by omega]
        decide
      refine ⟨hatt, ?_, by rw [hone]; rfl, fun hslept => ?_, h.window, hawake⟩
      · have hiff : w.since < 50 ↔ w.since + 1 < 50 := by omega
        rw [hlist, h.list]
        unfold place
        simp only [hiff]
      · have := h.early hslept
        show w.since + 1 < 50
        omega
    · rw [h.count, wrap32_succ] at h50
      obtain ⟨hslept, hlt⟩ := h.asleep_iff.1 hasleep
      have hsince : w.since + 1 = 50 := by
        unfold wrap32 at h50
        omega
      have hpc : w.pc ≠ .add := by
        intro hadd
        rw [h.window (.inr hadd)] at hslept
        cases hslept
      rw [if_neg (by rw [hatt.count, hone, hcount, h.count, ← h50]; exact wrap32_succ_ne _)]
      refine ⟨hatt, ?_, ?_, fun hno => ?_, h.window, hawake⟩
      · rw [hlist]
        unfold place
        rw [if_neg hpc, if_neg (by simp only [hsince]; omega)]
      · rw [hone]
        show (50 : ℤ) = wrap32 ((w.since + 1 : ℕ) : ℤ)
        rw [hsince]
        decide
      · exact absurd (hno.symm.trans hslept) (by decide)

theorem Inv.step (h : Inv z c v w) (hroom : w.kernel.PidRoom a) (hs : w.step a = .ok w') :
    ∃ v', Inv z c v' w' := by
  rcases step_cases hs with ⟨page, outcome, rfl, hin, hclear⟩ | ⟨k, hother, hk, rfl⟩
  · exact h.clearStep hin hclear
  · exact h.kernelStep hother hroom hk

/-! ### Runs from boot -/

/-- The fiftieth orphan since the last reset of `zombie_count` exits after the cleaner has gone to sleep.
The counter wraps around, so that more of them can bring it to 50 again. -/
def InTime (w : ClearKernel) (a : KAct) : Prop :=
  w.kernel.OrphanExits a → wrap32 (w.since + 1) = 50 → w.slept = true ∧ w.since + 1 = 50

theorem Inv.wakeLegal (h : Inv z c v w) : w.kernel.WakeLegal a ↔ w.InTime a := by
  rw [h.attended.wakeLegal_iff, h.count, wrap32_succ, h.asleep_iff]
  refine forall₂_congr fun _ h50 => and_congr_right fun _ => ?_
  unfold wrap32 at h50
  omega

theorem attended_started {p₀ p₁ p₂ p₃ : ℕ} (h : [0, p₀, p₁, p₂, p₃].Nodup) :
    Attended p₂ 2 ⟨some .taskHeadp, p₀, 0, [.threadClear]⟩ (started p₀ p₁ p₂ p₃) where
  current := rfl
  clear := rfl
  count := rfl
  ne_zero := by
    rintro rfl
    simp at h
  pos := by decide
  clearing := rfl
  lists := by
    obtain ⟨L, hL, hpl⟩ := started_listed h
    have hclear := (started_info h).2 (.inr (.inr (.inl ⟨rfl, rfl⟩)))
    refine ⟨L, hL, fun k => ?_, nofun⟩
    rw [hpl, Option.some.injEq, ← (started_plain h hclear).1]
    constructor
    · rintro ⟨t, ht, rfl⟩
      rw [Option.some.inj (ht.symm.trans hclear)]
    · exact fun hk => ⟨_, hclear, hk⟩
  cleaner := ⟨_, (started_info h).2 (.inr (.inr (.inl ⟨rfl, rfl⟩))), rfl, rfl, rfl, rfl⟩
  pids := started_pids h
  childless p t ht := by
    obtain ⟨-, -, -, -, -, -, hppid, -⟩ := started_plain h ht
    rw [hppid]
    decide
  sole p t ht hf := by
    rcases (started_info h).1 ht with ⟨-, rfl⟩ | ⟨-, rfl⟩ | ⟨hp, -⟩ | ⟨-, rfl⟩
    · simp [threadAt] at hf
    · simp [threadAt] at hf
    · exact hp
    · simp [threadAt] at hf

theorem inv_clearBoot {p₀ p₁ p₂ p₃ : ℕ} (h : [0, p₀, p₁, p₂, p₃].Nodup) :
    Inv p₂ 2 ⟨some .taskHeadp, p₀, 0, [.threadClear]⟩ (clearBoot (started p₀ p₁ p₂ p₃)) where
  attended := attended_started h
  list := rfl
  count := by
    show (0 : ℤ) = wrap32 ((0 : ℕ) : ℤ)
    decide
  early _ := Nat.succ_pos 49
  window := nofun
  awake _ _ := .inl rfl

/-- **Waking the cleaner is legal in every step of a run exactly if** no orphan is the fiftieth since the
last reset of `zombie_count`, or since boot, before the cleaner has put itself on `sleep_task_list`, however
the cleaner is interrupted, as long as there are pids. -/
theorem wakesCleaner_iff {p₀ p₁ p₂ p₃ : ℕ} (h : [0, p₀, p₁, p₂, p₃].Nodup) {s₀ : Kernel}
    (hboot : bootKernel p₀ p₁ p₂ p₃ = .ok s₀) {as : List KAct}
    (hal : Along step (fun w a => w.kernel.PidRoom a) (clearBoot s₀) as) :
    Along step (fun w a => w.kernel.WakeLegal a) (clearBoot s₀) as ↔
      Along step InTime (clearBoot s₀) as := by
  obtain rfl := Except.ok.inj ((bootKernel_eq h).symm.trans hboot)
  refine hal.congr (I := fun w => ∃ v, Inv p₂ 2 v w) ⟨_, inv_clearBoot h⟩ ?_ ?_
  · rintro w a ⟨v, hinv⟩ -
    exact hinv.wakeLegal
  · rintro w a w' ⟨v, hinv⟩ hroom hstep
    exact hinv.step hroom hstep

/-- The init process forks 51 children and reads from the keyboard; then `k` of them exit, one after the
other. -/
def crowd (k : ℕ) : List KAct :=
  (List.range 51).map (fun i => .fork (14 + i)) ++ [.read, .kernel 0 true, .kernel 0 true] ++
    (List.replicate k [.exit 0, .kernel 0 true]).flatten

/-- The cleaner has gone to sleep before the children exit. -/
def calmActs : List KAct :=
  List.replicate 10 (.kernel 0 true) ++ [.timer, .kernel 0 true, .kernel 0 true] ++ crowd 50

theorem wakesCleaner_iff_calm : ∃ s₀, bootKernel 10 11 12 13 = .ok s₀ ∧
    Along step (fun w a => w.kernel.WakeLegal a) (clearBoot s₀) calmActs := by
  have hpages : [0, 10, 11, 12, 13].Nodup := by decide
  have htest : alongB step (fun w _ => decide (w.kernel.pidCount + 1 < 2 ^ 31) &&
      (decide (w.since + 1 < 50) || w.slept && decide (w.since + 1 = 50) || decide (w.since = 50)))
      (clearBoot (started 10 11 12 13)) calmActs = true := by
    decide +kernel
  have hal : Along step (fun w a => w.kernel.PidRoom a ∧ w.InTime a)
      (clearBoot (started 10 11 12 13)) calmActs := by
    refine along_of_alongB (I := fun _ => True) trivial (fun w a _ hw => ?_)
      (fun _ _ _ _ _ _ => trivial) htest
    simp only [Bool.and_eq_true, Bool.or_eq_true, decide_eq_true_eq] at hw
    refine ⟨fun _ => hw.1, fun _ h50 => ?_⟩
    unfold wrap32 at h50
    rcases hw.2 with (hlt | hslept) | hover
    · omega
    · exact hslept
    · omega
  exact ⟨_, bootKernel_eq hpages, (wakesCleaner_iff hpages (bootKernel_eq hpages)
    (hal.mono fun _ _ => And.left)).2 (hal.mono fun _ _ => And.right)⟩

/-- The timer stops the cleaner in its first turn, between `zombie_count = 0` and `sleep`, and 49 children
exit before it goes on. -/
def crowdActs : List KAct :=
  List.replicate 5 (.kernel 0 true) ++
    [.timer, .kernel 0 true, .timer, .kernel 0 true, .kernel 0 true] ++ crowd 49

/-- **The fiftieth exit wakes up a cleaner that is not asleep**, and `remove_from_tasklist` follows the
null pointer at the end of `sleep_task_list`. -/
theorem wakesCleaner_fails : ∃ s₀ w, bootKernel 10 11 12 13 = .ok s₀ ∧
    run step (clearBoot s₀) crowdActs = .ok w ∧ w.pc = .remove ∧ ¬ w.kernel.WakeLegal (.exit 0) ∧
    w.step (.exit 0) = .error .nullDeref := by
  have hreach : reaches (run step (clearBoot (started 10 11 12 13)) crowdActs) (fun w =>
      w.pc == .remove && ((w.kernel.tasks w.kernel.current).any fun t => t.frames == [] && t.mm) &&
      (match w.kernel.exitToCount w.kernel.current 0 with
        | .ok s₂ => (match s₂.get w.kernel.current with
            | .ok u => u.orphan
            | .error _ => false) &&
          wrap32 (s₂.zombieCount + 1) == 50 &&
          (match s₂.countOrphan with
            | .ok _ => false
            | .error _ => true)
        | .error _ => false) &&
      (match w.step (.exit 0) with
        | .error .nullDeref => true
        | _ => false)) = true := by
    decide +kernel
  obtain ⟨w, hw, htest⟩ := exists_of_reaches hreach
  simp only [Bool.and_eq_true, beq_iff_eq, Option.any_eq_true] at htest
  obtain ⟨⟨⟨hpc, t, ht, hf, hmm⟩, hexit⟩, hhalt⟩ := htest
  refine ⟨_, w, bootKernel_eq (by decide), hw, hpc, fun hlegal => ?_, ?_⟩
  · split at hexit
    · next s₂ hcount =>
      simp only [Bool.and_eq_true, beq_iff_eq] at hexit
      obtain ⟨⟨ho, h50⟩, hnone⟩ := hexit
      split at ho
      · next u hu =>
        obtain ⟨-, s₃, hs₃⟩ := hlegal _ _ 0 s₂ u (.exit ⟨t, ht, hf, hmm⟩) hcount hu ho h50
        rw [hs₃] at hnone
        cases hnone
      · cases ho
    · cases hexit
  · split at hhalt
    · next hstep => exact hstep
    · cases hhalt

end ClearKernel

end PlumOs
