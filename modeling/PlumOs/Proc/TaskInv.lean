import PlumOs.Proc.TaskLists

/-!
# The protocol of tasks

An invariant of the tasks as such, without their lists: who may wait for whom, who sleeps and who
has to wake up whom.  The list a task is on is a function of its fields (`TaskInfo.place`).

* `Proto` : the invariant; the idle thread is a parameter;
* `Trans` : the ways tasks change;
* `Proto.trans` : each of them keeps the invariant.
-/

namespace PlumOs

namespace TaskInfo

/-- What the task has to do apart from returning from `schedule`. -/
def core (t : TaskInfo) : List KFrame := t.frames.filter (· ≠ .schedule)

/-- The list that the task belongs to. -/
def place (t : TaskInfo) : ListId :=
  match t.state with
  | .zombie => .zombieList
  | .sleep => if t.core.head? = some .readStdin then .waitStdinList else .sleepTaskList
  | _ => .taskHeadp

theorem place_eq_zombie {t : TaskInfo} : t.place = .zombieList ↔ t.state = .zombie := by
  unfold place
  cases t.state <;> simp
  split <;> simp

theorem place_eq_taskHeadp {t : TaskInfo} :
    t.place = .taskHeadp ↔ t.state ≠ .sleep ∧ t.state ≠ .zombie := by
  unfold place
  cases t.state <;> simp
  split <;> simp

theorem place_eq_waitStdin {t : TaskInfo} :
    t.place = .waitStdinList ↔ t.state = .sleep ∧ t.core.head? = some .readStdin := by
  unfold place
  cases t.state <;> simp

theorem place_eq_sleep {t : TaskInfo} :
    t.place = .sleepTaskList ↔ t.state = .sleep ∧ t.core.head? ≠ some .readStdin := by
  unfold place
  cases t.state <;> simp

end TaskInfo

/-- What the tasks of the kernel have to do inside it. -/
inductive CoreOk (n : ℤ) (m : ℕ → Option TaskInfo) (t : TaskInfo) : Prop
  | outside (h : t.core = [])
  | waiting (c : ℕ) (h : t.core = [.waitFree c])
  | reading (h : t.core = [.readStdin])
  | clearing (h : t.core = [.threadClear])
  | init (h : t.core = [.runInit]) (h0 : t.pid ≠ 0)
  | main (k : ℤ) (h : t.core = [.mainWait k]) (h0 : t.pid = 0) (hk : 0 < k ∧ k < n)
      (hkid : ∀ q u, m q = some u → u.pid = k → u.ppid = 0)
  | respawn (h : t.core = [.mainRespawn]) (h0 : t.pid = 0)
  | mainWaiting (c : ℕ) (h : t.core = [.waitFree c, .mainRespawn]) (h0 : t.pid = 0)

/-- A task that waits, and the child it waits for: the child is alive while the task sleeps, and a
zombie that nobody else collects afterwards. -/
structure Pending (t ct : TaskInfo) : Prop where
  /-- The child has the caller as its father. -/
  ppid : ct.ppid = t.pid
  /-- The child is marked as waited for. -/
  waited : ct.waited = true
  /-- While the father sleeps it may still run;. -/
  alive : t.state = .sleep → ct.state ≠ .zombie
  /-- Afterwards it is a zombie that nobody else collects. -/
  dead : t.state ≠ .sleep → ct.state = .zombie ∧ ct.orphan = false

/-- What holds of each task by itself, given the exits so far. -/
structure Local (log : List (ℤ × ℤ)) (t : TaskInfo) : Prop where
  /-- Only a process is killed. -/
  unkilled : t.mm = false → t.sigterm = false
  /-- Only a thread has the pid 0. -/
  user : t.mm = true → t.pid ≠ 0
  /-- The father is older. -/
  father : t.pid ≠ 0 → t.ppid < t.pid
  /-- What a sleeping task waits for. -/
  asleep : t.state = .sleep → t.core = [.readStdin] ∨ t.core = [.threadClear] ∨
    ∃ c, .waitFree c ∈ t.core
  /-- A task that runs has not exited yet. -/
  alive : t.state ≠ .zombie → t.orphan = false ∧ ∀ r, (t.pid, r) ∉ log
  /-- The log has the exit status of a zombie. -/
  dead : t.state = .zombie → ∀ r, (t.pid, r) ∈ log ↔ r = t.exitStatus

/-- The idle thread and the cleaner. -/
structure Threads (i clear : ℕ) (m : ℕ → Option TaskInfo) : Prop where
  idle : ∃ t, m i = some t ∧ t.mm = false ∧ t.core = [] ∧ t.place = .taskHeadp
  clear : ∃ t, m clear = some t ∧ t.mm = false ∧ t.core = [.threadClear] ∧ t.state ≠ .zombie

/-- Who waits for whom. -/
structure Waiting (m : ℕ → Option TaskInfo) : Prop where
  waits : ∀ p t c, m p = some t → .waitFree c ∈ t.core → t.state ≠ .zombie →
    ∃ ct, m c = some ct ∧ Pending t ct
  waited : ∀ c ct, m c = some ct → ct.waited = true → ct.state ≠ .zombie →
    ∃ p t, m p = some t ∧ t.state = .sleep ∧ .waitFree c ∈ t.core

/-- The protocol.  `i` is the idle thread. -/
structure Proto (i : ℕ) (g : Globals) (m : ℕ → Option TaskInfo) : Prop where
  pids : Kernel.Pids g.pidCount m
  threads : Threads i g.clearZombie m
  each : ∀ p t, m p = some t → Local g.exitLog t
  core : ∀ p t, m p = some t → CoreOk g.pidCount m t
  logged : ∀ k r, (k, r) ∈ g.exitLog → k < g.pidCount
  waiting : Waiting m

variable {i p : ℕ} {g : Globals} {m : ℕ → Option TaskInfo} {t t' : TaskInfo}

/-- A task waits for one child at most. -/
theorem CoreOk.wait_unique {n : ℤ} {c c' : ℕ} (h : CoreOk n m t) (hc : .waitFree c ∈ t.core)
    (hc' : .waitFree c' ∈ t.core) : c = c' := by
  cases h <;> simp_all

/-- A task that waits sleeps on `sleep_task_list`. -/
theorem CoreOk.head_of_wait {n : ℤ} {c : ℕ} (h : CoreOk n m t) (hc : .waitFree c ∈ t.core) :
    t.core.head? = some (.waitFree c) := by
  cases h <;> simp_all

/-- The pids of other tasks are all that the frames of `start` depend on. -/
theorem CoreOk.congr {n n' : ℤ} {m' : ℕ → Option TaskInfo} (h : CoreOk n m t) (hn : n ≤ n')
    (hm : ∀ q u, m' q = some u → n ≤ u.pid ∨
      ∃ q' v, m q' = some v ∧ v.pid = u.pid ∧ v.ppid = u.ppid) : CoreOk n' m' t := by
  cases h with
  | outside h => exact .outside h
  | waiting c h => exact .waiting c h
  | reading h => exact .reading h
  | clearing h => exact .clearing h
  | init h h0 => exact .init h h0
  | main k h h0 hk hkid =>
    refine .main k h h0 ⟨hk.1, by omega⟩ fun q u hu huk => ?_
    rcases hm q u hu with hlt | ⟨q', v, hv, hvp, hvpp⟩
    · omega
    · rw [← hvpp]; exact hkid q' v hv (hvp.trans huk)
  | respawn h h0 => exact .respawn h h0
  | mainWaiting c h h0 => exact .mainWaiting c h h0

/-- The frames and the pid are all of a task that matters. -/
theorem CoreOk.of_core {n : ℤ} (h : CoreOk n m t) (hcore : t'.core = t.core)
    (hpid : t'.pid = t.pid) : CoreOk n m t' := by
  cases h with
  | outside h => exact .outside (hcore.trans h)
  | waiting c h => exact .waiting c (hcore.trans h)
  | reading h => exact .reading (hcore.trans h)
  | clearing h => exact .clearing (hcore.trans h)
  | init h h0 => exact .init (hcore.trans h) (by rw [hpid]; exact h0)
  | main k h h0 hk hkid => exact .main k (hcore.trans h) (hpid.trans h0) hk hkid
  | respawn h h0 => exact .respawn (hcore.trans h) (hpid.trans h0)
  | mainWaiting c h h0 => exact .mainWaiting c (hcore.trans h) (hpid.trans h0)

theorem update_eq_some {q : ℕ} {u : TaskInfo} :
    Function.update m p (some t') q = some u ↔ (q = p ∧ u = t') ∨ (q ≠ p ∧ m q = some u) := by
  rw [Function.update_apply]
  split
  · next hq => simp [hq, eq_comm]
  · next hq => simp [hq]

/-- A task after the change of two tasks, first of the one at `p`. -/
theorem update_update_eq_some {q f : ℕ} {a b u : TaskInfo} :
    Function.update (Function.update m p (some a)) f (some b) q = some u ↔
      (q = f ∧ u = b) ∨ (q ≠ f ∧ q = p ∧ u = a) ∨ (q ≠ f ∧ q ≠ p ∧ m q = some u) := by
  rw [update_eq_some, update_eq_some, and_or_left]

theorem update_update_of_ne {q f : ℕ} {a b : Option TaskInfo} (hqf : q ≠ f) (hqp : q ≠ p) :
    Function.update (Function.update m p a) f b q = m q := by
  rw [Function.update_of_ne hqf, Function.update_of_ne hqp]

theorem update_update_first {f : ℕ} {a b : Option TaskInfo} (hpf : p ≠ f) :
    Function.update (Function.update m p a) f b p = a := by
  rw [Function.update_of_ne hpf, Function.update_self]

/-- Tasks in different states are different. -/
theorem ne_of_state {q : ℕ} {u : TaskInfo} (ht : m p = some t) (hu : m q = some u)
    (hne : u.state ≠ t.state) : q ≠ p := by
  rintro rfl
  rw [Option.some.inj (hu.symm.trans ht)] at hne
  exact hne rfl

/-! ### Changes of one task -/

/-- Every task was there before with its pid. -/
theorem Kernel.Pids.of_older {n : ℤ} {m' : ℕ → Option TaskInfo} (h : Kernel.Pids n m)
    (hold : ∀ q u, m' q = some u → ∃ v, m q = some v ∧ v.pid = u.pid) : Kernel.Pids n m' := by
  refine ⟨?_, fun q r u v hu hv huv => ?_, fun q u hu => ?_⟩
  · rw [Option.eq_none_iff_forall_ne_some]
    intro u hu
    obtain ⟨v, hv, -⟩ := hold 0 u hu
    rw [h.null] at hv
    cases hv
  · obtain ⟨u', hu', hup⟩ := hold q u hu
    obtain ⟨v', hv', hvp⟩ := hold r v hv
    exact h.inj q r u' v' hu' hv' (by omega)
  · obtain ⟨u', hu', hup⟩ := hold q u hu
    rw [← hup]
    exact h.range q u' hu'

theorem Kernel.Pids.update {n : ℤ} (h : Kernel.Pids n m) (ht : m p = some t)
    (hpid : t'.pid = t.pid) : Kernel.Pids n (Function.update m p (some t')) := by
  refine h.of_older fun q u hu => ?_
  rcases update_eq_some.1 hu with ⟨rfl, rfl⟩ | ⟨-, hu⟩
  · exact ⟨t, ht, hpid.symm⟩
  · exact ⟨u, hu, rfl⟩

theorem Kernel.Pids.free {n : ℤ} (h : Kernel.Pids n m) : Kernel.Pids n (Function.update m p none) := by
  refine h.of_older fun q u hu => ?_
  rw [Function.update_apply] at hu
  split at hu
  · cases hu
  · exact ⟨u, hu, rfl⟩

/-- A new task gets the next pid. -/
theorem Kernel.Pids.born {n : ℤ} (h : Kernel.Pids n m) (hp : p ≠ 0) (hpid : t.pid = n) (hn : 0 ≤ n) :
    Kernel.Pids (n + 1) (Function.update m p (some t)) := by
  refine ⟨?_, fun q r u v hu hv huv => ?_, fun q u hu => ?_⟩
  · rw [Function.update_of_ne hp.symm]
    exact h.null
  · -- the new pid is larger than the others
    rcases update_eq_some.1 hu with ⟨hq, hut⟩ | ⟨-, hu⟩ <;>
      rcases update_eq_some.1 hv with ⟨hr, hvt⟩ | ⟨-, hv⟩
    · rw [hq, hr]
    · have := h.range r v hv
      rw [hut] at huv
      omega
    · have := h.range q u hu
      rw [hvt] at huv
      omega
    · exact h.inj q r u v hu hv huv
  · rcases update_eq_some.1 hu with ⟨rfl, rfl⟩ | ⟨-, hu⟩
    · omega
    · have := h.range q u hu
      omega

theorem CoreOk.update {n : ℤ} {u : TaskInfo} (h : CoreOk n m u) (ht : m p = some t)
    (hpid : t'.pid = t.pid) (hppid : t'.ppid = t.ppid) :
    CoreOk n (Function.update m p (some t')) u := by
  refine h.congr le_rfl fun q v hv => .inr ?_
  rcases update_eq_some.1 hv with ⟨rfl, rfl⟩ | ⟨-, hv⟩
  · exact ⟨q, t, ht, hpid.symm, hppid.symm⟩
  · exact ⟨q, v, hv, rfl, rfl⟩

theorem Threads.update {k : ℕ} (h : Threads i k m)
    (hidle : p = i → t'.mm = false ∧ t'.core = [] ∧ t'.place = .taskHeadp)
    (hclear : p = k → t'.mm = false ∧ t'.core = [.threadClear] ∧ t'.state ≠ .zombie) :
    Threads i k (Function.update m p (some t')) := by
  refine ⟨?_, ?_⟩
  · by_cases hi : i = p
    · exact ⟨t', by rw [hi, Function.update_self], hidle hi.symm⟩
    · rw [Function.update_of_ne hi]; exact h.idle
  · by_cases hk : k = p
    · exact ⟨t', by rw [hk, Function.update_self], hclear hk.symm⟩
    · rw [Function.update_of_ne hk]; exact h.clear

/-- A change that keeps the task pending for those who wait for it, and what it waits for. -/
theorem Waiting.update (h : Waiting m) (ht : m p = some t)
    (hpend : ∀ u, Pending u t → Pending u t')
    (hself : ∀ c, .waitFree c ∈ t'.core → t'.state ≠ .zombie →
      .waitFree c ∈ t.core ∧ t.state ≠ .zombie ∧ ∀ ct, Pending t ct → Pending t' ct)
    (hsleep : ∀ c, t.state = .sleep → .waitFree c ∈ t.core →
      t'.state = .sleep ∧ .waitFree c ∈ t'.core)
    (hwaited : t'.waited = true → t'.state ≠ .zombie → t.waited = true ∧ t.state ≠ .zombie) :
    Waiting (Function.update m p (some t')) := by
  have hchild : ∀ u c ct, m c = some ct → Pending u ct →
      ∃ ct', Function.update m p (some t') c = some ct' ∧ Pending u ct' := by
    intro u c ct hct hp
    by_cases hc : c = p
    · subst hc
      rw [ht, Option.some.injEq] at hct
      subst hct
      exact ⟨t', Function.update_self .., hpend u hp⟩
    · exact ⟨ct, by rw [Function.update_of_ne hc]; exact hct, hp⟩
  refine ⟨fun q u c hu hc hz => ?_, fun c ct hct hw hz => ?_⟩
  · rcases update_eq_some.1 hu with ⟨rfl, rfl⟩ | ⟨-, hu⟩
    · obtain ⟨hc', hz', hpend'⟩ := hself c hc hz
      obtain ⟨ct, hct, hp⟩ := h.waits q t c ht hc' hz'
      exact hchild u c ct hct (hpend' ct hp)
    · obtain ⟨ct, hct, hp⟩ := h.waits q u c hu hc hz
      exact hchild u c ct hct hp
  · obtain ⟨q, v, hv, hvs, hvc⟩ : ∃ q v, m q = some v ∧ v.state = .sleep ∧
        .waitFree c ∈ v.core := by
      rcases update_eq_some.1 hct with ⟨rfl, rfl⟩ | ⟨-, hct⟩
      · obtain ⟨hw', hz'⟩ := hwaited hw hz
        exact h.waited c t ht hw' hz'
      · exact h.waited c ct hct hw hz
    by_cases hq : q = p
    · subst hq
      rw [ht, Option.some.injEq] at hv
      subst hv
      exact ⟨q, t', Function.update_self .., hsleep c hvs hvc⟩
    · exact ⟨q, v, by rw [Function.update_of_ne hq]; exact hv, hvs, hvc⟩

/-- A change of one task that keeps its pids. -/
theorem Proto.update (h : Proto i g m) (ht : m p = some t) (hpid : t'.pid = t.pid)
    (hppid : t'.ppid = t.ppid) (hlocal : Local g.exitLog t') (hcore : CoreOk g.pidCount m t')
    (hthreads : Threads i g.clearZombie (Function.update m p (some t')))
    (hwaiting : Waiting (Function.update m p (some t'))) :
    Proto i g (Function.update m p (some t')) := by
  refine ⟨h.pids.update ht hpid, hthreads, fun q u hu => ?_, fun q u hu => ?_, h.logged, hwaiting⟩
  · rcases update_eq_some.1 hu with ⟨rfl, rfl⟩ | ⟨-, hu⟩
    · exact hlocal
    · exact h.each q u hu
  · rcases update_eq_some.1 hu with ⟨rfl, rfl⟩ | ⟨-, hu⟩
    · exact hcore.update ht hpid hppid
    · exact (h.core q u hu).update ht hpid hppid

/-- A change of frames, `mm` or `sigterm` of the task at `p` that does not touch what the task waits
for. -/
structure Change (i : ℕ) (g : Globals) (m : ℕ → Option TaskInfo) (p : ℕ) (t t' : TaskInfo) :
    Prop where
  pid : t'.pid = t.pid
  ppid : t'.ppid = t.ppid
  state : t'.state = t.state
  waited : t'.waited = t.waited
  orphan : t'.orphan = t.orphan
  exitStatus : t'.exitStatus = t.exitStatus
  sigterm : t.sigterm = true → t'.sigterm = true
  unkilled : t'.mm = false → t'.sigterm = false
  user : t'.mm = true → t'.pid ≠ 0
  wait : ∀ c, .waitFree c ∈ t'.core ↔ .waitFree c ∈ t.core
  asleep : t.state = .sleep → t'.core = t.core
  core : CoreOk g.pidCount m t'
  idle : p = i → t'.mm = false ∧ t'.core = []
  clear : p = g.clearZombie → t'.mm = false ∧ t'.core = [.threadClear]

theorem Change.place (h : Change i g m p t t') : t'.place = t.place := by
  unfold TaskInfo.place
  rw [h.state]
  cases hs : t.state with
  | sleep => simp only; rw [h.asleep hs]
  | _ => rfl

theorem Proto.change (h : Proto i g m) (ht : m p = some t) (hch : Change i g m p t t') :
    Proto i g (Function.update m p (some t')) := by
  obtain ⟨hpid, hppid, hstate, hwaited, horphan, hexit, -, hunk, huser, hwait, hasleep, hcore,
    hidle, hclear⟩ := hch
  have hl := h.each p t ht
  have hlocal : Local g.exitLog t' := by
    refine ⟨hunk, huser, by rw [hpid, hppid]; exact hl.father, fun hs => ?_,
      by rw [hstate, horphan, hpid]; exact hl.alive, by rw [hstate, hpid, hexit]; exact hl.dead⟩
    rw [hstate] at hs
    rw [hasleep hs]
    exact hl.asleep hs
  refine h.update ht hpid hppid hlocal hcore (h.threads.update (fun hp => ?_) fun hp => ?_) ?_
  · obtain ⟨u, hu, -, -, hplace⟩ := h.threads.idle
    rw [← hp, ht, Option.some.injEq] at hu
    rw [← hu, TaskInfo.place_eq_taskHeadp] at hplace
    exact ⟨(hidle hp).1, (hidle hp).2, TaskInfo.place_eq_taskHeadp.2 (by rw [hstate]; exact hplace)⟩
  · obtain ⟨u, hu, -, -, hz⟩ := h.threads.clear
    rw [← hp, ht, Option.some.injEq] at hu
    exact ⟨(hclear hp).1, (hclear hp).2, by rw [hstate, hu]; exact hz⟩
  · refine h.waiting.update ht (fun u hp => ?_) (fun c hc hz => ?_) (fun c hs hc => ?_) ?_
    · exact ⟨hppid.trans hp.ppid, hwaited.trans hp.waited, by rw [hstate]; exact hp.alive,
        by rw [hstate, horphan]; exact hp.dead⟩
    · refine ⟨(hwait c).1 hc, by rwa [hstate] at hz, fun ct hp => ?_⟩
      exact ⟨by rw [hpid]; exact hp.ppid, hp.waited, by rw [hstate]; exact hp.alive,
        by rw [hstate]; exact hp.dead⟩
    · exact ⟨hstate.trans hs, (hwait c).2 hc⟩
    · rw [hwaited, hstate]
      exact fun hw hz => ⟨hw, hz⟩

/-- A task that waits for no child wakes up. -/
theorem Proto.wakePlain (h : Proto i g m) (ht : m p = some t) (hs : t.state = .sleep)
    (hw : ∀ c, .waitFree c ∉ t.core) :
    Proto i g (Function.update m p (some { t with state := .active })) := by
  have hl := h.each p t ht
  have hnz : t.state ≠ .zombie := by rw [hs]; decide
  refine h.update ht rfl rfl ⟨hl.unkilled, hl.user, hl.father, fun h => by simp at h,
    fun _ => hl.alive hnz, fun h => by simp at h⟩ ((h.core p t ht).of_core rfl rfl)
    (h.threads.update (fun hp => ?_) fun hp => ?_) ?_
  · obtain ⟨u, hu, -, -, hplace⟩ := h.threads.idle
    rw [← hp, ht, Option.some.injEq] at hu
    rw [← hu, TaskInfo.place_eq_taskHeadp] at hplace
    exact absurd hs hplace.1
  · obtain ⟨u, hu, hmm, hcore, -⟩ := h.threads.clear
    rw [← hp, ht, Option.some.injEq] at hu
    subst hu
    exact ⟨hmm, hcore, by simp⟩
  · refine h.waiting.update ht (fun u hp => ?_) (fun c hc => absurd hc (hw c))
      (fun c _ hc => absurd hc (hw c)) fun hwd _ => ⟨hwd, hnz⟩
    exact ⟨hp.ppid, hp.waited, fun _ => by simp, fun hu => absurd (hp.dead hu).1 hnz⟩

/-- A task that waits for no child falls asleep. -/
theorem Proto.sleepPlain (h : Proto i g m) (ht : m p = some t) (hplace : t.place = .taskHeadp)
    (hcore : t.core = [.readStdin] ∨ t.core = [.threadClear]) :
    Proto i g (Function.update m p (some { t with state := .sleep })) := by
  have hl := h.each p t ht
  obtain ⟨hns, hnz⟩ := TaskInfo.place_eq_taskHeadp.1 hplace
  have hw : ∀ c, .waitFree c ∉ t.core := by
    intro c
    rcases hcore with hc | hc <;> simp [hc]
  refine h.update ht rfl rfl ⟨hl.unkilled, hl.user, hl.father,
    fun _ => hcore.imp_right .inl, fun _ => hl.alive hnz, fun h => by simp at h⟩ ?_
    (h.threads.update (fun hp => ?_) fun hp => ?_) ?_
  · rcases hcore with hc | hc
    · exact .reading hc
    · exact .clearing hc
  · obtain ⟨u, hu, -, hcore', -⟩ := h.threads.idle
    rw [← hp, ht, Option.some.injEq] at hu
    rw [← hu] at hcore'
    simp [hcore'] at hcore
  · obtain ⟨u, hu, hmm, hcore', -⟩ := h.threads.clear
    rw [← hp, ht, Option.some.injEq] at hu
    subst hu
    exact ⟨hmm, hcore', by simp⟩
  · refine h.waiting.update ht (fun u hp => ?_) (fun c hc => absurd hc (hw c))
      (fun c hs => absurd hs hns) fun hwd _ => ⟨hwd, hnz⟩
    exact ⟨hp.ppid, hp.waited, fun _ => by simp, fun hu => absurd (hp.dead hu).1 hnz⟩

/-! ### Exits -/

/-- Exits of other tasks. -/
theorem Local.log {log : List (ℤ × ℤ)} {k r : ℤ} (h : Local log t) (hk : t.pid ≠ k) :
    Local ((k, r) :: log) t := by
  refine ⟨h.unkilled, h.user, h.father, h.asleep, fun hz => ⟨(h.alive hz).1, fun x hx => ?_⟩,
    fun hz x => ?_⟩
  · rcases List.mem_cons.1 hx with hx | hx
    · exact hk (congrArg Prod.fst hx)
    · exact (h.alive hz).2 x hx
  · rw [← h.dead hz x, List.mem_cons]
    exact or_iff_right fun hx => hk (congrArg Prod.fst hx)

/-- The exit of the task itself. -/
theorem Local.zombie {log : List (ℤ × ℤ)} (h : Local log t) (hz : t.state ≠ .zombie) (r : ℤ)
    (orphan : Bool) : Local ((t.pid, r) :: log)
      { t with exitStatus := r, state := .zombie, orphan := orphan } := by
  refine ⟨h.unkilled, h.user, h.father, fun h => by simp at h, fun h => absurd rfl h, fun _ x => ?_⟩
  rw [List.mem_cons]
  constructor
  · rintro (hx | hx)
    · exact congrArg Prod.snd hx
    · exact absurd hx ((h.alive hz).2 x)
  · rintro rfl
    exact .inl rfl

variable {status : ℤ}

/-- A task that nobody waits for exits. -/
theorem Proto.exitOrphan (h : Proto i g m) (ht : m p = some t) (hplace : t.place = .taskHeadp)
    (hw : t.waited = false) (hi : p ≠ i) (hc : p ≠ g.clearZombie) :
    Proto i { g with exitLog := (t.pid, status) :: g.exitLog } (Function.update m p
      (some { t with exitStatus := status, state := .zombie, orphan := true })) := by
  obtain ⟨hns, hnz⟩ := TaskInfo.place_eq_taskHeadp.1 hplace
  refine ⟨h.pids.update ht rfl, h.threads.update (fun h => absurd h hi) (fun h => absurd h hc),
    fun q u hu => ?_, fun q u hu => ?_, fun k r hk => ?_, ?_⟩
  · rcases update_eq_some.1 hu with ⟨rfl, rfl⟩ | ⟨hq, hu⟩
    · exact (h.each q t ht).zombie hnz status true
    · exact (h.each q u hu).log fun hpid => hq (h.pids.inj q p u t hu ht hpid)
  · have hcore : CoreOk g.pidCount m u := by
      rcases update_eq_some.1 hu with ⟨rfl, rfl⟩ | ⟨-, hu⟩
      · exact (h.core q t ht).of_core rfl rfl
      · exact h.core q u hu
    exact hcore.update ht rfl rfl
  · rcases List.mem_cons.1 hk with hk | hk
    · cases hk; exact (h.pids.range p t ht).2
    · exact h.logged k r hk
  · refine h.waiting.update ht (fun u hp => ?_) (fun c _ hz => absurd rfl hz)
      (fun c hs => absurd hs hns) fun _ hz => absurd rfl hz
    exact absurd hp.waited (by rw [hw]; decide)

/-- Who waits for whom when a task exits that another one waits for. -/
theorem Proto.waiting_exitWaited (h : Proto i g m) (ht : m p = some t) (hplace : t.place = .taskHeadp)
    (hw : t.waited = true) {f : ℕ} {u : TaskInfo} (hu : m f = some u) (hus : u.state = .sleep)
    (huw : .waitFree p ∈ u.core) :
    Waiting (Function.update (Function.update m p
      (some { t with exitStatus := status, state := .zombie })) f (some { u with state := .active })) := by
  obtain ⟨hns, hnz⟩ := TaskInfo.place_eq_taskHeadp.1 hplace
  have hfp : f ≠ p := ne_of_state ht hu (by rw [hus]; exact hns.symm)
  have huz : u.state ≠ .zombie := by rw [hus]; decide
  obtain ⟨t₀, ht₀, hpend⟩ := h.waiting.waits f u p hu huw huz
  obtain rfl := Option.some.inj (ht.symm.trans ht₀)
  refine ⟨fun q v c hv hvc hvz => ?_, fun c ct hct hcw hcz => ?_⟩
  · rcases update_update_eq_some.1 hv with ⟨rfl, rfl⟩ | ⟨-, rfl, rfl⟩ | ⟨hqf, -, hv₀⟩
    · -- the task that wakes up waits for the one that exits
      obtain rfl := (h.core q u hu).wait_unique huw hvc
      exact ⟨_, update_update_first hfp.symm, hpend.ppid, hw, fun h => by simp at h,
        fun _ => ⟨rfl, ((h.each p t ht).alive hnz).1⟩⟩
    · exact absurd rfl hvz
    · obtain ⟨ct, hct, hp⟩ := h.waiting.waits q v c hv₀ hvc hvz
      by_cases hcp : c = p
      · rw [hcp, ht, Option.some.injEq] at hct
        subst hct
        exact absurd (h.pids.inj q f v u hv₀ hu (hp.ppid.symm.trans hpend.ppid)) hqf
      · by_cases hcf : c = f
        · rw [hcf, hu, Option.some.injEq] at hct
          subst hct
          rw [hcf]
          exact ⟨_, Function.update_self .., hp.ppid, hp.waited, fun _ => by simp, fun hvs =>
            absurd (hp.dead hvs).1 huz⟩
        · exact ⟨ct, (update_update_of_ne hcf hcp).trans hct, hp⟩
  · obtain ⟨ct₀, hct₀, hw₀, hz₀, hcp⟩ : ∃ ct₀, m c = some ct₀ ∧ ct₀.waited = true ∧
        ct₀.state ≠ .zombie ∧ c ≠ p := by
      rcases update_update_eq_some.1 hct with ⟨rfl, rfl⟩ | ⟨-, rfl, rfl⟩ | ⟨-, hcp, hct⟩
      · exact ⟨u, hu, hcw, huz, hfp⟩
      · exact absurd rfl hcz
      · exact ⟨ct, hct, hcw, hcz, hcp⟩
    obtain ⟨q, v, hv, hvs, hvc⟩ := h.waiting.waited c ct₀ hct₀ hw₀ hz₀
    have hqf : q ≠ f := by
      rintro rfl
      obtain rfl := Option.some.inj (hu.symm.trans hv)
      exact hcp ((h.core q u hu).wait_unique hvc huw)
    have hqp : q ≠ p := ne_of_state ht hv (by rw [hvs]; exact hns.symm)
    exact ⟨q, v, (update_update_of_ne hqf hqp).trans hv, hvs, hvc⟩

/-- A task that another one waits for exits and wakes that one up. -/
theorem Proto.exitWaited (h : Proto i g m) (ht : m p = some t) (hplace : t.place = .taskHeadp)
    (hw : t.waited = true) (hi : p ≠ i) (hc : p ≠ g.clearZombie) {f : ℕ} {u : TaskInfo}
    (hu : m f = some u) (hus : u.state = .sleep) (huw : .waitFree p ∈ u.core) :
    Proto i { g with exitLog := (t.pid, status) :: g.exitLog } (Function.update (Function.update m p
      (some { t with exitStatus := status, state := .zombie })) f
      (some { u with state := .active })) := by
  obtain ⟨hns, hnz⟩ := TaskInfo.place_eq_taskHeadp.1 hplace
  have hfp : f ≠ p := ne_of_state ht hu (by rw [hus]; exact hns.symm)
  have huz : u.state ≠ .zombie := by rw [hus]; decide
  set tz : TaskInfo := { t with exitStatus := status, state := .zombie } with htz
  set uf : TaskInfo := { u with state := .active } with huf
  have hu' : Function.update m p (some tz) f = some u := by rw [Function.update_of_ne hfp]; exact hu
  have hpids : Kernel.Pids g.pidCount (Function.update m p (some tz)) := h.pids.update ht rfl
  refine ⟨hpids.update hu' rfl, ?_, fun q v hv => ?_, fun q v hv => ?_, fun k r hk => ?_,
    h.waiting_exitWaited ht hplace hw hu hus huw⟩
  · refine (h.threads.update (fun h => absurd h hi) (fun h => absurd h hc)).update (fun hf => ?_)
      fun hf => ?_
    · obtain ⟨v, hv, -, -, hvp⟩ := h.threads.idle
      rw [← hf, hu, Option.some.injEq] at hv
      rw [← hv, TaskInfo.place_eq_taskHeadp] at hvp
      exact absurd hus hvp.1
    · obtain ⟨v, hv, -, hvc, -⟩ := h.threads.clear
      rw [← hf, hu, Option.some.injEq] at hv
      rw [← hv] at hvc
      simp [hvc] at huw
  · rcases update_update_eq_some.1 hv with ⟨rfl, rfl⟩ | ⟨-, rfl, rfl⟩ | ⟨-, hq, hv⟩
    · have hl := (h.each q u hu).log (r := status) fun hpid => hfp (h.pids.inj q p u t hu ht hpid)
      exact ⟨hl.unkilled, hl.user, hl.father, fun h => by simp [huf] at h, fun _ => hl.alive huz,
        fun h => by simp [huf] at h⟩
    · have hl := (h.each q t ht).zombie hnz status t.orphan
      exact hl
    · exact (h.each q v hv).log fun hpid => hq (h.pids.inj q p v t hv ht hpid)
  · have hcore : CoreOk g.pidCount m v := by
      rcases update_update_eq_some.1 hv with ⟨rfl, rfl⟩ | ⟨-, rfl, rfl⟩ | ⟨-, -, hv⟩
      · exact (h.core q u hu).of_core rfl rfl
      · exact (h.core q t ht).of_core rfl rfl
      · exact h.core q v hv
    have hcore' : CoreOk g.pidCount (Function.update m p (some tz)) v := hcore.update ht rfl rfl
    exact hcore'.update hu' rfl rfl
  · rcases List.mem_cons.1 hk with hk | hk
    · cases hk; exact (h.pids.range p t ht).2
    · exact h.logged k r hk

/-- Replacing frames outside of what matters. -/
theorem Proto.reframe (h : Proto i g m) (ht : m p = some t) {fs : List KFrame}
    (hfs : ({ t with frames := fs } : TaskInfo).core = t.core) :
    Change i g m p t { t with frames := fs } := by
  have hl := h.each p t ht
  refine ⟨rfl, rfl, rfl, rfl, rfl, rfl, id, hl.unkilled, hl.user, fun c => by rw [hfs],
    fun _ => hfs, (h.core p t ht).of_core hfs rfl, fun hp => ?_, fun hp => ?_⟩
  · obtain ⟨u, hu, hmm, hcore, -⟩ := h.threads.idle
    rw [← hp, ht, Option.some.injEq] at hu
    subst hu
    exact ⟨hmm, hfs.trans hcore⟩
  · obtain ⟨u, hu, hmm, hcore, -⟩ := h.threads.clear
    rw [← hp, ht, Option.some.injEq] at hu
    subst hu
    exact ⟨hmm, hfs.trans hcore⟩

/-! ### Waiting, creation and release -/

/-- Who waits for whom when a task starts to wait for its child `c`. -/
theorem Proto.waiting_sleepWait (h : Proto i g m) (ht : m p = some t) (hplace : t.place = .taskHeadp)
    {c : ℕ} {ct : TaskInfo} (hct : m c = some ct) (hcz : ct.state ≠ .zombie) (hppid : ct.ppid = t.pid)
    (hcp : c ≠ p) (hpid' : t'.pid = t.pid) (hppid' : t'.ppid = t.ppid) (hwaited : t'.waited = t.waited)
    (hstate : t'.state = .sleep) (hw' : ∀ d, .waitFree d ∈ t'.core ↔ d = c) :
    Waiting (Function.update (Function.update m c (some { ct with waited := true })) p (some t')) := by
  obtain ⟨hns, hnz⟩ := TaskInfo.place_eq_taskHeadp.1 hplace
  set cw : TaskInfo := { ct with waited := true } with hcw
  -- the tasks other than `p`, with the task they were
  have hcases : ∀ q v, Function.update (Function.update m c (some cw)) p (some t') q = some v →
      (q = p ∧ v = t') ∨ ∃ v₀, m q = some v₀ ∧ v₀.state = v.state ∧ v₀.core = v.core ∧
        v₀.pid = v.pid ∧ (q ≠ c → v₀ = v) := by
    intro q v hv
    rcases update_update_eq_some.1 hv with hq | ⟨-, rfl, rfl⟩ | ⟨-, -, hv⟩
    · exact .inl hq
    · exact .inr ⟨ct, hct, rfl, rfl, rfl, fun h => absurd rfl h⟩
    · exact .inr ⟨v, hv, rfl, rfl, rfl, fun _ => rfl⟩
  refine ⟨fun q v d hv hvd hvz => ?_, fun d dt hdt hdw hdz => ?_⟩
  · rcases hcases q v hv with ⟨rfl, rfl⟩ | ⟨v₀, hv₀, hst, hco, hvp, -⟩
    · obtain rfl := (hw' d).1 hvd
      exact ⟨cw, update_update_first hcp, by rw [hpid']; exact hppid, rfl, fun _ => hcz,
        fun hs => absurd hstate hs⟩
    · rw [← hco] at hvd
      rw [← hst] at hvz
      obtain ⟨dt, hdt, hpd⟩ := h.waiting.waits q v₀ d hv₀ hvd hvz
      have hpd' : Pending v dt :=
        ⟨by rw [← hvp]; exact hpd.ppid, hpd.waited, by rw [← hst]; exact hpd.alive,
          by rw [← hst]; exact hpd.dead⟩
      by_cases hdp : d = p
      · rw [hdp, ht, Option.some.injEq] at hdt
        subst hdt
        rw [hdp]
        exact ⟨t', Function.update_self .., hppid'.trans hpd'.ppid, hwaited.trans hpd'.waited,
          fun _ => by rw [hstate]; decide, fun hs => absurd (hpd'.dead hs).1 hnz⟩
      · by_cases hdc : d = c
        · rw [hdc, hct, Option.some.injEq] at hdt
          subst hdt
          rw [hdc]
          exact ⟨cw, update_update_first hcp, hpd'.ppid, rfl, hpd'.alive, hpd'.dead⟩
        · exact ⟨dt, (update_update_of_ne hdp hdc).trans hdt, hpd'⟩
  · by_cases hdc : d = c
    · exact ⟨p, t', Function.update_self .., hstate, (hw' d).2 hdc⟩
    · obtain ⟨dt₀, hdt₀, hw₀, hz₀⟩ : ∃ dt₀, m d = some dt₀ ∧ dt₀.waited = true ∧
          dt₀.state ≠ .zombie := by
        rcases hcases d dt hdt with ⟨rfl, rfl⟩ | ⟨v₀, hv₀, hst, -, -, heq⟩
        · exact ⟨t, ht, by rw [← hwaited]; exact hdw, hnz⟩
        · obtain rfl := heq hdc
          exact ⟨v₀, hv₀, hdw, hdz⟩
      obtain ⟨q, v, hv, hvs, hvd⟩ := h.waiting.waited d dt₀ hdt₀ hw₀ hz₀
      have hqp : q ≠ p := ne_of_state ht hv (by rw [hvs]; exact hns.symm)
      by_cases hqc : q = c
      · rw [hqc, hct, Option.some.injEq] at hv
        subst hv
        exact ⟨c, cw, update_update_first hcp, hvs, hvd⟩
      · exact ⟨q, v, (update_update_of_ne hqp hqc).trans hv, hvs, hvd⟩

/-- A task starts to wait for its child `c`. -/
theorem Proto.sleepWait (h : Proto i g m) (ht : m p = some t) (hplace : t.place = .taskHeadp)
    (hi : p ≠ i) (hcl : p ≠ g.clearZombie) {c : ℕ} {ct : TaskInfo} (hct : m c = some ct)
    (hcz : ct.state ≠ .zombie) (hppid : ct.ppid = t.pid) (hcp : c ≠ p)
    (hlocal : Local g.exitLog t') (hcore : CoreOk g.pidCount m t')
    (hpid' : t'.pid = t.pid) (hppid' : t'.ppid = t.ppid) (hwaited : t'.waited = t.waited)
    (hstate : t'.state = .sleep) (hw' : ∀ d, .waitFree d ∈ t'.core ↔ d = c) :
    Proto i g (Function.update (Function.update m c (some { ct with waited := true })) p
      (some t')) := by
  have hwaiting := h.waiting_sleepWait ht hplace hct hcz hppid hcp hpid' hppid' hwaited hstate hw'
  set cw : TaskInfo := { ct with waited := true } with hcw
  have ht₁ : Function.update m c (some cw) p = some t := by
    rw [Function.update_of_ne hcp.symm]; exact ht
  have hpids : Kernel.Pids g.pidCount (Function.update m c (some cw)) := h.pids.update hct rfl
  have hthreads : Threads i g.clearZombie (Function.update m c (some cw)) := by
    refine h.threads.update (fun hci => ?_) fun hcc => ?_
    · obtain ⟨v, hv, hvi⟩ := h.threads.idle
      rw [← hci, hct, Option.some.injEq] at hv
      subst hv
      exact hvi
    · obtain ⟨v, hv, hvi⟩ := h.threads.clear
      rw [← hcc, hct, Option.some.injEq] at hv
      subst hv
      exact hvi
  refine ⟨hpids.update ht₁ hpid', hthreads.update (fun h => absurd h hi) (fun h => absurd h hcl),
    fun q v hv => ?_, fun q v hv => ?_, h.logged, hwaiting⟩
  · rcases update_update_eq_some.1 hv with ⟨rfl, rfl⟩ | ⟨-, rfl, rfl⟩ | ⟨-, -, hv⟩
    · exact hlocal
    · have hl := h.each q ct hct
      exact ⟨hl.unkilled, hl.user, hl.father, hl.asleep, hl.alive, hl.dead⟩
    · exact h.each q v hv
  · have hcore' : CoreOk g.pidCount m v := by
      rcases update_update_eq_some.1 hv with ⟨rfl, rfl⟩ | ⟨-, rfl, rfl⟩ | ⟨-, -, hv⟩
      · exact hcore
      · exact (h.core q ct hct).of_core rfl rfl
      · exact h.core q v hv
    have hcore₁ : CoreOk g.pidCount (Function.update m c (some cw)) v := hcore'.update hct rfl rfl
    exact hcore₁.update ht₁ hpid' hppid'

/-- A new task. -/
theorem Proto.newTask (h : Proto i g m) (hp : p ≠ 0) (hfresh : m p = none)
    (hpid : t.pid = g.pidCount) (hppid : t.ppid < t.pid) (hsig : t.sigterm = false)
    (hw : t.waited = false) (ho : t.orphan = false) (hplace : t.place = .taskHeadp)
    (hcore : t.core = [] ∨ t.core = [.runInit]) :
    Proto i { g with pidCount := g.pidCount + 1, made := g.made + 1 }
      (Function.update m p (some t)) := by
  obtain ⟨hns, hnz⟩ := TaskInfo.place_eq_taskHeadp.1 hplace
  obtain ⟨u₀, hu₀, -⟩ := h.threads.idle
  have hpos := h.pids.range i u₀ hu₀
  have hold : ∀ q v, m q = some v → q ≠ p ∧ Function.update m p (some t) q = some v := by
    intro q v hv
    have hqp : q ≠ p := by
      rintro rfl
      rw [hfresh] at hv
      simp at hv
    exact ⟨hqp, by rw [Function.update_of_ne hqp]; exact hv⟩
  have hw' : ∀ c, .waitFree c ∉ t.core := by
    intro c
    rcases hcore with hc | hc <;> simp [hc]
  refine ⟨h.pids.born hp hpid (by omega), ⟨?_, ?_⟩, fun q u hu => ?_, fun q u hu => ?_,
    fun k r hk => ?_, fun q u c hu hc hz => ?_, fun c ct hct hcw hcz => ?_⟩
  · obtain ⟨u, hu, hrest⟩ := h.threads.idle
    exact ⟨u, (hold i u hu).2, hrest⟩
  · obtain ⟨u, hu, hrest⟩ := h.threads.clear
    exact ⟨u, (hold _ u hu).2, hrest⟩
  · rcases update_eq_some.1 hu with ⟨rfl, rfl⟩ | ⟨-, hu⟩
    · refine ⟨fun _ => hsig, fun _ => by omega, fun _ => hppid, fun hs => absurd hs hns,
        fun _ => ⟨ho, fun r hr => ?_⟩, fun hz => absurd hz hnz⟩
      have := h.logged _ r hr
      omega
    · exact h.each q u hu
  · have hnew : ∀ q v, Function.update m p (some t) q = some v → g.pidCount ≤ v.pid ∨
        ∃ q' w, m q' = some w ∧ w.pid = v.pid ∧ w.ppid = v.ppid := by
      intro q v hv
      rcases update_eq_some.1 hv with ⟨rfl, rfl⟩ | ⟨-, hv⟩
      · exact .inl (by omega)
      · exact .inr ⟨q, v, hv, rfl, rfl⟩
    rcases update_eq_some.1 hu with ⟨rfl, rfl⟩ | ⟨-, hu⟩
    · rcases hcore with hc | hc
      · exact .outside hc
      · exact .init hc (by omega)
    · exact (h.core q u hu).congr (by simp) hnew
  · have := h.logged k r hk
    show k < g.pidCount + 1
    omega
  · rcases update_eq_some.1 hu with ⟨rfl, rfl⟩ | ⟨-, hu⟩
    · exact absurd hc (hw' c)
    · obtain ⟨ct, hct, hpend⟩ := h.waiting.waits q u c hu hc hz
      exact ⟨ct, (hold c ct hct).2, hpend⟩
  · rcases update_eq_some.1 hct with ⟨rfl, rfl⟩ | ⟨-, hct⟩
    · rw [hw] at hcw
      simp at hcw
    · obtain ⟨q, v, hv, hrest⟩ := h.waiting.waited c ct hct hcw hcz
      exact ⟨q, v, (hold q v hv).2, hrest⟩

/-- A zombie that nobody waits for is freed. -/
theorem Proto.free (h : Proto i g m) (ht : m p = some t) (hz : t.state = .zombie)
    (hnw : ∀ q u, m q = some u → .waitFree p ∈ u.core → u.state = .zombie) :
    Proto i g (Function.update m p none) := by
  have hsub : ∀ q v, Function.update m p none q = some v → q ≠ p ∧ m q = some v := by
    intro q v hv
    rw [Function.update_apply] at hv
    split at hv
    · simp at hv
    · next hq => exact ⟨hq, hv⟩
  have hkeep : ∀ q v, q ≠ p → m q = some v → Function.update m p none q = some v := by
    intro q v hq hv
    rw [Function.update_of_ne hq]; exact hv
  refine ⟨h.pids.free, ⟨?_, ?_⟩, fun q u hu => ?_, fun q u hu => ?_, h.logged,
    fun q u c hu hc huz => ?_, fun c ct hct hcw hcz => ?_⟩
  · obtain ⟨u, hu, hmm, hco, hpl⟩ := h.threads.idle
    refine ⟨u, hkeep i u ?_ hu, hmm, hco, hpl⟩
    rintro rfl
    rw [ht, Option.some.injEq] at hu
    exact (TaskInfo.place_eq_taskHeadp.1 hpl).2 (hu ▸ hz)
  · obtain ⟨u, hu, hmm, hco, hnz⟩ := h.threads.clear
    refine ⟨u, hkeep _ u ?_ hu, hmm, hco, hnz⟩
    intro hcp
    rw [hcp, ht, Option.some.injEq] at hu
    exact hnz (hu ▸ hz)
  · exact h.each q u (hsub q u hu).2
  · exact (h.core q u (hsub q u hu).2).congr le_rfl
      fun r v hv => .inr ⟨r, v, (hsub r v hv).2, rfl, rfl⟩
  · obtain ⟨ct, hct, hpend⟩ := h.waiting.waits q u c (hsub q u hu).2 hc huz
    refine ⟨ct, hkeep c ct ?_ hct, hpend⟩
    rintro rfl
    exact huz (hnw q u (hsub q u hu).2 hc)
  · obtain ⟨q, v, hv, hvs, hvc⟩ := h.waiting.waited c ct (hsub c ct hct).2 hcw hcz
    refine ⟨q, v, hkeep q v ?_ hv, hvs, hvc⟩
    rintro rfl
    obtain rfl : t = v := by rw [ht] at hv; exact Option.some.inj hv
    rw [hz] at hvs
    simp at hvs

/-- The tasks and the globals, without the lists. -/
abbrev Tasks := Globals × (ℕ → Option TaskInfo)

/-- The ways tasks change. -/
inductive Trans (i : ℕ) : Tasks → Tasks → Prop
  | globals {g g' : Globals} {m : ℕ → Option TaskInfo} (hn : g'.pidCount = g.pidCount)
      (hc : g'.clearZombie = g.clearZombie) (he : g'.exitLog = g.exitLog)
      (hw : g'.waitLog = g.waitLog) : Trans i (g, m) (g', m)
  | noChild {g : Globals} {m : ℕ → Option TaskInfo} {p : ℕ} {t : TaskInfo} {pid : ℤ}
      (ht : m p = some t) (hready : t.place = .taskHeadp) (hout : ∀ c, .waitFree c ∉ t.core)
      (hnone : ∀ q u, m q = some u → u.pid = pid → u.state = .zombie) :
      Trans i (g, m) ({ g with waitLog := (t.pid, pid, -1) :: g.waitLog }, m)
  | change {g : Globals} {m : ℕ → Option TaskInfo} {p : ℕ} {t t' : TaskInfo} (ht : m p = some t)
      (hch : Change i g m p t t') : Trans i (g, m) (g, Function.update m p (some t'))
  | wakePlain {g : Globals} {m : ℕ → Option TaskInfo} {p : ℕ} {t : TaskInfo} (ht : m p = some t)
      (hs : t.state = .sleep) (hw : ∀ c, .waitFree c ∉ t.core) :
      Trans i (g, m) (g, Function.update m p (some { t with state := .active }))
  | sleepPlain {g : Globals} {m : ℕ → Option TaskInfo} {p : ℕ} {t : TaskInfo} (ht : m p = some t)
      (hready : t.place = .taskHeadp) (hcore : t.core = [.readStdin] ∨ t.core = [.threadClear]) :
      Trans i (g, m) (g, Function.update m p (some { t with state := .sleep }))
  | sleepWait {g : Globals} {m : ℕ → Option TaskInfo} {p c : ℕ} {t ct : TaskInfo}
      (ht : m p = some t) (hready : t.place = .taskHeadp) (hi : p ≠ i) (hcl : p ≠ g.clearZombie)
      (hout : t.core = [] ∨ t.core = [.mainRespawn] ∧ t.pid = 0) (hct : m c = some ct)
      (hcz : ct.state ≠ .zombie) (hppid : ct.ppid = t.pid) (hcp : c ≠ p) :
      Trans i (g, m) (g, Function.update (Function.update m c (some { ct with waited := true })) p
        (some { t with state := .sleep, frames := .waitFree c :: t.frames }))
  | exitOrphan {g : Globals} {m : ℕ → Option TaskInfo} {p : ℕ} {t : TaskInfo} {status : ℤ}
      (ht : m p = some t) (hready : t.place = .taskHeadp) (hw : t.waited = false) (hi : p ≠ i)
      (hcl : p ≠ g.clearZombie) :
      Trans i (g, m) ({ g with exitLog := (t.pid, status) :: g.exitLog }, Function.update m p
        (some { t with exitStatus := status, state := .zombie, orphan := true }))
  | exitWaited {g : Globals} {m : ℕ → Option TaskInfo} {p f : ℕ} {t u : TaskInfo} {status : ℤ}
      (ht : m p = some t) (hready : t.place = .taskHeadp) (hw : t.waited = true) (hi : p ≠ i)
      (hcl : p ≠ g.clearZombie) (hu : m f = some u) (hus : u.state = .sleep)
      (huw : .waitFree p ∈ u.core) :
      Trans i (g, m) ({ g with exitLog := (t.pid, status) :: g.exitLog }, Function.update
        (Function.update m p (some { t with exitStatus := status, state := .zombie })) f
        (some { u with state := .active }))
  | newTask {g : Globals} {m : ℕ → Option TaskInfo} {p : ℕ} {t : TaskInfo} (hp : p ≠ 0)
      (hfresh : m p = none) (hpid : t.pid = g.pidCount) (hppid : t.ppid < t.pid)
      (hsig : t.sigterm = false) (hw : t.waited = false) (ho : t.orphan = false)
      (hready : t.place = .taskHeadp) (hcore : t.core = [] ∨ t.core = [.runInit]) :
      Trans i (g, m) ({ g with pidCount := g.pidCount + 1, made := g.made + 1 },
        Function.update m p (some t))
  | free {g : Globals} {m : ℕ → Option TaskInfo} {p : ℕ} {t : TaskInfo} (ht : m p = some t)
      (hz : t.state = .zombie) (ho : t.orphan = true) : Trans i (g, m) (g, Function.update m p none)
  | collect {g : Globals} {m : ℕ → Option TaskInfo} {p c : ℕ} {t ct : TaskInfo} {fs : List KFrame}
      (ht : m p = some t) (hready : t.place = .taskHeadp) (hframes : t.frames = .waitFree c :: fs)
      (hct : m c = some ct) : Trans i (g, m)
        ({ g with waitLog := (t.pid, ct.pid, ct.exitStatus) :: g.waitLog },
          Function.update (Function.update m c none) p (some { t with frames := fs }))

theorem TaskInfo.core_cons {f : KFrame} {fs : List KFrame} (hf : f ≠ .schedule) :
    ({ t with frames := f :: fs } : TaskInfo).core = f :: ({ t with frames := fs } : TaskInfo).core := by
  simp [TaskInfo.core, hf]

theorem TaskInfo.core_schedule {fs : List KFrame} :
    ({ t with frames := .schedule :: fs } : TaskInfo).core =
      ({ t with frames := fs } : TaskInfo).core := by
  simp [TaskInfo.core]

/-- A call of `schedule` changes nothing else. -/
theorem Proto.pushSchedule (h : Proto i g m) (ht : m p = some t) :
    Change i g m p t { t with frames := .schedule :: t.frames } :=
  h.reframe ht TaskInfo.core_schedule

/-- A task that was woken up collects its child. -/
theorem Proto.collect (h : Proto i g m) {c : ℕ} {ct : TaskInfo} {fs : List KFrame}
    (ht : m p = some t) (hready : t.place = .taskHeadp) (hframes : t.frames = .waitFree c :: fs)
    (hct : m c = some ct) : Proto i g (Function.update (Function.update m c none) p
      (some { t with frames := fs })) := by
  obtain ⟨hns, hnz⟩ := TaskInfo.place_eq_taskHeadp.1 hready
  have hcore : t.core = .waitFree c :: ({ t with frames := fs } : TaskInfo).core := by
    have hcons : ({ t with frames := .waitFree c :: fs } : TaskInfo).core =
        .waitFree c :: ({ t with frames := fs } : TaskInfo).core :=
      TaskInfo.core_cons (by simp)
    rwa [← hframes] at hcons
  have hwc : .waitFree c ∈ t.core := by rw [hcore]; exact List.mem_cons_self
  obtain ⟨ct₀, hct₀, hpend⟩ := h.waiting.waits p t c ht hwc hnz
  obtain rfl : ct = ct₀ := by rw [hct] at hct₀; exact Option.some.inj hct₀
  have hcz := (hpend.dead hns).1
  have hcp : c ≠ p := by
    rintro rfl
    rw [ht, Option.some.injEq] at hct
    exact hnz (hct ▸ hcz)
  set t₁ : TaskInfo := { t with frames := fs } with ht₁
  have hcore₁ : t₁.core = [] ∨ t₁.core = [.mainRespawn] ∧ t.pid = 0 := by
    cases h.core p t ht with
    | waiting d hd => rw [hcore] at hd; exact .inl (List.cons.inj hd).2
    | mainWaiting d hd h0 => rw [hcore] at hd; exact .inr ⟨(List.cons.inj hd).2, h0⟩
    | _ => simp_all
  have hno : ∀ d, .waitFree d ∉ t₁.core := by
    intro d
    rcases hcore₁ with hc | ⟨hc, -⟩ <;> simp [hc]
  have hl := h.each p t ht
  -- the frame is popped, then the child is freed
  have hpop : Proto i g (Function.update m p (some t₁)) := by
    refine h.update ht rfl rfl ⟨hl.unkilled, hl.user, hl.father, fun hs => absurd hs hns, hl.alive,
      hl.dead⟩ ?_ (h.threads.update (fun hp => ?_) fun hp => ?_) ?_
    · rcases hcore₁ with hc | ⟨hc, h0⟩
      · exact .outside hc
      · exact .respawn hc h0
    · obtain ⟨v, hv, -, hvc, -⟩ := h.threads.idle
      rw [← hp, ht, Option.some.injEq] at hv
      rw [← hv] at hvc
      simp [hvc] at hwc
    · obtain ⟨v, hv, -, hvc, -⟩ := h.threads.clear
      rw [← hp, ht, Option.some.injEq] at hv
      rw [← hv] at hvc
      simp [hvc] at hwc
    · exact h.waiting.update ht (fun u hp => ⟨hp.ppid, hp.waited, hp.alive, hp.dead⟩)
        (fun d hd => absurd hd (hno d)) (fun d hs => absurd hs hns) fun hw hz => ⟨hw, hz⟩
  rw [Function.update_comm hcp]
  refine hpop.free (t := ct) (by rw [Function.update_of_ne hcp]; exact hct) hcz
    fun q u hu huc => ?_
  rcases update_eq_some.1 hu with ⟨-, rfl⟩ | ⟨hqp, hu⟩
  · exact absurd huc (hno c)
  · by_contra huz
    obtain ⟨ct₀, hct₀, hpend'⟩ := h.waiting.waits q u c hu huc huz
    obtain rfl : ct = ct₀ := by rw [hct] at hct₀; exact Option.some.inj hct₀
    exact hqp (h.pids.inj q p u t hu ht (hpend'.ppid.symm.trans hpend.ppid))

/-- **The protocol is kept** by every change. -/
theorem Proto.trans {x y : Tasks} (h : Proto i x.1 x.2) (htr : Trans i x y) : Proto i y.1 y.2 := by
  cases htr with
  | globals hn hc he hw =>
    refine ⟨?_, ?_, ?_, ?_, ?_, h.waiting⟩
    · rw [hn]; exact h.pids
    · rw [hc]; exact h.threads
    · rw [he]; exact h.each
    · rw [hn]; exact h.core
    · rw [he, hn]; exact h.logged
  | noChild ht hready hout hnone =>
    exact ⟨h.pids, h.threads, h.each, h.core, h.logged, h.waiting⟩
  | change ht hch => exact Proto.change h ht hch
  | wakePlain ht hs hw => exact Proto.wakePlain h ht hs hw
  | sleepPlain ht hready hcore => exact Proto.sleepPlain h ht hready hcore
  | sleepWait ht hready hi hcl hout hct hcz hppid hcp =>
    rename_i g m p c t ct
    have hl := h.each p t ht
    obtain ⟨hns, hnz⟩ := TaskInfo.place_eq_taskHeadp.1 hready
    have hcore : ({ t with state := .sleep, frames := .waitFree c :: t.frames } : TaskInfo).core =
        .waitFree c :: t.core := by
      simp [TaskInfo.core]
    refine Proto.sleepWait h ht hready hi hcl hct hcz hppid hcp ⟨hl.unkilled, hl.user, hl.father,
      fun _ => .inr (.inr ⟨c, by rw [hcore]; exact List.mem_cons_self⟩), fun _ => hl.alive hnz,
      fun hz => by simp at hz⟩ ?_ rfl rfl rfl rfl fun d => ?_
    · rcases hout with ho | ⟨ho, h0⟩
      · exact .waiting c (by rw [hcore, ho])
      · exact .mainWaiting c (by rw [hcore, ho]) h0
    · rw [hcore]
      rcases hout with ho | ⟨ho, h0⟩ <;> simp [ho]
  | exitOrphan ht hready hw hi hcl => exact Proto.exitOrphan h ht hready hw hi hcl
  | exitWaited ht hready hw hi hcl hu hus huw =>
    exact Proto.exitWaited h ht hready hw hi hcl hu hus huw
  | newTask hp hfresh hpid hppid hsig hw ho hready hcore =>
    exact Proto.newTask h hp hfresh hpid hppid hsig hw ho hready hcore
  | free ht hz ho =>
    refine Proto.free h ht hz fun q u hu huc => ?_
    by_contra huz
    obtain ⟨ct, hct, hpend⟩ := h.waiting.waits q u _ hu huc huz
    obtain rfl := Option.some.inj (ht.symm.trans hct)
    by_cases hus : u.state = .sleep
    · exact hpend.alive hus hz
    · rw [(hpend.dead hus).2] at ho
      simp at ho
  | collect ht hready hframes hct =>
    have := Proto.collect h ht hready hframes hct
    exact ⟨this.pids, this.threads, this.each, this.core, this.logged, this.waiting⟩

theorem Proto.transs {x y : Tasks} (h : Proto i x.1 x.2)
    (htr : Relation.ReflTransGen (Trans i) x y) : Proto i y.1 y.2 := by
  induction htr with
  | refl => exact h
  | tail _ hstep ih => exact ih.trans hstep

end PlumOs
