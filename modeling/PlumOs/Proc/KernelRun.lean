import PlumOs.Proc.KernelSteps

/-!
# Runs of the kernel

* `Own`, `PidRoom` : `wait4` names a child of its caller, and the pids do not run out;
* `Good.step` : under these, a step of the machine keeps the invariant and refines the protocol;
  if it stops, it is in a failed assertion, a panic or a null pointer;
* `good_bootKernel` : the invariant holds when `start` enters its loop;
* `Partition` : the tasks are partitioned by their lists, in every state of a run.
-/

namespace PlumOs

namespace Kernel

variable {i p : ℕ} {s s' : Kernel} {L : ListId → List ℕ} {t : TaskInfo}
  {l : ListId}

/-- If `wait4` finds its target, it is a child of the caller. -/
def Own (s : Kernel) : KAct → Prop
  | .wait4 pid => ∀ c ct t, s.info c = some ct → ct.pid = pid → ct.state ≠ .zombie →
      s.info s.current = some t → ct.ppid = t.pid
  | _ => True

/-- The action creates a task. -/
def Creates (s : Kernel) : KAct → Prop
  | .fork _ => True
  | .kernel _ _ => ∃ t fs, s.info s.current = some t ∧ t.frames = .mainRespawn :: fs
  | _ => False

/-- There is a pid for the task that the action creates. -/
def PidRoom (s : Kernel) (a : KAct) : Prop := s.Creates a → s.pidCount + 1 < 2 ^ 31

/-- Execution of the innermost frame. -/
theorem kernelStep_spec (h : Good i s) (ht : s.info s.current = some t) {f : KFrame}
    {fs : List KFrame} (hf : t.frames = f :: fs)
    (hroom : f = .mainRespawn → s.pidCount + 1 < 2 ^ 31) (page : ℕ) (outcome : Bool) :
    Yields (s.kernelStep page outcome f) (Next i s) Honest := by
  by_cases hsch : f = .schedule
  · subst hsch
    exact schedule_spec h.toSound ht hf
  have hready : t.place = .taskHeadp := h.ready ht fun fs' hfs' => by
    rw [hf] at hfs'
    exact hsch (List.cons.inj hfs').1
  have hcons := core_of_frames hf hsch
  have hreturn : ∀ c, f = .waitFree c → Yields (s.waitpidReturn c) (Next i s) Honest := by
    rintro c rfl
    obtain ⟨ct, -, -, hyields⟩ := waitpidReturn_spec h ht hf
    refine hyields.imp (fun s' hs' => hs'.1) fun e he => ?_
    rw [he.1]; exact ⟨by decide, by decide⟩
  -- the frames of a task are one of a few lists
  cases h.proto.core _ t ht with
  | outside hc => rw [hcons] at hc; simp at hc
  | waiting c hc =>
    obtain rfl : f = .waitFree c := by rw [hcons] at hc; exact (List.cons.inj hc).1
    exact hreturn c rfl
  | reading hc =>
    obtain rfl : f = .readStdin := by rw [hcons] at hc; exact (List.cons.inj hc).1
    obtain ⟨s', hs', hnext⟩ := readStdin_ok h.toSound ht hready hf hc page outcome
    rw [hs']; exact yields_ok.2 hnext
  | clearing hc =>
    obtain rfl : f = .threadClear := by rw [hcons] at hc; exact (List.cons.inj hc).1
    exact threadClear_spec h.toSound ht hready hc
  | init hc h0 =>
    obtain rfl : f = .runInit := by rw [hcons] at hc; exact (List.cons.inj hc).1
    exact runInit_spec h.toSound ht hready hf hc h0 page outcome
  | main k hc h0 hk hkid =>
    obtain rfl : f = .mainWait k := by rw [hcons] at hc; exact (List.cons.inj hc).1
    obtain ⟨s', hs', hnext⟩ :=
      mainWait_ok h.toSound ht hready hf hc h0 hk.1 hkid page outcome
    rw [hs']; exact yields_ok.2 hnext
  | respawn hc h0 =>
    obtain rfl : f = .mainRespawn := by rw [hcons] at hc; exact (List.cons.inj hc).1
    exact mainRespawn_spec h.toSound ht hready hf hc h0 (hroom rfl) page outcome
  | mainWaiting c hc h0 =>
    obtain rfl : f = .waitFree c := by rw [hcons] at hc; exact (List.cons.inj hc).1
    exact hreturn c rfl

/-- What a process in user mode does. -/
theorem userStep_spec (h : Good i s) (ht : s.info s.current = some t) (hf : t.frames = [])
    (hmm : t.mm = true) {a : KAct} (hown : s.Own a) (hroom : s.PidRoom a) :
    Yields (s.userStep a) (Next i s) Honest := by
  have hready : t.place = .taskHeadp := h.ready ht fun fs => by simp [hf]
  have hnil : t.core = [] := by simp [TaskInfo.core, hf]
  obtain ⟨hi, hcl⟩ := Proto.ne_threads h.proto ht hmm
  have hexit := exitSt_spec h.toSound ht hready hi hcl
  cases a with
  | fork page => exact (fork_spec h.toSound (hroom trivial) ht hready page).mono fun _ => And.left
  | exit status => exact hexit status
  | kill pid sig =>
    obtain ⟨s', hs', hnext⟩ := killByPid_ok h pid sig
    rw [userStep, hs']; exact yields_ok.2 hnext
  | wait4 pid =>
    obtain ⟨s', hs', hnext⟩ := waitpid_spec h.toSound ht hready hi hcl (.inl hnil)
      fun c ct hct hcp hcz => by
        have hppid := hown c ct t hct hcp hcz ht
        refine ⟨hppid, ?_⟩
        rintro rfl
        obtain rfl := Option.some.inj (ht.symm.trans hct)
        have hl := h.proto.each _ t ht
        have := hl.father (hl.user hmm)
        omega
    rw [userStep, hs']; exact yields_ok.2 hnext
  | read =>
    rw [userStep, pushFrame_ok h.toSound ht]
    have hcore : ({ t with frames := .readStdin :: t.frames } : TaskInfo).core = [.readStdin] := by
      simp [TaskInfo.core, hf]
    exact yields_ok.2 (h.toSound.setFrames ht hready hi hcl (fun c => by rw [hnil]; simp)
      (fun c => by rw [hcore]; simp) (.reading hcore))
  | execve found =>
    rw [userStep]
    split
    · exact yields_ok.2 h.refl
    · exact hexit 1
  | segfault => exact hexit (-1)
  | _ => exact ⟨by decide, by decide⟩

/-- **One step of the machine** keeps the invariant and refines the protocol. -/
theorem Good.step (h : Good i s) {a : KAct} (hown : s.Own a) (hroom : s.PidRoom a) :
    Yields (s.step a) (Next i s) Honest := by
  obtain ⟨t, ht⟩ := h.current
  have hp0 := h.proto.pids.ne_zero ht
  have hdis : Yields (.error .disabled : Except Halt Kernel) (Next i s) Honest :=
    ⟨by decide, by decide⟩
  have hready := fun hf => h.ready ht (hf : ∀ fs, t.frames ≠ .schedule :: fs)
  unfold Kernel.step
  rw [get_of_info hp0 ht, ok_bind]
  split
  · next page outcome f fs hf =>
    refine kernelStep_spec h ht hf (fun hm => hroom ?_) page outcome
    subst hm
    exact ⟨t, fs, ht, hf⟩
  · exact hdis
  · exact hdis
  · obtain ⟨s', hs', hgood, href, -⟩ := h.toSound.pushSchedule
    rw [hs']; exact yields_ok.2 ⟨hgood, href⟩
  · exact hdis
  · next hne =>
    obtain ⟨s', hs', hnext⟩ := newline_ok h ht (hready fun fs hfs => hne fs hfs)
    rw [hs']; exact yields_ok.2 hnext
  · exact hdis
  · obtain ⟨s', hs', hnext⟩ := ctrlC_ok h
    rw [hs']; exact yields_ok.2 hnext
  · next hf =>
    split
    · next hmm => exact userStep_spec h ht hf hmm hown hroom
    · exact hdis
  · exact hdis

/-! ### Boot -/

theorem kernelThread_eq (hp : p ≠ 0) (hfree : s.tasks p = none) (hroom : s.made < pageArraySize)
    (hhead : s.head .taskHeadp ≠ 0) (f : List KFrame) : s.kernelThread p f = .ok (s.pidCount, { s with
      tasks := Function.update s.tasks p
        (some ⟨{ zeroTask with pid := s.pidCount, frames := f }, s.head .taskHeadp⟩)
      head := Function.update s.head .taskHeadp p
      pidCount := wrap32 (s.pidCount + 1)
      made := s.made + 1 }) := by
  have hif : ¬ (p = 0 ∨ (s.tasks p).isSome = true) := by simp [hp, hfree]
  simp only [kernelThread, newTask, if_neg hif, if_neg (Nat.not_le.2 hroom), ok_bind, if_neg hhead]
  simp only [addToTasklist, setNext, get, if_neg hp, Function.update_self, ok_bind,
    Function.update_idem, setHead]
  rfl

theorem findProcessByPid_head {u : Task} (hp : s.head l ≠ 0) (ht : s.tasks (s.head l) = some u) :
    s.findProcessByPid u.pid l = .ok (some (s.head l)) := by
  simp only [findProcessByPid, fuel, findPid, if_neg hp, get, ht, ok_bind, if_true]
  rfl

/-- The tasks that `start` creates, newest first: the threads with their pages. -/
def threadAt (pid : ℤ) (f : List KFrame) : TaskInfo := { zeroTask with pid := pid, frames := f }

/-- The state in which `start` enters its loop. -/
def started (p₀ p₁ p₂ p₃ : ℕ) : Kernel where
  tasks := Function.update (Function.update (Function.update (Function.update (fun _ => none)
      p₀ (some ⟨threadAt 0 [.mainWait 3], 0⟩))
      p₁ (some ⟨threadAt 1 [], p₀⟩))
      p₂ (some ⟨threadAt 2 [.threadClear], p₁⟩))
      p₃ (some ⟨threadAt 3 [.runInit], p₂⟩)
  head := Function.update (fun _ => 0) .taskHeadp p₃
  current := p₀
  clearZombie := p₂
  zombieCount := 0
  pidCount := 4
  made := 4
  bufReady := false
  exitLog := []
  waitLog := []

theorem bootKernel_eq {p₀ p₁ p₂ p₃ : ℕ} (h : [0, p₀, p₁, p₂, p₃].Nodup) :
    bootKernel p₀ p₁ p₂ p₃ = .ok (started p₀ p₁ p₂ p₃) := by
  simp only [List.nodup_cons, List.mem_cons, not_or] at h
  obtain ⟨⟨h00, h01, h02, h03, -⟩, ⟨h1, h2, h3, -⟩, ⟨h4, h5, -⟩, ⟨h6, -⟩, -⟩ := h
  have hroom₁ : 1 < pageArraySize := by decide
  have hroom₂ : 2 < pageArraySize := by decide
  have hroom₃ : 3 < pageArraySize := by decide
  -- the three calls of `kernel_thread`, one after the other
  obtain ⟨s₁, hs₁⟩ : ∃ s₁ : Kernel, s₁ = { initProc p₀ with
    tasks := Function.update (initProc p₀).tasks p₁ (some ⟨threadAt 1 [], p₀⟩)
    head := Function.update (fun _ => 0) .taskHeadp p₁
    pidCount := 2
    made := 2 } := ⟨_, rfl⟩
  have hk₁ : (initProc p₀).kernelThread p₁ [] = .ok (1, s₁) := by
    rw [kernelThread_eq (Ne.symm h01) (by simp [initProc, Ne.symm h1]) hroom₁
      (by simp [initProc, Ne.symm h00]), hs₁]
    simp [initProc, wrap32, threadAt]
  obtain ⟨s₂, hs₂⟩ : ∃ s₂ : Kernel, s₂ = { s₁ with
    tasks := Function.update s₁.tasks p₂ (some ⟨threadAt 2 [.threadClear], p₁⟩)
    head := Function.update (fun _ => 0) .taskHeadp p₂
    pidCount := 3
    made := 3 } := ⟨_, rfl⟩
  have hk₂ : s₁.kernelThread p₂ [.threadClear] = .ok (2, s₂) := by
    rw [kernelThread_eq (Ne.symm h02) (by simp [hs₁, initProc, Ne.symm h2, Ne.symm h4])
      (by rw [hs₁]; exact hroom₂) (by simp [hs₁, Ne.symm h01]), hs₂, hs₁]
    simp [wrap32, threadAt]
  have hfind : s₂.findProcessByPid 2 .taskHeadp = .ok (some p₂) := by
    have hhead : s₂.head .taskHeadp = p₂ := by simp [hs₂]
    have htask : s₂.tasks (s₂.head .taskHeadp) = some ⟨threadAt 2 [.threadClear], p₁⟩ := by
      simp [hs₂]
    have hsearch := findProcessByPid_head (by rw [hhead]; exact Ne.symm h02) htask
    rwa [hhead] at hsearch
  obtain ⟨s₃, hs₃⟩ : ∃ s₃ : Kernel, s₃ = { s₂ with
    tasks := Function.update s₂.tasks p₃ (some ⟨threadAt 3 [.runInit], p₂⟩)
    head := Function.update (fun _ => 0) .taskHeadp p₃
    clearZombie := p₂
    pidCount := 4
    made := 4 } := ⟨_, rfl⟩
  have hk₃ : ({ s₂ with clearZombie := p₂ } : Kernel).kernelThread p₃ [.runInit] = .ok (3, s₃) := by
    rw [kernelThread_eq (Ne.symm h03)
      (by simp [hs₂, hs₁, initProc, Ne.symm h3, Ne.symm h5, Ne.symm h6]) (by rw [hs₂]; exact hroom₃)
      (by simp [hs₂, Ne.symm h02]), hs₃, hs₂]
    simp [wrap32, threadAt]
  have hpush : s₃.pushFrame (.mainWait 3) = .ok (started p₀ p₁ p₂ p₃) := by
    have hcur : s₃.current = p₀ := by rw [hs₃, hs₂, hs₁]; rfl
    have htask : s₃.tasks p₀ = some ⟨threadAt 0 [], 0⟩ := by
      simp [hs₃, hs₂, hs₁, initProc, h1, h2, h3]
      rfl
    have hget : s₃.get p₀ = .ok ⟨threadAt 0 [], 0⟩ := by
      simp [get, htask, Ne.symm h00]
    have htasks : (started p₀ p₁ p₂ p₃).tasks =
        Function.update s₃.tasks p₀ (some ⟨threadAt 0 [.mainWait 3], 0⟩) := by
      simp only [started, hs₃, hs₂, hs₁, initProc]
      rw [Function.update_comm (Ne.symm h3), Function.update_comm (Ne.symm h2),
        Function.update_comm (Ne.symm h1), Function.update_idem]
    have hs : started p₀ p₁ p₂ p₃ = { s₃ with
        tasks := Function.update s₃.tasks p₀ (some ⟨threadAt 0 [.mainWait 3], 0⟩) } := by
      rw [← htasks, hs₃, hs₂, hs₁]
      rfl
    simp only [pushFrame, modify, hcur, hget, ok_bind, hs]
    rfl
  unfold bootKernel
  simp only
  rw [hk₁, ok_bind]
  simp only
  rw [hk₂, ok_bind]
  simp only
  rw [hfind, ok_bind]
  simp only [Option.getD_some]
  rw [hk₃, ok_bind]
  exact hpush

theorem started_info {p₀ p₁ p₂ p₃ : ℕ} (h : [0, p₀, p₁, p₂, p₃].Nodup) {q : ℕ} :
    (started p₀ p₁ p₂ p₃).info q = some t ↔
      q = p₀ ∧ t = threadAt 0 [.mainWait 3] ∨ q = p₁ ∧ t = threadAt 1 [] ∨
      q = p₂ ∧ t = threadAt 2 [.threadClear] ∨ q = p₃ ∧ t = threadAt 3 [.runInit] := by
  simp only [List.nodup_cons, List.mem_cons, not_or] at h
  obtain ⟨-, ⟨h1, h2, h3, -⟩, ⟨h4, h5, -⟩, ⟨h6, -⟩, -⟩ := h
  simp only [info, started, Function.update_apply]
  grind

section Boot

variable {p₀ p₁ p₂ p₃ q : ℕ}

/-- Nobody sleeps, waits or has died when `start` enters its loop. -/
theorem started_plain (h : [0, p₀, p₁, p₂, p₃].Nodup)
    (ht : (started p₀ p₁ p₂ p₃).info q = some t) : t.place = .taskHeadp ∧ t.state = .zero ∧
      t.waited = false ∧ t.orphan = false ∧ t.mm = false ∧ t.sigterm = false ∧ t.ppid = 0 ∧
      ∀ c, .waitFree c ∉ t.core := by
  rcases (started_info h).1 ht with ⟨-, rfl⟩ | ⟨-, rfl⟩ | ⟨-, rfl⟩ | ⟨-, rfl⟩ <;>
    simp [threadAt, zeroTask, TaskInfo.core, TaskInfo.place]

theorem started_mem (h : [0, p₀, p₁, p₂, p₃].Nodup) :
    q ∈ [p₃, p₂, p₁, p₀] ↔ ∃ t, (started p₀ p₁ p₂ p₃).info q = some t := by
  simp only [started_info h, List.mem_cons, List.not_mem_nil, or_false]
  constructor
  · rintro (rfl | rfl | rfl | rfl)
    · exact ⟨_, .inr (.inr (.inr ⟨rfl, rfl⟩))⟩
    · exact ⟨_, .inr (.inr (.inl ⟨rfl, rfl⟩))⟩
    · exact ⟨_, .inr (.inl ⟨rfl, rfl⟩)⟩
    · exact ⟨_, .inl ⟨rfl, rfl⟩⟩
  · rintro ⟨t, ⟨rfl, -⟩ | ⟨rfl, -⟩ | ⟨rfl, -⟩ | ⟨rfl, -⟩⟩ <;> simp

theorem started_listed (h : [0, p₀, p₁, p₂, p₃].Nodup) : (started p₀ p₁ p₂ p₃).Listed := by
  have hlinked : ∀ l, Linked 0 (started p₀ p₁ p₂ p₃).nextOf ((started p₀ p₁ p₂ p₃).head l)
      (if l = .taskHeadp then [p₃, p₂, p₁, p₀] else []) := by
    simp only [List.nodup_cons, List.mem_cons, not_or] at h
    obtain ⟨⟨h00, h01, h02, h03, -⟩, ⟨h1, h2, h3, -⟩, ⟨h4, h5, -⟩, ⟨h6, -⟩, -⟩ := h
    intro l
    cases l <;> simp [started, Linked, nextOf, h1, h2, h3, h4, h5, h6, Ne.symm h00, Ne.symm h01,
      Ne.symm h02, Ne.symm h03]
  have hone : ∀ l q, q ∈ (if l = ListId.taskHeadp then [p₃, p₂, p₁, p₀] else []) ↔
      l = .taskHeadp ∧ ∃ t, (started p₀ p₁ p₂ p₃).info q = some t := by
    intro l q
    rw [← started_mem h]
    split <;> simp_all
  refine ⟨fun l => if l = .taskHeadp then [p₃, p₂, p₁, p₀] else [],
    ⟨hlinked, fun l q hq => ((hone l q).1 hq).2,
      fun l l' q hq hq' => ((hone l q).1 hq).1.trans ((hone l' q).1 hq').1.symm, le_rfl⟩,
    fun l q => ?_⟩
  rw [hone l q]
  constructor
  · rintro ⟨rfl, t, ht⟩
    exact ⟨t, ht, (started_plain h ht).1⟩
  · rintro ⟨t, ht, rfl⟩
    exact ⟨(started_plain h ht).1, t, ht⟩

theorem started_pids (h : [0, p₀, p₁, p₂, p₃].Nodup) : Pids 4 (started p₀ p₁ p₂ p₃).info := by
  refine ⟨?_, fun q r t u ht hu htu => ?_, fun q t ht => ?_⟩
  · rw [Option.eq_none_iff_forall_ne_some]
    intro t ht
    have hmem := (started_mem h).2 ⟨t, ht⟩
    simp only [List.nodup_cons, List.mem_cons] at h
    simp only [List.mem_cons] at hmem
    grind
  · rcases (started_info h).1 ht with ⟨hq, rfl⟩ | ⟨hq, rfl⟩ | ⟨hq, rfl⟩ | ⟨hq, rfl⟩ <;>
      rcases (started_info h).1 hu with ⟨hr, rfl⟩ | ⟨hr, rfl⟩ | ⟨hr, rfl⟩ | ⟨hr, rfl⟩ <;>
        first
        | exact hq.trans hr.symm
        | exact absurd htu (by decide)
  · rcases (started_info h).1 ht with ⟨-, rfl⟩ | ⟨-, rfl⟩ | ⟨-, rfl⟩ | ⟨-, rfl⟩ <;> decide

/-- **The invariant holds at boot**, with the idle thread at `p₁`. -/
theorem good_started (h : [0, p₀, p₁, p₂, p₃].Nodup) : Good p₁ (started p₀ p₁ p₂ p₃) := by
  have hidle : (started p₀ p₁ p₂ p₃).info p₁ = some (threadAt 1 []) :=
    (started_info h).2 (.inr (.inl ⟨rfl, rfl⟩))
  have hclear : (started p₀ p₁ p₂ p₃).info p₂ = some (threadAt 2 [.threadClear]) :=
    (started_info h).2 (.inr (.inr (.inl ⟨rfl, rfl⟩)))
  have hproto : Proto p₁ (started p₀ p₁ p₂ p₃).toGlobals (started p₀ p₁ p₂ p₃).info := by
    refine ⟨started_pids h, ⟨⟨_, hidle, rfl, rfl, rfl⟩, ⟨_, hclear, rfl, rfl, by decide⟩⟩,
      fun q t ht => ?_, fun q t ht => ?_, fun k r hk => by simp [started] at hk,
      fun q t c ht hc => ?_, fun q t ht hw => ?_⟩
    · obtain ⟨-, hs, -, ho, hmm, hsig, hpp, -⟩ := started_plain h ht
      refine ⟨fun _ => hsig, by simp [hmm], fun h0 => ?_, by simp [hs],
        fun _ => ⟨ho, by simp [started]⟩, by simp [hs]⟩
      have := (started_pids h).range q t ht
      omega
    · rcases (started_info h).1 ht with ⟨-, rfl⟩ | ⟨-, rfl⟩ | ⟨-, rfl⟩ | ⟨-, rfl⟩
      · exact .main 3 rfl rfl ⟨by decide, show (3 : ℤ) < 4 by decide⟩
          fun r u hu _ => (started_plain h hu).2.2.2.2.2.2.1
      · exact .outside rfl
      · exact .clearing rfl
      · exact .init rfl (by decide)
    · exact absurd hc ((started_plain h ht).2.2.2.2.2.2.2 c)
    · rw [(started_plain h ht).2.2.1] at hw
      simp at hw
  exact ⟨⟨started_listed h, hproto, _, (started_info h).2 (.inl ⟨rfl, rfl⟩)⟩,
    fun t ht hpl => absurd (started_plain h ht).1 hpl⟩

end Boot

/-! ### The partition of the tasks -/

/-- The four lists, read from the heads along the `next` fields, hold every task exactly once, on
the list that its state says. -/
structure Partition (s : Kernel) (L : ListId → List ℕ) : Prop where
  /-- The list ends: it has no cycle. -/
  linked : ∀ l, Linked 0 s.nextOf (s.head l) (L l)
  nodup : ∀ l, (L l).Nodup
  allocated : ∀ l, ∀ p ∈ L l, ∃ t, s.tasks p = some t
  exactlyOne : ∀ p t, s.tasks p = some t → ∃! l, p ∈ L l
  pids : ∀ p q t u, s.tasks p = some t → s.tasks q = some u → t.pid = u.pid → p = q
  asleep : ∀ p t, s.tasks p = some t →
    (t.state = .sleep ↔ p ∈ L .sleepTaskList ∨ p ∈ L .waitStdinList)
  dead : ∀ p t, s.tasks p = some t → (t.state = .zombie ↔ p ∈ L .zombieList)
  ready : L .taskHeadp ≠ []

theorem Sound.partition (h : Sound i s) : ∃ L, s.Partition L := by
  obtain ⟨L, hL, hpl⟩ := h.listed
  have hmem : ∀ p u l, s.tasks p = some u → (p ∈ L l ↔ u.place = l) := by
    intro p u l hu
    rw [hpl l p, info_of_tasks hu]
    constructor
    · rintro ⟨v, hv, hvl⟩
      rw [Option.some.inj hv]
      exact hvl
    · exact fun hul => ⟨_, rfl, hul⟩
  refine ⟨L, hL.linked, fun l => (hL.linked l).nodup, fun l p hp => ?_, fun p u hu => ?_,
    fun p q u v hu hv => ?_, fun p u hu => ?_, fun p u hu => ?_, ?_⟩
  · obtain ⟨t, ht⟩ := hL.alloc l p hp
    obtain ⟨n, hn⟩ := info_eq_some.1 ht
    exact ⟨_, hn⟩
  · refine ⟨u.place, (hmem p u _ hu).2 rfl, fun l hl => ?_⟩
    exact ((hmem p u l hu).1 hl).symm
  · exact h.proto.pids.inj p q _ _ (info_of_tasks hu) (info_of_tasks hv)
  · rw [hmem p u _ hu, hmem p u _ hu, TaskInfo.place_eq_sleep, TaskInfo.place_eq_waitStdin]
    tauto
  · rw [hmem p u _ hu, TaskInfo.place_eq_zombie]
  · obtain ⟨v, hv, -, -, hvp⟩ := h.proto.threads.idle
    exact List.ne_nil_of_mem ((hpl _ _).2 ⟨v, hv, hvp⟩)

/-- The conditions on a step. -/
def Fair (s : Kernel) (a : KAct) : Prop := s.Own a ∧ s.PidRoom a

theorem good_of_run {p₀ p₁ p₂ p₃ : ℕ} (h : [0, p₀, p₁, p₂, p₃].Nodup) {s₀ : Kernel}
    (hboot : bootKernel p₀ p₁ p₂ p₃ = .ok s₀) {as : List KAct} (hal : Along Kernel.step Fair s₀ as) :
    Yields (run Kernel.step s₀ as) (Good p₁) Honest := by
  obtain rfl := Except.ok.inj ((bootKernel_eq h).symm.trans hboot)
  refine run_yields (good_started h) (fun s a hgood hfair => ?_) hal
  exact (hgood.step hfair.1 hfair.2).mono fun s' hs' => hs'.1

/-- **The tasks are partitioned by the four lists** in every state of every run from boot.  A run
that stops does so in a failed assertion, a panic or at a null pointer, never on a list that does
not end or at a task that was freed. -/
theorem partition_of_run {p₀ p₁ p₂ p₃ : ℕ} (h : [0, p₀, p₁, p₂, p₃].Nodup) {s₀ : Kernel}
    (hboot : bootKernel p₀ p₁ p₂ p₃ = .ok s₀) {as : List KAct}
    (hal : Along Kernel.step (fun s a => s.Own a ∧ s.PidRoom a) s₀ as) :
    Yields (run Kernel.step s₀ as) (fun s => ∃ L, s.Partition L)
      (fun e => e ≠ .dangling ∧ e ≠ .runaway) :=
  (good_of_run h hboot hal).mono fun _ hs => hs.toSound.partition

/-! ### Testing the conditions -/

/-- The conditions on a step as a test: the task that `wait4` finds is a child of the caller. -/
def fairB (s : Kernel) (a : KAct) : Bool :=
  decide (s.pidCount + 1 < 2 ^ 31) &&
    match a with
    | .wait4 pid =>
      match s.findAlive pid with
      | .ok (some c) => (s.info c).map TaskInfo.ppid == (s.info s.current).map TaskInfo.pid
      | _ => true
    | _ => true

theorem fair_of_fairB (h : Good i s) {a : KAct} (hb : s.fairB a = true) : s.Fair a := by
  unfold fairB at hb
  rw [Bool.and_eq_true] at hb
  obtain ⟨hroom, hown⟩ := hb
  refine ⟨?_, fun _ => of_decide_eq_true hroom⟩
  cases a with
  | wait4 pid =>
    intro c ct t hct hcp hcz ht
    rcases findAlive_spec h.toSound pid with ⟨-, hall⟩ | ⟨d, dt, hsome, hdt, hdp, -⟩
    · exact absurd (hall c ct hct hcp) hcz
    · obtain rfl := h.proto.pids.inj c d ct dt hct hdt (hcp.trans hdp.symm)
      simp only [hsome, hct, ht, Option.map_some, beq_iff_eq, Option.some.injEq] at hown
      exact hown
  | _ => trivial

theorem along_fair (h : Good i s) {as : List KAct} (ht : alongB Kernel.step fairB s as = true) :
    Along Kernel.step Fair s as :=
  along_of_alongB h (fun _ _ hgood => fair_of_fairB hgood)
    (fun _ _ _ hgood hfair hs => ((hgood.step hfair.1 hfair.2).of_eq_ok hs).1) ht

/-- The init process forks a child and waits for it; the child exits, and its father is about to
collect it. -/
def forkWaitActs : List KAct :=
  [.kernel 0 true, .kernel 0 true, .kernel 0 true, .kernel 0 true, .timer, .kernel 0 true,
    .kernel 0 true, .fork 14, .wait4 4, .kernel 0 true, .timer, .kernel 0 true, .exit 7,
    .kernel 0 true, .timer, .kernel 0 true]

theorem along_forkWaitActs :
    Along Kernel.step Fair (started 10 11 12 13) forkWaitActs :=
  along_fair (good_started (by decide)) (by decide +kernel)

theorem partition_of_run_forkWait : ∃ s₀ s, bootKernel 10 11 12 13 = .ok s₀ ∧
    run Kernel.step s₀ forkWaitActs = .ok s ∧ ∃ L, s.Partition L := by
  have hpages : [0, 10, 11, 12, 13].Nodup := by decide
  have hreach : reaches (run Kernel.step (started 10 11 12 13) forkWaitActs)
      (fun s => s.current == 13) = true := by
    decide +kernel
  obtain ⟨s, hs, -⟩ := exists_of_reaches hreach
  exact ⟨_, s, bootKernel_eq hpages, hs,
    (partition_of_run hpages (bootKernel_eq hpages) along_forkWaitActs).of_eq_ok hs⟩

end Kernel

end PlumOs
