import PlumOs.Proc.TaskSteps

/-!
# Steps of the kernel refine the protocol

One lemma for each function that a frame or a system call executes.

* `Own`, `PidRoom` : `wait4` names a child of its caller, and the pids do not run out;
* `Good.step` : under these, a step of the machine keeps the invariant and refines the protocol;
  if it stops, it is in a failed assertion, a panic or a null pointer.
-/

namespace PlumOs

namespace Kernel

variable {i p : ℕ} {s s' : Kernel} {L : ListId → List ℕ} {m m' : ℕ → Option TaskInfo}
  {t t' : TaskInfo} {l l' : ListId}

/-- What a step has to establish. -/
def Next (i : ℕ) (s s' : Kernel) : Prop := Good i s' ∧ Refines i s s'

/-- A running task outside of `schedule` is ready. -/
theorem Good.ready (h : Good i s) (ht : s.info s.current = some t)
    (hf : ∀ fs, t.frames ≠ .schedule :: fs) : t.place = .taskHeadp := by
  by_contra hne
  obtain ⟨fs, hfs⟩ := h.running t ht hne
  exact hf fs hfs

/-- The frames of a task that is ready do not matter for where it belongs. -/
theorem place_frames (h : t.place = .taskHeadp) (fs : List KFrame) :
    ({ t with frames := fs } : TaskInfo).place = .taskHeadp := by
  obtain ⟨hns, hnz⟩ := TaskInfo.place_eq_taskHeadp.1 h
  exact TaskInfo.place_eq_taskHeadp.2 ⟨hns, hnz⟩

theorem Refines.refl (h : s.Listed) : Refines i s s := ⟨h, .refl⟩

/-- A change of the globals that matter to nobody else. -/
theorem Sound.globals (h : Sound i s) {g : Globals} (hn : g.pidCount = s.pidCount)
    (hc : g.clearZombie = s.clearZombie) (he : g.exitLog = s.exitLog) (hw : g.waitLog = s.waitLog)
    (hmade : s.made ≤ g.made) :
    Refines i s { toGlobals := g, tasks := s.tasks, head := s.head } := by
  obtain ⟨L, hL, hpl⟩ := h.listed
  exact ⟨⟨L, hL.globals hmade, hpl⟩, .single (.globals hn hc he hw)⟩

/-! ### `schedule` -/

/-- `select_task_struct` finds a task that is ready: at least the idle thread is. -/
theorem selectTaskStruct_ok (h : Sound i s) : ∃ n u, s.selectTaskStruct = .ok n ∧
    s.info n = some u ∧ u.place = .taskHeadp := by
  obtain ⟨L, hL, hpl⟩ := h.listed
  obtain ⟨t, ht⟩ := h.current
  have hp0 := h.proto.pids.ne_zero ht
  obtain ⟨v, hv, -, -, hvp⟩ := h.proto.threads.idle
  have hidle : i ∈ L .taskHeadp := (hpl _ _).2 ⟨v, hv, hvp⟩
  have hhead : s.head .taskHeadp ∈ L .taskHeadp := by
    have hl := hL.linked .taskHeadp
    cases hLa : L .taskHeadp with
    | nil => rw [hLa] at hidle; simp at hidle
    | cons x xs =>
      rw [hLa] at hl
      rw [hl.1]
      exact List.mem_cons_self
  -- the search decides where to start; the task behind it, or the head, is selected
  obtain ⟨r, q, hfind, hq, hqL⟩ : ∃ r q, s.findProcessByPid t.pid .taskHeadp = .ok r ∧
      (if r.isSome then s.current else s.head .taskHeadp) = q ∧ q ∈ L .taskHeadp := by
    rcases findProcessByPid_spec hL .taskHeadp t.pid with
      ⟨hnone, -⟩ | ⟨y, hy, u, hu, hup, hsome⟩
    · exact ⟨none, s.head .taskHeadp, hnone, rfl, hhead⟩
    · refine ⟨some y, s.current, hsome, rfl, ?_⟩
      rw [← h.proto.pids.inj y s.current u t hu ht hup]
      exact hy
  obtain ⟨u, hu⟩ := hL.alloc _ q hqL
  have hq0 := h.proto.pids.ne_zero hu
  obtain ⟨n, hn, hnL⟩ : ∃ n, s.selectTaskStruct = .ok n ∧ n ∈ L .taskHeadp := by
    unfold selectTaskStruct
    rw [get_of_info hp0 ht, ok_bind, hfind, ok_bind]
    simp only
    rw [hq, get_of_info hq0 hu, ok_bind]
    split
    · next hnext => exact ⟨_, rfl, (hL.linked _).next_mem hqL hnext⟩
    · exact ⟨_, rfl, hhead⟩
  obtain ⟨w, hw, hwp⟩ := (hpl _ _).1 hnL
  exact ⟨n, w, hn, hw, hwp⟩

/-- A task that is killed is neither the idle thread nor the cleaner. -/
theorem Proto.ne_threads {g : Globals} (h : Proto i g m) (ht : m p = some t)
    (hmm : t.mm = true) : p ≠ i ∧ p ≠ g.clearZombie := by
  constructor
  · rintro rfl
    obtain ⟨u, hu, hum, -⟩ := h.threads.idle
    obtain rfl := Option.some.inj (ht.symm.trans hu)
    rw [hmm] at hum
    simp at hum
  · rintro rfl
    obtain ⟨u, hu, hum, -⟩ := h.threads.clear
    obtain rfl := Option.some.inj (ht.symm.trans hu)
    rw [hmm] at hum
    simp at hum

/-- **`schedule`**: a selected task that was killed exits, another one takes over. -/
theorem schedule_spec (h : Sound i s) {fs : List KFrame} (ht : s.info s.current = some t)
    (hf : t.frames = .schedule :: fs) : Yields s.schedule (Next i s) Honest := by
  obtain ⟨n, u, hsel, hu, hup⟩ := selectTaskStruct_ok h
  have hp0 := h.proto.pids.ne_zero ht
  have hn0 := h.proto.pids.ne_zero hu
  unfold schedule
  rw [hsel, ok_bind, get_of_info hn0 hu, ok_bind]
  split
  · next hsig =>
    have hmm : u.mm = true := by
      by_contra hmm
      have hsig' : u.sigterm = true := hsig
      rw [(h.proto.each n u hu).unkilled (by simpa using hmm)] at hsig'
      simp at hsig'
    obtain ⟨hi, hcl⟩ := Proto.ne_threads h.proto hu hmm
    exact exitSt_spec h hu hup hi hcl 1
  · have hfs : ({ t with frames := fs } : TaskInfo).core = t.core := by
      simp [TaskInfo.core, hf]
    obtain ⟨hS, hR⟩ := h.assign ht (h.proto.reframe ht hfs)
    have hpop : s.popFrame = .ok (s.assign s.current { t with frames := fs }) := by
      unfold popFrame
      rw [modify_ok hp0 ht, hf]
      rfl
    rw [hpop, ok_bind]
    split
    · next hcur =>
      have hcur' : n = s.current := hcur
      subst hcur'
      refine yields_pure.2 ⟨⟨hS, fun v hv hvp => ?_⟩, hR⟩
      have hv' : (s.assign s.current { t with frames := fs }).info s.current = some v := hv
      rw [assign_info, Function.update_self, Option.some.injEq] at hv'
      obtain rfl := Option.some.inj (ht.symm.trans hu)
      have hpl : v.place = t.place := by rw [← hv']; exact (h.proto.reframe ht hfs).place
      exact absurd (hpl.trans hup) hvp
    · next hcur =>
      have hcur' : n ≠ s.current := hcur
      have hn' : (s.assign s.current { t with frames := fs }).info n = some u := by
        rw [assign_info, Function.update_of_ne hcur']; exact hu
      have hR' := hR.comp (hS.globals (g := { (s.assign s.current { t with frames := fs }).toGlobals
        with current := n }) rfl rfl rfl rfl le_rfl)
      refine yields_pure.2 ⟨⟨⟨hR'.listed, h.proto_of_refines hR', u, hn'⟩, fun v hv hvp => ?_⟩, hR'⟩
      obtain rfl := Option.some.inj (hn'.symm.trans hv)
      exact absurd hup hvp

/-! ### `waitpid` -/

/-- The lookups of `waitpid` and `kill_by_pid` find the task unless it is a zombie. -/
theorem findAlive_spec (h : Sound i s) (pid : ℤ) :
    (s.findAlive pid = .ok none ∧
      ∀ q u, s.info q = some u → u.pid = pid → u.state = .zombie) ∨
    ∃ c u, s.findAlive pid = .ok (some c) ∧ s.info c = some u ∧ u.pid = pid ∧
      u.state ≠ .zombie := by
  obtain ⟨L, hL, hpl⟩ := h.listed
  have hsearch := fun l => findProcessByPid_spec hL l pid
  have hfound : ∀ l c, l ≠ .zombieList → c ∈ L l → ∀ u, s.info c = some u → u.state ≠ .zombie := by
    intro l c hl hc u hu hz
    obtain ⟨v, hv, hvl⟩ := (hpl l c).1 hc
    obtain rfl := Option.some.inj (hu.symm.trans hv)
    exact hl (hvl.symm.trans (TaskInfo.place_eq_zombie.2 hz))
  unfold findAlive
  rcases hsearch .taskHeadp with ⟨h₁, hno₁⟩ | ⟨c, hc, u, hu, hup, h₁⟩
  · rcases hsearch .sleepTaskList with ⟨h₂, hno₂⟩ | ⟨c, hc, u, hu, hup, h₂⟩
    · rw [h₁, ok_bind]
      simp only
      rw [h₂, ok_bind]
      rcases hsearch .waitStdinList with ⟨h₃, hno₃⟩ | ⟨c, hc, u, hu, hup, h₃⟩
      · refine .inl ⟨h₃, fun q u hu hup => ?_⟩
        by_contra hz
        have hmem := (hpl u.place q).2 ⟨u, hu, rfl⟩
        cases hplace : u.place with
        | taskHeadp => rw [hplace] at hmem; exact hno₁ q hmem u hu hup
        | sleepTaskList => rw [hplace] at hmem; exact hno₂ q hmem u hu hup
        | waitStdinList => rw [hplace] at hmem; exact hno₃ q hmem u hu hup
        | zombieList => exact hz (TaskInfo.place_eq_zombie.1 hplace)
      · exact .inr ⟨c, u, h₃, hu, hup, hfound _ c (by decide) hc u hu⟩
    · rw [h₁, ok_bind]
      simp only
      rw [h₂, ok_bind]
      exact .inr ⟨c, u, rfl, hu, hup, hfound _ c (by decide) hc u hu⟩
  · rw [h₁, ok_bind]
    exact .inr ⟨c, u, rfl, hu, hup, hfound _ c (by decide) hc u hu⟩

/-- `sleep` of a task that waits for its child `c`. -/
theorem sleepWait_ok (h : Sound i s) (ht : s.info s.current = some t)
    (hready : t.place = .taskHeadp) (hi : s.current ≠ i) (hcl : s.current ≠ s.clearZombie)
    (hout : t.core = [] ∨ t.core = [.mainRespawn] ∧ t.pid = 0) {c : ℕ} {ct : TaskInfo}
    (hct : s.info c = some ct) (hcz : ct.state ≠ .zombie) (hppid : ct.ppid = t.pid)
    (hcp : c ≠ s.current) :
    ∃ s', ((s.modify c fun c => { c with waited := true }) >>= fun s =>
      s.pushFrame (.waitFree c) >>= fun s => s.sleep .sleepTaskList) = .ok s' ∧ Next i s s' ∧
      s'.waitLog = s.waitLog ∧ s'.info c = some { ct with waited := true } ∧
      s'.info s.current = some { t with
        state := .sleep, frames := .schedule :: .waitFree c :: t.frames } := by
  have hp0 := h.proto.pids.ne_zero ht
  have hc0 := h.proto.pids.ne_zero hct
  obtain ⟨s₁, hs₁⟩ : ∃ s₁, s₁ = s.assign c { ct with waited := true } := ⟨_, rfl⟩
  have hcur₁ : s₁.current = s.current := by rw [hs₁]; rfl
  have ht₁ : s₁.info s₁.current = some t := by
    rw [hcur₁, hs₁, assign_info, Function.update_of_ne hcp.symm]; exact ht
  have hlisted₁ : s₁.Listed := by rw [hs₁]; exact h.listed.assign hct rfl
  set t₂ : TaskInfo := { t with frames := .waitFree c :: t.frames } with ht₂
  have hplace₂ : t₂.place = .taskHeadp := place_frames hready _
  obtain ⟨s₂, hs₂⟩ : ∃ s₂, s₂ = s₁.assign s₁.current t₂ := ⟨_, rfl⟩
  have hcur₂ : s₂.current = s.current := by rw [hs₂]; exact hcur₁
  have hinfo₂ : s₂.info = Function.update (Function.update s.info c
      (some { ct with waited := true })) s.current (some t₂) := by
    rw [hs₂, assign_info, hcur₁, hs₁, assign_info]
  have hlisted₂ : s₂.Listed := by
    rw [hs₂]; exact hlisted₁.assign ht₁ (hplace₂.trans hready.symm)
  have hg₂ : s₂.toGlobals = s.toGlobals := by rw [hs₂, hs₁]; rfl
  have ht₂' : s₂.info s₂.current = some t₂ := by rw [hinfo₂, hcur₂, Function.update_self]
  have hpids₂ : Pids s₂.pidCount s₂.info := by
    rw [hinfo₂, show s₂.pidCount = s.pidCount from congrArg Globals.pidCount hg₂]
    refine Pids.update (t := t) (h.proto.pids.update hct ?_) ?_ ?_
    · rfl
    · rw [Function.update_of_ne hcp.symm]; exact ht
    · rfl
  have hasleep : ({ t₂ with state := .sleep } : TaskInfo).place = .sleepTaskList := by
    refine TaskInfo.place_eq_sleep.2 ⟨rfl, ?_⟩
    simp [TaskInfo.core, ht₂]
  obtain ⟨s₃, hsleep, hg₃, hm₃, hlisted₃⟩ := sleep_ok hlisted₂ hpids₂ ht₂' hplace₂ hasleep
  have hcur₃ : s₃.current = s.current := by
    rw [show s₃.current = s₂.current from congrArg Globals.current hg₃, hcur₂]
  have htr := Trans.sleepWait (g := s.toGlobals) ht hready hi hcl hout hct hcz hppid hcp
  have hself := Function.update_self s.current
    (some { t with state := .sleep, frames := .waitFree c :: t.frames })
    (Function.update s.info c (some { ct with waited := true }))
  have hch := (h.proto.trans (x := s.abs) htr).pushSchedule hself
  have href : Refines i s s₃ := by
    refine ⟨hlisted₃, .tail (.single htr) ?_⟩
    have habs : s₃.abs = (s.toGlobals, Function.update (Function.update (Function.update s.info c
        (some { ct with waited := true })) s.current
        (some { t with state := .sleep, frames := .waitFree c :: t.frames })) s.current
        (some { t with state := .sleep, frames := .schedule :: .waitFree c :: t.frames })) := by
      show (s₃.toGlobals, s₃.info) = _
      rw [hg₃, hg₂, hm₃, hcur₂, hinfo₂, Function.update_idem, Function.update_idem]
    rw [habs]
    exact .change hself hch
  have hinfo₃ : s₃.info s.current =
      some { t with state := .sleep, frames := .schedule :: .waitFree c :: t.frames } := by
    rw [hm₃, hcur₂, Function.update_self]
  refine ⟨s₃, ?_, ⟨⟨h.of_refines href ⟨_, by rw [hcur₃]; exact hinfo₃⟩, fun u hu _ => ?_⟩, href⟩,
    congrArg Globals.waitLog (hg₃.trans hg₂), ?_, hinfo₃⟩
  · rw [modify_ok hc0 hct, ok_bind, ← hs₁]
    unfold pushFrame
    rw [modify_ok (by rw [hcur₁]; exact hp0) ht₁, ok_bind, ← ht₂, ← hs₂]
    exact hsleep
  · rw [hcur₃, hinfo₃, Option.some.injEq] at hu
    exact ⟨_, by rw [← hu]⟩
  · rw [hm₃, hcur₂, Function.update_of_ne hcp, hinfo₂, Function.update_of_ne hcp,
      Function.update_self]

/-- **`waitpid`** of a task that waits for a child of its own, if for anybody. -/
theorem waitpid_spec (h : Sound i s) (ht : s.info s.current = some t)
    (hready : t.place = .taskHeadp) (hi : s.current ≠ i) (hcl : s.current ≠ s.clearZombie)
    (hout : t.core = [] ∨ t.core = [.mainRespawn] ∧ t.pid = 0) {pid : ℤ}
    (hown : ∀ c ct, s.info c = some ct → ct.pid = pid → ct.state ≠ .zombie →
      ct.ppid = t.pid ∧ c ≠ s.current) :
    ∃ s', s.waitpid pid = .ok s' ∧ Next i s s' := by
  have hp0 := h.proto.pids.ne_zero ht
  unfold waitpid
  rw [get_of_info hp0 ht, ok_bind]
  rcases findAlive_spec h pid with ⟨hnone, hall⟩ | ⟨c, ct, hsome, hct, hcp, hcz⟩
  · rw [hnone, ok_bind]
    have hno : ∀ c, .waitFree c ∉ t.core := by
      intro c
      rcases hout with ho | ⟨ho, -⟩ <;> simp [ho]
    obtain ⟨L, hL, hpl⟩ := h.listed
    obtain ⟨s', hs'⟩ : ∃ s' : Kernel, s' = { s with waitLog := (t.pid, pid, -1) :: s.waitLog } :=
      ⟨_, rfl⟩
    have hlisted : s'.Listed := by rw [hs']; exact ⟨L, hL.globals le_rfl, hpl⟩
    have href : Refines i s s' := ⟨hlisted, .single (by rw [hs']; exact .noChild ht hready hno hall)⟩
    have ht' : s'.info s'.current = some t := by rw [hs']; exact ht
    refine ⟨s', by rw [hs']; rfl, ⟨h.of_refines href ⟨t, ht'⟩, fun u hu hpu => ?_⟩, href⟩
    obtain rfl := Option.some.inj (ht'.symm.trans hu)
    exact absurd hready hpu
  · rw [hsome, ok_bind]
    obtain ⟨hppid, hne⟩ := hown c ct hct hcp hcz
    obtain ⟨s', hs', hnext, -⟩ := sleepWait_ok h ht hready hi hcl hout hct hcz hppid hne
    exact ⟨s', hs', hnext⟩

/-! ### Freeing -/

/-- **`free_process`** of a zombie: it leaves `zombie_list`, unless it never had an address
space. -/
theorem freeProcess_spec (hL : s.Lists L) (hpl : Placed s.info L) (hp : Pids s.pidCount s.info)
    (ht : s.info p = some t) (hz : t.state = .zombie) : Yields (s.freeProcess p) (fun s' =>
      s'.toGlobals = s.toGlobals ∧ s'.info = Function.update s.info p none ∧
      s'.Lists (Function.update L .zombieList ((L .zombieList).erase p)) ∧
      Placed s'.info (Function.update L .zombieList ((L .zombieList).erase p)))
      (fun e => e = .assertFail ∧ t.mm = false) := by
  have hp0 := hp.ne_zero ht
  have hmem : p ∈ L .zombieList := (hpl _ _).2 ⟨t, ht, TaskInfo.place_eq_zombie.2 hz⟩
  obtain ⟨s₁, hrem, hsame, hL₁⟩ := removeFromTasklist_ok hL hmem
  set L' := Function.update L .zombieList ((L .zombieList).erase p) with hL'
  have hsub : ∀ l q, q ∈ L' l ↔ q ≠ p ∧ q ∈ L l := by
    intro l q
    rw [hL', Function.update_apply]
    split
    · next hl => rw [hl, (hL.linked _).nodup.mem_erase_iff]
    · next hne =>
      refine ⟨fun hq => ⟨?_, hq⟩, And.right⟩
      rintro rfl
      exact hne (hL.disjoint _ _ q hq hmem)
  obtain ⟨s₂, hs₂⟩ : ∃ s₂ : Kernel, s₂ = { s₁ with tasks := Function.update s₁.tasks p none } :=
    ⟨_, rfl⟩
  have hinfo₂ : s₂.info = Function.update s.info p none := by
    rw [← hsame.2, hs₂]
    funext q
    simp only [info, Function.update_apply]
    split <;> rfl
  have hlists : s₂.Lists L' := by
    refine hL₁.elsewhere (p := p) (fun l hl => ((hsub l p).1 hl).1 rfl) (by rw [hs₂])
      (by rw [hs₂]) fun q hq => ?_
    rw [hs₂]
    exact Function.update_of_ne hq _ _
  have hplaced : Placed s₂.info L' := by
    intro l q
    rw [hsub, hinfo₂, hpl l q]
    by_cases hq : q = p
    · subst hq; simp
    · rw [Function.update_of_ne hq]; simp [hq]
  unfold freeProcess
  rw [if_neg hp0]
  simp only [get_of_info hp0 ht, ok_bind, hz, ne_eq, not_true_eq_false, if_false, hrem]
  split
  · next hmm => exact ⟨rfl, hmm⟩
  · exact yields_pure.2 (hs₂ ▸ ⟨by rw [hs₂]; exact hsame.1, hinfo₂, hlists, hplaced⟩)

/-- What the innermost frame says about the rest. -/
theorem core_of_frames {f : KFrame} {fs : List KFrame} (hf : t.frames = f :: fs)
    (hne : f ≠ .schedule) : t.core = f :: ({ t with frames := fs } : TaskInfo).core := by
  have hcons : ({ t with frames := f :: fs } : TaskInfo).core =
      f :: ({ t with frames := fs } : TaskInfo).core := TaskInfo.core_cons hne
  rwa [← hf] at hcons

/-- **`waitpid` behind its sleep**: the child is a zombie that nobody else frees. -/
theorem waitpidReturn_spec (h : Good i s) (ht : s.info s.current = some t) {c : ℕ}
    {fs : List KFrame} (hf : t.frames = .waitFree c :: fs) :
    ∃ ct, s.info c = some ct ∧ ct.state = .zombie ∧ Yields (s.waitpidReturn c)
      (fun s' => Next i s s' ∧ s'.info c = none) (fun e => e = .assertFail ∧ ct.mm = false) := by
  have hready : t.place = .taskHeadp := h.ready ht fun fs' => by simp [hf]
  obtain ⟨hns, hnz⟩ := TaskInfo.place_eq_taskHeadp.1 hready
  have hcore := core_of_frames hf (by simp)
  obtain ⟨ct, hct, hpend⟩ := h.proto.waiting.waits _ t c ht
    (by rw [hcore]; exact List.mem_cons_self) hnz
  have hcz := (hpend.dead hns).1
  have hcp : c ≠ s.current := by
    rintro rfl
    obtain rfl := Option.some.inj (ht.symm.trans hct)
    exact hnz hcz
  have hp0 := h.proto.pids.ne_zero ht
  have hc0 := h.proto.pids.ne_zero hct
  obtain ⟨L, hL, hpl⟩ := h.listed
  refine ⟨ct, hct, hcz, ?_⟩
  unfold waitpidReturn
  rw [get_of_info hp0 ht, ok_bind, get_of_info hc0 hct, ok_bind]
  refine yields_bind (freeProcess_spec hL hpl h.proto.pids hct hcz) fun s₁ hs₁ => ?_
  obtain ⟨hg₁, hm₁, hL₁, hpl₁⟩ := hs₁
  have hcur₁ : s₁.current = s.current := congrArg Globals.current hg₁
  have ht₁ : s₁.info s₁.current = some t := by
    rw [hcur₁, hm₁, Function.update_of_ne hcp.symm]; exact ht
  have hpop : s₁.popFrame = .ok (s₁.assign s₁.current { t with frames := fs }) := by
    unfold popFrame
    rw [modify_ok (by rw [hcur₁]; exact hp0) ht₁, hf]
    rfl
  rw [hpop, ok_bind]
  have hplace := place_frames hready fs
  have hlisted₂ : (s₁.assign s₁.current { t with frames := fs }).Listed :=
    Listed.assign ⟨_, hL₁, hpl₁⟩ ht₁ (hplace.trans hready.symm)
  obtain ⟨s₂, hs₂⟩ : ∃ s₂, s₂ = s₁.assign s₁.current { t with frames := fs } := ⟨_, rfl⟩
  rw [← hs₂] at hlisted₂ ⊢
  have hg₂ : s₂.toGlobals = s.toGlobals := by rw [hs₂]; exact hg₁
  have hm₂ : s₂.info = Function.update (Function.update s.info c none) s.current
      (some { t with frames := fs }) := by
    rw [hs₂, assign_info, hcur₁, hm₁]
  obtain ⟨L₂, hL₂, hpl₂⟩ := hlisted₂
  have href : Refines i s { s₂ with waitLog := (t.pid, ct.pid, ct.exitStatus) :: s₂.waitLog } := by
    refine ⟨⟨L₂, hL₂.globals le_rfl, hpl₂⟩, .single ?_⟩
    have htr := Trans.collect (i := i) (g := s.toGlobals) ht hready hf hct
    rw [← hm₂, ← hg₂] at htr
    show Trans i (s.toGlobals, s.info) _
    rw [← hg₂]
    exact htr
  have hcur₂ : s₂.current = s.current := congrArg Globals.current hg₂
  have ht₂ : s₂.info s₂.current = some { t with frames := fs } := by
    rw [hm₂, hcur₂, Function.update_self]
  have hfreed : s₂.info c = none := by
    rw [hm₂, Function.update_of_ne hcp, Function.update_self]
  refine yields_pure.2 ⟨⟨⟨h.toSound.of_refines href ⟨_, ht₂⟩, fun u hu hpu => ?_⟩, href⟩, hfreed⟩
  obtain rfl := Option.some.inj (ht₂.symm.trans hu)
  exact absurd hplace hpu

/-- `sleep` of a task that waits for no child. -/
theorem sleepPlain_ok (h : Sound i s) (ht : s.info s.current = some t)
    (hready : t.place = .taskHeadp)
    (hcore : t.core = [.readStdin] ∧ l = .waitStdinList ∨
      t.core = [.threadClear] ∧ l = .sleepTaskList) :
    ∃ s', s.sleep l = .ok s' ∧ Next i s s' := by
  have hplace : ({ t with state := .sleep } : TaskInfo).place = l := by
    rcases hcore with ⟨hc, rfl⟩ | ⟨hc, rfl⟩
    · exact TaskInfo.place_eq_waitStdin.2 ⟨rfl, by
        rw [show ({ t with state := .sleep } : TaskInfo).core = t.core from rfl, hc]; rfl⟩
    · exact TaskInfo.place_eq_sleep.2 ⟨rfl, by
        rw [show ({ t with state := .sleep } : TaskInfo).core = t.core from rfl, hc]; simp⟩
  obtain ⟨s', hsleep, hg, hm, hlisted⟩ := sleep_ok h.listed h.proto.pids ht hready hplace
  have hcur : s'.current = s.current := congrArg Globals.current hg
  have htr := Trans.sleepPlain (i := i) (g := s.toGlobals) ht hready
    (hcore.imp And.left And.left)
  have hself := Function.update_self s.current (some { t with state := .sleep }) s.info
  have hch := (h.proto.trans (x := s.abs) htr).pushSchedule hself
  have href : Refines i s s' := by
    refine ⟨hlisted, .tail (.single htr) ?_⟩
    have htr' := Trans.change hself hch
    rw [Function.update_idem] at htr'
    show Trans i _ (s'.toGlobals, s'.info)
    rw [hg, hm]
    exact htr'
  have hinfo : s'.info s'.current = some { t with state := .sleep, frames := .schedule :: t.frames } := by
    rw [hcur, hm, Function.update_self]
  refine ⟨s', hsleep, ⟨h.of_refines href ⟨_, hinfo⟩, fun u hu _ => ?_⟩, href⟩
  rw [hinfo, Option.some.injEq] at hu
  exact ⟨_, by rw [← hu]⟩

/-- The loop of `thread_clear`, with `kept` behind it and `rest` in front of it. -/
theorem clearFrom_spec {kept rest : List ℕ} {fuel : ℕ} (hL : s.Lists L) (hpl : Placed s.info L)
    (hproto : Proto i s.toGlobals s.info) (hz : L .zombieList = kept ++ rest)
    (hfuel : rest.length < fuel) : Yields (clearFrom fuel (rest.head?.getD 0) s) (fun s' =>
      Refines i s s' ∧ s'.toGlobals = s.toGlobals ∧
      ∀ q u, s.info q = some u → u.state ≠ .zombie → s'.info q = some u) Honest := by
  obtain ⟨fuel, rfl⟩ : ∃ k, fuel = k + 1 := ⟨fuel - 1, by omega⟩
  induction rest generalizing s L kept fuel with
  | nil => exact yields_ok.2 ⟨.refl ⟨L, hL, hpl⟩, rfl, fun q u hu _ => hu⟩
  | cons x rest ih =>
    obtain ⟨fuel, rfl⟩ : ∃ k, fuel = k + 1 := ⟨fuel - 1, by simp at hfuel; omega⟩
    have hfuel' : rest.length < fuel + 1 := by simp at hfuel; omega
    have hmem : x ∈ L .zombieList := by rw [hz]; simp
    obtain ⟨t, ht, htz⟩ := (hpl _ _).1 hmem
    rw [TaskInfo.place_eq_zombie] at htz
    have hx0 := hproto.pids.ne_zero ht
    have hlinked := hL.linked .zombieList
    have hnd := hlinked.nodup
    rw [hz] at hlinked hnd
    have hx : x ∉ kept := fun hxk => (List.nodup_append.1 hnd).2.2 x hxk x (by simp) rfl
    show Yields (clearFrom (fuel + 1 + 1) x s) _ _
    rw [clearFrom, if_neg hx0, get_of_info hx0 ht, ok_bind, hlinked.next_eq_head]
    split
    · next ho =>
      have hfree := (freeProcess_spec hL hpl hproto.pids ht htz).imp (fun _ => id)
        fun e he => (show Honest e by rw [he.1]; exact ⟨by decide, by decide⟩)
      refine yields_bind hfree fun s₁ hs₁ => ?_
      obtain ⟨hg₁, hm₁, hL₁, hpl₁⟩ := hs₁
      have href : Refines i s s₁ :=
        .single ⟨_, hL₁, hpl₁⟩ hg₁ hm₁ (.free ht htz (by simpa using ho))
      have hz₁ : Function.update L .zombieList ((L .zombieList).erase x) .zombieList =
          kept ++ rest := by
        rw [Function.update_self, hz, List.erase_append_right _ hx, List.erase_cons_head]
      refine (ih hL₁ hpl₁ (hproto.transs href.trans) hz₁ fuel hfuel').mono fun s₂ hs₂ => ?_
      obtain ⟨href₂, hg₂, hkeep₂⟩ := hs₂
      refine ⟨href.comp href₂, hg₂.trans hg₁, fun q u hu huz => hkeep₂ q u ?_ huz⟩
      rw [hm₁, Function.update_of_ne ?_]
      · exact hu
      · rintro rfl
        obtain rfl := Option.some.inj (ht.symm.trans hu)
        exact huz htz
    · have hz₁ : L .zombieList = (kept ++ [x]) ++ rest := by rw [hz]; simp
      exact ih hL hpl hproto hz₁ fuel hfuel'

/-- **An iteration of `thread_clear`** frees the orphans and goes back to sleep. -/
theorem threadClear_spec (h : Sound i s) (ht : s.info s.current = some t)
    (hready : t.place = .taskHeadp) (hcore : t.core = [.threadClear]) :
    Yields s.threadClear (Next i s) Honest := by
  obtain ⟨L, hL, hpl⟩ := h.listed
  have hloop := clearFrom_spec hL hpl h.proto (List.nil_append _).symm
    (hL.short .zombieList)
  rw [← (hL.linked .zombieList).head_eq] at hloop
  unfold threadClear
  refine yields_bind hloop fun s₁ hs₁ => ?_
  obtain ⟨href, hg, hkeep⟩ := hs₁
  have hcur : s₁.current = s.current := congrArg Globals.current hg
  have ht₁ : s₁.info s₁.current = some t := by
    rw [hcur]; exact hkeep _ t ht (TaskInfo.place_eq_taskHeadp.1 hready).2
  have hS₁ := h.of_refines href ⟨t, ht₁⟩
  obtain ⟨s₂, hs₂⟩ : ∃ s₂ : Kernel, s₂ = { s₁ with zombieCount := 0 } := ⟨_, rfl⟩
  have href₂ : Refines i s₁ s₂ := by rw [hs₂]; exact hS₁.globals rfl rfl rfl rfl le_rfl
  have ht₂ : s₂.info s₂.current = some t := by rw [hs₂]; exact ht₁
  obtain ⟨s₃, hsleep, hgood, href₃⟩ := sleepPlain_ok (hS₁.of_refines href₂ ⟨t, ht₂⟩) ht₂ hready
    (.inr ⟨hcore, rfl⟩)
  simp only
  rw [← hs₂, hsleep]
  exact yields_ok.2 ⟨hgood, (href.comp href₂).comp href₃⟩

/-! ### Signals and the keyboard -/

/-- A change of fields of one task between two kernel functions. -/
theorem Good.assign (h : Good i s) (ht : s.info p = some t)
    (hch : Change i s.toGlobals s.info p t t')
    (hrun : p = s.current → t.place ≠ .taskHeadp → ∃ fs, t'.frames = .schedule :: fs) :
    Next i s (s.assign p t') := by
  obtain ⟨hS, hR⟩ := h.toSound.assign ht hch
  refine ⟨⟨hS, fun u hu hpu => ?_⟩, hR⟩
  have hu' : (s.assign p t').info s.current = some u := hu
  rw [assign_info] at hu'
  rcases update_eq_some.1 hu' with ⟨hc, rfl⟩ | ⟨-, hu'⟩
  · exact hrun hc.symm (by rw [← hch.place]; exact hpu)
  · exact h.running u hu' hpu

theorem Good.refl (h : Good i s) : Next i s s := ⟨h, .refl h.listed⟩

/-- **`kill_by_pid`** marks a process that is not a zombie. -/
theorem killByPid_ok (h : Good i s) (pid sig : ℤ) :
    ∃ s', s.killByPid pid sig = .ok s' ∧ Next i s s' := by
  unfold killByPid
  rcases findAlive_spec h.toSound pid with ⟨hnone, -⟩ | ⟨c, ct, hsome, hct, -, -⟩
  · rw [hnone]
    exact ⟨s, rfl, h.refl⟩
  · have hc0 := h.proto.pids.ne_zero hct
    simp only [hsome, ok_bind, get_of_info hc0 hct]
    split
    · exact ⟨s, rfl, h.refl⟩
    · next hmm =>
      split
      · have hmm' : ct.mm = true := by simpa using hmm
        obtain ⟨hi, hcl⟩ := Proto.ne_threads h.proto hct hmm'
        refine ⟨_, modify_ok hc0 hct _, h.assign hct ⟨rfl, rfl, rfl, rfl, rfl, rfl, fun _ => rfl,
          fun hf => ?_, (h.proto.each c ct hct).user, fun _ => Iff.rfl, fun _ => rfl,
          (h.proto.core c ct hct).of_core rfl rfl, fun hp => absurd hp hi,
          fun hp => absurd hp hcl⟩ fun hp hpl => ?_⟩
        · have hf' : ct.mm = false := hf
          rw [hmm'] at hf'
          simp at hf'
        · subst hp
          exact h.running ct hct hpl
      · exact ⟨s, rfl, h.refl⟩

/-- An iteration of the bulk wakeup is a `wakeup` of the task it is at. -/
theorem wakeupFrom_succ (hp : p ≠ 0) (ht : s.info p = some t) (fuel : ℕ) :
    wakeupFrom l (fuel + 1) p s = s.wakeup l p >>= wakeupFrom l fuel (s.nextOf p) := by
  rw [wakeupFrom_def, if_neg hp, get_of_info hp ht, ok_bind, wakeup, if_neg hp]

/-- Nobody waits for a child on `wait_stdin_list`. -/
theorem no_wait_of_stdin {g : Globals} (h : Proto i g m) (ht : m p = some t)
    (hpl : t.place = .waitStdinList) : t.state = .sleep ∧ ∀ c, .waitFree c ∉ t.core := by
  obtain ⟨hs, hhead⟩ := TaskInfo.place_eq_waitStdin.1 hpl
  refine ⟨hs, fun c hc => ?_⟩
  rw [(h.core p t ht).head_of_wait hc] at hhead
  simp at hhead

/-- The bulk wakeup takes one task after the other from the front of the list. -/
theorem wakeupFrom_ok {rest : List ℕ} {fuel : ℕ} (hL : s.Lists L) (hpl : Placed s.info L)
    (hproto : Proto i s.toGlobals s.info) (hl : L .waitStdinList = rest)
    (hfuel : rest.length < fuel) :
    ∃ s', wakeupFrom .waitStdinList fuel (rest.head?.getD 0) s = .ok s' ∧ Refines i s s' ∧
      s'.toGlobals = s.toGlobals ∧
      ∀ q u, s.info q = some u → u.place ≠ .waitStdinList → s'.info q = some u := by
  obtain ⟨fuel, rfl⟩ : ∃ k, fuel = k + 1 := ⟨fuel - 1, by omega⟩
  induction rest generalizing s L fuel with
  | nil => exact ⟨s, rfl, .refl ⟨L, hL, hpl⟩, rfl, fun q u hu _ => hu⟩
  | cons x rest ih =>
    obtain ⟨fuel, rfl⟩ : ∃ k, fuel = k + 1 := ⟨fuel - 1, by simp at hfuel; omega⟩
    have hfuel' : rest.length < fuel + 1 := by simp at hfuel; omega
    obtain ⟨t, ht, htl⟩ := (hpl .waitStdinList x).1 (by rw [hl]; simp)
    have hx0 := hproto.pids.ne_zero ht
    have hlinked := hL.linked .waitStdinList
    rw [hl] at hlinked
    obtain ⟨s₁, hwake, hg₁, hm₁, hL₁, hpl₁⟩ := wakeup_moves hL hpl hproto.pids ht htl (by decide)
    obtain ⟨hs, hnw⟩ := no_wait_of_stdin hproto ht htl
    have href : Refines i s s₁ := .single ⟨_, hL₁, hpl₁⟩ hg₁ hm₁ (.wakePlain ht hs hnw)
    have hl₁ : moved L .waitStdinList .taskHeadp x .waitStdinList = rest := by
      rw [moved, Function.update_of_ne (by decide), Function.update_self, hl, List.erase_cons_head]
    obtain ⟨s₂, h₂, href₂, hg₂, hkeep₂⟩ :=
      ih hL₁ hpl₁ (hproto.transs href.trans) hl₁ fuel hfuel'
    have hnext : s.nextOf x = rest.head?.getD 0 := hlinked.2.2.head_eq
    refine ⟨s₂, ?_, href.comp href₂, hg₂.trans hg₁, fun q u hu hpu => hkeep₂ q u ?_ hpu⟩
    · show wakeupFrom _ (fuel + 1 + 1) x s = _
      rw [wakeupFrom_succ hx0 ht, hwake, ok_bind, hnext]
      exact h₂
    · rw [hm₁, Function.update_of_ne ?_]
      · exact hu
      · rintro rfl
        obtain rfl := Option.some.inj (ht.symm.trans hu)
        exact hpu htl

/-- **The end of a line** wakes up everybody on `wait_stdin_list`. -/
theorem newline_ok (h : Good i s) (ht : s.info s.current = some t)
    (hready : t.place = .taskHeadp) : ∃ s', s.newline = .ok s' ∧ Next i s s' := by
  obtain ⟨s₀, hs₀⟩ : ∃ s₀ : Kernel, s₀ = { s with bufReady := true } := ⟨_, rfl⟩
  have href₀ : Refines i s s₀ := by rw [hs₀]; exact h.toSound.globals rfl rfl rfl rfl le_rfl
  have ht₀ : s₀.info s₀.current = some t := by rw [hs₀]; exact ht
  have hS₀ := h.toSound.of_refines href₀ ⟨t, ht₀⟩
  have hgood : ∀ s', s'.toGlobals = s₀.toGlobals → s'.info s₀.current = some t →
      Refines i s₀ s' → Next i s s' := by
    intro s' hg hinfo href
    have hinfo' : s'.info s'.current = some t := by
      rw [show s'.current = s₀.current from congrArg Globals.current hg]; exact hinfo
    refine ⟨⟨hS₀.of_refines href ⟨t, hinfo'⟩, fun u hu hpu => ?_⟩, href₀.comp href⟩
    obtain rfl := Option.some.inj (hinfo'.symm.trans hu)
    exact absurd hready hpu
  have hdef : s.newline = if s₀.head .waitStdinList ≠ 0 then s₀.wakeupAll .waitStdinList
      else .ok s₀ := by
    rw [hs₀]; rfl
  rw [hdef]
  split
  · obtain ⟨L, hL, hpl⟩ := hS₀.listed
    obtain ⟨s', hwake, href, hg, hkeep⟩ := wakeupFrom_ok hL hpl hS₀.proto rfl
      (hL.short .waitStdinList)
    rw [← (hL.linked .waitStdinList).head_eq] at hwake
    exact ⟨s', hwake, hgood s' hg (hkeep _ t ht₀ (by rw [hready]; decide)) href⟩
  · exact ⟨s₀, rfl, hgood s₀ rfl ht₀ (.refl hS₀.listed)⟩

theorem lastFrom_ok {x : ℕ} {xs : List ℕ} (h : Linked 0 s.nextOf x xs) (hx : x ≠ 0)
    (halloc : ∀ y ∈ xs, ∃ t, s.info y = some t) {fuel : ℕ} (hfuel : xs.length < fuel) :
    ∃ y t, s.lastFrom fuel x = .ok y ∧ s.info y = some t := by
  obtain ⟨fuel, rfl⟩ : ∃ k, fuel = k + 1 := ⟨fuel - 1, by omega⟩
  induction xs generalizing x fuel with
  | nil => exact absurd h hx
  | cons y xs ih =>
    obtain ⟨rfl, hx, hrest⟩ := h
    obtain ⟨t, ht⟩ := halloc x List.mem_cons_self
    rw [lastFrom, get_of_info hx ht, ok_bind]
    split
    · exact ⟨x, t, rfl, ht⟩
    · next hnext =>
      obtain ⟨fuel, rfl⟩ : ∃ k, fuel = k + 1 := ⟨fuel - 1, by simp at hfuel; omega⟩
      exact ih hrest hnext (fun z hz => halloc z (List.mem_cons_of_mem _ hz)) fuel
        (by simp at hfuel; omega)

/-- **Ctrl-C** kills the last process on `wait_stdin_list`, or the one that runs. -/
theorem ctrlC_ok (h : Good i s) : ∃ s', s.ctrlC = .ok s' ∧ Next i s s' := by
  obtain ⟨L, hL, hpl⟩ := h.listed
  unfold ctrlC
  split
  · next hne =>
    obtain ⟨y, t, hlast, ht⟩ := lastFrom_ok (hL.linked .waitStdinList) hne (hL.alloc _)
      (hL.short .waitStdinList)
    rw [hlast, ok_bind, get_of_info (h.proto.pids.ne_zero ht) ht, ok_bind]
    exact killByPid_ok h _ 9
  · obtain ⟨t, ht⟩ := h.current
    rw [get_of_info (h.proto.pids.ne_zero ht) ht, ok_bind]
    split
    · exact killByPid_ok h _ 9
    · exact ⟨s, rfl, h.refl⟩

/-! ### New tasks -/

/-- A new task at the head of `task_headp`. -/
theorem newTask_spec (h : Sound i s) (hroom : s.pidCount + 1 < 2 ^ 31) (hpid : t.pid = s.pidCount)
    (hppid : t.ppid < t.pid) (hsig : t.sigterm = false) (hw : t.waited = false)
    (ho : t.orphan = false) (hready : t.place = .taskHeadp)
    (hcore : t.core = [] ∨ t.core = [.runInit]) (page : ℕ) :
    Yields (s.newTask page t) (fun s₁ => s₁.head .taskHeadp = s.head .taskHeadp ∧
      ∃ s', s₁.addToTasklist .taskHeadp page = .ok s' ∧ Refines i s s' ∧
        s'.toGlobals = { s.toGlobals with pidCount := s.pidCount + 1, made := s.made + 1 } ∧
        s.info page = none ∧ s'.info = Function.update s.info page (some t)) Honest := by
  obtain ⟨L, hL, hpl⟩ := h.listed
  have hpos := h.proto.pids.range
  unfold newTask
  split
  · exact ⟨by decide, by decide⟩
  · next hfree =>
    split
    · exact ⟨by decide, by decide⟩
    have hp0 : page ≠ 0 := fun h => hfree (.inl h)
    have hnone : s.tasks page = none := by
      cases htp : s.tasks page with
      | none => rfl
      | some u => exact absurd (.inr (by rw [htp]; rfl)) hfree
    have hinfo : s.info page = none := by unfold info; rw [hnone]; rfl
    have hnot : ∀ l, page ∉ L l := by
      intro l hl
      obtain ⟨u, hu⟩ := hL.alloc l page hl
      rw [hinfo] at hu
      simp at hu
    have hwrap : wrap32 (s.pidCount + 1) = s.pidCount + 1 := by
      obtain ⟨u, hu⟩ := h.current
      have := hpos _ u hu
      exact wrap32_of_mem (by omega) hroom
    obtain ⟨s₁, hs₁⟩ : ∃ s₁ : Kernel, s₁ = { s with
      tasks := Function.update s.tasks page (some ⟨t, 0⟩)
      pidCount := wrap32 (s.pidCount + 1)
      made := s.made + 1 } := ⟨_, rfl⟩
    have hinfo₁ : s₁.info = Function.update s.info page (some t) := by
      rw [hs₁]
      funext q
      simp only [info, Function.update_apply]
      split <;> rfl
    have hmade₁ : s₁.made = s.made + 1 := by rw [hs₁]
    have hL₁ : s₁.Lists L := by
      refine hL.elsewhere (p := page) hnot (by rw [hs₁]) (hmade₁ ▸ Nat.le_succ _) fun q hq => ?_
      rw [hs₁]
      exact Function.update_of_ne hq _ _
    obtain ⟨s₂, hadd, hsame, hL₂⟩ := addToTasklist_ok (l := .taskHeadp) hL₁ hp0
      (by rw [hinfo₁, Function.update_self]) hnot (by rw [hmade₁]; exact Nat.lt_succ_of_le hL.few)
    have hg₂ : s₂.toGlobals =
        { s.toGlobals with pidCount := s.pidCount + 1, made := s.made + 1 } := by
      rw [hsame.1, hs₁, hwrap]
    have hm₂ : s₂.info = Function.update s.info page (some t) := hsame.2.trans hinfo₁
    have hpl₂ : Placed s₂.info (Function.update L .taskHeadp (page :: L .taskHeadp)) := by
      intro l q
      rw [hm₂, Function.update_apply]
      by_cases hq : q = page
      · subst hq
        rw [Function.update_self]
        constructor
        · intro hmem
          split at hmem
          · next hl => exact ⟨t, rfl, by rw [hready, hl]⟩
          · exact absurd hmem (hnot l)
        · rintro ⟨u, hu, hul⟩
          rw [Option.some.injEq] at hu
          rw [if_pos (by rw [← hul, ← hu, hready])]
          exact List.mem_cons_self
      · rw [Function.update_of_ne hq, ← hpl l q]
        split
        · next hl => rw [hl]; simp [hq]
        · rfl
    rw [← hs₁]
    exact yields_ok.2 ⟨by rw [hs₁], s₂, hadd, .single ⟨_, hL₂, hpl₂⟩ hg₂ hm₂
      (.newTask hp0 hinfo hpid hppid hsig hw ho hready hcore), hg₂, hinfo, hm₂⟩

theorem Sound.good (h : Sound i s) (ht : s.info s.current = some t)
    (hready : t.place = .taskHeadp) : Good i s := by
  refine ⟨h, fun u hu hpu => ?_⟩
  obtain rfl := Option.some.inj (ht.symm.trans hu)
  exact absurd hready hpu

/-- **`fork`** of the running process. -/
theorem fork_spec (h : Sound i s) (hroom : s.pidCount + 1 < 2 ^ 31)
    (ht : s.info s.current = some t) (hready : t.place = .taskHeadp) (page : ℕ) :
    Yields (s.fork page) (fun s' => Next i s s' ∧
      ∃ ct, s'.info page = some ct ∧ ct.pid = s.pidCount ∧ ct.ppid = t.pid) Honest := by
  have hp0 := h.proto.pids.ne_zero ht
  have hnew := newTask_spec
    (t := { zeroTask with pid := s.pidCount, ppid := t.pid, mm := true, state := .active })
    h hroom rfl (h.proto.pids.range _ t ht).2 rfl rfl rfl rfl (.inl rfl) page
  unfold fork
  rw [get_of_info hp0 ht, ok_bind]
  refine yields_bind hnew fun s₁ hs₁ => ?_
  obtain ⟨-, s₂, hadd, href, hg, hfresh, hm⟩ := hs₁
  have ht₂ : s₂.info s₂.current = some t := by
    rw [show s₂.current = s.current from by rw [hg], hm, Function.update_of_ne ?_]
    · exact ht
    · intro hc
      rw [hc, hfresh] at ht
      simp at ht
  rw [hadd]
  exact yields_ok.2 ⟨⟨(h.of_refines href ⟨t, ht₂⟩).good ht₂ hready, href⟩, _,
    by rw [hm, Function.update_self], rfl, rfl⟩

/-! ### Frames -/

/-- Other frames of the running task, none of which waits for a child. -/
theorem Sound.setFrames (h : Sound i s) (ht : s.info s.current = some t)
    (hready : t.place = .taskHeadp) (hi : s.current ≠ i) (hcl : s.current ≠ s.clearZombie)
    (hold : ∀ c, .waitFree c ∉ t.core) {fs : List KFrame}
    (hnew : ∀ c, .waitFree c ∉ ({ t with frames := fs } : TaskInfo).core)
    (hcore : CoreOk s.pidCount s.info { t with frames := fs }) :
    Next i s (s.assign s.current { t with frames := fs }) := by
  have hns := (TaskInfo.place_eq_taskHeadp.1 hready).1
  have hl := h.proto.each _ t ht
  refine (h.good ht hready).assign ht ⟨rfl, rfl, rfl, rfl, rfl, rfl, id, hl.unkilled, hl.user,
    fun c => ⟨fun hc => absurd hc (hnew c), fun hc => absurd hc (hold c)⟩,
    fun hs => absurd hs hns, hcore, fun hp => absurd hp hi, fun hp => absurd hp hcl⟩
    fun _ hpl => absurd hready hpl

/-- The kernel threads of `start` have their own frames. -/
theorem ne_threads_of_core (h : Proto i s.toGlobals s.info) (ht : s.info p = some t)
    (hne : t.core ≠ []) (hnc : t.core ≠ [.threadClear]) : p ≠ i ∧ p ≠ s.clearZombie := by
  constructor
  · rintro rfl
    obtain ⟨u, hu, -, huc, -⟩ := h.threads.idle
    obtain rfl := Option.some.inj (ht.symm.trans hu)
    exact hne huc
  · rintro rfl
    obtain ⟨u, hu, -, huc, -⟩ := h.threads.clear
    obtain rfl := Option.some.inj (ht.symm.trans hu)
    exact hnc huc

theorem popFrame_ok (h : Sound i s) (ht : s.info s.current = some t) {f : KFrame}
    {fs : List KFrame} (hf : t.frames = f :: fs) :
    s.popFrame = .ok (s.assign s.current { t with frames := fs }) := by
  unfold popFrame
  rw [modify_ok (h.proto.pids.ne_zero ht) ht, hf]
  rfl

theorem pushFrame_ok (h : Sound i s) (ht : s.info s.current = some t) (f : KFrame) :
    s.pushFrame f = .ok (s.assign s.current { t with frames := f :: t.frames }) :=
  modify_ok (h.proto.pids.ne_zero ht) ht _

theorem assign_info_self : (s.assign p t).info p = some t := by
  rw [assign_info, Function.update_self]

/-- What holds after the return from a frame, for the task that goes on. -/
structure Popped (i : ℕ) (s : Kernel) (t : TaskInfo) (fs : List KFrame) (s₁ : Kernel) : Prop where
  good : Good i s₁
  refines : Refines i s s₁
  core : ({ t with frames := fs } : TaskInfo).core = []
  info : s₁.info = Function.update s.info s.current (some { t with frames := fs })
  current : s₁.current = s.current
  pidCount : s₁.pidCount = s.pidCount
  task : s₁.info s₁.current = some { t with frames := fs }
  ready : ({ t with frames := fs } : TaskInfo).place = .taskHeadp
  ne_idle : s₁.current ≠ i
  ne_clear : s₁.current ≠ s₁.clearZombie

/-- The return from a frame that does not wait for a child. -/
theorem Sound.pop (h : Sound i s) (ht : s.info s.current = some t) (hready : t.place = .taskHeadp)
    {f : KFrame} {fs : List KFrame} (hf : t.frames = f :: fs) (hcore : t.core = [f])
    (hsch : f ≠ .schedule) (hwf : ∀ c, f ≠ .waitFree c) (hcl : f ≠ .threadClear) :
    ∃ s₁, s.popFrame = .ok s₁ ∧ Popped i s t fs s₁ := by
  have hnil : ({ t with frames := fs } : TaskInfo).core = [] := by
    rw [core_of_frames hf hsch] at hcore
    exact (List.cons.inj hcore).2
  obtain ⟨hi, hc⟩ := ne_threads_of_core h.proto ht (by simp [hcore]) (by simpa [hcore] using hcl)
  have hnext := h.setFrames ht hready hi hc (fun c => by rw [hcore]; simpa using (hwf c).symm)
    (fun c => by rw [hnil]; simp) (.outside hnil)
  exact ⟨_, popFrame_ok h ht hf,
    { good := hnext.1
      refines := hnext.2
      core := hnil
      info := assign_info ..
      current := rfl
      pidCount := rfl
      task := assign_info_self
      ready := place_frames hready fs
      ne_idle := hi
      ne_clear := hc }⟩

/-- **`read`** of standard input returns a line or sleeps until there is one. -/
theorem readStdin_ok (h : Sound i s) (ht : s.info s.current = some t)
    (hready : t.place = .taskHeadp) {fs : List KFrame} (hf : t.frames = .readStdin :: fs)
    (hcore : t.core = [.readStdin]) (page : ℕ) (outcome : Bool) :
    ∃ s', s.kernelStep page outcome .readStdin = .ok s' ∧ Next i s s' := by
  rw [kernelStep]
  split
  · obtain ⟨s₁, hs₁⟩ : ∃ s₁ : Kernel, s₁ = { s with bufReady := !outcome } := ⟨_, rfl⟩
    have href : Refines i s s₁ := by rw [hs₁]; exact h.globals rfl rfl rfl rfl le_rfl
    have ht₁ : s₁.info s₁.current = some t := by rw [hs₁]; exact ht
    obtain ⟨s₂, hpop, hp⟩ := (h.of_refines href ⟨t, ht₁⟩).pop ht₁ hready hf hcore
      (by simp) (by simp) (by simp)
    rw [← hs₁]
    exact ⟨s₂, hpop, hp.good, href.comp hp.refines⟩
  · exact sleepPlain_ok h ht hready (.inl ⟨hcore, rfl⟩)

/-- **`run_init_process`** becomes a process, or exits when there is no file. -/
theorem runInit_spec (h : Sound i s) (ht : s.info s.current = some t)
    (hready : t.place = .taskHeadp) {fs : List KFrame} (hf : t.frames = .runInit :: fs)
    (hcore : t.core = [.runInit]) (h0 : t.pid ≠ 0) (page : ℕ) (outcome : Bool) :
    Yields (s.kernelStep page outcome .runInit) (Next i s) Honest := by
  obtain ⟨s₁, hpop, hp⟩ := h.pop ht hready hf hcore (by simp) (by simp) (by simp)
  rw [kernelStep]
  rw [hpop, ok_bind]
  split
  · rw [modify_ok (hp.good.proto.pids.ne_zero hp.task) hp.task]
    have hnext : Next i s₁ (s₁.assign s₁.current { t with frames := fs, mm := true }) :=
      hp.good.assign hp.task ⟨rfl, rfl, rfl, rfl, rfl, rfl, id, by simp, fun _ => h0, fun _ => Iff.rfl,
        fun _ => rfl, .outside hp.core, fun hq => absurd hq hp.ne_idle, fun hq => absurd hq hp.ne_clear⟩
        fun _ hpl => absurd hp.ready hpl
    exact yields_ok.2 ⟨hnext.1, hp.refines.comp hnext.2⟩
  · refine (exitSt_spec hp.good.toSound hp.task hp.ready hp.ne_idle hp.ne_clear 1).mono fun s' hs' => ?_
    exact ⟨hs'.1, hp.refines.comp hs'.2⟩

/-- **`start`** waits for the init process. -/
theorem mainWait_ok (h : Sound i s) (ht : s.info s.current = some t)
    (hready : t.place = .taskHeadp) {k : ℤ} {fs : List KFrame} (hf : t.frames = .mainWait k :: fs)
    (hcore : t.core = [.mainWait k]) (h0 : t.pid = 0) (hk : 0 < k)
    (hkid : ∀ q u, s.info q = some u → u.pid = k → u.ppid = 0) (page : ℕ) (outcome : Bool) :
    ∃ s', s.kernelStep page outcome (.mainWait k) = .ok s' ∧ Next i s s' := by
  obtain ⟨s₁, hpop, hp⟩ := h.pop ht hready hf hcore (by simp) (by simp) (by simp)
  rw [kernelStep]
  rw [hpop, ok_bind]
  have hcore₂ : ({ t with frames := .mainRespawn :: fs } : TaskInfo).core = [.mainRespawn] := by
    rw [TaskInfo.core_cons (by simp), hp.core]
  have hnext := hp.good.toSound.setFrames hp.task hp.ready hp.ne_idle hp.ne_clear
    (fun c => by rw [hp.core]; simp) (fun c => by rw [hcore₂]; simp) (.respawn hcore₂ h0)
  rw [pushFrame_ok hp.good.toSound hp.task, ok_bind]
  obtain ⟨s₂, hs₂⟩ : ∃ s₂, s₂ = s₁.assign s₁.current { t with frames := .mainRespawn :: fs } :=
    ⟨_, rfl⟩
  simp only
  rw [← hs₂] at hnext ⊢
  have hcur₂ : s₂.current = s₁.current := by rw [hs₂]; rfl
  have hclear₂ : s₂.clearZombie = s₁.clearZombie := by rw [hs₂]; rfl
  have ht₂ : s₂.info s₂.current = some { t with frames := .mainRespawn :: fs } := by
    rw [hcur₂, hs₂, assign_info_self]
  have hinfo₂ : s₂.info = Function.update s.info s.current
      (some { t with frames := .mainRespawn :: fs }) := by
    rw [hs₂, assign_info, hp.current, hp.info, Function.update_idem]
  obtain ⟨s₃, hwait, hnext₃⟩ := waitpid_spec hnext.1.toSound ht₂ (place_frames hready _)
    (by rw [hcur₂]; exact hp.ne_idle) (by rw [hcur₂, hclear₂]; exact hp.ne_clear) (.inr ⟨hcore₂, h0⟩)
    fun c ct hct hck _ => by
      rw [hinfo₂] at hct
      rcases update_eq_some.1 hct with ⟨-, rfl⟩ | ⟨hc, hct⟩
      · have hck' : t.pid = k := hck
        omega
      · exact ⟨(hkid c ct hct hck).trans h0.symm, by rw [hcur₂, hp.current]; exact hc⟩
  exact ⟨s₃, hwait, hnext₃.1, (hp.refines.comp hnext.2).comp hnext₃.2⟩

/-- **`start`** creates the init process once more. -/
theorem mainRespawn_spec (h : Sound i s) (ht : s.info s.current = some t)
    (hready : t.place = .taskHeadp) {fs : List KFrame} (hf : t.frames = .mainRespawn :: fs)
    (hcore : t.core = [.mainRespawn]) (h0 : t.pid = 0) (hroom : s.pidCount + 1 < 2 ^ 31)
    (page : ℕ) (outcome : Bool) :
    Yields (s.kernelStep page outcome .mainRespawn) (Next i s) Honest := by
  obtain ⟨s₁, hpop, hp⟩ := h.pop ht hready hf hcore (by simp) (by simp) (by simp)
  have hpos := h.proto.pids.range _ t ht
  rw [kernelStep, hpop, ok_bind]
  have hn₁ := hp.pidCount
  have ht₁ := hp.task
  have hpos₁ : 0 < s₁.pidCount := by omega
  have hnew := newTask_spec (t := { zeroTask with pid := s₁.pidCount, frames := [.runInit] })
    hp.good.toSound (by rw [hn₁]; exact hroom) rfl hpos₁ rfl rfl rfl rfl (.inr rfl) page
  unfold kernelThread
  simp only [bind_assoc]
  refine yields_bind hnew fun s₂ hs₂ => ?_
  obtain ⟨-, s₃, hadd, href₃, hg₃, hfresh, hm₃⟩ := hs₂
  split
  · exact ⟨by decide, by decide⟩
  · simp only [hadd, ok_bind, pure_bind]
    have hcp : s₁.current ≠ page := by
      intro hc
      rw [hc, hfresh] at ht₁
      simp at ht₁
    have hcur₃ : s₃.current = s₁.current := by rw [hg₃]
    have ht₃ : s₃.info s₃.current = some { t with frames := fs } := by
      rw [hcur₃, hm₃, Function.update_of_ne hcp]; exact ht₁
    have hS₃ := hp.good.toSound.of_refines href₃ ⟨_, ht₃⟩
    have hcore₄ : ({ t with frames := .mainWait s₁.pidCount :: fs } : TaskInfo).core =
        [.mainWait s₁.pidCount] := by
      rw [TaskInfo.core_cons (by simp), hp.core]
    have hn₃ : s₃.pidCount = s₁.pidCount + 1 := by rw [hg₃]
    -- nobody but the new task has the new pid
    have hkid : ∀ q u, s₃.info q = some u → u.pid = s₁.pidCount → u.ppid = 0 := by
      intro q u hu hup
      rw [hm₃] at hu
      rcases update_eq_some.1 hu with ⟨-, rfl⟩ | ⟨-, hu⟩
      · rfl
      · have := hp.good.proto.pids.range q u hu
        omega
    have hnext := hS₃.setFrames ht₃ hp.ready (by rw [hcur₃]; exact hp.ne_idle)
      (by rw [hcur₃, hg₃]; exact hp.ne_clear) (fun c => by rw [hp.core]; simp) (fun c => by rw [hcore₄]; simp)
      (.main s₁.pidCount hcore₄ h0 ⟨by omega, by omega⟩ hkid)
    rw [pushFrame_ok hS₃ ht₃, ok_bind]
    obtain ⟨s₅, hpush, hgood₅, href₅, -⟩ := hnext.1.toSound.pushSchedule
    rw [hpush]
    exact yields_ok.2 ⟨hgood₅, ((hp.refines.comp href₃).comp hnext.2).comp href₅⟩

end Kernel

end PlumOs
