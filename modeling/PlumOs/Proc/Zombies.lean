import PlumOs.Proc.Killed
import PlumOs.Proc.Wait

/-!
# Who frees a zombie (`sys/syscall.c`, `sys/process.c`)

`exit_st` decides who will free the task: the cleaner, if the task is an orphan, or its father, which
it wakes up inside `waitpid`.  The father can be killed before it runs again, and `schedule` then
calls `exit_st` for it in the middle of its `waitpid`.

* `Settled` : every zombie is an orphan, or its father is awake and still has to free it;
* `Trans.settled` : a change of the tasks keeps this, if no task exits that still has to free another;
* `SparesFather` : `schedule` does not select a killed task that still has to free its child;
* `noStranded_iff` : **no zombie is stranded exactly as long as it does not**;
* `noStranded_fails` : a father is killed in the middle of its `waitpid`.
-/

namespace PlumOs

/-! ### Changes of the tasks -/

/-- Every zombie is an orphan, or its father is awake and still has to free it. -/
def Settled (m : ℕ → Option TaskInfo) : Prop :=
  ∀ c ct, m c = some ct → ct.state = .zombie → ct.orphan = true ∨
    ∃ p t, m p = some t ∧ t.pid = ct.ppid ∧ t.place = .taskHeadp ∧ .waitFree c ∈ t.core

/-- The task with the pid `k` has no child to free when it is awake. -/
def Debtless (k : ℤ) (m : ℕ → Option TaskInfo) : Prop :=
  ∀ p t c, m p = some t → t.pid = k → t.place = .taskHeadp → .waitFree c ∉ t.core

section Changes

variable {i p : ℕ} {k : ℤ} {m : ℕ → Option TaskInfo} {t t' : TaskInfo} {x y : Tasks}

/-- A task with the pid `k` is awake and still has to free the task at `c`. -/
def Owed (m : ℕ → Option TaskInfo) (c : ℕ) (k : ℤ) : Prop :=
  ∃ p t, m p = some t ∧ t.pid = k ∧ t.place = .taskHeadp ∧ .waitFree c ∈ t.core

/-- The change of a task that does not have to free it. -/
theorem Owed.update {c : ℕ} {changed : Option TaskInfo} (h : Owed m c k)
    (hother : ∀ t, m p = some t → t.place = .taskHeadp → .waitFree c ∉ t.core) :
    Owed (Function.update m p changed) c k := by
  obtain ⟨q, v, hv, hpid, hready, hw⟩ := h
  have hqp : q ≠ p := by
    rintro rfl
    exact hother v hv hready hw
  exact ⟨q, v, (Function.update_of_ne hqp ..).trans hv, hpid, hready, hw⟩

/-- A change of one task that makes no zombie but an orphan, and lets a father be. -/
theorem Settled.update (h : Settled m) (ht : m p = some t)
    (hzombie : t'.state = .zombie → t'.orphan = true ∨
      t.state = .zombie ∧ t'.orphan = t.orphan ∧ t'.ppid = t.ppid)
    (hfather : ∀ c, t.place = .taskHeadp → .waitFree c ∈ t.core →
      t'.pid = t.pid ∧ t'.place = .taskHeadp ∧ .waitFree c ∈ t'.core) :
    Settled (Function.update m p (some t')) := by
  -- the father of a zombie is still there
  have hkeep : ∀ c k, Owed m c k → Owed (Function.update m p (some t')) c k := by
    rintro c k ⟨q, u, hu, hpid, hready, hw⟩
    by_cases hq : q = p
    · subst hq
      obtain rfl := Option.some.inj (ht.symm.trans hu)
      obtain ⟨hpid', hready', hw'⟩ := hfather c hready hw
      exact ⟨q, t', Function.update_self .., hpid'.trans hpid, hready', hw'⟩
    · exact ⟨q, u, (Function.update_of_ne hq ..).trans hu, hpid, hready, hw⟩
  intro c ct hct hz
  rcases update_eq_some.1 hct with ⟨rfl, rfl⟩ | ⟨-, hct⟩
  · rcases hzombie hz with ho | ⟨hz', ho, hppid⟩
    · exact .inl ho
    · rw [ho, hppid]
      exact (h c t ht hz').imp_right (hkeep c _)
  · exact (h c ct hct hz).imp_right (hkeep c _)

theorem Debtless.update (h : Debtless k m)
    (ht' : t'.pid = k → t'.place = .taskHeadp → ∀ c, .waitFree c ∉ t'.core) :
    Debtless k (Function.update m p (some t')) := by
  intro q u c hu hpid hready
  rcases update_eq_some.1 hu with ⟨-, rfl⟩ | ⟨-, hu⟩
  · exact ht' hpid hready c
  · exact h q u c hu hpid hready

/-- A task that was waited for exits: its father has to free it now. -/
theorem Settled.exitWaited {g : Globals} (h : Settled m) (hproto : Proto i g m) (ht : m p = some t)
    (hready : t.place = .taskHeadp) (hdebt : ∀ c, .waitFree c ∉ t.core) {f : ℕ} {u : TaskInfo}
    (hu : m f = some u) (hus : u.state = .sleep) (huw : .waitFree p ∈ u.core) (status : ℤ) :
    Settled (Function.update (Function.update m p
      (some { t with exitStatus := status, state := .zombie })) f
      (some { u with state := .active })) := by
  have hns := (TaskInfo.place_eq_taskHeadp.1 hready).1
  have hfp : f ≠ p := ne_of_state ht hu (by rw [hus]; exact hns.symm)
  intro c ct hct hz
  rcases update_update_eq_some.1 hct with ⟨-, rfl⟩ | ⟨-, rfl, rfl⟩ | ⟨-, -, hct⟩
  · cases hz
  · obtain ⟨t₀, ht₀, hpend⟩ := hproto.waiting.waits f u c hu huw (by rw [hus]; decide)
    obtain rfl := Option.some.inj (ht.symm.trans ht₀)
    exact .inr ⟨f, _, Function.update_self .., hpend.ppid.symm,
      TaskInfo.place_eq_taskHeadp.2 ⟨by simp, by simp⟩, huw⟩
  · refine (h c ct hct hz).imp_right fun howed => ?_
    have howed' : Owed (Function.update m p
        (some { t with exitStatus := status, state := .zombie })) c ct.ppid := by
      refine Owed.update howed fun v hv _ => ?_
      rw [← Option.some.inj (ht.symm.trans hv)]
      exact hdebt c
    -- the father that is woken up here slept
    refine howed'.update fun v hv hvready => absurd ?_ (TaskInfo.place_eq_taskHeadp.1 hvready).1
    rw [Function.update_of_ne hfp, hu] at hv
    rw [← Option.some.inj hv]
    exact hus

/-- A task goes away that is a zombie. -/
theorem Settled.free (h : Settled m) (ht : m p = some t) (hz : t.state = .zombie) :
    Settled (Function.update m p none) := by
  intro c ct hct hcz
  have hcp : c ≠ p := by
    rintro rfl
    rw [Function.update_self] at hct
    cases hct
  rw [Function.update_of_ne hcp] at hct
  refine (h c ct hct hcz).imp_right fun howed => ?_
  refine Owed.update howed fun v hv hready => absurd ?_ (TaskInfo.place_eq_taskHeadp.1 hready).2
  rw [← Option.some.inj (ht.symm.trans hv)]
  exact hz

/-- A new task is no zombie. -/
theorem Settled.newTask (h : Settled m) (hfresh : m p = none) (hready : t.place = .taskHeadp) :
    Settled (Function.update m p (some t)) := by
  intro c ct hct hz
  rcases update_eq_some.1 hct with ⟨-, rfl⟩ | ⟨-, hct⟩
  · exact absurd hz (TaskInfo.place_eq_taskHeadp.1 hready).2
  · refine (h c ct hct hz).imp_right fun howed => Owed.update howed fun v hv => ?_
    rw [hfresh] at hv
    cases hv

/-- A task frees its child `d`, which is all that it has to free. -/
theorem Settled.collect {d : ℕ} {dt : TaskInfo} (h : Settled m) (ht : m p = some t)
    (hdt : m d = some dt) (hdz : dt.state = .zombie) (hpd : p ≠ d)
    (honly : ∀ c, .waitFree c ∈ t.core → c = d) (hready' : t'.place = .taskHeadp) :
    Settled (Function.update (Function.update m d none) p (some t')) := by
  have ht₁ : Function.update m d none p = some t := (Function.update_of_ne hpd ..).trans ht
  intro c ct hct hz
  rcases update_eq_some.1 hct with ⟨-, rfl⟩ | ⟨-, hct⟩
  · exact absurd hz (TaskInfo.place_eq_taskHeadp.1 hready').2
  · have hcd : c ≠ d := by
      rintro rfl
      rw [Function.update_self] at hct
      cases hct
    refine ((h.free hdt hdz) c ct hct hz).imp_right fun howed => Owed.update howed fun v hv _ hw => ?_
    rw [← Option.some.inj (ht₁.symm.trans hv)] at hw
    exact hcd (honly c hw)

theorem Debtless.free (h : Debtless k m) : Debtless k (Function.update m p none) := by
  intro q u c hu
  rw [Function.update_apply] at hu
  split at hu
  · cases hu
  · exact h q u c hu

/-- **A change keeps the zombies settled**, and the task with the pid `k` without debts, if no other
task exits in it. -/
theorem Trans.settled (h : Proto i x.1 x.2) (hs : Settled x.2) (hk : Debtless k x.2)
    (htr : Trans i x y) (hlog : ∀ e ∈ y.1.exitLog, e ∈ x.1.exitLog ∨ e.1 = k) :
    Settled y.2 ∧ Debtless k y.2 := by
  cases htr with
  | globals | noChild => exact ⟨hs, hk⟩
  | @change g m p t t' ht hch =>
    have hcore : ∀ c, .waitFree c ∈ t'.core ↔ .waitFree c ∈ t.core := hch.wait
    refine ⟨hs.update ht (fun hz => .inr ⟨hch.state ▸ hz, hch.orphan, hch.ppid⟩)
      fun c hready hw => ⟨hch.pid, hch.place.trans hready, (hcore c).2 hw⟩, hk.update ?_⟩
    intro hpid hready c hw
    exact hk p t c ht (hch.pid.symm.trans hpid) (hch.place.symm.trans hready) ((hcore c).1 hw)
  | @wakePlain g m p t ht hsleep hnw =>
    refine ⟨hs.update ht nofun fun c _ hw => absurd hw (hnw c), hk.update fun _ _ => hnw⟩
  | @sleepPlain g m p t ht hready hcore =>
    have hnw : ∀ c, .waitFree c ∉ t.core := by
      intro c
      rcases hcore with hc | hc <;> simp [hc]
    exact ⟨hs.update ht nofun fun c _ hw => absurd hw (hnw c), hk.update fun _ _ => hnw⟩
  | @sleepWait g m p d t dt ht hready hi hcl hout hdt hdz hppid hdp =>
    have hnw : ∀ c, .waitFree c ∉ t.core := by
      intro c
      rcases hout with hc | ⟨hc, -⟩ <;> simp [hc]
    have hs' : Settled (Function.update m d (some { dt with waited := true })) :=
      hs.update hdt (fun hz => absurd hz hdz) fun c hdready hw => ⟨rfl, hdready, hw⟩
    have hk' : Debtless k (Function.update m d (some { dt with waited := true })) :=
      hk.update fun hpid hdready c hw => hk d dt c hdt hpid hdready hw
    have ht' : Function.update m d (some { dt with waited := true }) p = some t :=
      (Function.update_of_ne hdp.symm ..).trans ht
    refine ⟨hs'.update ht' nofun fun c _ hw => absurd hw (hnw c), hk'.update fun _ hsleep => ?_⟩
    exact absurd rfl (TaskInfo.place_eq_taskHeadp.1 hsleep).1
  | @exitOrphan g m p t status ht hready hw hi hcl =>
    have hpid := hlog _ List.mem_cons_self
    have hdebt : ∀ c, .waitFree c ∉ t.core := by
      rcases hpid with hold | hpid
      · exact absurd hold (((h.each p t ht).alive (TaskInfo.place_eq_taskHeadp.1 hready).2).2 status)
      · exact fun c => hk p t c ht hpid hready
    exact ⟨hs.update ht (fun _ => .inl rfl) fun c _ hw => absurd hw (hdebt c),
      hk.update fun _ hz => absurd rfl (TaskInfo.place_eq_taskHeadp.1 hz).2⟩
  | @exitWaited g m p f t u status ht hready hw hi hcl hu hus huw =>
    obtain ⟨hns, hnz⟩ := TaskInfo.place_eq_taskHeadp.1 hready
    have hpid : t.pid = k :=
      (hlog _ List.mem_cons_self).resolve_left (((h.each p t ht).alive hnz).2 status)
    have hdebt : ∀ c, .waitFree c ∉ t.core := fun c => hk p t c ht hpid hready
    refine ⟨hs.exitWaited h ht hready hdebt hu hus huw status, ?_⟩
    refine (hk.update fun _ hz => absurd rfl (TaskInfo.place_eq_taskHeadp.1 hz).2).update ?_
    -- the father has another pid
    intro hupid
    have hfp : f = p := h.pids.inj f p u t hu ht (hupid.trans hpid.symm)
    subst hfp
    obtain rfl := Option.some.inj (ht.symm.trans hu)
    exact absurd hus hns
  | @newTask g m p t hp hfresh hpid hppid hsig hw ho hready hcore =>
    have hnw : ∀ c, .waitFree c ∉ t.core := by
      intro c
      rcases hcore with hc | hc <;> simp [hc]
    exact ⟨hs.newTask hfresh hready, hk.update fun _ _ => hnw⟩
  | free ht hz ho => exact ⟨hs.free ht hz, hk.free⟩
  | @collect g m p d t dt fs ht hready hframes hdt =>
    obtain ⟨hmem, hdz, hpd⟩ := h.collects ht hready hframes hdt
    obtain ⟨hns, hnz⟩ := TaskInfo.place_eq_taskHeadp.1 hready
    have hsub : ∀ c, .waitFree c ∈ ({ t with frames := fs } : TaskInfo).core → .waitFree c ∈ t.core := by
      intro c hc
      rw [Kernel.core_of_frames hframes nofun]
      exact List.mem_cons_of_mem _ hc
    have honly : ∀ c, .waitFree c ∈ t.core → c = d := fun c hc => (h.core p t ht).wait_unique hc hmem
    exact ⟨hs.collect ht hdt hdz hpd honly (TaskInfo.place_eq_taskHeadp.2 ⟨hns, hnz⟩),
      hk.free.update fun hpid _ c hc => hk p t c ht hpid hready (hsub c hc)⟩

/-- The same for several changes in a row. -/
theorem Trans.settleds (h : Proto i x.1 x.2) (hs : Settled x.2) (hk : Debtless k x.2)
    (htr : Relation.ReflTransGen (Trans i) x y)
    (hlog : ∀ e ∈ y.1.exitLog, e ∈ x.1.exitLog ∨ e.1 = k) : Settled y.2 ∧ Debtless k y.2 := by
  induction htr with
  | refl => exact ⟨hs, hk⟩
  | @tail z y hsteps hstep ih =>
    have hmono : ∀ e ∈ x.1.exitLog, e ∈ z.1.exitLog := by
      intro e he
      clear hstep ih hlog
      induction hsteps with
      | refl => exact he
      | tail _ hlast ih => exact hlast.exitLog_mono ih
    obtain ⟨hs', hk'⟩ := ih fun e he => hlog e (hstep.exitLog_mono he)
    exact hstep.settled (h.transs hsteps) hs' hk' fun e he => (hlog e he).imp_left (hmono e)

end Changes

namespace Kernel

variable {i p : ℕ} {s s' s₁ : Kernel} {L : ListId → List ℕ} {t : TaskInfo} {a : KAct} {status : ℤ}

/-! ### Stranded zombies -/

/-- Every task on `zombie_list` is an orphan, or its father is on `task_headp` and has the call of
`free_process` for it still to execute. -/
def NoStranded (s : Kernel) : Prop :=
  ∀ c ct, s.On .zombieList c → s.info c = some ct → ct.orphan = true ∨
    ∃ p t, s.info p = some t ∧ t.pid = ct.ppid ∧ s.On .taskHeadp p ∧ .waitFree c ∈ t.frames

/-- If `schedule` is under way, it does not select a killed task that has a child to free. -/
def SparesFather (s : Kernel) : Prop :=
  s.Innermost .schedule → ∀ next n c, s.selectTaskStruct = .ok next → s.info next = some n →
    n.sigterm = true → .waitFree c ∉ n.frames

theorem mem_core {c : ℕ} : .waitFree c ∈ t.core ↔ .waitFree c ∈ t.frames := by
  simp [TaskInfo.core]

theorem Listed.on_iff (h : s.Listed) {l : ListId} : s.On l p ↔ ∃ t, s.info p = some t ∧ t.place = l := by
  obtain ⟨L, hL, hpl⟩ := h
  rw [hL.on_iff]
  exact hpl l p

theorem noStranded_iff_settled (h : s.Listed) : s.NoStranded ↔ Settled s.info := by
  have hfather : ∀ c k, (∃ p t, s.info p = some t ∧ t.pid = k ∧ s.On .taskHeadp p ∧
      .waitFree c ∈ t.frames) ↔ ∃ p t, s.info p = some t ∧ t.pid = k ∧ t.place = .taskHeadp ∧
        .waitFree c ∈ t.core := by
    intro c k
    refine exists₂_congr fun p t => ?_
    rw [mem_core, h.on_iff]
    constructor
    · rintro ⟨ht, hpid, ⟨u, hu, hready⟩, hw⟩
      obtain rfl := Option.some.inj (ht.symm.trans hu)
      exact ⟨ht, hpid, hready, hw⟩
    · rintro ⟨ht, hpid, hready, hw⟩
      exact ⟨ht, hpid, ⟨t, ht, hready⟩, hw⟩
  constructor
  · intro hno c ct hct hz
    rw [← hfather]
    exact hno c ct (h.on_iff.2 ⟨ct, hct, TaskInfo.place_eq_zombie.2 hz⟩) hct
  · intro hs c ct hon hct
    obtain ⟨u, hu, hplace⟩ := h.on_iff.1 hon
    obtain rfl := Option.some.inj (hct.symm.trans hu)
    rw [hfather]
    exact hs c ct hct (TaskInfo.place_eq_zombie.1 hplace)

/-- The task that exits has no child to free. -/
theorem Good.debtless (h : Good i s) (hspare : s.SparesFather) (hx : s.Exits a s₁ p status)
    (ht : s₁.info p = some t) : Debtless t.pid s.info := by
  -- the task that exits, as it was before
  obtain ⟨q, u, hu, hpid, hno⟩ : ∃ q u, s.info q = some u ∧ u.pid = t.pid ∧
      ∀ c, .waitFree c ∉ u.core := by
    have huser : ∀ {q : ℕ} {u : TaskInfo}, s.UserMode → q = s.current → s.info q = some u →
        ∀ c, .waitFree c ∉ u.core := by
      rintro q u ⟨v, hv, hf, -⟩ rfl hu c
      obtain rfl := Option.some.inj ((info_of_tasks hv).symm.trans hu)
      rw [mem_core, hf]
      exact List.not_mem_nil
    cases hx with
    | killed hin hsel hget hsig =>
      have hn := info_of_tasks (get_eq_ok hget)
      obtain rfl := Option.some.inj (hn.symm.trans ht)
      exact ⟨p, _, ht, rfl, fun c hc => hspare hin p _ c hsel hn hsig (mem_core.1 hc)⟩
    | init hin hpop =>
      obtain ⟨u, -, hu, rfl⟩ := modify_cases hpop
      obtain ⟨v, fs, hv, hf⟩ := hin
      obtain rfl := Option.some.inj (hv.symm.trans hu)
      have hpid := congrArg TaskInfo.pid (Option.some.inj (assign_info_self.symm.trans ht))
      refine ⟨s.current, v, hu, hpid, fun c hc => ?_⟩
      have hcore := core_of_frames hf nofun
      cases h.proto.core _ v hu <;> simp_all
    | exit hu => exact ⟨_, t, ht, rfl, huser hu rfl ht⟩
    | execve hu => exact ⟨_, t, ht, rfl, huser hu rfl ht⟩
    | segfault hu => exact ⟨_, t, ht, rfl, huser hu rfl ht⟩
  intro r v c hv hvpid _
  obtain rfl := h.proto.pids.inj r q v u hv hu (hvpid.trans hpid.symm)
  obtain rfl := Option.some.inj (hu.symm.trans hv)
  exact hno c

/-- **A step that spares the fathers strands no zombie.** -/
theorem Good.settled_step (h : Good i s) (hs : Settled s.info) (hfair : s.Fair a)
    (hspare : s.SparesFather) (hstep : s.step a = .ok s') : Settled s'.info := by
  obtain ⟨-, href⟩ := (h.step hfair.1 hfair.2).of_eq_ok hstep
  rcases exitLog_step hstep with hlog | ⟨s₁, p, status, t, hx, ht, hlog⟩
  · -- nobody exits, and -1 is no pid
    have hk : Debtless (-1) s.info := by
      intro p t c ht hpid
      have := (h.proto.pids.range p t ht).1
      omega
    refine (Trans.settleds h.proto hs hk href.trans fun e he => .inl ?_).1
    change e ∈ s'.exitLog at he
    rw [hlog] at he
    exact he
  · refine (Trans.settleds h.proto hs (h.debtless hspare hx ht) href.trans fun e he => ?_).1
    change e ∈ s'.exitLog at he
    rw [hlog] at he
    rcases List.mem_cons.1 he with rfl | he
    · exact .inr rfl
    · exact .inl he

/-! ### A father that is killed -/

/-- What decides about the end of the task at `c`. -/
def bearing (s : Kernel) (c : ℕ) : Option (ℤ × TaskState × Bool) :=
  (s.info c).map fun t => (t.ppid, t.state, t.orphan)

theorem bearing_of_update {c q : ℕ} {u : TaskInfo} (hm : s'.info = Function.update s.info q (some u))
    (hne : c ≠ q) : s'.bearing c = s.bearing c := by
  rw [bearing, bearing, hm, Function.update_of_ne hne]

theorem Woken.bearing {l k : ListId} {c : ℕ} (h : s.Woken L l p s') (hL : s.Lists L) (hk : k ≠ l)
    (hc : c ∈ L k) : s'.bearing c = s.bearing c := by
  obtain ⟨t, -, hm⟩ := h.info
  refine bearing_of_update hm ?_
  rintro rfl
  exact hk (hL.disjoint _ _ c hc h.mem)

theorem pushFrame_bearing {f : KFrame} (hs : s.pushFrame f = .ok s') (c : ℕ) :
    s'.bearing c = s.bearing c := by
  obtain ⟨t, -, ht, rfl⟩ := modify_cases hs
  by_cases hc : c = s.current
  · rw [bearing, bearing, assign_info, hc, Function.update_self, ht]
    rfl
  · exact bearing_of_update assign_info hc

/-- `exit_st` leaves the other zombies as they are. -/
theorem exitSt_bearing {c : ℕ} (hL : s.Lists L) (hs : s.exitSt p status = .ok s')
    (hc : c ∈ L .zombieList) : s'.bearing c = s.bearing c := by
  obtain ⟨t, s₁, s₂, u, ht, hdead, htold, hu, hafter⟩ := exitSt_cases hL hs
  have hne : c ≠ p := by
    rintro rfl
    exact absurd (hL.disjoint _ _ c hc hdead.mem) (by decide)
  have h₁ : s₁.bearing c = s.bearing c := bearing_of_update hdead.info hne
  have hc₁ : c ∈ moved L .taskHeadp .zombieList p .zombieList := mem_moved_of_ne hne hc
  obtain ⟨L₂, hL₂, hc₂, h₂⟩ : ∃ L₂, s₂.Lists L₂ ∧ c ∈ L₂ .zombieList ∧
      s₂.bearing c = s.bearing c := by
    cases htold with
    | orphan h =>
      subst h
      exact ⟨_, hdead.lists.assign, hc₁, (bearing_of_update assign_info hne).trans h₁⟩
    | father f v hw hv hpid hwoken =>
      exact ⟨_, hwoken.lists, hwoken.mem_of_ne hdead.lists (by decide) hc₁,
        (hwoken.bearing hdead.lists (by decide) hc₁).trans h₁⟩
  obtain ⟨s₃, ⟨-, hcount⟩ | ⟨-, rfl⟩, hpush⟩ := afterTold_cases hafter
  · refine ((pushFrame_bearing hpush c).trans ?_).trans h₂
    rcases countOrphan_cases hL₂ hcount with ⟨-, rfl⟩ | ⟨-, hwoken⟩
    · rfl
    · exact hwoken.bearing (hL₂.globals le_rfl) (by decide) hc₂
  · exact (pushFrame_bearing hpush c).trans h₂

/-- **A father that is killed strands its child**: the child is no orphan, and nobody else has it to
free. -/
theorem Good.stranded (h : Good i s) (hfair : s.Fair a) (hkill : ¬ s.SparesFather)
    (hstep : s.step a = .ok s') : ¬ s'.NoStranded := by
  obtain ⟨hgood', -⟩ := (h.step hfair.1 hfair.2).of_eq_ok hstep
  simp only [SparesFather, not_forall, not_not] at hkill
  obtain ⟨hin, next, n, c, hsel, hn, hsig, hw⟩ := hkill
  -- the father is ready, so the child is a zombie that is left to it
  obtain ⟨next', n', hsel', hn', hready⟩ := selectTaskStruct_ok h.toSound
  obtain rfl := Except.ok.inj (hsel.symm.trans hsel')
  obtain rfl := Option.some.inj (hn.symm.trans hn')
  obtain ⟨hns, hnz⟩ := TaskInfo.place_eq_taskHeadp.1 hready
  obtain ⟨ct, hct, hpend⟩ := h.proto.waiting.waits next n c hn (mem_core.2 hw) hnz
  obtain ⟨hz, ho⟩ := hpend.dead hns
  obtain ⟨L, hL, hpl⟩ := h.listed
  have hc : c ∈ L .zombieList := (hpl _ _).2 ⟨ct, hct, TaskInfo.place_eq_zombie.2 hz⟩
  obtain ⟨m, hm⟩ := info_eq_some.1 hn
  obtain ⟨-, hsch⟩ := schedule_of_step hin hstep
  obtain ⟨next', u, hsel', hu, hturn⟩ := schedule_cases hsch
  obtain rfl := Except.ok.inj (hsel.symm.trans hsel')
  obtain rfl := Option.some.inj (hm.symm.trans hu)
  obtain hexit : s.exitSt next 1 = .ok s' := by
    rcases hturn with ⟨-, hexit⟩ | ⟨hno, -⟩
    · exact hexit
    · exact absurd (hsig.symm.trans hno) (by decide)
  -- nothing of this changes, and the father is in the log of exits
  have hbearing := exitSt_bearing hL hexit hc
  simp only [bearing, hct, Option.map_some, Option.map_eq_some_iff] at hbearing
  obtain ⟨ct', hct', heq⟩ := hbearing
  simp only [Prod.mk.injEq] at heq
  obtain ⟨hppid', hz', ho'⟩ := heq
  obtain ⟨v, hv, hlog⟩ := (exitSt_log s next 1).of_eq_ok hexit
  obtain rfl := Option.some.inj (hn.symm.trans hv)
  rw [noStranded_iff_settled hgood'.listed]
  intro hsettled
  rcases hsettled c ct' hct' (hz'.trans hz) with horphan | ⟨p, t, ht, hpid, htready, -⟩
  · rw [ho', ho] at horphan
    cases horphan
  · have hdead : (t.pid, (1 : ℤ)) ∈ s'.exitLog := by
      rw [hlog, hpid, hppid', hpend.ppid]
      exact List.mem_cons_self
    exact ((hgood'.proto.each p t ht).alive (TaskInfo.place_eq_taskHeadp.1 htready).2).2 1 hdead

theorem settled_started {p₀ p₁ p₂ p₃ : ℕ} (h : [0, p₀, p₁, p₂, p₃].Nodup) :
    Settled (started p₀ p₁ p₂ p₃).info := by
  intro c ct hct hz
  obtain ⟨-, hzero, -⟩ := started_plain h hct
  rw [hzero] at hz
  cases hz

/-- **No zombie is stranded exactly as long as no father is killed** between its wakeup and its call of
`free_process`: in runs from boot in which tasks wait for their own children only, and as long as there
are pids. -/
theorem noStranded_iff {p₀ p₁ p₂ p₃ : ℕ} (h : [0, p₀, p₁, p₂, p₃].Nodup) {s₀ : Kernel}
    (hboot : bootKernel p₀ p₁ p₂ p₃ = .ok s₀) {as : List KAct} (hal : Along Kernel.step Fair s₀ as) :
    Always Kernel.step NoStranded s₀ as ↔
      Along Kernel.step (fun s a => ∀ s', s.step a = .ok s' → s.SparesFather) s₀ as := by
  obtain rfl := Except.ok.inj ((bootKernel_eq h).symm.trans hboot)
  refine always_iff_along (I := fun s => Good p₁ s ∧ Settled s.info)
    ⟨good_started h, settled_started h⟩ (fun s hs => (noStranded_iff_settled hs.1.listed).2 hs.2)
    ?_ ?_ hal
  · rintro s a s' ⟨hgood, hs⟩ hfair hspare hstep
    exact ⟨((hgood.step hfair.1 hfair.2).of_eq_ok hstep).1,
      hgood.settled_step hs hfair (hspare s' hstep) hstep⟩
  · rintro s a ⟨hgood, -⟩ hfair hkill
    simp only [not_forall] at hkill
    obtain ⟨s', hstep, hkill⟩ := hkill
    exact ⟨s', hstep, hgood.stranded hfair hkill hstep⟩

/-- The guard as a test. -/
def sparesFatherB (s : Kernel) : Bool :=
  match s.selectTaskStruct with
  | .ok next => (s.info next).all fun n => !n.sigterm || n.frames.all fun
    | .waitFree _ => false
    | _ => true
  | .error _ => true

theorem sparesFather_of_sparesFatherB (h : s.sparesFatherB = true) : s.SparesFather := by
  intro _ next n c hsel hn hsig hw
  simp only [sparesFatherB, hsel, hn, Option.all_some, hsig, Bool.not_true, Bool.false_or,
    List.all_eq_true] at h
  exact absurd (h _ hw) Bool.false_ne_true

/-- The init process collects a child that has exited. -/
theorem noStranded_iff_forkWait : ∃ s₀, bootKernel 10 11 12 13 = .ok s₀ ∧
    Always Kernel.step NoStranded s₀ forkWaitActs := by
  have hpages : [0, 10, 11, 12, 13].Nodup := by decide
  have htest : alongB Kernel.step (fun s _ => s.sparesFatherB) (started 10 11 12 13)
      forkWaitActs = true := by
    decide +kernel
  refine ⟨_, bootKernel_eq hpages,
    (noStranded_iff hpages (bootKernel_eq hpages) along_forkWaitActs).2 ?_⟩
  exact along_of_alongB (I := fun _ => True) trivial
    (fun _ _ _ hs _ _ => sparesFather_of_sparesFatherB hs) (fun _ _ _ _ _ _ => trivial) htest

/-- The init process forks two children and waits for the first, which exits.  The second child kills its
father before that runs again. -/
def killFatherActs : List KAct :=
  [.kernel 0 true, .kernel 0 true, .kernel 0 true, .kernel 0 true, .timer, .kernel 0 true,
    .kernel 0 true, .fork 14, .fork 15, .wait4 4, .kernel 0 true, .exit 7, .kernel 0 true,
    .kill 3 9, .timer, .kernel 0 true, .timer, .kernel 0 true]

/-- **A zombie is stranded** whose father is killed in the middle of its `waitpid`. -/
theorem noStranded_fails : ∃ s₀ s, bootKernel 10 11 12 13 = .ok s₀ ∧
    Along Kernel.step Fair s₀ killFatherActs ∧ run Kernel.step s₀ killFatherActs = .ok s ∧
    ¬ s.NoStranded := by
  have hpages : [0, 10, 11, 12, 13].Nodup := by decide
  have hfair : Along Kernel.step Fair (started 10 11 12 13) killFatherActs :=
    along_fair (good_started hpages) (by decide +kernel)
  have hreach : reaches (run Kernel.step (started 10 11 12 13) killFatherActs) (fun s =>
      ((s.info 14).any fun t => t.state == .zombie && !t.orphan && t.ppid == 3) &&
      ((s.info 13).any fun t => t.state == .zombie && t.pid == 3)) = true := by
    decide +kernel
  obtain ⟨s, hs, htest⟩ := exists_of_reaches hreach
  refine ⟨_, s, bootKernel_eq hpages, hfair, hs, ?_⟩
  have hgood : Good 11 s := (good_of_run hpages (bootKernel_eq hpages) hfair).of_eq_ok hs
  simp only [Bool.and_eq_true, Option.any_eq_true, Bool.not_eq_true', beq_iff_eq] at htest
  obtain ⟨⟨ct, hct, ⟨hz, ho⟩, hppid⟩, f, hf, hfz, hfpid⟩ := htest
  rw [noStranded_iff_settled hgood.listed]
  intro hsettled
  rcases hsettled 14 ct hct hz with horphan | ⟨p, t, ht, hpid, hready, -⟩
  · rw [ho] at horphan
    cases horphan
  · -- the only task with the pid of the father is a zombie itself
    obtain rfl := hgood.proto.pids.inj p 13 t f ht hf (by rw [hpid, hppid, hfpid])
    obtain rfl := Option.some.inj (ht.symm.trans hf)
    exact (TaskInfo.place_eq_taskHeadp.1 hready).2 hfz

end Kernel

end PlumOs
