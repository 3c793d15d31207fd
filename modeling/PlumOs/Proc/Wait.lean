import PlumOs.Proc.Whole

/-!
# Waiting for a child

`waitpid` marks its target and sleeps; `exit_st` wakes up the father of a marked task wherever it
sleeps.  The two agree when a process waits for its own children only, and a status is returned
when the child is still alive at the call.

* `waitpid_resumes_of_run` : a process that goes on behind the sleep of `waitpid` finds the task it
  looked up on `zombie_list`;
* `Track` : the father waits, has collected the status, or has exited;
* `wait4_returns_iff` : **`waitpid` returns the status of a child exactly if** the child had not exited yet.

`wait`, the system call around `waitpid`, returns 0 whatever `waitpid` does: the status gets as far as the
kernel's own function, whose results `waitLog` keeps.
-/

namespace PlumOs

/-! ### What a change leaves alone -/

variable {i p : ℕ} {t : TaskInfo} {x y : Tasks}

theorem Trans.exitLog_mono (htr : Trans i x y) {e : ℤ × ℤ} (he : e ∈ x.1.exitLog) :
    e ∈ y.1.exitLog := by
  cases htr with
  | globals hn hc hlog hw => rw [hlog]; exact he
  | exitOrphan => exact List.mem_cons_of_mem _ he
  | exitWaited => exact List.mem_cons_of_mem _ he
  | _ => exact he

theorem Trans.pidCount_le (htr : Trans i x y) : x.1.pidCount ≤ y.1.pidCount := by
  cases htr with
  | globals hn => exact hn.ge
  | newTask => exact Int.le.intro 1 rfl
  | _ => exact le_rfl

/-- A task that collects its child is woken up, and the child is a zombie. -/
theorem Proto.collects {g : Globals} {m : ℕ → Option TaskInfo} (h : Proto i g m)
    (ht : m p = some t) (hready : t.place = .taskHeadp) {c : ℕ} {ct : TaskInfo} {fs : List KFrame}
    (hframes : t.frames = .waitFree c :: fs) (hct : m c = some ct) :
    .waitFree c ∈ t.core ∧ ct.state = .zombie ∧ p ≠ c := by
  obtain ⟨hns, hnz⟩ := TaskInfo.place_eq_taskHeadp.1 hready
  have hmem : .waitFree c ∈ t.core := by
    rw [Kernel.core_of_frames hframes (by simp)]
    exact List.mem_cons_self
  obtain ⟨ct', hct', hpend⟩ := h.waiting.waits p t c ht hmem hnz
  obtain rfl := Option.some.inj (hct.symm.trans hct')
  refine ⟨hmem, (hpend.dead hns).1, ?_⟩
  rintro rfl
  obtain rfl := Option.some.inj (ht.symm.trans hct)
  exact hnz (hpend.dead hns).1

/-- A task keeps its pid and its father, unless it is a zombie and the cleaner frees it, or its
father, which then has its status. -/
theorem Trans.persists (h : Proto i x.1 x.2) (htr : Trans i x y) (ht : x.2 p = some t) :
    (∃ t', y.2 p = some t' ∧ t'.pid = t.pid ∧ t'.ppid = t.ppid) ∨
    t.state = .zombie ∧ y.2 p = none ∧ (t.orphan = true ∨ ∃ q u, x.2 q = some u ∧
      u.place = .taskHeadp ∧ .waitFree p ∈ u.core ∧ y.1.exitLog = x.1.exitLog ∧
      y.1.waitLog = (u.pid, t.pid, t.exitStatus) :: x.1.waitLog) := by
  have hupdate : ∀ {m : ℕ → Option TaskInfo} {q : ℕ} {u v : TaskInfo} (u' : TaskInfo), m q = some u →
      u'.pid = u.pid → u'.ppid = u.ppid → m p = some v →
      ∃ v', Function.update m q (some u') p = some v' ∧ v'.pid = v.pid ∧ v'.ppid = v.ppid := by
    intro m q u v u' hu hpid hppid hv
    by_cases hpq : p = q
    · subst hpq
      obtain rfl := Option.some.inj (hu.symm.trans hv)
      exact ⟨u', Function.update_self .., hpid, hppid⟩
    · exact ⟨v, by rw [Function.update_of_ne hpq]; exact hv, rfl, rfl⟩
  cases htr with
  | globals | noChild => exact .inl ⟨t, ht, rfl, rfl⟩
  | change hu hch => exact .inl (hupdate _ hu hch.pid hch.ppid ht)
  | wakePlain hu => exact .inl (hupdate _ hu rfl rfl ht)
  | sleepPlain hu => exact .inl (hupdate _ hu rfl rfl ht)
  | exitOrphan hu => exact .inl (hupdate _ hu rfl rfl ht)
  | @sleepWait g m q c u ct hu _ _ _ _ hct _ _ hcp =>
    obtain ⟨v, hv, hvp, hvpp⟩ := hupdate { ct with waited := true } hct rfl rfl ht
    have hq : Function.update m c (some { ct with waited := true }) q = some u := by
      rw [Function.update_of_ne hcp.symm]; exact hu
    obtain ⟨w, hw, hwp, hwpp⟩ :=
      hupdate { u with state := .sleep, frames := .waitFree c :: u.frames } hq rfl rfl hv
    exact .inl ⟨w, hw, hwp.trans hvp, hwpp.trans hvpp⟩
  | @exitWaited g m q f u ft status hu hready _ _ _ hf hfs =>
    have hfq : f ≠ q := by
      rintro rfl
      obtain rfl := Option.some.inj (hu.symm.trans hf)
      exact (TaskInfo.place_eq_taskHeadp.1 hready).1 hfs
    obtain ⟨v, hv, hvp, hvpp⟩ :=
      hupdate { u with exitStatus := status, state := .zombie } hu rfl rfl ht
    have hf' : Function.update m q (some { u with exitStatus := status, state := .zombie }) f =
        some ft := by
      rw [Function.update_of_ne hfq]; exact hf
    obtain ⟨w, hw, hwp, hwpp⟩ := hupdate { ft with state := .active } hf' rfl rfl hv
    exact .inl ⟨w, hw, hwp.trans hvp, hwpp.trans hvpp⟩
  | @newTask g m q u hp hfresh =>
    have hpq : p ≠ q := by
      rintro rfl
      exact absurd (hfresh.symm.trans ht) (by simp)
    exact .inl ⟨t, (Function.update_of_ne hpq ..).trans ht, rfl, rfl⟩
  | @free g m q u hu hz ho =>
    by_cases hpq : p = q
    · subst hpq
      obtain rfl := Option.some.inj (hu.symm.trans ht)
      exact .inr ⟨hz, Function.update_self .., .inl ho⟩
    · exact .inl ⟨t, (Function.update_of_ne hpq ..).trans ht, rfl, rfl⟩
  | @collect g m q c u ct fs hu hready hframes hct =>
    obtain ⟨hmem, hcz, hqc⟩ := h.collects hu hready hframes hct
    by_cases hpc : p = c
    · subst hpc
      obtain rfl := Option.some.inj (hct.symm.trans ht)
      exact .inr ⟨hcz, update_update_first hqc.symm,
        .inr ⟨q, u, hu, hready, hmem, rfl, rfl⟩⟩
    · have ht' : Function.update m c none p = some t := (Function.update_of_ne hpc ..).trans ht
      exact .inl (hupdate (u := u) { u with frames := fs }
        ((Function.update_of_ne hqc ..).trans hu) rfl rfl ht')

/-- A task has an old pid or a new one. -/
theorem Trans.pid_old (htr : Trans i x y) (ht : y.2 p = some t) :
    x.1.pidCount ≤ t.pid ∨ ∃ u, x.2 p = some u ∧ u.pid = t.pid := by
  have hupdate : ∀ {m : ℕ → Option TaskInfo} {q : ℕ} {u u' v : TaskInfo}, m q = some u →
      Function.update m q (some u') p = some v → u'.pid = u.pid →
      ∃ w, m p = some w ∧ w.pid = v.pid := by
    intro m q u u' v hu hv hpid
    rcases update_eq_some.1 hv with ⟨rfl, rfl⟩ | ⟨-, hv⟩
    · exact ⟨u, hu, hpid.symm⟩
    · exact ⟨v, hv, rfl⟩
  have hremove : ∀ {m : ℕ → Option TaskInfo} {q : ℕ} {v : TaskInfo},
      Function.update m q none p = some v → m p = some v := by
    intro m q v hv
    rw [Function.update_apply] at hv
    split at hv
    · simp at hv
    · exact hv
  cases htr with
  | globals | noChild => exact .inr ⟨t, ht, rfl⟩
  | change hu hch => exact .inr (hupdate hu ht hch.pid)
  | wakePlain hu => exact .inr (hupdate hu ht rfl)
  | sleepPlain hu => exact .inr (hupdate hu ht rfl)
  | exitOrphan hu => exact .inr (hupdate hu ht rfl)
  | @sleepWait g m q c u ct hu _ _ _ _ hct _ _ hcp =>
    have hq : Function.update m c (some { ct with waited := true }) q = some u :=
      (Function.update_of_ne hcp.symm ..).trans hu
    obtain ⟨v, hv, hvp⟩ := hupdate hq ht rfl
    obtain ⟨w, hw, hwp⟩ := hupdate hct hv rfl
    exact .inr ⟨w, hw, hwp.trans hvp⟩
  | @exitWaited g m q f u ft status hu hready _ _ _ hf hfs =>
    have hfq : f ≠ q := by
      rintro rfl
      obtain rfl := Option.some.inj (hu.symm.trans hf)
      exact (TaskInfo.place_eq_taskHeadp.1 hready).1 hfs
    have hf' : Function.update m q (some { u with exitStatus := status, state := .zombie }) f =
        some ft := (Function.update_of_ne hfq ..).trans hf
    obtain ⟨v, hv, hvp⟩ := hupdate hf' ht rfl
    obtain ⟨w, hw, hwp⟩ := hupdate hu hv rfl
    exact .inr ⟨w, hw, hwp.trans hvp⟩
  | @newTask g m q u hp hfresh hpid =>
    rcases update_eq_some.1 ht with ⟨-, rfl⟩ | ⟨-, ht⟩
    · exact .inl hpid.ge
    · exact .inr ⟨t, ht, rfl⟩
  | free hu hz => exact .inr ⟨t, hremove ht, rfl⟩
  | @collect g m q c u ct fs hu hready hframes hct =>
    by_cases hqc : q = c
    · subst hqc
      rcases update_eq_some.1 ht with ⟨rfl, rfl⟩ | ⟨-, ht⟩
      · exact .inr ⟨u, hu, rfl⟩
      · exact .inr ⟨t, hremove ht, rfl⟩
    · have hq : Function.update m c none q = some u := (Function.update_of_ne hqc ..).trans hu
      obtain ⟨v, hv, hvp⟩ := hupdate hq ht rfl
      exact .inr ⟨v, hremove hv, hvp⟩

/-! ### The father and its child -/

/-- What `waitpid(k)` has returned to the task with pid `pp`, latest first. -/
def returned (log : List (ℤ × ℤ × ℤ)) (pp k : ℤ) : List ℤ :=
  log.filterMap fun e => if e.1 = pp ∧ e.2.1 = k then some e.2.2 else none

theorem returned_cons_self (log : List (ℤ × ℤ × ℤ)) (pp k r : ℤ) :
    returned ((pp, k, r) :: log) pp k = r :: returned log pp k := by
  simp [returned]

theorem returned_cons_of_ne {log : List (ℤ × ℤ × ℤ)} {pp pp' : ℤ} (h : pp' ≠ pp) (k k' r : ℤ) :
    returned ((pp', k', r) :: log) pp k = returned log pp k := by
  simp [returned, h]

/-- The first value that was returned stays the first one. -/
theorem getLast_returned_cons {log : List (ℤ × ℤ × ℤ)} {pp k r : ℤ}
    (h : (returned log pp k).getLast? = some r) (e : ℤ × ℤ × ℤ) :
    (returned (e :: log) pp k).getLast? = some r := by
  have hne : returned log pp k ≠ [] := by
    intro hnil
    rw [hnil] at h
    simp at h
  unfold returned at h hne ⊢
  rw [List.filterMap_cons]
  split
  · exact h
  · rw [List.getLast?_cons_of_ne_nil hne]
    exact h

/-- Behind a call of `waitpid(k)` by the task with pid `pp` for its child: the task waits, has
collected the child, or has exited. -/
inductive Track (pp k : ℤ) (x : Tasks) : Prop
  | waiting (p c : ℕ) (t ct : TaskInfo) (hlog : returned x.1.waitLog pp k = [])
      (ht : x.2 p = some t) (hpid : t.pid = pp) (hz : t.state ≠ .zombie)
      (hw : .waitFree c ∈ t.core) (hct : x.2 c = some ct) (hk : ct.pid = k)
  | collected (r : ℤ) (hlog : (returned x.1.waitLog pp k).getLast? = some r)
      (hexit : (k, r) ∈ x.1.exitLog) (hfreed : ∀ q u, x.2 q = some u → u.pid ≠ k)
      (hk : k < x.1.pidCount)
  | gone (r : ℤ) (hlog : returned x.1.waitLog pp k = []) (hexit : (pp, r) ∈ x.1.exitLog)

variable {pp k : ℤ}

/-- A line of the log comes from a task that is ready, and that does not wait or whose child is
freed. -/
theorem Trans.waitLog_cases (h : Proto i x.1 x.2) (htr : Trans i x y) :
    y.1.waitLog = x.1.waitLog ∨
    ∃ p t k r, x.2 p = some t ∧ t.place = .taskHeadp ∧ y.1.waitLog = (t.pid, k, r) :: x.1.waitLog ∧
      ((∀ c, .waitFree c ∉ t.core) ∨ ∃ c, .waitFree c ∈ t.core ∧ y.2 c = none) := by
  cases htr with
  | globals hn hc he hw => exact .inl hw
  | @noChild g m p t pid ht hready hout hnone =>
    exact .inr ⟨p, t, pid, -1, ht, hready, rfl, .inl hout⟩
  | @collect g m p c t ct fs ht hready hframes hct =>
    obtain ⟨hmem, -, hpc⟩ := h.collects ht hready hframes hct
    exact .inr ⟨p, t, ct.pid, ct.exitStatus, ht, hready, rfl, .inr ⟨c, hmem,
      update_update_first hpc.symm⟩⟩
  | _ => exact .inl rfl

/-- A task that has exited does not run any more. -/
theorem Proto.pid_ne_of_exited {g : Globals} {m : ℕ → Option TaskInfo} (h : Proto i g m)
    (ht : m p = some t) (hready : t.place = .taskHeadp) {r : ℤ} (hexit : (pp, r) ∈ g.exitLog) :
    t.pid ≠ pp := by
  rintro rfl
  exact ((h.each p t ht).alive (TaskInfo.place_eq_taskHeadp.1 hready).2).2 r hexit

theorem Track.gone_trans (h : Proto i x.1 x.2) (htr : Trans i x y) {r : ℤ}
    (hlog : returned x.1.waitLog pp k = []) (hexit : (pp, r) ∈ x.1.exitLog) : Track pp k y := by
  refine .gone r ?_ (htr.exitLog_mono hexit)
  rcases htr.waitLog_cases h with hw | ⟨p, t, k', r', ht, hready, hw, -⟩
  · rw [hw]; exact hlog
  · rw [hw, returned_cons_of_ne (h.pid_ne_of_exited ht hready hexit)]
    exact hlog

theorem Track.collected_trans (h : Proto i x.1 x.2) (htr : Trans i x y) {r : ℤ}
    (hlog : (returned x.1.waitLog pp k).getLast? = some r) (hexit : (k, r) ∈ x.1.exitLog)
    (hfreed : ∀ q u, x.2 q = some u → u.pid ≠ k) (hk : k < x.1.pidCount) : Track pp k y := by
  refine .collected r ?_ (htr.exitLog_mono hexit) (fun q u hu huk => ?_)
    (hk.trans_le htr.pidCount_le)
  · rcases htr.waitLog_cases h with hw | ⟨p, t, k', r', -, -, hw, -⟩
    · rw [hw]; exact hlog
    · rw [hw]; exact getLast_returned_cons hlog _
  · rcases htr.pid_old hu with hle | ⟨v, hv, hvp⟩
    · omega
    · exact hfreed q v hv (hvp.trans huk)

/-- A task that waits goes on waiting, unless it exits or collects its child. -/
theorem Trans.keeps_waiting (h : Proto i x.1 x.2) (htr : Trans i x y) {c : ℕ}
    (ht : x.2 p = some t) (hz : t.state ≠ .zombie) (hw : .waitFree c ∈ t.core) :
    (∃ t', y.2 p = some t' ∧ t'.pid = t.pid ∧ t'.state ≠ .zombie ∧ .waitFree c ∈ t'.core) ∨
    (∃ r, (t.pid, r) ∈ y.1.exitLog) ∨ y.2 c = none := by
  have hsame : ∀ {m : ℕ → Option TaskInfo}, m p = some t → ∃ t', m p = some t' ∧
      t'.pid = t.pid ∧ t'.state ≠ .zombie ∧ .waitFree c ∈ t'.core :=
    fun hm => ⟨t, hm, rfl, hz, hw⟩
  cases htr with
  | globals | noChild => exact .inl (hsame ht)
  | @change g m q u u' hu hch =>
    by_cases hpq : p = q
    · subst hpq
      obtain rfl := Option.some.inj (hu.symm.trans ht)
      exact .inl ⟨u', Function.update_self .., hch.pid, by rw [hch.state]; exact hz,
        (hch.wait c).2 hw⟩
    · exact .inl (hsame ((Function.update_of_ne hpq ..).trans ht))
  | @wakePlain g m q u hu hus hnw =>
    have hpq : p ≠ q := by
      rintro rfl
      obtain rfl := Option.some.inj (hu.symm.trans ht)
      exact hnw c hw
    exact .inl (hsame ((Function.update_of_ne hpq ..).trans ht))
  | @sleepPlain g m q u hu hready hcore =>
    have hpq : p ≠ q := by
      rintro rfl
      obtain rfl := Option.some.inj (hu.symm.trans ht)
      rcases hcore with hc | hc <;> simp [hc] at hw
    exact .inl (hsame ((Function.update_of_ne hpq ..).trans ht))
  | @sleepWait g m q d u dt hu _ _ _ hout hdt _ _ _ =>
    have hpq : p ≠ q := by
      rintro rfl
      obtain rfl := Option.some.inj (hu.symm.trans ht)
      rcases hout with hc | ⟨hc, -⟩ <;> simp [hc] at hw
    by_cases hpd : p = d
    · subst hpd
      obtain rfl := Option.some.inj (hdt.symm.trans ht)
      exact .inl ⟨_, update_update_first hpq, rfl, hz, hw⟩
    · exact .inl (hsame ((update_update_of_ne hpq hpd).trans ht))
  | @exitOrphan g m q u status hu =>
    by_cases hpq : p = q
    · subst hpq
      obtain rfl := Option.some.inj (hu.symm.trans ht)
      exact .inr (.inl ⟨status, List.mem_cons_self⟩)
    · exact .inl (hsame ((Function.update_of_ne hpq ..).trans ht))
  | @exitWaited g m q f u ft status hu _ _ _ _ hf =>
    by_cases hpq : p = q
    · subst hpq
      obtain rfl := Option.some.inj (hu.symm.trans ht)
      exact .inr (.inl ⟨status, List.mem_cons_self⟩)
    · by_cases hpf : p = f
      · subst hpf
        obtain rfl := Option.some.inj (hf.symm.trans ht)
        exact .inl ⟨_, Function.update_self .., rfl, by simp, hw⟩
      · exact .inl (hsame ((update_update_of_ne hpf hpq).trans ht))
  | @newTask g m q u hp hfresh =>
    have hpq : p ≠ q := by
      rintro rfl
      exact absurd (hfresh.symm.trans ht) (by simp)
    exact .inl (hsame ((Function.update_of_ne hpq ..).trans ht))
  | @free g m q u hu huz =>
    have hpq : p ≠ q := by
      rintro rfl
      obtain rfl := Option.some.inj (hu.symm.trans ht)
      exact hz huz
    exact .inl (hsame ((Function.update_of_ne hpq ..).trans ht))
  | @collect g m q d u dt fs hu hready hframes hdt =>
    obtain ⟨hmem, hdz, hqd⟩ := h.collects hu hready hframes hdt
    by_cases hpq : p = q
    · subst hpq
      obtain rfl := Option.some.inj (hu.symm.trans ht)
      obtain rfl := (h.core p u ht).wait_unique hw hmem
      exact .inr (.inr (update_update_first hqd.symm))
    · have hpd : p ≠ d := by
        rintro rfl
        obtain rfl := Option.some.inj (hdt.symm.trans ht)
        exact hz hdz
      exact .inl (hsame ((update_update_of_ne hpq hpd).trans ht))

/-- **The father is tracked** by every change. -/
theorem Track.trans (h : Proto i x.1 x.2) (htrack : Track pp k x) (htr : Trans i x y) :
    Track pp k y := by
  cases htrack with
  | gone r hlog hexit => exact Track.gone_trans h htr hlog hexit
  | collected r hlog hexit hfreed hk => exact Track.collected_trans h htr hlog hexit hfreed hk
  | waiting p c t ct hlog ht hpid hz hw hct hk =>
    obtain ⟨ct₀, hct₀, hpend⟩ := h.waiting.waits p t c ht hw hz
    obtain rfl := Option.some.inj (hct.symm.trans hct₀)
    rcases htr.persists h hct with ⟨ct', hct', hcp, -⟩ | ⟨hcz, hnone, hfree⟩
    · -- the child is still there: the father has not returned
      have hlog' : returned y.1.waitLog pp k = [] := by
        rcases htr.waitLog_cases h with hwl | ⟨q, u, k', r', hu, hready, hwl, hcase⟩
        · rw [hwl]; exact hlog
        · rw [hwl, returned_cons_of_ne ?_]
          · exact hlog
          · intro hup
            obtain rfl := h.pids.inj q p u t hu ht (hup.trans hpid.symm)
            obtain rfl := Option.some.inj (ht.symm.trans hu)
            rcases hcase with hno | ⟨d, hd, hdn⟩
            · exact hno c hw
            · obtain rfl := (h.core q t ht).wait_unique hw hd
              rw [hdn] at hct'
              simp at hct'
      rcases htr.keeps_waiting h ht hz hw with ⟨t', ht', htp, htz, htw⟩ | ⟨r, hr⟩ | hnone
      · exact .waiting p c t' ct' hlog' ht' (htp.trans hpid) htz htw hct' (hcp.trans hk)
      · exact .gone r hlog' (hpid ▸ hr)
      · rw [hnone] at hct'
        simp at hct'
    · have hns : t.state ≠ .sleep := fun hs => hpend.alive hs hcz
      rcases hfree with ho | ⟨q, u, hu, hready, hqc, hexit, hwl⟩
      · -- the cleaner frees orphans only
        rw [(hpend.dead hns).2] at ho
        simp at ho
      · -- only the father waits for the child
        obtain ⟨ct₁, hct₁, hpend'⟩ := h.waiting.waits q u c hu hqc
          (TaskInfo.place_eq_taskHeadp.1 hready).2
        obtain rfl := Option.some.inj (hct.symm.trans hct₁)
        obtain rfl := h.pids.inj q p u t hu ht (hpend'.ppid.symm.trans hpend.ppid)
        obtain rfl := Option.some.inj (ht.symm.trans hu)
        refine .collected ct.exitStatus ?_ ?_ (fun r v hv hvk => ?_) ?_
        · rw [hwl, hpid, hk, returned_cons_self, hlog]
          rfl
        · rw [hexit, ← hk]
          exact ((h.each c ct hct).dead hcz _).2 rfl
        · rcases htr.pid_old hv with hle | ⟨w, hw', hwp⟩
          · have := h.pids.range c ct hct
            omega
          · obtain rfl := h.pids.inj r c w ct hw' hct (by omega)
            rw [hnone] at hv
            simp at hv
        · have := (h.pids.range c ct hct).2
          exact (hk ▸ this).trans_le htr.pidCount_le

/-- A child of `pp` with pid `k` is there, or has exited. -/
def Kid (pp k : ℤ) (x : Tasks) : Prop :=
  (∃ c ct, x.2 c = some ct ∧ ct.pid = k ∧ ct.ppid = pp) ∨ ∃ r, (k, r) ∈ x.1.exitLog

theorem Kid.trans (h : Proto i x.1 x.2) (hkid : Kid pp k x) (htr : Trans i x y) : Kid pp k y := by
  rcases hkid with ⟨c, ct, hct, hk, hpp⟩ | ⟨r, hr⟩
  · rcases htr.persists h hct with ⟨ct', hct', hcp, hcpp⟩ | ⟨hcz, -, -⟩
    · exact .inl ⟨c, ct', hct', hcp.trans hk, hcpp.trans hpp⟩
    · exact .inr ⟨ct.exitStatus, htr.exitLog_mono (hk ▸ ((h.each c ct hct).dead hcz _).2 rfl)⟩
  · exact .inr ⟨r, htr.exitLog_mono hr⟩

namespace Kernel

variable {s s' : Kernel}

/-! ### Behind the sleep of `waitpid` -/

/-- The task at `p` is found on the list `l` along the `next` fields. -/
def OnList (s : Kernel) (l : ListId) (p : ℕ) : Prop :=
  ∃ xs, Linked 0 s.nextOf (s.head l) xs ∧ p ∈ xs

/-- The running task goes on behind the sleep of `waitpid`, where it looked up the task at `c`. -/
def Resumes (s : Kernel) (c : ℕ) : Prop :=
  ∃ t fs, s.info s.current = some t ∧ t.frames = .waitFree c :: fs

/-- The task at `c` is a zombie on `zombie_list`, and `waitpid` frees it; only the assertion that it
has an address space may still fail. -/
def Collectable (s : Kernel) (c : ℕ) : Prop :=
  ∃ ct, s.info c = some ct ∧ ct.state = .zombie ∧ s.OnList .zombieList c ∧
    Yields (s.waitpidReturn c) (fun s' => s'.info c = none)
      (fun e => e = .assertFail ∧ ct.mm = false)

theorem Good.collectable (h : Good i s) {c : ℕ} (hc : s.Resumes c) : s.Collectable c := by
  obtain ⟨t, fs, ht, hf⟩ := hc
  obtain ⟨ct, hct, hz, hyields⟩ := waitpidReturn_spec h ht hf
  obtain ⟨L, hL, hpl⟩ := h.listed
  exact ⟨ct, hct, hz, ⟨L .zombieList, hL.linked _,
    (hpl _ _).2 ⟨ct, hct, TaskInfo.place_eq_zombie.2 hz⟩⟩, hyields.mono fun s' hs' => hs'.2⟩

/-- **`waitpid` resumes for its own target** in every run in which `wait4` is called for children
of the caller, if it finds its target at all. -/
theorem waitpid_resumes_of_run {p₀ p₁ p₂ p₃ : ℕ} (h : [0, p₀, p₁, p₂, p₃].Nodup) {s₀ : Kernel}
    (hboot : bootKernel p₀ p₁ p₂ p₃ = .ok s₀) {as : List KAct}
    (hal : Along Kernel.step Fair s₀ as) :
    Yields (run Kernel.step s₀ as) (fun s => ∀ c, s.Resumes c → s.Collectable c)
      (fun e => e ≠ .dangling ∧ e ≠ .runaway) :=
  (good_of_run h hboot hal).mono fun _ hs _ hc => hs.collectable hc

theorem waitpid_resumes_of_run_forkWait : ∃ s₀ s, bootKernel 10 11 12 13 = .ok s₀ ∧
    run Kernel.step s₀ forkWaitActs = .ok s ∧ s.Resumes 14 ∧ s.Collectable 14 := by
  have hpages : [0, 10, 11, 12, 13].Nodup := by decide
  have hreach : reaches (run Kernel.step (started 10 11 12 13) forkWaitActs)
      (fun s => (s.info s.current).any fun t => t.frames == [.waitFree 14]) = true := by
    decide +kernel
  obtain ⟨s, hs, htest⟩ := exists_of_reaches hreach
  have hresumes : s.Resumes 14 := by
    obtain ⟨t, ht, hf⟩ := (Option.any_eq_true _ _).1 htest
    exact ⟨t, [], ht, by simpa using hf⟩
  exact ⟨_, s, bootKernel_eq hpages, hs, hresumes,
    (waitpid_resumes_of_run hpages (bootKernel_eq hpages) along_forkWaitActs).of_eq_ok hs 14
      hresumes⟩

/-- The init process forks two children and waits for the first; the first waits for the second,
which is not its child.  The exit of the second wakes up the init process. -/
def strangerActs : List KAct :=
  [.kernel 0 true, .kernel 0 true, .kernel 0 true, .kernel 0 true, .timer, .kernel 0 true,
    .kernel 0 true, .fork 14, .fork 15, .wait4 4, .kernel 0 true, .wait4 5, .kernel 0 true, .timer,
    .kernel 0 true, .exit 0, .kernel 0 true, .timer, .kernel 0 true]

/-- **`waitpid` of a task that is no child** wakes up its father too early: the task that the
father looked up still sleeps, and the assertion in `free_process` fails. -/
theorem waitpid_resumes_early : ∃ s₀ s ct, bootKernel 10 11 12 13 = .ok s₀ ∧
    run Kernel.step s₀ strangerActs = .ok s ∧ s.Resumes 14 ∧ s.info 14 = some ct ∧
    ct.state = .sleep ∧ s.step (.kernel 0 true) = .error .assertFail := by
  have hreach : reaches (run Kernel.step (started 10 11 12 13) strangerActs) (fun s =>
      ((s.info s.current).any fun t => t.frames == [.waitFree 14]) &&
      ((s.info 14).any fun t => t.state == .sleep) &&
      match s.step (.kernel 0 true) with
      | .error .assertFail => true
      | _ => false) = true := by
    decide +kernel
  obtain ⟨s, hs, htest⟩ := exists_of_reaches hreach
  simp only [Bool.and_eq_true] at htest
  obtain ⟨⟨hcur, h14⟩, hstop⟩ := htest
  obtain ⟨t, ht, hf⟩ := (Option.any_eq_true _ _).1 hcur
  obtain ⟨ct, hct, hsleep⟩ := (Option.any_eq_true _ _).1 h14
  refine ⟨_, s, ct, bootKernel_eq (by decide), hs, ⟨t, [], ht, by simpa using hf⟩, hct,
    by simpa using hsleep, ?_⟩
  split at hstop
  · assumption
  · simp at hstop

/-! ### The status of a child -/

/-- What a state behind the call `waitpid(k)` of the task with pid `pp` owes to it. -/
structure Served (pp k : ℤ) (s : Kernel) : Prop where
  /-- The call has returned what the child passed to `exit`, and the child is reclaimed. -/
  status : ∀ r, (returned s.waitLog pp k).getLast? = some r →
    (k, r) ∈ s.exitLog ∧ ∀ q u, s.info q = some u → u.pid ≠ k
  /-- If it has not returned though the child has exited, the caller is ready to collect the
  status, unless it was killed. -/
  awake : returned s.waitLog pp k = [] → ∀ r, (k, r) ∈ s.exitLog → (∀ r', (pp, r') ∉ s.exitLog) →
    ∃ p t c ct, s.info p = some t ∧ t.pid = pp ∧ t.place = .taskHeadp ∧ .waitFree c ∈ t.core ∧
      s.info c = some ct ∧ ct.pid = k ∧ ct.exitStatus = r

/-- The call `waitpid(k)`, by `wait4`, of the running process with pid `pp` does not return on the spot, and
serves the caller in every state of every run that follows in which nobody waits for a stranger. -/
def WaitReturns (s : Kernel) (pp k : ℤ) : Prop :=
  (∀ s', s.step (.wait4 k) = .ok s' → returned s'.waitLog pp k = []) ∧
  ∀ as s', Along Kernel.step Own s (.wait4 k :: as) → run Kernel.step s (.wait4 k :: as) = .ok s' →
    Served pp k s'

theorem Good.served (h : Good i s) (htrack : Track pp k s.abs) : Served pp k s := by
  cases htrack with
  | gone r hlog hexit =>
    have hlog' : returned s.waitLog pp k = [] := hlog
    exact ⟨fun r' hr' => by simp [hlog'] at hr', fun _ r' _ hun => absurd hexit (hun r)⟩
  | collected r hlog hexit hfreed hk =>
    have hlog' : (returned s.waitLog pp k).getLast? = some r := hlog
    refine ⟨fun r' hr' => ?_, fun hnil => by simp [hnil] at hlog'⟩
    obtain rfl := Option.some.inj (hlog'.symm.trans hr')
    exact ⟨hexit, hfreed⟩
  | waiting p c t ct hlog ht hpid hz hw hct hk =>
    have hlog' : returned s.waitLog pp k = [] := hlog
    refine ⟨fun r' hr' => by simp [hlog'] at hr', fun _ r hr _ => ?_⟩
    obtain ⟨ct₀, hct₀, hpend⟩ := h.proto.waiting.waits p t c ht hw hz
    obtain rfl := Option.some.inj (hct.symm.trans hct₀)
    -- the child has exited, so the father was woken up
    have hl := h.proto.each c ct hct
    have hcz : ct.state = .zombie := by
      by_contra hne
      exact (hl.alive hne).2 r (hk ▸ hr)
    refine ⟨p, t, c, ct, ht, hpid, TaskInfo.place_eq_taskHeadp.2 ⟨fun hs => hpend.alive hs hcz, hz⟩,
      hw, hct, hk, ?_⟩
    exact ((hl.dead hcz r).1 (hk ▸ hr)).symm

/-- Behind `waitpid` of a child that is alive, the father is tracked. -/
theorem waitpid_alive (h : Good i s) (ht : s.info s.current = some t) (hf : t.frames = [])
    (hmm : t.mm = true) {c : ℕ} {ct : TaskInfo} (hct : s.info c = some ct)
    (hcz : ct.state ≠ .zombie) (hppid : ct.ppid = t.pid)
    (hfirst : returned s.waitLog t.pid ct.pid = []) :
    ∃ s', s.waitpid ct.pid = .ok s' ∧ Good i s' ∧ s'.waitLog = s.waitLog ∧
      Track t.pid ct.pid s'.abs := by
  have hready : t.place = .taskHeadp := h.ready ht fun fs => by simp [hf]
  have hl := h.proto.each _ t ht
  have hlt := hl.father (hl.user hmm)
  obtain ⟨hi, hcl⟩ := Proto.ne_threads h.proto ht hmm
  have hne : c ≠ s.current := by
    rintro rfl
    obtain rfl := Option.some.inj (ht.symm.trans hct)
    omega
  obtain ⟨s', hs', hnext, hlog, hc', ht'⟩ := sleepWait_ok h.toSound ht hready hi hcl
    (.inl (by simp [TaskInfo.core, hf])) hct hcz hppid hne
  refine ⟨s', ?_, hnext.1, hlog, .waiting s.current c _ _ ?_ ht' rfl (by simp) ?_ hc' rfl⟩
  · unfold waitpid
    rw [get_of_info (h.proto.pids.ne_zero ht) ht, ok_bind]
    rcases findAlive_spec h.toSound ct.pid with ⟨-, hall⟩ | ⟨d, dt, hsome, hdt, hdp, -⟩
    · exact absurd (hall c ct hct rfl) hcz
    · obtain rfl := h.proto.pids.inj d c dt ct hdt hct hdp
      rw [hsome, ok_bind]
      exact hs'
  · show returned s'.waitLog t.pid ct.pid = []
    rw [hlog]; exact hfirst
  · simp [TaskInfo.core]

theorem step_wait4 (hp : s.current ≠ 0) (ht : s.info s.current = some t) (hf : t.frames = [])
    (hmm : t.mm = true) (k : ℤ) : s.step (.wait4 k) = s.waitpid k := by
  unfold Kernel.step
  rw [get_of_info hp ht, ok_bind]
  simp only [hf, hmm, if_true]
  rfl

/-- A fork that goes through creates a child. -/
theorem Good.kid_of_fork (h : Good i s) {page : ℕ} (hfair : s.Fair (.fork page))
    (hu : s.info s.current = some t) (hfork : s.step (.fork page) = .ok s') :
    Kid t.pid s.pidCount s'.abs := by
  unfold Kernel.step at hfork
  rw [get_of_info (h.proto.pids.ne_zero hu) hu, ok_bind] at hfork
  by_cases hf : t.frames = []
  · simp only [hf] at hfork
    split at hfork
    · have hready : t.place = .taskHeadp := h.ready hu fun fs => by simp [hf]
      obtain ⟨-, ct, hct, hcp, hcpp⟩ :=
        (fork_spec h.toSound (hfair.2 trivial) hu hready page).of_eq_ok hfork
      exact .inl ⟨page, ct, hct, hcp, hcpp⟩
    · simp at hfork
  · obtain ⟨f, fs, hcons⟩ := List.exists_cons_of_ne_nil hf
    simp only [hcons] at hfork
    simp at hfork

/-- What a run leaves of the invariant and of a property that the protocol keeps. -/
theorem Good.run {P : Tasks → Prop} (hP : ∀ {x y}, Proto i x.1 x.2 → P x → Trans i x y → P y)
    (h : Good i s) (hs : P s.abs) {as : List KAct} (hal : Along Kernel.step Fair s as)
    (hrun : PlumOs.run Kernel.step s as = .ok s') : Good i s' ∧ P s'.abs := by
  refine run_invariant (I := fun s => Good i s ∧ P s.abs) ⟨h, hs⟩ ?_ hal hrun
  rintro s a s' ⟨hgood, hp⟩ hfair hstep
  obtain ⟨hgood', href⟩ := (hgood.step hfair.1 hfair.2).of_eq_ok hstep
  refine ⟨hgood', ?_⟩
  have htr := href.trans
  generalize s'.abs = y at htr
  induction htr with
  | refl => exact hp
  | tail hsteps hstep ih => exact hP (hgood.proto.transs hsteps) ih hstep

/-- **`waitpid` returns the status of a child** that the caller forked, the first time it waits for
it, if and only if the child has not exited yet; in runs in which every call names a child of its
caller.  The result is that of the kernel's own `waitpid`: `wait`, the system call `wait4`, drops it and
returns 0 to the user. -/
theorem wait4_returns_iff {p₀ p₁ p₂ p₃ : ℕ} (h : [0, p₀, p₁, p₂, p₃].Nodup)
    {s₀ s₁ s₂ s₃ : Kernel} (hboot : bootKernel p₀ p₁ p₂ p₃ = .ok s₀) {as₁ as₂ : List KAct}
    {page : ℕ} {u t : TaskInfo} (hown₁ : Along Kernel.step Own s₀ as₁)
    (hrun₁ : PlumOs.run Kernel.step s₀ as₁ = .ok s₁) (hu : s₁.info s₁.current = some u)
    (hfork : s₁.step (.fork page) = .ok s₂)
    (hown₂ : Along Kernel.step Own s₂ as₂) (hrun₂ : PlumOs.run Kernel.step s₂ as₂ = .ok s₃)
    (ht : s₃.info s₃.current = some t) (hpid : t.pid = u.pid) (hmm : t.mm = true)
    (hframes : t.frames = []) (hfirst : returned s₃.waitLog u.pid s₁.pidCount = []) :
    s₃.WaitReturns u.pid s₁.pidCount ↔ ∀ r, (s₁.pidCount, r) ∉ s₃.exitLog := by
  have hnumbered₀ := booted_numbered h hboot
  have hgood₁ := (good_of_run h hboot (along_fair_of_own hnumbered₀ hown₁)).of_eq_ok hrun₁
  have hnumbered₁ := hnumbered₀.run hrun₁
  have hfair : s₁.Fair (.fork page) := ⟨trivial, hnumbered₁.pidRoom _⟩
  have hgood₂ := ((hgood₁.step hfair.1 hfair.2).of_eq_ok hfork).1
  have hnumbered₂ := numbered_step hnumbered₁ hfork
  have hal₂ := along_fair_of_own hnumbered₂ hown₂
  obtain ⟨hgood, hkid⟩ := hgood₂.run (fun hp hk htr => Kid.trans hp hk htr)
    (hgood₁.kid_of_fork hfair hu hfork) hal₂ hrun₂
  have hstep := step_wait4 (hgood.proto.pids.ne_zero ht) ht hframes hmm s₁.pidCount
  rw [← hpid] at hkid hfirst ⊢
  constructor
  · -- a child that has exited is not found, and the call returns at once
    rintro ⟨hspot, -⟩ r hr
    have hdead : ∀ q v, s₃.info q = some v → v.pid = s₁.pidCount → v.state = .zombie := by
      intro q v hv hvk
      by_contra hne
      exact ((hgood.proto.each q v hv).alive hne).2 r (hvk ▸ hr)
    rcases findAlive_spec hgood.toSound s₁.pidCount with ⟨hnone, -⟩ | ⟨c, ct, -, hct, hck, hcz⟩
    · have hwait : s₃.waitpid s₁.pidCount =
          .ok { s₃ with waitLog := (t.pid, s₁.pidCount, -1) :: s₃.waitLog } := by
        unfold waitpid
        rw [get_of_info (hgood.proto.pids.ne_zero ht) ht, ok_bind, hnone, ok_bind]
        rfl
      have := hspot _ (hstep.trans hwait)
      rw [returned_cons_self] at this
      simp at this
    · exact hcz (hdead c ct hct hck)
  · intro halive
    obtain ⟨c, ct, hct, hck, hcpp⟩ : ∃ c ct, s₃.info c = some ct ∧ ct.pid = s₁.pidCount ∧
        ct.ppid = t.pid := by
      rcases hkid with hkid | ⟨r, hr⟩
      · exact hkid
      · exact absurd hr (halive r)
    have hcz : ct.state ≠ .zombie := fun hz =>
      halive _ (hck ▸ ((hgood.proto.each c ct hct).dead hz _).2 rfl)
    rw [← hck] at hfirst hstep ⊢
    obtain ⟨s₄, hwait, hgood₄, hlog, htrack⟩ :=
      waitpid_alive hgood ht hframes hmm hct hcz hcpp hfirst
    refine ⟨fun s' hs' => ?_, fun as s' hal hrun => ?_⟩
    · obtain rfl := Except.ok.inj ((hstep.trans hwait).symm.trans hs')
      rw [hlog]; exact hfirst
    · have hs₄ := hstep.trans hwait
      have hnumbered₄ := numbered_step (hnumbered₂.run hrun₂) hs₄
      rw [run_cons_ok hs₄] at hrun
      obtain ⟨hgood', htrack'⟩ := hgood₄.run (fun hp hk htr => Track.trans hp hk htr) htrack
        (along_fair_of_own hnumbered₄ (hal.2 s₄ hs₄)) hrun
      exact hgood'.served htrack'

/-- The init process is about to run. -/
def initActs : List KAct :=
  [.kernel 0 true, .kernel 0 true, .kernel 0 true, .kernel 0 true, .timer, .kernel 0 true,
    .kernel 0 true]

theorem wait4_returns_iff_fork : ∃ s₀ s, bootKernel 10 11 12 13 = .ok s₀ ∧
    PlumOs.run Kernel.step s₀ (initActs ++ [.fork 14]) = .ok s ∧ s.WaitReturns 3 4 := by
  have hpages : [0, 10, 11, 12, 13].Nodup := by decide
  have hboot := bootKernel_eq hpages
  have hreach : reaches (PlumOs.run Kernel.step (started 10 11 12 13) initActs) (fun s =>
      s.pidCount == 4 && ((s.info s.current).any fun t => t.pid == 3) &&
      reaches (s.step (.fork 14)) fun s => s.waitLog.isEmpty && s.exitLog.isEmpty &&
        (s.info s.current).any fun t => t.pid == 3 && t.mm && t.frames == []) = true := by
    decide +kernel
  have hal : Along Kernel.step Own (started 10 11 12 13) initActs :=
    (along_fair (good_started hpages) (by decide +kernel)).mono fun _ _ => And.left
  obtain ⟨s₁, hs₁, htest⟩ := exists_of_reaches hreach
  simp only [Bool.and_eq_true] at htest
  obtain ⟨⟨hk, hcur⟩, hfork⟩ := htest
  obtain ⟨s₂, hs₂, htest₂⟩ := exists_of_reaches hfork
  simp only [Bool.and_eq_true, List.isEmpty_iff] at htest₂
  obtain ⟨⟨hwlog, helog⟩, hcur₂⟩ := htest₂
  obtain ⟨u, hu, hup⟩ := (Option.any_eq_true _ _).1 hcur
  obtain ⟨t, ht, htt⟩ := (Option.any_eq_true _ _).1 hcur₂
  simp only [Bool.and_eq_true, beq_iff_eq] at htt hup hk
  obtain ⟨⟨htp, hmm⟩, hframes⟩ := htt
  have hal₂ : Along Kernel.step Own s₂ [] := trivial
  have hiff := wait4_returns_iff hpages hboot hal hs₁ hu hs₂ hal₂ rfl ht
    (htp.trans hup.symm) hmm hframes (by rw [hwlog]; rfl)
  rw [hup, hk, helog] at hiff
  refine ⟨_, s₂, hboot, ?_, hiff.2 (by simp)⟩
  rw [run_append_ok hs₁, run_cons_ok hs₂, run_nil]

/-- The init process forks a child, which exits with status 7 before its father waits for it. -/
def lateWaitActs : List KAct :=
  initActs ++ [.fork 14, .timer, .kernel 0 true, .timer, .kernel 0 true, .exit 7, .kernel 0 true,
    .timer, .kernel 0 true, .wait4 4]

/-- **The status of a child that exits first is lost**: `wait4` returns -1, and the child stays a
zombie. -/
theorem wait4_returns_early : ∃ s₀ s ct, bootKernel 10 11 12 13 = .ok s₀ ∧
    Along Kernel.step Own s₀ lateWaitActs ∧ PlumOs.run Kernel.step s₀ lateWaitActs = .ok s ∧
    s.exitLog = [(4, 7)] ∧ s.waitLog = [(3, 4, -1)] ∧ s.info 14 = some ct ∧ ct.pid = 4 ∧
    ct.ppid = 3 ∧ ct.state = .zombie := by
  have hreach : reaches (PlumOs.run Kernel.step (started 10 11 12 13) lateWaitActs) (fun s =>
      s.exitLog == [(4, 7)] && s.waitLog == [(3, 4, -1)] &&
      (s.info 14).any fun t => t.pid == 4 && t.ppid == 3 && t.state == .zombie) = true := by
    decide +kernel
  have hpages : [0, 10, 11, 12, 13].Nodup := by decide
  obtain ⟨s, hs, htest⟩ := exists_of_reaches hreach
  simp only [Bool.and_eq_true, beq_iff_eq] at htest
  obtain ⟨⟨helog, hwlog⟩, h14⟩ := htest
  obtain ⟨ct, hct, hctt⟩ := (Option.any_eq_true _ _).1 h14
  simp only [Bool.and_eq_true, beq_iff_eq] at hctt
  exact ⟨_, s, ct, bootKernel_eq hpages,
    (along_fair (good_started hpages) (by decide +kernel)).mono fun _ _ => And.left, hs, helog, hwlog,
    hct, hctt.1.1, hctt.1.2, hctt.2⟩

end Kernel

end PlumOs
