import PlumOs.Proc.TaskInv

/-!
# Moves between the lists refine the protocol

* `Listed` : every task is on the list its fields say, and on no other;
* `Refines` : the lists are in order, and the tasks have changed by steps of the protocol;
* `Good` : the invariant of the machine;
* `wakeup_ok`, `sleep_ok`, `exitSt_spec` : what these functions do to a state in order.
-/

namespace PlumOs

namespace Kernel

/-- Every task is on the list its fields say. -/
def Placed (m : ℕ → Option TaskInfo) (L : ListId → List ℕ) : Prop :=
  ∀ l p, p ∈ L l ↔ ∃ t, m p = some t ∧ t.place = l

/-- The four lists hold every task where it belongs. -/
def Listed (s : Kernel) : Prop := ∃ L, s.Lists L ∧ Placed s.info L

/-- The invariant in the middle of a kernel function. -/
structure Sound (i : ℕ) (s : Kernel) : Prop where
  listed : s.Listed
  proto : Proto i s.toGlobals s.info
  current : ∃ t, s.info s.current = some t

/-- The invariant of the machine: a task that runs without being ready is on its way out. -/
structure Good (i : ℕ) (s : Kernel) : Prop extends Sound i s where
  running : ∀ t, s.info s.current = some t → t.place ≠ .taskHeadp →
    ∃ fs, t.frames = .schedule :: fs

/-- A stop that is the kernel's own. -/
def Honest (e : Halt) : Prop := e ≠ .dangling ∧ e ≠ .runaway

variable {i p : ℕ} {s s' : Kernel} {L : ListId → List ℕ} {m m' : ℕ → Option TaskInfo}
  {t t' : TaskInfo} {l l' : ListId}

/-! ### Moves between lists -/

/-- The lists after the move of `p` from `l` to `l'`. -/
def moved (L : ListId → List ℕ) (l l' : ListId) (p : ℕ) : ListId → List ℕ :=
  Function.update (Function.update L l ((L l).erase p)) l' (p :: L l')

theorem Placed.move (h : Placed m L) (hnd : (L l).Nodup) (ht : m p = some t) (hpl : t.place = l)
    (hpl' : t'.place = l') (hne : l ≠ l') :
    Placed (Function.update m p (some t')) (moved L l l' p) := by
  intro k q
  have hother : q ≠ p → (q ∈ L k ↔ ∃ u, Function.update m p (some t') q = some u ∧ u.place = k) := by
    intro hq
    rw [Function.update_of_ne hq]
    exact h k q
  have hself : (∃ u, Function.update m p (some t') p = some u ∧ u.place = k) ↔ k = l' := by
    rw [Function.update_self]
    constructor
    · rintro ⟨u, hu, huk⟩
      rw [← huk, ← Option.some.inj hu, hpl']
    · rintro rfl
      exact ⟨t', rfl, hpl'⟩
  unfold moved
  by_cases hk' : k = l'
  · subst hk'
    rw [Function.update_self, List.mem_cons]
    by_cases hq : q = p
    · subst hq; rw [hself]; simp
    · rw [← hother hq]; simp [hq]
  · rw [Function.update_of_ne hk']
    by_cases hk : k = l
    · subst hk
      rw [Function.update_self, hnd.mem_erase_iff]
      by_cases hq : q = p
      · subst hq; rw [hself]; simp [hk']
      · rw [← hother hq]; simp [hq]
    · rw [Function.update_of_ne hk]
      by_cases hq : q = p
      · subst hq
        rw [hself, h k q]
        constructor
        · rintro ⟨u, hu, huk⟩
          rw [ht, Option.some.injEq] at hu
          exact absurd (by rw [← huk, ← hu, hpl]) hk
        · exact fun h => absurd h hk'
      · exact hother hq

theorem move_ok (h : Lists s L) (hmem : p ∈ L l) (hne : l ≠ l') :
    ∃ s₁ s₂, s.removeFromTasklist l p = .ok s₁ ∧ s₁.addToTasklist l' p = .ok s₂ ∧
      s.SameInfo s₁ ∧ s.SameInfo s₂ ∧ Lists s₂ (moved L l l' p) := by
  obtain ⟨s₁, h₁, hsame₁, hL₁⟩ := removeFromTasklist_ok h hmem
  obtain ⟨t, ht⟩ := h.alloc l p hmem
  have hfree : ∀ k, p ∉ Function.update L l ((L l).erase p) k := by
    intro k hk
    rw [Function.update_apply] at hk
    split at hk
    · exact ((h.linked l).nodup.mem_erase_iff.1 hk).1 rfl
    · next hkl => exact hkl (h.disjoint k l p hk hmem)
  have hmade : s₁.made = s.made := congrArg Globals.made hsame₁.1
  -- the task that was taken off leaves room for one
  have hroom : total (Function.update L l ((L l).erase p)) < s.made := by
    have htotal := total_update L l ((L l).erase p)
    have hlength := List.length_erase_of_mem hmem
    have hpos := List.length_pos_of_mem hmem
    have hfew := h.few
    omega
  obtain ⟨s₂, h₂, hsame₂, hL₂⟩ := addToTasklist_ok (l := l') hL₁ (h.ne_zero hmem)
    (by rw [hsame₁.2]; exact ht) hfree (by rw [hmade]; exact hroom)
  rw [Function.update_of_ne hne.symm] at hL₂
  exact ⟨s₁, s₂, h₁, h₂, hsame₁, hsame₁.trans hsame₂, hL₂⟩

/-- A task whose fields say that it belongs elsewhere is moved there. -/
theorem relocate (h : Lists s L) (hpl : Placed m L) (ht : m p = some t)
    (hm : s.info = Function.update m p (some t')) (htl : t.place = l)
    (htl' : t'.place = l') (hne : l ≠ l') :
    ∃ s₁ s₂, s.removeFromTasklist l p = .ok s₁ ∧ s₁.addToTasklist l' p = .ok s₂ ∧
      s.SameInfo s₁ ∧ s.SameInfo s₂ ∧ Lists s₂ (moved L l l' p) ∧ Placed s₂.info (moved L l l' p) := by
  obtain ⟨s₁, s₂, h₁, h₂, hsame₁, hsame₂, hL⟩ :=
    move_ok h ((hpl l p).2 ⟨t, ht, htl⟩) hne
  refine ⟨s₁, s₂, h₁, h₂, hsame₁, hsame₂, hL, ?_⟩
  rw [hsame₂.2, hm]
  exact hpl.move (h.linked l).nodup ht htl htl' hne

/-- An assignment that leaves a task where it is. -/
theorem Listed.assign (h : s.Listed) (ht : s.info p = some t) (hpl : t'.place = t.place) :
    (s.assign p t').Listed := by
  obtain ⟨L, hL, hplaced⟩ := h
  refine ⟨L, hL.assign, fun k q => ?_⟩
  rw [assign_info, hplaced k q]
  by_cases hq : q = p
  · subst hq
    rw [Function.update_self, ht]
    constructor
    · rintro ⟨u, hu, huk⟩
      rw [Option.some.injEq] at hu
      exact ⟨t', rfl, by rw [hpl, hu]; exact huk⟩
    · rintro ⟨u, hu, huk⟩
      rw [Option.some.injEq] at hu
      exact ⟨t, rfl, by rw [← hpl, hu]; exact huk⟩
  · rw [Function.update_of_ne hq]

theorem Pids.ne_zero {n : ℤ} (h : Pids n m) (ht : m p = some t) : p ≠ 0 := by
  rintro rfl
  rw [h.null] at ht
  simp at ht

/-- `wakeup(list, ts, 1)` moves a task on the list to `task_headp`. -/
theorem wakeup_moves (hL : s.Lists L) (hpl : Placed s.info L) (hp : Pids s.pidCount s.info)
    (ht : s.info p = some t) (htl : t.place = l) (hl : l ≠ .taskHeadp) :
    ∃ s', s.wakeup l p = .ok s' ∧ s'.toGlobals = s.toGlobals ∧
      s'.info = Function.update s.info p (some { t with state := .active }) ∧
      s'.Lists (moved L l .taskHeadp p) ∧ Placed s'.info (moved L l .taskHeadp p) := by
  have hp0 := hp.ne_zero ht
  have hready : ({ t with state := .active } : TaskInfo).place = .taskHeadp := rfl
  obtain ⟨s₁, s₂, h₁, h₂, hsame₁, hsame₂, hL₂, hpl₂⟩ := relocate
    (s := s.assign p { t with state := .active }) hL.assign hpl ht assign_info htl hready hl
  refine ⟨s₂, ?_, hsame₂.1, hsame₂.2.trans assign_info, hL₂, hpl₂⟩
  simp only [wakeup, moveActive, if_neg hp0, modify_ok hp0 ht, ok_bind, h₁, h₂]

/-- **`wakeup(list, ts, 1)`** of a task on the list. -/
theorem wakeup_ok (h : s.Listed) (hp : Pids s.pidCount s.info) (ht : s.info p = some t)
    (htl : t.place = l) (hl : l ≠ .taskHeadp) :
    ∃ s', s.wakeup l p = .ok s' ∧ s'.toGlobals = s.toGlobals ∧
      s'.info = Function.update s.info p (some { t with state := .active }) ∧ s'.Listed := by
  obtain ⟨L, hL, hpl⟩ := h
  obtain ⟨s', hwake, hg, hm, hL', hpl'⟩ := wakeup_moves hL hpl hp ht htl hl
  exact ⟨s', hwake, hg, hm, _, hL', hpl'⟩

/-- **`wakeup(list, ts, 1)`** of a task that is not on the list follows the null pointer. -/
theorem wakeup_null (h : s.Listed) (hp : Pids s.pidCount s.info) (ht : s.info p = some t)
    (htl : t.place ≠ l) : s.wakeup l p = .error .nullDeref := by
  obtain ⟨L, hL, hpl⟩ := h
  have hp0 := hp.ne_zero ht
  have hL' : Lists (s.assign p { t with state := .active }) L := hL.assign
  have hnot : p ∉ L l := by
    intro hmem
    obtain ⟨u, hu, hul⟩ := (hpl l p).1 hmem
    rw [ht, Option.some.injEq] at hu
    exact htl (hu ▸ hul)
  have hrem := removeFromTasklist_null hL' hp0 hnot
  simp only [wakeup, moveActive, if_neg hp0, modify_ok hp0 ht, ok_bind, hrem]
  rfl

/-- **`sleep(list)`** of the running task. -/
theorem sleep_ok (h : s.Listed) (hp : Pids s.pidCount s.info) (ht : s.info s.current = some t)
    (hta : t.place = .taskHeadp)
    (htl : ({ t with state := .sleep } : TaskInfo).place = l) :
    ∃ s', s.sleep l = .ok s' ∧ s'.toGlobals = s.toGlobals ∧ s'.info = Function.update s.info
      s.current (some { t with state := .sleep, frames := .schedule :: t.frames }) ∧
      s'.Listed := by
  obtain ⟨L, hL, hpl⟩ := h
  have hp0 := hp.ne_zero ht
  have hne : ListId.taskHeadp ≠ l := by
    rintro rfl
    exact (TaskInfo.place_eq_taskHeadp.1 htl).1 rfl
  obtain ⟨s₁, s₂, h₁, h₂, hsame₁, hsame₂, hlists⟩ :=
    move_ok hL ((hpl _ _).2 ⟨t, ht, hta⟩) hne
  have hc₁ : s₁.current = s.current := congrArg Globals.current hsame₁.1
  have hc₂ : s₂.current = s.current := congrArg Globals.current hsame₂.1
  have ht₂ : s₂.info s.current = some t := by rw [hsame₂.2]; exact ht
  set u : TaskInfo := { t with state := .sleep } with hu
  have ht₃ : (s₂.assign s.current u).info s.current = some u := by
    rw [assign_info, Function.update_self]
  refine ⟨(s₂.assign s.current u).assign s.current { u with frames := .schedule :: u.frames }, ?_,
    hsame₂.1, ?_, ?_⟩
  · have hc₃ : (s₂.assign s.current u).current = s.current := hc₂
    simp only [sleep, h₁, ok_bind, hc₁, h₂, hc₂, modify_ok hp0 ht₂, pushFrame, ← hu]
    rw [hc₃, modify_ok hp0 ht₃]
  · rw [assign_info, assign_info, Function.update_idem, hsame₂.2]
  · have hplaced : (s₂.assign s.current u).Listed := by
      refine ⟨moved L .taskHeadp l s.current, hlists.assign, ?_⟩
      rw [assign_info, hsame₂.2]
      exact hpl.move (hL.linked _).nodup ht hta htl hne
    refine hplaced.assign ht₃ ?_
    unfold TaskInfo.place TaskInfo.core
    simp

/-! ### Refinement of the protocol -/

/-- The state without its lists. -/
def abs (s : Kernel) : Tasks := (s.toGlobals, s.info)

/-- The lists are in order again, and the tasks have changed by steps of the protocol. -/
structure Refines (i : ℕ) (s s' : Kernel) : Prop where
  listed : s'.Listed
  trans : Relation.ReflTransGen (Trans i) s.abs s'.abs

theorem Refines.comp {s'' : Kernel} (h : Refines i s s') (h' : Refines i s' s'') :
    Refines i s s'' :=
  ⟨h'.listed, h.trans.trans h'.trans⟩

theorem Refines.single {m' : ℕ → Option TaskInfo} {g' : Globals} (hlisted : s'.Listed)
    (hg : s'.toGlobals = g') (hm : s'.info = m') (htr : Trans i s.abs (g', m')) :
    Refines i s s' := by
  subst hg hm
  exact ⟨hlisted, .single htr⟩

theorem Sound.proto_of_refines (h : Sound i s) (hr : Refines i s s') :
    Proto i s'.toGlobals s'.info :=
  h.proto.transs hr.trans

/-- A change of fields of one task. -/
theorem Sound.assign (h : Sound i s) (ht : s.info p = some t)
    (hch : Change i s.toGlobals s.info p t t') :
    Sound i (s.assign p t') ∧ Refines i s (s.assign p t') := by
  have href : Refines i s (s.assign p t') :=
    .single (h.listed.assign ht hch.place) rfl assign_info (.change ht hch)
  refine ⟨⟨href.listed, h.proto_of_refines href, ?_⟩, href⟩
  show ∃ u, (s.assign p t').info s.current = some u
  rw [assign_info, Function.update_apply]
  split
  · exact ⟨t', rfl⟩
  · exact h.current

/-- A call of `schedule` on the stack of the running task. -/
theorem Sound.pushSchedule (h : Sound i s) : ∃ s', s.pushFrame .schedule = .ok s' ∧ Good i s' ∧
    Refines i s s' ∧ s'.toGlobals = s.toGlobals := by
  obtain ⟨t, ht⟩ := h.current
  have hp0 := h.proto.pids.ne_zero ht
  obtain ⟨hS, hR⟩ := h.assign ht (h.proto.pushSchedule ht)
  refine ⟨_, modify_ok hp0 ht _, ⟨hS, fun u hu _ => ?_⟩, hR, rfl⟩
  have hu' : (s.assign s.current { t with frames := .schedule :: t.frames }).info s.current =
      some u := hu
  rw [assign_info, Function.update_self, Option.some.injEq] at hu'
  exact ⟨t.frames, by rw [← hu']⟩

/-- Every task is still there. -/
def Keeps (m m' : ℕ → Option TaskInfo) : Prop :=
  ∀ q, (∃ u, m q = some u) → ∃ u, m' q = some u

theorem Keeps.update (h : Keeps m m') : Keeps m (Function.update m' p (some t)) := by
  intro q hq
  rw [Function.update_apply]
  split
  · exact ⟨t, rfl⟩
  · exact h q hq

theorem Keeps.refl : Keeps m m := fun _ => id

theorem Keeps.trans {m'' : ℕ → Option TaskInfo} (h : Keeps m m') (h' : Keeps m' m'') :
    Keeps m m'' :=
  fun q hq => h' q (h q hq)

/-! ### Exit -/

/-- The task that waits for `p` is found by the pid of its father. -/
theorem find_father (h : Sound i s) (ht : s.info p = some t) {f : ℕ} {u : TaskInfo} (hu : s.info f = some u)
    (hus : u.state = .sleep) (huw : .waitFree p ∈ u.core) {s₁ : Kernel} (hL : s₁.Listed)
    (hp : Pids s₁.pidCount s₁.info) (hf : s₁.info f = some u) :
    s₁.findProcessByPid t.ppid .sleepTaskList = .ok (some f) := by
  obtain ⟨t₀, ht₀, hpend⟩ := h.proto.waiting.waits f u p hu huw (by rw [hus]; decide)
  obtain rfl := Option.some.inj (ht.symm.trans ht₀)
  have hplace : u.place = .sleepTaskList := by
    refine TaskInfo.place_eq_sleep.2 ⟨hus, ?_⟩
    rw [(h.proto.core f u hu).head_of_wait huw]
    simp
  obtain ⟨L, hlists, hplaced⟩ := hL
  rcases findProcessByPid_spec hlists _ t.ppid with
    ⟨-, hall⟩ | ⟨y, -, v, hv, hvp, hfound⟩
  · exact absurd hpend.ppid.symm (hall f ((hplaced _ _).2 ⟨u, hf, hplace⟩) u hf)
  · rw [hfound, hp.inj y f v u hv hf (hvp.trans hpend.ppid)]

/-- `exit_st` behind the move of the task `p` to `zombie_list`: its father is told. -/
theorem tellFather_ok (h : Sound i s) (ht : s.info p = some t) (hready : t.place = .taskHeadp)
    (hi : p ≠ i) (hcl : p ≠ s.clearZombie) (status : ℤ) {s₁ : Kernel}
    (hg : s₁.toGlobals = { s.toGlobals with exitLog := (t.pid, status) :: s.exitLog })
    (hm : s₁.info = Function.update s.info p
      (some { t with exitStatus := status, state := .zombie }))
    (hlisted : s₁.Listed) :
    ∃ s', s₁.tellFather p = .ok s' ∧ Refines i s s' ∧ s'.current = s.current ∧
      Keeps s.info s'.info := by
  obtain ⟨hns, hnz⟩ := TaskInfo.place_eq_taskHeadp.1 hready
  have hp0 := h.proto.pids.ne_zero ht
  have hn : s₁.pidCount = s.pidCount := by rw [hg]
  have hcur : s₁.current = s.current := by rw [hg]
  have hp₁ : Pids s₁.pidCount s₁.info := by
    rw [hn, hm]; exact h.proto.pids.update ht rfl
  have ht₁ : s₁.info p = some { t with exitStatus := status, state := .zombie } := by
    rw [hm, Function.update_self]
  unfold tellFather
  rw [get_of_info hp0 ht₁, ok_bind]
  by_cases hw : t.waited = true
  · -- somebody waits for the task: its father is asleep
    obtain ⟨f, u, hu, hus, huw⟩ := h.proto.waiting.waited p t ht hw hnz
    have hfp : f ≠ p := by
      rintro rfl
      obtain rfl := Option.some.inj (ht.symm.trans hu)
      exact hns hus
    have hu₁ : s₁.info f = some u := by rw [hm, Function.update_of_ne hfp]; exact hu
    have hplace : u.place = .sleepTaskList := by
      refine TaskInfo.place_eq_sleep.2 ⟨hus, ?_⟩
      rw [(h.proto.core f u hu).head_of_wait huw]
      simp
    have hfind := find_father h ht hu hus huw hlisted hp₁ hu₁
    obtain ⟨s₂, hwake, hg₂, hm₂, hlisted₂⟩ := wakeup_ok hlisted hp₁ hu₁ hplace (by decide)
    rw [if_pos hw, hfind, ok_bind]
    refine ⟨s₂, hwake, .single hlisted₂ (hg₂.trans hg) (by rw [hm₂, hm])
      (.exitWaited ht hready hw hi hcl hu hus huw), ?_, ?_⟩
    · rw [show s₂.current = s₁.current from congrArg Globals.current hg₂, hcur]
    · rw [hm₂, hm]; exact Keeps.refl.update.update
  · -- nobody waits: the task is left to the cleaner
    rw [if_neg hw, modify_ok hp0 ht₁]
    refine ⟨_, rfl, .single (hlisted.assign ht₁ rfl) hg (by rw [assign_info, hm, Function.update_idem])
      (.exitOrphan ht hready (by simpa using hw) hi hcl), hcur, ?_⟩
    rw [assign_info, hm]; exact Keeps.refl.update.update

theorem countOrphan_spec (h : Sound i s) : Yields s.countOrphan
    (fun s' => Refines i s s' ∧ s'.current = s.current ∧ Keeps s.info s'.info) Honest := by
  obtain ⟨L, hL, hpl⟩ := h.listed
  set s₁ : Kernel := { s with zombieCount := wrap32 (s.zombieCount + 1) } with hs₁
  have href : Refines i s s₁ := ⟨⟨L, hL.globals le_rfl, hpl⟩, .single (.globals rfl rfl rfl rfl)⟩
  have hproto := h.proto_of_refines href
  show Yields (if s₁.zombieCount = 50 then s₁.wakeup .sleepTaskList s₁.clearZombie else .ok s₁) _ _
  split
  · obtain ⟨v, hv, -, hvc, -⟩ := hproto.threads.clear
    by_cases hvs : v.place = .sleepTaskList
    · obtain ⟨s₂, hwake, hg₂, hm₂, hlisted₂⟩ := wakeup_ok href.listed hproto.pids hv hvs
        (by decide)
      rw [hwake]
      refine yields_ok.2 ⟨href.comp (.single hlisted₂ hg₂ hm₂ (.wakePlain hv
        (TaskInfo.place_eq_sleep.1 hvs).1 fun c => by simp [hvc])), ?_, ?_⟩
      · have hc : s₂.current = s₁.current := congrArg Globals.current hg₂
        exact hc
      · rw [hm₂]; exact Keeps.refl.update
    · rw [wakeup_null href.listed hproto.pids hv hvs]
      exact ⟨by decide, by decide⟩
  · exact yields_ok.2 ⟨href, rfl, Keeps.refl⟩

/-- Steps of the protocol that end with `current` still there. -/
theorem Sound.of_refines (h : Sound i s) (hr : Refines i s s')
    (hc : ∃ t, s'.info s'.current = some t) : Sound i s' :=
  ⟨hr.listed, h.proto_of_refines hr, hc⟩

/-- **`exit_st`** of a task that is ready. -/
theorem exitSt_spec (h : Sound i s) (ht : s.info p = some t) (hready : t.place = .taskHeadp)
    (hi : p ≠ i) (hcl : p ≠ s.clearZombie) (status : ℤ) :
    Yields (s.exitSt p status) (fun s' => Good i s' ∧ Refines i s s') Honest := by
  obtain ⟨L, hL, hpl⟩ := h.listed
  have hp0 := h.proto.pids.ne_zero ht
  obtain ⟨s₀, hs₀⟩ : ∃ s₀ : Kernel, s₀ = { s with exitLog := (t.pid, status) :: s.exitLog } :=
    ⟨_, rfl⟩
  have hi₀ : s₀.info = s.info := by rw [hs₀]; rfl
  have ht₀ : s₀.info p = some t := by rw [hi₀]; exact ht
  have hL₀ : s₀.Lists L := by rw [hs₀]; exact hL.globals le_rfl
  have hn₀ : s₀.pidCount = s.pidCount := by rw [hs₀]
  have hz : ({ t with exitStatus := status, state := .zombie } : TaskInfo).place = .zombieList := rfl
  obtain ⟨s₁, s₂, h₁, h₂, -, hsame₂, hlisted⟩ := relocate
    (s := s₀.assign p { t with exitStatus := status, state := .zombie }) hL₀.assign hpl ht
    (by rw [assign_info, hi₀]) hready hz (by decide)
  obtain ⟨s₃, h₃, href, hcur, hkeep⟩ := tellFather_ok h ht hready hi hcl status
    (by rw [hsame₂.1, show (s₀.assign p _).toGlobals = s₀.toGlobals from rfl, hs₀])
    (by rw [hsame₂.2, assign_info, hi₀]) ⟨_, hlisted⟩
  have hS₃ := h.of_refines href (by rw [hcur]; exact hkeep _ h.current)
  obtain ⟨t₃, ht₃⟩ := hkeep p ⟨t, ht⟩
  have hrest : ∀ s₄, Refines i s₃ s₄ ∧ s₄.current = s₃.current ∧ Keeps s₃.info s₄.info →
      Yields (s₄.pushFrame .schedule) (fun s' => Good i s' ∧ Refines i s s') Honest := by
    rintro s₄ ⟨href₄, hcur₄, hkeep₄⟩
    have hS₄ := hS₃.of_refines href₄ (by rw [hcur₄]; exact hkeep₄ _ hS₃.current)
    obtain ⟨s₅, h₅, hgood, href₅, -⟩ := hS₄.pushSchedule
    rw [h₅]
    exact yields_ok.2 ⟨hgood, (href.comp href₄).comp href₅⟩
  unfold exitSt
  rw [get_of_info hp0 ht, ok_bind]
  simp only
  rw [← hs₀, modify_ok hp0 ht₀, ok_bind, h₁, ok_bind, h₂, ok_bind, h₃, ok_bind,
    get_of_info hp0 ht₃, ok_bind]
  split
  · exact yields_bind (countOrphan_spec hS₃) hrest
  · exact hrest s₃ ⟨⟨hS₃.listed, .refl⟩, rfl, Keeps.refl⟩

end Kernel

end PlumOs
