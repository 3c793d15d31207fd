import PlumOs.Proc.KernelFrame
import PlumOs.Proc.KernelRun

/-!
# Every task is on one list and has its own pid

The lists stay in order whatever pids the tasks have: a task that is moved is on the list it is taken
from, or the walk along that list ends at the null pointer.  The memory is full long before `pid_count`
wraps around.

* `wakeup_cases`, `tellFather_cases`, `exitSt_cases`, … : what a call that returns has done to the lists;
* `selectTaskStruct_cases` : which task `select_task_struct` returns;
* `Whole` : every task is on one of the four lists;
* `whole_step` : **every step keeps them whole**;
* `Numbered`, `numbered_step` : **no pid is given out twice**.
-/

namespace PlumOs

namespace Kernel

variable {s s' s₁ s₂ : Kernel} {L : ListId → List ℕ} {p q page : ℕ} {t : TaskInfo} {l l' : ListId}

/-- The task is on the list. -/
def On (s : Kernel) (l : ListId) (p : ℕ) : Prop :=
  ∃ xs, Linked 0 s.nextOf (s.head l) xs ∧ p ∈ xs

theorem Lists.on_iff (h : Lists s L) : s.On l p ↔ p ∈ L l := by
  constructor
  · rintro ⟨xs, hxs, hp⟩
    rw [(h.linked l).unique hxs]
    exact hp
  · exact fun hp => ⟨L l, h.linked l, hp⟩

/-! ### Calls that return -/

theorem get_ne_zero {u : Task} (h : s.get p = .ok u) : p ≠ 0 := by
  rintro rfl
  cases h

theorem modify_cases {f : TaskInfo → TaskInfo} (h : s.modify p f = .ok s') :
    ∃ t, p ≠ 0 ∧ s.info p = some t ∧ s' = s.assign p (f t) := by
  obtain ⟨u, hget, -⟩ := bind_eq_ok.1 h
  have ht := info_of_tasks (get_eq_ok hget)
  rw [modify_ok (get_ne_zero hget) ht] at h
  exact ⟨_, get_ne_zero hget, ht, (Except.ok.inj h).symm⟩

/-- Only a task on the list is taken off. -/
theorem mem_of_remove (h : Lists s L) (hrem : s.removeFromTasklist l p = .ok s₁) : p ∈ L l := by
  have hp0 : p ≠ 0 := by
    rw [removeFromTasklist] at hrem
    split at hrem
    · obtain ⟨u, hget, -⟩ := bind_eq_ok.1 hrem
      exact get_ne_zero hget
    · obtain ⟨r, -, hrest⟩ := bind_eq_ok.1 hrem
      obtain ⟨u, hget, -⟩ := bind_eq_ok.1 hrest
      exact get_ne_zero hget
  by_contra hp
  rw [removeFromTasklist_null h hp0 hp] at hrem
  cases hrem

theorem remove_cases (h : Lists s L) (hrem : s.removeFromTasklist l p = .ok s₁) :
    p ∈ L l ∧ s.SameInfo s₁ ∧ Lists s₁ (Function.update L l ((L l).erase p)) := by
  have hp := mem_of_remove h hrem
  obtain ⟨s', hs', hsame, hL⟩ := removeFromTasklist_ok h hp
  obtain rfl := Except.ok.inj (hs'.symm.trans hrem)
  exact ⟨hp, hsame, hL⟩

/-- A task that changes lists. -/
theorem move_cases (h : Lists s L) (hne : l ≠ l') (hrem : s.removeFromTasklist l p = .ok s₁)
    (hadd : s₁.addToTasklist l' p = .ok s₂) :
    p ∈ L l ∧ s.SameInfo s₂ ∧ Lists s₂ (moved L l l' p) := by
  have hp := mem_of_remove h hrem
  obtain ⟨u₁, u₂, hu₁, hu₂, -, hsame, hL⟩ := move_ok h hp hne
  obtain rfl := Except.ok.inj (hu₁.symm.trans hrem)
  obtain rfl := Except.ok.inj (hu₂.symm.trans hadd)
  exact ⟨hp, hsame, hL⟩

theorem mem_moved_of_ne (hq : q ≠ p) {k : ListId} (hk : q ∈ L k) : q ∈ moved L l l' p k := by
  rw [moved, Function.update_apply]
  split
  · next h => rw [← h]; exact List.mem_cons_of_mem _ hk
  · rw [Function.update_apply]
    split
    · next h => rw [← h]; exact (List.mem_erase_of_ne hq).2 hk
    · exact hk

theorem mem_moved_self : p ∈ moved L l l' p l' := by
  rw [moved, Function.update_self]
  exact List.mem_cons_self

/-- What `wakeup(list, ts, 1)` has done when it returns. -/
structure Woken (s : Kernel) (L : ListId → List ℕ) (l : ListId) (p : ℕ) (s' : Kernel) : Prop where
  mem : p ∈ L l
  lists : Lists s' (moved L l .taskHeadp p)
  globals : s'.toGlobals = s.toGlobals
  info : ∃ t, s.info p = some t ∧
    s'.info = Function.update s.info p (some { t with state := .active })

theorem wakeup_cases (h : Lists s L) (hl : l ≠ .taskHeadp) (hs : s.wakeup l p = .ok s') :
    s.Woken L l p s' := by
  rw [wakeup, moveActive] at hs
  split at hs
  · cases hs
  obtain ⟨s₁, hmod, hmove⟩ := bind_eq_ok.1 hs
  obtain ⟨s₂, hrem, hadd⟩ := bind_eq_ok.1 hmove
  obtain ⟨t, -, ht, rfl⟩ := modify_cases hmod
  obtain ⟨hp, hsame, hL⟩ := move_cases h.assign hl hrem hadd
  exact ⟨hp, hL, hsame.1, t, ht, hsame.2.trans assign_info⟩

/-- What `exit_st` has told the father of the task when that part returns. -/
inductive Told (s : Kernel) (L : ListId → List ℕ) (p : ℕ) (t : TaskInfo) (s' : Kernel) : Prop where
  | orphan (hs : s' = s.assign p { t with orphan := true }) : Told s L p t s'
  | father (f : ℕ) (u : TaskInfo) (hw : t.waited = true) (hu : s.info f = some u)
      (hpid : u.pid = t.ppid) (hwoken : s.Woken L .sleepTaskList f s') : Told s L p t s'

theorem tellFather_cases (h : Lists s L) (ht : s.info p = some t) (hs : s.tellFather p = .ok s') :
    s.Told L p t s' := by
  have hmark : s.modify p (fun t => { t with orphan := true }) = .ok s' → s.Told L p t s' := by
    intro hmod
    obtain ⟨u, -, hu, rfl⟩ := modify_cases hmod
    obtain rfl := Option.some.inj (ht.symm.trans hu)
    exact .orphan rfl
  rw [tellFather] at hs
  obtain ⟨u, hget, htold⟩ := bind_eq_ok.1 hs
  clear hs
  obtain rfl := Option.some.inj (ht.symm.trans (info_of_tasks (get_eq_ok hget)))
  split at htold
  · next hw =>
    rcases findProcessByPid_spec h .sleepTaskList u.ppid with
      ⟨hnone, -⟩ | ⟨f, -, v, hv, hpid, hsome⟩
    · rw [hnone, ok_bind] at htold
      exact hmark htold
    · rw [hsome, ok_bind] at htold
      exact .father f v hw hv hpid (wakeup_cases h (by decide) htold)
  · exact hmark htold

/-- The state in which `exit_st` has moved the task to `zombie_list`. -/
structure Dead (s : Kernel) (L : ListId → List ℕ) (p : ℕ) (status : ℤ) (t : TaskInfo) (s' : Kernel) :
    Prop where
  mem : p ∈ L .taskHeadp
  lists : Lists s' (moved L .taskHeadp .zombieList p)
  globals : s'.toGlobals = { s.toGlobals with exitLog := (t.pid, status) :: s.exitLog }
  info : s'.info = Function.update s.info p (some { t with exitStatus := status, state := .zombie })

/-- `exit_st` behind the call that tells the father: an orphan is counted, and `schedule` is
called. -/
def afterTold (s : Kernel) (u : Task) : Except Halt Kernel := do
  let s ← if u.orphan then s.countOrphan else pure s
  s.pushFrame .schedule

/-- The orphan is counted first. -/
theorem afterTold_cases {u : Task} (hs : s.afterTold u = .ok s') :
    ∃ s₁, (u.orphan = true ∧ s.countOrphan = .ok s₁ ∨ u.orphan = false ∧ s₁ = s) ∧
      s₁.pushFrame .schedule = .ok s' := by
  rw [afterTold] at hs
  cases ho : u.orphan with
  | true =>
    rw [ho, if_pos rfl] at hs
    obtain ⟨s₁, hcount, hpush⟩ := bind_eq_ok.1 hs
    exact ⟨s₁, .inl ⟨rfl, hcount⟩, hpush⟩
  | false =>
    rw [ho, if_neg (by decide)] at hs
    exact ⟨s, .inr ⟨rfl, rfl⟩, hs⟩

/-- `exit_st` up to the test of `ts->orphan`. -/
def exitToCount (s : Kernel) (ts : ℕ) (status : ℤ) : Except Halt Kernel := do
  let t ← s.get ts
  let s := { s with exitLog := (t.pid, status) :: s.exitLog }
  let s ← s.modify ts fun t => { t with exitStatus := status, state := .zombie }
  let s ← s.removeFromTasklist .taskHeadp ts
  let s ← s.addToTasklist .zombieList ts
  s.tellFather ts

theorem exitSt_eq (s : Kernel) (p : ℕ) (status : ℤ) : s.exitSt p status =
    (s.exitToCount p status >>= fun s₁ => s₁.get p >>= fun u => s₁.afterTold u) := by
  unfold exitSt exitToCount
  simp only [bind_assoc]
  rfl

theorem exitSt_eq_ok {status : ℤ} : s.exitSt p status = .ok s' ↔
    ∃ s₁ u, s.exitToCount p status = .ok s₁ ∧ s₁.get p = .ok u ∧ s₁.afterTold u = .ok s' := by
  rw [exitSt_eq]
  constructor
  · intro h
    obtain ⟨s₁, hcount, hrest⟩ := bind_eq_ok.1 h
    obtain ⟨u, hget, hafter⟩ := bind_eq_ok.1 hrest
    exact ⟨s₁, u, hcount, hget, hafter⟩
  · rintro ⟨s₁, u, hcount, hget, hafter⟩
    rw [hcount, ok_bind, hget, ok_bind, hafter]

theorem exitToCount_cases {status : ℤ} (h : Lists s L) (hs : s.exitToCount p status = .ok s₂) :
    ∃ t s₁, s.info p = some t ∧ s.Dead L p status t s₁ ∧ s₁.tellFather p = .ok s₂ := by
  rw [exitToCount] at hs
  obtain ⟨v, hget, h₀⟩ := bind_eq_ok.1 hs
  obtain ⟨s₀, hmod, h₁⟩ := bind_eq_ok.1 h₀
  obtain ⟨s₁, hrem, h₂⟩ := bind_eq_ok.1 h₁
  obtain ⟨s₂, hadd, htell⟩ := bind_eq_ok.1 h₂
  obtain ⟨t, -, ht, rfl⟩ := modify_cases hmod
  obtain rfl : v.toTaskInfo = t := Option.some.inj ((info_of_tasks (get_eq_ok hget)).symm.trans ht)
  have hL₀ : Lists { s with exitLog := (v.pid, status) :: s.exitLog } L := h.globals le_rfl
  obtain ⟨hp, hsame, hL⟩ := move_cases hL₀.assign (by decide) hrem hadd
  exact ⟨_, s₂, ht, ⟨hp, hL, hsame.1, hsame.2.trans assign_info⟩, htell⟩

theorem Dead.zombie {status : ℤ} (h : s.Dead L p status t s₁) :
    s₁.info p = some { t with exitStatus := status, state := .zombie } := by
  rw [h.info, Function.update_self]

theorem exitSt_cases {status : ℤ} (h : Lists s L) (hs : s.exitSt p status = .ok s') :
    ∃ t s₁ s₂ u, s.info p = some t ∧ s.Dead L p status t s₁ ∧
      s₁.Told (moved L .taskHeadp .zombieList p) p { t with exitStatus := status, state := .zombie } s₂ ∧
      s₂.tasks p = some u ∧ s₂.afterTold u = .ok s' := by
  obtain ⟨s₂, u, hcount, hget, hafter⟩ := exitSt_eq_ok.1 hs
  obtain ⟨t, s₁, ht, hdead, htell⟩ := exitToCount_cases h hcount
  exact ⟨t, s₁, s₂, u, ht, hdead, tellFather_cases hdead.lists hdead.zombie htell, get_eq_ok hget,
    hafter⟩

/-- `select_task_struct` returns a task that is ready, or the one behind `current` on another list if
some task that is ready has the pid of `current`. -/
theorem selectTaskStruct_cases (h : Lists s L) {n : ℕ} (hsel : s.selectTaskStruct = .ok n) :
    n ∈ L .taskHeadp ∨ s.current ∉ L .taskHeadp ∧ n = s.nextOf s.current ∧ n ≠ 0 ∧
      ∃ t q u, s.info s.current = some t ∧ q ∈ L .taskHeadp ∧ s.info q = some u ∧ u.pid = t.pid := by
  rw [selectTaskStruct] at hsel
  obtain ⟨t, hget, hsearch⟩ := bind_eq_ok.1 hsel
  obtain ⟨found, hfind, hnext⟩ := bind_eq_ok.1 hsearch
  obtain ⟨u, hget', hreturn⟩ := bind_eq_ok.1 hnext
  clear hsel hsearch hnext
  have ht := info_of_tasks (get_eq_ok hget)
  have hu : u.next = s.nextOf (if found.isSome = true then s.current else s.head .taskHeadp) := by
    rw [nextOf, get_eq_ok hget']
    rfl
  have hhead : s.head .taskHeadp ≠ 0 → s.head .taskHeadp ∈ L .taskHeadp := by
    intro hne
    have hlinked := h.linked .taskHeadp
    cases hL : L .taskHeadp with
    | nil => rw [hL] at hlinked; exact absurd hlinked hne
    | cons x xs => rw [hL] at hlinked; rw [hlinked.1]; exact List.mem_cons_self
  rcases findProcessByPid_spec h .taskHeadp t.pid with ⟨hnone, -⟩ | ⟨q, hq, v, hv, hpid, hsome⟩
  · obtain rfl := Except.ok.inj (hnone.symm.trans hfind)
    have hmem := hhead (get_ne_zero hget')
    left
    split at hreturn
    · next hne =>
      rw [← Except.ok.inj hreturn, hu]
      exact (h.linked _).next_mem hmem (by rwa [← hu])
    · rw [← Except.ok.inj hreturn]
      exact hmem
  · obtain rfl := Except.ok.inj (hsome.symm.trans hfind)
    have hready : s.head .taskHeadp ∈ L .taskHeadp := by
      refine hhead fun hzero => ?_
      have hlinked := h.linked .taskHeadp
      cases hL : L .taskHeadp with
      | nil => rw [hL] at hq; cases hq
      | cons x xs => rw [hL] at hlinked; exact hlinked.2.1 (hlinked.1.symm.trans hzero)
    split at hreturn
    · next hne =>
      obtain rfl := Except.ok.inj hreturn
      by_cases hcur : s.current ∈ L .taskHeadp
      · left
        rw [hu]
        exact (h.linked _).next_mem hcur (by rwa [← hu])
      · exact .inr ⟨hcur, hu, hne, _, q, v, ht, hq, hv, hpid⟩
    · left
      rw [← Except.ok.inj hreturn]
      exact hready

/-! ### Every task is on a list -/

/-- Every task is on one of the four lists, and only there. -/
def Whole (s : Kernel) : Prop := ∃ L, s.Lists L ∧ ∀ p t, s.info p = some t → ∃ l, p ∈ L l

theorem Listed.whole (h : s.Listed) : s.Whole := by
  obtain ⟨L, hL, hpl⟩ := h
  exact ⟨L, hL, fun p t ht => ⟨t.place, (hpl _ _).2 ⟨t, ht, rfl⟩⟩⟩

/-- Assignments to the other globals. -/
theorem Whole.globals (h : s.Whole) {g : Globals} (hmade : s.made ≤ g.made) :
    Whole { toGlobals := g, tasks := s.tasks, head := s.head } := by
  obtain ⟨L, hL, hall⟩ := h
  exact ⟨L, hL.globals hmade, hall⟩

theorem Whole.assign (h : s.Whole) (ht : s.info p = some t) (t' : TaskInfo) :
    (s.assign p t').Whole := by
  obtain ⟨L, hL, hall⟩ := h
  refine ⟨L, hL.assign, fun q u hu => ?_⟩
  rw [assign_info] at hu
  rcases update_eq_some.1 hu with ⟨rfl, -⟩ | ⟨-, hu⟩
  · exact hall q t ht
  · exact hall q u hu

theorem put_eq_assign {u : Task} (hu : s.tasks p = some u) : s.put p ⟨t, u.next⟩ = s.assign p t := by
  rw [put, Kernel.assign, nextOf, hu]
  rfl

theorem exists_mem_moved (h : ∃ k, q ∈ L k) : ∃ k, q ∈ moved L l l' p k := by
  obtain ⟨k, hk⟩ := h
  by_cases hq : q = p
  · rw [hq]
    exact ⟨l', mem_moved_self⟩
  · exact ⟨k, mem_moved_of_ne hq hk⟩

theorem closed_whole : Closed (fun s s' => s.Whole → s'.Whole) (· ≠ ·) where
  refl _ := id
  trans _ _ _ h h' hw := h' (h hw)
  assign _ _ _ _ hu _ hw := by
    rw [put_eq_assign hu]
    exact hw.assign (info_of_tasks hu) _
  current _ _ hw := hw.globals le_rfl
  zombieCount _ _ hw := hw.globals le_rfl
  exitLog _ _ hw := hw.globals le_rfl
  waitLog _ _ hw := hw.globals le_rfl
  asleep := by decide
  dead := by decide
  awake := by decide
  move s s₁ s₂ l l' p hne hrem hadd hw := by
    obtain ⟨L, hL, hall⟩ := hw
    obtain ⟨-, hsame, hL₂⟩ := move_cases hL hne hrem hadd
    refine ⟨_, hL₂, fun q t ht => exists_mem_moved (hall q t ?_)⟩
    rw [← hsame.2]
    exact ht

/-- What `free_process` has done when it returns. -/
structure Freed (s : Kernel) (L : ListId → List ℕ) (p : ℕ) (s' : Kernel) : Prop where
  mem : p ∈ L .zombieList
  lists : Lists s' (Function.update L .zombieList ((L .zombieList).erase p))
  globals : s'.toGlobals = s.toGlobals
  info : s'.info = Function.update s.info p none

theorem freeProcess_cases (h : Lists s L) (hs : s.freeProcess p = .ok s') : s.Freed L p s' := by
  obtain ⟨-, s₁, -, -, hrem, hs'⟩ := freeProcess_eq_ok hs
  obtain ⟨hp, -, hL⟩ := remove_cases h hrem
  refine ⟨hp, ?_, freeProcess_globals hs, ((freeProcess_info s p).of_eq_ok hs).1⟩
  rw [hs']
  refine hL.elsewhere (p := p) (fun k hk => ?_) rfl le_rfl fun q hq => Function.update_of_ne hq _ _
  rw [Function.update_apply] at hk
  split at hk
  · exact ((h.linked _).nodup.mem_erase_iff.1 hk).1 rfl
  · next hne => exact hne (h.disjoint _ _ p hk hp)

theorem whole_free : KeptByFree fun s s' => s.Whole → s'.Whole := by
  intro s p s' hs hw
  obtain ⟨L, hL, hall⟩ := hw
  have hfreed := freeProcess_cases hL hs
  have hinfo := hfreed.info
  refine ⟨_, hfreed.lists, fun q t ht => ?_⟩
  have hne : q ≠ p := by
    rintro rfl
    rw [hinfo, Function.update_self] at ht
    cases ht
  rw [hinfo, Function.update_of_ne hne] at ht
  obtain ⟨l, hl⟩ := hall q t ht
  refine ⟨l, ?_⟩
  rw [Function.update_apply]
  split
  · next h => rw [← h]; exact (List.mem_erase_of_ne hne).2 hl
  · exact hl

/-- A new task on `task_headp`. -/
theorem born_lists (h : Lists s L) (hborn : s.Born page t s') :
    Lists s' (Function.update L .taskHeadp (page :: L .taskHeadp)) := by
  obtain ⟨hp0, hnone, -⟩ := hborn.info_eq
  obtain ⟨⟨u, hnew, hadd⟩, -⟩ := hborn
  have hnot : ∀ l, page ∉ L l := by
    intro l hl
    obtain ⟨v, hv⟩ := h.alloc l page hl
    rw [hnone] at hv
    cases hv
  obtain ⟨-, -, -, rfl⟩ := newTask_eq_ok hnew
  have hL : Lists { s with
      tasks := Function.update s.tasks page (some ⟨t, 0⟩)
      pidCount := wrap32 (s.pidCount + 1)
      made := s.made + 1 } L :=
    h.elsewhere (p := page) hnot rfl (Nat.le_succ _) fun q hq => Function.update_of_ne hq _ _
  obtain ⟨s₂, hs₂, -, hL₂⟩ := addToTasklist_ok (l := .taskHeadp) (p := page) (t := t) hL hp0
    (by simp [info]) hnot (Nat.lt_succ_of_le h.few)
  obtain rfl := Except.ok.inj (hs₂.symm.trans hadd)
  exact hL₂

theorem Whole.born (h : s.Whole) (hborn : s.Born page t s') : s'.Whole := by
  obtain ⟨L, hL, hall⟩ := h
  obtain ⟨-, -, hinfo⟩ := hborn.info_eq
  refine ⟨_, born_lists hL hborn, fun q u hu => ?_⟩
  rw [hinfo] at hu
  by_cases hq : q = page
  · exact ⟨.taskHeadp, by rw [Function.update_self, hq]; exact List.mem_cons_self⟩
  · rw [Function.update_of_ne hq] at hu
    obtain ⟨l, hl⟩ := hall q u hu
    refine ⟨l, ?_⟩
    rw [Function.update_apply]
    split
    · next h => rw [← h]; exact List.mem_cons_of_mem _ hl
    · exact hl

/-- **Every step keeps the lists whole.** -/
theorem whole_step (h : s.Whole) {a : KAct} (hstep : s.step a = .ok s') : s'.Whole := by
  have hmade := (closed_whole.step_all (by decide) (by decide) (fun _ _ hw => hw.globals le_rfl)
    whole_free s a).of_eq_ok hstep
  rcases hmade with hkept | ⟨page, s₁, t, s₂, -, h₁, hborn, -, h₂⟩
  · exact hkept h
  · exact h₂ ((h₁ h).born hborn)

/-! ### The pids -/

/-- Each task has its own pid, the pids were given out in order, and the memory was large enough for the
tasks made so far. -/
structure Numbered (s : Kernel) : Prop where
  /-- Every task has its own pid. -/
  pids : Pids s.pidCount s.info
  /-- The next pid is the number of tasks that were made. -/
  count : s.pidCount = s.made
  /-- There are no more tasks than pages. -/
  few : s.made ≤ pageArraySize

theorem closed_numbered : Closed (fun s s' => s.Numbered → s'.Numbered) fun _ _ => True where
  refl _ := id
  trans _ _ _ h h' hn := h' (h hn)
  assign s p u t hu ha hn := by
    rw [put_eq_assign hu]
    refine ⟨?_, hn.count, hn.few⟩
    rw [assign_info]
    exact hn.pids.update (info_of_tasks hu) ha.pid
  current _ _ hn := ⟨hn.pids, hn.count, hn.few⟩
  zombieCount _ _ hn := ⟨hn.pids, hn.count, hn.few⟩
  exitLog _ _ hn := ⟨hn.pids, hn.count, hn.few⟩
  waitLog _ _ hn := ⟨hn.pids, hn.count, hn.few⟩
  asleep := trivial
  dead := trivial
  awake := trivial
  move s s₁ s₂ l l' p _ hrem hadd hn := by
    have hinfo : s₂.info = s.info := ((addToTasklist_info s₁ l' p).of_eq_ok hadd).trans
      ((removeFromTasklist_info s l p).of_eq_ok hrem)
    have hglobals : s₂.toGlobals = s.toGlobals := ((addToTasklist_globals s₁ l' p).of_eq_ok hadd).trans
      ((removeFromTasklist_globals s l p).of_eq_ok hrem)
    refine ⟨?_, ?_, ?_⟩
    · rw [hinfo, congrArg Globals.pidCount hglobals]
      exact hn.pids
    · rw [congrArg Globals.pidCount hglobals, congrArg Globals.made hglobals]
      exact hn.count
    · rw [congrArg Globals.made hglobals]
      exact hn.few

theorem numbered_free : KeptByFree fun s s' => s.Numbered → s'.Numbered := by
  intro s p s' hs hn
  have hglobals := freeProcess_globals hs
  refine ⟨?_, ?_, ?_⟩
  · rw [((freeProcess_info s p).of_eq_ok hs).1, congrArg Globals.pidCount hglobals]
    exact hn.pids.free
  · rw [congrArg Globals.pidCount hglobals, congrArg Globals.made hglobals]
    exact hn.count
  · rw [congrArg Globals.made hglobals]
    exact hn.few

/-- A new task takes the next pid, which no task has. -/
theorem Numbered.born (h : s.Numbered) (hborn : s.Born page t s') : s'.Numbered := by
  obtain ⟨hne, -, hinfo⟩ := hborn.info_eq
  have hglobals := hborn.globals
  obtain ⟨u, hnew, -⟩ := hborn.made
  obtain ⟨-, -, hroom, -⟩ := newTask_eq_ok hnew
  have hcount := h.count
  have hlarge : pageArraySize < 2 ^ 31 := by decide
  have hnext : s'.pidCount = s.pidCount + 1 := by
    rw [congrArg Globals.pidCount hglobals]
    exact wrap32_of_mem (by omega) (by omega)
  have hmade : s'.made = s.made + 1 := congrArg Globals.made hglobals
  refine ⟨?_, by omega, by omega⟩
  rw [hinfo, hnext]
  exact h.pids.born hne hborn.pid (by omega)

/-- **No pid is given out twice**: every step keeps the tasks numbered. -/
theorem numbered_step (h : s.Numbered) {a : KAct} (hstep : s.step a = .ok s') : s'.Numbered := by
  have hmade := (closed_numbered.step_all trivial trivial (fun _ _ hn => ⟨hn.pids, hn.count, hn.few⟩)
    numbered_free s a).of_eq_ok hstep
  rcases hmade with hkept | ⟨page, s₁, t, s₂, -, h₁, hborn, -, h₂⟩
  · exact hkept h
  · exact h₂ ((h₁ h).born hborn)

theorem started_numbered {p₀ p₁ p₂ p₃ : ℕ} (h : [0, p₀, p₁, p₂, p₃].Nodup) :
    (started p₀ p₁ p₂ p₃).Numbered := by
  have hfew : 4 ≤ pageArraySize := by decide
  exact ⟨started_pids h, rfl, hfew⟩

/-- There is always a pid for the next task. -/
theorem Numbered.pidRoom (h : s.Numbered) (a : KAct) : s.PidRoom a := by
  intro _
  have hcount := h.count
  have hfew := h.few
  have hlarge : pageArraySize + 1 < 2 ^ 31 := by decide
  omega

theorem Numbered.run (h : s.Numbered) {as : List KAct} (hrun : PlumOs.run Kernel.step s as = .ok s') :
    s'.Numbered :=
  run_invariant (G := fun _ _ => True) h (fun _ _ _ hn _ hstep => numbered_step hn hstep)
    (along_of_forall (fun _ _ => trivial) s as) hrun

theorem booted_numbered {p₀ p₁ p₂ p₃ : ℕ} (h : [0, p₀, p₁, p₂, p₃].Nodup)
    (hboot : bootKernel p₀ p₁ p₂ p₃ = .ok s) : s.Numbered := by
  obtain rfl := Except.ok.inj ((bootKernel_eq h).symm.trans hboot)
  exact started_numbered h

/-- As there is always a pid, a run is fair if every `wait4` of it names a child of its caller. -/
theorem along_fair_of_own (h : s.Numbered) {as : List KAct} (hown : Along Kernel.step Own s as) :
    Along Kernel.step Fair s as :=
  hown.of_invariant h (fun _ a hn ha => ⟨ha, hn.pidRoom a⟩) fun _ _ _ hn _ hstep => numbered_step hn hstep

end Kernel

end PlumOs
