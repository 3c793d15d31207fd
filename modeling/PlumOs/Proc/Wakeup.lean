import PlumOs.Proc.TaskLists

/-!
# Waking up a whole list (`sys/process.c`)

`wakeup(list, ts, 0)` takes the tasks of a list from its front, one after the other, and puts each in
front of `task_headp`, through the same field `next`.

* `TimedKernel.wakeup` : the function of the source, with the field `sleep_time` beside the tasks of `Kernel`;
* `TimedKernel.moveActive_toKernel`, `TimedKernel.wakeupLoop_toKernel` : without the field it does what
  `Kernel.wakeup` and `Kernel.wakeupFrom` do;
* `TimedKernel.moveActive_head` : what one iteration does;
* `TimedKernel.wakeup_all` : **the whole list is moved**, in reverse order, and nothing else changes.
-/

namespace PlumOs

/-- The tasks with their field `sleep_time`. -/
structure TimedKernel extends Kernel where
  /-- The field `sleep_time` of the task at an address. -/
  sleepTime : ℕ → ℕ

namespace TimedKernel

/-- Both branches of `wakeup`, with `sleep_time = 0`. -/
def moveActive (s : TimedKernel) (l : ListId) (ts : ℕ) : Except Halt TimedKernel := do
  let k ← s.toKernel.moveActive l ts
  return { toKernel := k, sleepTime := Function.update s.sleepTime ts 0 }

/-- The loop of `wakeup(list, ts, 0)`. -/
def wakeupLoop (l : ListId) (fuel p : ℕ) (s : TimedKernel) : Except Halt TimedKernel :=
  Kernel.wakeupLoop toKernel (fun s p => s.moveActive l p) fuel p s

/-- `wakeup(list, ts, flag)`. -/
def wakeup (s : TimedKernel) (fuel : ℕ) (l : ListId) (ts : ℕ) (flag : ℤ) : Except Halt TimedKernel :=
  if flag = 0 then wakeupLoop l fuel (s.head l) s
  else if flag = 1 then
    if ts ≠ 0 then s.moveActive l ts else .error .assertFail
  else .error .panic

/-- The tasks of the list `l`, which were `waiting`, have been moved in front of the `active` ones. -/
structure AllWoken (s s' : TimedKernel) (l : ListId) (waiting active : List ℕ) : Prop where
  empty : s'.head l = 0
  active : Linked 0 s'.nextOf (s'.head .taskHeadp) (waiting.reverse ++ active)
  /-- Their states and times are set, and only the links change otherwise. -/
  woken : ∀ p ∈ waiting, ∃ t n, s.tasks p = some t ∧
    s'.tasks p = some ⟨{ t.toTaskInfo with state := .active }, n⟩ ∧ s'.sleepTime p = 0
  others : ∀ p, p ∉ waiting → s'.tasks p = s.tasks p ∧ s'.sleepTime p = s.sleepTime p
  heads : ∀ l', l' ≠ l → l' ≠ .taskHeadp → s'.head l' = s.head l'
  globals : s'.toGlobals = s.toGlobals

variable {s s' : TimedKernel} {l : ListId} {waiting active : List ℕ} {p x : ℕ} {t : Task}

/-! ### Without `sleep_time` -/

theorem moveActive_toKernel (s : TimedKernel) (l : ListId) (p : ℕ) :
    (s.moveActive l p).map toKernel = s.toKernel.moveActive l p := by
  rw [moveActive]
  cases s.toKernel.moveActive l p with
  | error e => rfl
  | ok k => rfl

theorem wakeupLoop_def (l : ListId) (fuel p : ℕ) (s : TimedKernel) : wakeupLoop l (fuel + 1) p s =
    if p = 0 then .ok s
    else s.get p >>= fun t => s.moveActive l p >>= wakeupLoop l fuel t.next := rfl

theorem wakeupLoop_toKernel (l : ListId) (fuel p : ℕ) (s : TimedKernel) :
    (wakeupLoop l fuel p s).map toKernel = Kernel.wakeupFrom l fuel p s.toKernel := by
  induction fuel generalizing p s with
  | zero => rfl
  | succ fuel ih =>
    rw [wakeupLoop_def, Kernel.wakeupFrom_def]
    by_cases hp : p = 0
    · rw [if_pos hp, if_pos hp]
      rfl
    rw [if_neg hp, if_neg hp]
    cases s.get p with
    | error e => rfl
    | ok t =>
      rw [ok_bind, ok_bind, ← moveActive_toKernel]
      cases s.moveActive l p with
      | error e => rfl
      | ok s₁ => exact ih t.next s₁

/-! ### One iteration -/

/-- **The first task of the list** is moved. -/
theorem moveActive_head (hl : l ≠ .taskHeadp) (hx : x ≠ 0) (hhead : s.head l = x)
    (ht : s.tasks x = some t) : s.moveActive l x = .ok
      { s with
        tasks := Function.update s.tasks x
          (some ⟨{ t.toTaskInfo with state := .active }, s.head .taskHeadp⟩)
        head := Function.update (Function.update s.head l t.next) .taskHeadp x
        sleepTime := Function.update s.sleepTime x 0 } := by
  obtain ⟨u, hu⟩ : ∃ u, u = { t.toTaskInfo with state := .active } := ⟨_, rfl⟩
  have hmodify : s.toKernel.modify x (fun t => { t with state := .active }) =
      .ok { s.toKernel with tasks := Function.update s.tasks x (some ⟨u, t.next⟩) } := by
    simp only [Kernel.modify, Kernel.get, if_neg hx, ht, ok_bind, hu]
    rfl
  have hremove : Kernel.removeFromTasklist
      { s.toKernel with tasks := Function.update s.tasks x (some ⟨u, t.next⟩) } l x =
        .ok { s.toKernel with
          tasks := Function.update s.tasks x (some ⟨u, 0⟩)
          head := Function.update s.head l t.next } := by
    simp only [Kernel.removeFromTasklist, if_pos hhead, Kernel.get, if_neg hx, Function.update_self, ok_bind,
      Kernel.setNext, Kernel.setHead, Function.update_idem]
    rfl
  have hadd : Kernel.addToTasklist
      { s.toKernel with
        tasks := Function.update s.tasks x (some ⟨u, 0⟩)
        head := Function.update s.head l t.next } .taskHeadp x =
        .ok { s.toKernel with
          tasks := Function.update s.tasks x (some ⟨u, s.head .taskHeadp⟩)
          head := Function.update (Function.update s.head l t.next) .taskHeadp x } := by
    simp only [Kernel.addToTasklist, Kernel.setNext, Kernel.get, if_neg hx, Function.update_self, ok_bind,
      Function.update_idem, Function.update_of_ne hl.symm, Kernel.setHead]
    rfl
  rw [moveActive, Kernel.moveActive, hmodify, ok_bind, hremove, ok_bind, hadd, hu]
  rfl

/-- The state after an iteration: one task fewer on the list, one more in front of `task_headp`. -/
theorem exists_moveActive (hl : l ≠ .taskHeadp) (h : Linked 0 s.nextOf (s.head l) (x :: waiting))
    (hactive : Linked 0 s.nextOf (s.head .taskHeadp) active) (hx : x ∉ active)
    (ht : s.tasks x = some t) : ∃ s₁, s.moveActive l x = .ok s₁ ∧
      Linked 0 s₁.nextOf (s₁.head l) waiting ∧
      Linked 0 s₁.nextOf (s₁.head .taskHeadp) (x :: active) ∧
      s₁.tasks x = some ⟨{ t.toTaskInfo with state := .active }, s.head .taskHeadp⟩ ∧
      s₁.sleepTime x = 0 ∧ (∀ p, p ≠ x → s₁.tasks p = s.tasks p ∧ s₁.sleepTime p = s.sleepTime p) ∧
      (∀ l', l' ≠ l → l' ≠ .taskHeadp → s₁.head l' = s.head l') ∧ s₁.toGlobals = s.toGlobals := by
  have hx0 : x ≠ 0 := h.2.1
  have hnext : s.nextOf x = t.next := by
    rw [Kernel.nextOf, ht]
    rfl
  have hmove := moveActive_head hl hx0 h.1 ht
  obtain ⟨s₁, hs₁⟩ : ∃ s₁, s.moveActive l x = .ok s₁ := ⟨_, hmove⟩
  have hstate := Except.ok.inj (hs₁.symm.trans hmove)
  have htasks : s₁.tasks = Function.update s.tasks x
      (some ⟨{ t.toTaskInfo with state := .active }, s.head .taskHeadp⟩) := by rw [hstate]
  have hheads : s₁.head = Function.update (Function.update s.head l t.next) .taskHeadp x := by
    rw [hstate]
  have htimes : s₁.sleepTime = Function.update s.sleepTime x 0 := by rw [hstate]
  have hother : ∀ y, y ≠ x → s₁.nextOf y = s.nextOf y := fun y hy => by
    rw [Kernel.nextOf, Kernel.nextOf, htasks, Function.update_of_ne hy]
  refine ⟨s₁, hs₁, ?_, ?_, ?_, ?_, fun p hp => ⟨?_, ?_⟩, fun l' hl' hne => ?_, by rw [hstate]⟩
  · rw [hheads, Function.update_of_ne hl, Function.update_self, ← hnext]
    -- the link of `x` is not one of the rest
    refine h.pop fun y hy => hother y ?_
    rintro rfl
    exact (List.nodup_cons.1 h.nodup).1 hy
  · rw [hheads, Function.update_self]
    refine hactive.push hx0 ?_ fun y hy => hother y ?_
    · rw [Kernel.nextOf, htasks, Function.update_self]
      rfl
    · rintro rfl
      exact hx hy
  · rw [htasks, Function.update_self]
  · rw [htimes, Function.update_self]
  · rw [htasks, Function.update_of_ne hp]
  · rw [htimes, Function.update_of_ne hp]
  · rw [hheads, Function.update_of_ne hne, Function.update_of_ne hl']

/-! ### The whole list -/

/-- **The loop** moves the tasks that are left. -/
theorem wakeupLoop_spec {fuel : ℕ} (hl : l ≠ .taskHeadp) (h : Linked 0 s.nextOf (s.head l) waiting)
    (hactive : Linked 0 s.nextOf (s.head .taskHeadp) active) (hdisj : waiting.Disjoint active)
    (halive : ∀ p ∈ waiting, ∃ t, s.tasks p = some t) (hfuel : waiting.length < fuel) :
    ∃ s', wakeupLoop l fuel (s.head l) s = .ok s' ∧ AllWoken s s' l waiting active ∧
      (waiting = [] → s' = s) := by
  induction waiting generalizing s active fuel with
  | nil =>
    obtain ⟨fuel, rfl⟩ := Nat.exists_eq_succ_of_ne_zero (Nat.ne_of_gt hfuel)
    have hempty : s.head l = 0 := h
    refine ⟨s, ?_, ⟨hempty, hactive, fun p hp => absurd hp List.not_mem_nil, fun _ _ => ⟨rfl, rfl⟩,
      fun _ _ _ => rfl, rfl⟩, fun _ => rfl⟩
    rw [wakeupLoop_def, if_pos hempty]
  | cons x waiting ih =>
    obtain ⟨fuel, rfl⟩ := Nat.exists_eq_succ_of_ne_zero (Nat.ne_of_gt (Nat.zero_lt_of_lt hfuel))
    obtain ⟨t, ht⟩ := halive x List.mem_cons_self
    obtain ⟨hxa, hrest⟩ := List.disjoint_cons_left.1 hdisj
    have hnd := (List.nodup_cons.1 h.nodup).1
    have hx0 : x ≠ 0 := h.2.1
    obtain ⟨s₁, hs₁, h₁, hactive₁, htask, htime, hothers, hheads, hglobals⟩ :=
      exists_moveActive hl h hactive hxa ht
    have hdisj₁ : waiting.Disjoint (x :: active) := List.disjoint_cons_right.2 ⟨hnd, hrest⟩
    have hne : ∀ p ∈ waiting, p ≠ x := fun p hp heq => hnd (heq ▸ hp)
    have halive₁ : ∀ p ∈ waiting, ∃ t, s₁.tasks p = some t := fun p hp => by
      rw [(hothers p (hne p hp)).1]
      exact halive p (List.mem_cons_of_mem _ hp)
    obtain ⟨s', hs', hw, -⟩ := ih h₁ hactive₁ hdisj₁ halive₁ (Nat.lt_of_succ_lt_succ hfuel)
    have hcursor : s₁.head l = t.next := by
      rw [h₁.head_eq, ← h.2.2.head_eq, Kernel.nextOf, ht]
      rfl
    refine ⟨s', ?_, ⟨hw.empty, ?_, fun p hp => ?_, fun p hp => ?_, fun l' hl' hne' => ?_,
      hw.globals.trans hglobals⟩, fun hnil => absurd hnil (List.cons_ne_nil _ _)⟩
    · have hhead : s.head l = x := h.1
      have hget : s.get x = .ok t := by
        rw [Kernel.get, if_neg hx0, ht]
      rw [hhead, wakeupLoop_def, if_neg hx0, hget, ok_bind, hs₁, ok_bind, ← hcursor]
      exact hs'
    · have hactive' := hw.active
      rwa [List.reverse_cons, List.append_assoc, List.singleton_append]
    · obtain rfl | hp := List.mem_cons.1 hp
      · -- the later iterations do not come back to it
        obtain ⟨hsame, hsameTime⟩ := hw.others p hnd
        exact ⟨t, _, ht, hsame.trans htask, hsameTime.trans htime⟩
      · obtain ⟨u, n, hu, hwoken⟩ := hw.woken p hp
        rw [(hothers p (hne p hp)).1] at hu
        exact ⟨u, n, hu, hwoken⟩
    · obtain ⟨hpx, hpw⟩ := not_or.1 (mt List.mem_cons.2 hp)
      obtain ⟨hsame, hsameTime⟩ := hw.others p hpw
      obtain ⟨hsame₁, hsameTime₁⟩ := hothers p hpx
      exact ⟨hsame.trans hsame₁, hsameTime.trans hsameTime₁⟩
    · exact (hw.heads l' hl' hne').trans (hheads l' hl' hne')

/-- **`wakeup` with the flag 0** moves the whole list in front of the active tasks, in reverse order, and
changes nothing else; nor does it change anything if the list is empty. -/
theorem wakeup_all (ts : ℕ) (hl : l ≠ .taskHeadp) (h : Linked 0 s.nextOf (s.head l) waiting)
    (hactive : Linked 0 s.nextOf (s.head .taskHeadp) active) (hdisj : waiting.Disjoint active)
    (halive : ∀ p ∈ waiting, ∃ t, s.tasks p = some t) :
    ∀ fuel, waiting.length < fuel → ∃ s', s.wakeup fuel l ts 0 = .ok s' ∧
      AllWoken s s' l waiting active ∧ (waiting = [] → s' = s) := by
  intro fuel hfuel
  obtain ⟨s', hs', hrest⟩ := wakeupLoop_spec hl h hactive hdisj halive hfuel
  exact ⟨s', (if_pos rfl).trans hs', hrest⟩

/-- Two tasks wait for the keyboard, and one is active. -/
def waitingKernel : TimedKernel where
  tasks := fun p =>
    if p = 10 then some ⟨{ Kernel.zeroTask with state := .sleep }, 11⟩
    else if p = 11 then some ⟨{ Kernel.zeroTask with state := .sleep }, 0⟩
    else if p = 12 then some ⟨Kernel.zeroTask, 0⟩
    else none
  head := fun l => if l = .waitStdinList then 10 else if l = .taskHeadp then 12 else 0
  current := 12
  clearZombie := 0
  zombieCount := 0
  pidCount := 3
  made := 3
  bufReady := true
  exitLog := []
  waitLog := []
  sleepTime := fun _ => 7

theorem wakeup_all_two : ∃ s', waitingKernel.wakeup 3 .waitStdinList 0 0 = .ok s' ∧
    AllWoken waitingKernel s' .waitStdinList [10, 11] [12] ∧ ([10, 11] = [] → s' = waitingKernel) := by
  have hwaiting : Linked 0 waitingKernel.nextOf (waitingKernel.head .waitStdinList) [10, 11] :=
    ⟨rfl, by decide, rfl, by decide, rfl⟩
  have hactive : Linked 0 waitingKernel.nextOf (waitingKernel.head .taskHeadp) [12] :=
    ⟨rfl, by decide, rfl⟩
  have halive : ∀ p ∈ [10, 11], (waitingKernel.tasks p).isSome = true := by decide
  exact wakeup_all 0 (by decide) hwaiting hactive (by simp)
    (fun p hp => Option.isSome_iff_exists.1 (halive p hp)) 3 (by decide)

end TimedKernel

end PlumOs
