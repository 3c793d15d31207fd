import PlumOs.Proc.KernelFrame
import PlumOs.Proc.RoundRobin

/-!
# Timeslices (`sys/timer.c`, `sys/process.c`)

`interrupt_handler_timer` counts the ticks of the task that runs, and calls `schedule` at the eleventh.  A
task that is switched out for another reason keeps its count.

* `SlicedKernel` : the kernel with the field `timeslice`, and the ticks that do not end a timeslice;
* `counted_of_run` : **no count exceeds ten** in any state that a run reaches;
* `Ticks` : ticks, and what happens between them while the ready list does not change;
* `Ticks.quantum` : the task that runs goes on to the end of its timeslice, and the next one follows;
* `no_starvation` : **each task that is ready runs within eleven ticks for each task of the list**;
* `fair_share` : **each task runs for eleven ticks of a round**, if all start with a new timeslice.
-/

namespace PlumOs

/-- The kernel, with the `timeslice` of each task. -/
structure SlicedKernel where
  /-- The kernel without the timer. -/
  kernel : Kernel
  /-- The field `timeslice` of the task at an address. -/
  timeslice : ℕ → ℤ

/-- A step of the kernel, or a timer interrupt. -/
inductive SlicedAct where
  | act (a : KAct)
  | tick
  deriving DecidableEq, Repr

namespace SlicedKernel

/-- The counts after a step; a new `task_struct` is a page of zeros. -/
def slicesAfter (s : SlicedKernel) (a : KAct) (k : Kernel) : ℕ → ℤ :=
  match Kernel.pageOf a with
  | some page => if k.made = s.kernel.made then s.timeslice else Function.update s.timeslice page 0
  | none => s.timeslice

/-- One step.  `interrupt_handler_timer` is not entered inside of `schedule`, and calls it at the end of a
timeslice. -/
def step (s : SlicedKernel) : SlicedAct → Except Halt SlicedKernel
  | .act .timer => .error .disabled
  | .act a => do
    let k ← s.kernel.step a
    return ⟨k, s.slicesAfter a k⟩
  | .tick => do
    let t ← s.kernel.get s.kernel.current
    if t.frames.head? = some .schedule then throw .disabled
    if s.timeslice s.kernel.current = 10 then
      let k ← s.kernel.step .timer
      return ⟨k, Function.update s.timeslice s.kernel.current 0⟩
    else
      return ⟨s.kernel,
        Function.update s.timeslice s.kernel.current (s.timeslice s.kernel.current + 1)⟩

/-- The whole of `interrupt_handler_timer`, where no task is killed: the interrupts are off up to the end of
`schedule`. -/
def timerHandler (s : SlicedKernel) : Except Halt SlicedKernel := do
  let s' ← s.step .tick
  if s.timeslice s.kernel.current = 10 then s'.step (.act (.kernel 0 true)) else return s'

/-- The counts are in order. -/
def Counted (s : SlicedKernel) : Prop := ∀ p, 0 ≤ s.timeslice p ∧ s.timeslice p ≤ 10

end SlicedKernel

/-! ### One step -/

/-- The timer interrupt outside of `schedule`. -/
theorem Kernel.step_timer {s : Kernel} {t : TaskInfo} (hcur : s.current ≠ 0) (ht : s.info s.current = some t)
    (hin : t.frames.head? ≠ some .schedule) :
    s.step .timer = .ok (s.assign s.current { t with frames := .schedule :: t.frames }) := by
  have hpush : s.pushFrame .schedule = .ok (s.assign s.current { t with frames := .schedule :: t.frames }) :=
    modify_ok hcur ht _
  rw [Kernel.step, get_of_info hcur ht, ok_bind, ← hpush]
  cases hframes : t.frames with
  | nil => rfl
  | cons f fs =>
    rw [hframes] at hin
    cases f <;> first | rfl | exact absurd rfl hin

namespace SlicedKernel

variable {s s' s₁ : SlicedKernel} {tasks ran : List ℕ} {i n : ℕ} {a : KAct}

theorem step_act (s : SlicedKernel) (ha : a ≠ .timer) :
    s.step (.act a) = s.kernel.step a >>= fun k => pure ⟨k, s.slicesAfter a k⟩ := by
  cases a <;> first | rfl | exact absurd rfl ha

/-- What a tick does. -/
theorem tick_cases (hs : s.step .tick = .ok s') : ∃ t, s.kernel.get s.kernel.current = .ok t ∧
    t.frames.head? ≠ some .schedule ∧
      ((s.timeslice s.kernel.current = 10 ∧ ∃ k, s.kernel.step .timer = .ok k ∧
          s' = ⟨k, Function.update s.timeslice s.kernel.current 0⟩) ∨
        s.timeslice s.kernel.current ≠ 10 ∧ s' = ⟨s.kernel,
          Function.update s.timeslice s.kernel.current (s.timeslice s.kernel.current + 1)⟩) := by
  rw [step] at hs
  obtain ⟨t, ht, hs⟩ := bind_eq_ok.1 hs
  by_cases hin : t.frames.head? = some .schedule
  · rw [if_pos hin] at hs
    cases hs
  rw [if_neg hin] at hs
  refine ⟨t, ht, hin, ?_⟩
  by_cases hend : s.timeslice s.kernel.current = 10
  · rw [if_pos hend] at hs
    obtain ⟨k, hk, hs⟩ := bind_eq_ok.1 hs
    exact .inl ⟨hend, k, hk, (Except.ok.inj hs).symm⟩
  · rw [if_neg hend] at hs
    exact .inr ⟨hend, (Except.ok.inj hs).symm⟩

/-! ### The counts -/

theorem Counted.update (h : s.Counted) {p : ℕ} {w : ℤ} (hw : 0 ≤ w ∧ w ≤ 10) (k : Kernel) :
    Counted ⟨k, Function.update s.timeslice p w⟩ := by
  intro q
  show 0 ≤ Function.update s.timeslice p w q ∧ Function.update s.timeslice p w q ≤ 10
  rw [Function.update_apply]
  split
  · exact hw
  · exact h q

theorem Counted.step (h : s.Counted) {a : SlicedAct} (hs : s.step a = .ok s') : s'.Counted := by
  cases a with
  | tick =>
    obtain ⟨t, -, -, ⟨-, k, -, rfl⟩ | ⟨hne, rfl⟩⟩ := tick_cases hs
    · exact h.update ⟨le_rfl, by decide⟩ k
    · obtain ⟨hlo, hhi⟩ := h s.kernel.current
      exact h.update ⟨by omega, by omega⟩ s.kernel
  | act a =>
    by_cases htimer : a = .timer
    · rw [htimer] at hs
      cases hs
    rw [step_act s htimer] at hs
    obtain ⟨k, -, hk⟩ := bind_eq_ok.1 hs
    obtain rfl := Except.ok.inj hk
    rw [slicesAfter]
    cases Kernel.pageOf a with
    | none => exact h
    | some page =>
      dsimp only
      split_ifs
      · exact h
      · exact h.update ⟨le_rfl, by decide⟩ k

/-- **No count exceeds ten.** -/
theorem counted_of_run (h : s.Counted) {acts : List SlicedAct} (hrun : run step s acts = .ok s') :
    s'.Counted :=
  run_invariant (G := fun _ _ => True) h (fun _ _ _ hs _ ht => hs.step ht)
    (along_of_forall (fun _ _ => trivial) _ _) hrun

/-! ### One tick -/

/-- What happens between two ticks: the ready list, the pids, the signals and the counts stay. -/
structure Quiet (s s' : SlicedKernel) : Prop where
  kernel : s.kernel.Quiet s'.kernel
  timeslice : s'.timeslice = s.timeslice

/-- Some ticks, with the tasks that run then. -/
inductive Ticks : SlicedKernel → List ℕ → SlicedKernel → Prop
  | nil (s : SlicedKernel) : Ticks s [] s
  | cons {s s₁ s₂ s' : SlicedKernel} {ran : List ℕ} (quiet : s.Quiet s₁)
      (handler : s₁.timerHandler = .ok s₂) (rest : Ticks s₂ ran s') :
      Ticks s (s₁.kernel.current :: ran) s'

theorem Ticks.split {ran' : List ℕ} (h : Ticks s (ran ++ ran') s') :
    ∃ s₁, Ticks s ran s₁ ∧ Ticks s₁ ran' s' := by
  induction ran generalizing s with
  | nil => exact ⟨s, .nil s, h⟩
  | cons p ran ih =>
    rw [List.cons_append] at h
    cases h with
    | cons quiet handler rest =>
      obtain ⟨s₁, h₁, h₂⟩ := ih rest
      exact ⟨s₁, .cons quiet handler h₁, h₂⟩

/-- A task of the ready list runs. -/
structure AtTurn (tasks : List ℕ) (i : ℕ) (s : SlicedKernel) : Prop where
  ready : s.kernel.ReadyList tasks
  current : s.kernel.current = Kernel.turn tasks i

theorem AtTurn.quiet (h : AtTurn tasks i s) (hq : s.Quiet s') : AtTurn tasks i s' :=
  ⟨h.ready.quiet hq.kernel, hq.kernel.current.trans h.current⟩

/-- A tick inside of a timeslice. -/
theorem AtTurn.stay (h : AtTurn tasks i s) (hs : s.timerHandler = .ok s')
    (hslice : s.timeslice (Kernel.turn tasks i) ≠ 10) : AtTurn tasks i s' ∧
      s'.timeslice = Function.update s.timeslice (Kernel.turn tasks i)
        (s.timeslice (Kernel.turn tasks i) + 1) := by
  rw [← h.current] at hslice ⊢
  rw [timerHandler] at hs
  obtain ⟨s₁, htick, hs⟩ := bind_eq_ok.1 hs
  rw [if_neg hslice] at hs
  obtain rfl := Except.ok.inj hs
  obtain ⟨t, -, -, ⟨hend, -⟩ | ⟨-, rfl⟩⟩ := tick_cases htick
  · exact absurd hend hslice
  · exact ⟨⟨h.ready, h.current⟩, rfl⟩

/-- The tick at the end of a timeslice. -/
theorem AtTurn.yield (h : AtTurn tasks i s) (hs : s.timerHandler = .ok s')
    (hslice : s.timeslice (Kernel.turn tasks i) = 10) : AtTurn tasks (i + 1) s' ∧
      s'.timeslice = Function.update s.timeslice (Kernel.turn tasks i) 0 := by
  rw [← h.current] at hslice ⊢
  rw [timerHandler] at hs
  obtain ⟨s₁, htick, hs⟩ := bind_eq_ok.1 hs
  rw [if_pos hslice] at hs
  obtain ⟨t, hget, hin, ⟨-, k, hk, rfl⟩ | ⟨hne, -⟩⟩ := tick_cases htick
  swap
  · exact absurd hslice hne
  have hcur := h.ready.current
  have ht := Kernel.info_of_tasks (Kernel.get_eq_ok hget)
  rw [Kernel.step_timer hcur ht hin] at hk
  -- `schedule` is called with the frame of the handler
  obtain rfl := Except.ok.inj hk
  obtain ⟨u, hu⟩ : ∃ u, u = s.kernel.assign s.kernel.current
      { t.toTaskInfo with frames := .schedule :: t.frames } := ⟨_, rfl⟩
  rw [← hu] at hs
  have hinfo : u.info u.current = some { t.toTaskInfo with frames := .schedule :: t.frames } := by
    rw [hu, Kernel.assign_info]
    exact Function.update_self ..
  have hquiet : s.kernel.Quiet u := by
    rw [hu]
    refine ⟨rfl, le_rfl, rfl, Kernel.assign_nextOf, fun p => ?_⟩
    rw [Kernel.assign_info]
    by_cases hp : p = s.kernel.current
    · rw [hp, Function.update_self, ht]
      rfl
    · rw [Function.update_of_ne hp]
  have hready := h.ready.quiet hquiet
  have hturn : u.current = Kernel.turn tasks i := hquiet.current.trans h.current
  obtain ⟨k', hk', hready', hcur'⟩ := Kernel.schedule_turn hready hturn
  have hmade : k'.made = u.made := by
    have hmem := Kernel.turn_mem hready.nonempty (i + 1)
    obtain ⟨v, hv⟩ := hready.alive _ (List.mem_cons_of_mem _ hmem)
    have hget := Kernel.get_of_info (hready.linked.ne_null hmem) hv
    have hok := Kernel.schedule_ok (Kernel.selectTaskStruct_turn hready hturn) hget
      (hready.calm _ hmem v hv) hready.current hinfo
    obtain rfl := Except.ok.inj (hk'.symm.trans hok)
    rfl
  have hstep : u.step (.kernel 0 true) = .ok k' := by
    rw [Kernel.step_kernel ⟨_, _, hinfo, rfl⟩ hready.current]
    exact hk'
  rw [step_act _ (by decide)] at hs
  have hpage : Kernel.pageOf (.kernel 0 true) = some 0 := rfl
  simp only [hstep, ok_bind, slicesAfter, hpage, if_pos hmade] at hs
  obtain rfl := Except.ok.inj hs
  exact ⟨⟨hready', hcur'⟩, rfl⟩

/-! ### Timeslices -/

/-- **A timeslice**: the task runs up to its eleventh tick, and the next task follows with the count it
has. -/
theorem Ticks.quantum (ht : Ticks s ran s') (h : AtTurn tasks i s)
    (hn : s.timeslice (Kernel.turn tasks i) = 10 - n) (hlen : ran.length = n + 1) :
    ran = List.replicate (n + 1) (Kernel.turn tasks i) ∧ AtTurn tasks (i + 1) s' ∧
      s'.timeslice = Function.update s.timeslice (Kernel.turn tasks i) 0 := by
  induction n generalizing s ran with
  | zero =>
    cases ht with
    | nil => cases hlen
    | @cons _ s₁ s₂ _ ran quiet handler rest =>
      obtain rfl : ran = [] := List.length_eq_zero_iff.1 (Nat.succ.inj hlen)
      cases rest
      have h₁ := h.quiet quiet
      rw [← quiet.timeslice] at hn ⊢
      obtain ⟨h₂, hslices⟩ := h₁.yield handler (by rw [hn]; rfl)
      exact ⟨by rw [h₁.current]; rfl, h₂, hslices⟩
  | succ n ih =>
    cases ht with
    | nil => cases hlen
    | @cons _ s₁ s₂ _ ran quiet handler rest =>
      have h₁ := h.quiet quiet
      rw [← quiet.timeslice] at hn ⊢
      obtain ⟨h₂, hslices⟩ := h₁.stay handler (by omega)
      have hn₂ : s₂.timeslice (Kernel.turn tasks i) = 10 - n := by
        rw [hslices, Function.update_self]
        omega
      obtain ⟨hran, h', hslices'⟩ := ih rest h₂ hn₂ (Nat.succ.inj hlen)
      refine ⟨?_, h', ?_⟩
      · rw [hran, h₁.current]
        rfl
      · rw [hslices', hslices, Function.update_idem]

/-- The task some places ahead runs within eleven ticks for each place. -/
theorem Ticks.waits (ht : Ticks s ran s') (h : AtTurn tasks i s) (hcount : s.Counted)
    (hlen : 11 * n < ran.length) : Kernel.turn tasks (i + n) ∈ ran := by
  induction n generalizing s ran i with
  | zero =>
    cases ht with
    | nil => cases hlen
    | cons quiet handler rest =>
      rw [Nat.add_zero, ← (h.quiet quiet).current]
      exact List.mem_cons_self
  | succ n ih =>
    obtain ⟨hlo, hhi⟩ := hcount (Kernel.turn tasks i)
    obtain ⟨m, hm⟩ : ∃ m : ℕ, s.timeslice (Kernel.turn tasks i) = 10 - m :=
      ⟨(10 - s.timeslice (Kernel.turn tasks i)).toNat, by omega⟩
    rw [← List.take_append_drop (m + 1) ran] at ht ⊢
    obtain ⟨s₁, hfirst, hrest⟩ := ht.split
    obtain ⟨-, h₁, hslices⟩ := hfirst.quantum h hm (List.length_take_of_le (by omega))
    have hcount₁ : s₁.Counted := by
      have hupdate := hcount.update (p := Kernel.turn tasks i) (w := 0) ⟨le_rfl, by decide⟩ s₁.kernel
      rw [← hslices] at hupdate
      exact hupdate
    have hstep : i + 1 + n = i + (n + 1) := by omega
    have hmem := ih hrest h₁ hcount₁ (by rw [List.length_drop]; omega)
    rw [hstep] at hmem
    exact List.mem_append_right _ hmem

theorem Quiet.refl (s : SlicedKernel) : s.Quiet s := ⟨Kernel.Quiet.refl _, rfl⟩

/-- Ticks with nothing between them. -/
theorem exists_ticks {n : ℕ} (hrun : run (fun s (_ : Unit) => timerHandler s) s (List.replicate n ()) = .ok s') :
    ∃ ran, Ticks s ran s' ∧ ran.length = n := by
  induction n generalizing s with
  | zero =>
    obtain rfl := Except.ok.inj hrun
    exact ⟨[], .nil s, rfl⟩
  | succ n ih =>
    obtain ⟨s₁, hs₁, hrest⟩ := run_cons_eq_ok.1 hrun
    obtain ⟨ran, hran, hlen⟩ := ih hrest
    exact ⟨_, .cons (Quiet.refl s) hs₁ hran, congrArg (· + 1) hlen⟩

/-- The threads that are ready after boot. -/
def booted : SlicedKernel := ⟨Kernel.started 10 11 12 13, fun _ => 0⟩

theorem booted_ticks {n : ℕ} (h : reaches (run (fun s (_ : Unit) => timerHandler s) booted
    (List.replicate n ())) (fun _ => true) = true) : ∃ ran s', Ticks booted ran s' ∧ ran.length = n := by
  obtain ⟨s', hs', -⟩ := exists_of_reaches h
  obtain ⟨ran, hran, hlen⟩ := exists_ticks hs'
  exact ⟨ran, s', hran, hlen⟩

/-- **Each task that is ready runs** within eleven ticks for each task of the list, in every state that is
reached, as long as the list stays as it is. -/
theorem no_starvation (boot : SlicedKernel) (hboot : boot.Counted) (acts : List SlicedAct)
    (hrun : run step boot acts = .ok s) (h : s.kernel.ReadyList tasks) (hcur : s.kernel.current ∈ tasks)
    (ht : Ticks s ran s') (hlen : 11 * tasks.length ≤ ran.length) : ∀ p ∈ tasks, p ∈ ran := by
  intro p hp
  have hpos := List.length_pos_iff.2 h.nonempty
  obtain ⟨i, hi, hat⟩ := List.getElem_of_mem hcur
  obtain ⟨j, hj, hjp⟩ := List.getElem_of_mem hp
  have hturn : AtTurn tasks i s := by
    refine ⟨h, ?_⟩
    rw [Kernel.turn, Nat.mod_eq_of_lt hi, List.getD_eq_getElem _ _ hi, hat]
  -- `p` is fewer places ahead than there are tasks
  obtain ⟨n, hn, hahead⟩ : ∃ n < tasks.length, (i + n) % tasks.length = j := by
    rcases le_total i j with hle | hle
    · exact ⟨j - i, by omega, by rw [Nat.add_sub_of_le hle, Nat.mod_eq_of_lt hj]⟩
    · obtain rfl | hlt := Nat.eq_or_lt_of_le hle
      · exact ⟨0, hpos, Nat.mod_eq_of_lt hj⟩
      · refine ⟨tasks.length - (i - j), by omega, ?_⟩
        have hsum : i + (tasks.length - (i - j)) = j + tasks.length := by omega
        rw [hsum, Nat.add_mod_right, Nat.mod_eq_of_lt hj]
  have hmem := ht.waits hturn (counted_of_run hboot hrun) (n := n) (by omega)
  rw [Kernel.turn, hahead, List.getD_eq_getElem _ _ hj, hjp] at hmem
  exact hmem

/-- In the first 44 ticks all four threads run. -/
theorem no_starvation_booted : ∃ ran s', Ticks booted ran s' ∧ ran.length = 44 ∧
    ∀ p ∈ [13, 12, 11, 10], p ∈ ran := by
  obtain ⟨ran, s', hran, hlen⟩ := booted_ticks (n := 44) (by decide +kernel)
  have hten : (0 : ℤ) ≤ 10 := by decide
  have hcounted : booted.Counted := fun _ => ⟨le_rfl, hten⟩
  have hall := no_starvation booted hcounted [] rfl Kernel.readyList_started (by decide) hran hlen.ge
  exact ⟨ran, s', hran, hlen, hall⟩

/-! ### Rounds -/

/-- Some timeslices that are all new. -/
theorem Ticks.rounds (ht : Ticks s ran s') (h : AtTurn tasks i s) (hnew : ∀ p ∈ tasks, s.timeslice p = 0)
    (hlen : ran.length = 11 * n) :
    ran = ((List.range' i n).map (Kernel.turn tasks)).flatMap (List.replicate 11) ∧
      AtTurn tasks (i + n) s' ∧ ∀ p ∈ tasks, s'.timeslice p = 0 := by
  induction n generalizing s ran i with
  | zero =>
    obtain rfl := List.length_eq_zero_iff.1 hlen
    cases ht
    exact ⟨rfl, h, hnew⟩
  | succ n ih =>
    rw [← List.take_append_drop 11 ran] at ht
    obtain ⟨s₁, hfirst, hrest⟩ := ht.split
    have hzero : s.timeslice (Kernel.turn tasks i) = 10 - (10 : ℕ) :=
      hnew _ (Kernel.turn_mem h.ready.nonempty i)
    obtain ⟨hran, h₁, hslices⟩ := hfirst.quantum h hzero (List.length_take_of_le (by omega))
    have hnew₁ : ∀ p ∈ tasks, s₁.timeslice p = 0 := by
      intro p hp
      rw [hslices, Function.update_apply, hnew p hp, ite_self]
    obtain ⟨hrest, h', hnew'⟩ := ih hrest h₁ hnew₁ (by rw [List.length_drop]; omega)
    have hstep : i + 1 + n = i + (n + 1) := by omega
    refine ⟨?_, hstep ▸ h', hnew'⟩
    rw [List.range'_succ, List.map_cons, List.flatMap_cons, ← hrest, ← hran, List.take_append_drop]

theorem count_flatMap_replicate (l : List ℕ) (k p : ℕ) :
    (l.flatMap (List.replicate k)).count p = k * l.count p := by
  induction l with
  | nil => rfl
  | cons q l ih =>
    rw [List.flatMap_cons, List.count_append, ih, List.count_replicate, List.count_cons, Nat.mul_add,
      Nat.add_comm]
    congr 1
    split_ifs <;> omega

/-- One round. -/
theorem Ticks.round (ht : Ticks s ran s') (h : s.kernel.ReadyList tasks) (hcur : s.kernel.current ∈ tasks)
    (hnew : ∀ p ∈ tasks, s.timeslice p = 0) (hlen : ran.length = 11 * tasks.length) :
    (∀ p ∈ tasks, ran.count p = 11) ∧ s'.kernel.ReadyList tasks ∧
      s'.kernel.current = s.kernel.current ∧ ∀ p ∈ tasks, s'.timeslice p = 0 := by
  obtain ⟨j, hj, hat⟩ := List.getElem_of_mem hcur
  -- the place of the task that runs, in the next round
  obtain ⟨i, hi⟩ : ∃ i, i + 1 = j + tasks.length := ⟨j + tasks.length - 1, by omega⟩
  have hturn : AtTurn tasks (i + 1) s := by
    refine ⟨h, ?_⟩
    rw [hi, Kernel.turn, Nat.add_mod_right, Nat.mod_eq_of_lt hj, List.getD_eq_getElem _ _ hj, hat]
  obtain ⟨hran, h', hnew'⟩ := ht.rounds hturn hnew hlen
  refine ⟨fun p hp => ?_, h'.ready, ?_, hnew'⟩
  · rw [hran, count_flatMap_replicate, Kernel.round_eq_rotate h.nonempty,
      (List.rotate_perm tasks (i + 1)).count_eq, List.count_eq_one_of_mem h.linked.nodup hp]
  · rw [h'.current, hturn.current, Kernel.turn, Kernel.turn, Nat.add_mod_right]

/-- **Each task runs for eleven ticks of a round**, if all the tasks have a new timeslice; then they have one
again, and the next round begins with the same task. -/
theorem fair_share (h : s.kernel.ReadyList tasks) (hcur : s.kernel.current ∈ tasks)
    (hnew : ∀ p ∈ tasks, s.timeslice p = 0) (rounds : ℕ) (ht : Ticks s ran s')
    (hlen : ran.length = 11 * tasks.length * rounds) :
    (∀ p ∈ tasks, ran.count p = 11 * rounds) ∧ s'.kernel.current = s.kernel.current ∧
      ∀ p ∈ tasks, s'.timeslice p = 0 := by
  induction rounds generalizing s ran with
  | zero =>
    obtain rfl := List.length_eq_zero_iff.1 hlen
    cases ht
    exact ⟨fun p _ => rfl, rfl, hnew⟩
  | succ rounds ih =>
    rw [Nat.mul_succ] at hlen
    rw [← List.take_append_drop (11 * tasks.length) ran] at ht
    obtain ⟨s₁, hfirst, hrest⟩ := ht.split
    obtain ⟨hcount, h₁, hcur₁, hnew₁⟩ :=
      hfirst.round h hcur hnew (List.length_take_of_le (by omega))
    obtain ⟨hcount', hcur', hnew'⟩ :=
      ih h₁ (hcur₁ ▸ hcur) hnew₁ hrest (by rw [List.length_drop]; omega)
    refine ⟨fun p hp => ?_, hcur'.trans hcur₁, hnew'⟩
    rw [← List.take_append_drop (11 * tasks.length) ran, List.count_append, hcount p hp, hcount' p hp,
      Nat.mul_succ, Nat.add_comm]

/-- In the first 44 ticks each of the four threads runs for eleven. -/
theorem fair_share_booted : ∃ ran s', Ticks booted ran s' ∧ (∀ p ∈ [13, 12, 11, 10], ran.count p = 11) ∧
    s'.kernel.current = 10 := by
  obtain ⟨ran, s', hran, hlen⟩ := booted_ticks (n := 44) (by decide +kernel)
  have hround : ran.length = 11 * [13, 12, 11, 10].length * 1 := hlen
  obtain ⟨hcount, hcur, -⟩ := fair_share (s := booted) Kernel.readyList_started (by decide) (fun _ _ => rfl) 1
    hran hround
  exact ⟨ran, s', hran, hcount, hcur⟩

end SlicedKernel

end PlumOs
