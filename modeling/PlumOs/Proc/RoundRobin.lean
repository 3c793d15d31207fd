import Mathlib.Data.List.GetD
import Mathlib.Data.List.Rotate
import PlumOs.Proc.Killed

/-!
# Round robin (`sys/process.c`)

`schedule` goes on to the task behind `current` on `task_headp`, or to the first one.

* `ReadyList` : the list of the tasks that are ready, with distinct pids and without `sigterm`;
* `Decisions` : some calls of `schedule` one after the other, while the lists do not change;
* `selectTaskStruct_turn`, `selectTaskStruct_mem` : which task is selected;
* `decisions_turns` : the tasks that become current are those of the list, one after the other;
* `round_robin` : **as many decisions as there are tasks make each of them current once**.
-/

namespace PlumOs

/-! ### Links by position -/

namespace Linked

variable {P : Type*} {null : P} {next : P → P} {p : P} {l : List P}

/-- The link of the cell at one place of the list. -/
theorem next_getElem? (h : Linked null next p l) {i : ℕ} {x : P} (hx : l[i]? = some x) :
    next x = l[i + 1]?.getD null := by
  induction l generalizing p i with
  | nil => cases hx
  | cons y l ih =>
    cases i with
    | zero =>
      rw [List.getElem?_cons_zero, Option.some.injEq] at hx
      rw [← hx, List.getElem?_cons_succ, h.2.2.head_eq, List.head?_eq_getElem?]
    | succ i => exact ih h.2.2 hx

end Linked

namespace Kernel

/-- The list of the tasks that are ready. -/
structure ReadyList (s : Kernel) (tasks : List ℕ) : Prop where
  linked : Linked 0 s.nextOf (s.head .taskHeadp) tasks
  nonempty : tasks ≠ []
  current : s.current ≠ 0
  alive : ∀ p ∈ s.current :: tasks, ∃ t, s.info p = some t
  pids : ∀ p ∈ s.current :: tasks, ∀ q ∈ s.current :: tasks, ∀ t u, s.info p = some t →
    s.info q = some u → t.pid = u.pid → p = q
  calm : ∀ p ∈ tasks, ∀ t, s.info p = some t → t.sigterm = false
  /-- The bound of the walks is large enough for the list. -/
  short : tasks.length < s.fuel

/-- The task at a place of the list, which is taken as a ring. -/
def turn (tasks : List ℕ) (i : ℕ) : ℕ := tasks.getD (i % tasks.length) 0

/-- What happens between two decisions: the list, the pids and `sigterm` stay as they are. -/
structure Quiet (s s' : Kernel) : Prop where
  current : s'.current = s.current
  made : s.made ≤ s'.made
  head : s'.head .taskHeadp = s.head .taskHeadp
  next : s'.nextOf = s.nextOf
  tasks : ∀ p, (s'.info p).map (fun t => (t.pid, t.sigterm)) =
    (s.info p).map fun t => (t.pid, t.sigterm)

/-- Decisions of `schedule`, and the tasks that become current. -/
inductive Decisions : Kernel → List ℕ → Kernel → Prop
  | nil (s : Kernel) : Decisions s [] s
  | cons {s s₁ s₂ s' : Kernel} {tasks : List ℕ} (quiet : Quiet s s₁) (decides : s₁.schedule = .ok s₂)
      (rest : Decisions s₂ tasks s') : Decisions s (s₂.current :: tasks) s'

variable {s s' s₁ : Kernel} {tasks turns : List ℕ} {p i : ℕ}

theorem turn_lt (h : tasks ≠ []) (i : ℕ) : i % tasks.length < tasks.length :=
  Nat.mod_lt _ (List.length_pos_iff.2 h)

theorem turn_mem (h : tasks ≠ []) (i : ℕ) : turn tasks i ∈ tasks := by
  rw [turn, List.getD_eq_getElem _ _ (turn_lt h i)]
  exact List.getElem_mem _

theorem Quiet.info (h : Quiet s s') {t' : TaskInfo} (ht : s'.info p = some t') :
    ∃ t, s.info p = some t ∧ t.pid = t'.pid ∧ t.sigterm = t'.sigterm := by
  have hmap := h.tasks p
  rw [ht, Option.map_some] at hmap
  obtain ⟨t, ht, hfields⟩ := Option.map_eq_some_iff.1 hmap.symm
  obtain ⟨hpid, hsig⟩ := Prod.mk.inj hfields
  exact ⟨t, ht, hpid, hsig⟩

theorem Quiet.alive (h : Quiet s s') {t : TaskInfo} (ht : s.info p = some t) :
    ∃ t', s'.info p = some t' := by
  have hmap := h.tasks p
  rw [ht, Option.map_some] at hmap
  obtain ⟨t', ht', -⟩ := Option.map_eq_some_iff.1 hmap
  exact ⟨t', ht'⟩

theorem Quiet.refl (s : Kernel) : Quiet s s := ⟨rfl, le_rfl, rfl, rfl, fun _ => rfl⟩

namespace ReadyList

theorem quiet (h : ReadyList s tasks) (hq : Quiet s s') : ReadyList s' tasks where
  linked := by
    rw [hq.head, hq.next]
    exact h.linked
  nonempty := h.nonempty
  current := by
    rw [hq.current]
    exact h.current
  alive p hp := by
    rw [hq.current] at hp
    obtain ⟨t, ht⟩ := h.alive p hp
    exact hq.alive ht
  pids p hp q hq' t u ht hu hpid := by
    rw [hq.current] at hp hq'
    obtain ⟨t₀, ht₀, htpid, -⟩ := hq.info ht
    obtain ⟨u₀, hu₀, hupid, -⟩ := hq.info hu
    exact h.pids p hp q hq' t₀ u₀ ht₀ hu₀ (htpid.trans (hpid.trans hupid.symm))
  calm p hp t ht := by
    obtain ⟨t₀, ht₀, -, hsig⟩ := hq.info ht
    exact hsig.symm.trans (h.calm p hp t₀ ht₀)
  short := by
    have hmade := hq.made
    have hshort := h.short
    unfold fuel at hshort ⊢
    omega

/-- Another task of the list becomes current. -/
theorem setCurrent (h : ReadyList s tasks) (hp : p ∈ tasks) :
    ReadyList { s with current := p } tasks where
  linked := h.linked
  nonempty := h.nonempty
  current := h.linked.ne_null hp
  alive q hq := h.alive q (List.mem_cons_of_mem _ ((List.mem_cons.1 hq).elim (· ▸ hp) id))
  pids q hq r hr := h.pids q (List.mem_cons_of_mem _ ((List.mem_cons.1 hq).elim (· ▸ hp) id))
    r (List.mem_cons_of_mem _ ((List.mem_cons.1 hr).elim (· ▸ hp) id))
  calm := h.calm
  short := h.short

/-- The task behind another one, or the first one. -/
theorem next_turn (h : ReadyList s tasks) (i : ℕ) :
    (if s.nextOf (turn tasks i) ≠ 0 then s.nextOf (turn tasks i) else s.head .taskHeadp) =
      turn tasks (i + 1) := by
  have hlt := turn_lt h.nonempty i
  have hat : tasks[i % tasks.length]? = some (turn tasks i) := by
    rw [turn, List.getD_eq_getElem _ _ hlt, List.getElem?_eq_getElem hlt]
  rw [h.linked.next_getElem? hat]
  by_cases hlast : i % tasks.length + 1 < tasks.length
  · have hmod : (i + 1) % tasks.length = i % tasks.length + 1 := by
      rw [← Nat.mod_add_mod, Nat.mod_eq_of_lt hlast]
    have hne : tasks[i % tasks.length + 1]?.getD 0 ≠ 0 := by
      rw [List.getElem?_eq_getElem hlast]
      exact h.linked.ne_null (List.getElem_mem _)
    rw [if_pos hne, turn, hmod, List.getD_eq_getElem?_getD]
  · have hend : i % tasks.length + 1 = tasks.length := by omega
    have hmod : (i + 1) % tasks.length = 0 := by rw [← Nat.mod_add_mod, hend, Nat.mod_self]
    rw [hend, List.getElem?_length, Option.getD_none, if_neg (not_not.2 rfl), turn, hmod,
      h.linked.head_eq, List.head?_eq_getElem?, List.getD_eq_getElem?_getD]

end ReadyList

/-! ### The selection -/

/-- The selection, after the search for the pid of `current`. -/
theorem selectTaskStruct_eq (h : ReadyList s tasks) {t : TaskInfo} {found : Option ℕ}
    (ht : s.info s.current = some t) (hfind : s.findProcessByPid t.pid .taskHeadp = .ok found)
    (hp : (if found.isSome then s.current else s.head .taskHeadp) = turn tasks i) :
    s.selectTaskStruct = .ok (turn tasks (i + 1)) := by
  have hmem := turn_mem h.nonempty i
  obtain ⟨u, hu⟩ := h.alive _ (List.mem_cons_of_mem _ hmem)
  rw [selectTaskStruct, get_of_info h.current ht, ok_bind, hfind, ok_bind]
  simp only
  rw [hp, get_of_info (h.linked.ne_null hmem) hu, ok_bind, ← h.next_turn i]
  split_ifs <;> rfl

theorem findProcessByPid_ready (h : ReadyList s tasks) (pid : ℤ) :
    (s.findProcessByPid pid .taskHeadp = .ok none ∧ ∀ y ∈ tasks, ∀ t, s.info y = some t → t.pid ≠ pid) ∨
      ∃ y ∈ tasks, ∃ t, s.info y = some t ∧ t.pid = pid ∧
        s.findProcessByPid pid .taskHeadp = .ok (some y) :=
  findPid_spec h.linked (fun y hy => h.alive y (List.mem_cons_of_mem _ hy)) h.short

/-- The next task of the list is selected. -/
theorem selectTaskStruct_turn (h : ReadyList s tasks) (hcur : s.current = turn tasks i) :
    s.selectTaskStruct = .ok (turn tasks (i + 1)) := by
  obtain ⟨t, ht⟩ := h.alive _ List.mem_cons_self
  have hmem : s.current ∈ tasks := by
    rw [hcur]
    exact turn_mem h.nonempty i
  rcases findProcessByPid_ready h t.pid with ⟨-, hnone⟩ | ⟨y, -, -, -, -, hsome⟩
  · exact absurd rfl (hnone _ hmem t ht)
  · exact selectTaskStruct_eq h ht hsome hcur

/-- **A task of the list is selected**, also if `current` is on another list. -/
theorem selectTaskStruct_mem (h : ReadyList s tasks) :
    ∃ next ∈ tasks, s.selectTaskStruct = .ok next := by
  obtain ⟨t, ht⟩ := h.alive _ List.mem_cons_self
  have hzero : s.head .taskHeadp = turn tasks 0 := by
    rw [h.linked.head_eq, turn, Nat.zero_mod, List.head?_eq_getElem?, List.getD_eq_getElem?_getD]
  rcases findProcessByPid_ready h t.pid with ⟨hnone, -⟩ | ⟨y, hy, u, hu, hpid, hsome⟩
  · exact ⟨_, turn_mem h.nonempty 1, selectTaskStruct_eq h ht hnone hzero⟩
  · -- the task that was found is `current`
    have hcur : y = s.current :=
      h.pids y (List.mem_cons_of_mem _ hy) _ List.mem_cons_self u t hu ht hpid
    obtain ⟨i, hi, hat⟩ := List.getElem_of_mem (hcur ▸ hy)
    have hturn : s.current = turn tasks i := by
      rw [turn, Nat.mod_eq_of_lt hi, List.getD_eq_getElem _ _ hi, hat]
    exact ⟨_, turn_mem h.nonempty (i + 1), selectTaskStruct_turn h hturn⟩

/-! ### Decisions -/

/-- A decision: the next task of the list becomes current, and the list stays as it is. -/
theorem schedule_turn (h : ReadyList s tasks) (hcur : s.current = turn tasks i) :
    ∃ s', s.schedule = .ok s' ∧ ReadyList s' tasks ∧ s'.current = turn tasks (i + 1) := by
  obtain ⟨t, ht⟩ := h.alive _ List.mem_cons_self
  have hmem := turn_mem h.nonempty (i + 1)
  obtain ⟨u, hu⟩ := h.alive _ (List.mem_cons_of_mem _ hmem)
  have hget := get_of_info (h.linked.ne_null hmem) hu
  refine ⟨_, schedule_ok (selectTaskStruct_turn h hcur) hget (h.calm _ hmem u hu) h.current ht, ?_, rfl⟩
  have hquiet : Quiet s (s.assign s.current { t with frames := t.frames.tail }) := by
    refine ⟨rfl, le_rfl, rfl, assign_nextOf, fun p => ?_⟩
    rw [assign_info]
    by_cases hp : p = s.current
    · rw [hp, Function.update_self, ht]
      rfl
    · rw [Function.update_of_ne hp]
  exact (h.quiet hquiet).setCurrent hmem

/-- **The tasks that become current** are those of the list, one after the other. -/
theorem decisions_turns (hd : Decisions s turns s') (h : ReadyList s tasks)
    (hcur : s.current = turn tasks i) : turns = (List.range' (i + 1) turns.length).map (turn tasks) ∧
      ReadyList s' tasks ∧ s'.current = turn tasks (i + turns.length) := by
  induction hd generalizing i with
  | nil s => exact ⟨rfl, h, hcur⟩
  | @cons s s₁ s₂ s' turns quiet decides rest ih =>
    have h₁ := h.quiet quiet
    obtain ⟨s₂', hs₂, h₂, hcur₂⟩ := schedule_turn h₁ (quiet.current.trans hcur)
    obtain rfl := Except.ok.inj (hs₂.symm.trans decides)
    obtain ⟨hturns, h', hcur'⟩ := ih h₂ hcur₂
    refine ⟨?_, h', ?_⟩
    · rw [List.length_cons, List.range'_succ, List.map_cons, ← hturns, hcur₂]
    · rw [hcur', List.length_cons]
      congr 1
      omega

/-- There are as many decisions as one likes. -/
theorem exists_decisions (h : ReadyList s tasks) (hcur : s.current = turn tasks i) (n : ℕ) :
    ∃ turns s', Decisions s turns s' ∧ turns.length = n := by
  induction n generalizing s i with
  | zero => exact ⟨[], s, .nil s, rfl⟩
  | succ n ih =>
    obtain ⟨s₁, hs₁, h₁, hcur₁⟩ := schedule_turn h hcur
    obtain ⟨turns, s', hd, hlen⟩ := ih h₁ hcur₁
    exact ⟨_, s', .cons (Quiet.refl s) hs₁ hd, congrArg (· + 1) hlen⟩

/-- A whole round is the list, from another place on. -/
theorem round_eq_rotate (h : tasks ≠ []) (i : ℕ) :
    (List.range' (i + 1) tasks.length).map (turn tasks) = tasks.rotate (i + 1) := by
  refine List.ext_getElem (by simp) fun j hj hj' => ?_
  rw [List.getElem_map, List.getElem_range', List.getElem_rotate, turn,
    List.getD_eq_getElem _ _ (turn_lt h _)]
  congr 2
  omega

/-- **Round robin.**  As many decisions as there are tasks make each task of the list current once, and end
at the task they started from; and a task of the list is selected, whatever task is current. -/
theorem round_robin (h : ReadyList s tasks) :
    (s.current ∈ tasks →
      (∀ turns s', Decisions s turns s' → ∃ s'', s'.schedule = .ok s'') ∧
      ∀ turns s', Decisions s turns s' → turns.length = tasks.length →
        (∀ p ∈ tasks, turns.count p = 1) ∧ s'.current = s.current) ∧
    ∃ next ∈ tasks, s.selectTaskStruct = .ok next := by
  refine ⟨fun hmem => ?_, selectTaskStruct_mem h⟩
  obtain ⟨i, hi, hat⟩ := List.getElem_of_mem hmem
  have hcur : s.current = turn tasks i := by
    rw [turn, Nat.mod_eq_of_lt hi, List.getD_eq_getElem _ _ hi, hat]
  refine ⟨fun turns s' hd => ?_, fun turns s' hd hlen => ⟨fun p hp => ?_, ?_⟩⟩
  · obtain ⟨-, h', hcur'⟩ := decisions_turns hd h hcur
    obtain ⟨s'', hs'', -⟩ := schedule_turn h' hcur'
    exact ⟨s'', hs''⟩
  · have hturns := (decisions_turns hd h hcur).1
    rw [hlen, round_eq_rotate h.nonempty] at hturns
    rw [hturns, (List.rotate_perm tasks (i + 1)).count_eq]
    exact List.count_eq_one_of_mem h.linked.nodup hp
  · have hend := (decisions_turns hd h hcur).2.2
    rw [hend, hlen, hcur, turn, turn, Nat.add_mod_right]

/-- The threads that are ready after boot. -/
theorem readyList_started : ReadyList (started 10 11 12 13) [13, 12, 11, 10] where
  linked := ⟨rfl, by decide, rfl, by decide, rfl, by decide, rfl, by decide, rfl⟩
  nonempty := by decide
  current := by decide
  alive p hp := by
    have hsome : ∀ p ∈ [10, 13, 12, 11, 10], ((started 10 11 12 13).info p).isSome = true := by decide
    exact Option.isSome_iff_exists.1 (hsome p hp)
  pids p hp q hq t u ht hu hpid := by
    have hdistinct : ∀ p ∈ [10, 13, 12, 11, 10], ∀ q ∈ [10, 13, 12, 11, 10],
        ((started 10 11 12 13).info p).map TaskInfo.pid =
          ((started 10 11 12 13).info q).map TaskInfo.pid → p = q := by decide
    refine hdistinct p hp q hq ?_
    rw [ht, hu, Option.map_some, Option.map_some, hpid]
  calm p hp t ht := by
    have hcalm : ∀ p ∈ [13, 12, 11, 10], ((started 10 11 12 13).info p).all fun t => !t.sigterm := by
      decide
    have hsig := hcalm p hp
    rw [ht] at hsig
    exact Bool.not_eq_true' _ ▸ hsig
  short := by decide

/-- After four decisions the first thread runs again. -/
theorem round_robin_started : ∃ turns s', Decisions (started 10 11 12 13) turns s' ∧
    (∀ p ∈ [13, 12, 11, 10], turns.count p = 1) ∧ s'.current = 10 := by
  have hcur : (started 10 11 12 13).current = turn [13, 12, 11, 10] 3 := rfl
  obtain ⟨turns, s', hd, hlen⟩ := exists_decisions readyList_started hcur 4
  have hround := (round_robin readyList_started).1 (by decide)
  exact ⟨turns, s', hd, hround.2 turns s' hd hlen⟩

end Kernel

end PlumOs
