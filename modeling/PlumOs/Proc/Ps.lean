import PlumOs.Proc.Whole

/-!
# The processes that `ps` prints

`ps` walks over the four lists of tasks and prints a line for each task it finds.  It finds the running
process by its pid, among the tasks that are ready.

* `Kernel.ps` : the four loops, with the lines they print;
* `psFrom_spec` : one loop prints the tasks of its list, each with the state that its fields say;
* `ps_shows_all` : **each task has exactly one line**, and only the caller is shown as running.
-/

namespace PlumOs

/-- A line that `ps` prints. -/
structure PsLine where
  /-- The pid. -/
  pid : ℤ
  /-- The pid of the father. -/
  ppid : ℤ
  /-- `zhisun` for a process, `root` for a thread. -/
  user : String
  /-- The state in words. -/
  state : String
  /-- The name of the task. -/
  name : String
  deriving DecidableEq, Repr

namespace Kernel

section Model

variable (s : Kernel) (name : ℕ → String)

/-- The line of the task at `p`. -/
def psLine (p : ℕ) (t : TaskInfo) (state : String) : PsLine where
  pid := t.pid
  ppid := t.ppid
  user := if t.mm then "zhisun" else "root"
  state := state
  name := name p

/-- One of the four loops, from the task `p` on. -/
def psFrom (state : TaskInfo → Except Halt String) : ℕ → ℕ → Except Halt (List PsLine)
  | 0, _ => .error .runaway
  | fuel + 1, p =>
    if p = 0 then .ok []
    else do
      let t ← s.get p
      let text ← state t.toTaskInfo
      let rest ← psFrom state fuel t.next
      return psLine name p t.toTaskInfo text :: rest

/-- The state of a task that is ready. -/
def readyText (t : TaskInfo) : Except Halt String := do
  let current ← s.get s.current
  return if t.pid = current.pid then "RUNING" else "ACTIVE"

/-- `ps()`, with the lines below the heading.  The name of the task at `p` is `name p`. -/
def ps : Except Halt (List PsLine) := do
  let ready ← s.psFrom name s.readyText s.fuel (s.head .taskHeadp)
  let asleep ← s.psFrom name (fun _ => .ok "SLEEP") s.fuel (s.head .sleepTaskList)
  let reading ← s.psFrom name (fun _ => .ok "SLEEP") s.fuel (s.head .waitStdinList)
  let dead ← s.psFrom name (fun _ => .ok "ZOMBIE") s.fuel (s.head .zombieList)
  return ready ++ asleep ++ reading ++ dead

/-- The state of the task at `p` by its fields. -/
def stateText (p : ℕ) (t : TaskInfo) : String :=
  match t.state with
  | .zero | .running | .active => if p = s.current then "RUNING" else "ACTIVE"
  | .sleep => "SLEEP"
  | .zombie => "ZOMBIE"

/-- The line that shows the task at `p`, if there is one. -/
def lineAt (p : ℕ) : Option PsLine := (s.info p).map fun t => psLine name p t (s.stateText p t)

/-- The lines show each task once, with its state, and no task but the caller as running. -/
structure ShowsAll (lines : List PsLine) : Prop where
  /-- No pid is there twice. -/
  once : (lines.map PsLine.pid).Nodup
  /-- The lines are those of the tasks. -/
  all : ∀ line, line ∈ lines ↔ ∃ p, s.lineAt name p = some line
  /-- The one that runs is the caller. -/
  running : ∀ line ∈ lines, line.state = "RUNING" ↔
    ∃ t, s.info s.current = some t ∧ line.pid = t.pid

end Model

variable {s : Kernel} {name : ℕ → String} {L : ListId → List ℕ} {p : ℕ} {n : ℤ} {t : TaskInfo}

/-- **One loop** prints the tasks of its list, if it shows the right state of each. -/
theorem psFrom_spec {state : TaskInfo → Except Halt String} {x : ℕ} {xs : List ℕ}
    (h : Linked 0 s.nextOf x xs) (halloc : ∀ y ∈ xs, ∃ t, s.info y = some t)
    (hstate : ∀ y ∈ xs, ∀ t, s.info y = some t → state t = .ok (s.stateText y t)) {fuel : ℕ}
    (hfuel : xs.length < fuel) : s.psFrom name state fuel x = .ok (xs.filterMap (s.lineAt name)) := by
  induction xs generalizing x fuel with
  | nil =>
    obtain ⟨fuel, rfl⟩ : ∃ k, fuel = k + 1 := ⟨fuel - 1, by omega⟩
    rw [Linked.nil_iff] at h
    simp [psFrom, h]
  | cons y xs ih =>
    obtain ⟨rfl, hx, hrest⟩ := h
    obtain ⟨fuel, rfl⟩ : ∃ k, fuel = k + 1 := ⟨fuel - 1, by omega⟩
    obtain ⟨t, ht⟩ := halloc x List.mem_cons_self
    have htext := hstate x List.mem_cons_self t ht
    have hline : s.lineAt name x = some (psLine name x t (s.stateText x t)) := by
      rw [lineAt, ht]
      rfl
    have htail := ih hrest (fun z hz => halloc z (List.mem_cons_of_mem _ hz))
      (fun z hz => hstate z (List.mem_cons_of_mem _ hz)) (Nat.lt_of_succ_lt_succ hfuel)
    simp only [psFrom, if_neg hx, get_of_info hx ht, ok_bind, htext, htail]
    rw [List.filterMap_cons_some hline]
    rfl

/-- The tasks of all the lists. -/
def allTasks (L : ListId → List ℕ) : List ℕ :=
  L .taskHeadp ++ L .sleepTaskList ++ L .waitStdinList ++ L .zombieList

theorem mem_allTasks (hpl : Placed s.info L) : p ∈ allTasks L ↔ ∃ t, s.info p = some t := by
  simp only [allTasks, List.mem_append]
  constructor
  · rintro (((hp | hp) | hp) | hp) <;> exact ((hpl _ p).1 hp).imp fun _ h => h.1
  · rintro ⟨t, ht⟩
    have hp : p ∈ L t.place := (hpl _ p).2 ⟨t, ht, rfl⟩
    cases hplace : t.place <;> rw [hplace] at hp <;> simp [hp]

theorem nodup_allTasks (h : s.Lists L) : (allTasks L).Nodup := by
  have happend : ∀ {xs : List ℕ} {l : ListId}, xs.Nodup → (∀ p ∈ xs, ∃ k, k ≠ l ∧ p ∈ L k) →
      (xs ++ L l).Nodup := fun {xs l} hxs hother => by
    refine List.nodup_append.2 ⟨hxs, (h.linked l).nodup, ?_⟩
    rintro p hp q hq rfl
    obtain ⟨k, hk, hpk⟩ := hother p hp
    exact hk (h.disjoint k l p hpk hq)
  unfold allTasks
  refine happend (happend (happend (h.linked _).nodup ?_) ?_) ?_
  · exact fun p hp => ⟨.taskHeadp, by decide, hp⟩
  · intro p hp
    rcases List.mem_append.1 hp with hp | hp
    · exact ⟨.taskHeadp, by decide, hp⟩
    · exact ⟨.sleepTaskList, by decide, hp⟩
  · intro p hp
    rcases List.mem_append.1 hp with hp | hp
    · rcases List.mem_append.1 hp with hp | hp
      · exact ⟨.taskHeadp, by decide, hp⟩
      · exact ⟨.sleepTaskList, by decide, hp⟩
    · exact ⟨.waitStdinList, by decide, hp⟩

/-- The state of a task that is ready is found by its pid. -/
theorem readyText_eq (hpids : Pids n s.info) (hcur : ∃ u, s.info s.current = some u)
    (ht : s.info p = some t) (hplace : t.place = .taskHeadp) :
    s.readyText t = .ok (s.stateText p t) := by
  obtain ⟨u, hu⟩ := hcur
  have hcur0 : s.current ≠ 0 := by
    intro h0
    rw [h0, hpids.null] at hu
    cases hu
  have hpid : t.pid = u.pid ↔ p = s.current := by
    constructor
    · exact hpids.inj p s.current t u ht hu
    · rintro rfl
      rw [Option.some.inj (ht.symm.trans hu)]
  obtain ⟨hsleep, hzombie⟩ := TaskInfo.place_eq_taskHeadp.1 hplace
  simp only [readyText, get_of_info hcur0 hu, ok_bind, hpid]
  cases hstate : t.state with
  | sleep => exact absurd hstate hsleep
  | zombie => exact absurd hstate hzombie
  | zero | running | active =>
    rw [stateText, hstate]
    rfl

/-- **`ps`** prints the tasks of the four lists. -/
theorem ps_eq (h : s.Lists L) (hpl : Placed s.info L) (hpids : Pids n s.info)
    (hcur : ∃ u, s.info s.current = some u) :
    s.ps name = .ok ((allTasks L).filterMap (s.lineAt name)) := by
  -- on each list the state that is printed is the one that the fields of the task say
  have hloop : ∀ (l : ListId) (state : TaskInfo → Except Halt String),
      (∀ y t, s.info y = some t → t.place = l → state t = .ok (s.stateText y t)) →
      s.psFrom name state s.fuel (s.head l) = .ok ((L l).filterMap (s.lineAt name)) := by
    intro l state hstate
    refine psFrom_spec (h.linked l) (h.alloc l) (fun y hy t ht => ?_) (h.short l)
    obtain ⟨u, hu, hplace⟩ := (hpl l y).1 hy
    obtain rfl := Option.some.inj (ht.symm.trans hu)
    exact hstate y t ht hplace
  have hasleep : ∀ y t, s.info y = some t → t.state = .sleep →
      (.ok "SLEEP" : Except Halt String) = .ok (s.stateText y t) := fun y t _ hst => by
    rw [stateText, hst]
  have hready := hloop .taskHeadp s.readyText fun y t ht hplace => readyText_eq hpids hcur ht hplace
  have hsleep := hloop .sleepTaskList (fun _ => .ok "SLEEP") fun y t ht hplace =>
    hasleep y t ht (TaskInfo.place_eq_sleep.1 hplace).1
  have hread := hloop .waitStdinList (fun _ => .ok "SLEEP") fun y t ht hplace =>
    hasleep y t ht (TaskInfo.place_eq_waitStdin.1 hplace).1
  have hdead := hloop .zombieList (fun _ => .ok "ZOMBIE") fun y t ht hplace => by
    rw [stateText, TaskInfo.place_eq_zombie.1 hplace]
  simp only [ps, hready, hsleep, hread, hdead, ok_bind, allTasks, List.filterMap_append]
  rfl

/-- What is printed shows all tasks, if the caller is ready. -/
theorem showsAll (h : s.Lists L) (hpl : Placed s.info L) (hpids : Pids n s.info)
    (hcur : ∃ u, s.info s.current = some u ∧ u.place = .taskHeadp) :
    s.ShowsAll name ((allTasks L).filterMap (s.lineAt name)) where
  once := by
    rw [List.map_filterMap]
    refine (nodup_allTasks h).filterMap fun p q x hp hq => ?_
    simp only [lineAt, Option.map_map, Option.mem_def, Option.map_eq_some_iff] at hp hq
    obtain ⟨t, ht, rfl⟩ := hp
    obtain ⟨u, hu, hpid⟩ := hq
    exact hpids.inj p q t u ht hu hpid.symm
  all line := by
    rw [List.mem_filterMap]
    constructor
    · rintro ⟨p, -, hp⟩
      exact ⟨p, hp⟩
    · rintro ⟨p, hp⟩
      refine ⟨p, (mem_allTasks hpl).2 ?_, hp⟩
      rw [lineAt, Option.map_eq_some_iff] at hp
      exact hp.imp fun _ ht => ht.1
  running line hline := by
    obtain ⟨p, -, hp⟩ := List.mem_filterMap.1 hline
    rw [lineAt, Option.map_eq_some_iff] at hp
    obtain ⟨t, ht, rfl⟩ := hp
    obtain ⟨u, hu, hplace⟩ := hcur
    have htext : s.stateText p t = "RUNING" ↔ p = s.current := by
      constructor
      · intro heq
        by_contra hne
        rw [stateText] at heq
        cases hstate : t.state <;> simp [hstate, hne] at heq
      · rintro rfl
        obtain rfl := Option.some.inj (ht.symm.trans hu)
        obtain ⟨hsleep, hzombie⟩ := TaskInfo.place_eq_taskHeadp.1 hplace
        rw [stateText]
        cases hstate : t.state <;> simp_all
    refine htext.trans ⟨?_, ?_⟩
    · rintro rfl
      exact ⟨t, ht, rfl⟩
    · rintro ⟨v, hv, hpid⟩
      exact hpids.inj p s.current t v ht hv hpid

/-- **`ps` shows all processes.**  In every state of every run from boot in which a process runs in user
mode, and in which every `wait4` names a child of its caller, `ps` returns, with exactly one line for each
task, which has its pid, the pid of its parent and its state, and the caller is the only one that is shown
as running. -/
theorem ps_shows_all {p₀ p₁ p₂ p₃ : ℕ} (h : [0, p₀, p₁, p₂, p₃].Nodup) {s₀ : Kernel}
    (hboot : bootKernel p₀ p₁ p₂ p₃ = .ok s₀) {as : List KAct} (hown : Along Kernel.step Own s₀ as)
    (hrun : run Kernel.step s₀ as = .ok s) (huser : s.UserMode) :
    ∃ lines, s.ps name = .ok lines ∧ s.ShowsAll name lines := by
  have hal := along_fair_of_own (booted_numbered h hboot) hown
  have hgood := (good_of_run h hboot hal).of_eq_ok hrun
  obtain ⟨L, hL, hpl⟩ := hgood.listed
  obtain ⟨t, ht, hframes, -⟩ := huser
  have hinfo := info_of_tasks ht
  -- a task that is on its way out is in the middle of `schedule`
  have hplace : t.place = .taskHeadp := by
    by_contra hne
    obtain ⟨fs, hfs⟩ := hgood.running _ hinfo hne
    rw [hframes] at hfs
    cases hfs
  exact ⟨_, ps_eq hL hpl hgood.proto.pids ⟨_, hinfo⟩, showsAll hL hpl hgood.proto.pids ⟨_, hinfo, hplace⟩⟩

/-- The child of the init process, while its father and the cleaner sleep. -/
theorem ps_shows_all_child : ∃ s₀ s lines, bootKernel 10 11 12 13 = .ok s₀ ∧
    run Kernel.step s₀ (forkWaitActs.take 12) = .ok s ∧ s.ps (fun _ => "bin/sbush") = .ok lines ∧
    s.ShowsAll (fun _ => "bin/sbush") lines := by
  have hpages : [0, 10, 11, 12, 13].Nodup := by decide
  have hreach : reaches (run Kernel.step (started 10 11 12 13) (forkWaitActs.take 12))
      (fun s => (s.tasks s.current).any fun u => decide (u.frames = []) && u.mm) = true := by
    decide +kernel
  obtain ⟨s, hs, htest⟩ := exists_of_reaches hreach
  simp only [Option.any_eq_true, Bool.and_eq_true, decide_eq_true_eq] at htest
  have hown : Along Kernel.step Own (started 10 11 12 13) (forkWaitActs.take 12) :=
    (along_fair (good_started (by decide)) (by decide +kernel)).mono fun _ _ => And.left
  obtain ⟨lines, hlines, hall⟩ := ps_shows_all hpages (bootKernel_eq hpages) hown hs htest
  exact ⟨_, s, lines, bootKernel_eq hpages, hs, hlines, hall⟩

end Kernel

end PlumOs
