import PlumOs.Proc.TaskLists

/-!
# What every operation of the kernel keeps

The operations on tasks are put together from a few assignments: to a field of a task that is there, to
a global, the move of a task from one list to another, the end of a zombie, and a new task.  A relation
between states that these keep is kept by every operation.

* `Tame` : the relation is kept by the assignments, but perhaps not by those to `zombie_count` and to
  the log of exits;
* `Closed` : it is kept by those too, so that `exit_st` keeps it;
* `Closed.exitSt`, `Closed.schedule`, … : one lemma for each function of the source;
* `Tame.step`, `Closed.step_all` : **a step keeps the relation, or makes one task in between**;
* `Closed.step_cases` : a step that makes a task frees none.
-/

namespace PlumOs

/-- The frame neither reads standard input nor frees a task. -/
def KFrame.plain : KFrame → Bool
  | .waitFree _ => false
  | .readStdin => false
  | .threadClear => false
  | _ => true

/-- The frame frees tasks. -/
def KFrame.frees : KFrame → Bool
  | .waitFree _ => true
  | .threadClear => true
  | _ => false

namespace Kernel

variable {s s' s₁ : Kernel} {p q page : ℕ} {t : TaskInfo} {l l' : ListId}

/-- The innermost frame of the task that runs. -/
def Innermost (s : Kernel) (f : KFrame) : Prop :=
  ∃ t fs, s.info s.current = some t ∧ t.frames = f :: fs

/-- A process runs in user mode. -/
def UserMode (s : Kernel) : Prop :=
  ∃ u, s.tasks s.current = some u ∧ u.frames = [] ∧ u.mm = true

/-- The step calls `exit_st`: `schedule` for a task that was killed, a process for itself. -/
inductive Exits (s : Kernel) : KAct → Kernel → ℕ → ℤ → Prop where
  | killed {page next : ℕ} {outcome : Bool} {n : Task} (hin : s.Innermost .schedule)
      (hsel : s.selectTaskStruct = .ok next) (hget : s.get next = .ok n) (hsig : n.sigterm = true) :
      Exits s (.kernel page outcome) s next 1
  | init {page : ℕ} {s₁ : Kernel} (hin : s.Innermost .runInit) (hpop : s.popFrame = .ok s₁) :
      Exits s (.kernel page false) s₁ s₁.current 1
  | exit {status : ℤ} (huser : s.UserMode) : Exits s (.exit status) s s.current status
  | execve (huser : s.UserMode) : Exits s (.execve false) s s.current 1
  | segfault (huser : s.UserMode) : Exits s .segfault s s.current (-1)

/-- A step inside the kernel executes the innermost frame. -/
theorem step_kernel {f : KFrame} (hin : s.Innermost f) (hcur : s.current ≠ 0) (page : ℕ)
    (outcome : Bool) : s.step (.kernel page outcome) = s.kernelStep page outcome f := by
  obtain ⟨t, fs, ht, hf⟩ := hin
  rw [step, get_of_info hcur ht, ok_bind]
  simp only [hf]

theorem kernelStep_of_step {f : KFrame} {outcome : Bool} (hin : s.Innermost f)
    (hstep : s.step (.kernel page outcome) = .ok s') : s.kernelStep page outcome f = .ok s' := by
  rw [← hstep]
  refine (step_kernel hin (fun hzero => ?_) page outcome).symm
  rw [step, hzero, get_zero] at hstep
  cases hstep

theorem yields_step {f : KFrame} {Q : Kernel → Prop} (hin : s.Innermost f) (page : ℕ) (outcome : Bool)
    (h : Yields (s.kernelStep page outcome f) Q fun _ => True) :
    Yields (s.step (.kernel page outcome)) Q fun _ => True := by
  cases hstep : s.step (.kernel page outcome) with
  | error e => trivial
  | ok s' => exact h.of_eq_ok (kernelStep_of_step hin hstep)

/-! ### What the list operations leave alone -/

theorem setNext_info (s : Kernel) (p next : ℕ) :
    Yields (s.setNext p next) (fun s' => s'.info = s.info) fun _ => True := by
  rw [setNext]
  cases hget : s.get p with
  | error e => trivial
  | ok u =>
    have hu := get_eq_ok hget
    show ({ s with tasks := Function.update s.tasks p (some { u with next := next }) } : Kernel).info = _
    funext q
    by_cases hq : q = p
    · rw [hq, info, info, hu]
      simp
    · simp [info, Function.update_of_ne hq]

theorem addToTasklist_info (s : Kernel) (l : ListId) (p : ℕ) :
    Yields (s.addToTasklist l p) (fun s' => s'.info = s.info) fun _ => True := by
  rw [addToTasklist]
  exact yields_bind (setNext_info s p (s.head l)) fun s₁ h₁ => h₁

theorem removeFromTasklist_info (s : Kernel) (l : ListId) (p : ℕ) :
    Yields (s.removeFromTasklist l p) (fun s' => s'.info = s.info) fun _ => True := by
  rw [removeFromTasklist]
  split
  · refine yields_bind (Q := fun _ => True) ?_ fun u _ => ?_
    · cases s.get p <;> trivial
    · exact setNext_info (s.setHead l u.next) p 0
  · refine yields_bind (Q := fun _ => True) ?_ fun r _ => ?_
    · cases s.findPrev p s.fuel (s.head l) <;> trivial
    refine yields_bind (Q := fun _ => True) ?_ fun u _ => ?_
    · cases s.get p <;> trivial
    refine yields_bind (setNext_info s r u.next) fun s₁ h₁ => ?_
    exact (setNext_info s₁ p 0).mono fun s₂ h₂ => h₂.trans h₁

/-- What `free_process` does when it returns. -/
theorem freeProcess_eq_ok (hs : s.freeProcess p = .ok s') : ∃ t s₁, s.info p = some t ∧
    t.state = .zombie ∧ s.removeFromTasklist .zombieList p = .ok s₁ ∧
    s' = { s₁ with tasks := Function.update s₁.tasks p none } := by
  rw [freeProcess] at hs
  split at hs
  · cases hs
  obtain ⟨u, hget, hs₁⟩ := bind_eq_ok.1 hs
  clear hs
  change (if u.state ≠ .zombie then .error .assertFail
    else if u.mm = false then .error .assertFail
    else s.removeFromTasklist .zombieList p >>= fun s₁ =>
      .ok { s₁ with tasks := Function.update s₁.tasks p none }) = .ok s' at hs₁
  split at hs₁
  · cases hs₁
  · next hz =>
    split at hs₁
    · cases hs₁
    · obtain ⟨s₁, hrem, hs₂⟩ := bind_eq_ok.1 hs₁
      exact ⟨u.toTaskInfo, s₁, info_of_tasks (get_eq_ok hget), not_not.1 hz, hrem,
        (Except.ok.inj hs₂).symm⟩

/-- `free_process` frees a zombie, and changes no other task. -/
theorem freeProcess_info (s : Kernel) (p : ℕ) : Yields (s.freeProcess p)
    (fun s' => s'.info = Function.update s.info p none ∧ ∃ t, s.info p = some t ∧ t.state = .zombie)
    fun _ => True := by
  cases hs : s.freeProcess p with
  | error e => trivial
  | ok s' =>
    obtain ⟨t, s₁, ht, hz, hrem, rfl⟩ := freeProcess_eq_ok hs
    refine ⟨?_, t, ht, hz⟩
    rw [← (removeFromTasklist_info s .zombieList p).of_eq_ok hrem]
    funext q
    show (Function.update s₁.tasks p none q).map _ = Function.update s₁.info p none q
    by_cases hq : q = p
    · rw [hq, Function.update_self, Function.update_self]
      rfl
    · rw [Function.update_of_ne hq, Function.update_of_ne hq]
      rfl

/-! ### Relations between states -/

/-- Fields other than the pids are assigned; nothing takes back a signal, and nobody else becomes the
cleaner. -/
structure Assigned (t u : TaskInfo) : Prop where
  pid : u.pid = t.pid
  ppid : u.ppid = t.ppid
  sigterm : t.sigterm = true → u.sigterm = true
  clear : .threadClear ∈ u.frames → .threadClear ∈ t.frames

/-- The state with the task `t` at `p`. -/
def put (s : Kernel) (p : ℕ) (t : Task) : Kernel :=
  { s with tasks := Function.update s.tasks p (some t) }

/-- The relation is kept by the assignments, and by the moves between two lists that `M` allows. -/
structure Tame (R : Kernel → Kernel → Prop) (M : ListId → ListId → Prop) : Prop where
  refl : ∀ s, R s s
  trans : ∀ s₁ s₂ s₃, R s₁ s₂ → R s₂ s₃ → R s₁ s₃
  assign : ∀ s p u t, s.tasks p = some u → Assigned u.toTaskInfo t → R s (s.put p ⟨t, u.next⟩)
  current : ∀ s n, R s { s with current := n }
  waitLog : ∀ s w, R s { s with waitLog := w }
  asleep : M .taskHeadp .sleepTaskList
  move : ∀ s s₁ s₂ l l' p, M l l' →
    s.removeFromTasklist l p = .ok s₁ → s₁.addToTasklist l' p = .ok s₂ → R s s₂

/-- The relation is kept by the assignments to `zombie_count` and the log of exits too, and by the
moves of `exit_st`. -/
structure Closed (R : Kernel → Kernel → Prop) (M : ListId → ListId → Prop) : Prop extends Tame R M where
  exitLog : ∀ s e, R s { s with exitLog := e }
  zombieCount : ∀ s n, R s { s with zombieCount := n }
  dead : M .taskHeadp .zombieList
  awake : M .sleepTaskList .taskHeadp

/-- `free_process` keeps the relation. -/
def KeptByFree (R : Kernel → Kernel → Prop) : Prop :=
  ∀ s p s', s.freeProcess p = .ok s' → R s s'

/-- A task is made on the page: a thread, or the child of the process that runs. -/
structure Born (s : Kernel) (page : ℕ) (t : TaskInfo) (s' : Kernel) : Prop where
  /-- The task is written to the page and is put on `task_headp`. -/
  made : ∃ u, s.newTask page t = .ok u ∧ u.addToTasklist .taskHeadp page = .ok s'
  /-- The task has the next pid. -/
  pid : t.pid = s.pidCount
  sigterm : t.sigterm = false
  /-- The father of a child is the process that runs. -/
  father : t.ppid = 0 ∨ ∃ u, s.tasks s.current = some u ∧ u.mm = true ∧ t.ppid = u.pid

/-- The page that the action would give to a new task. -/
def pageOf : KAct → Option ℕ
  | .kernel page _ => some page
  | .fork page => some page
  | _ => none

/-- The states are related, or they are but for one task that the action makes in between. -/
def Made (R : Kernel → Kernel → Prop) (a : KAct) (s s' : Kernel) : Prop :=
  R s s' ∨ ∃ page s₁ t s₂, pageOf a = some page ∧ R s s₁ ∧ s₁.Born page t s₂ ∧
    .threadClear ∉ t.frames ∧ R s₂ s'

/-- The call leads to a related state, if it returns. -/
def Kept (R : Kernel → Kernel → Prop) (s : Kernel) (x : Except Halt Kernel) : Prop :=
  Yields x (R s) fun _ => True

/-- The new task, beside the others. -/
theorem Born.info_eq (h : s.Born page t s') :
    page ≠ 0 ∧ s.info page = none ∧ s'.info = Function.update s.info page (some t) := by
  obtain ⟨⟨u, hnew, hadd⟩, -⟩ := h
  obtain ⟨hne, hnone, -, rfl⟩ := newTask_eq_ok hnew
  refine ⟨hne, info_eq_none.2 hnone, ((addToTasklist_info _ _ page).of_eq_ok hadd).trans ?_⟩
  funext q
  show (Function.update s.tasks page _ q).map _ = Function.update s.info page _ q
  by_cases hq : q = page
  · rw [hq, Function.update_self, Function.update_self]
    rfl
  · rw [Function.update_of_ne hq, Function.update_of_ne hq]
    rfl

variable {R : Kernel → Kernel → Prop} {M : ListId → ListId → Prop}

/-- What is read does not matter. -/
theorem kept_read {α : Type} (x : Except Halt α) {f : α → Except Halt Kernel}
    (hf : ∀ a, x = .ok a → Kept R s (f a)) : Kept R s (x >>= f) := by
  cases x with
  | error e => trivial
  | ok a => exact hf a rfl

/-- A call that makes no task. -/
theorem made_of_kept {x : Except Halt Kernel} {a : KAct} (hx : Kept R s x) :
    Yields x (Made R a s) fun _ => True :=
  hx.mono fun _ => .inl

theorem removeFromTasklist_globals (s : Kernel) (l : ListId) (p : ℕ) :
    Yields (s.removeFromTasklist l p) (fun s' => s'.toGlobals = s.toGlobals) fun _ => True := by
  have hnext : ∀ (s : Kernel) p n, Yields (s.setNext p n) (fun s' => s'.toGlobals = s.toGlobals)
      fun _ => True := by
    intro s p n
    rw [setNext]
    cases s.get p <;> trivial
  rw [removeFromTasklist]
  split
  · cases s.get p with
    | error e => trivial
    | ok u => exact hnext (s.setHead l u.next) p 0
  · cases s.findPrev p s.fuel (s.head l) with
    | error e => trivial
    | ok r =>
      rw [ok_bind]
      cases s.get p with
      | error e => trivial
      | ok u =>
        rw [ok_bind]
        refine yields_bind (hnext s r u.next) fun s₁ h₁ => ?_
        exact (hnext s₁ p 0).mono fun s₂ h₂ => h₂.trans h₁

theorem addToTasklist_globals (s : Kernel) (l : ListId) (p : ℕ) :
    Yields (s.addToTasklist l p) (fun s' => s'.toGlobals = s.toGlobals) fun _ => True := by
  rw [addToTasklist, setNext]
  cases s.get p <;> trivial

theorem freeProcess_globals (hs : s.freeProcess p = .ok s') : s'.toGlobals = s.toGlobals := by
  obtain ⟨-, s₁, -, -, hrem, rfl⟩ := freeProcess_eq_ok hs
  have hglobals : s₁.toGlobals = s.toGlobals := (removeFromTasklist_globals s _ p).of_eq_ok hrem
  exact hglobals

/-- A new task changes two of the globals. -/
theorem Born.globals (h : s.Born page t s') : s'.toGlobals =
    { s.toGlobals with pidCount := wrap32 (s.pidCount + 1), made := s.made + 1 } := by
  obtain ⟨u, hnew, hadd⟩ := h.made
  obtain ⟨-, -, -, rfl⟩ := newTask_eq_ok hnew
  exact (addToTasklist_globals _ _ _).of_eq_ok hadd

theorem kernelThread_born (s : Kernel) (f : List KFrame) : Yields (s.kernelThread page f)
    (fun x => ∃ t, s.Born page t x.2 ∧ t.frames = f) fun _ => True := by
  rw [Kernel.kernelThread]
  cases hnew : s.newTask page { zeroTask with pid := s.pidCount, frames := f } with
  | error e => trivial
  | ok s₁ =>
    show Yields (if _ then _ else _) _ _
    split
    · trivial
    · cases hadd : s₁.addToTasklist .taskHeadp page with
      | error e => trivial
      | ok s₂ => exact ⟨_, ⟨⟨s₁, hnew, hadd⟩, rfl, rfl, .inl rfl⟩, rfl⟩

namespace Tame

variable (h : Tame R M)

include h

theorem bind {x : Except Halt Kernel} {f : Kernel → Except Halt Kernel} (hx : Kept R s x)
    (hf : ∀ s₁ : Kernel, x = .ok s₁ → Kept R s₁ (f s₁)) : Kept R s (x >>= f) := by
  cases x with
  | error e => trivial
  | ok s₁ => exact (hf s₁ rfl).mono fun s₂ h₂ => h.trans _ _ _ hx h₂

theorem ok (s : Kernel) : Kept R s (.ok s) := h.refl s

theorem modify (s : Kernel) (p : ℕ) {f : TaskInfo → TaskInfo} (hf : ∀ t, Assigned t (f t)) :
    Kept R s (s.modify p f) := by
  rw [Kernel.modify]
  cases hget : s.get p with
  | error e => trivial
  | ok u => exact h.assign s p u _ (get_eq_ok hget) (hf _)

theorem pushFrame (s : Kernel) {f : KFrame} (hf : f ≠ .threadClear) : Kept R s (s.pushFrame f) :=
  h.modify s _ fun _ => ⟨rfl, rfl, id, fun hmem => (List.mem_cons.1 hmem).resolve_left hf.symm⟩

theorem popFrame (s : Kernel) : Kept R s s.popFrame :=
  h.modify s _ fun _ => ⟨rfl, rfl, id, List.mem_of_mem_tail⟩

/-- A task goes from one list to another, and then the call goes on. -/
theorem moved (hl : M l l') (s : Kernel) (p : ℕ)
    {f : Kernel → Except Halt Kernel} (hf : ∀ s₂ : Kernel, Kept R s₂ (f s₂)) :
    Kept R s (s.removeFromTasklist l p >>= fun s₁ => s₁.addToTasklist l' p >>= f) := by
  cases hrem : s.removeFromTasklist l p with
  | error e => trivial
  | ok s₁ =>
    rw [ok_bind]
    cases hadd : s₁.addToTasklist l' p with
    | error e => trivial
    | ok s₂ => exact (hf s₂).mono fun s₃ h₃ => h.trans _ _ _ (h.move s s₁ s₂ l l' p hl hrem hadd) h₃

theorem moveActive (hl : M l .taskHeadp) (s : Kernel) (p : ℕ) : Kept R s (s.moveActive l p) := by
  rw [Kernel.moveActive]
  refine h.bind (h.modify s p fun _ => ⟨rfl, rfl, id, id⟩) fun s₁ _ => ?_
  have hmove := h.moved hl s₁ p (f := pure) h.ok
  simpa only [bind_pure] using hmove

theorem wakeup (hl : M l .taskHeadp) (s : Kernel) (p : ℕ) : Kept R s (s.wakeup l p) := by
  rw [Kernel.wakeup]
  split
  · trivial
  · exact h.moveActive hl s p

theorem wakeupFrom (hl : M l .taskHeadp) (fuel p : ℕ) (s : Kernel) : Kept R s (wakeupFrom l fuel p s) := by
  induction fuel generalizing p s with
  | zero => trivial
  | succ fuel ih =>
    rw [wakeupFrom_def]
    split
    · exact h.ok s
    · refine kept_read (s.get p) fun u _ => ?_
      exact h.bind (h.moveActive hl s p) fun s₁ _ => ih u.next s₁

theorem sleep (hl : M .taskHeadp l) (s : Kernel) : Kept R s (s.sleep l) := by
  rw [Kernel.sleep]
  cases hrem : s.removeFromTasklist .taskHeadp s.current with
  | error e => trivial
  | ok s₁ =>
    have hcurrent : s₁.current = s.current :=
      congrArg Globals.current ((removeFromTasklist_globals s _ _).of_eq_ok hrem)
    rw [ok_bind, hcurrent]
    cases hadd : s₁.addToTasklist l s.current with
    | error e => trivial
    | ok s₂ =>
      have hmove := h.move s s₁ s₂ _ l s.current hl hrem hadd
      rw [ok_bind]
      refine Yields.mono ?_ fun s₃ h₃ => h.trans _ _ _ hmove h₃
      exact h.bind (h.modify s₂ s₂.current fun _ => ⟨rfl, rfl, id, id⟩) fun s₃ _ =>
        h.pushFrame s₃ (nofun)

theorem tellFather (hawake : M .sleepTaskList .taskHeadp) (s : Kernel) (p : ℕ) :
    Kept R s (s.tellFather p) := by
  rw [Kernel.tellFather]
  refine kept_read (s.get p) fun u _ => ?_
  split
  · refine kept_read (s.findProcessByPid u.ppid .sleepTaskList) fun father _ => ?_
    cases father with
    | none => exact h.modify s p fun _ => ⟨rfl, rfl, id, id⟩
    | some f => exact h.wakeup hawake s f
  · exact h.modify s p fun _ => ⟨rfl, rfl, id, id⟩

theorem waitpid (s : Kernel) (pid : ℤ) : Kept R s (s.waitpid pid) := by
  rw [Kernel.waitpid]
  refine kept_read (s.get s.current) fun u _ => kept_read (s.findAlive pid) fun child _ => ?_
  cases child with
  | none => exact h.waitLog s _
  | some c =>
    refine h.bind (h.modify s c fun _ => ⟨rfl, rfl, id, id⟩) fun s₁ _ => ?_
    exact h.bind (h.pushFrame s₁ (nofun)) fun s₂ _ => h.sleep h.asleep s₂

theorem killByPid (s : Kernel) (pid sig : ℤ) : Kept R s (s.killByPid pid sig) := by
  rw [Kernel.killByPid]
  refine kept_read (s.findAlive pid) fun found _ => ?_
  cases found with
  | none => exact h.ok s
  | some p =>
    refine kept_read (s.get p) fun u _ => ?_
    show Kept R s (if u.mm = false then _ else if sig = 9 then _ else _)
    split
    · exact h.ok s
    · split
      · exact h.modify s p fun _ => ⟨rfl, rfl, fun _ => rfl, id⟩
      · exact h.ok s

theorem ctrlC (s : Kernel) : Kept R s s.ctrlC := by
  rw [Kernel.ctrlC]
  split
  · refine kept_read (s.lastFrom s.fuel (s.head .waitStdinList)) fun p _ => ?_
    exact kept_read (s.get p) fun u _ => h.killByPid s u.pid 9
  · refine kept_read (s.get s.current) fun u _ => ?_
    split
    · exact h.killByPid s u.pid 9
    · exact h.ok s

/-! ### The end of tasks -/

theorem waitpidReturn (hfree : KeptByFree R) (s : Kernel) (child : ℕ) :
    Kept R s (s.waitpidReturn child) := by
  rw [Kernel.waitpidReturn]
  refine kept_read (s.get s.current) fun u _ => kept_read (s.get child) fun c _ => ?_
  cases hs₁ : s.freeProcess child with
  | error e => trivial
  | ok s₁ =>
    rw [ok_bind]
    refine Yields.mono ?_ fun s₂ h₂ => h.trans _ _ _ (hfree s child s₁ hs₁) h₂
    exact h.bind (h.popFrame s₁) fun s₂ _ => h.waitLog s₂ _

theorem clearFrom (hfree : KeptByFree R) (fuel p : ℕ) (s : Kernel) :
    Kept R s (clearFrom fuel p s) := by
  induction fuel generalizing p s with
  | zero => trivial
  | succ fuel ih =>
    rw [Kernel.clearFrom]
    split
    · exact h.ok s
    · refine kept_read (s.get p) fun u _ => ?_
      show Kept R s (if u.orphan = true then _ else _)
      split
      · refine h.bind ?_ fun s₁ _ => ih u.next s₁
        cases hs₁ : s.freeProcess p with
        | error e => trivial
        | ok s₁ => exact hfree s p s₁ hs₁
      · exact ih u.next s

/-! ### New tasks -/

theorem fork {u : Task} (hu : s.tasks s.current = some u) (hmm : u.mm = true) :
    Yields (s.fork page) (Made R (.fork page) s) fun _ => True := by
  rw [Kernel.fork]
  cases hget : s.get s.current with
  | error e => trivial
  | ok v =>
    obtain rfl : u = v := Option.some.inj (hu.symm.trans (get_eq_ok hget))
    rw [ok_bind]
    cases hnew : s.newTask page { zeroTask with
        pid := s.pidCount, ppid := u.pid, mm := true, state := .active } with
    | error e => trivial
    | ok s₁ =>
      rw [ok_bind]
      cases hadd : s₁.addToTasklist .taskHeadp page with
      | error e => trivial
      | ok s₂ =>
        exact .inr ⟨page, s, _, s₂, rfl, h.refl s, ⟨⟨s₁, hnew, hadd⟩, rfl, rfl, .inr ⟨u, hu, hmm, rfl⟩⟩,
          by simp [zeroTask], h.refl s₂⟩

/-! ### Steps -/

/-- `schedule`, up to the calls of `exit_st`. -/
theorem schedule (hin : s.Innermost .schedule) {outcome : Bool}
    (hexit : ∀ s₁ p status, s.Exits (.kernel page outcome) s₁ p status →
      Kept R s (s₁.exitSt p status)) : Kept R s s.schedule := by
  rw [Kernel.schedule]
  refine kept_read s.selectTaskStruct fun next hsel => kept_read (s.get next) fun n hget => ?_
  split
  · next hsig => exact hexit s next 1 (.killed hin hsel hget hsig)
  · refine h.bind (h.popFrame s) fun s₁ _ => ?_
    split
    · exact h.ok s₁
    · exact h.current s₁ next

theorem kernelStep {f : KFrame} (hin : s.Innermost f) (page : ℕ) (outcome : Bool)
    (hother : f.plain = false → Kept R s (s.kernelStep page outcome f))
    (hexit : ∀ s₁ p status, s.Exits (.kernel page outcome) s₁ p status →
      Kept R s (s₁.exitSt p status)) :
    Yields (s.kernelStep page outcome f) (Made R (.kernel page outcome) s) fun _ => True := by
  cases f with
  | schedule => exact made_of_kept (h.schedule hin hexit)
  | waitFree c => exact made_of_kept (hother rfl)
  | readStdin => exact made_of_kept (hother rfl)
  | threadClear => exact made_of_kept (hother rfl)
  | runInit =>
    rw [Kernel.kernelStep]
    cases hpop : s.popFrame with
    | error e => trivial
    | ok s₁ =>
      have h₁ := (h.popFrame s).of_eq_ok hpop
      rw [ok_bind]
      cases outcome with
      | true =>
        rw [if_pos rfl]
        refine made_of_kept (Yields.mono (h.modify s₁ _ fun _ => ⟨rfl, rfl, id, id⟩) fun s₂ h₂ => ?_)
        exact h.trans _ _ _ h₁ h₂
      | false =>
        rw [if_neg (by decide)]
        exact made_of_kept (hexit s₁ s₁.current 1 (.init hin hpop))
  | mainWait kinit =>
    refine made_of_kept (h.bind (h.popFrame s) fun s₁ _ => ?_)
    exact h.bind (h.pushFrame s₁ (nofun)) fun s₂ _ => h.waitpid s₂ kinit
  | mainRespawn =>
    refine yields_bind (h.popFrame s) fun s₁ h₁ => ?_
    refine yields_bind (kernelThread_born s₁ [.runInit]) ?_
    rintro ⟨kinit, s₂⟩ ⟨t, hborn, hf⟩
    refine Yields.mono (h.bind (h.pushFrame s₂ (nofun)) fun s₃ _ => h.pushFrame s₃ (nofun))
      fun s₄ h₄ => ?_
    exact .inr ⟨page, s₁, t, s₂, rfl, h₁, hborn, by simp [hf], h₄⟩

theorem userStep (huser : s.UserMode) (a : KAct)
    (hexit : ∀ s₁ p status, s.Exits a s₁ p status → Kept R s (s₁.exitSt p status)) :
    Yields (s.userStep a) (Made R a s) fun _ => True := by
  obtain ⟨u, hu, -, hmm⟩ := id huser
  cases a with
  | fork page => exact h.fork hu hmm
  | exit status => exact made_of_kept (hexit _ _ _ (.exit huser))
  | kill pid sig => exact made_of_kept (h.killByPid s pid sig)
  | wait4 pid => exact made_of_kept (h.waitpid s pid)
  | read => exact made_of_kept (h.pushFrame s (nofun))
  | execve found =>
    cases found with
    | true => exact made_of_kept (h.ok s)
    | false => exact made_of_kept (hexit _ _ _ (.execve huser))
  | segfault => exact made_of_kept (hexit _ _ _ (.segfault huser))
  | _ => trivial

/-- **What a step keeps**, given what happens at the end of a line, in the frames that are not plain, and
in `exit_st`. -/
theorem step (s : Kernel) (a : KAct) (hline : a = .newline → Kept R s s.newline)
    (hother : ∀ f page outcome, a = .kernel page outcome → s.Innermost f → f.plain = false →
      Kept R s (s.kernelStep page outcome f))
    (hexit : ∀ s₁ p status, s.Exits a s₁ p status → Kept R s (s₁.exitSt p status)) :
    Yields (s.step a) (Made R a s) fun _ => True := by
  rw [Kernel.step]
  cases hget : s.get s.current with
  | error e => trivial
  | ok u =>
    have hu := get_eq_ok hget
    rw [ok_bind]
    split
    · next page outcome f fs hf =>
      have hin : s.Innermost f := ⟨u.toTaskInfo, fs, info_of_tasks hu, hf⟩
      exact h.kernelStep hin page outcome (hother f page outcome rfl hin) hexit
    · trivial
    · trivial
    · exact made_of_kept (h.pushFrame s (nofun))
    · trivial
    · exact made_of_kept (hline rfl)
    · trivial
    · exact made_of_kept (h.ctrlC s)
    · next hf =>
      split
      · next hmm => exact h.userStep ⟨u, hu, hf, hmm⟩ _ hexit
      · trivial
    · trivial

end Tame

namespace Closed

/-- Two relations at once. -/
theorem and {R' : Kernel → Kernel → Prop} (h : Closed R M) (h' : Closed R' M) :
    Closed (fun s s' => R s s' ∧ R' s s') M where
  refl s := ⟨h.refl s, h'.refl s⟩
  trans _ _ _ h₁ h₂ := ⟨h.trans _ _ _ h₁.1 h₂.1, h'.trans _ _ _ h₁.2 h₂.2⟩
  assign s p u t hu ha := ⟨h.assign s p u t hu ha, h'.assign s p u t hu ha⟩
  current s n := ⟨h.current s n, h'.current s n⟩
  zombieCount s n := ⟨h.zombieCount s n, h'.zombieCount s n⟩
  exitLog s e := ⟨h.exitLog s e, h'.exitLog s e⟩
  waitLog s w := ⟨h.waitLog s w, h'.waitLog s w⟩
  asleep := h.asleep
  dead := h.dead
  awake := h.awake
  move s s₁ s₂ l l' p hl hrem hadd :=
    ⟨h.move s s₁ s₂ l l' p hl hrem hadd, h'.move s s₁ s₂ l l' p hl hrem hadd⟩

variable (h : Closed R M)

include h

theorem countOrphan (s : Kernel) : Kept R s s.countOrphan := by
  rw [Kernel.countOrphan]
  show Kept R s (if _ then _ else _)
  split
  · exact (h.wakeup h.awake { s with zombieCount := wrap32 (s.zombieCount + 1) } _).mono
      fun s₂ h₂ => h.trans _ _ _ (h.zombieCount s _) h₂
  · exact h.zombieCount s _

theorem exitSt (s : Kernel) (p : ℕ) (status : ℤ) : Kept R s (s.exitSt p status) := by
  rw [Kernel.exitSt]
  refine kept_read (s.get p) fun u _ => ?_
  refine Yields.mono ?_ fun s₂ h₂ => h.trans _ _ _
    (h.exitLog s ((u.pid, status) :: s.exitLog)) h₂
  refine h.bind (h.modify _ p fun _ => ⟨rfl, rfl, id, id⟩) fun s₁ _ => ?_
  refine h.moved h.dead s₁ p fun s₂ => ?_
  refine h.bind (h.tellFather h.awake s₂ p) fun s₃ _ => kept_read (s₃.get p) fun v _ => ?_
  show Kept R s₃ (if v.orphan = true then _ else _)
  split
  · exact h.bind (h.countOrphan s₃) fun s₄ _ => h.pushFrame s₄ (nofun)
  · exact h.pushFrame s₃ (nofun)

theorem exits {a : KAct} {status : ℤ} (hx : s.Exits a s₁ p status) :
    Kept R s (s₁.exitSt p status) := by
  refine (h.exitSt s₁ p status).mono fun s₂ h₂ => h.trans _ _ _ ?_ h₂
  cases hx with
  | init hin hpop => exact (h.popFrame s).of_eq_ok hpop
  | _ => exact h.refl s

theorem threadClear (hfree : KeptByFree R) (s : Kernel) : Kept R s s.threadClear := by
  rw [Kernel.threadClear]
  refine h.bind (h.clearFrom hfree s.fuel (s.head .zombieList) s) fun s₁ _ => ?_
  exact (h.sleep h.asleep { s₁ with zombieCount := 0 }).mono
    fun s₂ h₂ => h.trans _ _ _ (h.zombieCount s₁ 0) h₂

/-- **What a step keeps**, given what happens at the end of a line and in `read`. -/
theorem step (hfree : KeptByFree R) (s : Kernel) (a : KAct)
    (hline : a = .newline → Kept R s s.newline)
    (hread : ∀ page outcome, a = .kernel page outcome → s.Innermost .readStdin →
      Kept R s (s.kernelStep page outcome .readStdin)) :
    Yields (s.step a) (Made R a s) fun _ => True := by
  refine h.toTame.step s a hline (fun f page outcome ha hin hplain => ?_) fun _ _ _ => h.exits
  cases f with
  | waitFree c => exact h.waitpidReturn hfree s c
  | readStdin => exact hread page outcome ha hin
  | threadClear => exact h.threadClear hfree s
  | _ => cases hplain

end Closed

/-- The end of a line, for a relation that does not look at the buffer. -/
theorem Tame.newline (h : Tame R M) (hawake : M .waitStdinList .taskHeadp)
    (hready : ∀ s b, R s { s with bufReady := b }) (s : Kernel) : Kept R s s.newline := by
  rw [Kernel.newline]
  show Kept R s (if _ then _ else _)
  split
  · exact (h.wakeupFrom hawake _ _ { s with bufReady := true }).mono
      fun s₂ h₂ => h.trans _ _ _ (hready s true) h₂
  · exact hready s true

/-- `read`, for a relation that does not look at the buffer. -/
theorem Tame.readStdin (h : Tame R M) (hasleep : M .taskHeadp .waitStdinList)
    (hready : ∀ s b, R s { s with bufReady := b }) (s : Kernel) (page : ℕ) (outcome : Bool) :
    Kept R s (s.kernelStep page outcome .readStdin) := by
  rw [Kernel.kernelStep]
  split
  · exact (h.popFrame { s with bufReady := !outcome }).mono
      fun s₂ h₂ => h.trans _ _ _ (hready s _) h₂
  · exact h.sleep hasleep s

/-- **What every step keeps.** -/
theorem Closed.step_all (h : Closed R M) (hasleep : M .taskHeadp .waitStdinList)
    (hawake : M .waitStdinList .taskHeadp) (hready : ∀ s b, R s { s with bufReady := b })
    (hfree : KeptByFree R) (s : Kernel) (a : KAct) :
    Yields (s.step a) (Made R a s) fun _ => True :=
  h.step hfree s a (fun _ => h.newline hawake hready s)
    fun page outcome _ _ => h.readStdin hasleep hready s page outcome

/-- **A step makes a task, or it frees some**, but not both. -/
theorem Closed.step_cases (h : Closed R M) (hasleep : M .taskHeadp .waitStdinList)
    (hawake : M .waitStdinList .taskHeadp) (hready : ∀ s b, R s { s with bufReady := b }) {a : KAct}
    (hstep : s.step a = .ok s') : Made R a s s' ∨ ∃ f page outcome, a = .kernel page outcome ∧
      s.Innermost f ∧ f.frees = true ∧ s.kernelStep page outcome f = .ok s' := by
  by_cases hfree : ∃ f page outcome, a = .kernel page outcome ∧ s.Innermost f ∧ f.frees = true
  · obtain ⟨f, page, outcome, rfl, hin, hf⟩ := hfree
    exact .inr ⟨f, page, outcome, rfl, hin, hf, kernelStep_of_step hin hstep⟩
  · refine .inl (Yields.of_eq_ok (h.toTame.step s a (fun _ => h.newline hawake hready s)
      (fun f page outcome ha hin hplain => ?_) fun _ _ _ => h.exits) hstep)
    cases f with
    | readStdin => exact h.readStdin hasleep hready s page outcome
    | waitFree c => exact absurd ⟨_, page, outcome, ha, hin, rfl⟩ hfree
    | threadClear => exact absurd ⟨_, page, outcome, ha, hin, rfl⟩ hfree
    | _ => cases hplain

end Kernel

end PlumOs
