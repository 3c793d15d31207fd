import Mathlib.Logic.Function.Basic
import PlumOs.Lib.Run
import PlumOs.Lib.Word
import PlumOs.Mm.PageAlloc

/-!
# Tasks and their lists (`sys/process.c`, `sys/syscall.c`, `sys/main.c`, `sys/kbd.c`)

Every `task_struct` hangs on one of four lists through its `next` field: `task_headp` (ready or
running), `sleep_task_list`, `wait_stdin_list` and `zombie_list`.  The operations below follow the
source pointer by pointer; a null pointer that is followed stops the kernel, and so does a pointer
to memory that was freed.

A call of `schedule` gives up the processor in the middle of a kernel function.  What a task still
has to do inside the kernel is its stack of frames, innermost first; `Kernel.kernelStep` executes
the innermost frame of `current`, and a task without frames is in user mode (or is the idle
thread).

Memory is handed out by the page allocator: the actions that create a task carry the page, which
must not be in use, and no more tasks are made than there are pages.  Of `task_struct` the fields that decide about lists and waiting are kept;
`sleep_time`, which nothing reads, the files, the names and the address space are left out, except
for whether there is one.
-/

namespace PlumOs

/-- Why the kernel stops, or why an action is not possible. -/
inductive Halt where
  | nullDeref
  /-- A pointer to a task that was freed is followed. -/
  | dangling
  | assertFail
  | panic
  /-- A walk along a list that does not end. -/
  | runaway
  /-- The action is not possible in this state. -/
  | disabled
  deriving DecidableEq, Repr

/-- `TASK_STATE`; a task made by `kernel_thread` keeps the zero of its page. -/
inductive TaskState where
  | zero
  | running
  | active
  | sleep
  | zombie
  deriving DecidableEq, Repr

/-- The heads of the four lists. -/
inductive ListId where
  | taskHeadp
  | sleepTaskList
  | waitStdinList
  | zombieList
  deriving DecidableEq, Repr

/-- What a task has to do when the call under way inside the kernel returns. -/
inductive KFrame where
  /-- `schedule`, from the call of `select_task_struct` on. -/
  | schedule
  /-- `waitpid` behind `sleep`: collect the status of the child and free it. -/
  | waitFree (child : ℕ)
  /-- `read` of standard input, at the test of its loop. -/
  | readStdin
  /-- `thread_clear`, at the start of an iteration. -/
  | threadClear
  /-- `run_init_process`, in front of `exec`. -/
  | runInit
  /-- `start`, in front of `waitpid(kinit_pid)`. -/
  | mainWait (kinit : ℤ)
  /-- `start`, behind `waitpid`. -/
  | mainRespawn
  deriving DecidableEq, Repr

/-- The fields of a `task_struct` but its `next`. -/
structure TaskInfo where
  pid : ℤ
  ppid : ℤ
  /-- Whether `mm` is set. -/
  mm : Bool
  waited : Bool
  orphan : Bool
  exitStatus : ℤ
  sigterm : Bool
  state : TaskState
  frames : List KFrame
  deriving DecidableEq, Repr

/-- `task_struct`. -/
structure Task extends TaskInfo where
  /-- The next task of the list, 0 at its end. -/
  next : ℕ
  deriving DecidableEq, Repr

/-- The globals of `process.c` but the list heads. -/
structure Globals where
  current : ℕ
  clearZombie : ℕ
  zombieCount : ℤ
  pidCount : ℤ
  /-- How many tasks were made; for bounding the walks along a list, and the memory that is in use. -/
  made : ℕ
  /-- `stdin_buf_state`. -/
  bufReady : Bool
  /-- What was passed to `exit_st`, by pid, latest first; only for stating results. -/
  exitLog : List (ℤ × ℤ)
  /-- What `waitpid` returned, by the pids of caller and target, latest first; only for stating
  results. -/
  waitLog : List (ℤ × ℤ × ℤ)

/-- The tasks by address, the list heads and the other globals. -/
structure Kernel extends Globals where
  /-- The pages that hold a `task_struct`. -/
  tasks : ℕ → Option Task
  /-- The heads of the lists. -/
  head : ListId → ℕ

namespace Kernel

variable (s : Kernel)

/-- Bound on the length of a list: no more tasks are on it than were made. -/
def fuel : ℕ := s.made + 1

/-- Follow a pointer to a task. -/
def get (p : ℕ) : Except Halt Task :=
  if p = 0 then .error .nullDeref
  else
    match s.tasks p with
    | none => .error .dangling
    | some t => .ok t

/-- Assign to the `next` field of the task at `p`. -/
def setNext (p next : ℕ) : Except Halt Kernel := do
  let t ← s.get p
  return { s with tasks := Function.update s.tasks p (some { t with next := next }) }

/-- Assign to other fields of the task at `p`. -/
def modify (p : ℕ) (f : TaskInfo → TaskInfo) : Except Halt Kernel := do
  let t ← s.get p
  return { s with tasks := Function.update s.tasks p (some ⟨f t.toTaskInfo, t.next⟩) }

/-- Assign to a list head. -/
def setHead (l : ListId) (p : ℕ) : Kernel := { s with head := Function.update s.head l p }

/-- `add_to_tasklist(head, ts)`. -/
def addToTasklist (l : ListId) (ts : ℕ) : Except Halt Kernel := do
  let s' ← s.setNext ts (s.head l)
  return s'.setHead l ts

/-- The loop of `remove_from_tasklist`: the task from `p` on whose `next` is `ts`. -/
def findPrev (ts : ℕ) : ℕ → ℕ → Except Halt ℕ
  | 0, _ => .error .runaway
  | fuel + 1, p => do
    let t ← s.get p
    if t.next = ts then return p else findPrev ts fuel t.next

/-- `remove_from_tasklist(head, ts)`.  The loop ends only where `p->next == ts`, so the result is
always 0. -/
def removeFromTasklist (l : ListId) (ts : ℕ) : Except Halt Kernel := do
  if s.head l = ts then
    let t ← s.get ts
    (s.setHead l t.next).setNext ts 0
  else
    let p ← s.findPrev ts s.fuel (s.head l)
    let t ← s.get ts
    let s ← s.setNext p t.next
    s.setNext ts 0

/-- `remove_from_tasklist(head, ts)` with its result, where `fuel` bounds the turns of the loop. -/
def removeResult (fuel : ℕ) (l : ListId) (ts : ℕ) : Except Halt (ℤ × Kernel) := do
  if s.head l = ts then
    let t ← s.get ts
    let s ← (s.setHead l t.next).setNext ts 0
    return (0, s)
  else
    let p ← s.findPrev ts fuel (s.head l)
    let u ← s.get p
    if u.next = ts then
      let t ← s.get ts
      let s ← s.setNext p t.next
      let s ← s.setNext ts 0
      return (0, s)
    else return (-1, s)

/-- The loop of `find_process_by_pid`. -/
def findPid (pid : ℤ) : ℕ → ℕ → Except Halt (Option ℕ)
  | 0, _ => .error .runaway
  | fuel + 1, p =>
    if p = 0 then .ok none
    else do
      let t ← s.get p
      if t.pid = pid then return some p else findPid pid fuel t.next

/-- `find_process_by_pid(pid, list)`. -/
def findProcessByPid (pid : ℤ) (l : ListId) : Except Halt (Option ℕ) :=
  s.findPid pid s.fuel (s.head l)

/-- The three lookups of `waitpid` and `kill_by_pid`: every list but `zombie_list`. -/
def findAlive (pid : ℤ) : Except Halt (Option ℕ) := do
  match ← s.findProcessByPid pid .taskHeadp with
  | some p => return some p
  | none =>
    match ← s.findProcessByPid pid .sleepTaskList with
    | some p => return some p
    | none => s.findProcessByPid pid .waitStdinList

/-- Both branches of `wakeup`: `ts` becomes active, and goes from `l` to `task_headp`. -/
def moveActive (l : ListId) (ts : ℕ) : Except Halt Kernel := do
  let s ← s.modify ts fun t => { t with state := .active }
  let s ← s.removeFromTasklist l ts
  s.addToTasklist .taskHeadp ts

/-- `wakeup(list, ts, 1)`. -/
def wakeup (l : ListId) (ts : ℕ) : Except Halt Kernel :=
  if ts = 0 then .error .assertFail else s.moveActive l ts

/-- The loop of `wakeup(list, ts, 0)` from the task `p` on, in a state with a kernel in it; `next` is `p`
again at each test.  `move` is the body. -/
def wakeupLoop {S : Type} (kernel : S → Kernel) (move : S → ℕ → Except Halt S) :
    ℕ → ℕ → S → Except Halt S
  | 0, _, _ => .error .runaway
  | fuel + 1, p, s =>
    if p = 0 then .ok s
    else do
      -- the link is read before `p` moves to the other list
      let t ← (kernel s).get p
      let s ← move s p
      wakeupLoop kernel move fuel t.next s

/-- The loop of `wakeup(list, NULL, 0)`, from the task `p` on. -/
def wakeupFrom (l : ListId) (fuel p : ℕ) (s : Kernel) : Except Halt Kernel :=
  wakeupLoop (fun s => s) (fun s p => s.moveActive l p) fuel p s

theorem wakeupFrom_def (l : ListId) (fuel p : ℕ) (s : Kernel) : wakeupFrom l (fuel + 1) p s =
    if p = 0 then .ok s
    else s.get p >>= fun t => s.moveActive l p >>= wakeupFrom l fuel t.next := rfl

/-- `wakeup(list, NULL, 0)`. -/
def wakeupAll (l : ListId) : Except Halt Kernel := wakeupFrom l s.fuel (s.head l) s

/-- Push a frame on the kernel stack of `current`. -/
def pushFrame (f : KFrame) : Except Halt Kernel :=
  s.modify s.current fun t => { t with frames := f :: t.frames }

/-- Return from the innermost frame of `current`. -/
def popFrame : Except Halt Kernel :=
  s.modify s.current fun t => { t with frames := t.frames.tail }

/-- `sleep(list, time)` up to its call of `schedule`. -/
def sleep (l : ListId) : Except Halt Kernel := do
  let s ← s.removeFromTasklist .taskHeadp s.current
  let s ← s.addToTasklist l s.current
  let s ← s.modify s.current fun t => { t with state := .sleep }
  s.pushFrame .schedule

/-- The part of `exit_st` that wakes up the father, or marks the task as an orphan. -/
def tellFather (ts : ℕ) : Except Halt Kernel := do
  let t ← s.get ts
  if t.waited then
    match ← s.findProcessByPid t.ppid .sleepTaskList with
    | none => s.modify ts fun t => { t with orphan := true }
    | some father => s.wakeup .sleepTaskList father
  else s.modify ts fun t => { t with orphan := true }

/-- One more orphan; fifty of them wake up the cleaner. -/
def countOrphan : Except Halt Kernel :=
  let s := { s with zombieCount := wrap32 (s.zombieCount + 1) }
  if s.zombieCount = 50 then s.wakeup .sleepTaskList s.clearZombie else .ok s

/-- `exit_st(ts, status)`, up to its call of `schedule` on the stack of `current`. -/
def exitSt (ts : ℕ) (status : ℤ) : Except Halt Kernel := do
  let t ← s.get ts
  let s := { s with exitLog := (t.pid, status) :: s.exitLog }
  let s ← s.modify ts fun t => { t with exitStatus := status, state := .zombie }
  let s ← s.removeFromTasklist .taskHeadp ts
  let s ← s.addToTasklist .zombieList ts
  let s ← s.tellFather ts
  let t ← s.get ts
  let s ← if t.orphan then s.countOrphan else pure s
  s.pushFrame .schedule

/-- `free_process(p)`. -/
def freeProcess (p : ℕ) : Except Halt Kernel := do
  if p = 0 then throw .assertFail
  let t ← s.get p
  if t.state ≠ .zombie then throw .assertFail
  if t.mm = false then throw .assertFail
  let s ← s.removeFromTasklist .zombieList p
  return { s with tasks := Function.update s.tasks p none }

/-- A page for a new task.  Every task keeps a page in use for good, that of its `mm_struct` (nothing calls
`unmap_mm`) or, if it has none, its own (`free_process` asserts that it has one): once as many tasks were made
as there are page frames, `get_free_page` has none left. -/
def newTask (page : ℕ) (t : TaskInfo) : Except Halt Kernel :=
  if page = 0 ∨ (s.tasks page).isSome then .error .disabled
  else if pageArraySize ≤ s.made then .error .panic
  else .ok { s with
    tasks := Function.update s.tasks page (some ⟨t, 0⟩)
    pidCount := wrap32 (s.pidCount + 1)
    made := s.made + 1 }

/-- The fields of a `task_struct` that nobody set yet. -/
def zeroTask : TaskInfo where
  pid := 0
  ppid := 0
  mm := false
  waited := false
  orphan := false
  exitStatus := 0
  sigterm := false
  state := .zero
  frames := []

/-- `kernel_thread(f, name)`, with the pid of the thread. -/
def kernelThread (page : ℕ) (f : List KFrame) : Except Halt (ℤ × Kernel) := do
  let pid := s.pidCount
  let s ← s.newTask page { zeroTask with pid := pid, frames := f }
  if s.head .taskHeadp = 0 then throw .nullDeref
  let s ← s.addToTasklist .taskHeadp page
  return (pid, s)

/-- `fork`. -/
def fork (page : ℕ) : Except Halt Kernel := do
  let t ← s.get s.current
  let s ← s.newTask page
    { zeroTask with pid := s.pidCount, ppid := t.pid, mm := true, state := .active }
  s.addToTasklist .taskHeadp page

/-- `select_task_struct`. -/
def selectTaskStruct : Except Halt ℕ := do
  let t ← s.get s.current
  let found ← s.findProcessByPid t.pid .taskHeadp
  let p := if found.isSome then s.current else s.head .taskHeadp
  let u ← s.get p
  if u.next ≠ 0 then return u.next else return s.head .taskHeadp

/-- `schedule`, from the call of `select_task_struct` to the next call of it, the return or the
switch to another task. -/
def schedule : Except Halt Kernel := do
  let next ← s.selectTaskStruct
  let n ← s.get next
  if n.sigterm then s.exitSt next 1
  else
    let s ← s.popFrame
    if next = s.current then return s else return { s with current := next }

/-- `waitpid(pid)` up to the sleep, or to its return without a child. -/
def waitpid (pid : ℤ) : Except Halt Kernel := do
  let t ← s.get s.current
  match ← s.findAlive pid with
  | none => return { s with waitLog := (t.pid, pid, -1) :: s.waitLog }
  | some child =>
    let s ← s.modify child fun c => { c with waited := true }
    let s ← s.pushFrame (.waitFree child)
    s.sleep .sleepTaskList

/-- `waitpid` behind the sleep. -/
def waitpidReturn (child : ℕ) : Except Halt Kernel := do
  let t ← s.get s.current
  let c ← s.get child
  let s ← s.freeProcess child
  let s ← s.popFrame
  return { s with waitLog := (t.pid, c.pid, c.exitStatus) :: s.waitLog }

/-- `kill_by_pid(pid, sig)`. -/
def killByPid (pid sig : ℤ) : Except Halt Kernel := do
  match ← s.findAlive pid with
  | none => return s
  | some p =>
    let t ← s.get p
    if t.mm = false then return s
    else if sig = 9 then s.modify p fun t => { t with sigterm := true }
    else return s

/-- The loop of `thread_clear` over `zombie_list`, from the task `p` on. -/
def clearFrom : ℕ → ℕ → Kernel → Except Halt Kernel
  | 0, _, _ => .error .runaway
  | fuel + 1, p, s =>
    if p = 0 then .ok s
    else do
      let t ← s.get p
      let s ← if t.orphan then s.freeProcess p else pure s
      clearFrom fuel t.next s

/-- One iteration of `thread_clear`. -/
def threadClear : Except Halt Kernel := do
  let s ← clearFrom s.fuel (s.head .zombieList) s
  let s := { s with zombieCount := 0 }
  s.sleep .sleepTaskList

/-- The last task of a list, as `kbdintr` looks for it on Ctrl-C. -/
def lastFrom : ℕ → ℕ → Except Halt ℕ
  | 0, _ => .error .runaway
  | fuel + 1, p => do
    let t ← s.get p
    if t.next = 0 then return p else lastFrom fuel t.next

/-- Ctrl-C in `kbdintr`. -/
def ctrlC : Except Halt Kernel := do
  if s.head .waitStdinList ≠ 0 then
    let p ← s.lastFrom s.fuel (s.head .waitStdinList)
    let t ← s.get p
    s.killByPid t.pid 9
  else
    let t ← s.get s.current
    if t.mm then s.killByPid t.pid 9 else return s

/-- The end of a line in `kbdintr`. -/
def newline : Except Halt Kernel :=
  let s := { s with bufReady := true }
  if s.head .waitStdinList ≠ 0 then s.wakeupAll .waitStdinList else .ok s

/-- Execute the innermost frame of `current`.  `page` is what `get_zero_page` gives to a new
thread; `outcome` says whether `exec` finds its file, and whether `read` empties the buffer. -/
def kernelStep (page : ℕ) (outcome : Bool) : KFrame → Except Halt Kernel
  | .schedule => s.schedule
  | .waitFree child => s.waitpidReturn child
  | .readStdin =>
    if s.bufReady then ({ s with bufReady := !outcome }).popFrame else s.sleep .waitStdinList
  | .threadClear => s.threadClear
  | .runInit => do
    let s ← s.popFrame
    if outcome then s.modify s.current fun t => { t with mm := true } else s.exitSt s.current 1
  | .mainWait kinit => do
    let s ← s.popFrame
    let s ← s.pushFrame .mainRespawn
    s.waitpid kinit
  | .mainRespawn => do
    let s ← s.popFrame
    let (kinit, s) ← s.kernelThread page [.runInit]
    let s ← s.pushFrame (.mainWait kinit)
    s.pushFrame .schedule

end Kernel

/-- What happens next on the processor. -/
inductive KAct where
  /-- The kernel goes on with the innermost frame of `current`. -/
  | kernel (page : ℕ) (outcome : Bool)
  /-- The timer interrupt that ends a timeslice. -/
  | timer
  /-- The keyboard interrupts that matter here. -/
  | newline
  | ctrlC
  /-- System calls of the process that runs. -/
  | fork (page : ℕ)
  | exit (status : ℤ)
  | kill (pid sig : ℤ)
  | wait4 (pid : ℤ)
  | read
  | execve (found : Bool)
  /-- A page fault outside the address space. -/
  | segfault
  deriving DecidableEq, Repr

namespace Kernel

variable (s : Kernel)

/-- What a process in user mode does. -/
def userStep : KAct → Except Halt Kernel
  | .fork page => s.fork page
  | .exit status => s.exitSt s.current status
  | .kill pid sig => s.killByPid pid sig
  | .wait4 pid => s.waitpid pid
  | .read => s.pushFrame .readStdin
  | .execve found => if found then .ok s else s.exitSt s.current 1
  | .segfault => s.exitSt s.current (-1)
  | _ => .error .disabled

/-- One step of the machine.  Interrupts are taken anywhere but inside `schedule`: a system call starts
with the interrupts off, but `__switch_to` ends in `sti`, so one that has slept goes on with them on.
What a frame does up to its next call of `schedule` is one step: the test of a reader that is woken up
and its next sleep, `free_process` behind the sleep of `waitpid`, a turn of `thread_clear`. -/
def step (a : KAct) : Except Halt Kernel := do
  let t ← s.get s.current
  match a, t.frames with
  | .kernel page outcome, f :: _ => s.kernelStep page outcome f
  | .kernel _ _, [] => .error .disabled
  | .timer, .schedule :: _ => .error .disabled
  | .timer, _ => s.pushFrame .schedule
  | .newline, .schedule :: _ => .error .disabled
  | .newline, _ => s.newline
  | .ctrlC, .schedule :: _ => .error .disabled
  | .ctrlC, _ => s.ctrlC
  | a, [] => if t.mm then s.userStep a else .error .disabled
  | _, _ => .error .disabled

end Kernel

/-- `init_proc`: the caller becomes the task with pid 0. -/
def initProc (page : ℕ) : Kernel where
  tasks := Function.update (fun _ => none) page (some ⟨Kernel.zeroTask, 0⟩)
  head := Function.update (fun _ => 0) .taskHeadp page
  current := page
  clearZombie := 0
  zombieCount := 0
  pidCount := 1
  made := 1
  bufReady := false
  exitLog := []
  waitLog := []

/-- `start` up to its loop: the idle thread, the cleaner and the init process are created on the
pages `p₁`, `p₂` and `p₃`. -/
def bootKernel (p₀ p₁ p₂ p₃ : ℕ) : Except Halt Kernel := do
  let s := initProc p₀
  let (_, s) ← s.kernelThread p₁ []
  let (clearPid, s) ← s.kernelThread p₂ [.threadClear]
  let clear ← s.findProcessByPid clearPid .taskHeadp
  let s := { s with clearZombie := clear.getD 0 }
  let (kinit, s) ← s.kernelThread p₃ [.runInit]
  s.pushFrame (.mainWait kinit)

end PlumOs
