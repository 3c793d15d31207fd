import Mathlib.Data.Int.Order.Basic
import Mathlib.Logic.Function.Basic
import PlumOs.Lib.Run

/-!
# Kernel stack pointers (`sys/switch_to.s`, `sys/timer.s`, `sys/entry.s`, `schedule`)

A user process comes into the kernel in two ways.  A system call loads its stack pointer from
`current->kernel_stack` and stores it back on the way out.  An interrupt taken in user mode gets
its stack pointer from `tss.rsp0`; nothing is stored back.  `__switch_to` saves the stack pointer
of the task that is switched out in its `kernel_stack`, and `schedule` loads `tss.rsp0` with the
`kernel_stack` of the task that is switched in.

The machine follows these pointers.  What the C code between an entry and `__switch_to` pushes is
left open: the actions carry it as a number of bytes.  So is the task that `schedule` selects.

* `Cpu.step` : one kernel entry, exit, context switch, `fork`, `exec` or `kernel_thread`;
* `quiet` : since the last `exec` no task was switched;
* `stack_atTop_iff` : a process in user mode has both pointers at the top of its kernel stack
  exactly in quiet runs.
-/

namespace PlumOs

/-- `STACK_SIZE`, one page. -/
abbrev stackSize : ℤ := 4096

/-- The 13 registers that `__syscall_handler` pushes, `sizeof(sc_frame)`. -/
abbrev scFrameSize : ℤ := 13 * 8

/-- The 16 words that `__switch_to` pushes, `sizeof(context_info)`. -/
abbrev contextInfoSize : ℤ := 16 * 8

/-- The 5 words the CPU pushes for an interrupt and the 15 registers of `_isr_wrapper_timer`. -/
abbrev isrFrameSize : ℤ := (5 + 15) * 8

/-- What is under way on a kernel stack.  A task without frames is in user mode. -/
inductive Frame where
  /-- The function of a kernel thread, entered with this stack pointer. -/
  | thread (rsp : ℤ)
  /-- `_isr_wrapper_timer`, with the stack pointer it calls the handler with. -/
  | isr (rsp : ℤ)
  /-- `__syscall_handler`, with the stack pointer it loaded. -/
  | syscall (entry : ℤ)
  /-- A child in front of `ret_from_fork`, with the stack pointer it leaves the kernel with. -/
  | fork (entry : ℤ)
  deriving DecidableEq, Repr

/-- The stack pointer that C code called from the frame starts below. -/
def Frame.rsp : Frame → ℤ
  | .thread rsp => rsp
  | .isr rsp => rsp
  | .syscall entry => entry - scFrameSize
  | .fork entry => entry - scFrameSize

/-- The part of a `task_struct` that the stack pointers depend on. -/
structure StackTask where
  /-- `kernel_stack`. -/
  kernelStack : ℤ
  timeslice : ℕ
  /-- The frames under way, innermost first. -/
  frames : List Frame
  /-- Top of the page the kernel stack was last given. -/
  top : ℤ

/-- The tasks, `current`, `tss.rsp0` and the interrupt flag. -/
structure Cpu where
  tasks : ℕ → Option StackTask
  current : ℕ
  rsp0 : ℤ
  intr : Bool

/-- What the processor does next. -/
inductive StackAct where
  /-- A timer interrupt.  It finds the kernel `depth` bytes below the frame under way, or the
  process in user mode; its handler calls `__switch_to` from `call` bytes further down, if
  `schedule` is called and selects the task `next`. -/
  | timer (depth call next : ℕ)
  /-- The return from an interrupt whose handler was switched out. -/
  | iret
  /-- The entry of a system call. -/
  | syscall
  /-- `schedule` called by a system call (`sleep`, `exit_st`) or by a kernel thread. -/
  | schedule (call next : ℕ)
  /-- The return from a system call, or of a child from `fork`. -/
  | sysret
  /-- `fork`: the child `pid` gets the kernel stack `page`. -/
  | fork (pid : ℕ) (page : ℤ)
  /-- `exec` with `page` as the future kernel stack. -/
  | exec (page : ℤ)
  /-- `kernel_thread`. -/
  | kernelThread (pid : ℕ) (page : ℤ)
  deriving DecidableEq, Repr

/-- `kernel_thread`: the stack holds the address of the function and a `context_info`. -/
def kernelThreadTask (page : ℤ) : StackTask where
  kernelStack := page + stackSize - 8 - contextInfoSize
  timeslice := 0
  frames := [.thread (page + stackSize)]
  top := page + stackSize

/-- `fork`: the stack of the child holds an `sc_frame`, the address of `ret_from_fork` and a
`context_info`. -/
def forkTask (page : ℤ) : StackTask where
  kernelStack := page + stackSize - scFrameSize - 8 - contextInfoSize
  timeslice := 0
  frames := [.fork (page + stackSize)]
  top := page + stackSize

namespace Cpu

variable (s : Cpu)

/-- The task `current` after a change of its fields. -/
def setCurrent (t : StackTask) : Cpu :=
  { s with tasks := Function.update s.tasks s.current (some t) }

/-- The stack pointer with which `_isr_wrapper_timer` calls its handler: the CPU takes `tss.rsp0`
in user mode and stays on the stack in kernel mode, aligns it and pushes the frame. -/
def isrRsp (t : StackTask) (depth : ℕ) : ℤ :=
  let rsp := match t.frames with
    | [] => s.rsp0
    | f :: _ => f.rsp - depth
  rsp - rsp % 16 - isrFrameSize

/-- The end of `schedule`: `tss.rsp0` is loaded, and `__switch_to`, called with the stack pointer
`rsp`, saves the stack pointer of the task `me` and enables interrupts. -/
def switchTo (me : StackTask) (rsp : ℤ) (next : ℕ) : Except Unit Cpu :=
  match s.tasks next with
  | none => .error ()
  | some n =>
    .ok { s with
      tasks := Function.update s.tasks s.current
        (some { me with kernelStack := rsp - 8 - contextInfoSize })
      current := next
      rsp0 := n.kernelStack
      intr := true }

/-- `interrupt_handler_timer` in the task `t`. -/
def timerIntr (t : StackTask) (depth call next : ℕ) : Except Unit Cpu :=
  if t.timeslice = 10 then
    if next = s.current then .ok (s.setCurrent { t with timeslice := 0 })
    else
      s.switchTo { t with timeslice := 0, frames := .isr (s.isrRsp t depth) :: t.frames }
        (s.isrRsp t depth - call) next
  else .ok (s.setCurrent { t with timeslice := t.timeslice + 1 })

/-- The end of `__syscall_handler` and of `ret_from_fork`: the stack pointer is stored back. -/
def sysretTo (t : StackTask) (rsp : ℤ) : Cpu :=
  { s.setCurrent { t with frames := [], kernelStack := rsp } with intr := true }

/-- The end of `exec`: a new kernel stack, and a return to user mode. -/
def execTo (t : StackTask) (page : ℤ) : Cpu :=
  let futureKstack := page + stackSize
  { s.setCurrent { t with frames := [], kernelStack := futureKstack, top := futureKstack } with
    rsp0 := futureKstack, intr := true }

/-- One action of the task `t`, which is `current`. -/
def taskStep (t : StackTask) : StackAct → Except Unit Cpu
  | .timer depth call next => if s.intr then s.timerIntr t depth call next else .error ()
  | .iret =>
    match t.frames with
    | .isr _ :: fs => .ok { s.setCurrent { t with frames := fs } with intr := true }
    | _ => .error ()
  | .syscall =>
    match t.frames with
    | [] => .ok { s.setCurrent { t with frames := [.syscall t.kernelStack] } with intr := false }
    | _ => .error ()
  | .schedule call next =>
    match t.frames with
    | .syscall e :: fs =>
      if next = s.current then .ok s
      else s.switchTo { t with frames := .syscall e :: fs } ((Frame.syscall e).rsp - call) next
    | .thread r :: fs =>
      if next = s.current then .ok s
      else s.switchTo { t with frames := .thread r :: fs } ((Frame.thread r).rsp - call) next
    | _ => .error ()
  | .sysret =>
    match t.frames with
    | [.syscall e] => .ok (s.sysretTo t e)
    | [.fork e] => .ok (s.sysretTo t e)
    | _ => .error ()
  | .fork pid page =>
    match t.frames, s.tasks pid with
    | .syscall _ :: _, none =>
      .ok { s with tasks := Function.update s.tasks pid (some (forkTask page)) }
    | _, _ => .error ()
  | .exec page =>
    match t.frames with
    | .syscall _ :: _ => .ok (s.execTo t page)
    | .thread _ :: _ => .ok (s.execTo t page)
    | _ => .error ()
  | .kernelThread pid page =>
    match t.frames, s.tasks pid with
    | .thread _ :: _, none =>
      .ok { s with tasks := Function.update s.tasks pid (some (kernelThreadTask page)) }
    | _, _ => .error ()

/-- One action of the processor; an action that is not possible in the state is an error. -/
def step (a : StackAct) : Except Unit Cpu :=
  match s.tasks s.current with
  | none => .error ()
  | some t => s.taskStep t a

/-- The process is in user mode. -/
def UserMode : Prop := ∃ t, s.tasks s.current = some t ∧ t.frames = []

/-- Both stack pointers of the running process are at the top of its kernel stack. -/
def AtTop : Prop :=
  ∃ t, s.tasks s.current = some t ∧ t.kernelStack = t.top ∧ s.rsp0 = t.top

instance : Decidable s.UserMode :=
  decidable_of_iff ((s.tasks s.current).any (fun t => t.frames = []) = true) (by
    unfold UserMode
    cases s.tasks s.current <;> simp)

instance : Decidable s.AtTop :=
  decidable_of_iff ((s.tasks s.current).any
      (fun t => t.kernelStack = t.top ∧ s.rsp0 = t.top) = true) (by
    unfold AtTop
    cases s.tasks s.current <;> simp)

/-- The action makes `schedule` switch to another task. -/
def switches : StackAct → Bool
  | .timer _ _ next =>
    (s.tasks s.current).any (fun t => t.timeslice = 10) && decide (next ≠ s.current)
  | .schedule _ next => decide (next ≠ s.current)
  | _ => false

/-- Whether no task was switched since the last `exec`, after one more action. -/
def quietAfter (b : Bool) : StackAct → Bool
  | .exec _ => true
  | a => b && !s.switches a

end Cpu

/-- The state in which `start` first calls `schedule`: `init_proc` has made the caller task 0, on
the boot stack, and `tss.rsp0` was never set. -/
def bootCpu (stackTop : ℤ) : Cpu where
  tasks := Function.update (fun _ => none) 0
    (some { kernelStack := 0, timeslice := 0, frames := [.thread stackTop], top := stackTop })
  current := 0
  rsp0 := 0
  intr := false

/-- Whether no task was switched since the last `exec` of a run; `b` says so for the time before
the run. -/
def quiet (b : Bool) (s : Cpu) : List StackAct → Bool
  | [] => b
  | a :: as =>
    match s.step a with
    | .error _ => b
    | .ok s' => quiet (s.quietAfter b a) s' as

/-! ### The invariant -/

/-- A frame that lies on the stack with this top. -/
def Frame.Below (top : ℤ) : Frame → Prop
  | .thread rsp => rsp ≤ top
  | .isr rsp => rsp ≤ top
  | .syscall entry => entry ≤ top
  | .fork entry => entry ≤ top

theorem Frame.Below.rsp_le {top : ℤ} {f : Frame} (h : f.Below top) : f.rsp ≤ top := by
  cases f <;> simp only [Frame.Below, Frame.rsp, scFrameSize] at h ⊢ <;> omega

/-- The running task: as long as nothing was switched since `exec`, everything starts at the top
of its stack; after a switch `tss.rsp0` is below it. -/
structure Running (b : Bool) (rsp0 : ℤ) (t : StackTask) : Prop where
  /-- The saved stack pointer is not above the top. -/
  le : t.kernelStack ≤ t.top
  /-- Nothing was switched yet: `tss.rsp0` is the top, and the task is at most in a system call. -/
  quiet : b = true → rsp0 = t.top ∧ t.kernelStack = t.top ∧ ∀ f ∈ t.frames, f = .syscall t.top
  /-- Something was switched. -/
  disturbed : b = false → rsp0 < t.top

structure StackInv (b : Bool) (s : Cpu) : Prop where
  /-- The frames are below the top. -/
  below : ∀ p t, s.tasks p = some t → ∀ f ∈ t.frames, f.Below t.top
  /-- A task that does not run has a frame on its stack. -/
  saved : ∀ p t, s.tasks p = some t → p ≠ s.current → t.kernelStack < t.top
  /-- The task that runs. -/
  running : ∀ t, s.tasks s.current = some t → Running b s.rsp0 t

variable {b : Bool} {s s' : Cpu} {t t' : StackTask}

theorem Running.rsp0_le {rsp0 : ℤ} (h : Running b rsp0 t) : rsp0 ≤ t.top := by
  cases b with
  | true => exact le_of_eq (h.quiet rfl).1
  | false => exact le_of_lt (h.disturbed rfl)

/-- The stack pointer of an interrupt handler is on the stack of the task. -/
theorem StackInv.isrRsp_le (hI : StackInv b s) (ht : s.tasks s.current = some t) (depth : ℕ) :
    s.isrRsp t depth ≤ t.top := by
  have hrsp : (match t.frames with
      | [] => s.rsp0
      | f :: _ => f.rsp - depth) ≤ t.top := by
    split
    · exact (hI.running t ht).rsp0_le
    · next f fs hf =>
      have := (hI.below _ t ht f (by rw [hf]; exact List.mem_cons_self)).rsp_le
      omega
  simp only [Cpu.isrRsp, isrFrameSize]
  generalize (match t.frames with
      | [] => s.rsp0
      | f :: _ => f.rsp - depth) = r at hrsp
  omega

/-- A step that changes only the running task. -/
theorem StackInv.update {b' : Bool} (hI : StackInv b s)
    (htasks : s'.tasks = Function.update s.tasks s.current (some t'))
    (hcur : s'.current = s.current) (hbelow : ∀ f ∈ t'.frames, f.Below t'.top)
    (hrun : Running b' s'.rsp0 t') : StackInv b' s' := by
  refine ⟨fun p u hu => ?_, fun p u hu hp => ?_, fun u hu => ?_⟩
  · rw [htasks, Function.update_apply] at hu
    split at hu
    · cases hu; exact hbelow
    · exact hI.below p u hu
  · rw [hcur] at hp
    rw [htasks, Function.update_of_ne hp] at hu
    exact hI.saved p u hu hp
  · rw [htasks, hcur, Function.update_self] at hu
    cases hu
    exact hrun

/-- A context switch. -/
theorem StackInv.switchTo (hI : StackInv b s) {me : StackTask} {rsp : ℤ} {next : ℕ}
    (hbelow : ∀ f ∈ me.frames, f.Below me.top) (hrsp : rsp ≤ me.top) (hne : next ≠ s.current)
    (h : s.switchTo me rsp next = .ok s') : StackInv false s' := by
  unfold Cpu.switchTo at h
  split at h
  · simp at h
  · next n hn =>
    simp only [Except.ok.injEq] at h
    subst h
    have hkn := hI.saved next n hn hne
    refine ⟨fun p u hu => ?_, fun p u hu hp => ?_, fun u hu => ?_⟩
    · simp only [Function.update_apply] at hu
      split at hu
      · cases hu; exact hbelow
      · exact hI.below p u hu
    · simp only [Function.update_apply] at hu
      split at hu
      · cases hu; simp only [contextInfoSize]; omega
      · exact hI.saved p u hu (by assumption)
    · simp only [Function.update_of_ne hne] at hu
      rw [hn] at hu
      cases hu
      exact ⟨le_of_lt hkn, fun h => by simp at h, fun _ => hkn⟩

/-- A new task on a fresh pid. -/
theorem StackInv.newTask (hI : StackInv b s) {pid : ℕ} (ht : s.tasks s.current = some t)
    (hfresh : s.tasks pid = none) (hbelow : ∀ f ∈ t'.frames, f.Below t'.top)
    (hsaved : t'.kernelStack < t'.top) :
    StackInv b { s with tasks := Function.update s.tasks pid (some t') } := by
  have hne : s.current ≠ pid := by
    rintro hcp
    rw [hcp, hfresh] at ht
    simp at ht
  refine ⟨fun p u hu => ?_, fun p u hu hp => ?_, fun u hu => ?_⟩
  · simp only [Function.update_apply] at hu
    split at hu
    · cases hu; exact hbelow
    · exact hI.below p u hu
  · simp only [Function.update_apply] at hu
    split at hu
    · cases hu; exact hsaved
    · exact hI.saved p u hu hp
  · simp only [Function.update_of_ne hne] at hu
    exact hI.running u hu

/-! ### Steps and runs -/

theorem StackInv.timerIntr (hI : StackInv b s) (ht : s.tasks s.current = some t)
    {depth call next : ℕ} (h : s.timerIntr t depth call next = .ok s') :
    StackInv (s.quietAfter b (.timer depth call next)) s' := by
  have hbelow := hI.below _ t ht
  obtain ⟨hle, hq, hd⟩ := hI.running t ht
  have hsw : s.switches (.timer depth call next) =
      (decide (t.timeslice = 10) && decide (next ≠ s.current)) := by
    simp [Cpu.switches, ht]
  unfold Cpu.timerIntr at h
  simp only [Cpu.quietAfter, hsw]
  split at h
  · next h10 =>
    split at h
    · next hn =>
      simp only [Except.ok.injEq] at h
      subst h
      simp only [h10, hn, ne_eq, not_true_eq_false, decide_false, Bool.and_false, Bool.not_false,
        Bool.and_true]
      exact hI.update rfl rfl hbelow ⟨hle, hq, hd⟩
    · next hn =>
      simp only [h10, hn, ne_eq, not_false_eq_true, decide_true, Bool.and_true, Bool.not_true,
        Bool.and_false]
      have hrsp := hI.isrRsp_le ht depth
      refine hI.switchTo ?_ ?_ hn h
      · intro f hf
        rcases List.mem_cons.1 hf with rfl | hf
        · exact hrsp
        · exact hbelow f hf
      · simp only
        omega
  · next h10 =>
    simp only [Except.ok.injEq] at h
    subst h
    simp only [h10, decide_false, Bool.false_and, Bool.not_false, Bool.and_true]
    exact hI.update rfl rfl hbelow ⟨hle, hq, hd⟩

/-- `schedule` called from kernel code. -/
theorem StackInv.schedule (hI : StackInv b s) (ht : s.tasks s.current = some t) {f : Frame}
    {fs : List Frame} (hf : t.frames = f :: fs) {call next : ℕ}
    (h : (if next = s.current then .ok s
      else s.switchTo { t with frames := f :: fs } (f.rsp - call) next) = .ok s') :
    StackInv (s.quietAfter b (.schedule call next)) s' := by
  have hbelow := hI.below _ t ht
  rw [hf] at hbelow
  simp only [Cpu.quietAfter, Cpu.switches]
  split at h
  · next hn =>
    simp only [Except.ok.injEq] at h
    subst h
    simpa [hn] using hI
  · next hn =>
    have hrsp := (hbelow f List.mem_cons_self).rsp_le
    simpa [hn] using hI.switchTo hbelow (by simp only; omega) hn h

/-- The end of an interrupt handler. -/
theorem StackInv.iret (hI : StackInv b s) (ht : s.tasks s.current = some t) {r : ℤ} {fs : List Frame}
    (hf : t.frames = .isr r :: fs) :
    StackInv b { s.setCurrent { t with frames := fs } with intr := true } := by
  have hbelow := hI.below _ t ht
  have hrun := hI.running t ht
  rw [hf] at hbelow
  refine hI.update rfl rfl (fun f hmem => hbelow f (List.mem_cons_of_mem _ hmem))
    ⟨hrun.le, fun hb => ?_, hrun.disturbed⟩
  -- a quiet run has no interrupt handler under way
  have := (hrun.quiet hb).2.2 (.isr r) (by rw [hf]; exact List.mem_cons_self)
  simp at this

/-- A system call starts at `kernel_stack`. -/
theorem StackInv.syscall (hI : StackInv b s) (ht : s.tasks s.current = some t) :
    StackInv b { s.setCurrent { t with frames := [.syscall t.kernelStack] } with intr := false } := by
  have hrun := hI.running t ht
  refine hI.update rfl rfl (fun f hmem => ?_) ⟨hrun.le, fun hb => ?_, hrun.disturbed⟩
  · rw [List.mem_singleton.1 hmem]; exact hrun.le
  · obtain ⟨h1, h2, -⟩ := hrun.quiet hb
    refine ⟨h1, h2, fun f hmem => ?_⟩
    rw [List.mem_singleton.1 hmem, h2]

/-- A return to user mode, from a system call or from the start of a forked process. -/
theorem StackInv.sysretTo (hI : StackInv b s) (ht : s.tasks s.current = some t) {f : Frame} {e : ℤ}
    (hf : t.frames = [f]) (hfe : f = .syscall e ∨ f = .fork e) : StackInv b (s.sysretTo t e) := by
  have hrun := hI.running t ht
  have hfb : f.Below t.top := hI.below _ t ht f (by rw [hf]; exact List.mem_cons_self)
  have hle : e ≤ t.top := by rcases hfe with rfl | rfl <;> exact hfb
  refine hI.update rfl rfl (by simp) ⟨hle, fun hb => ?_, hrun.disturbed⟩
  obtain ⟨h1, h2, h3⟩ := hrun.quiet hb
  have hft := h3 f (by rw [hf]; exact List.mem_cons_self)
  refine ⟨h1, ?_, by simp⟩
  rcases hfe with rfl | rfl
  · simpa using hft
  · simp at hft

/-- `exec` moves to a new kernel stack. -/
theorem StackInv.execTo (hI : StackInv b s) (t : StackTask) (page : ℤ) :
    StackInv true (s.execTo t page) :=
  hI.update rfl rfl (by simp) ⟨le_refl _, fun _ => ⟨rfl, rfl, by simp⟩, by simp⟩

/-- **One action** keeps the invariant. -/
theorem StackInv.step (hI : StackInv b s) {a : StackAct} (h : s.step a = .ok s') :
    StackInv (s.quietAfter b a) s' := by
  unfold Cpu.step at h
  split at h
  · simp at h
  next t ht =>
  cases a with
  | timer depth call next =>
    simp only [Cpu.taskStep] at h
    split at h
    · exact hI.timerIntr ht h
    · simp at h
  | iret =>
    simp only [Cpu.quietAfter, Cpu.switches, Bool.not_false, Bool.and_true]
    simp only [Cpu.taskStep] at h
    split at h
    · next r fs hf =>
      cases h
      exact hI.iret ht hf
    · simp at h
  | syscall =>
    simp only [Cpu.quietAfter, Cpu.switches, Bool.not_false, Bool.and_true]
    simp only [Cpu.taskStep] at h
    split at h
    · cases h
      exact hI.syscall ht
    · simp at h
  | schedule call next =>
    simp only [Cpu.taskStep] at h
    split at h
    · next hf => exact hI.schedule ht hf h
    · next hf => exact hI.schedule ht hf h
    · simp at h
  | sysret =>
    simp only [Cpu.quietAfter, Cpu.switches, Bool.not_false, Bool.and_true]
    simp only [Cpu.taskStep] at h
    split at h
    · next e hf =>
      cases h
      exact hI.sysretTo ht hf (.inl rfl)
    · next e hf =>
      cases h
      exact hI.sysretTo ht hf (.inr rfl)
    · simp at h
  | fork pid page =>
    simp only [Cpu.quietAfter, Cpu.switches, Bool.not_false, Bool.and_true]
    simp only [Cpu.taskStep] at h
    split at h
    · next hfresh =>
      cases h
      refine hI.newTask ht hfresh (fun f hmem => ?_) ?_
      · rw [List.mem_singleton.1 hmem]; exact le_refl _
      · simp only [forkTask, scFrameSize, contextInfoSize]; omega
    · simp at h
  | exec page =>
    simp only [Cpu.taskStep] at h
    split at h
    · cases h; exact hI.execTo t page
    · cases h; exact hI.execTo t page
    · simp at h
  | kernelThread pid page =>
    simp only [Cpu.quietAfter, Cpu.switches, Bool.not_false, Bool.and_true]
    simp only [Cpu.taskStep] at h
    split at h
    · next hfresh =>
      cases h
      refine hI.newTask ht hfresh (fun f hmem => ?_) ?_
      · rw [List.mem_singleton.1 hmem]; exact le_refl _
      · simp only [kernelThreadTask, contextInfoSize]; omega
    · simp at h

theorem StackInv.run {as : List StackAct} (hI : StackInv b s)
    (hrun : run Cpu.step s as = .ok s') : StackInv (quiet b s as) s' := by
  induction as generalizing b s with
  | nil =>
    simp only [run_nil, Except.ok.injEq] at hrun
    subst hrun
    exact hI
  | cons a as ih =>
    obtain ⟨t, ht, hrest⟩ := run_cons_eq_ok.1 hrun
    simp only [quiet, ht]
    exact ih (hI.step ht) hrest

theorem stackInv_boot {stackTop : ℤ} (h : 0 < stackTop) : StackInv false (bootCpu stackTop) := by
  have hone : ∀ p t, (bootCpu stackTop).tasks p = some t → p = 0 ∧
      t = { kernelStack := 0, timeslice := 0, frames := [.thread stackTop], top := stackTop } := by
    intro p t ht
    simp only [bootCpu, Function.update_apply] at ht
    split at ht
    · next hp => exact ⟨hp, (Option.some.inj ht).symm⟩
    · simp at ht
  refine ⟨fun p t ht => ?_, fun p t ht hp => ?_, fun t ht => ?_⟩
  · obtain ⟨-, rfl⟩ := hone p t ht
    intro f hf
    rw [List.mem_singleton.1 hf]
    exact le_refl _
  · exact absurd (hone p t ht).1 hp
  · obtain ⟨-, rfl⟩ := hone _ t ht
    exact ⟨le_of_lt h, fun hb => by simp at hb, fun _ => h⟩

/-- **The kernel stack pointers drift.**  In every run from boot, whenever a process is in user
mode, its `kernel_stack` and `tss.rsp0` are both at the top of its kernel stack exactly when no
task was switched since the last `exec`. -/
theorem stack_atTop_iff {stackTop : ℤ} (h0 : 0 < stackTop) {as : List StackAct}
    (hrun : run Cpu.step (bootCpu stackTop) as = .ok s) (huser : s.UserMode) :
    s.AtTop ↔ quiet false (bootCpu stackTop) as = true := by
  have hI := (stackInv_boot h0).run hrun
  obtain ⟨t, ht, -⟩ := huser
  constructor
  · rintro ⟨u, hu, -, hrsp⟩
    by_contra hq
    have := (hI.running u hu).disturbed (Bool.eq_false_iff.2 hq)
    omega
  · intro hq
    obtain ⟨h1, h2, -⟩ := (hI.running t ht).quiet hq
    exact ⟨t, ht, h2, h1⟩

/-- The kernel threads of `start`, the switch to the init process and its `exec`. -/
def bootActs : List StackAct :=
  [.kernelThread 1 0x1000, .kernelThread 2 0x2000, .kernelThread 3 0x3000, .schedule 64 3,
    .exec 0x4000]

theorem stack_atTop_iff_exec : ∃ s, run Cpu.step (bootCpu 0x800) bootActs = .ok s ∧ s.UserMode ∧
    (s.AtTop ↔ quiet false (bootCpu 0x800) bootActs = true) := by
  obtain ⟨s, hrun, huser⟩ := exists_of_reaches
    (r := run Cpu.step (bootCpu 0x800) bootActs) (show reaches _ (fun s => s.UserMode) = true by
      decide +kernel)
  have huser := of_decide_eq_true huser
  exact ⟨s, hrun, huser, stack_atTop_iff (by decide) hrun huser⟩

/-- The process uses up its timeslice, the idle thread does too, and back in user mode `tss.rsp0`
is where `__switch_to` had left the stack. -/
theorem stack_drifts : ¬ ∀ as s, run Cpu.step (bootCpu 0x800) as = .ok s → s.UserMode →
    s.AtTop := by
  intro hall
  obtain ⟨s, hrun, htest⟩ := exists_of_reaches (r := run Cpu.step (bootCpu 0x800)
    (bootActs ++ List.replicate 11 (.timer 0 64 1) ++ List.replicate 11 (.timer 0 64 3) ++ [.iret]))
    (show reaches _ (fun s => s.UserMode ∧ ¬ s.AtTop) = true by decide +kernel)
  obtain ⟨huser, htop⟩ := of_decide_eq_true htest
  exact htop (hall _ s hrun huser)

end PlumOs
