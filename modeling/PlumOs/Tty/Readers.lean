import PlumOs.Proc.KernelFrame
import PlumOs.Proc.KernelRun
import PlumOs.Tty.Keyboard

/-!
# Readers that sleep (`sys/kbd.c`, `sys/syscall.c`, `sys/process.c`)

A process that reads standard input sleeps on `wait_stdin_list` until `stdin_buf_state` is ready, and
`kbdintr` sets it ready and wakes up all sleepers when the Enter key is released.  With Shift held the
same key only stores the newline.

The steps are those of `Kernel.step`: the test of a woken reader and its next sleep are one step, and so
is `read_stdin`, although a reader that has slept runs with the interrupts on.

* `Console` : the kernel and its terminal, over the steps of all tasks and all scancodes;
* `wakeupFrom_empties`, `newline_spec` : the end of a line leaves nobody on the list;
* `sameStdin_step` : no other step touches the list or the state of the buffer;
* `noSleeper_iff` : **nobody sleeps while there is a line in the buffer exactly if** no newline is
  stored without waking anybody up;
* `noSleeper_fail` : Shift and Enter.
-/

namespace PlumOs

namespace Kernel

variable {s s' : Kernel} {l l' : ListId} {p : ℕ}

/-! ### The list of the readers -/

theorem setNext_head (s : Kernel) (p n : ℕ) :
    Yields (s.setNext p n) (fun s' => s'.head = s.head) fun _ => True := by
  rw [setNext]
  cases s.get p <;> trivial

/-- The head of another list stays. -/
theorem removeFromTasklist_head (hl : l' ≠ l) (s : Kernel) (p : ℕ) :
    Yields (s.removeFromTasklist l p) (fun s' => s'.head l' = s.head l') fun _ => True := by
  rw [removeFromTasklist]
  split
  · cases s.get p with
    | error e => trivial
    | ok u =>
      refine (setNext_head (s.setHead l u.next) p 0).mono fun s' hs' => ?_
      rw [hs']
      exact Function.update_of_ne hl _ _
  · cases s.findPrev p s.fuel (s.head l) with
    | error e => trivial
    | ok r =>
      rw [ok_bind]
      cases s.get p with
      | error e => trivial
      | ok u =>
        rw [ok_bind]
        refine yields_bind (setNext_head s r u.next) fun s₁ h₁ => ?_
        exact (setNext_head s₁ p 0).mono fun s₂ h₂ => by rw [h₂, h₁]

theorem addToTasklist_head (hl : l' ≠ l) (s : Kernel) (p : ℕ) :
    Yields (s.addToTasklist l p) (fun s' => s'.head l' = s.head l') fun _ => True := by
  rw [addToTasklist, setNext]
  cases s.get p with
  | error e => trivial
  | ok u => exact Function.update_of_ne hl _ _

/-- The same readers wait for the same state of the buffer. -/
def SameStdin (s s' : Kernel) : Prop :=
  s'.bufReady = s.bufReady ∧ s'.head .waitStdinList = s.head .waitStdinList

theorem sameStdin_move {s₁ s₂ : Kernel} (hl : l ≠ .waitStdinList) (hl' : l' ≠ .waitStdinList)
    (hrem : s.removeFromTasklist l p = .ok s₁) (hadd : s₁.addToTasklist l' p = .ok s₂) :
    s.SameStdin s₂ := by
  have hglobals := (removeFromTasklist_globals s l p).of_eq_ok hrem
  have hglobals₂ := (addToTasklist_globals s₁ l' p).of_eq_ok hadd
  have hhead := (removeFromTasklist_head hl.symm s p).of_eq_ok hrem
  have hhead₂ := (addToTasklist_head hl'.symm s₁ p).of_eq_ok hadd
  exact ⟨congrArg Globals.bufReady (hglobals₂.trans hglobals), hhead₂.trans hhead⟩

theorem closed_sameStdin : Closed SameStdin fun l l' => l ≠ .waitStdinList ∧ l' ≠ .waitStdinList where
  refl _ := ⟨rfl, rfl⟩
  trans _ _ _ h h' := ⟨h'.1.trans h.1, h'.2.trans h.2⟩
  assign _ _ _ _ _ _ := ⟨rfl, rfl⟩
  current _ _ := ⟨rfl, rfl⟩
  zombieCount _ _ := ⟨rfl, rfl⟩
  exitLog _ _ := ⟨rfl, rfl⟩
  waitLog _ _ := ⟨rfl, rfl⟩
  asleep := by decide
  dead := by decide
  awake := by decide
  move _ _ _ _ _ _ hl := sameStdin_move hl.1 hl.2

theorem sameStdin_free : KeptByFree SameStdin := by
  intro s p s' h
  have hkept : Kept SameStdin s (s.freeProcess p) := by
    rw [freeProcess]
    split
    · trivial
    refine kept_read (s.get p) fun u _ => ?_
    show Kept SameStdin s (if u.state ≠ .zombie then _ else if u.mm = false then _ else _)
    split
    · trivial
    split
    · trivial
    cases hrem : s.removeFromTasklist .zombieList p with
    | error e => trivial
    | ok s₁ =>
      have hglobals := (removeFromTasklist_globals s _ p).of_eq_ok hrem
      have hother : ListId.waitStdinList ≠ .zombieList := by decide
      have hhead := (removeFromTasklist_head hother s p).of_eq_ok hrem
      exact ⟨congrArg Globals.bufReady hglobals, hhead⟩
  exact hkept.of_eq_ok h

theorem SameStdin.born {page : ℕ} {t : TaskInfo} (h : s.Born page t s') : s.SameStdin s' := by
  obtain ⟨⟨u, hnew, hadd⟩, -⟩ := h
  obtain ⟨-, -, -, rfl⟩ := newTask_eq_ok hnew
  have hother : ListId.waitStdinList ≠ .taskHeadp := by decide
  have hhead := (addToTasklist_head hother _ page).of_eq_ok hadd
  have hready := congrArg Globals.bufReady ((addToTasklist_globals _ _ page).of_eq_ok hadd)
  exact ⟨hready, hhead⟩

/-- **Only the end of a line and `read` touch the readers.** -/
theorem sameStdin_step (s : Kernel) {a : KAct} (hline : a ≠ .newline)
    (hread : (∃ page outcome, a = .kernel page outcome) → ¬ s.Innermost .readStdin) :
    Yields (s.step a) s.SameStdin fun _ => True := by
  refine (closed_sameStdin.step sameStdin_free s a (fun h => absurd h hline)
    fun page outcome ha hin => absurd hin (hread ⟨page, outcome, ha⟩)).mono fun s' h => ?_
  rcases h with h | ⟨page, s₁, t, s₂, -, h₁, hborn, -, h₂⟩
  · exact h
  · exact closed_sameStdin.trans _ _ _ h₁ (closed_sameStdin.trans _ _ _ (.born hborn) h₂)

/-- `start` makes threads, and nothing else. -/
theorem sameStdin_boot (p₀ p₁ p₂ p₃ : ℕ) :
    Yields (bootKernel p₀ p₁ p₂ p₃) (initProc p₀).SameStdin fun _ => True := by
  have htrans := closed_sameStdin.trans
  rw [bootKernel]
  refine yields_bind (kernelThread_born (initProc p₀) []) fun ⟨_, s₁⟩ ⟨_, h₁, _⟩ => ?_
  refine yields_bind (kernelThread_born s₁ [.threadClear]) fun ⟨pid, s₂⟩ ⟨_, h₂, _⟩ => ?_
  have h₁₂ := htrans _ _ _ (.born h₁) (.born h₂)
  refine Yields.mono ?_ fun s' h' => htrans _ _ _ h₁₂ h'
  refine kept_read (s₂.findProcessByPid pid .taskHeadp) fun clear _ => ?_
  refine yields_bind (kernelThread_born { s₂ with clearZombie := clear.getD 0 } [.runInit])
    fun ⟨kinit, s₃⟩ ⟨_, h₃, _⟩ => ?_
  have hborn : SameStdin { s₂ with clearZombie := clear.getD 0 } s₃ := .born h₃
  have h₂₃ : s₂.SameStdin s₃ := hborn
  exact (closed_sameStdin.pushFrame s₃ (f := .mainWait kinit) (nofun)).mono fun s' h' => htrans _ _ _ h₂₃ h'

/-! ### The end of a line -/

/-- The head of a list is taken off. -/
theorem removeFromTasklist_first {u : Task} (hu : s.tasks (s.head l) = some u) :
    Yields (s.removeFromTasklist l (s.head l)) (fun s' => s'.head l = u.next) fun _ => True := by
  rw [removeFromTasklist, if_pos rfl]
  cases hget : s.get (s.head l) with
  | error e => trivial
  | ok v =>
    obtain rfl : u = v := Option.some.inj (hu.symm.trans (get_eq_ok hget))
    refine (setNext_head (s.setHead l u.next) (s.head l) 0).mono fun s' hs' => ?_
    rw [hs']
    exact Function.update_self ..

/-- The task at the head of a list is taken to `task_headp`. -/
theorem moveActive_first {u : Task} (hl : l ≠ .taskHeadp) (hget : s.get (s.head l) = .ok u) :
    Yields (s.moveActive l (s.head l)) (fun s' => s'.head l = u.next ∧ s'.bufReady = s.bufReady)
      fun _ => True := by
  rw [moveActive, modify, hget, ok_bind]
  show Yields (removeFromTasklist _ l (s.head l) >>= _) _ _
  obtain ⟨s₁, hs₁⟩ : ∃ s₁ : Kernel, s₁ = s.put (s.head l)
    ⟨{ u.toTaskInfo with state := .active }, u.next⟩ := ⟨_, rfl⟩
  have hhead₁ : s₁.head l = s.head l := by rw [hs₁]; rfl
  have htask₁ : s₁.tasks (s₁.head l) = some ⟨{ u.toTaskInfo with state := .active }, u.next⟩ := by
    rw [hhead₁, hs₁]
    exact Function.update_self ..
  have hready₁ : s₁.bufReady = s.bufReady := by rw [hs₁]; rfl
  rw [put] at hs₁
  rw [← hs₁, ← hhead₁]
  cases hrem : s₁.removeFromTasklist l (s₁.head l) with
  | error e => trivial
  | ok s₂ =>
    have hhead₂ := (removeFromTasklist_first htask₁).of_eq_ok hrem
    have hglobals₂ := (removeFromTasklist_globals s₁ l _).of_eq_ok hrem
    rw [ok_bind]
    cases hadd : s₂.addToTasklist .taskHeadp (s₁.head l) with
    | error e => trivial
    | ok s₃ =>
      have hhead₃ := (addToTasklist_head hl s₂ _).of_eq_ok hadd
      have hglobals₃ := (addToTasklist_globals s₂ _ _).of_eq_ok hadd
      refine ⟨hhead₃.trans hhead₂, ?_⟩
      rw [← hready₁]
      exact congrArg Globals.bufReady (hglobals₃.trans hglobals₂)

/-- `wakeup` takes the sleepers off their list one by one, from its head. -/
theorem wakeupFrom_empties (hl : l ≠ .taskHeadp) (fuel : ℕ) (s : Kernel) :
    Yields (wakeupFrom l fuel (s.head l) s)
      (fun s' => s'.head l = 0 ∧ s'.bufReady = s.bufReady) fun _ => True := by
  induction fuel generalizing s with
  | zero => trivial
  | succ fuel ih =>
    rw [wakeupFrom_def]
    split
    · next hzero => exact ⟨hzero, rfl⟩
    cases hget : s.get (s.head l) with
    | error e => trivial
    | ok u =>
      rw [ok_bind]
      refine yields_bind (moveActive_first hl hget) fun s₁ ⟨hhead, hready⟩ => ?_
      -- the task behind the first one is the head now
      rw [← hhead, ← hready]
      exact ih s₁

theorem newline_spec (s : Kernel) :
    Yields s.newline (fun s' => s'.bufReady = true ∧ s'.head .waitStdinList = 0) fun _ => True := by
  rw [newline]
  show Yields (if _ then _ else _) _ _
  split
  · exact (wakeupFrom_empties (by decide) _ { s with bufReady := true }).mono
      fun s' hs' => ⟨hs'.2, hs'.1⟩
  · next hempty => exact ⟨rfl, not_not.1 hempty⟩

/-- The step at the end of a line. -/
theorem step_newline (s : Kernel) : Yields (s.step .newline)
    (fun s' => s'.bufReady = true ∧ s'.head .waitStdinList = 0) fun _ => True := by
  rw [Kernel.step]
  cases s.get s.current with
  | error e => trivial
  | ok u =>
    rw [ok_bind]
    cases hf : u.frames with
    | nil => exact newline_spec s
    | cons f fs =>
      cases f with
      | schedule => trivial
      | _ => exact newline_spec s

/-- The step of a task that reads, once the buffer is ready. -/
theorem step_readStdin {page : ℕ} {outcome : Bool} (hin : s.Innermost .readStdin)
    (hready : s.bufReady = true) : Yields (s.step (.kernel page outcome))
      (fun s' => s'.bufReady = !outcome ∧ s'.head .waitStdinList = s.head .waitStdinList)
      fun _ => True := by
  refine yields_step hin page outcome ?_
  rw [kernelStep, if_pos hready]
  exact closed_sameStdin.popFrame { s with bufReady := !outcome }

/-- The state of the buffer is the same. -/
def SameReady (s s' : Kernel) : Prop := s'.bufReady = s.bufReady

theorem closed_sameReady : Closed SameReady fun _ _ => True where
  refl _ := rfl
  trans _ _ _ h h' := h'.trans h
  assign _ _ _ _ _ _ := rfl
  current _ _ := rfl
  zombieCount _ _ := rfl
  exitLog _ _ := rfl
  waitLog _ _ := rfl
  asleep := trivial
  dead := trivial
  awake := trivial
  move s s₁ _ l l' p _ hrem hadd := congrArg Globals.bufReady
    (((addToTasklist_globals s₁ l' p).of_eq_ok hadd).trans
      ((removeFromTasklist_globals s l p).of_eq_ok hrem))

/-- The step of a task that finds the buffer not ready. -/
theorem step_readStdin_sleep {page : ℕ} {outcome : Bool} (hin : s.Innermost .readStdin)
    (hready : s.bufReady = false) : Yields (s.step (.kernel page outcome))
      (fun s' => s'.bufReady = false) fun _ => True := by
  refine yields_step hin page outcome ?_
  rw [kernelStep, if_neg (by rw [hready]; decide)]
  exact (closed_sameReady.sleep trivial s).mono fun s' hs' => hs'.trans hready

end Kernel

/-! ### The console -/

/-- The kernel and its terminal. -/
structure Console where
  kernel : Kernel
  term : Terminal

namespace Console

/-- What happens next: a scancode, or a step of the kernel.  A task that gets to `read_stdin` asks for
`n` bytes, and `copied` tells whether `copy_from_kernel` returns 0. -/
inductive Act where
  | key (status data : Fin 256)
  | kernel (a : KAct) (n : ℤ) (copied : Bool)

/-- `current` is in `read`, and the buffer is ready. -/
def reading (c : Console) : Bool :=
  match c.kernel.tasks c.kernel.current with
  | some t => t.frames.head? = some .readStdin && c.kernel.bufReady
  | none => false

/-- One step.  What `kbdintr` asks of the scheduler is a step of the kernel, and `read_stdin` says
whether the buffer is still ready. -/
def step (around : ℤ → ℕ) (c : Console) : Act → Except Halt Console
  | .key status data =>
    match c.term.kbdintr around status data with
    | (term, .none) => .ok ⟨c.kernel, term⟩
    | (term, .wakeup) => do
      let kernel ← c.kernel.step .newline
      return ⟨kernel, term⟩
    | (term, .kill) => do
      let kernel ← c.kernel.step .ctrlC
      return ⟨kernel, term⟩
  | .kernel .newline _ _ => .error .disabled
  | .kernel .ctrlC _ _ => .error .disabled
  | .kernel (.kernel page outcome) n copied =>
    if c.reading then do
      let (term, _) := c.term.readStdin (wrap32 n) copied
      let kernel ← c.kernel.step (.kernel page (!term.ready))
      return ⟨kernel, term⟩
    else do
      let kernel ← c.kernel.step (.kernel page outcome)
      return ⟨kernel, c.term⟩
  | .kernel a _ _ => do
    let kernel ← c.kernel.step a
    return ⟨kernel, c.term⟩

/-- Where there is a complete line in the buffer, the buffer is ready and nobody sleeps. -/
def NoSleeper (c : Console) : Prop :=
  10 ∈ c.term.content → c.term.ready = true ∧ c.kernel.head .waitStdinList = 0

/-- A newline is stored only by the Enter key, unless the buffer is ready anyway.  The character is not
in the buffer if `stdin_buf_size` is negative or is the largest `int`.  The second case is that of
`stdin_buf_size` counted down to the smallest `int`, so that it wraps. -/
def Announced (around : ℤ → ℕ) (c : Console) : Act → Prop
  | .key status data =>
    match c.term.keyEffect around status data with
    | .store ch enter => ch = 10 → enter = false → c.term.ready = false →
      c.term.size < 0 ∨ c.term.size = 2 ^ 31 - 1
    | .erase => c.term.size = -2 ^ 31 → c.term.ready = false →
      10 ∉ Stdin.content ⟨c.term.buf, 2 ^ 31 - 1⟩
    | _ => True
  | .kernel _ _ _ => True

instance (around : ℤ → ℕ) (c : Console) (a : Act) : Decidable (c.Announced around a) := by
  cases a with
  | key status data =>
    simp only [Announced]
    cases c.term.keyEffect around status data <;> infer_instance
  | kernel a n copied => exact .isTrue trivial

/-- What holds as long as every newline is announced. -/
structure Sound (c : Console) : Prop where
  /-- The size is an `int`. -/
  int : -2 ^ 31 ≤ c.term.size ∧ c.term.size < 2 ^ 31
  /-- Both have `buf_ready`. -/
  same : c.kernel.bufReady = c.term.ready
  /-- Nobody sleeps while `buf_ready` is set. -/
  empty : c.term.ready = true → c.kernel.head .waitStdinList = 0
  /-- `buf_ready` is set if there is a line to read. -/
  line : 10 ∈ c.term.content → c.term.ready = true

variable {around : ℤ → ℕ} {c : Console}

theorem Sound.noSleeper (h : c.Sound) : c.NoSleeper :=
  fun hmem => ⟨h.line hmem, h.empty (h.line hmem)⟩

theorem reading_eq : c.reading = true ↔
    c.kernel.Innermost .readStdin ∧ c.kernel.bufReady = true := by
  rw [reading, Kernel.Innermost]
  cases ht : c.kernel.tasks c.kernel.current with
  | none => simp [Kernel.info, ht]
  | some t => cases hf : t.frames <;> simp [Kernel.info, ht, hf]

/-! ### Scancodes -/

/-- A character that is stored is in the buffer, unless the size is negative or wraps. -/
theorem content_store {stdin : Stdin} (h : -2 ^ 31 ≤ stdin.size ∧ stdin.size < 2 ^ 31) (ch : ℕ)
    (enter : Bool) : ((KeyEffect.store ch enter).stdin stdin).content =
      if stdin.size < 0 ∨ stdin.size = 2 ^ 31 - 1 then [] else stdin.content ++ [ch] := by
  rw [KeyEffect.stdin]
  split
  · next hout =>
    refine Stdin.content_eq_nil ?_
    simp only [wrap32]
    omega
  · next hin =>
    rw [wrap32_of_mem (by omega) (by omega)]
    exact Stdin.content_push (by omega) ch

theorem content_erase {stdin : Stdin} (h : -2 ^ 31 ≤ stdin.size ∧ stdin.size < 2 ^ 31) :
    (KeyEffect.erase.stdin stdin).content =
      if stdin.size = -2 ^ 31 then Stdin.content ⟨stdin.buf, 2 ^ 31 - 1⟩
      else stdin.content.dropLast := by
  rw [KeyEffect.stdin]
  split
  · next hmin =>
    have hwrap : wrap32 (stdin.size - 1) = 2 ^ 31 - 1 := by
      simp only [wrap32]
      omega
    rw [hwrap]
  · next hmin =>
    rw [wrap32_of_mem (by omega) (by omega)]
    rcases le_or_gt stdin.size 0 with hle | hpos
    · have hnil : Stdin.content ⟨stdin.buf, stdin.size - 1⟩ = [] :=
        Stdin.content_eq_nil (by simp only; omega)
      rw [hnil, Stdin.content_eq_nil hle]
      rfl
    · exact Stdin.content_pop hpos

/-- A scancode is announced exactly if it leaves no line in a buffer that is not ready. -/
theorem Sound.announced_iff {status data : Fin 256} (h : c.Sound) :
    c.Announced around (.key status data) ↔
      (10 ∈ (c.term.kbdintr around status data).1.content →
        (c.term.kbdintr around status data).1.ready = true) := by
  have hspec := Terminal.kbdintr_spec around c.term status data
  have hline := h.line
  rw [hspec.stdin, hspec.ready, Announced]
  cases c.term.keyEffect around status data with
  | store ch enter =>
    simp only [content_store h.int, KeyEffect.enter]
    split
    · next hout => exact ⟨fun _ hmem => (nomatch hmem), fun _ _ _ _ => hout⟩
    · next hin =>
      simp only [List.mem_append, List.mem_singleton, Bool.or_eq_true, hin, imp_false]
      constructor
      · rintro hann (hmem | hch)
        · exact .inl (hline hmem)
        · cases hready : c.term.ready with
          | true => exact .inl rfl
          | false => exact .inr (by simpa using fun he => hann hch.symm he hready)
      · intro himp hch henter hready
        rcases himp (.inr hch.symm) with hr | he
        · rw [hready] at hr
          exact Bool.false_ne_true hr
        · rw [henter] at he
          exact Bool.false_ne_true he
  | erase =>
    simp only [content_erase h.int, KeyEffect.enter, Bool.or_false]
    split
    · next hmin =>
      constructor
      · intro hann hmem
        by_contra hready
        exact hann hmin (Bool.eq_false_iff.2 hready) hmem
      · intro himp _ hready hmem
        rw [himp hmem] at hready
        exact Bool.false_ne_true hready.symm
    · next hmin =>
      exact ⟨fun _ hmem => hline (List.mem_of_mem_dropLast hmem), fun _ heq => absurd heq hmin⟩
  | none =>
    simp only [KeyEffect.stdin, KeyEffect.enter, Bool.or_false, true_iff]
    exact hline
  | kill =>
    simp only [KeyEffect.stdin, KeyEffect.enter, Bool.or_false, true_iff]
    exact hline

theorem kbdintr_int (around : ℤ → ℕ) (status data : Fin 256) (h : c.Sound) :
    -2 ^ 31 ≤ (c.term.kbdintr around status data).1.size ∧
      (c.term.kbdintr around status data).1.size < 2 ^ 31 := by
  have hwrap : ∀ x, -2 ^ 31 ≤ wrap32 x ∧ wrap32 x < 2 ^ 31 := by
    intro x
    simp only [wrap32]
    omega
  rw [(Terminal.kbdintr_spec around c.term status data).stdin]
  cases c.term.keyEffect around status data with
  | store ch enter => exact hwrap _
  | erase => exact hwrap _
  | none => exact h.int
  | kill => exact h.int

/-- The state of the buffer stays, and so do the sleepers. -/
theorem Sound.of_quiet {term : Terminal} {kernel : Kernel} (h : c.Sound)
    (hint : -2 ^ 31 ≤ term.size ∧ term.size < 2 ^ 31) (hready : term.ready = c.term.ready)
    (hline : 10 ∈ term.content → term.ready = true) (hsame : c.kernel.SameStdin kernel) :
    Sound ⟨kernel, term⟩ where
  int := hint
  same := (hsame.1.trans h.same).trans hready.symm
  empty hr := hsame.2.trans (h.empty (hready.symm.trans hr))
  line := hline

/-- **A scancode that is announced** keeps the invariant. -/
theorem Sound.key {status data : Fin 256} (h : c.Sound)
    (hann : c.Announced around (.key status data)) :
    Yields (c.step around (.key status data)) Sound fun _ => True := by
  have hspec := Terminal.kbdintr_spec around c.term status data
  have hint := kbdintr_int around status data h
  have hline := h.announced_iff.1 hann
  have hready := hspec.ready
  have hcall := hspec.call
  rw [step]
  generalize hk : c.term.kbdintr around status data = r at *
  obtain ⟨term, call⟩ := r
  cases heff : c.term.keyEffect around status data with
  | store ch enter =>
    rw [heff] at hready hcall
    cases enter with
    | true =>
      obtain rfl : call = .wakeup := hcall
      show Yields (c.kernel.step .newline >>= _) _ _
      refine yields_bind (Kernel.step_newline c.kernel) fun kernel ⟨hr, hempty⟩ => ?_
      exact ⟨hint, hr.trans (hready.trans (Bool.or_true _)).symm, fun _ => hempty, hline⟩
    | false =>
      obtain rfl : call = .none := hcall
      exact h.of_quiet hint (hready.trans (Bool.or_false _)) hline ⟨rfl, rfl⟩
  | kill =>
    rw [heff] at hready hcall
    obtain rfl : call = .kill := hcall
    show Yields (c.kernel.step .ctrlC >>= _) _ _
    refine yields_bind (Kernel.sameStdin_step c.kernel (by decide) (by rintro ⟨_, _, ⟨⟩⟩))
      fun kernel hsame => ?_
    exact h.of_quiet hint (hready.trans (Bool.or_false _)) hline hsame
  | erase =>
    rw [heff] at hready hcall
    obtain rfl : call = .none := hcall
    exact h.of_quiet hint (hready.trans (Bool.or_false _)) hline ⟨rfl, rfl⟩
  | none =>
    rw [heff] at hready hcall
    obtain rfl : call = .none := hcall
    exact h.of_quiet hint (hready.trans (Bool.or_false _)) hline ⟨rfl, rfl⟩

/-- A newline that is not announced is in the buffer, and the step goes through. -/
theorem Sound.not_key {status data : Fin 256} (h : c.Sound)
    (hann : ¬ c.Announced around (.key status data)) :
    ∃ c', c.step around (.key status data) = .ok c' ∧ ¬ c'.NoSleeper := by
  have hbad := mt h.announced_iff.2 hann
  have hcall := (Terminal.kbdintr_spec around c.term status data).call
  have hready := (Terminal.kbdintr_spec around c.term status data).ready
  rw [Classical.not_imp] at hbad
  refine ⟨⟨c.kernel, (c.term.kbdintr around status data).1⟩, ?_, fun hno => hbad.2 (hno hbad.1).1⟩
  have hnone : (c.term.kbdintr around status data).2 = .none := by
    rw [hcall]
    rw [Announced] at hann
    cases heff : c.term.keyEffect around status data with
    | store ch enter =>
      cases enter with
      | true =>
        rw [heff] at hready
        exact absurd (hready.trans (Bool.or_true _)) hbad.2
      | false => rfl
    | erase => rfl
    | none => rw [heff] at hann; exact absurd trivial hann
    | kill => rw [heff] at hann; exact absurd trivial hann
  rw [step]
  generalize c.term.kbdintr around status data = r at *
  obtain ⟨term, call⟩ := r
  obtain rfl : call = .none := hnone
  rfl

/-! ### Steps of the kernel -/

/-- `read_stdin`, once the buffer is ready. -/
theorem readStdin_line (t : Terminal) (hint : -2 ^ 31 ≤ t.size ∧ t.size < 2 ^ 31)
    (hready : t.ready = true) (n : ℤ) (copied : Bool) :
    let u := (t.readStdin n copied).1
    (-2 ^ 31 ≤ u.size ∧ u.size < 2 ^ 31) ∧ (10 ∈ u.content → u.ready = true) := by
  cases copied with
  | false =>
    rw [Terminal.readStdin_false]
    exact ⟨hint, fun _ => hready⟩
  | true =>
    rcases le_or_gt t.size n with hle | hlt
    · have hnil : Stdin.content ⟨t.buf, 0⟩ = [] := Stdin.content_eq_nil (le_refl (0 : ℤ))
      rw [Terminal.readStdin_drain hle]
      refine ⟨?_, fun hmem => ?_⟩
      · show -2 ^ 31 ≤ (0 : ℤ) ∧ (0 : ℤ) < 2 ^ 31
        decide
      · change 10 ∈ Stdin.content ⟨t.buf, 0⟩ at hmem
        rw [hnil] at hmem
        exact nomatch hmem
    · rw [Terminal.readStdin_part hlt]
      refine ⟨?_, fun _ => hready⟩
      show -2 ^ 31 ≤ wrap32 (t.size - n) ∧ wrap32 (t.size - n) < 2 ^ 31
      rw [wrap32]
      omega

theorem Sound.kernel (h : c.Sound) (a : KAct) (n : ℤ) (copied : Bool) :
    Yields (c.step around (.kernel a n copied)) Sound fun _ => True := by
  have hquiet : a ≠ .newline → ((∃ page outcome, a = .kernel page outcome) →
      ¬ c.kernel.Innermost .readStdin) →
      Yields (do let kernel ← c.kernel.step a; return (⟨kernel, c.term⟩ : Console)) Sound
        fun _ => True := fun hline hread =>
    yields_bind (Kernel.sameStdin_step c.kernel hline hread) fun kernel hsame =>
      h.of_quiet h.int rfl h.line hsame
  cases a with
  | newline => trivial
  | ctrlC => trivial
  | kernel page outcome =>
    rw [step]
    split
    · next hreading =>
      obtain ⟨hin, hready⟩ := reading_eq.1 hreading
      have hterm := h.same.symm.trans hready
      obtain ⟨hint, hline⟩ := readStdin_line c.term h.int hterm (wrap32 n) copied
      show Yields (c.kernel.step _ >>= _) _ _
      refine yields_bind (Kernel.step_readStdin hin hready) fun kernel ⟨hr, hhead⟩ => ?_
      exact ⟨hint, hr.trans (Bool.not_not _), fun _ => hhead.trans (h.empty hterm), hline⟩
    · next hreading =>
      by_cases hin : c.kernel.Innermost .readStdin
      · have hready : c.kernel.bufReady = false := by
          by_contra hr
          exact hreading (reading_eq.2 ⟨hin, Bool.not_eq_false _ ▸ hr⟩)
        refine yields_bind (Kernel.step_readStdin_sleep hin hready) fun kernel hr => ?_
        refine ⟨h.int, hr.trans (hready.symm.trans h.same), fun ht => ?_, h.line⟩
        rw [← h.same, hready] at ht
        exact absurd ht Bool.false_ne_true
      · exact hquiet (fun h => nomatch h) fun _ => hin
  | _ => exact hquiet (fun h => nomatch h) fun ⟨_, _, h⟩ => nomatch h

/-! ### Runs -/

theorem sound_start {p₀ p₁ p₂ p₃ : ℕ} {kernel : Kernel}
    (hboot : bootKernel p₀ p₁ p₂ p₃ = .ok kernel) : Sound ⟨kernel, Terminal.kbdinit⟩ := by
  obtain ⟨hready, hhead⟩ := (Kernel.sameStdin_boot p₀ p₁ p₂ p₃).of_eq_ok hboot
  have hsize : -2 ^ 31 ≤ (0 : ℤ) ∧ (0 : ℤ) < 2 ^ 31 := by decide
  exact ⟨hsize, hready, (fun h => nomatch h), (fun h => nomatch h)⟩

/-- **Nobody sleeps on a complete line**, in every state of a run from boot, exactly as long as every
newline is announced. -/
theorem noSleeper_iff (around : ℤ → ℕ) {p₀ p₁ p₂ p₃ : ℕ} {kernel : Kernel}
    (hboot : bootKernel p₀ p₁ p₂ p₃ = .ok kernel) (acts : List Act) :
    Always (step around) NoSleeper ⟨kernel, Terminal.kbdinit⟩ acts ↔
      Along (step around) (Announced around) ⟨kernel, Terminal.kbdinit⟩ acts := by
  have hall : Along (step around) (fun _ _ => True) ⟨kernel, Terminal.kbdinit⟩ acts :=
    along_of_forall (fun _ _ => trivial) _ _
  refine always_iff_along (sound_start hboot) (fun _ => Sound.noSleeper) ?_ ?_ hall
  · rintro c a c' h - hann hstep
    cases a with
    | key status data => exact (h.key hann).of_eq_ok hstep
    | kernel a n copied => exact (h.kernel a n copied).of_eq_ok hstep
  · rintro c a h - hann
    cases a with
    | key status data => exact h.not_key hann
    | kernel a n copied => exact absurd trivial hann

/-- The init process reads and goes to sleep. -/
def asleep : List Act :=
  [.kernel (.kernel 0 true) 0 true, .kernel (.kernel 0 true) 0 true, .kernel (.kernel 0 true) 0 true,
    .kernel (.kernel 0 true) 0 true, .kernel .timer 0 true, .kernel (.kernel 0 true) 0 true,
    .kernel (.kernel 0 true) 0 true, .kernel .read 0 true, .kernel (.kernel 0 true) 0 true]

/-- The key a and Enter are pressed and released. -/
def aEnter : List Act := [.key 1 0x1e, .key 1 0x9e, .key 1 0x1c, .key 1 0x9c]

theorem noSleeper_iff_aEnter :
    Always (step fun _ => 0) NoSleeper ⟨Kernel.started 10 11 12 13, Terminal.kbdinit⟩
      (asleep ++ aEnter) :=
  (noSleeper_iff _ (Kernel.bootKernel_eq (by decide)) _).2 (along_of_decide (by decide +kernel))

/-- Enter is pressed and released while Shift is held. -/
def shiftEnter : List Act := [.key 1 0x2a, .key 1 0x1c, .key 1 0x9c]

/-- The newline is in the buffer, and the init process sleeps on. -/
theorem noSleeper_fail :
    ¬ ∀ around p₀ p₁ p₂ p₃ kernel, bootKernel p₀ p₁ p₂ p₃ = .ok kernel →
      ∀ acts, Always (step around) NoSleeper ⟨kernel, Terminal.kbdinit⟩ acts := by
  intro h
  have hrun : reaches
      (run (step fun _ => 0) ⟨Kernel.started 10 11 12 13, Terminal.kbdinit⟩ (asleep ++ shiftEnter))
      (fun c => 10 ∈ c.term.content ∧ c.kernel.head .waitStdinList = 13) = true := by
    decide +kernel
  obtain ⟨c, hc, htest⟩ := exists_of_reaches hrun
  obtain ⟨hmem, hhead⟩ := of_decide_eq_true htest
  have hboot := Kernel.bootKernel_eq (by decide : [0, 10, 11, 12, 13].Nodup)
  have hzero := (((h (fun _ => 0) _ _ _ _ _ hboot (asleep ++ shiftEnter)).of_run hc) hmem).2
  rw [hhead] at hzero
  exact absurd hzero (by decide)

end Console

end PlumOs
