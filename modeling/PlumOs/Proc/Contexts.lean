import PlumOs.Lib.Interrupt
import PlumOs.Lib.Run
import PlumOs.Proc.ForkRegs

/-!
# Switching between tasks (`sys/switch_to.s`, `sys/process.c`)

`__switch_to` pushes the registers of `me` to its kernel stack, stores the stack pointer in its
`task_struct`, and takes the stack pointer and the registers of `next` from there.  `kernel_thread` and
`fork` leave a new task as if it had called `__switch_to` too.

* `kernelThreadStack` : what `kernel_thread` writes for `__switch_to`;
* `execStack`, `retToUser` : the end of `exec`, which leaves for the program from one kernel stack and
  gives the task another;
* `Saved` : a task that is not running has its registers on its kernel stack;
* `callSwitchTo_spec` : **one switch** saves the registers of one task and loads those of another;
* `Contexts` : the processor and the tasks, with `Contexts.step` for the work of the running task, new
  tasks, programs that `exec` starts, tasks that are freed and switches, in any order;
* `Contexts.Holds` : each task has a processor of its own, and `Holds.step` keeps that;
* `Contexts.switch_returns` : **a call of `__switch_to` returns** with the registers of the call, whatever
  the other tasks have done.
-/

namespace PlumOs

open X86

/-! ### New tasks -/

/-- The `task_struct` and the kernel stack of a task, a page each. -/
structure TaskPages where
  task : ℕ
  stack : ℕ
  deriving DecidableEq, Repr

/-- `kernel_thread`, as far as it writes what the code in assembly reads, and `pid`. -/
def kernelThreadStack (mem : ℕ → ℕ) (p : TaskPages) (func pidCount : ℕ) : ℕ → ℕ :=
  let mem := forkTaskMem mem p.task p.stack pidCount
  let ctx := p.stack + pgSize - 8 - 8 * contextInfo.length
  let mem := writeWord mem (p.stack + pgSize - 8) func
  let mem := writeWord mem (contextField ctx .rcx) (p.task + lastOff)
  let mem := writeWord mem (contextField ctx .rax) p.task
  writeWord mem (p.task + kernelStackOff) ctx

/-- The words of a `context_info` and the return address behind it. -/
def contextWords (regs : Reg → ℕ) (rflags rip : ℕ) : List ℕ :=
  regs .rcx :: regs .rax :: rflags :: (savedRegs.map regs ++ [rip])

/-- The kernel stack of a task that is not running; `cpu` is what `__switch_to` returns with. -/
structure Saved (mem : ℕ → ℕ) (p : TaskPages) (cpu : RegFile) : Prop where
  /-- The values of the registers have 64 bits. -/
  fits : (∀ r, cpu.regs r < 2 ^ 64) ∧ cpu.rflags < 2 ^ 64 ∧ cpu.rip < 2 ^ 64
  /-- The compiler keeps the address of `last` in `%rcx`. -/
  last : cpu.regs .rcx = p.task + lastOff
  /-- The seventeen words of the context are inside the stack page. -/
  room : p.stack + 136 ≤ cpu.regs .rsp ∧ cpu.regs .rsp ≤ p.stack + pgSize
  /-- The task has the address of the lowest word. -/
  kernelStack : readWord mem (p.task + kernelStackOff) = cpu.regs .rsp - 136
  /-- The words of the context, with the interrupt flag set. -/
  words : ∃ rflags, cpu.rflags = setIf rflags true ∧
    WordsAt mem (cpu.regs .rsp - 136) (contextWords cpu.regs rflags cpu.rip)

/-- The kernel stack of a task and the stack pointers in its `task_struct` are as they were. -/
structure TaskPages.Kept (p : TaskPages) (mem mem' : ℕ → ℕ) : Prop where
  stack : ∀ x, p.stack ≤ x → x < p.stack + pgSize → mem' x = mem x
  task : ∀ x, p.task + kernelStackOff ≤ x → x < p.task + userStackOff + 8 → mem' x = mem x

section Words

variable {mem mem' : ℕ → ℕ} {regs : Reg → ℕ} {k rflags rip x a func pidCount code sf cur : ℕ}
  {p : TaskPages} {cpu : RegFile}

theorem length_contextWords (regs : Reg → ℕ) (rflags rip : ℕ) : (contextWords regs rflags rip).length = 17 :=
  rfl

theorem wordsAt_contextWords : WordsAt mem k (contextWords regs rflags rip) ↔
    readWord mem k = regs .rcx ∧ readWord mem (k + 8) = regs .rax ∧ readWord mem (k + 16) = rflags ∧
      WordsAt mem (k + 24) (savedRegs.map regs) ∧ readWord mem (k + 128) = rip := by
  rw [contextWords, WordsAt, WordsAt, WordsAt, wordsAt_append]
  simp only [WordsAt, and_true, Nat.add_assoc]
  exact Iff.rfl

theorem Saved.kept (h : Saved mem p cpu) (hkept : p.Kept mem mem') : Saved mem' p cpu := by
  obtain ⟨rflags, hrflags, hwords⟩ := h.words
  obtain ⟨hlo, hhi⟩ := h.room
  refine ⟨h.fits, h.last, h.room, ?_, rflags, hrflags, hwords.congr fun x hx hx' => ?_⟩
  · rw [← h.kernelStack]
    exact readWord_congr fun x hx hx' => hkept.task x hx (by unfold kernelStackOff at *; unfold userStackOff; omega)
  · rw [length_contextWords] at hx'
    exact hkept.stack x (by omega) (by omega)

/-- The processor of a task that has not run yet: its stack is empty but for what is above `rsp`. -/
def newCpu (p : TaskPages) (r12 rsp rip : ℕ) : RegFile where
  regs r := match r with
    | .rcx => p.task + lastOff
    | .rax => p.task
    | .r12 => r12
    | .rsp => rsp
    | _ => 0
  rflags := setIf 0 true
  rip := rip

theorem newCpu_fits {r12 rsp rip : ℕ} (hp : p.task + pgSize < 2 ^ 64) (hr12 : r12 < 2 ^ 64)
    (hrsp : rsp < 2 ^ 64) (hrip : rip < 2 ^ 64) : (∀ r, (newCpu p r12 rsp rip).regs r < 2 ^ 64) ∧
      (newCpu p r12 rsp rip).rflags < 2 ^ 64 ∧ (newCpu p r12 rsp rip).rip < 2 ^ 64 := by
  refine ⟨fun r => ?_, setIf_lt (by decide) true, hrip⟩
  unfold newCpu pgSize lastOff at *
  cases r <;> dsimp only <;> omega

theorem savedRegs_newCpu (p : TaskPages) (r12 rsp rip : ℕ) :
    savedRegs.map (newCpu p r12 rsp rip).regs = savedRegs.map fun r => if r = .r12 then r12 else 0 := rfl

/-- A new thread starts at its function, with an empty stack. -/
theorem kernelThreadStack_saved (hp : Apart p.task pgSize p.stack pgSize) (htask : p.task + pgSize < 2 ^ 64)
    (hstack : p.stack + pgSize < 2 ^ 64) (hfunc : func < 2 ^ 64) :
    Saved (kernelThreadStack mem p func pidCount) p (newCpu p 0 (p.stack + pgSize) func) := by
  have hzero : ∀ a, p.stack ≤ a → a + 8 ≤ p.stack + 4096 →
      readWord (forkTaskMem mem p.task p.stack pidCount) a = 0 := fun a hlo hhi =>
    readWord_forkTaskMem hp ⟨hlo, hhi⟩
  obtain ⟨hrcx, hrax, -⟩ := contextField_eq (p.stack + 3960)
  have hctx : p.stack + pgSize - 8 - 8 * contextInfo.length = p.stack + 3960 := by
    rw [length_contextInfo]
    unfold pgSize
    omega
  have hrsp : p.stack + pgSize - 136 = p.stack + 3960 := by
    unfold pgSize
    omega
  have hend : p.stack + pgSize - 8 = p.stack + 4088 := by
    unfold pgSize
    omega
  unfold Apart at hp
  refine ⟨newCpu_fits htask (by decide) hstack hfunc, rfl, ⟨by show p.stack + 136 ≤ p.stack + pgSize; omega,
    le_rfl⟩, ?_, 0, rfl, ?_⟩
  · show _ = p.stack + pgSize - 136
    rw [kernelThreadStack, hctx, hrsp]
    exact readWord_writeWord (by unfold pgSize at hstack; omega)
  · show WordsAt _ (p.stack + pgSize - 136) _
    rw [hrsp, wordsAt_contextWords, kernelThreadStack, hctx, hend, hrcx, hrax, savedRegs_newCpu]
    unfold pgSize at *
    simp only [kernelStackOff, lastOff]
    refine ⟨?_, ?_, ?_, ?_, ?_⟩
    · simp (disch := omega) only [readWord_writeWord_of_out, readWord_writeWord]
      rfl
    · simp (disch := omega) only [readWord_writeWord_of_out, readWord_writeWord]
      rfl
    · simp (disch := omega) only [readWord_writeWord_of_out]
      exact hzero _ (by omega) (by omega)
    · rw [wordsAt_iff]
      intro i hi
      have hlen : i < 13 := hi
      have hnone : (savedRegs.map fun r => if r = Reg.r12 then 0 else 0) = List.replicate 13 0 := rfl
      rw [List.getElem_of_eq hnone, List.getElem_replicate]
      simp (disch := omega) only [readWord_writeWord_of_out]
      exact hzero _ (by omega) (by omega)
    · simp (disch := omega) only [readWord_writeWord_of_out, readWord_writeWord]
      rfl

theorem kernelThreadStack_of_out (ht : x < p.task ∨ p.task + pgSize ≤ x)
    (hk : x < p.stack ∨ p.stack + pgSize ≤ x) (hpid : x < pidCount ∨ pidCount + 4 ≤ x) :
    kernelThreadStack mem p func pidCount x = mem x := by
  have hctx : p.stack + pgSize - 8 - 8 * contextInfo.length = p.stack + 3960 := by
    rw [length_contextInfo]
    unfold pgSize
    omega
  obtain ⟨hrcx, hrax, -⟩ := contextField_eq (p.stack + 3960)
  rw [kernelThreadStack, hctx, hrcx, hrax]
  unfold pgSize at *
  simp (disch := omega) only [kernelStackOff, writeWord_of_out]
  exact forkTaskMem_of_out ht hk hpid

/-- The child of a `fork` starts at `ret_from_fork`, with the frame of its father on the stack. -/
theorem forkStack_saved {f : Reg → ℕ} (hwords : WordsAt mem sf (scFrame.map f)) (hf : ∀ r, f r < 2 ^ 64)
    (hsf : Apart sf (8 * scFrame.length) p.task pgSize ∧ Apart sf (8 * scFrame.length) p.stack pgSize ∧
      Apart sf (8 * scFrame.length) pidCount 4)
    (hp : Apart p.task pgSize p.stack pgSize) (htask : p.task + pgSize < 2 ^ 64)
    (hstack : p.stack + pgSize < 2 ^ 64) (hcode : code < 2 ^ 64) :
    Saved (forkStack mem cur p.task p.stack sf code pidCount) p
      (newCpu p p.task (nsfOf p.stack) code) := by
  have hlen : (scFrame.map f).length = scFrame.length := List.length_map _
  have hframe : WordsAt (forkTaskMem mem p.task p.stack pidCount) sf (scFrame.map f) :=
    hwords.congr fun x hlo hhi => by
      rw [hlen] at hhi
      unfold Apart pgSize at hsf
      exact forkTaskMem_of_out (by omega) (by omega) (by omega)
  have hctx : ContextAt (forkStack mem cur p.task p.stack sf code pidCount) p.task p.stack code f :=
    forkContext_spec (fun a hlo hhi => readWord_forkTaskMem hp ⟨hlo, hhi⟩) hframe hf hsf.2.1 hp hcode
      htask hstack
  obtain ⟨-, hret, hrcx, hrax, hrflags, hsaved, hkernel⟩ := hctx
  rw [retOf_eq] at hret
  rw [ctxOf_eq] at hrcx hrax hrflags hsaved hkernel
  have hrsp : (newCpu p p.task (nsfOf p.stack) code).regs .rsp = p.stack + 3992 := nsfOf_eq p.stack
  refine ⟨newCpu_fits htask (by unfold pgSize at htask; omega) ?_ hcode, rfl, ?_, ?_, 0, rfl, ?_⟩
  · rw [nsfOf_eq]
    unfold pgSize at hstack
    omega
  · rw [hrsp]
    unfold pgSize
    omega
  · rw [hrsp, hkernel]
    omega
  · have hbase : p.stack + 3992 - 136 = p.stack + 3856 := by omega
    rw [hrsp, hbase, wordsAt_contextWords, savedRegs_newCpu]
    exact ⟨hrcx, hrax, hrflags, hsaved, hret⟩

end Words

/-! ### The end of `exec` -/

/-- `exec`, from the new kernel stack on, as far as it writes what the code in assembly reads. -/
def execStack (mem : ℕ → ℕ) (cur stack : ℕ) : ℕ → ℕ :=
  writeWord (zeroPage mem stack) (cur + kernelStackOff) (stack + pgSize)

/-- `__ret_to_user`, with its arguments in `%rdi` and `%rsi`.  The segment registers are set through `%ax`. -/
def retToUser (s : State) (userStack entry : ℕ) : Machine :=
  let s := (s.setReg .rdi userStack).setReg .rsi entry
  let s := s.setReg .rax (s.regs .rax / 2 ^ 16 * 2 ^ 16 + 0x23)
  Machine.iretq ⟨exec ([0x23, userStack, s.rflags, 0x1b, entry].foldl State.push s) .sti, 8, 0⟩

section Exec

variable {s : State} {mem : ℕ → ℕ} {cur stack userStack entry x : ℕ}

theorem execStack_of_out (hs : x < stack ∨ stack + pgSize ≤ x)
    (hc : x < cur + kernelStackOff ∨ cur + kernelStackOff + 8 ≤ x) : execStack mem cur stack x = mem x := by
  rw [execStack, writeWord_of_out hc, zeroPage_of_out hs]

/-- **The program starts** at its entry, on its own stack, in the segments of a user.  Five words of the
old kernel stack are written. -/
theorem retToUser_spec (hfits : s.Fits) (hstack : userStack < 2 ^ 64) (hentry : entry < 2 ^ 64)
    (hlo : 40 ≤ s.regs .rsp) :
    (retToUser s userStack entry).Fits ∧ (retToUser s userStack entry).rip = entry ∧
      (retToUser s userStack entry).regs .rsp = userStack ∧
        (retToUser s userStack entry).words = [entry, 0x1b, s.rflags, userStack, 0x23] ∧
          ∀ x, x + 40 < s.regs .rsp ∨ s.regs .rsp ≤ x → (retToUser s userStack entry).mem x = s.mem x := by
  obtain ⟨s₁, hs₁⟩ : ∃ s₁, s₁ = ((s.setReg .rdi userStack).setReg .rsi entry).setReg .rax
      (((s.setReg .rdi userStack).setReg .rsi entry).regs .rax / 2 ^ 16 * 2 ^ 16 + 0x23) := ⟨_, rfl⟩
  have hrsp₁ : s₁.regs .rsp = s.regs .rsp := by rw [hs₁]; rfl
  have hflags₁ : s₁.rflags = s.rflags := by rw [hs₁]; rfl
  have hmem₁ : s₁.mem = s.mem := by rw [hs₁]; rfl
  have hregs₁ : ∀ r, s₁.regs r < 2 ^ 64 := by
    intro r
    have hr := hfits.regs r
    have hrax := hfits.regs .rax
    have hlow : ((s.setReg .rdi userStack).setReg .rsi entry).regs .rax = s.regs .rax := rfl
    rw [hs₁, hlow]
    simp only [State.setReg, Function.update_apply]
    split_ifs <;> omega
  have hwords : ∀ w ∈ [0x23, userStack, s₁.rflags, 0x1b, entry], w < 2 ^ 64 := by
    intro w hw
    simp only [List.mem_cons, List.not_mem_nil, or_false] at hw
    rcases hw with rfl | rfl | rfl | rfl | rfl
    · decide
    · exact hstack
    · exact hflags₁ ▸ hfits.rflags
    · decide
    · exact hentry
  have hgrown := grown_foldl_push (s := s₁) hwords (by rw [hrsp₁]; exact hlo) (hregs₁ .rsp)
  obtain ⟨g, hg⟩ : ∃ g, g = [0x23, userStack, s₁.rflags, 0x1b, entry].foldl State.push s₁ := ⟨_, rfl⟩
  rw [← hg] at hgrown
  have hrsp := hgrown.rsp
  have hhi := hregs₁ .rsp
  simp only [List.length_reverse, List.length_cons, List.length_nil] at hrsp
  -- what `iretq` goes back to
  obtain ⟨m, hm⟩ : ∃ m : Machine,
      m = ⟨⟨Function.update s₁.regs .rsp userStack, s₁.rflags, entry, g.mem⟩, 0x1b, 0x23⟩ := ⟨_, rfl⟩
  have hmwords : m.words = [entry, 0x1b, s₁.rflags, userStack, 0x23] := by
    rw [hm]
    simp only [Machine.words, Function.update_self]
  have hframe : WordsAt g.mem (g.regs .rsp) m.words := hmwords ▸ hgrown.words
  have hback : ∀ e : Machine, e.mem = g.mem → e.regs = g.regs → e.iretq = m := by
    intro e hmem hregs
    rw [← hmem, ← hregs] at hframe
    have hroom : e.regs .rsp + 40 ≤ 2 ^ 64 := by
      rw [hregs]
      omega
    have hother : ∀ q, q ≠ .rsp → e.regs q = m.regs q := by
      intro q hq
      rw [hregs, hgrown.regs q hq, hm]
      exact (Function.update_of_ne hq ..).symm
    rw [Machine.iretq_eq hframe hroom hother, hmem, hm]
  have hiret : retToUser s userStack entry = m := by
    rw [retToUser, ← hs₁, ← hg]
    exact hback _ rfl rfl
  have hseg : 0x1b < 2 ^ 64 ∧ 0x23 < 2 ^ 64 := by decide
  have hrspM : m.regs .rsp = userStack := by
    rw [hm]
    exact Function.update_self Reg.rsp userStack s₁.regs
  rw [hiret, hmwords, hflags₁, hrspM, hm]
  refine ⟨⟨⟨fun r => ?_, hflags₁ ▸ hfits.rflags, hentry⟩, hseg.1, hseg.2⟩, rfl, rfl, rfl, fun x hx => ?_⟩
  · simp only [Function.update_apply]
    split_ifs
    · exact hstack
    · exact hregs₁ r
  · rw [← hmem₁]
    exact hgrown.mem x (by omega)

end Exec

/-! ### One switch -/

/-- The call of `__switch_to` in `switch_to`, with its arguments in registers and the return address `ret`. -/
def callSwitchTo (s : State) (me next ret : ℕ) : State :=
  runBlock ((((s.setReg .rax me).setReg .rbx next).setReg .rcx (me + lastOff)).push ret) switchTo

/-- The registers at the call of `__switch_to`. -/
def switchRegs (s : State) (me next : ℕ) : Reg → ℕ :=
  Function.update (Function.update (Function.update s.regs .rax me) .rbx next) .rcx (me + lastOff)

/-- What `me` comes back with. -/
def leftCpu (s : State) (me next ret : ℕ) : RegFile := ⟨switchRegs s me next, setIf s.rflags true, ret⟩

section Switch

variable {s : State} {me next ret k rflags rip : ℕ} {regs : Reg → ℕ} {cpu : RegFile} {p q : TaskPages}

theorem switchRegs_rsp (s : State) (me next : ℕ) : switchRegs s me next .rsp = s.regs .rsp := rfl

theorem switchRegs_lt (h : ∀ r, s.regs r < 2 ^ 64) (hme : me + pgSize < 2 ^ 64) (hnext : next < 2 ^ 64)
    (r : Reg) : switchRegs s me next r < 2 ^ 64 := by
  have hr := h r
  unfold pgSize at hme
  unfold switchRegs lastOff
  simp only [Function.update_apply]
  split_ifs <;> omega

/-- The words that `saveContext` pushes, behind the return address. -/
theorem saveContext_eq (s : State) (ret : ℕ) :
    let g := (contextWords s.regs (setIf s.rflags false) ret).reverse.foldl State.push (exec s .cli)
    runBlock (s.push ret) saveContext =
      { g with mem := writeWord g.mem (above (s.regs .rax) 0x18) (g.regs .rsp) } := by
  have hcli : exec (s.push ret) .cli = (exec s .cli).push ret := by simp only [exec, State.push, State.setReg]
  obtain ⟨s₁, hs₁⟩ : ∃ s₁, s₁ = exec s .cli := ⟨_, rfl⟩
  have hregs : s₁.regs = s.regs := by rw [hs₁]; rfl
  have hflags : s₁.rflags = setIf s.rflags false := by rw [hs₁]; rfl
  have hsame : savedRegs.reverse.map (s₁.push ret).regs = savedRegs.reverse.map s.regs :=
    List.map_congr_left fun q hq =>
      (State.push_of_ne fun heq => absurd (heq ▸ hq) (by decide)).trans (congrFun hregs q)
  have hwords : (contextWords s.regs (setIf s.rflags false) ret).reverse =
      (ret :: savedRegs.reverse.map s.regs) ++ [setIf s.rflags false, s.regs .rax, s.regs .rcx] := rfl
  obtain ⟨s₂, hs₂⟩ : ∃ s₂, s₂ = (ret :: savedRegs.reverse.map s.regs).foldl State.push s₁ := ⟨_, rfl⟩
  have hother : ∀ q, q ≠ .rsp → s₂.regs q = s.regs q := fun q hq => by
    rw [hs₂, foldl_push_of_ne _ _ hq, hregs]
  have hflags₂ : s₂.rflags = setIf s.rflags false := by rw [hs₂, foldl_push_rflags, hflags]
  have hpushes : runBlock (s₁.push ret) (savedRegs.reverse.map .push) = s₂ := by
    rw [runBlock_pushes_eq _ (by decide), hsame, hs₂, List.foldl_cons]
  have hrax : (s₂.push s₂.rflags).regs .rax = s.regs .rax :=
    (State.push_of_ne (by decide)).trans (hother .rax (by decide))
  have hrcx : ((s₂.push s₂.rflags).push (s.regs .rax)).regs .rcx = s.regs .rcx :=
    (State.push_of_ne (by decide)).trans ((State.push_of_ne (by decide)).trans (hother .rcx (by decide)))
  have hrax' : (((s₂.push s₂.rflags).push (s.regs .rax)).push (s.regs .rcx)).regs .rax = s.regs .rax :=
    (State.push_of_ne (by decide)).trans ((State.push_of_ne (by decide)).trans hrax)
  rw [← hs₁, hwords, List.foldl_append, ← hs₂, ← hflags₂, List.foldl_cons, List.foldl_cons, List.foldl_cons,
    List.foldl_nil, saveContext, List.cons_append, runBlock_cons, hcli, ← hs₁, runBlock_append, hpushes]
  simp only [runBlock_cons, runBlock_nil, exec, hrax, hrcx, hrax']

/-- **The registers are pushed**, in front of the return address, and the stack pointer is stored. -/
theorem saveContext_grown (hfits : s.Fits) (hret : ret < 2 ^ 64) (hlo : 136 ≤ s.regs .rsp)
    (hme : s.regs .rax + pgSize < 2 ^ 64) :
    ∃ g : State, Grown s g (contextWords s.regs (setIf s.rflags false) ret) ∧
      runBlock (s.push ret) saveContext =
        { g with mem := writeWord g.mem (s.regs .rax + 0x18) (s.regs .rsp - 136) } := by
  have hgrown : Grown (exec s .cli)
      ((contextWords s.regs (setIf s.rflags false) ret).reverse.foldl State.push (exec s .cli))
      (contextWords s.regs (setIf s.rflags false) ret) := by
    have hlen : (contextWords s.regs (setIf s.rflags false) ret).reverse.length = 17 := rfl
    have hall : ∀ w ∈ (contextWords s.regs (setIf s.rflags false) ret).reverse, w < 2 ^ 64 := by
      intro w hw
      rw [List.mem_reverse, contextWords] at hw
      simp only [List.mem_cons, List.mem_append, List.mem_map, List.not_mem_nil, or_false] at hw
      rcases hw with rfl | rfl | rfl | ⟨r, -, rfl⟩ | rfl
      · exact hfits.regs .rcx
      · exact hfits.regs .rax
      · exact setIf_lt hfits.rflags false
      · exact hfits.regs r
      · exact hret
    have hpush := grown_foldl_push (s := exec s .cli) hall (by rw [hlen]; exact hlo) (hfits.regs .rsp)
    rwa [List.reverse_reverse] at hpush
  refine ⟨_, ⟨hgrown.rsp, hgrown.regs, hgrown.words, hgrown.mem⟩, ?_⟩
  have hrsp := hgrown.rsp
  rw [length_contextWords] at hrsp
  have hcli : (exec s .cli).regs = s.regs := rfl
  rw [hcli] at hrsp
  have hstored : ((contextWords s.regs (setIf s.rflags false) ret).reverse.foldl State.push
      (exec s .cli)).regs .rsp = s.regs .rsp - 136 := by omega
  have hoff : above (s.regs .rax) 0x18 = s.regs .rax + 0x18 := above_eq (by unfold pgSize at hme; omega)
  rw [saveContext_eq, hstored, hoff]

/-- What `__switch_to` pops first. -/
theorem loadResults_saved (hsaved : Saved s.mem q cpu) (hrbx : s.regs .rbx = q.task)
    (hpages : Apart q.task pgSize q.stack pgSize) (htask : q.task + pgSize < 2 ^ 64)
    (hstack : q.stack + pgSize < 2 ^ 64) :
    ∃ t, runBlock s loadResults = t ∧ t.mem = writeWord s.mem (q.task + lastOff) (s.regs .rax) ∧
      t.regs .rsp = cpu.regs .rsp - 136 + 24 ∧ t.regs .rax = cpu.regs .rax ∧
        t.regs .rcx = cpu.regs .rcx ∧ setIf t.rflags true = cpu.rflags := by
  obtain ⟨rflags, hrflags, hwords⟩ := hsaved.words
  obtain ⟨hrcx, hrax, hfl, -, -⟩ := wordsAt_contextWords.1 hwords
  obtain ⟨hlo, hhi⟩ := hsaved.room
  have hkernel := hsaved.kernelStack
  have hlast := hsaved.last
  unfold Apart pgSize at *
  rw [kernelStackOff] at hkernel
  obtain ⟨k, hk⟩ : ∃ k, k = cpu.regs .rsp - 136 := ⟨_, rfl⟩
  rw [← hk] at hkernel hrcx hrax hfl ⊢
  rw [hlast] at hrcx
  rw [lastOff] at hrcx hlast ⊢
  have hoff : above q.task 0x18 = q.task + 0x18 := above_eq (by omega)
  have hoff' : above (q.task + 0x10) 0 = q.task + 0x10 := above_eq (by omega)
  have h₁ : above k 8 = k + 8 := above_eq (by omega)
  have h₂ : above (k + 8) 8 = k + 16 := above_eq (by omega)
  have h₃ : above (k + 16) 8 = k + 24 := above_eq (by omega)
  have hrax' : readWord (writeWord s.mem (q.task + 0x10) (s.regs .rax)) (k + 8) = cpu.regs .rax := by
    rw [readWord_writeWord_of_out (by omega)]
    exact hrax
  have hfl' : readWord (writeWord s.mem (q.task + 0x10) (s.regs .rax)) (k + 16) = rflags := by
    rw [readWord_writeWord_of_out (by omega)]
    exact hfl
  refine ⟨_, rfl, ?_⟩
  simp only [loadResults, runBlock_cons, runBlock_nil, exec, State.drop, State.top, State.setReg, hrbx,
    hoff, hkernel, Function.update_self, Function.update_of_ne (show Reg.rsp ≠ Reg.rcx by decide),
    Function.update_of_ne (show Reg.rsp ≠ Reg.rax by decide),
    Function.update_of_ne (show Reg.rax ≠ Reg.rcx by decide),
    Function.update_of_ne (show Reg.rcx ≠ Reg.rax by decide),
    Function.update_of_ne (show Reg.rcx ≠ Reg.rsp by decide),
    Function.update_of_ne (show Reg.rax ≠ Reg.rsp by decide), h₁, h₂, h₃, hrcx, hoff', hrax', hfl', hlast,
    true_and]
  exact hrflags.symm

/-- **The registers are loaded** from the stack of `next`. -/
theorem loadContext_saved (hsaved : Saved s.mem q cpu) (hrbx : s.regs .rbx = q.task)
    (hpages : Apart q.task pgSize q.stack pgSize) (htask : q.task + pgSize < 2 ^ 64)
    (hstack : q.stack + pgSize < 2 ^ 64) :
    (runBlock s (loadContext ++ [.sti, .ret])).cpu = cpu ∧
      (runBlock s (loadContext ++ [.sti, .ret])).mem =
        writeWord s.mem (q.task + lastOff) (s.regs .rax) := by
  obtain ⟨t, ht, hmem, hrsp, hrax, hrcx, hflags⟩ := loadResults_saved hsaved hrbx hpages htask hstack
  obtain ⟨rflags, -, hwords⟩ := hsaved.words
  obtain ⟨-, -, -, hregs, hrip⟩ := wordsAt_contextWords.1 hwords
  obtain ⟨hlo, hhi⟩ := hsaved.room
  have hlen : savedRegs.length = 13 := rfl
  unfold Apart pgSize at *
  have hframe : WordsAt t.mem (t.regs .rsp) (savedRegs.map cpu.regs) := by
    rw [hmem, hrsp]
    refine hregs.congr fun x hx hx' => writeWord_of_out ?_
    rw [List.length_map, hlen] at hx'
    unfold lastOff
    omega
  have hp := runBlock_pops hframe (by decide) (by rw [hrsp, hlen]; omega)
  have hflags' := runBlock_pops_rflags t savedRegs
  obtain ⟨u, hu⟩ : ∃ u, u = runBlock t (savedRegs.map .pop) := ⟨_, rfl⟩
  rw [← hu] at hp hflags'
  have hrspU : u.regs .rsp = cpu.regs .rsp - 8 := by
    rw [hp.rsp, hrsp, hlen]
    omega
  have hret : readWord u.mem (cpu.regs .rsp - 8) = cpu.rip := by
    have hat : cpu.regs .rsp - 136 + 128 = cpu.regs .rsp - 8 := by omega
    rw [hp.mem, hmem, readWord_writeWord_of_out (by unfold lastOff; omega), ← hat]
    exact hrip
  have hrun : runBlock s (loadContext ++ [.sti, .ret]) = exec (exec u .sti) .ret := by
    rw [loadContext, List.append_assoc, runBlock_append, runBlock_append, ht, ← hu]
    rfl
  have hdrop : above (u.regs .rsp) 8 = cpu.regs .rsp := by
    rw [hrspU, above_eq (by omega)]
    omega
  have hback : Function.update u.regs .rsp (cpu.regs .rsp) = cpu.regs := by
    have hcases : ∀ r : Reg, r = .rsp ∨ r = .rax ∨ r = .rcx ∨ r ∈ savedRegs := by
      intro r
      cases r <;> decide
    funext r
    rcases hcases r with rfl | rfl | rfl | hr
    · rw [Function.update_self]
    · rw [Function.update_of_ne (by decide), hp.other .rax (by decide) (by decide), hrax]
    · rw [Function.update_of_ne (by decide), hp.other .rcx (by decide) (by decide), hrcx]
    · rw [Function.update_of_ne fun heq => absurd (heq ▸ hr) (by decide), hp.regs r hr]
  rw [hrun]
  constructor
  · have hcpu : (exec (exec u .sti) .ret).cpu =
        ⟨Function.update u.regs .rsp (above (u.regs .rsp) 8), setIf u.rflags true,
          readWord u.mem (u.regs .rsp)⟩ := rfl
    rw [hcpu, hdrop, hback, hflags', hflags, hrspU, hret]
  · rw [← hmem, ← hp.mem]
    rfl

/-- What one switch does: `me` is saved, the processor of `next` is loaded, and `last` of `next` is `me`. -/
structure Switched (s s' : State) (me next : TaskPages) (ret : ℕ) (cpu : RegFile) : Prop where
  cpu : s'.cpu = cpu
  last : readWord s'.mem (next.task + lastOff) = me.task
  saved : Saved s'.mem me (leftCpu s me.task next.task ret)
  mem : ∀ x, x + 136 < s.regs .rsp ∨ s.regs .rsp ≤ x →
    x < me.task + kernelStackOff ∨ me.task + userStackOff ≤ x →
      x < next.task + lastOff ∨ next.task + kernelStackOff ≤ x → s'.mem x = s.mem x

/-- The pages of two tasks have nothing in common. -/
structure TaskPages.Disjoint (p q : TaskPages) : Prop where
  tasks : Apart p.task pgSize q.task pgSize
  taskStack : Apart p.task pgSize q.stack pgSize
  stackTask : Apart p.stack pgSize q.task pgSize
  stackStack : Apart p.stack pgSize q.stack pgSize

instance decidableTaskDisjoint (p q : TaskPages) : Decidable (p.Disjoint q) :=
  decidable_of_iff (Apart p.task pgSize q.task pgSize ∧ Apart p.task pgSize q.stack pgSize ∧
    Apart p.stack pgSize q.task pgSize ∧ Apart p.stack pgSize q.stack pgSize)
    ⟨fun h => ⟨h.1, h.2.1, h.2.2.1, h.2.2.2⟩, fun h => ⟨h.1, h.2, h.3, h.4⟩⟩

theorem TaskPages.Disjoint.symm (h : p.Disjoint q) : q.Disjoint p := by
  obtain ⟨h₁, h₂, h₃, h₄⟩ := h
  unfold Apart at h₁ h₂ h₃ h₄
  exact ⟨h₁.symm, h₃.symm, h₂.symm, h₄.symm⟩

theorem TaskPages.Disjoint.ne (h : p.Disjoint q) : p.task ≠ q.task := by
  obtain ⟨htt, -, -, -⟩ := h
  unfold Apart pgSize at htt
  omega

/-- The pages of a task are two pages. -/
def TaskPages.Own (p : TaskPages) : Prop :=
  Apart p.task pgSize p.stack pgSize ∧ p.task + pgSize < 2 ^ 64 ∧ p.stack + pgSize < 2 ^ 64

instance decidableTaskOwn (p : TaskPages) : Decidable p.Own := inferInstanceAs (Decidable (_ ∧ _ ∧ _))

/-- **One switch.** -/
theorem callSwitchTo_spec (hfits : s.Fits) (hret : ret < 2 ^ 64)
    (hroom : p.stack + 136 ≤ s.regs .rsp ∧ s.regs .rsp ≤ p.stack + pgSize) (hp : p.Own) (hq : q.Own)
    (hpq : p.Disjoint q) (hsaved : Saved s.mem q cpu) :
    Switched s (callSwitchTo s p.task q.task ret) p q ret cpu := by
  obtain ⟨hlo, hhi⟩ := hroom
  obtain ⟨hpOwn, hpTask, hpStack⟩ := hp
  obtain ⟨hqOwn, hqTask, hqStack⟩ := hq
  obtain ⟨htt, hts, hst, hss⟩ := hpq
  obtain ⟨s₁, hs₁⟩ : ∃ s₁, s₁ = ((s.setReg .rax p.task).setReg .rbx q.task).setReg .rcx (p.task + lastOff) :=
    ⟨_, rfl⟩
  have hregs₁ : s₁.regs = switchRegs s p.task q.task := by rw [hs₁]; rfl
  have hflags₁ : s₁.rflags = s.rflags := by rw [hs₁]; rfl
  have hmem₁ : s₁.mem = s.mem := by rw [hs₁]; rfl
  have hrsp₁ : s₁.regs .rsp = s.regs .rsp := by rw [hregs₁, switchRegs_rsp]
  have hrax₁ : s₁.regs .rax = p.task := by rw [hregs₁]; rfl
  have hrbx₁ : s₁.regs .rbx = q.task := by rw [hregs₁]; rfl
  have hlt : ∀ r, s₁.regs r < 2 ^ 64 := fun r => by
    rw [hregs₁]
    exact switchRegs_lt hfits.regs hpTask (by omega) r
  have hfits₁ : s₁.Fits := ⟨hlt, hflags₁ ▸ hfits.rflags, by rw [hs₁]; exact hfits.rip⟩
  obtain ⟨g, hg, hrun⟩ := saveContext_grown hfits₁ hret (by omega) (by rw [hrax₁]; exact hpTask)
  have hgrsp := hg.rsp
  rw [length_contextWords, hrsp₁] at hgrsp
  have hgwords := hg.words
  have hgmem := hg.mem
  rw [hrsp₁, hmem₁] at hgmem
  rw [hregs₁, hflags₁] at hgwords
  have hgrbx : g.regs .rbx = q.task := (hg.regs .rbx (by decide)).trans hrbx₁
  have hgrax : g.regs .rax = p.task := (hg.regs .rax (by decide)).trans hrax₁
  rw [hrax₁, hrsp₁] at hrun
  obtain ⟨u, hu⟩ : ∃ u : State, u = { g with mem := writeWord g.mem (p.task + 0x18) (s.regs .rsp - 136) } :=
    ⟨_, rfl⟩
  have humem : u.mem = writeWord g.mem (p.task + 0x18) (s.regs .rsp - 136) := by rw [hu]
  have hurbx : u.regs .rbx = q.task := by rw [hu]; exact hgrbx
  have hurax : u.regs .rax = p.task := by rw [hu]; exact hgrax
  rw [← hu] at hrun
  have hswitch : callSwitchTo s p.task q.task ret = runBlock u (loadContext ++ [.sti, .ret]) := by
    rw [callSwitchTo, ← hs₁, switchTo_eq, runBlock_append, hrun]
  unfold Apart pgSize at *
  -- the stack of `next` is as it was
  have hkept : q.Kept s.mem u.mem := by
    refine ⟨fun x hx hx' => ?_, fun x hx hx' => ?_⟩
    · unfold pgSize at hx'
      rw [humem, writeWord_of_out (by omega), hgmem x (by omega)]
    · unfold kernelStackOff userStackOff at *
      rw [humem, writeWord_of_out (by omega), hgmem x (by omega)]
  obtain ⟨hcpu, hmem⟩ := loadContext_saved (hsaved.kept hkept) hurbx hqOwn hqTask hqStack
  rw [← hswitch] at hcpu hmem
  rw [hurax] at hmem
  refine ⟨hcpu, ?_, ⟨⟨?_, setIf_lt hfits.rflags true, hret⟩, rfl, ⟨?_, ?_⟩, ?_, setIf s.rflags false, ?_, ?_⟩,
    fun x hx hxme hxnext => ?_⟩
  · rw [hmem]
    exact readWord_writeWord (by omega)
  · intro r
    rw [leftCpu, ← hregs₁]
    exact hlt r
  · exact hlo
  · exact hhi
  · show _ = s.regs .rsp - 136
    unfold kernelStackOff lastOff at *
    rw [hmem, readWord_writeWord_of_out (by omega), humem]
    exact readWord_writeWord (by omega)
  · rw [leftCpu, setIf_setIf]
  · show WordsAt _ (s.regs .rsp - 136) (contextWords (switchRegs s p.task q.task) (setIf s.rflags false) ret)
    have hat : s.regs .rsp - 136 = g.regs .rsp := by omega
    rw [hat]
    refine hgwords.congr fun x hx hx' => ?_
    rw [length_contextWords] at hx'
    unfold lastOff at *
    rw [hmem, writeWord_of_out (by omega), humem, writeWord_of_out (by omega)]
  · unfold kernelStackOff userStackOff lastOff at *
    rw [hmem, writeWord_of_out (by omega), humem, writeWord_of_out (by omega), hgmem x (by omega)]

/-- The other tasks are left alone. -/
theorem Switched.kept {s' : State} {r : TaskPages} (h : Switched s s' p q ret cpu)
    (hroom : p.stack + 136 ≤ s.regs .rsp ∧ s.regs .rsp ≤ p.stack + pgSize) (hp : r.Disjoint p)
    (hq : r.Disjoint q) : r.Kept s.mem s'.mem := by
  obtain ⟨hlo, hhi⟩ := hroom
  obtain ⟨htt, hts, hst, hss⟩ := hp
  obtain ⟨htt', -, hst', -⟩ := hq
  have hmem := h.mem
  unfold Apart kernelStackOff userStackOff lastOff pgSize at *
  refine ⟨fun x hx hx' => ?_, fun x hx hx' => ?_⟩
  · unfold pgSize at hx'
    exact hmem x (by omega) (by omega) (by omega)
  · unfold kernelStackOff at hx
    unfold userStackOff at hx'
    exact hmem x (by omega) (by omega) (by omega)

end Switch

/-! ### The tasks -/

/-- The processor and the tasks; `current` is the `task_struct` of the running one. -/
structure Contexts where
  /-- The registers and the memory. -/
  machine : State
  /-- The address of the `task_struct` of the task that runs. -/
  current : ℕ
  /-- The pages of the tasks. -/
  tasks : List TaskPages

/-- What happens to the processor and the tasks. -/
inductive ContextAct where
  /-- The code of the running task comes to a state. -/
  | work (s : State)
  | kernelThread (p : TaskPages) (func pidCount : ℕ)
  | fork (p : TaskPages) (sf code pidCount : ℕ)
  /-- `exec` is at its end: the task gets a new kernel stack, and the program starts. -/
  | exec (stack userStack entry : ℕ)
  | freeProcess (task : ℕ)
  /-- The running task calls `__switch_to`, from where `ret` is the next instruction. -/
  | switchTo (next ret : ℕ)

namespace Contexts

/-- The pages of a task when the running one has a new kernel stack. -/
def moved (c : Contexts) (stack : ℕ) (p : TaskPages) : TaskPages :=
  if p.task = c.current then { p with stack := stack } else p

/-- The processor and the tasks after an act. -/
def after (c : Contexts) : ContextAct → Contexts
  | .work s => { c with machine := s }
  | .kernelThread p func pidCount =>
    { c with
      machine := { c.machine with mem := kernelThreadStack c.machine.mem p func pidCount }
      tasks := p :: c.tasks }
  | .fork p sf code pidCount =>
    { c with
      machine :=
        { c.machine with mem := forkStack c.machine.mem c.current p.task p.stack sf code pidCount }
      tasks := p :: c.tasks }
  | .exec stack userStack entry =>
    { c with
      machine := (retToUser { c.machine with mem := execStack c.machine.mem c.current stack } userStack entry).toState
      tasks := c.tasks.map (c.moved stack) }
  | .freeProcess task => { c with tasks := c.tasks.filter (·.task ≠ task) }
  | .switchTo next ret =>
    { c with machine := callSwitchTo c.machine c.current next ret, current := next }

def step (c : Contexts) (a : ContextAct) : Except Empty Contexts := .ok (c.after a)

/-- The pages of a new task come from `get_zero_page`, and `pid_count` is in none of these pages. -/
structure Fresh (c : Contexts) (p : TaskPages) (pidCount : ℕ) : Prop where
  /-- The page of the task and its stack page are two pages. -/
  own : p.Own
  /-- The two pages are apart from those of every other task. -/
  disjoint : ∀ q ∈ c.tasks, q.Disjoint p
  /-- `pid_count` is in none of these pages. -/
  pid : ∀ q ∈ p :: c.tasks, Apart pidCount 4 q.task pgSize ∧ Apart pidCount 4 q.stack pgSize

instance (c : Contexts) (p : TaskPages) (pidCount : ℕ) : Decidable (c.Fresh p pidCount) :=
  decidable_of_iff (p.Own ∧ (∀ q ∈ c.tasks, q.Disjoint p) ∧
    ∀ q ∈ p :: c.tasks, Apart pidCount 4 q.task pgSize ∧ Apart pidCount 4 q.stack pgSize)
    ⟨fun h => ⟨h.1, h.2.1, h.2.2⟩, fun h => ⟨h.own, h.disjoint, h.pid⟩⟩

/-- The new page of a kernel stack comes from `get_zero_page`. -/
structure FreshStack (c : Contexts) (stack : ℕ) : Prop where
  endLt : stack + pgSize < 2 ^ 64
  apart : ∀ q ∈ c.tasks, Apart stack pgSize q.task pgSize ∧ Apart stack pgSize q.stack pgSize

instance (c : Contexts) (stack : ℕ) : Decidable (c.FreshStack stack) :=
  decidable_of_iff (stack + pgSize < 2 ^ 64 ∧
    ∀ q ∈ c.tasks, Apart stack pgSize q.task pgSize ∧ Apart stack pgSize q.stack pgSize)
    ⟨fun h => ⟨h.1, h.2⟩, fun h => ⟨h.endLt, h.apart⟩⟩

/-- The running task has room for some bytes on its kernel stack, and its stack pointer is there. -/
def Room (c : Contexts) (n : ℕ) : Prop :=
  ∀ p ∈ c.tasks, p.task = c.current → p.stack + n ≤ c.machine.regs .rsp ∧ c.machine.regs .rsp ≤ p.stack + pgSize

instance (c : Contexts) (n : ℕ) : Decidable (c.Room n) := inferInstanceAs (Decidable (∀ _ ∈ _, _))

/-- What the code of the kernel sees to. -/
def Allowed (c : Contexts) : ContextAct → Prop
  | .work s => s.Fits ∧ ∀ p ∈ c.tasks, p.task ≠ c.current → p.Kept c.machine.mem s.mem
  | .kernelThread p func pidCount => c.Fresh p pidCount ∧ func < 2 ^ 64
  | .fork p sf code pidCount =>
    c.Fresh p pidCount ∧ code < 2 ^ 64 ∧ (∃ f, (∀ r, f r < 2 ^ 64) ∧ WordsAt c.machine.mem sf (scFrame.map f)) ∧
      Apart sf (8 * scFrame.length) p.task pgSize ∧ Apart sf (8 * scFrame.length) p.stack pgSize ∧
        Apart sf (8 * scFrame.length) pidCount 4
  | .exec stack userStack entry => c.FreshStack stack ∧ userStack < 2 ^ 64 ∧ entry < 2 ^ 64 ∧ c.Room 40
  | .freeProcess task => task ≠ c.current
  | .switchTo next ret => next ≠ c.current ∧ (∃ q ∈ c.tasks, q.task = next) ∧ ret < 2 ^ 64 ∧ c.Room 136

instance (c : Contexts) (p : TaskPages) (func pidCount : ℕ) :
    Decidable (c.Allowed (.kernelThread p func pidCount)) := inferInstanceAs (Decidable (_ ∧ _))

instance (c : Contexts) (stack userStack entry : ℕ) : Decidable (c.Allowed (.exec stack userStack entry)) :=
  inferInstanceAs (Decidable (_ ∧ _ ∧ _ ∧ _))

instance (c : Contexts) (next ret : ℕ) : Decidable (c.Allowed (.switchTo next ret)) :=
  inferInstanceAs (Decidable (_ ∧ _ ∧ _ ∧ _))

/-- The tasks have pages of their own. -/
structure Placed (tasks : List TaskPages) : Prop where
  own : ∀ p ∈ tasks, p.Own
  disjoint : ∀ p ∈ tasks, ∀ q ∈ tasks, p ≠ q → p.Disjoint q

/-- **Each task has a processor of its own.**  That of the running task is the processor, and those of the
others are on their stacks. -/
structure Holds (c : Contexts) (cpus : ℕ → RegFile) : Prop where
  placed : Placed c.tasks
  current : ∃ p ∈ c.tasks, p.task = c.current
  fits : c.machine.Fits
  running : cpus c.current = c.machine.cpu
  saved : ∀ p ∈ c.tasks, p.task ≠ c.current → Saved c.machine.mem p (cpus p.task)

/-- The processors of the tasks after a step: only that of the task it is about changes. -/
def cpusAfter (c : Contexts) (cpus : ℕ → RegFile) : ContextAct → ℕ → RegFile
  | .work s => Function.update cpus c.current s.cpu
  | .kernelThread p func _ => Function.update cpus p.task (newCpu p 0 (p.stack + pgSize) func)
  | .fork p _ code _ => Function.update cpus p.task (newCpu p p.task (nsfOf p.stack) code)
  | .exec stack userStack entry =>
    Function.update cpus c.current (c.after (.exec stack userStack entry)).machine.cpu
  | .freeProcess _ => cpus
  | .switchTo next ret => Function.update cpus c.current (leftCpu c.machine c.current next ret)

section Step

variable {c c' : Contexts} {cpus : ℕ → RegFile} {a : ContextAct} {p q r : TaskPages} {tasks : List TaskPages}
  {mem : ℕ → ℕ} {cpu : RegFile} {x pidCount : ℕ}

theorem Placed.eq_of_task (h : Placed tasks) (hp : p ∈ tasks) (hq : q ∈ tasks) (heq : p.task = q.task) :
    p = q := by
  by_contra hne
  exact (h.disjoint p hp q hq hne).ne heq

theorem Placed.cons (h : Placed tasks) (hown : p.Own) (hdisjoint : ∀ q ∈ tasks, q.Disjoint p) :
    Placed (p :: tasks) := by
  refine ⟨List.forall_mem_cons.2 ⟨hown, h.own⟩, fun q hq r hr hne => ?_⟩
  rcases List.mem_cons.1 hq with rfl | hq'
  · exact (hdisjoint r ((List.mem_cons.1 hr).resolve_left (Ne.symm hne))).symm
  · rcases List.mem_cons.1 hr with rfl | hr'
    · exact hdisjoint q hq'
    · exact h.disjoint q hq' r hr' hne

theorem Placed.filter (h : Placed tasks) (f : TaskPages → Bool) : Placed (tasks.filter f) :=
  ⟨fun p hp => h.own p (List.mem_of_mem_filter hp), fun p hp q hq =>
    h.disjoint p (List.mem_of_mem_filter hp) q (List.mem_of_mem_filter hq)⟩

theorem Placed.tail (h : Placed (p :: tasks)) : Placed tasks :=
  ⟨fun q hq => h.own q (List.mem_cons_of_mem p hq), fun q hq r hr =>
    h.disjoint q (List.mem_cons_of_mem p hq) r (List.mem_cons_of_mem p hr)⟩

/-- What is written for a new task is in its own pages. -/
theorem Fresh.kept (h : c.Fresh p pidCount) (hq : q ∈ c.tasks)
    (hmem : ∀ x, (x < p.task ∨ p.task + pgSize ≤ x) → (x < p.stack ∨ p.stack + pgSize ≤ x) →
      (x < pidCount ∨ pidCount + 4 ≤ x) → mem x = c.machine.mem x) : q.Kept c.machine.mem mem := by
  obtain ⟨hpidTask, hpidStack⟩ := h.pid q (List.mem_cons_of_mem p hq)
  obtain ⟨htt, hts, hst, hss⟩ := h.disjoint q hq
  unfold Apart at hpidTask hpidStack htt hts hst hss
  refine ⟨fun x hx hx' => hmem x (by omega) (by omega) (by omega), fun x hx hx' => ?_⟩
  unfold kernelStackOff userStackOff pgSize at *
  exact hmem x (by omega) (by omega) (by omega)

/-- The tasks after an `exec` : the running one on its new stack, and the others. -/
theorem mem_moved {stack : ℕ} (hr : r ∈ c.tasks.map (c.moved stack)) :
    (∃ p ∈ c.tasks, p.task = c.current ∧ r = { p with stack := stack }) ∨ r ∈ c.tasks ∧ r.task ≠ c.current := by
  obtain ⟨p, hp, rfl⟩ := List.mem_map.1 hr
  by_cases hcur : p.task = c.current
  · exact .inl ⟨p, hp, hcur, if_pos hcur⟩
  · rw [moved, if_neg hcur]
    exact .inr ⟨hp, hcur⟩

theorem mem_map_moved {stack : ℕ} (hr : r ∈ c.tasks) (hne : r.task ≠ c.current) :
    r ∈ c.tasks.map (c.moved stack) := List.mem_map.2 ⟨r, hr, if_neg hne⟩

/-- The running task on a new stack. -/
theorem Placed.moved {stack : ℕ} (h : Placed c.tasks) (hfresh : c.FreshStack stack) :
    Placed (c.tasks.map (c.moved stack)) := by
  have hown : ∀ p ∈ c.tasks, ({ p with stack := stack } : TaskPages).Own := fun p hp =>
    ⟨(hfresh.apart p hp).1.symm, (h.own p hp).2.1, hfresh.endLt⟩
  have hdisjoint : ∀ p ∈ c.tasks, ∀ q ∈ c.tasks, p ≠ q → ({ p with stack := stack } : TaskPages).Disjoint q := by
    intro p hp q hq hne
    obtain ⟨htt, hts, -, -⟩ := h.disjoint p hp q hq hne
    obtain ⟨hst, hss⟩ := hfresh.apart q hq
    exact ⟨htt, hts, hst, hss⟩
  refine ⟨fun q hq => ?_, fun q hq r hr hne => ?_⟩
  · rcases mem_moved hq with ⟨p, hp, -, rfl⟩ | ⟨hq, -⟩
    · exact hown p hp
    · exact h.own q hq
  · rcases mem_moved hq with ⟨p, hp, hpcur, rfl⟩ | ⟨hq, hqcur⟩ <;>
      rcases mem_moved hr with ⟨p', hp', hpcur', rfl⟩ | ⟨hr, hrcur⟩
    · obtain rfl := h.eq_of_task hp hp' (hpcur.trans hpcur'.symm)
      exact absurd rfl hne
    · exact hdisjoint p hp r hr fun heq => hrcur (heq ▸ hpcur)
    · exact (hdisjoint p' hp' q hq fun heq => hqcur (heq ▸ hpcur')).symm
    · exact h.disjoint q hq r hr hne

/-- What the end of `exec` does here: it writes to the new stack, the old one and `kernel_stack`. -/
theorem Holds.execed (h : c.Holds cpus) {stack userStack entry : ℕ} (ha : c.Allowed (.exec stack userStack entry)) :
    (c.after (.exec stack userStack entry)).machine.Fits ∧ ∃ p ∈ c.tasks, p.task = c.current ∧
      ∀ x, (x < stack ∨ stack + pgSize ≤ x) → (x < p.task + kernelStackOff ∨ p.task + userStackOff ≤ x) →
        (x < p.stack ∨ p.stack + pgSize ≤ x) →
          (c.after (.exec stack userStack entry)).machine.mem x = c.machine.mem x := by
  obtain ⟨-, huser, hentry, hroom⟩ := ha
  obtain ⟨p, hp, hcur⟩ := h.current
  obtain ⟨hlo, hhi⟩ := hroom p hp hcur
  obtain ⟨s, hs⟩ : ∃ s : State, s = { c.machine with mem := execStack c.machine.mem c.current stack } := ⟨_, rfl⟩
  have hfits : s.Fits := by
    rw [hs]
    exact ⟨h.fits.regs, h.fits.rflags, h.fits.rip⟩
  have hrsp : s.regs .rsp = c.machine.regs .rsp := by rw [hs]
  have hmem : s.mem = execStack c.machine.mem c.current stack := by rw [hs]
  obtain ⟨hnew, -, -, -, hkept⟩ := retToUser_spec hfits huser hentry (by omega)
  have hafter : (c.after (.exec stack userStack entry)).machine = (retToUser s userStack entry).toState := by
    rw [hs]
    rfl
  rw [hafter]
  refine ⟨hnew.toFits, p, hp, hcur, fun x hx hxtask hxstack => ?_⟩
  rw [hkept x (by omega), hmem]
  rw [hcur] at hxtask
  exact execStack_of_out hx (by unfold kernelStackOff userStackOff at *; omega)

/-- What a switch does here. -/
theorem Holds.switched (h : c.Holds cpus) {next ret : ℕ} (ha : c.Allowed (.switchTo next ret))
    (hs : c.step (.switchTo next ret) = .ok c') :
    ∃ p ∈ c.tasks, ∃ q ∈ c.tasks, p.task = c.current ∧ q.task = next ∧ p.Disjoint q ∧
      (p.stack + 136 ≤ c.machine.regs .rsp ∧ c.machine.regs .rsp ≤ p.stack + pgSize) ∧
        Switched c.machine c'.machine p q ret (cpus next) ∧ c'.current = next ∧ c'.tasks = c.tasks := by
  obtain ⟨p, hp, hcurrent⟩ := h.current
  obtain ⟨hne, ⟨q, hq, rfl⟩, hret, hroom⟩ := ha
  have hpq : p ≠ q := fun heq => hne (heq ▸ hcurrent)
  have hdisjoint := h.placed.disjoint p hp q hq hpq
  have hsw := callSwitchTo_spec h.fits hret (hroom p hp hcurrent) (h.placed.own p hp) (h.placed.own q hq)
    hdisjoint (h.saved q hq hne)
  rw [hcurrent] at hsw
  obtain rfl := Except.ok.inj hs
  exact ⟨p, hp, q, hq, hcurrent, rfl, hdisjoint, hroom p hp hcurrent, hsw, rfl, rfl⟩

/-- **A task that does not run** is left alone. -/
theorem Holds.step_kept (h : c.Holds cpus) (ha : c.Allowed a) (hs : c.step a = .ok c') (hr : r ∈ c.tasks)
    (hne : r.task ≠ c.current) (hne' : r.task ≠ c'.current) : r.Kept c.machine.mem c'.machine.mem := by
  cases a with
  | work s =>
    obtain rfl := Except.ok.inj hs
    exact ha.2 r hr hne
  | kernelThread p func pidCount =>
    obtain rfl := Except.ok.inj hs
    exact ha.1.kept hr fun x ht hk hpid => kernelThreadStack_of_out ht hk hpid
  | fork p sf code pidCount =>
    obtain rfl := Except.ok.inj hs
    exact ha.1.kept hr fun x ht hk hpid => forkStack_of_out ht hk hpid sf
  | exec stack userStack entry =>
    obtain rfl := Except.ok.inj hs
    obtain ⟨-, p, hp, hpcur, hmem⟩ := h.execed ha
    obtain ⟨hst, hss⟩ := ha.1.apart r hr
    obtain ⟨htt, hts, hst', hss'⟩ := h.placed.disjoint r hr p hp fun heq => hne (heq ▸ hpcur)
    unfold Apart kernelStackOff userStackOff pgSize at *
    refine ⟨fun x hx hx' => ?_, fun x hx hx' => ?_⟩
    · unfold pgSize at hx'
      exact hmem x (by omega) (by omega) (by omega)
    · unfold kernelStackOff at hx
      unfold userStackOff at hx'
      exact hmem x (by omega) (by omega) (by omega)
  | freeProcess task =>
    obtain rfl := Except.ok.inj hs
    exact ⟨fun _ _ _ => rfl, fun _ _ _ => rfl⟩
  | switchTo next ret =>
    obtain ⟨p, hp, q, hq, hcurrent, rfl, -, hroom, hsw, hnext, -⟩ := h.switched ha hs
    have hrp : r ≠ p := fun heq => hne (heq ▸ hcurrent)
    have hrq : r ≠ q := fun heq => hne' ((congrArg TaskPages.task heq).trans hnext.symm)
    exact hsw.kept hroom (h.placed.disjoint r hr p hp hrp) (h.placed.disjoint r hr q hq hrq)

/-- A new task in pages of its own. -/
theorem Holds.create (h : c.Holds cpus) (hfresh : c.Fresh p pidCount) (hsaved : Saved mem p cpu)
    (hkept : ∀ q ∈ c.tasks, q.Kept c.machine.mem mem) :
    ({ c with machine := { c.machine with mem := mem }, tasks := p :: c.tasks } : Contexts).Holds
      (Function.update cpus p.task cpu) := by
  obtain ⟨cur, hcur, hcurrent⟩ := h.current
  have hother : ∀ q ∈ c.tasks, q.task ≠ p.task := fun q hq => (hfresh.disjoint q hq).ne
  refine ⟨h.placed.cons hfresh.own hfresh.disjoint, ⟨cur, List.mem_cons_of_mem p hcur, hcurrent⟩,
    ⟨h.fits.regs, h.fits.rflags, h.fits.rip⟩, ?_, fun q hq hne => ?_⟩
  · show Function.update cpus p.task cpu c.current = _
    rw [Function.update_of_ne (hcurrent ▸ hother cur hcur)]
    exact h.running
  · rcases List.mem_cons.1 hq with rfl | hq
    · rw [Function.update_self]
      exact hsaved
    · rw [Function.update_of_ne (hother q hq)]
      exact (h.saved q hq hne).kept (hkept q hq)

/-- **One step** keeps a processor for each task. -/
theorem Holds.step (h : c.Holds cpus) (ha : c.Allowed a) (hs : c.step a = .ok c') :
    c'.Holds (c.cpusAfter cpus a) := by
  have hkept := fun r => @Holds.step_kept c c' cpus a r h ha hs
  cases a with
  | work s =>
    obtain rfl := Except.ok.inj hs
    refine ⟨h.placed, h.current, ha.1, Function.update_self .., fun p hp hne => ?_⟩
    have hne : p.task ≠ c.current := hne
    show Saved s.mem p (Function.update cpus c.current s.cpu p.task)
    rw [Function.update_of_ne hne]
    exact (h.saved p hp hne).kept (hkept p hp hne hne)
  | kernelThread p func pidCount =>
    obtain rfl := Except.ok.inj hs
    obtain ⟨hfresh, hfunc⟩ := ha
    obtain ⟨hown, htask, hstack⟩ := hfresh.own
    exact h.create hfresh (kernelThreadStack_saved hown htask hstack hfunc) fun q hq =>
      hfresh.kept hq fun x ht hk hpid => kernelThreadStack_of_out ht hk hpid
  | fork p sf code pidCount =>
    obtain rfl := Except.ok.inj hs
    obtain ⟨hfresh, hcode, ⟨f, hf, hwords⟩, hsf⟩ := ha
    obtain ⟨hown, htask, hstack⟩ := hfresh.own
    exact h.create hfresh (forkStack_saved hwords hf hsf hown htask hstack hcode) fun q hq =>
      hfresh.kept hq fun x ht hk hpid => forkStack_of_out ht hk hpid sf
  | exec stack userStack entry =>
    obtain rfl := Except.ok.inj hs
    obtain ⟨hfits, p, hp, hpcur, -⟩ := h.execed ha
    refine ⟨h.placed.moved ha.1, ⟨_, List.mem_map.2 ⟨p, hp, if_pos hpcur⟩, hpcur⟩, hfits,
      Function.update_self .., fun q hq hne => ?_⟩
    have hne : q.task ≠ c.current := hne
    rcases mem_moved hq with ⟨p', hp', hpcur', rfl⟩ | ⟨hq, -⟩
    · exact absurd hpcur' hne
    · rw [cpusAfter, Function.update_of_ne hne]
      exact (h.saved q hq hne).kept (hkept q hq hne hne)
  | freeProcess task =>
    obtain rfl := Except.ok.inj hs
    obtain ⟨cur, hcur, hcurrent⟩ := h.current
    refine ⟨h.placed.filter _, ⟨cur, List.mem_filter.2 ⟨hcur, ?_⟩, hcurrent⟩, h.fits, h.running,
      fun p hp hne => h.saved p (List.mem_of_mem_filter hp) hne⟩
    rw [decide_eq_true_iff, hcurrent]
    exact Ne.symm ha
  | switchTo next ret =>
    obtain ⟨p, hp, q, hq, hcurrent, rfl, -, -, hsw, hnext, htasks⟩ := h.switched ha hs
    obtain ⟨hregs, hflags, hrip⟩ := (h.saved q hq ha.1).fits
    have hcpu := hsw.cpu
    rw [← hcpu] at hregs hflags hrip
    refine ⟨htasks ▸ h.placed, ⟨q, htasks ▸ hq, hnext.symm⟩, ⟨hregs, hflags, hrip⟩, ?_, fun r hr hne => ?_⟩
    · rw [cpusAfter, hnext, Function.update_of_ne ha.1]
      exact hcpu.symm
    rw [htasks] at hr
    by_cases hrcur : r.task = c.current
    · obtain rfl := h.placed.eq_of_task hr hp (hrcur.trans hcurrent.symm)
      have hleft := hsw.saved
      rw [hcurrent] at hleft
      rw [cpusAfter, hrcur, Function.update_self]
      exact hleft
    · rw [cpusAfter, Function.update_of_ne hrcur]
      exact (h.saved r hr hrcur).kept (hkept r hr hrcur hne)

end Step

/-! ### Runs -/

section Runs

variable {boot c c' c₁ c₂ c₃ : Contexts} {cpus : ℕ → RegFile} {cpu : RegFile} {a : ContextAct} {me : TaskPages}
  {mem : ℕ → ℕ} {before acts : List ContextAct} {next ret ret' : ℕ}

/-- Only the first task is there. -/
def Booted (c : Contexts) : Prop := ∃ p : TaskPages, c.tasks = [p] ∧ p.task = c.current ∧ p.Own ∧ c.machine.Fits

theorem Booted.holds (h : c.Booted) : c.Holds fun _ => c.machine.cpu := by
  obtain ⟨p, htasks, hcur, hown, hfits⟩ := h
  have hmem : ∀ q ∈ c.tasks, q = p := fun q hq => by
    rw [htasks] at hq
    exact List.mem_singleton.1 hq
  refine ⟨⟨fun q hq => ?_, fun q hq r hr hne => ?_⟩, ⟨p, ?_, hcur⟩, hfits, rfl, fun q hq hne => ?_⟩
  · rw [hmem q hq]
    exact hown
  · exact absurd ((hmem q hq).trans (hmem r hr).symm) hne
  · rw [htasks]
    exact List.mem_singleton_self p
  · exact absurd (hmem q hq ▸ hcur) hne

/-- **Every run** keeps a processor for each task. -/
theorem holds_of_run (hboot : boot.Booted) (hallowed : Along step Allowed boot acts)
    (hrun : run step boot acts = .ok c) : ∃ cpus, c.Holds cpus := by
  have hstep : ∀ s a s', (∃ cpus, Holds s cpus) → Allowed s a → step s a = .ok s' → ∃ cpus, Holds s' cpus := by
    intro s a s' hs ha hs'
    obtain ⟨cpus, h⟩ := hs
    exact ⟨_, h.step ha hs'⟩
  exact run_invariant (I := fun c => ∃ cpus, Holds c cpus) ⟨_, hboot.holds⟩ hstep hallowed hrun

/-- The step neither frees the task nor switches to it. -/
def StaysAway (task : ℕ) : ContextAct → Prop
  | .freeProcess t => t ≠ task
  | .switchTo next _ => next ≠ task
  | _ => True

instance (task : ℕ) : DecidablePred (StaysAway task)
  | .work _ => inferInstanceAs (Decidable True)
  | .kernelThread _ _ _ => inferInstanceAs (Decidable True)
  | .fork _ _ _ _ => inferInstanceAs (Decidable True)
  | .exec _ _ _ => inferInstanceAs (Decidable True)
  | .freeProcess _ => inferInstanceAs (Decidable (_ ≠ _))
  | .switchTo _ _ => inferInstanceAs (Decidable (_ ≠ _))

/-- A task that is away will come back with `cpu`, and its memory is as it was when it left. -/
structure Away (me : TaskPages) (cpu : RegFile) (mem : ℕ → ℕ) (c : Contexts) : Prop where
  holds : ∃ cpus, c.Holds cpus ∧ cpus me.task = cpu
  task : me ∈ c.tasks
  ne : me.task ≠ c.current
  kept : me.Kept mem c.machine.mem

theorem Away.step (h : Away me cpu mem c) (ha : c.Allowed a) (haway : StaysAway me.task a)
    (hs : c.step a = .ok c') : Away me cpu mem c' := by
  obtain ⟨cpus, hholds, hcpu⟩ := h.holds
  have hne := h.ne
  have hsame : c'.current ≠ me.task ∧ me ∈ c'.tasks ∧ c.cpusAfter cpus a me.task = cpu := by
    have hnew : ∀ p pidCount, c.Fresh p pidCount → ∀ new, Function.update cpus p.task new me.task = cpu := by
      intro p pidCount hfresh new
      rw [Function.update_of_ne (hfresh.disjoint me h.task).ne]
      exact hcpu
    cases a with
    | work s =>
      obtain rfl := Except.ok.inj hs
      exact ⟨hne.symm, h.task, (Function.update_of_ne hne ..).trans hcpu⟩
    | kernelThread p func pidCount =>
      obtain rfl := Except.ok.inj hs
      exact ⟨hne.symm, List.mem_cons_of_mem p h.task, hnew p pidCount ha.1 _⟩
    | fork p sf code pidCount =>
      obtain rfl := Except.ok.inj hs
      exact ⟨hne.symm, List.mem_cons_of_mem p h.task, hnew p pidCount ha.1 _⟩
    | exec stack userStack entry =>
      obtain rfl := Except.ok.inj hs
      exact ⟨hne.symm, mem_map_moved h.task hne, (Function.update_of_ne hne ..).trans hcpu⟩
    | freeProcess task =>
      obtain rfl := Except.ok.inj hs
      exact ⟨hne.symm, List.mem_filter.2 ⟨h.task, decide_eq_true (Ne.symm haway)⟩, hcpu⟩
    | switchTo next ret =>
      obtain rfl := Except.ok.inj hs
      exact ⟨haway, h.task, (Function.update_of_ne hne ..).trans hcpu⟩
  obtain ⟨hcur, hmem, hafter⟩ := hsame
  have hkept := hholds.step_kept ha hs h.task hne hcur.symm
  exact ⟨⟨_, hholds.step ha hs, hafter⟩, hmem, hcur.symm, fun x hx hx' =>
    (hkept.stack x hx hx').trans (h.kept.stack x hx hx'), fun x hx hx' =>
      (hkept.task x hx hx').trans (h.kept.task x hx hx')⟩

/-- A task that calls `__switch_to` is away. -/
theorem Holds.away (h : c.Holds cpus) (hme : me ∈ c.tasks) (hcur : me.task = c.current)
    (ha : c.Allowed (.switchTo next ret)) (hs : c.step (.switchTo next ret) = .ok c') :
    Away me (leftCpu c.machine c.current next ret) c'.machine.mem c' := by
  refine ⟨⟨_, h.step ha hs, ?_⟩, ?_, ?_, fun _ _ _ => rfl, fun _ _ _ => rfl⟩
  · rw [hcur, cpusAfter, Function.update_self]
  all_goals obtain rfl := Except.ok.inj hs
  · exact hme
  · rw [hcur]
    exact Ne.symm ha.1

/-- A task that is switched to is as it left. -/
theorem Away.back (h : Away me cpu mem c) (ha : c.Allowed (.switchTo me.task ret))
    (hs : c.step (.switchTo me.task ret) = .ok c') :
    c'.current = me.task ∧ c'.machine.cpu = cpu ∧ readWord c'.machine.mem (me.task + lastOff) = c.current ∧
      me.Kept mem c'.machine.mem := by
  obtain ⟨cpus, hholds, rfl⟩ := h.holds
  obtain ⟨p, hp, q, hq, hcurrent, htask, hdisjoint, ⟨hlo, hhi⟩, hsw, hnext, -⟩ := hholds.switched ha hs
  obtain rfl := hholds.placed.eq_of_task hq h.task htask
  have hkept := h.kept
  have hmem := hsw.mem
  have hlast := hsw.last
  obtain ⟨htt, hts, hst, hss⟩ := hdisjoint
  obtain ⟨hown, -, -⟩ := hholds.placed.own q hq
  rw [hcurrent] at hlast
  refine ⟨hnext, hsw.cpu, hlast, fun x hx hx' => ?_, fun x hx hx' => ?_⟩
  · rw [← hkept.stack x hx hx']
    unfold Apart kernelStackOff userStackOff lastOff pgSize at *
    exact hmem x (by omega) (by omega) (by omega)
  · rw [← hkept.task x hx hx']
    unfold Apart kernelStackOff userStackOff lastOff pgSize at *
    exact hmem x (by omega) (by omega) (by omega)

/-- **A call of `__switch_to` returns.**  Whatever runs in the meantime, when the task is switched to again
it is behind the call, with the registers of the call and its stack as it was, and `last` is the task that
ran before it. -/
theorem switch_returns (hboot : boot.Booted) (hbefore : Along step Allowed boot before)
    (hc : run step boot before = .ok c) (hleave : c.Allowed (.switchTo next ret))
    (hc₁ : c.step (.switchTo next ret) = .ok c₁) (hacts : Along step Allowed c₁ acts)
    (haway : ∀ a ∈ acts, StaysAway c.current a) (hc₂ : run step c₁ acts = .ok c₂)
    (hback : c₂.Allowed (.switchTo c.current ret')) (hc₃ : c₂.step (.switchTo c.current ret') = .ok c₃) :
    c₃.current = c.current ∧ c₃.machine.cpu = leftCpu c.machine c.current next ret ∧
      readWord c₃.machine.mem (c.current + lastOff) = c₂.current ∧
        ∀ p ∈ c.tasks, p.task = c.current → ∀ x, c.machine.regs .rsp ≤ x → x < p.stack + pgSize →
          c₃.machine.mem x = c.machine.mem x := by
  obtain ⟨cpus, hholds⟩ := holds_of_run hboot hbefore hc
  obtain ⟨me, hme, hcur⟩ := hholds.current
  have hleft := hholds.away hme hcur hleave hc₁
  rw [← hcur] at haway hback hc₃
  have hstill := run_invariant hleft (fun s a s' h ha hs => h.step ha.2 ha.1 hs)
    (hacts.and_of_mem haway) hc₂
  obtain ⟨hcurrent, hcpu, hlast, hkept⟩ := hstill.back hback hc₃
  refine ⟨hcurrent.trans hcur, hcpu, hcur ▸ hlast, fun p hp hpcur x hx hx' => ?_⟩
  obtain rfl := hholds.placed.eq_of_task hp hme (hpcur.trans hcur.symm)
  -- the switch only writes below the stack pointer
  obtain ⟨p', hp', q, hq, hcurrent', -, hdisjoint, ⟨hlo, hhi⟩, hsw, -, -⟩ := hholds.switched hleave hc₁
  obtain rfl := hholds.placed.eq_of_task hp' hp (hcurrent'.trans hcur.symm)
  obtain ⟨-, -, hst, -⟩ := hdisjoint
  obtain ⟨hown, -, -⟩ := hholds.placed.own p' hp'
  have hmem := hsw.mem
  rw [hkept.stack x (by omega) hx']
  unfold Apart kernelStackOff userStackOff lastOff pgSize at *
  exact hmem x (by omega) (by omega) (by omega)

/-- The first task, with its stack in the kernel image. -/
def booted : Contexts where
  machine := ⟨fun r => if r = .rsp then 0xffffffff80401f00 else 7, 2, 0xffffffff80200000, fun _ => 0⟩
  current := 0xffffffff80400000
  tasks := [⟨0xffffffff80400000, 0xffffffff80401000⟩]

/-- A new thread. -/
abbrev threadA : ContextAct :=
  .kernelThread ⟨0xffffffff80403000, 0xffffffff80404000⟩ 0xffffffff80201000 0xffffffff80300008

/-- Another one. -/
abbrev threadB : ContextAct :=
  .kernelThread ⟨0xffffffff80405000, 0xffffffff80406000⟩ 0xffffffff80202000 0xffffffff80300008

theorem booted_boots : booted.Booted := by
  refine ⟨_, rfl, rfl, by decide, fun r => ?_, by decide, by decide⟩
  rw [booted]
  dsimp only
  split_ifs <;> decide

/-- The first task switches to a thread, which starts another one and switches back. -/
theorem switch_returns_booted :
    let c := booted.after threadA
    let c₂ := (c.after (.switchTo 0xffffffff80403000 0xffffffff80200010)).after threadB
    let c₃ := c₂.after (.switchTo c.current 0xffffffff80201010)
    c₃.current = c.current ∧
      c₃.machine.cpu = leftCpu c.machine c.current 0xffffffff80403000 0xffffffff80200010 ∧
        readWord c₃.machine.mem (c.current + lastOff) = c₂.current ∧
          ∀ p ∈ c.tasks, p.task = c.current → ∀ x, c.machine.regs .rsp ≤ x → x < p.stack + pgSize →
            c₃.machine.mem x = c.machine.mem x := by
  have hbefore : Along step Allowed booted [threadA] := ⟨by decide +kernel, fun _ _ => trivial⟩
  have hacts : Along step Allowed ((booted.after threadA).after (.switchTo 0xffffffff80403000 0xffffffff80200010))
      [threadB] := ⟨by decide +kernel, fun _ _ => trivial⟩
  exact switch_returns booted_boots hbefore rfl (by decide +kernel) rfl hacts (by decide +kernel) rfl
    (by decide +kernel) rfl

end Runs

end Contexts

end PlumOs
