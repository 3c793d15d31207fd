import PlumOs.Lib.X86
import PlumOs.Vm.Paging

/-!
# The registers of the child of a `fork` (`sys/entry.s`, `sys/switch_to.s`, `sys/syscall.c`)

`__syscall_handler` pushes `%r12` to the stack of the user and the other registers to the kernel stack,
as a `sc_frame`.  `fork` copies this frame to the kernel stack of the child, and puts the address of
`ret_from_fork` and a `context_info` below it, so that `__switch_to` finds there what it pops.

* `syscallHandler`, `syscallReturn`, `switchTo`, `retFromFork` : the code in assembly;
* `forkStack` : what `fork` writes for this code;
* `restoreUser_spec`, `loadContext_spec` : the parts that both tasks come through, and the child only;
* `fork_restores_iff` : **both tasks come back with the registers of the call**, but for the results,
  exactly if the child finds `%r12` on the stack of the user.
-/

namespace PlumOs

open X86

/-! ### The code in assembly -/

/-- `struct sc_frame`, the lowest field first. -/
def scFrame : List Reg :=
  [.rbp, .r15, .r14, .r13, .r11, .r10, .r9, .r8, .rdi, .rsi, .rdx, .rcx, .rbx]

/-- `struct context_info`; the field without a register is `rflags`. -/
def contextInfo : List (Option Reg) :=
  [some .rcx, some .rax, none, some .r15, some .r14, some .r13, some .r12, some .r11, some .r10,
    some .r9, some .r8, some .rdi, some .rsi, some .rdx, some .rbx, some .rbp]

/-- The offsets of `last`, `kernel_stack`, `user_stack` and `pid` in a `task_struct`, which is packed
and has 20 files of 176 bytes. -/
abbrev lastOff : ℕ := 0x10

abbrev kernelStackOff : ℕ := 0x18

abbrev userStackOff : ℕ := 0x20

abbrev pidOff : ℕ := 0x28 + 20 * 176 + 8

/-- `__syscall_handler`, up to the call; `current` is at the address `sym`. -/
def syscallHandler (sym : ℕ) : List Instr :=
  [.cli, .push .r12, .loadAbs sym .r12, .store .rsp 0x20 .r12, .load 0x18 .r12 .rsp,
    .push .rbx, .push .rcx, .push .rdx, .push .rsi, .push .rdi, .push .r8, .push .r9, .push .r10,
    .push .r11, .push .r13, .push .r14, .push .r15, .push .rbp, .mov .rax .rdi, .mov .rsp .rsi]

/-- `__syscall_handler`, from the call on. -/
def syscallReturn : List Instr :=
  [.pop .rbp, .pop .r15, .pop .r14, .pop .r13, .pop .r11, .pop .r10, .pop .r9, .pop .r8, .pop .rdi,
    .pop .rsi, .pop .rdx, .pop .rcx, .pop .rbx, .store .rsp 0x18 .r12, .load 0x20 .r12 .rsp,
    .pop .r12, .sti, .sysret]

/-- `ret_from_fork`. -/
def retFromFork : List Instr :=
  [.pop .rbp, .pop .r15, .pop .r14, .pop .r13, .pop .r11, .pop .r10, .pop .r9, .pop .r8, .pop .rdi,
    .pop .rsi, .pop .rdx, .pop .rcx, .pop .rbx, .store .rsp 0x18 .r12, .load 0x20 .r12 .rsp,
    .pop .r12, .movImm 0 .rax, .sti, .sysret]

/-- `__switch_to`. -/
def switchTo : List Instr :=
  [.cli, .push .rbp, .push .rbx, .push .rdx, .push .rsi, .push .rdi, .push .r8, .push .r9, .push .r10,
    .push .r11, .push .r12, .push .r13, .push .r14, .push .r15, .pushfq, .push .rax, .push .rcx,
    .store .rsp 0x18 .rax, .load 0x18 .rbx .rsp, .pop .rcx, .store .rax 0 .rcx, .pop .rax, .popfq,
    .pop .r15, .pop .r14, .pop .r13, .pop .r12, .pop .r11, .pop .r10, .pop .r9, .pop .r8, .pop .rdi,
    .pop .rsi, .pop .rdx, .pop .rbx, .pop .rbp, .sti, .ret]

/-! ### `fork` -/

/-- `get_zero_page`, for the page at an address. -/
def zeroPage (mem : ℕ → ℕ) (page : ℕ) : ℕ → ℕ :=
  fun x => if page ≤ x ∧ x < page + pgSize then 0 else mem x

/-- `copy_sc_frame`. -/
def copyScFrame (mem : ℕ → ℕ) (new old : ℕ) : ℕ → ℕ :=
  scFrame.foldl (fun mem r =>
    writeWord mem (new + 8 * scFrame.idxOf r) (readWord mem (old + 8 * scFrame.idxOf r))) mem

/-- The address of a field of the `context_info` at an address. -/
def contextField (ctx : ℕ) (r : Reg) : ℕ := ctx + 8 * contextInfo.idxOf (some r)

/-- Where `fork` puts the frame of the child, the address of `ret_from_fork` and the
`context_info`. -/
def nsfOf (kstack : ℕ) : ℕ := kstack + pgSize - 8 * scFrame.length

def retOf (kstack : ℕ) : ℕ := nsfOf kstack - 8

def ctxOf (kstack : ℕ) : ℕ := retOf kstack - 8 * contextInfo.length

/-- The first part of `fork` : the pages `tsp` and `kstack` are those of `get_zero_page`, and
`pid_count` is at `pidCount`. -/
def forkTaskMem (mem : ℕ → ℕ) (tsp kstack pidCount : ℕ) : ℕ → ℕ :=
  let pid := load mem 4 pidCount
  let mem := store (zeroPage mem tsp) 4 (tsp + pidOff) pid
  let mem := store mem 4 pidCount ((pid + 1) % 2 ^ 32)
  writeWord (zeroPage mem kstack) (tsp + kernelStackOff) kstack

/-- The second part, which prepares the stack of the child; `sf` is the argument of `fork`, and `code`
the address of `ret_from_fork`.  The other fields of the `task_struct` are left out. -/
def forkContext (mem : ℕ → ℕ) (current tsp kstack sf code : ℕ) : ℕ → ℕ :=
  let mem := copyScFrame mem (nsfOf kstack) sf
  let mem := writeWord mem (retOf kstack) code
  let mem := writeWord mem (contextField (ctxOf kstack) .rcx) (tsp + lastOff)
  let mem := writeWord mem (contextField (ctxOf kstack) .rax) tsp
  let mem := writeWord mem (contextField (ctxOf kstack) .r12) tsp
  let mem := writeWord mem (tsp + kernelStackOff) (ctxOf kstack)
  writeWord mem (tsp + userStackOff) (readWord mem (current + userStackOff))

/-- `fork`, as far as it writes what the code in assembly reads, and `pid`. -/
def forkStack (mem : ℕ → ℕ) (current tsp kstack sf code pidCount : ℕ) : ℕ → ℕ :=
  forkContext (forkTaskMem mem tsp kstack pidCount) current tsp kstack sf code

/-- An `int` as the `uint64_t` that `fork` returns. -/
def signExtend (w : ℕ) : ℕ := if w < 2 ^ 31 then w else w + (2 ^ 64 - 2 ^ 32)

/-- The `pid` of a task, as `fork` returns it. -/
def pidOf (mem : ℕ → ℕ) (tsp : ℕ) : ℕ := signExtend (load mem 4 (tsp + pidOff))

/-! ### What `fork` leaves -/

/-- Two rows of bytes have none in common. -/
def Apart (a n b m : ℕ) : Prop := a + n ≤ b ∨ b + m ≤ a

instance (a n b m : ℕ) : Decidable (Apart a n b m) := inferInstanceAs (Decidable (_ ∨ _))

/-- The places in the kernel half: `current` and `pid_count`, the `task_struct` of the caller, its
frame below `top`, and the two new pages. -/
structure ForkPlaces (sym pidCount cur top tsp kstack : ℕ) : Prop where
  /-- All of them are in the kernel half. -/
  kernel : userTop ≤ sym ∧ userTop ≤ pidCount ∧ userTop ≤ cur ∧ userTop + 8 * scFrame.length ≤ top ∧
    userTop ≤ tsp ∧ userTop ≤ kstack
  /-- No page wraps around. -/
  endLt : cur + pgSize < 2 ^ 64 ∧ top < 2 ^ 64 ∧ tsp + pgSize < 2 ^ 64 ∧ kstack + pgSize < 2 ^ 64
  /-- The two new pages are apart. -/
  pages : Apart tsp pgSize kstack pgSize
  /-- The page of the caller is apart from the two new ones. -/
  task : Apart cur pgSize tsp pgSize ∧ Apart cur pgSize kstack pgSize
  /-- The frame of the caller is apart from these three pages. -/
  frame : Apart (top - 8 * scFrame.length) (8 * scFrame.length) tsp pgSize ∧
    Apart (top - 8 * scFrame.length) (8 * scFrame.length) kstack pgSize ∧
      Apart (top - 8 * scFrame.length) (8 * scFrame.length) cur pgSize
  /-- `pid_count` is in none of them. -/
  pid : Apart pidCount 4 tsp pgSize ∧ Apart pidCount 4 kstack pgSize ∧ Apart pidCount 4 cur pgSize ∧
    Apart pidCount 4 (top - 8 * scFrame.length) (8 * scFrame.length)

/-- The registers that `__switch_to` pops behind `rflags`. -/
def savedRegs : List Reg :=
  [.r15, .r14, .r13, .r12, .r11, .r10, .r9, .r8, .rdi, .rsi, .rdx, .rbx, .rbp]

theorem length_scFrame : scFrame.length = 13 := rfl

theorem length_contextInfo : contextInfo.length = 16 := rfl

theorem nsfOf_eq (kstack : ℕ) : nsfOf kstack = kstack + 3992 := by
  unfold nsfOf pgSize
  rw [length_scFrame]
  omega

theorem retOf_eq (kstack : ℕ) : retOf kstack = kstack + 3984 := by
  rw [retOf, nsfOf_eq]
  omega

theorem ctxOf_eq (kstack : ℕ) : ctxOf kstack = kstack + 3856 := by
  rw [ctxOf, retOf_eq, length_contextInfo]
  omega

theorem contextField_eq (ctx : ℕ) : contextField ctx .rcx = ctx ∧ contextField ctx .rax = ctx + 8 ∧
    contextField ctx .r12 = ctx + 48 := by
  have hrcx : contextInfo.idxOf (some .rcx) = 0 := by decide
  have hrax : contextInfo.idxOf (some .rax) = 1 := by decide
  have hr12 : contextInfo.idxOf (some .r12) = 6 := by decide
  unfold contextField
  rw [hrcx, hrax, hr12]
  exact ⟨rfl, rfl, rfl⟩

theorem copyScFrame_eq (mem : ℕ → ℕ) (new old : ℕ) :
    copyScFrame mem new old = copyWords mem new old 13 := by
  have hidx : scFrame.map scFrame.idxOf = List.range 13 := by decide
  rw [copyWords, ← hidx, List.foldl_map]
  rfl

theorem zeroPage_of_out {mem : ℕ → ℕ} {page x : ℕ} (h : x < page ∨ page + 4096 ≤ x) :
    zeroPage mem page x = mem x := if_neg (by unfold pgSize; omega)

theorem readWord_zeroPage {mem : ℕ → ℕ} {page a : ℕ} (h : page ≤ a ∧ a + 8 ≤ page + 4096) :
    readWord (zeroPage mem page) a = 0 :=
  load_eq_zero fun k hk => if_pos (by unfold pgSize; omega)

section Fork

variable {mem : ℕ → ℕ} {sym pidCount cur top tsp kstack sf code x a : ℕ} {f : Reg → ℕ}

theorem forkTaskMem_of_out (ht : x < tsp ∨ tsp + 4096 ≤ x) (hk : x < kstack ∨ kstack + 4096 ≤ x)
    (hp : x < pidCount ∨ pidCount + 4 ≤ x) : forkTaskMem mem tsp kstack pidCount x = mem x := by
  simp (disch := omega) only [forkTaskMem, kernelStackOff, pidOff, writeWord_of_out, zeroPage_of_out,
    store_of_out]

theorem readWord_forkTaskMem (hpages : Apart tsp 4096 kstack 4096) (ha : kstack ≤ a ∧ a + 8 ≤ kstack + 4096) :
    readWord (forkTaskMem mem tsp kstack pidCount) a = 0 := by
  unfold Apart at hpages
  simp (disch := omega) only [forkTaskMem, kernelStackOff, readWord_writeWord_of_out, readWord_zeroPage]

/-- The part of the second part that writes to the stack of the child. -/
theorem forkContext_of_out (ht : x < tsp ∨ tsp + 4096 ≤ x) (hk : x < kstack ∨ kstack + 4096 ≤ x) :
    forkContext mem cur tsp kstack sf code x = mem x := by
  obtain ⟨hrcx, hrax, hr12⟩ := contextField_eq (kstack + 3856)
  simp (disch := omega) only [forkContext, nsfOf_eq, retOf_eq, ctxOf_eq, hrcx, hrax, hr12,
    copyScFrame_eq, kernelStackOff, userStackOff, writeWord_of_out, copyWords_of_out]

/-- The words of the stack of the child. -/
structure ContextAt (m : ℕ → ℕ) (tsp kstack code : ℕ) (f : Reg → ℕ) : Prop where
  frame : WordsAt m (nsfOf kstack) (scFrame.map f)
  ret : readWord m (retOf kstack) = code
  rcx : readWord m (ctxOf kstack) = tsp + lastOff
  rax : readWord m (ctxOf kstack + 8) = tsp
  rflags : readWord m (ctxOf kstack + 16) = 0
  saved : WordsAt m (ctxOf kstack + 24) (savedRegs.map fun r => if r = .r12 then tsp else 0)
  kernelStack : readWord m (tsp + kernelStackOff) = ctxOf kstack

theorem forkContext_frame (hwords : WordsAt mem sf (scFrame.map f)) (hf : ∀ r, f r < 2 ^ 64)
    (hsf : Apart sf (8 * scFrame.length) kstack 4096) (hpages : Apart tsp 4096 kstack 4096) :
    WordsAt (forkContext mem cur tsp kstack sf code) (nsfOf kstack) (scFrame.map f) := by
  have hlt : ∀ w ∈ scFrame.map f, w < 2 ^ 64 := by
    intro w hw
    obtain ⟨r, -, rfl⟩ := List.mem_map.1 hw
    exact hf r
  have hlen : (scFrame.map f).length = 13 := rfl
  obtain ⟨hrcx, hrax, hr12⟩ := contextField_eq (kstack + 3856)
  rw [length_scFrame] at hsf
  unfold Apart at hsf hpages
  have hcopy : WordsAt (copyWords mem (kstack + 3992) sf 13) (kstack + 3992) (scFrame.map f) := by
    rw [← hlen]
    exact hwords.copy hlt (by rw [hlen]; omega)
  rw [nsfOf_eq]
  refine hcopy.congr fun x hlo hhi => ?_
  rw [hlen] at hhi
  simp (disch := omega) only [forkContext, nsfOf_eq, retOf_eq, ctxOf_eq, hrcx, hrax, hr12,
    copyScFrame_eq, kernelStackOff, userStackOff, writeWord_of_out]

theorem forkContext_spec (hzero : ∀ a, kstack ≤ a → a + 8 ≤ kstack + 4096 → readWord mem a = 0)
    (hwords : WordsAt mem sf (scFrame.map f)) (hf : ∀ r, f r < 2 ^ 64)
    (hsf : Apart sf (8 * scFrame.length) kstack 4096) (hpages : Apart tsp 4096 kstack 4096)
    (hcode : code < 2 ^ 64) (htsp : tsp + 4096 < 2 ^ 64) (hkst : kstack + 4096 < 2 ^ 64) :
    ContextAt (forkContext mem cur tsp kstack sf code) tsp kstack code f := by
  have hframe : WordsAt (forkContext mem cur tsp kstack sf code) (nsfOf kstack) (scFrame.map f) :=
    forkContext_frame hwords hf hsf hpages
  clear hwords hf hsf
  obtain ⟨hrcx, hrax, hr12⟩ := contextField_eq (kstack + 3856)
  unfold Apart at hpages
  refine ⟨hframe, ?_, ?_, ?_, ?_, ?_, ?_⟩
  all_goals simp only [forkContext, nsfOf_eq, retOf_eq, ctxOf_eq, hrcx, hrax, hr12, copyScFrame_eq,
    kernelStackOff, userStackOff, lastOff]
  · simp (disch := omega) only [readWord_writeWord_of_out, readWord_writeWord]
  · simp (disch := omega) only [readWord_writeWord_of_out, readWord_writeWord]
  · simp (disch := omega) only [readWord_writeWord_of_out, readWord_writeWord]
  · simp (disch := omega) only [readWord_writeWord_of_out, readWord_copyWords_of_out]
    exact hzero _ (by omega) (by omega)
  · rw [wordsAt_iff]
    have hsaved : (savedRegs.map fun r => if r = Reg.r12 then tsp else 0) =
        (List.range 13).map fun i => if i = 3 then tsp else 0 := rfl
    rw [hsaved]
    intro i hi
    rw [List.length_map, List.length_range] at hi
    rw [List.getElem_map, List.getElem_range]
    by_cases hr : i = 3
    · rw [if_pos hr, hr]
      simp (disch := omega) only [readWord_writeWord_of_out, readWord_writeWord]
    · rw [if_neg hr]
      simp (disch := omega) only [readWord_writeWord_of_out, readWord_copyWords_of_out]
      exact hzero _ (by omega) (by omega)
  · simp (disch := omega) only [readWord_writeWord_of_out, readWord_writeWord]

end Fork

/-! ### Back to the user -/

section Restore

variable {s : State} {task u : ℕ} {f : Reg → ℕ}

/-- The instructions that both ways back to the user have in common. -/
def restoreUser : List Instr :=
  scFrame.map .pop ++ [.store .rsp 0x18 .r12, .load 0x20 .r12 .rsp, .pop .r12]

theorem syscallReturn_eq : syscallReturn = restoreUser ++ [.sti, .sysret] := rfl

theorem retFromFork_eq : retFromFork = restoreUser ++ [.movImm 0 .rax, .sti, .sysret] := rfl

/-- The registers after these instructions, and the stack pointer that they store. -/
structure Restored (s s' : State) (task u : ℕ) (f : Reg → ℕ) : Prop where
  frame : ∀ r ∈ scFrame, s'.regs r = f r
  r12 : s'.regs .r12 = readWord s.mem u
  rsp : s'.regs .rsp = u + 8
  rax : s'.regs .rax = s.regs .rax
  kernelStack : readWord s'.mem (task + kernelStackOff) = s.regs .rsp + 8 * scFrame.length
  mem : ∀ x, x < task + kernelStackOff ∨ task + userStackOff ≤ x → s'.mem x = s.mem x

/-- **The way back to the user**, for a frame with the values `f` on the kernel stack. -/
theorem restoreUser_spec (hframe : WordsAt s.mem (s.regs .rsp) (scFrame.map f))
    (hr12 : s.regs .r12 = task) (htask : userTop ≤ task ∧ task + 4096 < 2 ^ 64)
    (hend : s.regs .rsp + 8 * scFrame.length < 2 ^ 64)
    (hstack : readWord s.mem (task + userStackOff) = u) (hu : u + 8 ≤ userTop) :
    Restored s (runBlock s restoreUser) task u f := by
  have hp := runBlock_pops hframe (by decide) hend
  obtain ⟨s₁, hs₁⟩ : ∃ s₁, s₁ = runBlock s (scFrame.map .pop) := ⟨_, rfl⟩
  rw [← hs₁] at hp
  have hr12₁ : s₁.regs .r12 = task := by rw [hp.other .r12 (by decide) (by decide), hr12]
  have hrax₁ : s₁.regs .rax = s.regs .rax := hp.other .rax (by decide) (by decide)
  unfold userTop at htask hu
  have hoff : above task 0x18 = task + 0x18 := above_eq (by omega)
  have hoff' : above task 0x20 = task + 0x20 := above_eq (by omega)
  have hmem : readWord (writeWord s₁.mem (task + 0x18) (s₁.regs .rsp)) (task + 0x20) = u := by
    rw [readWord_writeWord_of_out (by omega), hp.mem]
    exact hstack
  have huser : readWord (writeWord s₁.mem (task + 0x18) (s₁.regs .rsp)) u = readWord s.mem u := by
    rw [readWord_writeWord_of_out (by omega), hp.mem]
  have hrun : runBlock s restoreUser =
      exec (({ s₁ with mem := writeWord s₁.mem (task + 0x18) (s₁.regs .rsp) } : State).setReg .rsp u)
        (.pop .r12) := by
    rw [restoreUser, runBlock_append, ← hs₁]
    simp only [runBlock_cons, runBlock_nil, exec, hr12₁, hoff, hoff', hmem]
  rw [hrun]
  refine ⟨fun r hr => ?_, ?_, ?_, ?_, ?_, fun x hx => ?_⟩
  · have hne : r ≠ .r12 ∧ r ≠ .rsp := by
      constructor <;> rintro rfl <;> exact absurd hr (by decide)
    rw [exec, State.setReg_of_ne hne.1, State.drop_of_ne hne.2, State.setReg_of_ne hne.2]
    exact hp.regs r hr
  · rw [exec, State.setReg_self, State.top, State.setReg_self]
    exact huser
  · rw [exec, State.setReg_of_ne (by decide), State.drop_rsp (by rw [State.setReg_self]; omega),
      State.setReg_self]
  · rw [exec, State.setReg_of_ne (by decide), State.drop_of_ne (by decide),
      State.setReg_of_ne (by decide)]
    exact hrax₁
  · rw [exec, State.setReg_mem, State.drop_mem, State.setReg_mem, kernelStackOff, hp.rsp]
    exact readWord_writeWord hend
  · unfold kernelStackOff userStackOff at hx
    rw [exec, State.setReg_mem, State.drop_mem, State.setReg_mem]
    dsimp only
    rw [writeWord_of_out (by omega), hp.mem]

end Restore

/-! ### The entry -/

section Entry

variable {s : State} {sym cur top : ℕ}

/-- The handler is entered by a task with its `task_struct` at `cur`, whose kernel stack ends at `top`
and whose stack pointer is in the user half. -/
structure SyscallEntry (s : State) (sym cur top : ℕ) : Prop where
  regs : ∀ r, s.regs r < 2 ^ 64
  /-- The stack pointer of the user has room for a word. -/
  rsp : 8 ≤ s.regs .rsp ∧ s.regs .rsp ≤ userTop
  /-- `current` is the caller. -/
  current : readWord s.mem sym = cur
  /-- The kernel stack of the caller is empty. -/
  kernelStack : readWord s.mem (cur + kernelStackOff) = top

/-- The first instructions of the handler, which change the stack. -/
def enterKernel (sym : ℕ) : List Instr :=
  [.cli, .push .r12, .loadAbs sym .r12, .store .rsp 0x20 .r12, .load 0x18 .r12 .rsp]

theorem syscallHandler_eq (sym : ℕ) : syscallHandler sym =
    enterKernel sym ++ (scFrame.reverse.map .push ++ [.mov .rax .rdi, .mov .rsp .rsi]) := rfl

/-- The memory after these instructions. -/
def enteredMem (s : State) (cur : ℕ) : ℕ → ℕ :=
  writeWord (writeWord s.mem (s.regs .rsp - 8) (s.regs .r12)) (cur + 0x20) (s.regs .rsp - 8)

/-- The state in front of the call of `syscall_handler`. -/
structure Entered (s s' : State) (cur top : ℕ) : Prop where
  rsp : s'.regs .rsp = top - 8 * scFrame.length
  r12 : s'.regs .r12 = cur
  rdi : s'.regs .rdi = s.regs .rax
  rsi : s'.regs .rsi = top - 8 * scFrame.length
  frame : WordsAt s'.mem (top - 8 * scFrame.length) (scFrame.map s.regs)
  userStack : readWord s'.mem (cur + userStackOff) = s.regs .rsp - 8
  userWord : readWord s'.mem (s.regs .rsp - 8) = s.regs .r12
  mem : ∀ x, x < top - 8 * scFrame.length ∨ top ≤ x → s'.mem x = enteredMem s cur x

theorem enterKernel_spec (h : SyscallEntry s sym cur top) (hsym : userTop ≤ sym)
    (hcur : userTop ≤ cur ∧ cur + 4096 < 2 ^ 64) :
    (runBlock s (enterKernel sym)).mem = enteredMem s cur ∧
      (runBlock s (enterKernel sym)).regs .rsp = top ∧ (runBlock s (enterKernel sym)).regs .r12 = cur ∧
        ∀ r, r ≠ .rsp → r ≠ .r12 → (runBlock s (enterKernel sym)).regs r = s.regs r := by
  obtain ⟨hlo, hhi⟩ := h.rsp
  unfold userTop at hhi hsym hcur
  have hlt : s.regs .rsp < 2 ^ 64 := h.regs .rsp
  have hsub : below (s.regs .rsp) = s.regs .rsp - 8 := below_eq hlo hlt
  have hcurrent : readWord (writeWord s.mem (s.regs .rsp - 8) (s.regs .r12)) sym = cur := by
    rw [readWord_writeWord_of_out (by omega)]
    exact h.current
  have hoff : above cur 0x18 = cur + 0x18 := above_eq (by omega)
  have hoff' : above cur 0x20 = cur + 0x20 := above_eq (by omega)
  have htop : readWord (enteredMem s cur) (cur + 0x18) = top := by
    rw [enteredMem, readWord_writeWord_of_out (by omega), readWord_writeWord_of_out (by omega)]
    exact h.kernelStack
  have hrun : runBlock s (enterKernel sym) =
      { regs := Function.update (Function.update (Function.update s.regs .rsp (s.regs .rsp - 8)) .r12
          cur) .rsp top
        rflags := setIf s.rflags false
        rip := s.rip
        mem := enteredMem s cur } := by
    simp only [enterKernel, runBlock_cons, runBlock_nil, exec, State.push, State.setReg, hsub, hcurrent]
    simp only [Function.update_self, hoff, hoff', Function.update_of_ne (show Reg.rsp ≠ Reg.r12 by decide)]
    simp only [← enteredMem.eq_def, htop]
  rw [hrun]
  refine ⟨rfl, ?_, ?_, fun r hrsp hr12 => ?_⟩
  · dsimp only
    rw [Function.update_self]
  · dsimp only
    rw [Function.update_of_ne (by decide), Function.update_self]
  · dsimp only
    rw [Function.update_of_ne hrsp, Function.update_of_ne hr12, Function.update_of_ne hrsp]

/-- **The entry of a system call.** -/
theorem syscallHandler_spec (h : SyscallEntry s sym cur top) (hsym : userTop ≤ sym)
    (hcur : userTop ≤ cur ∧ cur + 4096 < 2 ^ 64) (htop : userTop + 8 * scFrame.length ≤ top)
    (hend : top < 2 ^ 64) (hapart : Apart (top - 8 * scFrame.length) (8 * scFrame.length) cur 4096) :
    Entered s (runBlock s (syscallHandler sym)) cur top := by
  obtain ⟨hmem, hrsp, hr12, hregs⟩ := enterKernel_spec h hsym hcur
  obtain ⟨s₁, hs₁⟩ : ∃ s₁, s₁ = runBlock s (enterKernel sym) := ⟨_, rfl⟩
  rw [← hs₁] at hmem hrsp hr12 hregs
  have hsame : ∀ r ∈ scFrame, s₁.regs r = s.regs r := by
    intro r hr
    refine hregs r ?_ ?_ <;> rintro rfl <;> exact absurd hr (by decide)
  have hlen : scFrame.reverse.length = scFrame.length := rfl
  obtain ⟨hlo, hhi⟩ := h.rsp
  have hlt := h.regs .rsp
  have hp : Pushed s₁ (runBlock s₁ (scFrame.reverse.map .push)) scFrame.reverse :=
    runBlock_pushes (fun r hr => by rw [hsame r (List.mem_reverse.1 hr)]; exact h.regs r) (by decide)
      (by rw [hlen, hrsp]; omega) (by rw [hrsp]; exact hend)
  obtain ⟨s₂, hs₂⟩ : ∃ s₂, s₂ = runBlock s₁ (scFrame.reverse.map .push) := ⟨_, rfl⟩
  rw [← hs₂] at hp
  have hrsp₂ : s₂.regs .rsp = top - 8 * scFrame.length := by rw [hp.rsp, hrsp, hlen]
  have hrax₂ : s₂.regs .rax = s.regs .rax := by
    rw [hp.regs .rax (by decide), hregs .rax (by decide) (by decide)]
  have hframe := hp.words
  rw [hlen, hrsp, List.reverse_reverse, List.map_congr_left hsame] at hframe
  have hout : ∀ x, x < top - 8 * scFrame.length ∨ top ≤ x → s₂.mem x = enteredMem s cur x := by
    intro x hx
    rw [hp.mem x (by rw [hrsp, hlen]; exact hx), hmem]
  have hrun : runBlock s (syscallHandler sym) =
      ((s₂.setReg .rdi (s₂.regs .rax)).setReg .rsi (s₂.regs .rsp)) := by
    rw [syscallHandler_eq, runBlock_append, ← hs₁, runBlock_append, ← hs₂]
    simp only [runBlock_cons, runBlock_nil, exec,
      State.setReg_of_ne (show Reg.rsp ≠ Reg.rdi by decide)]
  unfold Apart at hapart
  rw [hrun]
  refine ⟨?_, ?_, ?_, ?_, hframe, ?_, ?_, hout⟩
  all_goals
    rw [length_scFrame] at hapart htop hout
    unfold userTop at hcur htop hhi
  · rw [State.setReg_of_ne (by decide), State.setReg_of_ne (by decide), hrsp₂]
  · rw [State.setReg_of_ne (by decide), State.setReg_of_ne (by decide), hp.regs .r12 (by decide), hr12]
  · rw [State.setReg_of_ne (by decide), State.setReg_self, hrax₂]
  · rw [State.setReg_self, hrsp₂]
  · rw [State.setReg_mem, State.setReg_mem, userStackOff,
      readWord_congr fun x hx hx' => hout x (by omega), enteredMem]
    exact readWord_writeWord (by omega)
  · rw [State.setReg_mem, State.setReg_mem, readWord_congr fun x hx hx' => hout x (by omega),
      enteredMem, readWord_writeWord_of_out (by omega)]
    exact readWord_writeWord (h.regs .r12)

end Entry

/-! ### The switch to the child -/

section Switch

variable {s : State} {me tsp kstack code : ℕ} {f : Reg → ℕ}

/-- The part of `__switch_to` on the stack of `me`. -/
def saveContext : List Instr :=
  .cli :: savedRegs.reverse.map .push ++ [.pushfq, .push .rax, .push .rcx, .store .rsp 0x18 .rax]

/-- The switch to the stack of `next`, the first three words of the `context_info`, and the store to `last`. -/
def loadResults : List Instr :=
  [.load 0x18 .rbx .rsp, .pop .rcx, .store .rax 0 .rcx, .pop .rax, .popfq]

/-- The part on the stack of `next`. -/
def loadContext : List Instr := loadResults ++ savedRegs.map .pop

theorem switchTo_eq : switchTo = saveContext ++ (loadContext ++ [.sti, .ret]) := rfl

/-- What the first part leaves as it was; it takes 16 words of the stack. -/
structure ContextSaved (s s' : State) : Prop where
  rax : s'.regs .rax = s.regs .rax
  rbx : s'.regs .rbx = s.regs .rbx
  mem : ∀ x, x < s.regs .rsp - 8 * contextInfo.length ∨ s.regs .rsp ≤ x →
    x < s.regs .rax + kernelStackOff ∨ s.regs .rax + userStackOff ≤ x → s'.mem x = s.mem x

theorem saveContext_spec (hregs : ∀ r, s.regs r < 2 ^ 64)
    (hlo : 8 * contextInfo.length ≤ s.regs .rsp) (hme : s.regs .rax + 4096 < 2 ^ 64) :
    ContextSaved s (runBlock s saveContext) := by
  have hlen : savedRegs.reverse.length = 13 := rfl
  rw [length_contextInfo] at hlo
  have hhi := hregs .rsp
  obtain ⟨s₁, hs₁⟩ : ∃ s₁, s₁ = exec s .cli := ⟨_, rfl⟩
  have hregs₁ : s₁.regs = s.regs := by rw [hs₁]; rfl
  have hmem₁ : s₁.mem = s.mem := by rw [hs₁]; rfl
  rw [← hregs₁] at hlo hhi hme hregs
  -- the registers, then `rflags`, `%rax` and `%rcx`
  have h₂ := (runBlock_pushes (fun r _ => hregs r) (by decide) (by rw [hlen]; omega) hhi :
    Pushed s₁ (runBlock s₁ (savedRegs.reverse.map .push)) savedRegs.reverse).deeper
  obtain ⟨s₂, hs₂⟩ : ∃ s₂, s₂ = runBlock s₁ (savedRegs.reverse.map .push) := ⟨_, rfl⟩
  rw [← hs₂, hlen] at h₂
  have h₃ := h₂.trans (deeper_push (w := s₂.rflags) (by rw [h₂.rsp]; omega) (by rw [h₂.rsp]; omega))
  obtain ⟨s₃, hs₃⟩ : ∃ s₃, s₃ = s₂.push s₂.rflags := ⟨_, rfl⟩
  rw [← hs₃] at h₃
  have h₄ := h₃.trans (deeper_push (w := s₃.regs .rax) (by rw [h₃.rsp]; omega) (by rw [h₃.rsp]; omega))
  obtain ⟨s₄, hs₄⟩ : ∃ s₄, s₄ = s₃.push (s₃.regs .rax) := ⟨_, rfl⟩
  rw [← hs₄] at h₄
  have h₅ := h₄.trans (deeper_push (w := s₄.regs .rcx) (by rw [h₄.rsp]; omega) (by rw [h₄.rsp]; omega))
  obtain ⟨s₅, hs₅⟩ : ∃ s₅, s₅ = s₄.push (s₄.regs .rcx) := ⟨_, rfl⟩
  rw [← hs₅] at h₅
  have hrax : s₅.regs .rax = s.regs .rax := by rw [h₅.regs .rax (by decide), hregs₁]
  have hrun : runBlock s saveContext =
      { s₅ with mem := writeWord s₅.mem (above (s₅.regs .rax) 0x18) (s₅.regs .rsp) } := by
    rw [saveContext, List.cons_append, runBlock_cons, runBlock_append, ← hs₁, ← hs₂]
    simp only [runBlock_cons, runBlock_nil, exec, ← hs₃, ← hs₄, ← hs₅]
  rw [hregs₁] at hme
  rw [hrun]
  refine ⟨hrax, ?_, fun x hx hxme => ?_⟩
  · rw [h₅.regs .rbx (by decide), hregs₁]
  · rw [length_contextInfo, ← hregs₁] at hx
    rw [kernelStackOff, userStackOff] at hxme
    dsimp only
    rw [hrax, above_eq (by omega), writeWord_of_out (by omega), h₅.mem x (by omega), hmem₁]

/-- The state in front of `ret_from_fork`. -/
structure ChildLoaded (s s' : State) (tsp kstack code : ℕ) : Prop where
  rip : s'.rip = code
  rax : s'.regs .rax = tsp
  r12 : s'.regs .r12 = tsp
  rsp : s'.regs .rsp = nsfOf kstack
  mem : ∀ x, x < tsp + lastOff ∨ tsp + kernelStackOff ≤ x → s'.mem x = s.mem x

theorem loadResults_spec (hctx : ContextAt s.mem tsp kstack code f) (hrbx : s.regs .rbx = tsp)
    (hpages : Apart tsp 4096 kstack 4096) (htsp : tsp + 4096 < 2 ^ 64)
    (hkst : kstack + 4096 < 2 ^ 64) :
    (runBlock s loadResults).mem = writeWord s.mem (tsp + lastOff) (s.regs .rax) ∧
      (runBlock s loadResults).regs .rsp = kstack + 3880 ∧ (runBlock s loadResults).regs .rax = tsp := by
  obtain ⟨-, -, hrcx, hrax, -, -, hkernel⟩ := hctx
  rw [ctxOf_eq] at hrcx hrax hkernel
  rw [kernelStackOff] at hkernel
  rw [lastOff] at hrcx ⊢
  unfold Apart at hpages
  have hoff : above tsp 0x18 = tsp + 0x18 := above_eq (by omega)
  have hlast : above (tsp + 0x10) 0 = tsp + 0x10 := above_eq (by omega)
  have h₁ : above (kstack + 3856) 8 = kstack + 3864 := above_eq (by omega)
  have h₂ : above (kstack + 3864) 8 = kstack + 3872 := above_eq (by omega)
  have h₃ : above (kstack + 3872) 8 = kstack + 3880 := above_eq (by omega)
  have hrax' : readWord (writeWord s.mem (tsp + 0x10) (s.regs .rax)) (kstack + 3864) = tsp := by
    rw [readWord_writeWord_of_out (by omega)]
    exact hrax
  simp only [loadResults, runBlock_cons, runBlock_nil, exec, State.drop, State.top, State.setReg, hrbx,
    hoff, hkernel, Function.update_self, Function.update_of_ne (show Reg.rsp ≠ Reg.rcx by decide),
    Function.update_of_ne (show Reg.rsp ≠ Reg.rax by decide),
    Function.update_of_ne (show Reg.rax ≠ Reg.rcx by decide),
    Function.update_of_ne (show Reg.rax ≠ Reg.rsp by decide), h₁, h₂, h₃, hrcx, hlast, hrax',
    and_self]

/-- **The first switch to a child**, whose stack is as `fork` left it. -/
theorem loadContext_spec (hctx : ContextAt s.mem tsp kstack code f) (hrbx : s.regs .rbx = tsp)
    (hpages : Apart tsp 4096 kstack 4096) (htsp : tsp + 4096 < 2 ^ 64)
    (hkst : kstack + 4096 < 2 ^ 64) :
    ChildLoaded s (runBlock s (loadContext ++ [.sti, .ret])) tsp kstack code := by
  obtain ⟨hmem, hrsp, hrax⟩ := loadResults_spec hctx hrbx hpages htsp hkst
  obtain ⟨-, hret, -, -, -, hsaved, -⟩ := hctx
  rw [retOf_eq] at hret
  rw [ctxOf_eq] at hsaved
  unfold Apart at hpages
  obtain ⟨s₁, hs₁⟩ : ∃ s₁, s₁ = runBlock s loadResults := ⟨_, rfl⟩
  rw [← hs₁] at hmem hrsp hrax
  rw [lastOff] at hmem
  have hlen : savedRegs.length = 13 := rfl
  have hwords : WordsAt s₁.mem (s₁.regs .rsp) (savedRegs.map fun r => if r = .r12 then tsp else 0) := by
    rw [hmem, hrsp]
    refine hsaved.congr fun x hlo hhi => writeWord_of_out ?_
    rw [List.length_map, hlen] at hhi
    omega
  have hp := runBlock_pops hwords (by decide) (by rw [hlen, hrsp]; omega)
  obtain ⟨s₂, hs₂⟩ : ∃ s₂, s₂ = runBlock s₁ (savedRegs.map .pop) := ⟨_, rfl⟩
  rw [← hs₂] at hp
  have hrsp₂ : s₂.regs .rsp = kstack + 3984 := by rw [hp.rsp, hlen, hrsp]
  have hret₂ : readWord s₂.mem (kstack + 3984) = code := by
    rw [hp.mem, hmem, readWord_writeWord_of_out (by omega)]
    exact hret
  have hrun : runBlock s (loadContext ++ [.sti, .ret]) = exec (exec s₂ .sti) .ret := by
    rw [loadContext, List.append_assoc, runBlock_append, runBlock_append, ← hs₁, ← hs₂]
    rfl
  obtain ⟨s₃, hs₃⟩ : ∃ s₃, s₃ = exec s₂ .sti := ⟨_, rfl⟩
  have hregs₃ : s₃.regs = s₂.regs := by rw [hs₃, exec]
  have hmem₃ : s₃.mem = s₂.mem := by rw [hs₃, exec]
  rw [hrun, ← hs₃]
  refine ⟨?_, ?_, ?_, ?_, fun x hx => ?_⟩
  · rw [exec, State.top, hmem₃, hregs₃, hrsp₂]
    exact hret₂
  · rw [exec, State.drop_of_ne (by decide), hregs₃, hp.other .rax (by decide) (by decide)]
    exact hrax
  · rw [exec, State.drop_of_ne (by decide), hregs₃]
    exact hp.regs .r12 (by decide)
  · rw [exec, State.drop_rsp (by rw [hregs₃]; omega), hregs₃, hrsp₂, nsfOf_eq]
  · rw [lastOff, kernelStackOff] at hx
    rw [exec, State.drop_mem, hmem₃, hp.mem, hmem, writeWord_of_out (by omega)]

end Switch

/-! ### Both tasks -/

/-- `fork` has returned to the handler, which was in `s`.  A call keeps the stack pointer and `%r12`; `m`
is the memory as `fork` wrote it, and what the parent still needs of it has not changed. -/
structure ForkReturns (s s' : State) (m : ℕ → ℕ) (cur top tsp u : ℕ) : Prop where
  rsp : s'.regs .rsp = s.regs .rsp
  r12 : s'.regs .r12 = s.regs .r12
  rax : s'.regs .rax = pidOf m tsp
  frame : ∀ x, top - 8 * scFrame.length ≤ x → x < top → s'.mem x = m x
  task : ∀ x, cur + userStackOff ≤ x → x < cur + userStackOff + 8 → s'.mem x = m x
  user : ∀ x, u ≤ x → x < u + 8 → s'.mem x = m x

/-- `__switch_to` is called with the child as `next`, in the address space of the child.  Another task
has its own pages in the kernel half, and so it has left those of the child as they were; nothing is said
of the user half, which `fork` leaves shared. -/
structure SwitchedIn (s : State) (m : ℕ → ℕ) (tsp kstack : ℕ) : Prop where
  regs : ∀ r, s.regs r < 2 ^ 64
  /-- The child is in `%rbx`, as the next task. -/
  next : s.regs .rbx = tsp
  /-- The task that is left is in `%rax`; its page is apart from those of the child. -/
  me : userTop ≤ s.regs .rax ∧ s.regs .rax + pgSize < 2 ^ 64 ∧
    Apart (s.regs .rax) pgSize tsp pgSize ∧ Apart (s.regs .rax) pgSize kstack pgSize
  /-- That task has room on its stack, which is apart from the pages of the child. -/
  stack : userTop + 8 * contextInfo.length ≤ s.regs .rsp ∧
    Apart (s.regs .rsp - 8 * contextInfo.length) (8 * contextInfo.length) tsp pgSize ∧
      Apart (s.regs .rsp - 8 * contextInfo.length) (8 * contextInfo.length) kstack pgSize
  /-- The stack page of the child is as `fork` left it. -/
  childStack : ∀ x, kstack ≤ x → x < kstack + pgSize → s.mem x = m x
  /-- The fields of the `task_struct` of the child are as `fork` left them. -/
  child : ∀ x, tsp + kernelStackOff ≤ x → x < tsp + userStackOff + 8 → s.mem x = m x

theorem ContextAt.congr {m m' : ℕ → ℕ} {tsp kstack code : ℕ} {f : Reg → ℕ}
    (h : ContextAt m tsp kstack code f) (hstack : ∀ x, kstack ≤ x → x < kstack + 4096 → m' x = m x)
    (htask : ∀ x, tsp + kernelStackOff ≤ x → x < tsp + kernelStackOff + 8 → m' x = m x) :
    ContextAt m' tsp kstack code f := by
  obtain ⟨hframe, hret, hrcx, hrax, hrflags, hsaved, hkernel⟩ := h
  have hword : ∀ a, kstack ≤ a → a + 8 ≤ kstack + 4096 → readWord m' a = readWord m a :=
    fun a hlo hhi => readWord_congr fun x hx hx' => hstack x (by omega) (by omega)
  refine ⟨hframe.congr fun x hlo hhi => ?_, ?_, ?_, ?_, ?_, hsaved.congr fun x hlo hhi => ?_, ?_⟩
  · rw [nsfOf_eq] at hlo hhi
    rw [List.length_map, length_scFrame] at hhi
    exact hstack x (by omega) (by omega)
  · rw [← hret, retOf_eq, hword _ (by omega) (by omega)]
  · rw [← hrcx, ctxOf_eq, hword _ (by omega) (by omega)]
  · rw [← hrax, ctxOf_eq, hword _ (by omega) (by omega)]
  · rw [← hrflags, ctxOf_eq, hword _ (by omega) (by omega)]
  · have hlen : savedRegs.length = 13 := rfl
    rw [ctxOf_eq] at hlo hhi
    rw [List.length_map, hlen] at hhi
    exact hstack x (by omega) (by omega)
  · rw [← hkernel, readWord_congr htask]

section Both

variable {s : State} {sym pidCount cur top tsp kstack code x : ℕ} {mem : ℕ → ℕ}

/-- What `fork` leaves alone. -/
theorem forkStack_of_out (ht : x < tsp ∨ tsp + 4096 ≤ x) (hk : x < kstack ∨ kstack + 4096 ≤ x)
    (hp : x < pidCount ∨ pidCount + 4 ≤ x) (sf : ℕ) :
    forkStack mem cur tsp kstack sf code pidCount x = mem x := by
  rw [forkStack, forkContext_of_out ht hk, forkTaskMem_of_out ht hk hp]

theorem forkStack_spec (hplaces : ForkPlaces sym pidCount cur top tsp kstack) (hcode : code < 2 ^ 64)
    {f : Reg → ℕ} (hf : ∀ r, f r < 2 ^ 64)
    (hframe : WordsAt mem (top - 8 * scFrame.length) (scFrame.map f)) :
    ContextAt (forkStack mem cur tsp kstack (top - 8 * scFrame.length) code pidCount) tsp kstack code f
      := by
  have hpages := hplaces.pages
  obtain ⟨hft, hfk, -⟩ := hplaces.frame
  obtain ⟨-, -, -, hpf⟩ := hplaces.pid
  refine forkContext_spec (fun a hlo hhi => readWord_forkTaskMem hpages ⟨hlo, hhi⟩) ?_ hf hfk hpages hcode
    hplaces.endLt.2.2.1 hplaces.endLt.2.2.2
  refine hframe.congr fun x hlo hhi => forkTaskMem_of_out ?_ ?_ ?_ <;>
    rw [List.length_map] at hhi <;> unfold Apart pgSize at * <;> omega

/-- The word that `fork` copies from the caller. -/
theorem forkStack_userStack (hplaces : ForkPlaces sym pidCount cur top tsp kstack) (sf : ℕ) {u : ℕ}
    (hu : u < 2 ^ 64) (hstack : readWord mem (cur + userStackOff) = u) :
    readWord (forkStack mem cur tsp kstack sf code pidCount) (tsp + userStackOff) = u := by
  have htask := hplaces.task
  have hpid := hplaces.pid.2.2.1
  unfold Apart pgSize at htask hpid
  unfold userStackOff at hstack ⊢
  have hkeep : readWord (forkTaskMem mem tsp kstack pidCount) (cur + 0x20) = u := by
    rw [readWord_congr fun x hlo hhi => forkTaskMem_of_out (by omega) (by omega) (by omega)]
    exact hstack
  obtain ⟨hrcx, hrax, hr12⟩ := contextField_eq (kstack + 3856)
  have hlast : readWord (forkStack mem cur tsp kstack sf code pidCount) (tsp + 0x20) =
      readWord (writeWord (fun x => 0) (tsp + 0x20) u) (tsp + 0x20) := by
    simp (disch := omega) only [forkStack, forkContext, nsfOf_eq, retOf_eq, ctxOf_eq, hrcx, hrax, hr12,
      copyScFrame_eq, kernelStackOff, userStackOff, readWord_writeWord_of_out,
      readWord_copyWords_of_out, hkeep, readWord_writeWord]
  rw [hlast]
  exact readWord_writeWord hu

/-- The entry of the system call, and `fork`. -/
structure Forked (s : State) (m : ℕ → ℕ) (cur top tsp kstack code : ℕ) : Prop where
  context : ContextAt m tsp kstack code s.regs
  frame : WordsAt m (top - 8 * scFrame.length) (scFrame.map s.regs)
  userStack : readWord m (cur + userStackOff) = s.regs .rsp - 8
  childStack : readWord m (tsp + userStackOff) = s.regs .rsp - 8
  userWord : readWord m (s.regs .rsp - 8) = s.regs .r12

theorem forked (hplaces : ForkPlaces sym pidCount cur top tsp kstack) (hcode : code < 2 ^ 64)
    (hentry : SyscallEntry s sym cur top) :
    Forked s (forkStack (runBlock s (syscallHandler sym)).mem cur tsp kstack
      (top - 8 * scFrame.length) code pidCount) cur top tsp kstack code := by
  obtain ⟨hsym, hpidLo, hcurLo, htopLo, htspLo, hkstLo⟩ := hplaces.kernel
  obtain ⟨hcurHi, htopHi, htspHi, hkstHi⟩ := hplaces.endLt
  obtain ⟨hft, hfk, hfc⟩ := hplaces.frame
  obtain ⟨hpt, hpk, hpc, hpf⟩ := hplaces.pid
  have htask := hplaces.task
  have hentered := syscallHandler_spec hentry hsym ⟨hcurLo, hcurHi⟩ htopLo htopHi hfc
  obtain ⟨s₁, hs₁⟩ : ∃ s₁, s₁ = runBlock s (syscallHandler sym) := ⟨_, rfl⟩
  rw [← hs₁] at hentered ⊢
  obtain ⟨hlo, hhi⟩ := hentry.rsp
  have hlt := hentry.regs .rsp
  have hcontext : ContextAt (forkStack s₁.mem cur tsp kstack (top - 8 * scFrame.length) code pidCount)
      tsp kstack code s.regs := forkStack_spec hplaces hcode hentry.regs hentered.frame
  have hchild : readWord (forkStack s₁.mem cur tsp kstack (top - 8 * scFrame.length) code pidCount)
      (tsp + userStackOff) = s.regs .rsp - 8 :=
    forkStack_userStack hplaces (top - 8 * scFrame.length) (by omega) hentered.userStack
  refine ⟨hcontext, hentered.frame.congr fun x hx hx' => ?_, ?_, hchild, ?_⟩
  · rw [List.length_map] at hx'
    exact forkStack_of_out (by unfold Apart pgSize at *; omega) (by unfold Apart pgSize at *; omega)
      (by unfold Apart at *; omega) _
  · rw [← hentered.userStack]
    refine readWord_congr fun x hx hx' => ?_
    unfold Apart pgSize userStackOff at *
    exact forkStack_of_out (by omega) (by omega) (by omega) _
  · rw [← hentered.userWord]
    refine readWord_congr fun x hx hx' => ?_
    unfold userTop at *
    exact forkStack_of_out (by omega) (by omega) (by omega) _

/-- The registers of a task that is back in the user half, but for `%rax`, and its kernel stack. -/
structure Returned (s s' : State) (task top : ℕ) : Prop where
  regs : ∀ r, r ≠ .rax → s'.regs r = s.regs r
  kernelStack : readWord s'.mem (task + kernelStackOff) = top

/-- After the registers, only `%rax` is left to change.  `%r12` comes from the stack of the user. -/
theorem Restored.returned_iff {s₁ s₂ s₃ : State} {task : ℕ}
    (h : Restored s₁ s₂ task (s.regs .rsp - 8) s.regs) (hrsp : 8 ≤ s.regs .rsp)
    (htop : s₁.regs .rsp + 8 * scFrame.length = top)
    (hregs : ∀ r, r ≠ .rax → s₃.regs r = s₂.regs r) (hmem : s₃.mem = s₂.mem) :
    Returned s s₃ task top ↔ readWord s₁.mem (s.regs .rsp - 8) = s.regs .r12 := by
  constructor
  · intro hret
    rw [← h.r12, ← hregs .r12 (by decide)]
    exact hret.regs .r12 (by decide)
  · intro huser
    refine ⟨fun r hr => ?_, by rw [hmem, h.kernelStack, htop]⟩
    rw [hregs r hr]
    have hcases : r ∈ scFrame ∨ r = .r12 ∨ r = .rsp := by
      cases r <;> first | exact absurd rfl hr | decide
    obtain hmem | rfl | rfl := hcases
    · exact h.frame r hmem
    · rw [h.r12, huser]
    · rw [h.rsp]
      omega

theorem parent_returned {m : ℕ → ℕ} {s' s₁ : State} (hentry : SyscallEntry s sym cur top)
    (hcur : userTop ≤ cur ∧ cur + 4096 < 2 ^ 64) (htop : 8 * scFrame.length ≤ top ∧ top < 2 ^ 64)
    (hentered : Entered s s₁ cur top) (hforked : Forked s m cur top tsp kstack code)
    (hret : ForkReturns s₁ s' m cur top tsp (s.regs .rsp - 8)) :
    Returned s (runBlock s' syscallReturn) cur top ∧
      (runBlock s' syscallReturn).regs .rax = pidOf m tsp ∧
        ∀ x, x < cur + kernelStackOff ∨ cur + userStackOff ≤ x →
          (runBlock s' syscallReturn).mem x = s'.mem x := by
  obtain ⟨hlo, hhi⟩ := hentry.rsp
  have hrsp : s'.regs .rsp = top - 8 * scFrame.length := by rw [hret.rsp, hentered.rsp]
  have hframe : WordsAt s'.mem (s'.regs .rsp) (scFrame.map s.regs) := by
    rw [hrsp]
    refine hforked.frame.congr fun x hx hx' => hret.frame x hx ?_
    rw [List.length_map] at hx'
    omega
  have hstack : readWord s'.mem (cur + userStackOff) = s.regs .rsp - 8 := by
    rw [readWord_congr hret.task, hforked.userStack]
  have huser : readWord s'.mem (s.regs .rsp - 8) = s.regs .r12 := by
    rw [readWord_congr hret.user, hforked.userWord]
  have hrestored := restoreUser_spec hframe (by rw [hret.r12, hentered.r12]) hcur
    (by rw [hrsp]; omega) hstack (by omega)
  obtain ⟨s₂, hs₂⟩ : ∃ s₂, s₂ = runBlock s' restoreUser := ⟨_, rfl⟩
  rw [← hs₂] at hrestored
  have hrun : runBlock s' syscallReturn = exec (exec s₂ .sti) .sysret := by
    rw [syscallReturn_eq, runBlock_append, ← hs₂, runBlock_cons, runBlock_cons, runBlock_nil]
  rw [hrun]
  have hiff : Returned s (exec (exec s₂ .sti) .sysret) cur top ↔ _ :=
    hrestored.returned_iff hlo (by rw [hrsp]; omega) (fun r _ => rfl) rfl
  refine ⟨hiff.2 huser, ?_, fun x hx => ?_⟩
  · rw [exec, exec, hrestored.rax]
    exact hret.rax
  · rw [← hrestored.mem x hx]
    rfl

/-- **The child comes back** with the registers of the call exactly if the word that was pushed on the
stack of the user is still there when it is switched to. -/
theorem child_returned_iff {m : ℕ → ℕ} {t : State} (hentry : SyscallEntry s sym cur top)
    (htsp : userTop ≤ tsp ∧ tsp + 4096 < 2 ^ 64) (hkst : userTop ≤ kstack ∧ kstack + 4096 < 2 ^ 64)
    (hpages : Apart tsp 4096 kstack 4096) (hforked : Forked s m cur top tsp kstack code)
    (hin : SwitchedIn t m tsp kstack) :
    (runBlock t switchTo).rip = code ∧ (runBlock (runBlock t switchTo) retFromFork).regs .rax = 0 ∧
      (Returned s (runBlock (runBlock t switchTo) retFromFork) tsp (kstack + pgSize) ↔
        readWord t.mem (s.regs .rsp - 8) = s.regs .r12) := by
  obtain ⟨hlo, hhi⟩ := hentry.rsp
  obtain ⟨hmeLo, hmeHi, hmeT, hmeK⟩ := hin.me
  obtain ⟨hspLo, hspT, hspK⟩ := hin.stack
  unfold pgSize userTop at *
  have hsaved := saveContext_spec hin.regs (by omega) hmeHi
  obtain ⟨t₁, ht₁⟩ : ∃ t₁, t₁ = runBlock t saveContext := ⟨_, rfl⟩
  rw [← ht₁] at hsaved
  rw [length_contextInfo] at hspLo hspT hspK
  have hmem := hsaved.mem
  simp only [length_contextInfo, kernelStackOff, userStackOff] at hmem
  unfold Apart at hmeT hmeK hspT hspK
  have hkeepK : ∀ x, kstack ≤ x → x < kstack + 4096 → t₁.mem x = m x := by
    intro x hx hx'
    rw [hmem x (by omega) (by omega), hin.childStack x hx hx']
  have hkeepT : ∀ x, tsp + 0x18 ≤ x → x < tsp + 0x28 → t₁.mem x = m x := by
    intro x hx hx'
    rw [hmem x (by omega) (by omega), hin.child x hx hx']
  have hcontext : ContextAt t₁.mem tsp kstack code s.regs :=
    hforked.context.congr hkeepK fun x hx hx' => hkeepT x hx (by rw [kernelStackOff] at hx'; omega)
  -- the stack of the child
  have hloaded := loadContext_spec hcontext (by rw [hsaved.rbx, hin.next]) hpages htsp.2 hkst.2
  obtain ⟨t₂, ht₂⟩ : ∃ t₂, t₂ = runBlock t₁ (loadContext ++ [.sti, .ret]) := ⟨_, rfl⟩
  rw [← ht₂] at hloaded
  have hswitch : runBlock t switchTo = t₂ := by rw [switchTo_eq, runBlock_append, ← ht₁, ← ht₂]
  have hmem₂ := hloaded.mem
  rw [lastOff, kernelStackOff] at hmem₂
  have hframe : WordsAt t₂.mem (t₂.regs .rsp) (scFrame.map s.regs) := by
    rw [hloaded.rsp]
    refine hcontext.frame.congr fun x hx hx' => hmem₂ x ?_
    rw [List.length_map, length_scFrame] at hx'
    rw [nsfOf_eq] at hx hx'
    unfold Apart at hpages
    omega
  have hstack : readWord t₂.mem (tsp + userStackOff) = s.regs .rsp - 8 := by
    rw [← hforked.childStack, userStackOff]
    refine readWord_congr fun x hx hx' => ?_
    rw [hmem₂ x (by omega), hkeepT x (by omega) (by omega)]
  have huser : readWord t₂.mem (s.regs .rsp - 8) = readWord t.mem (s.regs .rsp - 8) := by
    refine readWord_congr fun x hx hx' => ?_
    rw [hmem₂ x (by omega), hmem x (by omega) (by omega)]
  have hend : t₂.regs .rsp + 8 * scFrame.length = kstack + 4096 := by
    rw [hloaded.rsp, nsfOf_eq, length_scFrame]
  have hrestored := restoreUser_spec hframe hloaded.r12 htsp (by rw [hend]; exact hkst.2) hstack
    (by unfold userTop; omega)
  obtain ⟨t₃, ht₃⟩ : ∃ t₃, t₃ = runBlock t₂ restoreUser := ⟨_, rfl⟩
  rw [← ht₃] at hrestored
  have hrun : runBlock t₂ retFromFork = exec (exec (exec t₃ (.movImm 0 .rax)) .sti) .sysret := by
    rw [retFromFork_eq, runBlock_append, ← ht₃, runBlock_cons, runBlock_cons, runBlock_cons,
      runBlock_nil]
  rw [hswitch, hrun, ← huser]
  refine ⟨hloaded.rip, ?_, hrestored.returned_iff hlo hend (fun r hr => ?_) rfl⟩
  · rw [exec, exec, exec, State.setReg_self]
  · rw [exec, exec, exec, State.setReg_of_ne hr]

/-- Both tasks come back with the registers of the call, but for the results: the parent is in `s'` when
`fork` has returned, and the child is switched to in `t`. -/
structure ForkRestores (s s' t : State) (m : ℕ → ℕ) (cur top tsp kstack code : ℕ) : Prop where
  /-- The parent returns with its registers. -/
  parent : Returned s (runBlock s' syscallReturn) cur top
  /-- The parent has the pid of the child in `%rax`. -/
  pid : (runBlock s' syscallReturn).regs .rax = pidOf m tsp
  /-- The child starts at `ret_from_fork`. -/
  rip : (runBlock t switchTo).rip = code
  /-- The child returns with the registers of the parent. -/
  child : Returned s (runBlock (runBlock t switchTo) retFromFork) tsp (kstack + pgSize)
  /-- The child has 0 in `%rax`. -/
  zero : (runBlock (runBlock t switchTo) retFromFork).regs .rax = 0

/-- **The registers after a `fork`.**  The parent always comes back with the registers of the call; both
tasks do exactly if the child finds `%r12` on the stack of the user, which it shares with the parent. -/
theorem fork_restores_iff {m : ℕ → ℕ} {s' t : State}
    (hplaces : ForkPlaces sym pidCount cur top tsp kstack) (hcode : code < 2 ^ 64)
    (hentry : SyscallEntry s sym cur top)
    (hm : m = forkStack (runBlock s (syscallHandler sym)).mem cur tsp kstack
      ((runBlock s (syscallHandler sym)).regs .rsi) code pidCount)
    (hret : ForkReturns (runBlock s (syscallHandler sym)) s' m cur top tsp (s.regs .rsp - 8))
    (hin : SwitchedIn t m tsp kstack) :
    ForkRestores s s' t m cur top tsp kstack code ↔ readWord t.mem (s.regs .rsp - 8) = s.regs .r12 := by
  obtain ⟨hsym, -, hcurLo, htopLo, htspLo, hkstLo⟩ := hplaces.kernel
  obtain ⟨hcurHi, htopHi, htspHi, hkstHi⟩ := hplaces.endLt
  have hentered : Entered s (runBlock s (syscallHandler sym)) cur top :=
    syscallHandler_spec hentry hsym ⟨hcurLo, hcurHi⟩ htopLo htopHi hplaces.frame.2.2
  have hforked : Forked s m cur top tsp kstack code := by
    rw [hm, hentered.rsi]
    exact forked hplaces hcode hentry
  obtain ⟨hparent, hpid, -⟩ :=
    parent_returned hentry ⟨hcurLo, hcurHi⟩ ⟨by omega, htopHi⟩ hentered hforked hret
  obtain ⟨hrip, hzero, hiff⟩ :=
    child_returned_iff hentry ⟨htspLo, htspHi⟩ ⟨hkstLo, hkstHi⟩ hplaces.pages hforked hin
  exact ⟨fun h => hiff.1 h.child, fun h => ⟨hparent, hpid, hrip, hiff.2 h, hzero⟩⟩

end Both

/-! ### Runs of one caller -/

/-- A call with the `task_struct` in the page in front of its kernel stack. -/
def forkCaller (rsp : ℕ) : State where
  regs r := if r = .rsp then rsp else if r = .rbx then 3 else 57
  rflags := 514
  rip := 0x400000
  mem := writeWord (writeWord (fun _ => 0) 0xffffffff80300000 0xffffffff80400000)
    0xffffffff80400018 0xffffffff80402000

/-- What `fork` leaves in memory after this call. -/
def forkCallerMem (rsp : ℕ) : ℕ → ℕ :=
  forkStack (runBlock (forkCaller rsp) (syscallHandler 0xffffffff80300000)).mem 0xffffffff80400000
    0xffffffff80403000 0xffffffff80404000
    ((runBlock (forkCaller rsp) (syscallHandler 0xffffffff80300000)).regs .rsi) 0xffffffff80201234
    0xffffffff80300008

/-- `fork` returns without another change. -/
def forkCallerBack (rsp : ℕ) : State :=
  { runBlock (forkCaller rsp) (syscallHandler 0xffffffff80300000) with mem := forkCallerMem rsp }.setReg
    .rax (pidOf (forkCallerMem rsp) 0xffffffff80403000)

/-- The caller is back, goes on with another `%r12`, and makes its next system call. -/
def forkCallerAgain (r12 : ℕ) : State :=
  runBlock (exec (runBlock (forkCallerBack 0x7fffffffe000) syscallReturn) (.movImm r12 .r12))
    (syscallHandler 0xffffffff80300000)

/-- In this call it calls `__switch_to` for the child. -/
def forkCallerSwitch (r12 : ℕ) : State where
  regs r := if r = .rax then 0xffffffff80400000 else if r = .rbx then 0xffffffff80403000
    else if r = .rsp then 0xffffffff80401f00 else 0
  rflags := 2
  rip := 0
  mem := (forkCallerAgain r12).mem

theorem forkCaller_places : ForkPlaces 0xffffffff80300000 0xffffffff80300008 0xffffffff80400000
    0xffffffff80402000 0xffffffff80403000 0xffffffff80404000 :=
  ⟨by decide, by decide, by decide, by decide, by decide, by decide⟩

theorem forkCaller_current (rsp : ℕ) :
    readWord (forkCaller rsp).mem 0xffffffff80300000 = 0xffffffff80400000 := by
  rw [forkCaller, readWord_writeWord_of_out (by decide), readWord_writeWord (by decide)]

theorem forkCaller_kernelStack (rsp : ℕ) :
    readWord (forkCaller rsp).mem (0xffffffff80400000 + kernelStackOff) = 0xffffffff80402000 :=
  readWord_writeWord (by decide)

theorem forkCaller_regs {rsp : ℕ} (h : rsp < 2 ^ 64) (r : Reg) : (forkCaller rsp).regs r < 2 ^ 64 := by
  rw [forkCaller]
  dsimp only
  split_ifs
  · exact h
  · decide
  · decide

theorem forkCaller_entry : SyscallEntry (forkCaller 0x7fffffffe000) 0xffffffff80300000 0xffffffff80400000
    0xffffffff80402000 :=
  ⟨forkCaller_regs (by decide), by decide, forkCaller_current _, forkCaller_kernelStack _⟩

theorem forkCallerBack_returns (rsp u : ℕ) :
    ForkReturns (runBlock (forkCaller rsp) (syscallHandler 0xffffffff80300000)) (forkCallerBack rsp)
      (forkCallerMem rsp) 0xffffffff80400000 0xffffffff80402000 0xffffffff80403000 u := by
  have hmem : (forkCallerBack rsp).mem = forkCallerMem rsp := by rw [forkCallerBack, State.setReg_mem]
  have hregs : ∀ r, r ≠ .rax → (forkCallerBack rsp).regs r =
      (runBlock (forkCaller rsp) (syscallHandler 0xffffffff80300000)).regs r := fun r hr => by
    rw [forkCallerBack, State.setReg_of_ne hr]
  exact ⟨hregs .rsp (by decide), hregs .r12 (by decide), by rw [forkCallerBack, State.setReg_self],
    fun x _ _ => by rw [hmem], fun x _ _ => by rw [hmem], fun x _ _ => by rw [hmem]⟩

theorem forkCaller_entered : Entered (forkCaller 0x7fffffffe000)
    (runBlock (forkCaller 0x7fffffffe000) (syscallHandler 0xffffffff80300000)) 0xffffffff80400000
    0xffffffff80402000 :=
  syscallHandler_spec forkCaller_entry (by decide) (by decide) (by decide) (by decide) (by decide)

theorem forkCaller_forked : Forked (forkCaller 0x7fffffffe000) (forkCallerMem 0x7fffffffe000)
    0xffffffff80400000 0xffffffff80402000 0xffffffff80403000 0xffffffff80404000 0xffffffff80201234 := by
  rw [forkCallerMem, forkCaller_entered.rsi]
  exact forked forkCaller_places (by decide) forkCaller_entry

/-- The next system call of the caller writes the word on the stack of the user, and its own pages. -/
theorem forkCallerSwitch_in (r12 : ℕ) (hr12 : r12 < 2 ^ 64) :
    SwitchedIn (forkCallerSwitch r12) (forkCallerMem 0x7fffffffe000) 0xffffffff80403000
      0xffffffff80404000 ∧ readWord (forkCallerSwitch r12).mem (0x7fffffffe000 - 8) = r12 := by
  have hentered := forkCaller_entered
  have hpid : pidOf (forkCallerMem 0x7fffffffe000) 0xffffffff80403000 < 2 ^ 64 := by decide +kernel
  obtain ⟨hback, hrax, hkept⟩ := parent_returned forkCaller_entry (by decide) (by decide) hentered
    forkCaller_forked (forkCallerBack_returns 0x7fffffffe000 _)
  obtain ⟨p, hp⟩ : ∃ p, p = exec (runBlock (forkCallerBack 0x7fffffffe000) syscallReturn) (.movImm r12 .r12) :=
    ⟨_, rfl⟩
  -- the memory of the caller in its own code
  have hmem : ∀ x, x < 0xffffffff80400000 + kernelStackOff ∨ 0xffffffff80400000 + userStackOff ≤ x →
      p.mem x = forkCallerMem 0x7fffffffe000 x := fun x hx => by
    rw [hp, exec, State.setReg_mem, hkept x hx, forkCallerBack, State.setReg_mem]
  have hcurrent : readWord p.mem 0xffffffff80300000 = 0xffffffff80400000 := by
    rw [← forkCaller_current 0x7fffffffe000]
    refine readWord_congr fun x hx hx' => ?_
    rw [hmem x (by unfold kernelStackOff; omega), forkCallerMem,
      forkStack_of_out (by omega) (by omega) (by omega), hentered.mem x (by rw [length_scFrame]; omega), enteredMem,
      writeWord_of_out (by omega), writeWord_of_out (.inr ?_)]
    exact le_trans (by decide) hx
  have hrsp : p.regs .rsp = 0x7fffffffe000 := by
    rw [hp, exec, State.setReg_of_ne (by decide)]
    exact hback.regs .rsp (by decide)
  have hentry : SyscallEntry p 0xffffffff80300000 0xffffffff80400000 0xffffffff80402000 := by
    refine ⟨fun r => ?_, by rw [hrsp]; decide, hcurrent, ?_⟩
    · rw [hp, exec]
      by_cases hr : r = .r12
      · rw [hr, State.setReg_self]
        exact hr12
      · rw [State.setReg_of_ne hr]
        by_cases hr' : r = .rax
        · rw [hr', hrax]
          exact hpid
        · rw [hback.regs r hr']
          exact forkCaller_regs (by decide) r
    · rw [hp, exec, State.setReg_mem]
      exact hback.kernelStack
  have hagain : Entered p (forkCallerAgain r12) 0xffffffff80400000 0xffffffff80402000 := by
    rw [forkCallerAgain, ← hp]
    exact syscallHandler_spec hentry (by decide) (by decide) (by decide) (by decide) (by decide)
  have hchild : ∀ x, 0xffffffff80403000 ≤ x →
      (forkCallerSwitch r12).mem x = forkCallerMem 0x7fffffffe000 x := by
    intro x hx
    rw [forkCallerSwitch, hagain.mem x (.inr (by omega)), enteredMem, hrsp, writeWord_of_out (by omega),
      writeWord_of_out (by omega), hmem x (.inr (by unfold userStackOff; omega))]
  have hswitchRax : (forkCallerSwitch r12).regs .rax = 0xffffffff80400000 := rfl
  have hswitchRsp : (forkCallerSwitch r12).regs .rsp = 0xffffffff80401f00 := rfl
  refine ⟨⟨fun r => ?_, rfl, by rw [hswitchRax]; decide, by rw [hswitchRsp]; decide,
    fun x hx _ => hchild x (by omega), fun x hx _ => hchild x ?_⟩, ?_⟩
  · rw [forkCallerSwitch]
    dsimp only
    split_ifs <;> decide
  · unfold kernelStackOff at hx
    omega
  · have hsame : (forkCallerSwitch r12).mem = (forkCallerAgain r12).mem := by rw [forkCallerSwitch]
    have hword := hagain.userWord
    rw [hrsp, hp, exec, State.setReg_self] at hword
    rw [hsame]
    exact hword

/-- The next call comes with the same `%r12`. -/
theorem fork_restores_iff_same :
    ForkRestores (forkCaller 0x7fffffffe000) (forkCallerBack 0x7fffffffe000) (forkCallerSwitch 57)
        (forkCallerMem 0x7fffffffe000) 0xffffffff80400000 0xffffffff80402000 0xffffffff80403000
        0xffffffff80404000 0xffffffff80201234 ∧
      readWord (forkCallerSwitch 57).mem (0x7fffffffe000 - 8) = 57 := by
  have hin := forkCallerSwitch_in 57 (by decide)
  exact ⟨(fork_restores_iff forkCaller_places (by decide) forkCaller_entry rfl (forkCallerBack_returns _ _)
    hin.1).2 hin.2, hin.2⟩

/-- **The child gets a wrong `%r12`** when the parent makes its next system call, with another one, before
the child is switched to. -/
theorem fork_restores_fails :
    ¬ ∀ (s s' t : State) (m : ℕ → ℕ) (sym pidCount cur top tsp kstack code : ℕ),
      ForkPlaces sym pidCount cur top tsp kstack → code < 2 ^ 64 → SyscallEntry s sym cur top →
        m = forkStack (runBlock s (syscallHandler sym)).mem cur tsp kstack
          ((runBlock s (syscallHandler sym)).regs .rsi) code pidCount →
          ForkReturns (runBlock s (syscallHandler sym)) s' m cur top tsp (s.regs .rsp - 8) →
            SwitchedIn t m tsp kstack → ForkRestores s s' t m cur top tsp kstack code := by
  intro h
  have hin := forkCallerSwitch_in 3 (by decide)
  have hall := h (forkCaller 0x7fffffffe000) (forkCallerBack 0x7fffffffe000) (forkCallerSwitch 3)
    (forkCallerMem 0x7fffffffe000) _ 0xffffffff80300008 _ _ _ 0xffffffff80404000 0xffffffff80201234
    forkCaller_places (by decide) forkCaller_entry rfl (forkCallerBack_returns _ _) hin.1
  obtain ⟨-, -, hiff⟩ := child_returned_iff forkCaller_entry (by decide) (by decide) (by decide)
    forkCaller_forked hin.1
  have hword : readWord (forkCallerSwitch 3).mem (0x7fffffffe000 - 8) = 57 := hiff.1 hall.child
  rw [hin.2] at hword
  exact absurd hword (by decide)

end PlumOs
