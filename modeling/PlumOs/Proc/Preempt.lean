import PlumOs.Proc.Contexts

/-!
# Interrupts and system calls (`sys/timer.s`, `sys/kbd.s`, `sys/pgfault.s`, `sys/entry.s`)

The wrappers of the handlers push the registers in front of what the processor pushed, and pop them when
the handler has returned.  In the meantime the task may have called `__switch_to`, and other tasks have run.

* `Isr.enter`, `Isr.leave` : the wrappers, up to the call of the handler and from it on;
* `Contexts.GuardsFrame` : a task leaves a part of its stack alone while it runs;
* `Contexts.frame_of_run` : **that part is as it was**, whatever the other tasks do;
* `Contexts.interrupt_transparent` : **the code that was interrupted goes on** as if nothing had happened;
* `Contexts.syscall_returns` : **a system call returns** behind the instruction, with all registers but the
  result.
-/

namespace PlumOs

open X86

/-! ### The wrappers -/

/-- The handlers in assembly that the table of the interrupts names. -/
inductive Isr where
  | timer | kbd | pageFault
  deriving DecidableEq, Repr

/-- The registers that a wrapper pushes. -/
def isrRegs : List Reg :=
  [.rbp, .rax, .rbx, .rcx, .rdx, .rsi, .rdi, .r8, .r9, .r10, .r11, .r12, .r13, .r14, .r15]

/-- `cld`.  The direction flag is bit 10. -/
def cld (s : State) : State := { s with rflags := s.rflags / 2048 * 2048 + s.rflags % 1024 }

namespace Isr

/-- Exceptions have the gate of a trap, and an error code. -/
def trap : Isr → Bool
  | timer => false
  | kbd => false
  | pageFault => true

/-- Up to the call of the handler; a page fault comes with its address in `%cr2`. -/
def enter (cr2 : ℕ) (s : State) : Isr → State
  | timer => cld (runBlock s (isrRegs.map .push))
  | kbd => cld (runBlock s (isrRegs.map .push))
  | pageFault =>
    runBlock s (.cli :: (isrRegs.map .push ++ [.movImm cr2 .rdi, .load 0x78 .rsp .rsi, .load 0x80 .rsp .rdx]))

/-- From the call of the handler on, up to `iretq`. -/
def leave (s : State) : Isr → State
  | timer => runBlock s (isrRegs.reverse.map .pop ++ [.sti])
  | kbd => runBlock s (isrRegs.reverse.map .pop ++ [.sti])
  | pageFault => exec (runBlock s (isrRegs.reverse.map .pop)).drop .sti

/-- The words of a wrapper and of the processor on the stack. -/
def frame (m : Machine) (error : Option ℕ) : List ℕ :=
  isrRegs.reverse.map m.regs ++ (error.toList ++ m.words)

section Wrapper

variable {m : Machine} {s t : State} {isr : Isr} {error : Option ℕ} {ws : List ℕ}
  {rsp0 selector handler cr2 cs ss : ℕ} {trap : Bool}

theorem length_isrRegs : isrRegs.length = 15 := rfl

theorem length_frame (m : Machine) (error : Option ℕ) :
    (frame m error).length = 20 + error.toList.length := by
  rw [frame, List.length_append, List.length_append, List.length_map]
  show 15 + (error.toList.length + 5) = _
  omega

theorem toList_length_le (error : Option ℕ) : error.toList.length ≤ 1 := by
  cases error <;> simp only [Option.toList_none, Option.toList_some, List.length_nil, List.length_singleton]
  · exact Nat.zero_le 1
  · exact le_rfl

theorem rsp_notMem_isrRegs : Reg.rsp ∉ isrRegs := by decide

theorem mem_isrRegs {r : Reg} (h : r ≠ .rsp) : r ∈ isrRegs.reverse := by
  cases r <;> first | exact absurd rfl h | decide

/-- The state in front of the call of the handler. -/
structure Entered (m : Machine) (isr : Isr) (error : Option ℕ) (cr2 base : ℕ) (t : State) : Prop where
  fits : t.Fits
  rsp : t.regs .rsp + 8 * (frame m error).length = base
  words : WordsAt t.mem (t.regs .rsp) (frame m error)
  mem : ∀ x, x < t.regs .rsp ∨ base ≤ x → t.mem x = m.mem x
  args : isr = .pageFault → ∀ e ∈ error, t.regs .rdi = cr2 ∧ t.regs .rsi = e ∧ t.regs .rdx = m.rip

/-- The pushes of a wrapper, behind those of the processor. -/
theorem pushes_grown (h : m.Fits) (hlo : 168 ≤ m.base rsp0)
    (hhi : m.base rsp0 < 2 ^ 64)
    (hs : Grown (m.toState.setReg .rsp (m.base rsp0)) s (error.toList ++ m.words)) :
    Grown (m.toState.setReg .rsp (m.base rsp0)) (runBlock s (isrRegs.map .push)) (frame m error) := by
  have hrsp := hs.rsp
  have hlen : (error.toList ++ m.words).length = error.toList.length + 5 := List.length_append
  have herr := toList_length_le error
  have hne : ∀ r ∈ isrRegs, r ≠ .rsp := fun r hr heq => rsp_notMem_isrRegs (heq ▸ hr)
  rw [hlen, State.setReg_self] at hrsp
  have hpush := hs.pushes isrRegs
    (fun r hr => by rw [State.setReg_of_ne (hne r hr)]; exact h.regs r) rsp_notMem_isrRegs
    (by rw [length_isrRegs]; omega) (by omega)
  have hmap : isrRegs.reverse.map (m.toState.setReg .rsp (m.base rsp0)).regs = isrRegs.reverse.map m.regs :=
    List.map_congr_left fun r hr => State.setReg_of_ne (hne r (List.mem_reverse.1 hr))
  rw [hmap] at hpush
  exact hpush

theorem Fits.of_grown (h : m.Fits) (hg : Grown (m.toState.setReg .rsp (m.base rsp0)) t ws)
    (hbase : m.base rsp0 < 2 ^ 64) (r : Reg) : t.regs r < 2 ^ 64 := by
  have hrsp := hg.rsp
  rw [State.setReg_self] at hrsp
  by_cases hr : r = .rsp
  · rw [hr]
    omega
  · rw [hg.regs r hr, State.setReg_of_ne hr]
    exact h.regs r

theorem Fits.pushed (h : m.Fits) (hs : s.rflags < 2 ^ 64) (hip : s.rip < 2 ^ 64)
    (hg : Grown (m.toState.setReg .rsp (m.base rsp0)) (runBlock s (isrRegs.map .push)) ws)
    (hbase : m.base rsp0 < 2 ^ 64) : State.Fits (runBlock s (isrRegs.map .push)) := by
  refine ⟨Fits.of_grown h hg hbase, ?_, ?_⟩
  · rw [runBlock_pushes_eq s rsp_notMem_isrRegs, foldl_push_rflags]
    exact hs
  · rw [runBlock_pushes_eq s rsp_notMem_isrRegs, foldl_push_rip]
    exact hip

/-- The arguments of `page_fault_handler`, behind the pushes. -/
theorem pageFault_eq (cr2 : ℕ) (ht : runBlock (exec s .cli) (isrRegs.map .push) = t) :
    enter cr2 s .pageFault = ((t.setReg .rdi cr2).setReg .rsi (readWord t.mem (above (t.regs .rsp) 0x78))).setReg
      .rdx (readWord t.mem (above (t.regs .rsp) 0x80)) := by
  rw [enter, runBlock_cons, runBlock_append, ht]
  simp only [runBlock_cons, runBlock_nil, exec, State.setReg_mem,
    State.setReg_of_ne (show Reg.rsp ≠ Reg.rsi by decide), State.setReg_of_ne (show Reg.rsp ≠ Reg.rdi by decide)]

/-- **A wrapper is entered.**  All registers of the interrupted code are on the stack. -/
theorem enter_spec (h : m.Fits) (herror : ∀ e ∈ error, e < 2 ^ 64) (hisr : error.isSome = isr.trap)
    (hlo : 168 ≤ m.base rsp0) (hhi : m.base rsp0 < 2 ^ 64) (hhandler : handler < 2 ^ 64)
    (hcr2 : cr2 < 2 ^ 64) :
    Entered m isr error cr2 (m.base rsp0) (enter cr2 (m.deliver rsp0 8 handler isr.trap error).toState isr) := by
  have hdeliver := Machine.deliver_grown h herror (by omega) hhi 8 handler isr.trap
  have hflags : (m.deliver rsp0 8 handler isr.trap error).rflags < 2 ^ 64 := by
    rw [Machine.deliver]
    dsimp only
    split_ifs
    · exact h.rflags
    · exact setIf_lt h.rflags false
  obtain ⟨d, hd⟩ : ∃ d, d = (m.deliver rsp0 8 handler isr.trap error).toState := ⟨_, rfl⟩
  have hip : d.rip < 2 ^ 64 := by rw [hd]; exact hhandler
  rw [← hd] at hdeliver hflags ⊢
  have hsetmem : (m.toState.setReg .rsp (m.base rsp0)).mem = m.mem := rfl
  have hsetrsp : (m.toState.setReg .rsp (m.base rsp0)).regs .rsp = m.base rsp0 := State.setReg_self
  have hinterrupt : isr ≠ .pageFault → Entered m isr error cr2 (m.base rsp0)
      (cld (runBlock d (isrRegs.map .push))) := by
    intro hne
    have hg := pushes_grown h hlo hhi hdeliver
    have hfits := Fits.pushed h hflags hip hg hhi
    obtain ⟨p, hp⟩ : ∃ p, p = runBlock d (isrRegs.map .push) := ⟨_, rfl⟩
    rw [← hp] at hg hfits ⊢
    have hcld : (cld p).rflags < 2 ^ 64 := by
      have hlt := hfits.rflags
      rw [cld]
      dsimp only
      omega
    exact ⟨⟨hfits.regs, hcld, hfits.rip⟩, hsetrsp ▸ hg.rsp, hg.words, fun x hx => hg.mem x (hsetrsp.symm ▸ hx),
      fun heq => absurd heq hne⟩
  cases isr with
  | timer => exact hinterrupt (by decide)
  | kbd => exact hinterrupt (by decide)
  | pageFault =>
    obtain ⟨e, rfl⟩ := Option.isSome_iff_exists.1 hisr
    have hcli : Grown (m.toState.setReg .rsp (m.base rsp0)) (exec d .cli) ((some e).toList ++ m.words) :=
      hdeliver.congr rfl rfl fun _ _ => rfl
    have hg := pushes_grown h hlo hhi hcli
    have hfits := Fits.pushed (s := exec d .cli) h (setIf_lt hflags false) hip hg hhi
    obtain ⟨p, hp⟩ : ∃ p, p = runBlock (exec d .cli) (isrRegs.map .push) := ⟨_, rfl⟩
    have hrun := pageFault_eq cr2 hp.symm
    rw [← hp] at hg hfits
    have hrsp := hg.rsp
    have hlen := length_frame m (some e)
    rw [hsetrsp, hlen] at hrsp
    rw [Option.toList_some, List.length_singleton] at hrsp hlen
    have hwords := wordsAt_iff.1 hg.words
    have hoff : above (p.regs .rsp) 0x78 = p.regs .rsp + 8 * 15 := above_eq (by omega)
    have hoff' : above (p.regs .rsp) 0x80 = p.regs .rsp + 8 * 16 := above_eq (by omega)
    have hcode : readWord p.mem (p.regs .rsp + 8 * 15) = e := hwords 15 (by omega)
    have hrip : readWord p.mem (p.regs .rsp + 8 * 16) = m.rip := hwords 16 (by omega)
    rw [hoff, hoff', hcode, hrip] at hrun
    rw [hrun]
    have hself : (((p.setReg .rdi cr2).setReg .rsi e).setReg .rdx m.rip).regs .rsp = p.regs .rsp := rfl
    refine ⟨⟨fun r => ?_, hfits.rflags, hfits.rip⟩, ?_, hg.words, fun x hx => hg.mem x (hsetrsp.symm ▸ hx),
      fun _ e' he' => ?_⟩
    · simp only [State.setReg, Function.update_apply]
      split_ifs
      · exact h.rip
      · exact herror e rfl
      · exact hcr2
      · exact hfits.regs r
    · rw [hself, hlen]
      exact hrsp
    · obtain rfl := Option.some.inj he'
      exact ⟨rfl, rfl, rfl⟩

/-- **A wrapper is left.**  From its frame it brings back the code that was interrupted. -/
theorem leave_spec (hisr : error.isSome = isr.trap) (hwords : WordsAt s.mem (s.regs .rsp) (frame m error))
    (hhi : s.regs .rsp + 168 ≤ 2 ^ 64) (cs ss : ℕ) :
    Machine.iretq ⟨isr.leave s, cs, ss⟩ = { m with mem := s.mem } := by
  have hrsp : Reg.rsp ∉ isrRegs.reverse := by decide
  have hlen : isrRegs.reverse.length = 15 := rfl
  have hback := Machine.resumes (m := m) (fun r hr => mem_isrRegs hr) hrsp hwords (by rw [hlen]; omega) cs ss
  cases isr with
  | timer =>
    simp only [hisr, trap] at hback
    rw [leave, runBlock_append]
    exact hback _
  | kbd =>
    simp only [hisr, trap] at hback
    rw [leave, runBlock_append]
    exact hback _
  | pageFault =>
    simp only [hisr, trap] at hback
    rw [leave]
    exact hback _

end Wrapper

end Isr

/-! ### Frames -/

namespace Contexts

/-- The part of the kernel stack of a task from an address on, and its `user_stack`. -/
def InFrame (me : TaskPages) (floor x : ℕ) : Prop :=
  (floor ≤ x ∧ x < me.stack + pgSize) ∨ (me.task + userStackOff ≤ x ∧ x < me.task + userStackOff + 8)

/-- While the task runs it leaves its frame alone, and it is neither freed nor does it start a program,
which would not come back. -/
def GuardsFrame (me : TaskPages) (floor : ℕ) (c : Contexts) : ContextAct → Prop
  | .work s => c.current = me.task → ∀ x, InFrame me floor x → s.mem x = c.machine.mem x
  | .exec _ _ _ => c.current ≠ me.task
  | .freeProcess task => task ≠ me.task
  | .switchTo _ _ => c.current = me.task → c.machine.regs .rsp ≤ floor
  | _ => True

/-- The frame of a task is as it was. -/
structure HasFrame (me : TaskPages) (floor : ℕ) (mem : ℕ → ℕ) (c : Contexts) : Prop where
  holds : ∃ cpus, c.Holds cpus
  task : me ∈ c.tasks
  frame : ∀ x, InFrame me floor x → c.machine.mem x = mem x

section Frame

variable {boot c c' c₁ c₂ : Contexts} {cpus : ℕ → RegFile} {a : ContextAct} {me p q : TaskPages}
  {mem : ℕ → ℕ} {floor x sym top ret : ℕ} {before acts : List ContextAct} {cpu : RegFile} {s s' : State}

theorem frame_of_kept (h : me.Kept mem s.mem) (hfloor : me.stack ≤ floor) (hx : InFrame me floor x) :
    s.mem x = mem x := by
  rcases hx with ⟨hlo, hhi⟩ | ⟨hlo, hhi⟩
  · exact h.stack x (by omega) hhi
  · unfold userStackOff at hlo
    exact h.task x (by unfold kernelStackOff; omega) hhi

/-- A switch of the task itself, or to it. -/
theorem frame_of_switched (h : Switched s s' p q ret cpu)
    (hroom : p.stack + 136 ≤ s.regs .rsp ∧ s.regs .rsp ≤ p.stack + pgSize)
    (hme : me = p ∧ s.regs .rsp ≤ floor ∨ me.Disjoint p) (hme' : me = q ∨ me.Disjoint q) (hown : me.Own)
    (hfloor : me.stack ≤ floor) (hx : InFrame me floor x) : s'.mem x = s.mem x := by
  obtain ⟨hlo, hhi⟩ := hroom
  obtain ⟨hown, -, -⟩ := hown
  have hcontext : x + 136 < s.regs .rsp ∨ s.regs .rsp ≤ x := by
    rcases hme with ⟨rfl, hbelow⟩ | ⟨-, htask, -, hstack⟩ <;>
      unfold Apart InFrame userStackOff pgSize at * <;> omega
  have hleft : x < p.task + kernelStackOff ∨ p.task + userStackOff ≤ x := by
    clear hcontext hlo hhi
    rcases hme with ⟨rfl, -⟩ | ⟨htask, -, hstack, -⟩ <;>
      unfold Apart InFrame kernelStackOff userStackOff pgSize at * <;> omega
  have hlast : x < q.task + lastOff ∨ q.task + kernelStackOff ≤ x := by
    clear hcontext hleft hlo hhi hme
    rcases hme' with rfl | ⟨htask, -, hstack, -⟩ <;>
      unfold Apart InFrame kernelStackOff userStackOff lastOff pgSize at * <;> omega
  exact h.mem x hcontext hleft hlast

/-- **One step** leaves the frame alone. -/
theorem HasFrame.step (h : HasFrame me floor mem c) (hfloor : me.stack ≤ floor) (ha : c.Allowed a)
    (hguard : c.GuardsFrame me floor a) (hs : c.step a = .ok c') : HasFrame me floor mem c' := by
  obtain ⟨cpus, hholds⟩ := h.holds
  suffices hsame : me ∈ c'.tasks ∧ ∀ x, InFrame me floor x → c'.machine.mem x = c.machine.mem x from
    ⟨⟨_, hholds.step ha hs⟩, hsame.1, fun x hx => (hsame.2 x hx).trans (h.frame x hx)⟩
  cases a with
  | work s =>
    obtain rfl := Except.ok.inj hs
    refine ⟨h.task, fun x hx => ?_⟩
    by_cases hcur : me.task = c.current
    · exact hguard hcur.symm x hx
    · exact frame_of_kept (s := s) (ha.2 me h.task hcur) hfloor hx
  | kernelThread p func pidCount =>
    obtain rfl := Except.ok.inj hs
    exact ⟨List.mem_cons_of_mem p h.task, fun x hx => frame_of_kept
      (ha.1.kept h.task fun x ht hk hpid => kernelThreadStack_of_out ht hk hpid) hfloor hx⟩
  | fork p sf code pidCount =>
    obtain rfl := Except.ok.inj hs
    exact ⟨List.mem_cons_of_mem p h.task, fun x hx => frame_of_kept
      (ha.1.kept h.task fun x ht hk hpid => forkStack_of_out ht hk hpid sf) hfloor hx⟩
  | exec stack userStack entry =>
    have hkept := hholds.step_kept ha hs h.task (Ne.symm hguard)
    obtain rfl := Except.ok.inj hs
    exact ⟨mem_map_moved h.task (Ne.symm hguard), fun x hx =>
      frame_of_kept (hkept (Ne.symm hguard)) hfloor hx⟩
  | freeProcess task =>
    obtain rfl := Except.ok.inj hs
    exact ⟨List.mem_filter.2 ⟨h.task, decide_eq_true (Ne.symm hguard)⟩, fun _ _ => rfl⟩
  | switchTo next ret =>
    obtain ⟨p, hp, q, hq, hcurrent, -, -, hroom, hsw, -, htasks⟩ := hholds.switched ha hs
    refine ⟨htasks ▸ h.task, fun x hx => ?_⟩
    have hme : me = p ∧ c.machine.regs .rsp ≤ floor ∨ me.Disjoint p := by
      by_cases heq : me = p
      · exact .inl ⟨heq, hguard (heq ▸ hcurrent.symm)⟩
      · exact .inr (hholds.placed.disjoint me h.task p hp heq)
    have hme' : me = q ∨ me.Disjoint q := or_iff_not_imp_left.2 (hholds.placed.disjoint me h.task q hq)
    exact frame_of_switched hsw hroom hme hme' (hholds.placed.own me h.task) hfloor hx

/-- **The frame of a task is as it was**, whatever the other tasks do. -/
theorem frame_of_run (floor : ℕ) (h : c₁.Holds cpus) (hme : me ∈ c₁.tasks) (hfloor : me.stack ≤ floor)
    (hacts : Along Contexts.step (fun c a => c.Allowed a ∧ c.GuardsFrame me floor a) c₁ acts)
    (hc₂ : run Contexts.step c₁ acts = .ok c₂) (hx : InFrame me floor x) :
    c₂.machine.mem x = c₁.machine.mem x := by
  have hfirst : HasFrame me floor c₁.machine.mem c₁ := ⟨⟨cpus, h⟩, hme, fun _ _ => rfl⟩
  have hlast := run_invariant hfirst (fun s a s' hs ha hstep => hs.step hfloor ha.1 ha.2 hstep) hacts hc₂
  exact hlast.frame x hx

end Frame

/-! ### Interrupts -/

section Interrupt

variable {boot c c₂ : Contexts} {cpus : ℕ → RegFile} {me : TaskPages} {s : State} {before acts : List ContextAct}

/-- The kernel comes to a state in which the other tasks are as they were. -/
theorem Holds.work (h : c.Holds cpus) (hfits : s.Fits)
    (hkept : ∀ p ∈ c.tasks, p.task ≠ c.current → p.Kept c.machine.mem s.mem) :
    ∃ cpus, ({ c with machine := s } : Contexts).Holds cpus :=
  ⟨_, h.step (a := .work s) ⟨hfits, hkept⟩ rfl⟩

/-- The stack of a task is no part of another task. -/
theorem kept_of_stack {lo hi : ℕ} {mem : ℕ → ℕ} (h : c.Holds cpus) (hme : me ∈ c.tasks)
    (hcur : me.task = c.current) (hlo : me.stack ≤ lo) (hhi : hi ≤ me.stack + pgSize)
    (hmem : ∀ x, x < lo ∨ hi ≤ x → mem x = c.machine.mem x) :
    ∀ p ∈ c.tasks, p.task ≠ c.current → p.Kept c.machine.mem mem := by
  intro p hp hne
  have hpm : p ≠ me := fun heq => hne (heq ▸ hcur)
  obtain ⟨-, hts, -, hss⟩ := h.placed.disjoint p hp me hme hpm
  unfold Apart at hts hss
  refine ⟨fun x hx hx' => hmem x (by omega), fun x hx hx' => ?_⟩
  unfold kernelStackOff at hx
  unfold userStackOff at hx'
  unfold pgSize at hts hhi
  exact hmem x (by omega)

/-- **The code that was interrupted goes on** as if nothing had happened.  The handler runs on the stack of
the task, above the frame of the wrapper, and other tasks may run before it returns. -/
theorem interrupt_transparent (me : TaskPages) (m : Machine) (isr : Isr) (error : Option ℕ)
    (rsp0 handler cr2 : ℕ) (hboot : boot.Booted) (hbefore : Along Contexts.step Allowed boot before)
    (hc : run Contexts.step boot before = .ok c) (hme : me ∈ c.tasks) (hcur : me.task = c.current)
    (hm : m.toState = c.machine) (hcs : m.cs < 2 ^ 64 ∧ m.ss < 2 ^ 64) (herror : ∀ e ∈ error, e < 2 ^ 64)
    (hisr : error.isSome = isr.trap) (hhandler : handler < 2 ^ 64) (hcr2 : cr2 < 2 ^ 64)
    (hbase : me.stack + 168 ≤ m.base rsp0 ∧ m.base rsp0 ≤ me.stack + pgSize)
    (hs : s = isr.enter cr2 (m.deliver rsp0 8 handler isr.trap error).toState)
    (hacts : Along Contexts.step (fun c a => c.Allowed a ∧ c.GuardsFrame me (s.regs .rsp) a)
      { c with machine := s } acts)
    (hc₂ : run Contexts.step { c with machine := s } acts = .ok c₂)
    (hrsp : c₂.machine.regs .rsp = s.regs .rsp) (cs ss : ℕ) :
    Machine.iretq ⟨isr.leave c₂.machine, cs, ss⟩ = { m with mem := c₂.machine.mem } ∧
      (∀ x, m.base rsp0 ≤ x → x < me.stack + pgSize → c₂.machine.mem x = m.mem x) ∧
        (isr = .pageFault → ∀ e ∈ error, s.regs .rdi = cr2 ∧ s.regs .rsi = e ∧ s.regs .rdx = m.rip) := by
  obtain ⟨cpus, hholds⟩ := holds_of_run hboot hbefore hc
  obtain ⟨hlo, hhi⟩ := hbase
  obtain ⟨-, -, hstack⟩ := hholds.placed.own me hme
  have hfits : m.Fits := ⟨hm ▸ hholds.fits, hcs.1, hcs.2⟩
  have hentered : Isr.Entered m isr error cr2 (m.base rsp0) s := by
    rw [hs]
    exact Isr.enter_spec hfits herror hisr (by omega) (by omega) hhandler hcr2
  have hend := hentered.rsp
  have hlen := Isr.length_frame m error
  have herr := Isr.toList_length_le error
  have haligned : m.base rsp0 % 16 = 0 := Nat.mul_mod_left _ 16
  have hmem : ∀ x, x < s.regs .rsp ∨ m.base rsp0 ≤ x → s.mem x = c.machine.mem x := fun x hx => by
    rw [hentered.mem x hx, hm]
  obtain ⟨cpus', hholds'⟩ := hholds.work hentered.fits
    (kept_of_stack hholds hme hcur (by omega) hhi hmem)
  have hframe := fun x hx => frame_of_run (x := x) (s.regs .rsp) hholds' hme (by omega) hacts hc₂
    (.inl hx)
  refine ⟨Isr.leave_spec hisr (hrsp ▸ hentered.words.congr fun x hx hx' => hframe x ⟨hx, by omega⟩)
    (by omega) cs ss, fun x hx hx' => ?_, hentered.args⟩
  rw [hframe x ⟨by omega, hx'⟩, hm]
  exact hmem x (.inr hx)

instance (me : TaskPages) (floor : ℕ) (c : Contexts) (next ret : ℕ) :
    Decidable (c.GuardsFrame me floor (.switchTo next ret)) := inferInstanceAs (Decidable (_ → _))

/-- The first task has started a thread, and then a program. -/
def execed : Contexts :=
  (booted.after threadA).after (.exec 0xffffffff80407000 0x7fffffffe000 0x400000)

/-- The program is interrupted by the timer. -/
def ticked : Machine := ⟨execed.machine, 0x1b, 0x23⟩

/-- In front of the call of `interrupt_handler_timer`. -/
def tickedIn : State :=
  Isr.timer.enter 0 (ticked.deliver 0xffffffff80408000 8 0xffffffff80200400 false none).toState

/-- The handler switches to the thread, which switches back. -/
theorem interrupt_transparent_timer :
    let c₂ := ({ execed with machine := tickedIn } : Contexts).after
        (.switchTo 0xffffffff80403000 0xffffffff80200010)
      |>.after (.switchTo 0xffffffff80400000 0xffffffff80201010)
    Machine.iretq ⟨Isr.timer.leave c₂.machine, 8, 0⟩ = { ticked with mem := c₂.machine.mem } ∧
      (∀ x, 0xffffffff80408000 ≤ x → x < 0xffffffff80408000 → c₂.machine.mem x = ticked.mem x) ∧
        (Isr.timer = .pageFault → ∀ e ∈ (none : Option ℕ),
          tickedIn.regs .rdi = 0 ∧ tickedIn.regs .rsi = e ∧ tickedIn.regs .rdx = ticked.rip) := by
  have hbefore : Along Contexts.step Allowed booted
      [threadA, .exec 0xffffffff80407000 0x7fffffffe000 0x400000] := by
    refine ⟨by decide +kernel, fun t ht => ?_⟩
    obtain rfl := Except.ok.inj ht
    exact ⟨by decide +kernel, fun _ _ => trivial⟩
  have hacts : Along Contexts.step (fun c a => c.Allowed a ∧
      c.GuardsFrame ⟨0xffffffff80400000, 0xffffffff80407000⟩ (tickedIn.regs .rsp) a)
        { execed with machine := tickedIn }
        [.switchTo 0xffffffff80403000 0xffffffff80200010, .switchTo 0xffffffff80400000 0xffffffff80201010] := by
    refine ⟨⟨by decide +kernel, by decide +kernel⟩, fun t ht => ?_⟩
    obtain rfl := Except.ok.inj ht
    exact ⟨⟨by decide +kernel, by decide +kernel⟩, fun _ _ => trivial⟩
  exact interrupt_transparent ⟨0xffffffff80400000, 0xffffffff80407000⟩ ticked .timer none 0xffffffff80408000
    0xffffffff80200400 0 booted_boots hbefore rfl (by decide) rfl rfl (by decide) (by decide) rfl (by decide)
    (by decide) (by decide) rfl hacts rfl (by decide +kernel) 8 0

end Interrupt

/-! ### System calls -/

section Syscall

variable {boot c c₁ c₂ : Contexts} {cpus : ℕ → RegFile} {me : TaskPages} {s : State} {sym cur top : ℕ}
  {before acts : List ContextAct}

/-- The entry of a system call leaves words in the registers. -/
theorem syscallHandler_fits (h : SyscallEntry s sym cur top) (hsym : userTop ≤ sym)
    (hcur : userTop ≤ cur ∧ cur + pgSize < 2 ^ 64) (hlo : 8 * scFrame.length ≤ top) (hend : top < 2 ^ 64)
    (hfits : s.Fits) : (runBlock s (syscallHandler sym)).Fits := by
  obtain ⟨-, hrsp, hr12, hregs⟩ := enterKernel_spec h hsym hcur
  have hflags : (runBlock s (enterKernel sym)).rflags = setIf s.rflags false := rfl
  have hrip : (runBlock s (enterKernel sym)).rip = s.rip := rfl
  obtain ⟨s₁, hs₁⟩ : ∃ s₁, s₁ = runBlock s (enterKernel sym) := ⟨_, rfl⟩
  rw [← hs₁] at hrsp hr12 hregs hflags hrip
  have hlt : ∀ r, s₁.regs r < 2 ^ 64 := by
    intro r
    by_cases hr : r = .rsp
    · rw [hr, hrsp]
      exact hend
    · by_cases hr' : r = .r12
      · rw [hr', hr12]
        unfold pgSize at hcur
        omega
      · rw [hregs r hr hr']
        exact hfits.regs r
  have hlen : scFrame.reverse.length = scFrame.length := rfl
  have hp : Pushed s₁ (runBlock s₁ (scFrame.reverse.map .push)) scFrame.reverse :=
    runBlock_pushes (fun r _ => hlt r) (by decide) (by rw [hlen, hrsp]; exact hlo) (hlt .rsp)
  have hflags₂ : (runBlock s₁ (scFrame.reverse.map .push)).rflags = s₁.rflags := by
    rw [runBlock_pushes_eq _ (by decide), foldl_push_rflags]
  have hrip₂ : (runBlock s₁ (scFrame.reverse.map .push)).rip = s₁.rip := by
    rw [runBlock_pushes_eq _ (by decide), foldl_push_rip]
  obtain ⟨s₂, hs₂⟩ : ∃ s₂, s₂ = runBlock s₁ (scFrame.reverse.map .push) := ⟨_, rfl⟩
  rw [← hs₂] at hp hflags₂ hrip₂
  have hlt₂ : ∀ r, s₂.regs r < 2 ^ 64 := by
    intro r
    by_cases hr : r = .rsp
    · rw [hr, hp.rsp]
      exact (Nat.sub_le _ _).trans_lt (hlt .rsp)
    · rw [hp.regs r hr]
      exact hlt r
  have hrun : runBlock s (syscallHandler sym) =
      ((s₂.setReg .rdi (s₂.regs .rax)).setReg .rsi (s₂.regs .rsp)) := by
    rw [syscallHandler_eq, runBlock_append, ← hs₁, runBlock_append, ← hs₂]
    simp only [runBlock_cons, runBlock_nil, exec, State.setReg_of_ne (show Reg.rsp ≠ Reg.rdi by decide)]
  rw [hrun]
  refine ⟨fun r => ?_, ?_, ?_⟩
  · simp only [State.setReg, Function.update_apply]
    split_ifs
    · exact hlt₂ .rsp
    · exact hlt₂ .rax
    · exact hlt₂ r
  · show s₂.rflags < 2 ^ 64
    rw [hflags₂, hflags]
    exact setIf_lt hfits.rflags false
  · show s₂.rip < 2 ^ 64
    rw [hrip₂, hrip]
    exact hfits.rip

/-- **A system call returns** behind the instruction with all registers but the result, and the kernel
stack is empty again.  The call runs on the stack of the task, above the frame, and other tasks may run
before it returns; the word that the handler pushed on the stack of the user is still there. -/
theorem syscall_returns (me : TaskPages) (hboot : boot.Booted)
    (hbefore : Along Contexts.step Allowed boot before) (hc : run Contexts.step boot before = .ok c)
    (hme : me ∈ c.tasks) (hcur : me.task = c.current) (hentry : SyscallEntry c.machine sym me.task top)
    (hsym : userTop ≤ sym) (hkernel : ∀ p ∈ c.tasks, userTop ≤ p.task ∧ userTop ≤ p.stack)
    (htop : me.stack + 8 * scFrame.length ≤ top ∧ top ≤ me.stack + pgSize)
    (hs : s = runBlock c.machine (syscallHandler sym))
    (hacts : Along Contexts.step (fun c a => c.Allowed a ∧ c.GuardsFrame me (s.regs .rsp) a)
      { c with machine := s } acts)
    (hc₂ : run Contexts.step { c with machine := s } acts = .ok c₂)
    (hrsp : c₂.machine.regs .rsp = s.regs .rsp) (hr12 : c₂.machine.regs .r12 = s.regs .r12)
    (huser : readWord c₂.machine.mem (c.machine.regs .rsp - 8) = readWord s.mem (c.machine.regs .rsp - 8)) :
    Returned c.machine (runBlock c₂.machine syscallReturn) me.task top ∧
      (runBlock c₂.machine syscallReturn).regs .rax = c₂.machine.regs .rax ∧
        (runBlock c₂.machine syscallReturn).rip = c.machine.regs .rcx ∧
          (runBlock c₂.machine syscallReturn).rflags = c.machine.regs .r11 ∧
            s.regs .rdi = c.machine.regs .rax ∧ WordsAt s.mem (s.regs .rsi) (scFrame.map c.machine.regs) := by
  obtain ⟨cpus, hholds⟩ := holds_of_run hboot hbefore hc
  obtain ⟨hown, htask, hstack⟩ := hholds.placed.own me hme
  obtain ⟨htaskLo, hstackLo⟩ := hkernel me hme
  obtain ⟨hlo, hhi⟩ := htop
  have hlen := length_scFrame
  have hkernelTask : userTop ≤ me.task ∧ me.task + 4096 < 2 ^ 64 := ⟨htaskLo, htask⟩
  have hentered := syscallHandler_spec hentry hsym hkernelTask (by omega) (by omega)
    (by unfold Apart pgSize at *; omega)
  have hfits := syscallHandler_fits hentry hsym hkernelTask (by omega) (by omega) hholds.fits
  rw [← hs] at hentered hfits
  obtain ⟨hrspLo, hrspHi⟩ := hentry.rsp
  have hsrsp := hentered.rsp
  -- the other tasks are in the kernel half
  have hkept : ∀ p ∈ c.tasks, p.task ≠ c.current → p.Kept c.machine.mem s.mem := by
    intro p hp hne
    have hpm : p ≠ me := fun heq => hne (heq ▸ hcur)
    obtain ⟨htt, hts, hst, hss⟩ := hholds.placed.disjoint p hp me hme hpm
    obtain ⟨hpTask, hpStack⟩ := hkernel p hp
    have hsame : ∀ x, userTop ≤ x → (x < me.task ∨ me.task + pgSize ≤ x) →
        (x < me.stack ∨ me.stack + pgSize ≤ x) → s.mem x = c.machine.mem x := by
      intro x hx hxt hxs
      unfold pgSize at hxt
      rw [hentered.mem x (by omega), enteredMem, writeWord_of_out (by omega), writeWord_of_out (by omega)]
    unfold Apart at htt hts hst hss
    refine ⟨fun x hx hx' => hsame x (by omega) (by omega) (by omega), fun x hx hx' => ?_⟩
    unfold kernelStackOff at hx
    unfold userStackOff at hx'
    unfold pgSize at htt hts
    exact hsame x (by omega) (by unfold pgSize; omega) (by unfold pgSize; omega)
  obtain ⟨cpus', hholds'⟩ := hholds.work hfits hkept
  have hframe := fun x hx => frame_of_run (x := x) (s.regs .rsp) hholds' hme (by omega) hacts hc₂ hx
  have hwords : WordsAt c₂.machine.mem (c₂.machine.regs .rsp) (scFrame.map c.machine.regs) := by
    rw [hrsp, hsrsp]
    refine hentered.frame.congr fun x hx hx' => hframe x (.inl ⟨by omega, ?_⟩)
    rw [List.length_map] at hx'
    omega
  have huserStack : readWord c₂.machine.mem (me.task + userStackOff) = c.machine.regs .rsp - 8 := by
    rw [readWord_congr fun x hx hx' => hframe x (.inr ⟨hx, hx'⟩)]
    exact hentered.userStack
  have hrestored := restoreUser_spec hwords (by rw [hr12, hentered.r12]) hkernelTask
    (by rw [hrsp, hsrsp]; omega) huserStack (by omega)
  obtain ⟨t, ht⟩ : ∃ t, t = runBlock c₂.machine restoreUser := ⟨_, rfl⟩
  rw [← ht] at hrestored
  have hrun : runBlock c₂.machine syscallReturn = exec (exec t .sti) .sysret := by
    rw [syscallReturn_eq, runBlock_append, ← ht, runBlock_cons, runBlock_cons, runBlock_nil]
  rw [hrun]
  have hiff : Returned c.machine (exec (exec t .sti) .sysret) me.task top ↔ _ :=
    hrestored.returned_iff hrspLo (by rw [hrsp, hsrsp]; omega) (fun r _ => rfl) rfl
  refine ⟨hiff.2 (huser.trans hentered.userWord), hrestored.rax, hrestored.frame .rcx (by decide), hrestored.frame .r11 (by decide),
    hentered.rdi, ?_⟩
  rw [hentered.rsi]
  exact hentered.frame

/-- A task that is in the code of its user. -/
def bootedUser : Contexts := ⟨forkCaller 0x7fffffffe000, 0xffffffff80400000, [⟨0xffffffff80400000, 0xffffffff80401000⟩]⟩

/-- In front of the call of `syscall_handler`, with a thread besides. -/
def called : State := runBlock (bootedUser.after threadA).machine (syscallHandler 0xffffffff80300000)

/-- During the call the thread runs. -/
theorem syscall_returns_switched :
    let c := bootedUser.after threadA
    let c₂ := ({ c with machine := called } : Contexts).after (.switchTo 0xffffffff80403000 0xffffffff80200010)
      |>.after (.switchTo 0xffffffff80400000 0xffffffff80201010)
    Returned c.machine (runBlock c₂.machine syscallReturn) 0xffffffff80400000 0xffffffff80402000 ∧
      (runBlock c₂.machine syscallReturn).regs .rax = c₂.machine.regs .rax ∧
        (runBlock c₂.machine syscallReturn).rip = c.machine.regs .rcx ∧
          (runBlock c₂.machine syscallReturn).rflags = c.machine.regs .r11 ∧
            called.regs .rdi = c.machine.regs .rax ∧
              WordsAt called.mem (called.regs .rsi) (scFrame.map c.machine.regs) := by
  have hboot : bootedUser.Booted := ⟨_, rfl, rfl, by decide, forkCaller_regs (by decide), by decide, by decide⟩
  have hbefore : Along Contexts.step Allowed bootedUser [threadA] := ⟨by decide +kernel, fun _ _ => trivial⟩
  have hentry : SyscallEntry (bootedUser.after threadA).machine 0xffffffff80300000 0xffffffff80400000
      0xffffffff80402000 :=
    ⟨forkCaller_regs (by decide), by decide, by decide +kernel, by decide +kernel⟩
  have hacts : Along Contexts.step (fun c a => c.Allowed a ∧
      c.GuardsFrame ⟨0xffffffff80400000, 0xffffffff80401000⟩ (called.regs .rsp) a)
        { bootedUser.after threadA with machine := called }
        [.switchTo 0xffffffff80403000 0xffffffff80200010, .switchTo 0xffffffff80400000 0xffffffff80201010] := by
    refine ⟨⟨by decide +kernel, by decide +kernel⟩, fun t ht => ?_⟩
    obtain rfl := Except.ok.inj ht
    exact ⟨⟨by decide +kernel, by decide +kernel⟩, fun _ _ => trivial⟩
  exact syscall_returns ⟨0xffffffff80400000, 0xffffffff80401000⟩ hboot hbefore rfl (by decide) rfl hentry
    (by decide) (by decide) (by decide) rfl hacts rfl (by decide +kernel) (by decide +kernel) (by decide +kernel)

end Syscall

end Contexts

end PlumOs
