import PlumOs.Libc.SbrkFail
import PlumOs.Vm.FlatRun

/-!
# The heap of a process in its address space

`malloc` manages the bytes from the start of the heap to `__curbrk`, and `sbrk` asks the kernel for more
with `brk`.  The kernel never moves its own break: each call adds an area from the start of the heap to
the new break over those that are there.

* `KernelHeap` : the functions of `libc/sbrk.c` over the kernel's `brk`, and `KernelHeap.allocator`, the
  allocator over them;
* `KernelHeap.faithful` : they do what they do on the heap alone, unless the kernel stops;
* `KernelHeap.Backed` : the heap of the process is in an area that may be written;
* `KernelState.step` : the calls of a process and the steps of the system, in any order;
* `blocks_are_usable` : **what `malloc` returned can be read and written**: no access to a live block
  ends the process.
-/

namespace PlumOs

/-! ### The functions over the kernel -/

/-- The heap of a process, and the system that it runs in. -/
structure KernelHeap where
  heap : Heap
  vm : Vm

/-- Why a call never comes back: the process is ended, or the kernel stops. -/
abbrev NoReturn : Type := Crash ⊕ Stop

namespace KernelHeap

section Model

variable (t : ℕ) (e : KernelHeap)

/-- The system call `brk` of the process `t`. -/
def sysBrk (newBreak : ℕ) : Except NoReturn (ℕ × KernelHeap) :=
  match e.vm.userMm t with
  | some (a, mm) =>
    match e.vm.brk a mm newBreak with
    | .error x => .error (.inr x)
    | .ok (ret, vm) => .ok (ret, { e with vm := vm })
  | none => .error (.inr (.nullDeref "brk"))

/-- `sbrk(incr)`, with `brk(addr)`, which stores what the kernel returns in `__curbrk`. -/
def sbrk (incr : ℕ) : Except NoReturn (Option ℕ × KernelHeap) :=
  if (e.heap.curbrk + incr) % wordRange > maxAddr then .ok (none, e)
  else if incr = 0 then .ok (some e.heap.curbrk, e)
  else
    match e.sysBrk t ((e.heap.curbrk + incr) % wordRange) with
    | .error x => .error x
    | .ok (ret, e') =>
      if ret = (e.heap.curbrk + incr) % wordRange then
        .ok (some e.heap.curbrk, { e' with heap := { e.heap with curbrk := ret } })
      else .ok (none, { e' with heap := { e.heap with curbrk := ret } })

/-- The allocator over the kernel. -/
def allocator : Allocator KernelHeap NoReturn where
  heap e := e.heap
  setHeap e h := { e with heap := h }
  sbrk e incr := e.sbrk t incr
  crash := .inl

end Model

/-- The break of the kernel is where the heap starts, and the heap that the process has is in an area that
may be written. -/
def Backed (t : ℕ) (e : KernelHeap) : Prop :=
  ∀ a mm, e.vm.userMm t = some (a, mm) → mm.brk = e.heap.userHeap ∧
    (e.heap.userHeap < e.heap.curbrk → ∃ vma ∈ mm.mmap, vma.vmStart = e.heap.userHeap ∧
      e.heap.curbrk ≤ vma.vmEnd ∧ vma.prot = .readWrite)

/-- The memory of the system is flat, and the heap of the process is in it. -/
structure Sound (img : Tarfs) (t : ℕ) (e : KernelHeap) : Prop where
  flat : ∃ F, Vm.Flattened img e.vm F
  backed : Backed t e

variable {img : Tarfs} {t n incr newBreak : ℕ} {e : KernelHeap} {h : Heap}

/-- Only the ends of the heap matter. -/
theorem Sound.congr (hs : Sound img t e) (hends : SameEnds e.heap h) :
    Sound img t { e with heap := h } := by
  refine ⟨hs.flat, fun a mm hmm => ?_⟩
  simp only [hends.1, hends.2]
  exact hs.backed a mm hmm

/-- What ended the call is the kernel's own. -/
def KernelStops (x : NoReturn) : Prop := ∃ stop, x = .inr stop

/-- **The system call** answers as the allocator expects, and the new break is the end of an area. -/
theorem sysBrk_spec (hs : Sound img t e) : Yields (e.sysBrk t newBreak) (fun x =>
    e.heap.sysBrk newBreak = .ok x.1 ∧ x.2.heap = e.heap ∧
      Sound img t { x.2 with heap := { e.heap with curbrk := x.1 } }) KernelStops := by
  obtain ⟨F, hF⟩ := hs.flat
  rw [sysBrk]
  cases ht : e.vm.userMm t with
  | none => exact ⟨_, rfl⟩
  | some y =>
    obtain ⟨a, mm⟩ := y
    obtain ⟨hbrk, -⟩ := hs.backed a mm ht
    simp only
    cases hok : e.vm.brk a mm newBreak with
    | error x => exact ⟨x, rfl⟩
    | ok x =>
      obtain ⟨ret, vm⟩ := x
      have hobserve : e.vm.observe (.brk t newBreak) = .ok (.asked t newBreak ret, vm) := by
        simp only [Vm.observe, ht, hok]
        rfl
      obtain ⟨F', -, hF'⟩ := (hF.brk t newBreak).of_eq_ok hobserve
      have hgrows := (Vm.brk_grows hF.inv a mm newBreak).of_eq_ok hok
      rcases hgrows with ⟨rfl, heq⟩ | ⟨h0, hlt, hret, s₁, hg, hvm⟩
      · obtain ⟨rfl, rfl⟩ := Prod.mk.inj heq
        refine ⟨?_, rfl, ⟨F', hF'⟩, fun b mm' ht' => ?_⟩
        · rw [Heap.sysBrk, if_pos rfl, hbrk]
        · obtain ⟨rfl, rfl⟩ := Prod.mk.inj (Option.some.inj (ht.symm.trans ht'))
          refine ⟨hbrk, fun hlt => ?_⟩
          simp only [hbrk] at hlt
          exact absurd hlt (lt_irrefl _)
      · simp only at hret hvm
        subst hret hvm
        have hlimit : Vm.heapLimit = heapLimit := rfl
        refine ⟨?_, rfl, ⟨F', hF'⟩, fun b mm' ht' => ?_⟩
        · rw [Heap.sysBrk, if_neg h0, ← hbrk, if_pos (hlimit ▸ hlt)]
        · have hmms : (s₁.insertVma a (heapVma mm.brk ret hlt)).mms =
              Function.update e.vm.mms a ((e.vm.mms a).map fun mm' =>
                { mm' with mmap := mm'.mmap ++ [heapVma mm.brk ret hlt] }) := by
            rw [← hg.mms]
            rfl
          have htasks : (s₁.insertVma a (heapVma mm.brk ret hlt)).tasks = e.vm.tasks := hg.tasks
          have hnew := Vm.userMm_of_added (t := t) hF.inv ht htasks hmms
          rw [if_pos rfl] at hnew
          obtain ⟨rfl, rfl⟩ := Prod.mk.inj (Option.some.inj (hnew.symm.trans ht'))
          exact ⟨hbrk, fun _ => ⟨heapVma mm.brk ret hlt, by simp, hbrk, le_rfl, rfl⟩⟩

/-- **`sbrk`** is that of the heap alone, and so are the functions above it. -/
theorem faithful (img : Tarfs) (t : ℕ) : (allocator t).Faithful (Sound img t) KernelStops where
  heap_setHeap _ _ := rfl
  setHeap _ _ hs hends := hs.congr hends
  sbrk e incr hs := by
    show Allocator.Agrees _ _ _ (e.heap.sbrk incr) (e.sbrk t incr)
    unfold sbrk Heap.sbrk
    split
    · exact ⟨rfl, hs⟩
    split
    · exact ⟨rfl, hs⟩
    have hbrk : Yields (e.sysBrk t ((e.heap.curbrk + incr) % wordRange)) _ _ := sysBrk_spec hs
    cases hok : e.sysBrk t ((e.heap.curbrk + incr) % wordRange) with
    | error x =>
      rw [hok] at hbrk
      exact .inl hbrk
    | ok x =>
      obtain ⟨ret, e'⟩ := x
      rw [hok] at hbrk
      obtain ⟨hret, -, hsound⟩ := hbrk
      simp only at hret hsound
      simp only [hret]
      split
      · exact ⟨rfl, hsound⟩
      · exact ⟨rfl, hsound⟩

end KernelHeap

/-! ### Runs of a process -/

/-- The process does not ask for the break itself, and it starts no other program. -/
def Vm.Act.LeavesHeap (t : ℕ) : Vm.Act → Prop
  | .exec q _ _ _ => q ≠ t
  | .brk q _ => q ≠ t
  | _ => True

instance decidableLeavesHeap (t : ℕ) : (act : Vm.Act) → Decidable (act.LeavesHeap t)
  | .exec q _ _ _ => inferInstanceAs (Decidable (q ≠ t))
  | .brk q _ => inferInstanceAs (Decidable (q ≠ t))
  | .kernelThread | .fork _ | .load _ _ | .store _ _ _ | .put _ _ _ | .keep _ | .exit _ => isTrue trivial

/-- An access of the process to the address goes through: the page is there, or it is after the fault,
unless there is no page left for it. -/
def Vm.Usable (s : Vm) (t x : ℕ) : Prop :=
  ∀ a mm, s.userMm t = some (a, mm) → ∀ write, (∃ f, s.translate mm.pgd x write = .granted f) ∨
    ∃ present, s.translate mm.pgd x write = .fault present ∧
      Yields (s.pageFaultHandler t mm x present write)
        (fun s' => s'.userMm t = some (a, mm) ∧ ∃ f, s'.translate mm.pgd x write = .granted f)
        fun e => e = .outOfMemory

/-- A process with its heap, and the allocations that were returned and not yet freed. -/
structure KernelState where
  heap : KernelHeap
  live : List (ℕ × ℕ)

/-- A call or store of the process, or a step of the system. -/
inductive UserAct where
  | heap (op : MallocOp)
  | system (act : Vm.Act)

namespace KernelState

/-- The process without the system. -/
def state (s : KernelState) : MallocState := ⟨s.heap.heap, s.live⟩

/-- One step. -/
def step (t : ℕ) (s : KernelState) : UserAct → Except NoReturn KernelState
  | .heap (.malloc n) =>
    match (KernelHeap.allocator t).malloc s.heap n with
    | .error x => .error x
    | .ok (r, e) => .ok ⟨e, addLive r n s.live⟩
  | .heap (.free p) => .ok ⟨{ s.heap with heap := s.heap.heap.free p }, s.live.filter fun x => x.1 ≠ p⟩
  | .heap (.store x v) => .ok ⟨{ s.heap with heap := s.heap.heap.put x v }, s.live⟩
  | .system act =>
    match s.heap.vm.step act with
    | .error x => .error (.inr x)
    | .ok vm => .ok ⟨{ s.heap with vm := vm }, s.live⟩

/-- A process that has not called `malloc` yet. -/
def start (userHeap : ℕ) (vm : Vm) : KernelState := ⟨⟨freshHeap userHeap, vm⟩, []⟩

/-- The process is there, its requests are ones that `malloc` can handle, and its break is left to it. -/
def Fair (t : ℕ) (s : KernelState) (act : UserAct) : Prop :=
  (s.heap.vm.userMm t).isSome ∧ match act with
    | .heap op => s.state.Fair op
    | .system act => s.heap.vm.Plain act ∧ act.LeavesHeap t

variable {img : Tarfs} {t a : ℕ} {s s' : KernelState} {act : UserAct} {mm : MmStruct}

/-- The heap is in order, and it is in the address space. -/
def Inv (img : Tarfs) (t : ℕ) (s : KernelState) : Prop := s.state.Inv ∧ s.heap.Sound img t

/-- A call of the process is one of the allocator alone. -/
theorem heap_step {op : MallocOp} (hs : s.heap.Sound img t) (hstep : s.step t (.heap op) = .ok s') :
    s.state.step op = .ok s'.state ∧ s'.heap.Sound img t := by
  cases op with
  | malloc n =>
    have hmalloc := (KernelHeap.faithful img t).malloc (n := n) hs
    simp only [step] at hstep
    cases hok : (KernelHeap.allocator t).malloc s.heap n with
    | error x =>
      rw [hok] at hstep
      cases hstep
    | ok x =>
      obtain ⟨r, e⟩ := x
      rw [hok] at hmalloc hstep
      have heq : s.heap.heap.malloc n = .ok (r, e.heap) := hmalloc.1
      have hsound : e.Sound img t := hmalloc.2
      cases hstep
      refine ⟨?_, hsound⟩
      simp only [MallocState.step, state, heq]
  | free p =>
    cases hstep
    exact ⟨rfl, hs.congr (s.heap.heap.sameEnds_free p)⟩
  | store x v =>
    cases hstep
    exact ⟨rfl, hs.congr ⟨rfl, rfl⟩⟩

/-- **A step of the system** leaves the heap of the process in its area. -/
theorem sound_system {act : Vm.Act} {vm : Vm} {e : KernelHeap} (hs : e.Sound img t)
    (hlive : (e.vm.userMm t).isSome) (hplain : e.vm.Plain act) (hleaves : act.LeavesHeap t)
    (hstep : e.vm.step act = .ok vm) : KernelHeap.Sound img t { e with vm := vm } := by
  obtain ⟨F, hF⟩ := hs.flat
  refine ⟨?_, fun b mm hmm => ?_⟩
  · rw [← Vm.follow_observe] at hstep
    obtain ⟨ev, hobserve⟩ := exists_of_follow_ok hstep
    obtain ⟨F', -, hF'⟩ := (hF.step hplain).of_eq_ok hobserve
    exact ⟨F', hF'⟩
  · cases (Vm.step_derived hF.inv act).of_eq_ok hstep t b mm hmm with
    | same was => exact hs.backed _ _ was
    | exec => exact absurd rfl hleaves
    | child parent fresh =>
      obtain ⟨x, hx⟩ := Option.isSome_iff_exists.1 hlive
      exact absurd fresh (Vm.tasks_ne_none hx)
    | heap => exact absurd rfl hleaves

/-- One step keeps the heap in order and in the address space. -/
theorem inv_step (h : s.Inv img t) (hfair : s.Fair t act) (hstep : s.step t act = .ok s') :
    s'.Inv img t := by
  obtain ⟨hinv, hs⟩ := h
  obtain ⟨hlive, hfair⟩ := hfair
  cases act with
  | heap op =>
    obtain ⟨hstate, hsound⟩ := heap_step hs hstep
    obtain ⟨m, hm, hsettled⟩ := hinv.step hfair
    obtain rfl := Except.ok.inj (hstate.symm.trans hm)
    exact ⟨hsettled.inv, hsound⟩
  | system act =>
    simp only [step] at hstep
    cases hok : s.heap.vm.step act with
    | error x =>
      rw [hok] at hstep
      cases hstep
    | ok vm =>
      rw [hok] at hstep
      cases hstep
      exact ⟨hinv, sound_system hs hlive hfair.1 hfair.2 hok⟩

/-- A live block is in the heap. -/
theorem Inv.block {p n : ℕ} (h : s.Inv img t) (hp : (p, n) ∈ s.live) :
    s.heap.heap.userHeap ≤ p ∧ p + n ≤ s.heap.heap.curbrk := by
  rcases h.1 with ⟨-, full, hR⟩ | ⟨-, hl⟩
  · have hlow : s.heap.heap.userHeap + 8 ≤ s.heap.heap.heapListp := hR.low
    have hin : s.heap.heap.heapListp < p := (hR.inside (p, n) hp).1
    exact ⟨by omega, (hR.answer hp).2.2⟩
  · exact absurd (hl ▸ hp : (p, n) ∈ []) List.not_mem_nil

/-- Every byte of a live block can be accessed. -/
theorem Inv.usable {p n x : ℕ} (h : s.Inv img t) (hp : (p, n) ∈ s.live) (hx : p ≤ x)
    (hxn : x < p + n) : s.heap.vm.Usable t x := by
  obtain ⟨hlow, htop⟩ := h.block hp
  obtain ⟨F, hF⟩ := h.2.flat
  intro b mm hmm write
  obtain ⟨-, harea⟩ := h.2.backed b mm hmm
  obtain ⟨vma, hvma, hstart, hstop, hprot⟩ := harea (by omega)
  have hholds : vma.Holds x := ⟨by omega, by omega⟩
  obtain ⟨q, -, hshows⟩ := hF.some_of_space hmm
  cases htr : s.heap.vm.translate mm.pgd x write with
  | granted f => exact .inl ⟨f, rfl⟩
  | fault present =>
    exact .inr ⟨present, rfl, hshows.completes hF.inv hmm hvma hholds (fun _ => hprot) htr⟩

end KernelState

namespace Vm

variable {s₀ s : Vm} {t a : ℕ} {mm : MmStruct}

theorem heapStart_aligned (headers : List (Option LoadSegment)) :
    heapStart headers % 4096 = 0 ∧ heapStart headers < wordRange := by
  have hend : ∀ i flags : ℕ, segmentEnd (loaded headers)[i]? flags 0 ≤ userTop := fun i flags => by
    unfold segmentEnd
    split
    · next seg _ =>
      split
      · exact seg.inUser
      · exact Nat.zero_le _
    · exact Nat.zero_le _
  have halign : ∀ x, x ≤ userTop → pgAlign x % 4096 = 0 ∧ pgAlign x < wordRange := fun x hx => by
    have htop : userTop + 4096 < wordRange := by decide
    have hpg : pgSize = 4096 := rfl
    unfold pgAlign
    rw [hpg]
    omega
  unfold heapStart
  simp only
  split
  · exact halign _ (hend 1 6)
  · exact halign _ (hend 0 5)

/-- The break of every process is where the heap of a program starts. -/
theorem brk_aligned {acts : List Act} (h : Start s₀) (hrun : run step s₀ acts = .ok s)
    (ht : s.userMm t = some (a, mm)) : mm.brk % 4096 = 0 ∧ mm.brk < wordRange := by
  have hspace : ∀ (program : Program) {mm : MmStruct}, program.Space mm →
      mm.brk % 4096 = 0 ∧ mm.brk < wordRange := fun program => by
    induction program with
    | elf file headers =>
      rintro mm ⟨-, -, hbrk⟩
      rw [hbrk]
      exact heapStart_aligned headers
    | script interp ih => exact ih
  have hinv : VmInv s ∧ ∀ t a mm, s.userMm t = some (a, mm) → mm.brk % 4096 = 0 ∧ mm.brk < wordRange := by
    refine run_invariant (I := fun s => VmInv s ∧ ∀ t a mm, s.userMm t = some (a, mm) →
      mm.brk % 4096 = 0 ∧ mm.brk < wordRange) ⟨h.inv, fun t a mm ht => ?_⟩
      (fun s act s' hI _ hstep => ⟨((step_keeps hI.1 act).of_eq_ok hstep).inv, fun t a mm ht => ?_⟩)
      (along_of_forall (fun _ _ => trivial) s₀ acts) hrun
    · rw [userMm, h.noTask t] at ht
      cases ht
    · cases (step_derived hI.1 act).of_eq_ok hstep t a mm ht with
      | same was => exact hI.2 _ _ _ was
      | @exec argv args program space => exact hspace program space
      | child parent fresh copy =>
        have hold := hI.2 _ _ _ parent
        rwa [copy]
      | heap was lt limit start stop anonymous more =>
        have hold := hI.2 _ _ _ was
        rwa [more]
  exact hinv.2 t a mm ht

end Vm

namespace KernelState

variable {s₀ vm : Vm} {t a : ℕ} {s : KernelState} {mm : MmStruct}

/-- **What `malloc` returned can be read and written.**  After every run of calls of the process on its
heap and of steps of the system, in any order, an access to a byte of a block that was returned and not
yet freed goes through, at once or after a page fault that does not end the process; it does not only if
the kernel has no page left. -/
theorem blocks_are_usable {acts : List Vm.Act} {ops : List UserAct} (h : Vm.Start s₀)
    (hplain : Along Vm.step Vm.Plain s₀ acts) (hrun₀ : run Vm.step s₀ acts = .ok vm)
    (ht : vm.userMm t = some (a, mm)) (hfair : Along (step t) (Fair t) (start mm.brk vm) ops)
    (hrun : run (step t) (start mm.brk vm) ops = .ok s) :
    ∀ p n, (p, n) ∈ s.live → ∀ x, p ≤ x → x < p + n → s.heap.vm.Usable t x := by
  obtain ⟨F, -, hflat⟩ := Vm.flattened_of_run h hplain
  obtain ⟨haligned, hword⟩ := Vm.brk_aligned h hrun₀ ht
  have hstart : (start mm.brk vm).Inv s₀.archive t := by
    refine ⟨MallocState.inv_start haligned hword, ⟨F, hflat vm hrun₀⟩, fun b mm' hmm' => ?_⟩
    obtain ⟨-, rfl⟩ := Prod.mk.inj (Option.some.inj (ht.symm.trans hmm'))
    exact ⟨rfl, fun hlt => absurd hlt (lt_irrefl _)⟩
  have hI : s.Inv s₀.archive t :=
    run_invariant hstart (fun s act s' hI hG hstep => inv_step hI hG hstep) hfair hrun
  exact fun p n hp x hx hxn => hI.usable hp hx hxn

/-- A process that forks between two calls of `malloc`, and stores into the first block after that. -/
def forkOps : List UserAct :=
  [.heap (.malloc 24), .system (.fork 700), .system (.store 700 ⟨0x401010, by decide⟩ 7),
    .heap (.malloc 5000), .heap (.free 0x401010)]

/-- The first task runs a program. -/
def programActs : List Vm.Act := [.kernelThread, .exec 700 none (fun _ => 0) Vm.smallProgram]

theorem programActs_plain : Along Vm.step Vm.Plain Vm.smallVm programActs :=
  along_of_alongB (I := fun _ => True) trivial (fun _ _ _ htest => Vm.plain_of_plainB htest)
    (fun _ _ _ _ _ _ => trivial) (by decide +kernel : alongB Vm.step Vm.plainB Vm.smallVm programActs = true)

/-- A test for `Fair`. -/
def fairB (t : ℕ) (s : KernelState) (act : UserAct) : Bool :=
  (s.heap.vm.userMm t).isSome && match act with
    | .heap op => decide (s.state.Fair op)
    | .system act => s.heap.vm.plainB act && decide (act.LeavesHeap t)

theorem fair_of_fairB {act : UserAct} (h : fairB t s act = true) : s.Fair t act := by
  obtain ⟨hlive, hact⟩ := Bool.and_eq_true_iff.1 h
  cases act with
  | heap op =>
    have hfair : s.state.Fair op := of_decide_eq_true hact
    exact ⟨hlive, hfair⟩
  | system act =>
    obtain ⟨hplain, hleaves⟩ := Bool.and_eq_true_iff.1 hact
    have hown : act.LeavesHeap t := of_decide_eq_true hleaves
    exact ⟨hlive, Vm.plain_of_plainB hplain, hown⟩

theorem blocks_are_usable_fork : ∃ vm a mm s,
    run Vm.step Vm.smallVm programActs = .ok vm ∧
    vm.userMm 700 = some (a, mm) ∧ run (step 700) (start mm.brk vm) forkOps = .ok s ∧
    (0x402010, 5000) ∈ s.live ∧ s.heap.vm.Usable 700 0x402010 := by
  have hruns : reaches
      (run Vm.step Vm.smallVm programActs)
      (fun vm => (vm.userMm 700).any fun x =>
        alongB (step 700) (fairB 700) (start x.2.brk vm) forkOps &&
          reaches (run (step 700) (start x.2.brk vm) forkOps) fun s => decide ((0x402010, 5000) ∈ s.live)) =
      true := by decide +kernel
  obtain ⟨vm, hvm, htest⟩ := exists_of_reaches hruns
  simp only [Option.any_eq_true, Bool.and_eq_true] at htest
  obtain ⟨⟨a, mm⟩, ht, hfair, hreach⟩ := htest
  obtain ⟨s, hrun, hlive⟩ := exists_of_reaches hreach
  have hp := of_decide_eq_true hlive
  have hal : Along (step 700) (Fair 700) (start mm.brk vm) forkOps :=
    along_of_alongB (I := fun _ => True) trivial (fun _ _ _ htest => fair_of_fairB htest)
      (fun _ _ _ _ _ _ => trivial) hfair
  exact ⟨vm, a, mm, s, hvm, ht, hrun, hp, blocks_are_usable Vm.smallVm_start programActs_plain hvm ht
    hal hrun _ _ hp _ le_rfl (by decide)⟩

end KernelState

end PlumOs
