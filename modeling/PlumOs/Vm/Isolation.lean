import PlumOs.Vm.Derived

/-!
# Copy-on-write isolation

`Vm.userByte` is the byte a task reads at an address.  In every state that is reached by a run whose
programs are in the archive a store by one task changes the bytes of no other, and a child reads after
`fork` what its parent reads.  `map_a_page` copies all the pages of a segment from the file, also those
behind its end: these come from wherever the archive is over, and may be pages of another process.  The
counts are a matter of their own: they stay exact as long as no page that is copied is in two areas,
which `brk` does not see to.

* `IsolatedReads` : what a state promises about loads, stores and `fork`;
* `isolatedReads_of_run` : **every state does that is reached with programs in the archive**;
* `isolatedReads_fails` : a segment that reaches behind the archive, to a page of another process;
* `exactRefs_of_run` : **the counts are exact** in a run whose forks find no page in two areas;
* `exactRefs_fails` : two calls of `brk` are enough for a count that is too large.
-/

namespace PlumOs

open Cow (Mode)

namespace Vm

variable {s s' s₀ : Vm} {a b v w f g t q addr : ℕ} {k : Mode} {mm : MmStruct} {vma : Vma}

/-! ### What a task reads -/

/-- The byte that a page of the area gets at the address if it is mapped now; `none` if that stops. -/
def demandByte (s : Vm) (pgd : ℕ) (vma : Vma) (addr : ℕ) : Option ℕ :=
  match vma.vmFile with
  | none => some 0
  | some start =>
    match s.kernelLoad pgd ((vma.filePos start (addr / pgSize) + addr % pgSize) % 2 ^ 64) with
    | .ok b => some (b % 256)
    | .error _ => none

/-- The byte at an address: the one in the page that is mapped there or, if there is none, the one
that the page will hold when it is mapped. -/
def userByte (s : Vm) (t addr : ℕ) : Option ℕ :=
  (s.userMm t).bind fun x =>
    match s.ptes x.1 (addr / pgSize) with
    | some y => some (pageByte (s.mem y.1) (addr % pgSize))
    | none => (searchVma addr x.2).bind fun vma => s.demandByte x.2.pgd vma addr

/-- A page in the archive. -/
theorem demandByte_eq (hin : vma.PageInArchive s.archive (addr / pgSize)) (pgd : ℕ) :
    s.demandByte pgd vma addr =
      some (pageByte (vma.demandPage s.archive.mem (addr / pgSize)) (addr % pgSize)) := by
  unfold demandByte Vma.demandPage
  cases hfile : vma.vmFile with
  | none => simp only [pageByte_zero]
  | some start =>
    have hholds := (hin start hfile).holds (Nat.mod_lt addr (by decide))
    simp only [kernelLoad_archive hholds, pageByte_filePage]

theorem userByte_mapped (ht : s.userMm t = some (a, mm))
    (hv : s.ptes a (addr / pgSize) = some (f, k)) :
    s.userByte t addr = some (pageByte (s.mem f) (addr % pgSize)) := by
  unfold userByte
  rw [ht, Option.bind_some, hv]

theorem userByte_unmapped (ht : s.userMm t = some (a, mm)) (hv : s.ptes a (addr / pgSize) = none)
    (hfind : searchVma addr mm = some vma) (hin : vma.PageInArchive s.archive (addr / pgSize)) :
    s.userByte t addr =
      some (pageByte (vma.demandPage s.archive.mem (addr / pgSize)) (addr % pgSize)) := by
  unfold userByte
  rw [ht, Option.bind_some, hv]
  show (searchVma addr mm).bind _ = _
  rw [hfind, Option.bind_some]
  exact demandByte_eq hin mm.pgd

/-- The page of an address is in the archive. -/
theorem FromArchive.page (h : s.FromArchive) (ht : s.userMm t = some (a, mm))
    (hfind : searchVma addr mm = some vma) : vma.PageInArchive s.archive (addr / pgSize) := by
  obtain ⟨hvma, hholds⟩ := holds_of_searchVma hfind
  exact h t a mm ht vma hvma _ (mem_pages_of_holds hholds)

/-- A task reads the same bytes if its pages and their contents are the same. -/
theorem userByte_congr (hfrom : s.FromArchive) (hmm : s'.userMm t = s.userMm t)
    (harch : s'.archive = s.archive)
    (hptes : ∀ a mm, s.userMm t = some (a, mm) → ∀ v, (s'.ptes a v).map Prod.fst =
      (s.ptes a v).map Prod.fst)
    (hmem : ∀ a mm v f k, s.userMm t = some (a, mm) → s.ptes a v = some (f, k) →
      s'.mem f = s.mem f) : s'.userByte t addr = s.userByte t addr := by
  unfold userByte
  rw [hmm]
  cases hx : s.userMm t with
  | none => rw [Option.bind_none, Option.bind_none]
  | some x =>
    obtain ⟨a, mm⟩ := x
    simp only [Option.bind_some]
    have hp := hptes a mm hx (addr / pgSize)
    cases hy : s.ptes a (addr / pgSize) with
    | none =>
      rw [hy, Option.map_none, Option.map_eq_none_iff] at hp
      rw [hp]
      simp only
      cases hfind : searchVma addr mm with
      | none => rw [Option.bind_none, Option.bind_none]
      | some vma =>
        have hin := hfrom.page hx hfind
        have hin' : vma.PageInArchive s'.archive (addr / pgSize) := by
          rw [harch]
          exact hin
        rw [Option.bind_some, Option.bind_some, demandByte_eq hin, demandByte_eq hin', harch]
    | some y =>
      obtain ⟨f, k⟩ := y
      rw [hy, Option.map_some, Option.map_eq_some_iff] at hp
      obtain ⟨z, hz, hzf⟩ := hp
      rw [hz]
      simp only at hzf ⊢
      rw [hzf, hmem a mm _ f k hx hy]

/-- Two tasks have two address spaces. -/
theorem VmInv.userMm_ne (h : VmInv s) {p : ℕ} {mm' : MmStruct} (hp : s.userMm p = some (a, mm))
    (hq : s.userMm q = some (b, mm')) (hne : q ≠ p) : b ≠ a := by
  obtain ⟨-, task, htask, -, ha⟩ := userMm_eq_some hp
  obtain ⟨-, task', htask', -, hb⟩ := userMm_eq_some hq
  rintro rfl
  exact hne (h.own q p task' task b htask' htask hb ha)

/-! ### Stores -/

section Others

variable {p : ℕ} (h : VmInv s) (hfrom : s.FromArchive) (hp : s.userMm p = some (a, mm)) (hne : q ≠ p)

include h hfrom hp hne

/-- A change to one mapping of the address space `a` that leaves the pages in use alone. -/
theorem userByte_of_set {x : Option (ℕ × Mode)} (hmms : s'.mms = s.mms) (htasks : s'.tasks = s.tasks)
    (harch : s'.archive = s.archive) (hptes : s'.ptes = Cow.set s.ptes a v x)
    (hmem : ∀ f, s.Data f → s'.mem f = s.mem f) : s'.userByte q addr = s.userByte q addr := by
  refine userByte_congr hfrom (userMm_congr hmms (congrFun htasks q)) harch (fun b mm' hq w => ?_) ?_
  · rw [hptes, Cow.set_of_ne fun he => h.userMm_ne hp hq hne he.1]
  · exact fun b mm' w f k _ hk => hmem f (h.tables.data hk)

/-- What the kernel does for one task after a fault does not matter for another. -/
theorem userByte_of_handled {x : ℕ} (hh : Handled s p a mm x s') :
    s'.userByte q addr = s.userByte q addr := by
  cases hh with
  | mapped hvma hfind hnone hm hfills =>
    exact userByte_of_set h hfrom hp hne hm.mms hm.tasks hm.archive hm.ptes hm.mem
  | copied hcow hshared hc =>
    exact userByte_of_set h hfrom hp hne hc.mms hc.tasks hc.archive hc.ptes hc.mem
  | owned hcow hsole ho =>
    exact userByte_of_set h hfrom hp hne ho.mms ho.tasks ho.archive ho.ptes ho.mem
  | exited =>
    refine userByte_congr hfrom (userMm_congr rfl (Function.update_of_ne hne ..)) rfl ?_ ?_
    · exact fun _ _ _ _ => rfl
    · exact fun _ _ _ _ _ _ _ => rfl

/-- **A store by one task** does not change what another reads. -/
theorem userByte_of_stored {x : ℕ} (hs : Stored s p a mm x s') :
    s'.userByte q addr = s.userByte q addr := by
  cases hs with
  | faulted hh => exact userByte_of_handled h hfrom hp hne hh
  | @written f page hmap =>
    obtain ⟨-, hptes, -⟩ := h.tables.putPage (h.tables.data hmap).2 page
    refine userByte_congr hfrom rfl rfl (fun b mm' _ w => by rw [hptes]) fun b mm' w g k hq hk => ?_
    -- a page that is mapped writable is mapped nowhere else
    refine Function.update_of_ne ?_ ..
    rintro rfl
    exact h.userMm_ne hp hq hne (h.cow.isolated a _ g hmap b w k hk).1

end Others

/-! ### Loads and `fork` -/

/-- A load from a page that is mapped. -/
theorem load_mapped (h : TableInv s) (hr : s.roots a = some mm.pgd)
    (hmap : s.ptes a (addr / pgSize) = some (f, k)) :
    s.load t mm addr = .ok (some (pageByte (s.mem f) (addr % pgSize)), s) := by
  obtain ⟨hv, -⟩ := exists_table_of_ptes hmap
  unfold load
  rw [h.translate_eq hr hv, hmap]
  simp

/-- A task that is not ended by a fault still reads the byte it would have read, and the load that is
made again returns it. -/
theorem userByte_of_handled_self (h : VmInv s) (hfrom : s.FromArchive) (ht : s.userMm t = some (a, mm))
    (hh : Handled s t a mm addr s') (hrun : s'.userMm t ≠ none) :
    s'.userByte t addr = s.userByte t addr ∧
      s'.load t mm addr = .ok (s.userByte t addr, s') := by
  have hr := roots_of_mm (userMm_eq_some ht).1
  -- the page is mapped now, and holds the byte
  suffices hpage : ∃ g k, TableInv s' ∧ s'.mms = s.mms ∧ s'.tasks = s.tasks ∧
      s'.ptes a (addr / pgSize) = some (g, k) ∧
      s.userByte t addr = some (pageByte (s'.mem g) (addr % pgSize)) by
    obtain ⟨g, k, ht', hmms, htasks, hmap, hbyte⟩ := hpage
    have hself : s'.userMm t = some (a, mm) := (userMm_congr hmms (congrFun htasks t)).trans ht
    have hr' : s'.roots a = some mm.pgd := by rw [roots, hmms]; exact hr
    exact ⟨(userByte_mapped hself hmap).trans hbyte.symm, by rw [load_mapped ht' hr' hmap, hbyte]⟩
  cases hh with
  | @mapped _ vma g page hvma hfind hnone hm hfills =>
    have hin := hfrom.page ht hfind
    refine ⟨g, _, hm.tables, hm.mms, hm.tasks, hm.ptes_self, ?_⟩
    rw [userByte_unmapped ht hnone hfind hin, hm.memNew,
      hfills.archive hin _ (Nat.mod_lt addr (by decide))]
  | copied hcow hshared hc =>
    refine ⟨_, _, hc.tables, hc.mms, hc.tasks, by rw [hc.ptes]; exact Cow.set_self _, ?_⟩
    rw [userByte_mapped ht hcow, hc.memNew]
  | owned hcow hsole ho =>
    refine ⟨_, _, ho.tables, ho.mms, ho.tasks, by rw [ho.ptes]; exact Cow.set_self _, ?_⟩
    rw [userByte_mapped ht hcow, ho.mem _ (h.tables.data hcow)]
  | exited =>
    refine absurd ?_ hrun
    obtain ⟨-, task, htask, -, -⟩ := userMm_eq_some ht
    unfold userMm exitSt
    simp [htask]

/-- A child reads what its parent reads, and the parent reads what it read before. -/
theorem userByte_of_forked {p child : ℕ} (h : VmInv s) (hfrom : s.FromArchive) (hp : s.userMm p = some (a, mm))
    (hf : Forked s s' a mm child b) :
    s'.userByte child addr = s.userByte p addr ∧ s'.userByte p addr = s.userByte p addr := by
  obtain ⟨hmm, task, htask, hz, ha⟩ := userMm_eq_some hp
  obtain ⟨pgd, hpgd⟩ := hf.space
  have hpc : p ≠ child := by
    rintro rfl
    exact absurd (htask.symm.trans hf.freshTask) (by simp)
  have hab : a ≠ b := by
    rintro rfl
    exact absurd (hmm.symm.trans hf.freshMm) (by simp)
  have hp' : s'.userMm p = some (a, mm) := by
    unfold userMm
    rw [hf.tasks p hpc, htask]
    simp [hz, ha, hf.spaces a hab, hmm]
  have hchild : s'.userMm child = some (b, { mm with pgd := pgd }) := by
    unfold userMm
    rw [hf.task]
    simp [hpgd]
  have hframe : ∀ c, c = a ∨ c = b → (s'.ptes c (addr / pgSize)).map Prod.fst =
      (s.ptes a (addr / pgSize)).map Prod.fst := by
    rintro c (rfl | rfl)
    · rw [hf.frames, if_neg hab]
    · rw [hf.frames, if_pos rfl]
  have hread : ∀ c x mm', c = a ∨ c = b → s'.userMm x = some (c, mm') →
      searchVma addr mm' = searchVma addr mm → s'.userByte x addr = s.userByte p addr := by
    intro c x mm' hc hx hsame
    unfold userByte
    rw [hx, hp]
    simp only [Option.bind_some]
    have heq := hframe c hc
    cases hy : s.ptes a (addr / pgSize) with
    | none =>
      rw [hy, Option.map_none, Option.map_eq_none_iff] at heq
      rw [heq]
      simp only [hsame]
      cases hfind : searchVma addr mm with
      | none => rw [Option.bind_none, Option.bind_none]
      | some vma =>
        have hin := hfrom.page hp hfind
        have hin' : vma.PageInArchive s'.archive (addr / pgSize) := by
          rw [hf.archive]
          exact hin
        rw [Option.bind_some, Option.bind_some, demandByte_eq hin, demandByte_eq hin', hf.archive]
    | some y =>
      rw [hy, Option.map_some, Option.map_eq_some_iff] at heq
      obtain ⟨z, hz', hzf⟩ := heq
      rw [hz']
      simp only [hzf, hf.mem y.1 (h.tables.data hy)]
  exact ⟨hread b child _ (.inr rfl) hchild rfl, hread a p mm (.inl rfl) hp' rfl⟩

/-- What a state promises about reads. -/
structure IsolatedReads (s : Vm) : Prop where
  /-- A load returns `userByte`, or a page fault comes first, after which the task still reads this
  byte and the load that is made again returns it, unless the fault ended the task. -/
  load : ∀ t a mm (addr : UserAddr) x s', s.userMm t = some (a, mm) → s.load t mm addr = .ok (x, s') →
    (x = none ∨ x = s.userByte t addr) ∧
      (s'.userMm t ≠ none → s'.userByte t addr = s.userByte t addr ∧
        s'.load t mm addr = .ok (s.userByte t addr, s'))
  /-- A store, whether it goes through or runs into the handler, changes the reads of no other
  task. -/
  store : ∀ p (addr : UserAddr) byte s', s.step (.store p addr byte) = .ok s' →
    ∀ q, q ≠ p → ∀ x : UserAddr, s'.userByte q x = s.userByte q x
  /-- After `fork` the child reads what the parent reads, and that did not change. -/
  fork : ∀ p a mm child s', s.userMm p = some (a, mm) → s.fork mm = .ok (child, s') →
    ∀ x : UserAddr, s'.userByte child x = s'.userByte p x ∧ s'.userByte p x = s.userByte p x

theorem VmInv.isolatedReads (h : VmInv s) (hfrom : s.FromArchive) : IsolatedReads s where
  load t a mm addr x s' ht hload := by
    rcases (load_spec h (userMm_eq_some ht).1 addr).of_eq_ok hload with ⟨f, k, hk, heq⟩ | ⟨hx, hh⟩
    · obtain ⟨rfl, rfl⟩ := Prod.mk.inj heq
      have hbyte := userByte_mapped ht hk
      refine ⟨.inr hbyte.symm, fun _ => ⟨rfl, ?_⟩⟩
      rw [load_mapped h.tables (roots_of_mm (userMm_eq_some ht).1) hk, hbyte]
    · exact ⟨.inl hx, userByte_of_handled_self h hfrom ht hh⟩
  store p addr byte s' hstep q hne x := by
    rw [step] at hstep
    cases hp : s.userMm p with
    | none =>
      rw [hp] at hstep
      rw [← Except.ok.inj hstep]
    | some y =>
      obtain ⟨a, mm⟩ := y
      rw [hp] at hstep
      have hs := (store_spec h (userMm_eq_some hp).1 addr byte).of_eq_ok hstep
      exact userByte_of_stored h hfrom hp hne hs
  fork p a mm child s' hp hfork x := by
    obtain ⟨b, hf⟩ := (fork_spec h (userMm_eq_some hp).1).of_eq_ok hfork
    have hreads : s'.userByte child x = s.userByte p x ∧ s'.userByte p x = s.userByte p x :=
      userByte_of_forked h hfrom hp hf
    exact ⟨hreads.1.trans hreads.2.symm, hreads.2⟩

/-- **Copy-on-write isolation**, in every run whose programs are in the archive. -/
theorem isolatedReads_of_run {acts : List Act} (h : Start s₀) (hin : ∀ act ∈ acts, act.InArchive s₀.archive)
    (hrun : run step s₀ acts = .ok s) : IsolatedReads s :=
  (run_inv h hrun).isolatedReads (fromArchive_of_run h hin hrun)

/-! ### A machine to look at -/

/-- A machine with a hundred free frames. -/
def smallVm : Vm where
  pages := { bitmap := fun _ => 0, pageArray := fun f => if 700 ≤ f ∧ f < 800 then 0 else 1 }
  mem := fun _ _ => 0
  mms := fun _ => none
  tasks := fun _ => none
  archive := { mem := fun _ => 0, start := 0xffffffff80210000, stop := 0xffffffff80220000 }
  kernel := fun _ => none
  pgdStart := fun off => if off = 0x1ff then entry 601 (pteP + pteRw) else if off = selfRefIndex then
    entry 600 (pteP + pteRw) else 0
  pgdUser := fun off hoff => by
    rw [if_neg (by omega), if_neg (by unfold selfRefIndex; omega)]

theorem smallVm_start : Start smallVm := by
  refine ⟨fun f => ?_, fun _ => rfl, fun _ => rfl⟩
  show (if 700 ≤ f ∧ f < 800 then (0 : ℤ) else 1) = 0 ∨ _
  split
  · exact .inl rfl
  · exact .inr (if_neg ‹_›)

/-- A program with one page of code. -/
def smallProgram : Program := .elf 0xffffffff80210000
  [some
    { pFlags := 5
      pOffset := 0
      pVaddr := 0x400000
      pFilesz := 0x1000
      pMemsz := 0x1000
      pos := by decide
      inUser := by decide }]

/-- The first task runs the program, extends its heap twice, and forks with a page in the heap. -/
def heapActs : List Act :=
  [.kernelThread, .exec 700 none (fun _ => 0) smallProgram, .brk 700 0x402000, .brk 700 0x403000,
    .store 700 ⟨0x401000, by decide⟩ 7, .fork 700]

theorem isolatedReads_heapActs :
    ∃ s, run step smallVm heapActs = .ok s ∧ IsolatedReads s := by
  have hrun : reaches (run step smallVm heapActs) (fun _ => true) = true := by decide +kernel
  obtain ⟨s, hs, -⟩ := exists_of_reaches hrun
  exact ⟨s, hs, isolatedReads_of_run smallVm_start (by decide +kernel) hs⟩

/-- A program that is in the archive, and whose data reaches from there up to the page frames. -/
def reachingProgram : Program := .elf 0xffffffff80210000
  [some
    { pFlags := 6
      pOffset := 0
      pVaddr := 0x400000
      pFilesz := 0x1000
      pMemsz := 0x200000
      pos := by decide
      inUser := by decide }]

/-- One task runs the small program, and another one this program. -/
def reachingActs : List Act :=
  [.kernelThread, .kernelThread, .exec 702 none (fun _ => 0) smallProgram,
    .exec 700 none (fun _ => 0) reachingProgram]

/-- The page of the data at 0x4b8000 comes from 0xffffffff802c8000, which is the stack of the other task:
what that stores there the first one will read. -/
theorem isolatedReads_fails : ¬∀ (s₀ : Vm) (acts : List Act) (s : Vm), Start s₀ →
    run step s₀ acts = .ok s → IsolatedReads s := by
  intro hall
  have hrun : reaches (run step smallVm reachingActs) (fun s =>
      reaches (s.step (.store 702 ⟨userTop - 8, by decide⟩ 7)) fun s' =>
        decide (s'.userByte 700 0x4b8ff8 ≠ s.userByte 700 0x4b8ff8)) = true := by decide +kernel
  obtain ⟨s, hs, hstored⟩ := exists_of_reaches hrun
  obtain ⟨s', hs', hchanged⟩ := exists_of_reaches hstored
  exact of_decide_eq_true hchanged
    ((hall smallVm reachingActs s smallVm_start hs).store 702 _ 7 s' hs' 700 (by decide)
      ⟨0x4b8ff8, by decide⟩)

/-! ### Exact counts -/

/-- The last task that has a page copy-on-write takes it over when it writes to it. -/
def TakesOver (s : Vm) : Prop :=
  ∀ t a mm (addr : UserAddr) byte f, s.userMm t = some (a, mm) →
    s.ptes a (addr / pgSize) = some (f, .cow) →
    (∀ b w k, s.ptes b w = some (f, k) → b = a ∧ w = addr / pgSize) →
    ∃ s', s.step (.store t addr byte) = .ok s' ∧ s'.pages = s.pages ∧
      s'.ptes a (addr / pgSize) = some (f, .writable)

/-- The handler gives a page with one reference to the task that has it. -/
theorem VmInv.takesOver (h : VmInv s) (hex : ExactRefs s) : TakesOver s := by
  intro t a mm addr byte f ht hcow hsole
  have hmm := (userMm_eq_some ht).1
  have hmaps : Cow.mapsTo s.ptes f = {(a, addr / pgSize)} := by
    ext ⟨b, w⟩
    constructor
    · rintro ⟨k, hk⟩
      obtain ⟨rfl, rfl⟩ := hsole b w k hk
      rfl
    · intro heq
      cases heq
      exact ⟨_, hcow⟩
  have hone : s.ref f = 1 := by
    rw [hex f ⟨_, Cow.mem_mapsTo hcow⟩, hmaps, Set.ncard_singleton]
    rfl
  obtain ⟨-, table, htab, hne, hf, hk⟩ := exists_table_of_ptes hcow
  have h9 := (modeOf_cow (h.tables.flags a _ table _ htab rfl hne)).1 hk.symm
  have hcount : s.pages.getPageRef f = .ok (s.ref f) := if_pos (h.tables.frames a _ f _ hcow).2
  have hown := owned_put h.tables addr.page_lt htab hcow
  have hacc : s.translate mm.pgd addr true = .fault true := by
    rw [h.tables.translate_eq (roots_of_mm hmm) addr.page_lt, hcow]
    rfl
  refine ⟨_, ?_, hown.pages, by rw [hown.ptes]; exact Cow.set_self _⟩
  rw [step, ht]
  show s.store t mm addr byte = _
  unfold store
  rw [hacc]
  show s.pageFaultHandler t mm addr true true = _
  unfold pageFaultHandler
  rw [if_neg (by decide), if_pos rfl, h.tables.pteTableTrick_eq (roots_of_mm hmm) addr.page_lt htab,
    ok_bind, if_neg hne, if_pos h9, ← hf, hcount, ok_bind, if_neg (by rw [hone]; decide)]

/-- **The counts are exact** in a run in which no task forks with a mapped page in two areas. -/
theorem exactRefs_of_run {acts : List Act} (h : Start s₀) (hal : Along step Single s₀ acts)
    (hrun : run step s₀ acts = .ok s) :
    (∀ f, (Cow.mapsTo s.ptes f).Nonempty → s.ref f = (Cow.mapsTo s.ptes f).ncard) ∧
      TakesOver s := by
  have hinv : VmInv s ∧ ExactRefs s := by
    refine run_invariant (I := fun s => VmInv s ∧ ExactRefs s) ⟨h.inv, fun f hf => ?_⟩
      (fun s act s' hs hsingle hstep => ?_) hal hrun
    · obtain ⟨⟨a, v⟩, k, hk⟩ := hf
      exact absurd hk (by rw [ptes_none (h.noSpace a)]; simp)
    · have hk := (step_keeps hs.1 act).of_eq_ok hstep
      exact ⟨hk.inv, hk.exact hsingle hs.2⟩
  exact ⟨hinv.2, hinv.1.takesOver hinv.2⟩

/-! ### The address spaces of a run -/

/-- Address spaces take frames that were free at the start. -/
theorem spaces_of_run {acts : List Act} (h : Start s₀) (hrun : run step s₀ acts = .ok s)
    (ha : s.mms a ≠ none) : s₀.ref a = 0 := by
  rcases (run_keeps h hrun).spaces a ha with ha | h0
  · exact absurd (h.noSpace a) ha
  · exact h0

/-- **Two calls of `brk` make a count too large**: the second adds an area over the first, because
the break is never stored, and `fork` counts the page once for each area. -/
theorem exactRefs_fails : ∃ s, run step smallVm heapActs = .ok s ∧
    (Cow.mapsTo s.ptes 717).Nonempty ∧ s.ref 717 = 3 ∧ (Cow.mapsTo s.ptes 717).ncard = 2 := by
  have hrun : reaches (run step smallVm heapActs) (fun s => decide (s.ref 717 = 3) &&
      decide (s.ptes 703 0x401 = some (717, .cow)) && decide (s.ptes 720 0x401 = some (717, .cow)) &&
      (List.range' 700 100).all fun a => (s.mms a).isNone || a == 703 || a == 720) = true := by
    decide +kernel
  obtain ⟨s, hs, htest⟩ := exists_of_reaches hrun
  simp only [Bool.and_eq_true, decide_eq_true_eq, List.all_eq_true, Bool.or_eq_true,
    Option.isNone_iff_eq_none, beq_iff_eq] at htest
  obtain ⟨⟨⟨href, h703⟩, h720⟩, hspaces⟩ := htest
  have hmaps : Cow.mapsTo s.ptes 717 = {(703, 0x401), (720, 0x401)} := by
    ext ⟨b, w⟩
    constructor
    · rintro ⟨k, hk⟩
      have hk' : s.ptes b w = some (717, k) := hk
      obtain rfl := (run_inv smallVm_start hs).cow.aligned b 703 w 0x401 717 k .cow hk' h703
      have hb : s.mms b ≠ none := fun hnone => by simp [ptes_none hnone] at hk'
      have hfree : (if 700 ≤ b ∧ b < 800 then (0 : ℤ) else 1) = 0 :=
        spaces_of_run smallVm_start hs hb
      have hrange : 700 ≤ b ∧ b < 800 := by
        by_contra hno
        rw [if_neg hno] at hfree
        simp at hfree
      rcases hspaces b (List.mem_range'_1.2 ⟨hrange.1, by omega⟩) with (hnone | rfl) | rfl
      · exact absurd hnone hb
      · exact .inl rfl
      · exact .inr rfl
    · rintro (heq | heq)
      · cases heq
        exact ⟨_, h703⟩
      · cases heq
        exact ⟨_, h720⟩
  refine ⟨s, hs, ⟨_, Cow.mem_mapsTo h703⟩, href, ?_⟩
  rw [hmaps]
  exact Set.ncard_pair (by simp)

/-! ### Areas that share no page -/

/-- A test for `NoOverlap`: of two areas one ends before the first page of the other. -/
def apart (areas : List Vma) : Bool :=
  decide (areas.Pairwise fun x y =>
    x.vmEnd ≤ y.vmStart / pgSize * pgSize ∨ y.vmEnd ≤ x.vmStart / pgSize * pgSize)

theorem countP_le_one {α : Type*} {p : α → Bool} {l : List α}
    (h : l.Pairwise fun x y => ¬ (p x = true ∧ p y = true)) : l.countP p ≤ 1 := by
  induction l with
  | nil => simp
  | cons x l ih =>
    obtain ⟨hx, hl⟩ := List.pairwise_cons.1 h
    rw [List.countP_cons]
    by_cases hpx : p x = true
    · have hzero : l.countP p = 0 := List.countP_eq_zero.2 fun y hy hpy => hx y hy ⟨hpx, hpy⟩
      rw [if_pos hpx, hzero]
    · rw [if_neg hpx]
      exact ih hl

theorem noOverlap_of_apart (h : apart mm.mmap = true) : NoOverlap s a mm := by
  intro v _
  refine countP_le_one ((of_decide_eq_true h).imp fun {x y} hxy => ?_)
  simp only [decide_eq_true_eq, mem_pages]
  have hx := x.pos
  have hy := y.pos
  unfold pgSize at hxy ⊢
  omega

/-- The run without the second call of `brk`. -/
def onceActs : List Act :=
  [.kernelThread, .exec 700 none (fun _ => 0) smallProgram, .brk 700 0x402000,
    .store 700 ⟨0x401000, by decide⟩ 7, .fork 700]

/-- A test that the areas of a process that forks are apart. -/
def forksApart (s : Vm) : Act → Bool
  | .fork t => (s.userMm t).all fun x => apart x.2.mmap
  | _ => true

theorem exactRefs_onceActs : ∃ s, run step smallVm onceActs = .ok s ∧
    (∀ f, (Cow.mapsTo s.ptes f).Nonempty → s.ref f = (Cow.mapsTo s.ptes f).ncard) ∧
      TakesOver s := by
  have hrun : reaches (run step smallVm onceActs) (fun _ => true) = true := by decide +kernel
  obtain ⟨s, hs, -⟩ := exists_of_reaches hrun
  have hal : alongB step forksApart smallVm onceActs = true := by decide +kernel
  refine ⟨s, hs, exactRefs_of_run smallVm_start (along_of_alongB (I := fun _ => True) trivial
    (fun s act _ htest => ?_) (fun _ _ _ _ _ _ => trivial) hal) hs⟩
  cases act with
  | fork t =>
    intro a mm hmm
    simp only [forksApart, hmm, Option.all_some] at htest
    exact noOverlap_of_apart htest
  | _ => trivial

end Vm

end PlumOs
