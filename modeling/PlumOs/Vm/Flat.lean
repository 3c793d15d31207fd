import PlumOs.Lib.Answers
import PlumOs.Vm.Areas

/-!
# The memory that a program sees

To a program its memory is flat and its own: a load returns what was stored last, `fork` makes a copy of
all of it, and a page of the heap is zero when it is new.  The kernel has page tables, in which a page
comes up when it is first used, and pages that several processes share.

* `Process`, `Flat.step` : the memories of the processes, and what the events of a run do to them;
* `Vm.observe` : a step of the system, with the event that the programs see;
* `Shows` : the page tables of a process hold its flat memory;
* `Shows.handled`, `Shows.stored` : page faults and stores;
* `forbids_of_killed` : **only a forbidden access ends a process**.
-/

namespace PlumOs

open Cow (Mode)

/-! ### Flat memories -/

/-- The area that `brk` makes for a heap. -/
def heapVma (brk newBreak : ℕ) (h : brk < newBreak ∧ newBreak < Vm.heapLimit) : Vma where
  vmStart := brk
  vmEnd := newBreak
  prot := .readWrite
  vmPgoff := 0
  vmFilesz := 0
  vmFile := none
  pos := Nat.zero_lt_of_lt h.1
  ordered := Nat.le_of_lt h.1
  inUser := Nat.le_trans (Nat.le_of_lt h.2) (by decide)
  anonymous := fun _ => rfl

/-- A process as its program sees it: the areas it has, where its heap starts, and its bytes. -/
structure Process where
  /-- Its areas. -/
  areas : List Vma
  /-- The break. -/
  brk : ℕ
  /-- The byte at an address, if it is in an area. -/
  byte : ℕ → Option ℕ

/-- The bytes of some areas before a store: the first area that a page is in gives its contents. -/
def areasByte (archive : ℕ → ℕ) (areas : List Vma) (x : ℕ) : Option ℕ :=
  (areas.find? fun vma => x / pgSize ∈ vma.pages).map fun vma =>
    pageByte (vma.demandPage archive (x / pgSize)) (x % pgSize)

/-- The areas of a program that is loaded, with its stack. -/
def programAreas (file : ℕ) (headers : List (Option Vm.LoadSegment)) : List Vma :=
  (Vm.loaded headers).map (fun seg => seg.vma file) ++ [Vm.stackVma]

namespace Process

variable (p : Process)

/-- A store to the page of the address goes through. -/
def Writable (x : ℕ) : Prop := ∃ vma ∈ p.areas, x / pgSize ∈ vma.pages ∧ vma.prot = .readWrite

/-- The access ends the process: it is outside of the areas, or a store to one that is only read. -/
def Forbids (x : ℕ) (write : Bool) : Prop :=
  ∀ vma ∈ p.areas, vma.Holds x → write = true ∧ vma.prot = .readOnly

instance decidableWritable (x : ℕ) : Decidable (p.Writable x) :=
  inferInstanceAs (Decidable (∃ vma ∈ p.areas, _))

instance decidableForbids (x : ℕ) (write : Bool) : Decidable (p.Forbids x write) :=
  inferInstanceAs (Decidable (∀ vma ∈ p.areas, _))

/-- A store. -/
def write (x b : ℕ) : Process := { p with byte := Function.update p.byte x (some b) }

/-- More heap, of which the new pages are zero. -/
def grow (newBreak : ℕ) (h : p.brk < newBreak ∧ newBreak < Vm.heapLimit) : Process :=
  { p with
    areas := p.areas ++ [heapVma p.brk newBreak h]
    byte := fun x =>
      if x / pgSize ∈ (heapVma p.brk newBreak h).pages then some ((p.byte x).getD 0) else p.byte x }

/-- A program at its start: its segments, and its stack with the arguments in the last page. -/
def start (archive args : ℕ → ℕ) : Vm.Program → Process
  | .elf file headers =>
    { areas := programAreas file headers
      brk := Vm.heapStart headers
      byte := fun x =>
        if x / pgSize = (userTop - pgSize) / pgSize then some (pageByte args (x % pgSize))
        else areasByte archive (programAreas file headers) x }
  | .script interp => start archive args interp

end Process

/-- What the programs see of a step: `asked` is a call of `brk` with its result, `killed` an access that
ended the process. -/
inductive Event where
  | quiet
  | started (t : ℕ) (args : ℕ → ℕ) (program : Vm.Program)
  | forked (t child : ℕ)
  | asked (t newBreak ret : ℕ)
  | loaded (t x b : ℕ)
  | stored (t x b : ℕ)
  | killed (t x : ℕ) (write : Bool)
  | exited (t : ℕ)

/-- The processes. -/
abbrev Flat : Type := ℕ → Option Process

/-- What an event does to the flat memories, if they allow it. -/
def Flat.step (archive : ℕ → ℕ) (F : Flat) : Event → Option Flat
  | .quiet => some F
  | .started t args program => some (Function.update F t (some (Process.start archive args program)))
  | .forked t child =>
    match F t, F child with
    | some p, none => some (Function.update F child (some p))
    | _, _ => none
  | .asked t newBreak ret => (F t).bind fun p =>
    if newBreak = 0 then if ret = p.brk then some F else none
    else if h : p.brk < newBreak ∧ newBreak < Vm.heapLimit then
      if ret = newBreak then some (Function.update F t (some (p.grow newBreak h))) else none
    else none
  | .loaded t x b => (F t).bind fun p => if p.byte x = some b then some F else none
  | .stored t x b => (F t).bind fun p =>
    if p.Writable x then some (Function.update F t (some (p.write x b))) else none
  | .killed t x write => (F t).bind fun p =>
    if p.Forbids x write then some (Function.update F t none) else none
  | .exited t => (F t).map fun _ => Function.update F t none

namespace Vm

/-! ### The events of the paged system -/

/-- The event of an access that ran into the page fault handler. -/
def faulted (s : Vm) (t x : ℕ) (write : Bool) : Event :=
  if (s.userMm t).isNone then .killed t x write else .quiet

/-- One step, with the event that the programs see. -/
def observe (s : Vm) : Act → Except Stop (Event × Vm)
  | .kernelThread => do
    let (_, s') ← s.kernelThread
    .ok (.quiet, s')
  | .exec t argv args program =>
    match s.tasks t with
    | some task =>
      if task.zombie then .ok (.quiet, s)
      else do
        let s' ← s.exec t (task.mm.bind s.mms) (argv.map Fin.val) args program
        .ok (.started t args program, s')
    | none => .ok (.quiet, s)
  | .fork t =>
    match s.userMm t with
    | some (_, mm) => do
      let (child, s') ← s.fork mm
      .ok (.forked t child, s')
    | none => .ok (.quiet, s)
  | .brk t newBreak =>
    match s.userMm t with
    | some (a, mm) => do
      let (ret, s') ← s.brk a mm newBreak
      .ok (.asked t newBreak ret, s')
    | none => .ok (.quiet, s)
  | .load t addr =>
    match s.userMm t with
    | some (_, mm) => do
      let (x, s') ← s.load t mm addr
      .ok (match x with
        | some b => .loaded t addr b
        | none => s'.faulted t addr false, s')
    | none => .ok (.quiet, s)
  | .store t addr b =>
    match s.userMm t with
    | some (_, mm) => do
      let s' ← s.store t mm addr b
      .ok (match s.translate mm.pgd addr true with
        | .granted _ => .stored t addr (b % 256)
        | .fault _ => s'.faulted t addr true, s')
    | none => .ok (.quiet, s)
  | .put t addr b =>
    match s.userMm t with
    | some (_, mm) => do
      let s' ← s.kernelStore mm.pgd addr b
      .ok (.stored t addr (b % 256), s')
    | none => .ok (.quiet, s)
  | .keep bytes => .ok (.quiet, { s with kernel := bytes })
  | .exit t =>
    match s.userMm t with
    | some _ => .ok (.exited t, s.exitSt t)
    | none => .ok (.quiet, s)

variable {s s' s₀ : Vm} {a b c v w f g t q addr : ℕ} {k : Mode} {mm mm' : MmStruct} {vma : Vma}
  {p : Process} {F : Flat} {args : ℕ → ℕ}

/-- Without the events it is the step of the system. -/
theorem follow_observe : follow observe = step := by
  funext s act
  unfold follow
  cases act with
  | kernelThread =>
    rw [observe, step]
    cases s.kernelThread <;> rfl
  | exec t argv args program =>
    rw [observe, step]
    cases s.tasks t with
    | none => rfl
    | some task =>
      simp only
      split
      · rfl
      · cases s.exec t (task.mm.bind s.mms) (argv.map Fin.val) args program <;> rfl
  | fork t =>
    rw [observe, step]
    cases s.userMm t with
    | none => rfl
    | some x =>
      obtain ⟨a, mm⟩ := x
      simp only
      cases s.fork mm <;> rfl
  | brk t newBreak =>
    rw [observe, step]
    cases s.userMm t with
    | none => rfl
    | some x =>
      obtain ⟨a, mm⟩ := x
      simp only
      cases s.brk a mm newBreak <;> rfl
  | load t addr =>
    rw [observe, step]
    cases s.userMm t with
    | none => rfl
    | some x =>
      obtain ⟨a, mm⟩ := x
      simp only
      cases s.load t mm addr <;> rfl
  | store t addr b =>
    rw [observe, step]
    cases s.userMm t with
    | none => rfl
    | some x =>
      obtain ⟨a, mm⟩ := x
      simp only
      cases s.store t mm addr b <;> rfl
  | put t addr b =>
    rw [observe, step]
    cases s.userMm t with
    | none => rfl
    | some x =>
      obtain ⟨a, mm⟩ := x
      simp only
      cases s.kernelStore mm.pgd addr b <;> rfl
  | keep bytes => rfl
  | exit t =>
    rw [observe, step]
    cases s.userMm t <;> rfl

/-! ### The tables of a process hold its memory -/

/-- Areas that share a page agree on it, they come from the archive, and the segments leave the pages of
the heap alone. -/
structure Agreed (img : Tarfs) (mm : MmStruct) : Prop where
  /-- Two areas on one page have the same protection and the same contents. -/
  shared : ∀ x ∈ mm.mmap, ∀ y ∈ mm.mmap, ∀ v, v ∈ x.pages → v ∈ y.pages →
    x.prot = y.prot ∧ x.demandPage img.mem v = y.demandPage img.mem v
  /-- What the areas have of a file is in the archive. -/
  inArchive : ∀ x ∈ mm.mmap, x.InArchive img
  /-- No segment reaches into the heap. -/
  heap : ∀ x ∈ mm.mmap, x.vmFile ≠ none → ∀ v ∈ x.pages,
    v < mm.brk / pgSize ∨ heapLimit / pgSize ≤ v

/-- The flat memory of a process with the address space `a`. -/
structure Shows (s : Vm) (a : ℕ) (mm : MmStruct) (p : Process) : Prop where
  /-- The areas are those of the `mm_struct`. -/
  areas : p.areas = mm.mmap
  /-- The break is the one of the `mm_struct`. -/
  brk : p.brk = mm.brk
  /-- The areas agree. -/
  agreed : Agreed s.archive mm
  /-- There is no byte outside the areas. -/
  absent : ∀ x, (∀ vma ∈ mm.mmap, x / pgSize ∉ vma.pages) → p.byte x = none
  /-- A page that is not mapped will be what its areas say. -/
  unused : ∀ x vma, s.ptes a (x / pgSize) = none → vma ∈ mm.mmap → x / pgSize ∈ vma.pages →
    p.byte x = some (pageByte (vma.demandPage s.archive.mem (x / pgSize)) (x % pgSize))
  /-- A page that is mapped has its bytes in its frame. -/
  mapped : ∀ x f k, s.ptes a (x / pgSize) = some (f, k) →
    p.byte x = some (pageByte (s.mem f) (x % pgSize))
  /-- A page that is mapped read-only is in read-only areas. -/
  readOnly : ∀ v f, s.ptes a v = some (f, .readOnly) → ∀ vma ∈ mm.mmap, v ∈ vma.pages →
    vma.prot = .readOnly

/-- The pages of the address space `c`, and what is in them, did not change. -/
structure Spared (s s' : Vm) (c : ℕ) : Prop where
  archive : s'.archive = s.archive
  ptes : ∀ v, s'.ptes c v = s.ptes c v
  mem : ∀ v f k, s.ptes c v = some (f, k) → s'.mem f = s.mem f

theorem Spared.refl (s : Vm) (c : ℕ) : Spared s s c := ⟨rfl, fun _ => rfl, fun _ _ _ _ => rfl⟩

theorem Spared.trans {s'' : Vm} (h : Spared s s' c) (h' : Spared s' s'' c) : Spared s s'' c where
  archive := h'.archive.trans h.archive
  ptes v := (h'.ptes v).trans (h.ptes v)
  mem v f k hk := (h'.mem v f k ((h.ptes v).trans hk)).trans (h.mem v f k hk)

theorem Grown.spared (h : Grown s s') (ht : TableInv s) (c : ℕ) : Spared s s' c :=
  ⟨h.archive, fun v => congrFun (congrFun h.ptes c) v,
    fun _ _ _ hk => h.mem _ (ht.data hk).1 (ht.data hk).2⟩

/-- One entry of another address space changes, or none. -/
theorem spared_set {x : Option (ℕ × Mode)} (ht : TableInv s) (harch : s'.archive = s.archive)
    (hptes : s'.ptes = Cow.set s.ptes a v x) (hmem : ∀ f, s.Data f → s'.mem f = s.mem f) (hca : c ≠ a) :
    Spared s s' c :=
  ⟨harch, fun w => by rw [hptes, Cow.set_of_ne fun he => hca he.1], fun _ _ _ hk => hmem _ (ht.data hk)⟩

/-- The same frames with the same contents, for the same areas. -/
theorem Shows.congr (h : Shows s a mm p) (hmmap : mm'.mmap = mm.mmap) (hbrk : mm'.brk = mm.brk)
    (harch : s'.archive = s.archive)
    (hframes : ∀ v, (s'.ptes b v).map Prod.fst = (s.ptes a v).map Prod.fst)
    (hmem : ∀ v f k, s.ptes a v = some (f, k) → s'.mem f = s.mem f)
    (hmode : ∀ v f, s'.ptes b v = some (f, .readOnly) → ∀ vma ∈ mm.mmap, v ∈ vma.pages →
      vma.prot = .readOnly) : Shows s' b mm' p where
  areas := h.areas.trans hmmap.symm
  brk := h.brk.trans hbrk.symm
  agreed := by
    rw [harch]
    exact ⟨by rw [hmmap]; exact h.agreed.shared, by rw [hmmap]; exact h.agreed.inArchive,
      by rw [hmmap, hbrk]; exact h.agreed.heap⟩
  absent := by
    rw [hmmap]
    exact h.absent
  unused x vma hnone hvma hv := by
    have hold := hframes (x / pgSize)
    rw [hnone, Option.map_none] at hold
    rw [harch]
    exact h.unused x vma (Option.map_eq_none_iff.1 hold.symm) (hmmap ▸ hvma) hv
  mapped x f k hk := by
    have hold := hframes (x / pgSize)
    rw [hk, Option.map_some] at hold
    obtain ⟨y, hy, hyf⟩ := Option.map_eq_some_iff.1 hold.symm
    obtain ⟨g, k'⟩ := y
    obtain rfl : g = f := hyf
    rw [hmem _ g k' hy]
    exact h.mapped x g k' hy
  readOnly := by
    rw [hmmap]
    exact hmode

theorem Shows.spared (h : Shows s a mm p) (hs : Spared s s' a) : Shows s' a mm p :=
  h.congr rfl rfl hs.archive (fun v => by rw [hs.ptes v]) hs.mem fun v f hk =>
    h.readOnly v f ((hs.ptes v).symm.trans hk)

/-- A page gets a frame with the bytes that the program sees there. -/
theorem Shows.set (h : Shows s a mm p) (ht : TableInv s) (harch : s'.archive = s.archive)
    (hptes : s'.ptes = Cow.set s.ptes a v (some (g, k)))
    (hmem : ∀ f, s.Data f → s'.mem f = s.mem f)
    (hbyte : ∀ x, x / pgSize = v → p.byte x = some (pageByte (s'.mem g) (x % pgSize)))
    (hmode : k = .readOnly → ∀ vma ∈ mm.mmap, v ∈ vma.pages → vma.prot = .readOnly) :
    Shows s' a mm p where
  areas := h.areas
  brk := h.brk
  agreed := harch ▸ h.agreed
  absent := h.absent
  unused x vma hnone hvma hv := by
    have hne : x / pgSize ≠ v := by
      rintro rfl
      rw [hptes, Cow.set_self] at hnone
      cases hnone
    rw [hptes, Cow.set_of_ne fun he => hne he.2] at hnone
    rw [harch]
    exact h.unused x vma hnone hvma hv
  mapped x f k' hk := by
    rw [hptes] at hk
    rcases Cow.set_eq_some hk with ⟨-, hx, heq⟩ | ⟨-, hk⟩
    · obtain ⟨rfl, -⟩ := Prod.mk.inj (Option.some.inj heq)
      exact hbyte x hx
    · rw [hmem f (ht.data hk)]
      exact h.mapped x f k' hk
  readOnly w f hk vma hvma hv := by
    rw [hptes] at hk
    rcases Cow.set_eq_some hk with ⟨-, rfl, heq⟩ | ⟨-, hk⟩
    · exact hmode (Prod.mk.inj (Option.some.inj heq)).2 vma hvma hv
    · exact h.readOnly w f hk vma hvma hv

/-! ### Accesses -/

section Access

variable (h : VmInv s) (ht : s.userMm t = some (a, mm)) (hp : Shows s a mm p)

include h ht hp

/-- A fault that does not end the process does not change what it sees. -/
theorem Shows.handled (hh : Handled s t a mm addr s') :
    s' = s.exitSt t ∨ s'.userMm t = some (a, mm) ∧ Shows s' a mm p := by
  cases hh with
  | @mapped _ vma g page hvma hfind hnone hm hfills =>
    have hv := mem_pages_of_holds (holds_of_searchVma hfind).2
    have hin := hp.agreed.inArchive vma hvma _ hv
    refine .inr ⟨(userMm_congr hm.mms (congrFun hm.tasks t)).trans ht,
      hp.set h.tables hm.archive hm.ptes hm.mem (fun x hx => ?_) fun hmode vma' hvma' hv' => ?_⟩
    · rw [hm.memNew, hfills.archive hin _ (Nat.mod_lt x (by decide)), ← hx]
      exact hp.unused x vma (by rw [hx]; exact hnone) hvma (by rw [hx]; exact hv)
    · rw [(hp.agreed.shared vma' hvma' vma hvma _ hv' hv).1]
      cases hprot : vma.prot with
      | readOnly => rfl
      | readWrite =>
        rw [hprot] at hmode
        cases hmode
  | copied hcow hshared hc =>
    refine .inr ⟨(userMm_congr hc.mms (congrFun hc.tasks t)).trans ht,
      hp.set h.tables hc.archive hc.ptes hc.mem (fun x hx => ?_) fun hmode => by cases hmode⟩
    rw [hc.memNew]
    exact hp.mapped x _ _ (by rw [hx]; exact hcow)
  | owned hcow hsole ho =>
    refine .inr ⟨(userMm_congr ho.mms (congrFun ho.tasks t)).trans ht,
      hp.set h.tables ho.archive ho.ptes ho.mem (fun x hx => ?_) fun hmode => by cases hmode⟩
    rw [ho.mem _ (h.tables.data hcow)]
    exact hp.mapped x _ _ (by rw [hx]; exact hcow)
  | exited => exact .inl rfl

omit ht hp in
theorem spared_of_handled (hca : c ≠ a) (hh : Handled s t a mm addr s') : Spared s s' c := by
  cases hh with
  | mapped hvma hfind hnone hm hfills => exact spared_set h.tables hm.archive hm.ptes hm.mem hca
  | copied hcow hshared hc => exact spared_set h.tables hc.archive hc.ptes hc.mem hca
  | owned hcow hsole ho => exact spared_set h.tables ho.archive ho.ptes ho.mem hca
  | exited => exact ⟨rfl, fun _ => rfl, fun _ _ _ _ => rfl⟩

omit hp in
/-- A store to a page that is shared copy-on-write does not end the process. -/
theorem pageFaultHandler_cow (hv : addr / pgSize < userPages)
    (hcow : s.ptes a (addr / pgSize) = some (g, .cow)) :
    Yields (s.pageFaultHandler t mm addr true true)
      (fun s' => s'.userMm t = some (a, mm) ∧ ∃ f, s'.ptes a (addr / pgSize) = some (f, .writable))
      fun _ => True := by
  obtain ⟨hmm, -⟩ := userMm_eq_some ht
  have hr := roots_of_mm hmm
  obtain ⟨-, f, htab, hne, hg, hk⟩ := exists_table_of_ptes hcow
  have h9 := (modeOf_cow (h.tables.flags a _ f _ htab rfl hne)).1 hk.symm
  have hcount : s.pages.getPageRef g = .ok (s.ref g) := if_pos (h.tables.frames a _ g _ hcow).2
  unfold pageFaultHandler
  rw [if_neg (by decide), if_pos rfl, h.tables.pteTableTrick_eq hr hv htab, ok_bind, if_neg hne,
    if_pos h9, ← hg, hcount, ok_bind]
  split
  · next hgt =>
    refine (copied_put h.tables hr hv htab h.bounded.lt hcow hgt).imp ?_ fun _ _ => trivial
    rintro s' ⟨n, hc⟩
    refine ⟨(userMm_congr hc.mms (congrFun hc.tasks t)).trans ht, n, ?_⟩
    rw [hc.ptes]
    exact Cow.set_self _
  · have ho := owned_put h.tables hv htab hcow
    refine ⟨(userMm_congr ho.mms (congrFun ho.tasks t)).trans ht, g, ?_⟩
    rw [ho.ptes]
    exact Cow.set_self _

/-- An access ends the process only if the areas forbid it. -/
theorem forbids_of_killed (hv : addr / pgSize < userPages) {write present : Bool}
    (hfault : s.translate mm.pgd addr write = .fault present)
    (hok : s.pageFaultHandler t mm addr present write = .ok s') (hdead : s'.userMm t = none) :
    p.Forbids addr write := by
  obtain ⟨hmm, -⟩ := userMm_eq_some ht
  have hr := roots_of_mm hmm
  rw [h.tables.translate_eq hr hv] at hfault
  intro vma hvma hholds
  rw [hp.areas] at hvma
  cases hpte : s.ptes a (addr / pgSize) with
  | none =>
    rw [hpte] at hfault
    obtain rfl := (Access.fault.inj hfault).symm
    rw [pageFaultHandler, if_pos rfl] at hok
    cases hfind : searchVma addr mm with
    | none => exact absurd hholds (by simpa using List.find?_eq_none.1 hfind vma hvma)
    | some vma' =>
      rw [hfind] at hok
      have hsame : s'.userMm t = s.userMm t := by
        rcases (mapAPage_spec h.tables hr hv vma').of_eq_ok hok with ⟨-, -, hg⟩ | ⟨-, g, page, hm, -⟩
        · exact userMm_congr hg.mms (congrFun hg.tasks t)
        · exact userMm_congr hm.mms (congrFun hm.tasks t)
      rw [hsame, ht] at hdead
      cases hdead
  | some x =>
    obtain ⟨g, k⟩ := x
    rw [hpte] at hfault
    simp only at hfault
    split at hfault
    · cases hfault
    · next hno =>
      obtain rfl := (Access.fault.inj hfault).symm
      rw [not_or] at hno
      obtain rfl : write = true := by simpa using hno.2
      refine ⟨rfl, ?_⟩
      cases k with
      | writable => exact absurd rfl hno.1
      | readOnly => exact hp.readOnly _ g hpte vma hvma (mem_pages_of_holds hholds)
      | cow =>
        obtain ⟨hlive, -⟩ := (pageFaultHandler_cow h ht hv hpte).of_eq_ok hok
        rw [hlive] at hdead
        cases hdead

/-- The pages that are mapped are in the areas. -/
theorem Shows.of_mapped (hmap : s.ptes a (addr / pgSize) = some (f, k)) :
    p.byte addr = some (pageByte (s.mem f) (addr % pgSize)) ∧
      (k = .writable → p.Writable addr) := by
  obtain ⟨hmm, -⟩ := userMm_eq_some ht
  refine ⟨hp.mapped addr f k hmap, ?_⟩
  rintro rfl
  obtain ⟨-, hrw⟩ := h.covered a mm _ f _ hmm hmap
  obtain ⟨vma, hvma, hv, hw⟩ := hrw (by decide)
  refine ⟨vma, by rw [hp.areas]; exact hvma, hv, ?_⟩
  cases hprot : vma.prot with
  | readWrite => rfl
  | readOnly =>
    rw [Vma.writable, hprot] at hw
    cases hw

/-- **A store** that goes through. -/
theorem Shows.stored (hmap : s.ptes a (addr / pgSize) = some (f, .writable)) (byte : ℕ) :
    Shows (s.putPage f (pageSetByte (s.mem f) (addr % pgSize) byte)) a mm (p.write addr (byte % 256)) := by
  obtain ⟨hmm, -⟩ := userMm_eq_some ht
  obtain ⟨-, hptes, -⟩ := h.tables.putPage (h.tables.data hmap).2
    (pageSetByte (s.mem f) (addr % pgSize) byte)
  have hbyte : ∀ x, x ≠ addr → (p.write addr (byte % 256)).byte x = p.byte x := fun x hx =>
    Function.update_of_ne hx ..
  refine ⟨hp.areas, hp.brk, hp.agreed, fun x hno => ?_, fun x vma hnone hvma hv => ?_,
    fun x g k hk => ?_, by rw [hptes]; exact hp.readOnly⟩
  · rw [hbyte x]
    · exact hp.absent x hno
    · rintro rfl
      obtain ⟨vma, hvma, hv⟩ := (h.covered a mm _ f _ hmm hmap).1
      exact hno vma hvma hv
  · rw [hptes] at hnone
    rw [hbyte x]
    · exact hp.unused x vma hnone hvma hv
    · rintro rfl
      rw [hmap] at hnone
      cases hnone
  · rw [hptes] at hk
    by_cases hpage : x / pgSize = addr / pgSize
    · rw [hpage, hmap] at hk
      obtain ⟨rfl, rfl⟩ := Prod.mk.inj (Option.some.inj hk)
      have hself : (s.putPage f (pageSetByte (s.mem f) (addr % pgSize) byte)).mem f =
          pageSetByte (s.mem f) (addr % pgSize) byte := Function.update_self ..
      rw [hself, pageByte_pageSetByte]
      by_cases hx : x = addr
      · rw [hx, if_pos rfl]
        exact Function.update_self ..
      · rw [hbyte x hx, if_neg fun hoff => hx (by unfold pgSize at hpage hoff; omega)]
        exact hp.mapped x f _ (by rw [hpage]; exact hmap)
    · have hgf : g ≠ f := by
        rintro rfl
        exact hpage (h.cow.isolated a _ g hmap a _ k hk).2
      have hmem : (s.putPage f (pageSetByte (s.mem f) (addr % pgSize) byte)).mem g = s.mem g :=
        Function.update_of_ne hgf ..
      rw [hmem, hbyte x fun hx => hpage (by rw [hx])]
      exact hp.mapped x g k hk

omit ht hp in
theorem spared_stored (hmap : s.ptes a v = some (f, .writable)) (page : ℕ → ℕ) (hca : c ≠ a) :
    Spared s (s.putPage f page) c := by
  obtain ⟨-, hptes, -⟩ := h.tables.putPage (h.tables.data hmap).2 page
  refine ⟨rfl, fun w => by rw [hptes], fun w g k hk => Function.update_of_ne ?_ ..⟩
  rintro rfl
  exact hca (h.cow.isolated a _ g hmap c w k hk).1

end Access

end Vm

end PlumOs
