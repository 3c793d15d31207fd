import PlumOs.Fs.Archive
import PlumOs.Lib.Bytes
import PlumOs.Lib.Radix
import PlumOs.Mm.PageAlloc

/-!
# Address spaces (`sys/mm.c`, `sys/mmap.c`, `sys/syscall.c`, `sys/process.c`)

A process has an `mm_struct` with a list of areas (`vma_struct`) and a page directory.  Pages are
mapped when they are first used (`map_a_page`); `fork` shares the mapped pages copy-on-write
(`copy_vma_deep`), and `page_fault_handler` gives a process that writes to such a page a copy of
its own, or the page itself if `get_page_ref` says that nobody else has it.

* `Vm` : the counts of the page frames, their contents, and the address spaces;
* `mapAPage`, `pageFaultHandler`, `copyVmaDeep`, `fork`, `brk`, `exec` : the functions of the
  source;
* `mmuWalk`, `load`, `store` : what the processor does with the tables;
* `kernelLoad`, `kernelStore` : the same in kernel mode;
* `step` : one action of the system.

Page tables are ordinary pages: they live in `mem`, as words, and so do the pages of the users.  A
`mm_struct`, a `vma_struct`, a `task_struct` and a kernel stack each take a page of their own, which
is allocated here and counted; what they hold is kept in `mms` and `tasks`, under the frame of the
page, and as bytes in `kernel`.  `vm_file` points to an open file, of which `start_addr` is the only
field used.  `map_a_page` copies a page of it from wherever that is in the memory of the kernel: the
archive is all that stays as it is.

The translation cache is left out: a store goes through if the entries in memory allow it.  A walk looks
at the bits P, RW and US of an entry: the size bit and the reserved ones are never set by the kernel.
-/

namespace PlumOs

/-! ### Page-table entries (`sys/pgtable.h`) -/

/-- `PTE_P`: present. -/
abbrev pteP : ℕ := 1

/-- `PTE_RW`: writable. -/
abbrev pteRw : ℕ := 2

/-- `PTE_US`: for the user. -/
abbrev pteUs : ℕ := 4

/-- `PTE_COW`: one of the bits the processor leaves to the kernel. -/
abbrev pteCow : ℕ := 512

/-- `SELF_REF_INDEX`: the entry of a page directory that refers to the directory. -/
abbrev selfRefIndex : ℕ := 0x1fe

/-- `VA2PA(frame) | prot`; the address of a frame is aligned, so no bits meet. -/
def entry (pfn prot : ℕ) : ℕ := pfn * pgSize + prot

/-- `PA2VA(entry) & ~(PG_SIZE - 1)`, as the number of the frame. -/
def frameOf (e : ℕ) : ℕ := e / pgSize

/-- `get_pgd_off`; the shifts are those of a `uint64_t`. -/
def getPgdOff (pfn : ℕ) : ℕ := pfn * 2 ^ 28 % 2 ^ 64 / 2 ^ 55

/-- `get_pud_off`. -/
def getPudOff (pfn : ℕ) : ℕ := pfn * 2 ^ 37 % 2 ^ 64 / 2 ^ 55

/-- `get_pmd_off`. -/
def getPmdOff (pfn : ℕ) : ℕ := pfn * 2 ^ 46 % 2 ^ 64 / 2 ^ 55

/-- `get_pte_off`. -/
def getPteOff (pfn : ℕ) : ℕ := pfn * 2 ^ 55 % 2 ^ 64 / 2 ^ 55

/-! ### The memory of the kernel -/

/-- `PA2VA`: the address at which the kernel reaches a physical one. -/
def pa2va (addr : ℕ) : ℕ := addr + 0xffffffff80000000

/-- The stop of `page_fault_handler` for a fault in kernel mode. -/
def Stop.kernelFault : Stop := .panic "ERROR: unable to handle this pagefault!"

/-- The stop of `get_free_page` if there is no page. -/
def Stop.outOfMemory : Stop := .panic "[get_free_page] ERROR : out of memory!"

/-- All the bytes of a page, from the address `fp` on, are in the archive. -/
def Tarfs.HoldsPage (img : Tarfs) (fp : ℕ) : Prop :=
  img.start ≤ fp ∧ fp + pgSize ≤ img.stop ∧ fp + pgSize ≤ 2 ^ 64

instance (img : Tarfs) (fp : ℕ) : Decidable (img.HoldsPage fp) := inferInstanceAs (Decidable (_ ∧ _))

/-- The page that is a copy of the bytes from the address `fp` on. -/
def filePage (archive : ℕ → ℕ) (fp : ℕ) (i : ℕ) : ℕ :=
  packBytes ((List.range 8).map fun k => archive ((fp + (8 * i + k)) % 2 ^ 64))

/-! ### Areas -/

/-- The end of the user half of the address space, and `user_stack` of a new process. -/
abbrev userTop : ℕ := 0x800000000000

/-- The values of the field `prot` of an area. -/
inductive Prot where
  | readOnly
  | readWrite
  deriving DecidableEq, Repr

/-- The bits of a page-table entry that `prot` stands for. -/
def Prot.bits : Prot → ℕ
  | .readOnly => 0
  | .readWrite => pteRw

/-- `prot & PTE_RW` is 0 or 2. -/
theorem Prot.bits_ne_one (prot : Prot) : prot.bits &&& pteRw ≠ 1 := by
  cases prot <;> decide

/-- `map_pflags_to_vmprot`. -/
def mapPflagsToVmprot (pFlags : ℕ) : Prot :=
  match pFlags with
  | 2 | 3 | 6 | 7 => .readWrite
  | _ => .readOnly

/-- `vma_struct`: an area of the user half; without a file it is for the stack or the heap. -/
structure Vma where
  /-- The first address. -/
  vmStart : ℕ
  /-- The address behind the last one. -/
  vmEnd : ℕ
  /-- What stores are allowed. -/
  prot : Prot
  /-- Where the segment starts in the file. -/
  vmPgoff : ℕ
  /-- The length of the segment in the file. -/
  vmFilesz : ℕ
  /-- `start_addr` of the file, if there is one. -/
  vmFile : Option ℕ
  /-- The last page is the one of `vm_end - 1`, which does not wrap around. -/
  pos : 0 < vmEnd
  ordered : vmStart ≤ vmEnd
  inUser : vmEnd ≤ userTop
  anonymous : vmFile = none → prot = .readWrite

namespace Vma

/-- The addresses of the area. -/
def Holds (vma : Vma) (addr : ℕ) : Prop := vma.vmStart ≤ addr ∧ addr < vma.vmEnd

instance (vma : Vma) (addr : ℕ) : Decidable (vma.Holds addr) := inferInstanceAs (Decidable (_ ∧ _))

/-- The pages from `pfn_start` to `pfn_end`, as `copy_vma_deep` runs through them. -/
def pages (vma : Vma) : List ℕ :=
  List.range' (vma.vmStart / pgSize) ((vma.vmEnd - 1) / pgSize + 1 - vma.vmStart / pgSize)

/-- `old_vmap->prot & PTE_RW`. -/
def writable (vma : Vma) : Bool := vma.prot.bits &&& pteRw != 0

/-- `vma->vm_file->start_addr + vma->vm_pgoff + vm_inner_off`: where the page of an address comes
from. -/
def filePos (vma : Vma) (start pfn : ℕ) : ℕ :=
  (start + vma.vmPgoff + (pfn * pgSize + 2 ^ 64 - vma.vmStart) % 2 ^ 64) % 2 ^ 64

/-- The page comes from the archive, if the area has a file. -/
def PageInArchive (vma : Vma) (img : Tarfs) (pfn : ℕ) : Prop :=
  ∀ start ∈ vma.vmFile, img.HoldsPage (vma.filePos start pfn)

/-- All the pages of the area do. -/
def InArchive (vma : Vma) (img : Tarfs) : Prop := ∀ pfn ∈ vma.pages, vma.PageInArchive img pfn

instance (vma : Vma) (img : Tarfs) (pfn : ℕ) : Decidable (vma.PageInArchive img pfn) :=
  inferInstanceAs (Decidable (∀ start ∈ vma.vmFile, _))

instance (vma : Vma) (img : Tarfs) : Decidable (vma.InArchive img) :=
  inferInstanceAs (Decidable (∀ pfn ∈ vma.pages, _))

end Vma

/-- `mm_struct`. -/
structure MmStruct where
  /-- The areas, in the order of the list. -/
  mmap : List Vma
  /-- The frame of the directory. -/
  pgd : ℕ
  /-- Where the code ends, if the first segment is code. -/
  codeEnd : ℕ
  /-- Where the data ends, if the second segment is data. -/
  dataEnd : ℕ
  /-- `user_heap`, where the heap starts. -/
  userHeap : ℕ
  /-- The break. -/
  brk : ℕ

/-- `search_vma`: the first area that holds the address. -/
def searchVma (addr : ℕ) (mm : MmStruct) : Option Vma := mm.mmap.find? fun vma => vma.Holds addr

/-! ### State -/

/-- The fields of `task_struct` that matter here: `mm`, and whether the task is a zombie. -/
structure VmTask where
  /-- The frame of its `mm_struct`; a thread has none. -/
  mm : Option ℕ
  /-- The task has exited. -/
  zombie : Bool

/-- Physical memory and the address spaces in it. -/
structure Vm where
  /-- The reference counts. -/
  pages : PageState
  /-- The words of the page frames. -/
  mem : ℕ → ℕ → ℕ
  /-- The address spaces, by the frame of their `mm_struct`. -/
  mms : ℕ → Option MmStruct
  /-- The tasks, by the frame of their `task_struct`. -/
  tasks : ℕ → Option VmTask
  /-- The archive with the programs, to which nothing is stored. -/
  archive : Tarfs
  /-- The bytes that the kernel keeps for itself, by their addresses: its variables, and the structures
  in its pages.  `none` is for the bytes that are in `mem`. -/
  kernel : ℕ → Option ℕ
  /-- The kernel's page directory at `pgd_start`. -/
  pgdStart : ℕ → ℕ
  /-- `setup_initial_pgtables` fills the entries 0x1fe and 0x1ff, and none of the user half: those are
  0 if the memory was. -/
  pgdUser : ∀ off, off < 256 → pgdStart off = 0

namespace Vm

/-- The reference count of a frame. -/
def ref (s : Vm) (pfn : ℕ) : ℤ := s.pages.pageArray pfn

/-- `get_zero_page`. -/
def getZeroPage (s : Vm) : Except Stop (ℕ × Vm) := do
  let (pfn, pages) ← s.pages.getFreePage
  .ok (pfn, { s with pages := pages, mem := Function.update s.mem pfn fun _ => 0 })

/-- `put_pgd_entry`, `put_pud_entry`, `put_pmd_entry`, `put_pte_entry`. -/
def putEntry (s : Vm) (table off pfn prot : ℕ) : Vm :=
  { s with mem := Radix.write s.mem table off (entry pfn prot) }

/-- Replace the contents of a page. -/
def putPage (s : Vm) (pfn : ℕ) (page : ℕ → ℕ) : Vm :=
  { s with mem := Function.update s.mem pfn page }

/-- `copy_page`. -/
def copyPage (s : Vm) (dest src : ℕ) : Vm := s.putPage dest (s.mem src)

/-- `alloc_pgd`: a copy of the kernel's directory that refers to itself. -/
def allocPgd (s : Vm) : Except Stop (ℕ × Vm) := do
  let (p, s) ← s.getZeroPage
  .ok (p, (s.putPage p s.pgdStart).putEntry p selfRefIndex p (pteP + pteRw))

/-- The address space of a task that runs in user mode. -/
def userMm (s : Vm) (t : ℕ) : Option (ℕ × MmStruct) :=
  match s.tasks t with
  | some task => if task.zombie then none else task.mm.bind fun a => (s.mms a).map fun mm => (a, mm)
  | none => none

/-- `exit_st`: the task becomes a zombie and never runs again; its pages stay. -/
def exitSt (s : Vm) (t : ℕ) : Vm :=
  { s with tasks := Function.update s.tasks t ((s.tasks t).map fun task =>
      { task with zombie := true }) }

/-- `insert_vma`: the area goes to the end of the list. -/
def insertVma (s : Vm) (a : ℕ) (vma : Vma) : Vm :=
  { s with mms := Function.update s.mms a ((s.mms a).map fun mm =>
      { mm with mmap := mm.mmap ++ [vma] }) }

/-! ### The processor in kernel mode -/

/-- A walk through the tables: the frame at the end, and whether all the entries on the way are
for the user and writable; `none` if one of them is not present.  The page-size bit and the reserved bits
are not looked at: the kernel sets none of them, and an entry that a frame holds from an earlier use is
reached only through a table that was not cleared. -/
def mmuWalk (mem : ℕ → ℕ → ℕ) (table : ℕ) : List ℕ → Option (ℕ × Bool × Bool)
  | [] => some (table, true, true)
  | i :: is =>
    let e := mem table i
    if e.testBit 0 then
      (mmuWalk mem (frameOf e) is).map fun x => (x.1, e.testBit 2 && x.2.1, e.testBit 1 && x.2.2)
    else none

/-- The frame of an access in kernel mode to an address of the user half; the first address above it
is not canonical. -/
def kernelFrame (s : Vm) (pgd addr : ℕ) : Except Stop ℕ :=
  let pfn := addr / pgSize
  if addr < userTop then
    match mmuWalk s.mem pgd [getPgdOff pfn, getPudOff pfn, getPmdOff pfn, getPteOff pfn] with
    | some (frame, _) => .ok frame
    | none => .error .kernelFault
  else .error .kernelFault

/-- A load in kernel mode.  The kernel maps the physical memory and, behind `SELF_REF_INDEX`, the tables;
its other half is that of the user. -/
@[irreducible] def kernelLoad (s : Vm) (pgd addr : ℕ) : Except Stop ℕ :=
  if s.archive.start ≤ addr ∧ addr < s.archive.stop then .ok (s.archive.mem addr)
  else if pa2va 0 ≤ addr ∧ addr < pa2va phymemSize then
    .ok ((s.kernel addr).getD (pageByte (s.mem ((addr - pa2va 0) / pgSize)) (addr % pgSize)))
  else if addr < 2 ^ 64 ∧ addr / 2 ^ 39 = 2 ^ 25 - 2 then
    let pfn := addr / pgSize
    match mmuWalk s.mem pgd [selfRefIndex, getPudOff pfn, getPmdOff pfn, getPteOff pfn] with
    | some (frame, _) => .ok (pageByte (s.mem frame) (addr % pgSize))
    | none => .error .kernelFault
  else do
    let frame ← s.kernelFrame pgd addr
    .ok (pageByte (s.mem frame) (addr % pgSize))

/-- A store in kernel mode to an address of the user half: the processor looks at the presence of the page
only. -/
def kernelStore (s : Vm) (pgd addr b : ℕ) : Except Stop Vm := do
  let frame ← s.kernelFrame pgd addr
  .ok (s.putPage frame (pageSetByte (s.mem frame) (addr % pgSize) b))

/-! ### Demand paging -/

/-- The next table on the way to a page, which is allocated if the entry is 0.  The same code is
there for `pud`, `pmd` and `pte`, in `map_a_page` and in `copy_vma_deep`. -/
def nextTable (s : Vm) (table off : ℕ) : Except Stop (ℕ × Vm) :=
  if s.mem table off = 0 then do
    let (page, s) ← s.getZeroPage
    .ok (page, s.putEntry table off page (pteP + pteRw + pteUs))
  else .ok (frameOf (s.mem table off), s)

/-- The first part of `map_a_page`: the tables on the way to the page of `addr`, and a page of zeros, which
is writable until the data is there; no page if there is one. -/
def reservePage (s : Vm) (pgd addr : ℕ) : Except Stop (Option ℕ × Vm) := do
  let pfn := addr / pgSize
  let (pud, s) ← s.nextTable pgd (getPgdOff pfn)
  let (pmd, s) ← s.nextTable pud (getPudOff pfn)
  let (pte, s) ← s.nextTable pmd (getPmdOff pfn)
  if s.mem pte (getPteOff pfn) = 0 then do
    let (pgFrame, s) ← s.getZeroPage
    .ok (some pgFrame, s.putEntry pte (getPteOff pfn) pgFrame (pteP + pteRw + pteUs))
  else .ok (none, s)

/-- `*(usrp + i) = *(fp + i)`, for `n` bytes from the byte `i` on: the page of `usrp` is `pgFrame`. -/
def copyFile (pgd pgFrame fp : ℕ) : ℕ → ℕ → Vm → Except Stop Vm
  | 0, _, s => .ok s
  | n + 1, i, s => do
    let b ← s.kernelLoad pgd ((fp + i) % 2 ^ 64)
    copyFile pgd pgFrame fp n (i + 1) (s.putPage pgFrame (pageSetByte (s.mem pgFrame) i b))

/-- The last part of `map_a_page`: the entry of the page gets its flags. -/
def protectPage (s : Vm) (pgd pfn : ℕ) (prot : Prot) : Vm :=
  let pud := frameOf (s.mem pgd (getPgdOff pfn))
  let pmd := frameOf (s.mem pud (getPudOff pfn))
  let pte := frameOf (s.mem pmd (getPmdOff pfn))
  let pgFrame := frameOf (s.mem pte (getPteOff pfn))
  s.putEntry pte (getPteOff pfn) pgFrame (pteP + prot.bits + pteUs)

/-- `map_a_page`: map the page of `addr`, with its contents if the area has a file. -/
def mapAPage (s : Vm) (pgd : ℕ) (vma : Vma) (addr : ℕ) : Except Stop Vm := do
  match ← s.reservePage pgd addr with
  | (none, s) => .ok s
  | (some pgFrame, s) =>
    match vma.vmFile with
    | none => .ok s
    | some start => do
      let s ← copyFile pgd pgFrame (vma.filePos start (addr / pgSize)) pgSize 0 s
      .ok (s.protectPage pgd (addr / pgSize) vma.prot)

/-! ### The processor in user mode -/

/-- What the processor makes of an access in user mode. -/
inductive Access where
  | granted (pfn : ℕ)
  | fault (present : Bool)
  deriving DecidableEq, Repr

/-- The translation of a user address. -/
def translate (s : Vm) (pgd addr : ℕ) (write : Bool) : Access :=
  let pfn := addr / pgSize
  match mmuWalk s.mem pgd [getPgdOff pfn, getPudOff pfn, getPmdOff pfn, getPteOff pfn] with
  | none => .fault false
  | some (frame, us, rw) => if us && (rw || !write) then .granted frame else .fault true

/-- The table that `get_pte_entry_addr_trick(addr)` leads to: the first step of the walk goes from
the directory to the directory, so that the walk ends one level higher. -/
def pteTableTrick (s : Vm) (pgd addr : ℕ) : Except Stop ℕ :=
  let pfn := addr / pgSize
  match mmuWalk s.mem pgd [selfRefIndex, getPgdOff pfn, getPudOff pfn, getPmdOff pfn] with
  | some (table, _) => .ok table
  | none => .error (.panic "ERROR: unable to handle this pagefault!")

/-- `page_fault_handler`, for a fault of the task `t` in user mode; `present` and `write` are the
bits `PFEC_P` and `PFEC_RW` of the error code. -/
def pageFaultHandler (s : Vm) (t : ℕ) (mm : MmStruct) (addr : ℕ) (present write : Bool) :
    Except Stop Vm :=
  if present = false then
    match searchVma addr mm with
    | some vma => s.mapAPage mm.pgd vma addr
    | none => .ok (s.exitSt t)
  else if write then do
    let off := getPteOff (addr / pgSize)
    let table ← s.pteTableTrick mm.pgd addr
    let pte := s.mem table off
    if pte = 0 then .error (.assertFail "page_fault_handler")
    else if pte.testBit 9 then do
      let count ← s.pages.getPageRef (frameOf pte)
      if count > 1 then do
        let (pgFrame, s) ← s.getZeroPage
        let s := s.copyPage pgFrame (frameOf pte)
        let table ← s.pteTableTrick mm.pgd addr
        let s := s.putEntry table off pgFrame (pteP + pteRw + pteUs)
        let pages ← s.pages.deductPageRef (frameOf pte)
        .ok { s with pages := pages }
      else .ok (s.putEntry table off (frameOf pte) (pteP + pteRw + pteUs))
    else .ok (s.exitSt t)
  else .ok (s.exitSt t)

/-- A load in user mode: the byte, or the state after the page fault. -/
def load (s : Vm) (t : ℕ) (mm : MmStruct) (addr : ℕ) : Except Stop (Option ℕ × Vm) :=
  match s.translate mm.pgd addr false with
  | .granted pfn => .ok (some (pageByte (s.mem pfn) (addr % pgSize)), s)
  | .fault present => do
    let s ← s.pageFaultHandler t mm addr present false
    .ok (none, s)

/-- A store in user mode: it goes through if the entries are writable, otherwise the handler
runs. -/
def store (s : Vm) (t : ℕ) (mm : MmStruct) (addr b : ℕ) : Except Stop Vm :=
  match s.translate mm.pgd addr true with
  | .granted pfn =>
    let off := addr % pgSize
    .ok { s with mem := Radix.write s.mem pfn (off / 8) (setByte (s.mem pfn (off / 8)) (off % 8) b) }
  | .fault present => s.pageFaultHandler t mm addr present true

/-! ### `fork` -/

/-- The entries for a page that is mapped: copy-on-write for both processes if the area is writable,
otherwise a read-only entry for the child. -/
def shareEntries (s : Vm) (pte npte off pgFrame : ℕ) (rw : Bool) : Vm :=
  if rw then
    (s.putEntry pte off pgFrame (pteP + pteCow + pteUs)).putEntry npte off pgFrame
      (pteP + pteCow + pteUs)
  else s.putEntry npte off pgFrame (pteP + pteUs)

/-- The body of the loop of `copy_vma_deep`, for the page `i`. -/
def copyVmaPage (s : Vm) (newPgd : ℕ) (oldVmap : Vma) (oldPgd i : ℕ) : Except Stop Vm :=
  if s.mem oldPgd (getPgdOff i) = 0 then .ok s
  else do
    let pud := frameOf (s.mem oldPgd (getPgdOff i))
    let (npud, s) ← s.nextTable newPgd (getPgdOff i)
    if s.mem pud (getPudOff i) = 0 then .ok s
    else do
      let pmd := frameOf (s.mem pud (getPudOff i))
      let (npmd, s) ← s.nextTable npud (getPudOff i)
      if s.mem pmd (getPmdOff i) = 0 then .ok s
      else do
        let pte := frameOf (s.mem pmd (getPmdOff i))
        let (npte, s) ← s.nextTable npmd (getPmdOff i)
        if s.mem pte (getPteOff i) = 0 then .ok s
        else do
          let pgFrame := frameOf (s.mem pte (getPteOff i))
          let s := s.shareEntries pte npte (getPteOff i) pgFrame oldVmap.writable
          let pages ← s.pages.addPageRef pgFrame
          .ok { s with pages := pages }

/-- `copy_vma_deep`. -/
def copyVmaDeep (s : Vm) (newPgd : ℕ) (oldVmap : Vma) (oldPgd : ℕ) : Except Stop Vm :=
  oldVmap.pages.foldlM (fun s i => s.copyVmaPage newPgd oldVmap oldPgd i) s

/-- The body of the loop of `copy_mm`; `copy_vma` copies all the fields that are here. -/
def copyArea (s : Vm) (new newPgd oldPgd : ℕ) (oldVmap : Vma) : Except Stop Vm := do
  let (_, s) ← s.getZeroPage
  let s ← s.copyVmaDeep newPgd oldVmap oldPgd
  .ok (s.insertVma new oldVmap)

/-- `copy_mm`. -/
def copyMm (s : Vm) (new newPgd : ℕ) (old : MmStruct) : Except Stop Vm :=
  old.mmap.foldlM (fun s vma => s.copyArea new newPgd old.pgd vma) s

/-- `fork` by a task with the address space `old`: the child and the state. -/
def fork (s : Vm) (old : MmStruct) : Except Stop (ℕ × Vm) := do
  let (tsp, s) ← s.getZeroPage
  let (_, s) ← s.getZeroPage
  let (new, s) ← s.getZeroPage
  let (pgd, s) ← s.allocPgd
  let mm : MmStruct := { old with mmap := [], pgd := pgd }
  let s := { s with mms := Function.update s.mms new (some mm) }
  let s ← s.copyMm new pgd old
  .ok (tsp, { s with
    tasks := Function.update s.tasks tsp (some { mm := some new, zombie := false }) })

/-! ### `brk` -/

/-- `HEAP_LIMIT`. -/
abbrev heapLimit : ℕ := 0x7ffffff00000

/-- The area that holds `addr` gets a new end. -/
def extendVma (addr newBreak : ℕ) (h : newBreak < heapLimit) : List Vma → List Vma
  | [] => []
  | vma :: vmas =>
    if vma.Holds addr then
      if hend : vma.vmEnd < newBreak then
        { vma with
          vmEnd := newBreak
          pos := Nat.zero_lt_of_lt hend
          ordered := vma.ordered.trans (Nat.le_of_lt hend)
          inUser := Nat.le_trans (Nat.le_of_lt h) (by decide) } :: vmas
      else vma :: vmas
    else vma :: extendVma addr newBreak h vmas

/-- `brk`, which returns the break. -/
def brk (s : Vm) (a : ℕ) (mm : MmStruct) (newBreak : ℕ) : Except Stop (ℕ × Vm) :=
  if newBreak = 0 then .ok (mm.brk, s)
  else if h : mm.brk < newBreak ∧ newBreak < heapLimit then
    if mm.brk = mm.userHeap then do
      let (_, s) ← s.getZeroPage
      .ok (newBreak, s.insertVma a
        { vmStart := mm.brk
          vmEnd := newBreak
          prot := .readWrite
          vmPgoff := 0
          vmFilesz := 0
          vmFile := none
          pos := Nat.zero_lt_of_lt h.1
          ordered := Nat.le_of_lt h.1
          inUser := Nat.le_trans (Nat.le_of_lt h.2) (by decide)
          anonymous := fun _ => rfl })
    else
      match searchVma ((mm.brk + 2 ^ 64 - 1) % 2 ^ 64) mm with
      | some vma =>
        if vma.prot.bits &&& pteRw = 1 ∧ vma.vmFile = none then
          .ok (newBreak, { s with mms := Function.update s.mms a (some { mm with
            mmap := extendVma ((mm.brk + 2 ^ 64 - 1) % 2 ^ 64) newBreak h.2 mm.mmap }) })
        else .error (.assertFail "brk")
      | none => .error (.assertFail "brk")
  else if newBreak > heapLimit then .error (.panic "ERROR: reach heap limit!")
  else .error (.panic "ERROR: do not support shrink heap memory!")

/-! ### `exec` -/

/-- A program header with the type `PT_LOAD`, of a program that is linked for the user half. -/
structure LoadSegment where
  /-- Whether it is readable, writable and executable. -/
  pFlags : ℕ
  /-- Where it starts in the file. -/
  pOffset : ℕ
  /-- Where it starts in memory. -/
  pVaddr : ℕ
  /-- Its length in the file. -/
  pFilesz : ℕ
  /-- Its length in memory. -/
  pMemsz : ℕ
  /-- A segment does not start and end at 0. -/
  pos : 0 < pVaddr + pMemsz
  /-- A segment ends in the user half. -/
  inUser : pVaddr + pMemsz ≤ userTop

/-- The area of a segment. -/
def LoadSegment.vma (seg : LoadSegment) (file : ℕ) : Vma where
  vmStart := seg.pVaddr
  vmEnd := seg.pVaddr + seg.pMemsz
  prot := mapPflagsToVmprot seg.pFlags
  vmPgoff := seg.pOffset
  vmFilesz := seg.pFilesz
  vmFile := some file
  pos := seg.pos
  ordered := Nat.le_add_right _ _
  inUser := seg.inUser
  anonymous := by simp

/-- A program of the archive: where it starts, with its program headers (`none` stands for a type
other than `PT_LOAD`), or a script with its interpreter. -/
inductive Program where
  | elf (file : ℕ) (headers : List (Option LoadSegment))
  | script (interp : Program)

/-- The loop over the program headers, at the header `i` of `phnum`.  `ph` moves on only past a
segment that was loaded. -/
def execSegments (s : Vm) (file : ℕ) : ℕ → ℕ → List (Option LoadSegment) → MmStruct →
    Except Stop (MmStruct × Vm)
  | _, 0, _, mm => .ok (mm, s)
  | i, n + 1, some seg :: ph, mm => do
    let segEnd := seg.pVaddr + seg.pMemsz
    let codeEnd := if i = 0 ∧ seg.pFlags = 5 then segEnd else mm.codeEnd
    let dataEnd := if i = 1 ∧ seg.pFlags = 6 then segEnd else mm.dataEnd
    let (_, s) ← s.getZeroPage
    execSegments s file (i + 1) n ph
      { mm with codeEnd := codeEnd, dataEnd := dataEnd, mmap := mm.mmap ++ [seg.vma file] }
  | i, n + 1, ph, mm => execSegments s file (i + 1) n ph mm

/-- The area of the stack. -/
def stackVma : Vma where
  vmStart := userTop - 0x10 * pgSize
  vmEnd := userTop
  prot := .readWrite
  vmPgoff := 0
  vmFilesz := 0
  vmFile := none
  pos := by decide
  ordered := by decide
  inUser := le_rfl
  anonymous := fun _ => rfl

/-- What `exec` does before it gives up the old address space: a page for the arguments, and the
page of `argv` is mapped if it is an address of the user. -/
def execArgs (s : Vm) (mm : Option MmStruct) (argv : Option ℕ) : Except Stop Vm := do
  let (_, s) ← s.getZeroPage
  match argv with
  | none => .ok s
  | some addr =>
    match mm with
    | none => .error (.nullDeref "search_vma")
    | some mm =>
      match searchVma addr mm with
      | some vma => s.mapAPage mm.pgd vma addr
      | none => .error (.panic "[exec]ERROR:can't find valid vma for argv!")

/-- The new address space, in which the first page of the stack is mapped and holds `args`. -/
def execLoad (s : Vm) (t file : ℕ) (headers : List (Option LoadSegment)) (args : ℕ → ℕ) :
    Except Stop Vm := do
  let (a, s) ← s.getZeroPage
  let (pgd, s) ← s.allocPgd
  let (mm, s) ← s.execSegments file 0 headers.length headers
    { mmap := [], pgd := pgd, codeEnd := 0, dataEnd := 0, userHeap := 0, brk := 0 }
  let userHeap := if mm.dataEnd ≠ 0 then pgAlign mm.dataEnd else pgAlign mm.codeEnd
  let (_, s) ← s.getZeroPage
  let mm := { mm with userHeap := userHeap, brk := userHeap, mmap := mm.mmap ++ [stackVma] }
  let s := { s with
    mms := Function.update s.mms a (some mm)
    tasks := Function.update s.tasks t (some { mm := some a, zombie := false }) }
  let s ← s.mapAPage pgd stackVma (userTop - pgSize)
  match s.translate pgd (userTop - pgSize) true with
  | .granted pfn => do
    let (_, s) ← (s.putPage pfn args).getZeroPage
    .ok s
  | .fault _ => .error (.panic "ERROR: unable to handle this pagefault!")

/-- `exec` by the task `t`, whose address space is `mm`.  A script is an `exec` of its interpreter
with arguments that are in the kernel. -/
def exec (s : Vm) (t : ℕ) (mm : Option MmStruct) (argv : Option ℕ) (args : ℕ → ℕ) :
    Program → Except Stop Vm
  | .elf file headers => do
    let s ← s.execArgs mm argv
    s.execLoad t file headers args
  | .script interp => do
    let s ← s.execArgs mm argv
    s.exec t mm none args interp

/-! ### The system -/

/-- `kernel_thread`: a task without an address space. -/
def kernelThread (s : Vm) : Except Stop (ℕ × Vm) := do
  let (tsp, s) ← s.getZeroPage
  let (_, s) ← s.getZeroPage
  .ok (tsp, { s with tasks := Function.update s.tasks tsp (some { mm := none, zombie := false }) })

/-- An address of the user half. -/
abbrev UserAddr := Fin userTop

/-- One action: of the kernel, or of the task `t`. -/
inductive Act where
  | kernelThread
  | exec (t : ℕ) (argv : Option UserAddr) (args : ℕ → ℕ) (program : Program)
  | fork (t : ℕ)
  | brk (t newBreak : ℕ)
  | load (t : ℕ) (addr : UserAddr)
  | store (t : ℕ) (addr : UserAddr) (b : ℕ)
  /-- A system call of the task stores a byte in its memory. -/
  | put (t : ℕ) (addr : UserAddr) (b : ℕ)
  /-- The kernel changes what it keeps for itself. -/
  | keep (bytes : ℕ → Option ℕ)
  | exit (t : ℕ)

/-- One step.  A task that is not there, or that is a zombie, does nothing. -/
def step (s : Vm) : Act → Except Stop Vm
  | .kernelThread => do
    let (_, s) ← s.kernelThread
    .ok s
  | .exec t argv args program =>
    match s.tasks t with
    | some task =>
      if task.zombie then .ok s
      else s.exec t (task.mm.bind s.mms) (argv.map Fin.val) args program
    | none => .ok s
  | .fork t =>
    match s.userMm t with
    | some (_, mm) => do
      let (_, s) ← s.fork mm
      .ok s
    | none => .ok s
  | .brk t newBreak =>
    match s.userMm t with
    | some (a, mm) => do
      let (_, s) ← s.brk a mm newBreak
      .ok s
    | none => .ok s
  | .load t addr =>
    match s.userMm t with
    | some (_, mm) => do
      let (_, s) ← s.load t mm addr
      .ok s
    | none => .ok s
  | .store t addr b =>
    match s.userMm t with
    | some (_, mm) => s.store t mm addr b
    | none => .ok s
  | .put t addr b =>
    match s.userMm t with
    | some (_, mm) => s.kernelStore mm.pgd addr b
    | none => .ok s
  | .keep bytes => .ok { s with kernel := bytes }
  | .exit t =>
    match s.userMm t with
    | some _ => .ok (s.exitSt t)
    | none => .ok s

end Vm

end PlumOs
