import Mathlib.Data.List.TakeWhile
import PlumOs.Lib.Ram
import PlumOs.Vm.Steps

/-!
# Program headers (`sys/process.c`)

`exec` reads the program headers of a file one after the other and makes an area for each one of the
type `PT_LOAD`.  The pointer `ph` is moved at the end of the body of the loop, which `continue` skips:
from the first header of another type on, the loop reads that header again and again.  The heap is put
above the second header if its flags are those of data, otherwise above the first one if its flags are
those of code.

* `Phdr`, `phdrAt`, `execHeaders`, `execMm` : the program headers, and what `exec` makes of them;
* `execHeaders_spec` : the areas are those of the headers up to the first of another type;
* `segments_iff` : **there is one area for each segment exactly if** no segment is behind a header of
  another type, and no segment that can be written to has further flags;
* `heapAbove_iff` : **the heap is above the segments exactly if** none of them ends in a page above the
  end of the one that was recorded;
* `Vm.same_execMm` : **the areas and the heap are those of `Vm.exec`**, for a program of the user half.
-/

namespace PlumOs

/-! ### The table -/

/-- `PT_LOAD`. -/
abbrev ptLoad : ℕ := 1

/-- `PF_W`. -/
abbrev pfW : ℕ := 2

/-- The fields of `Elf64_Phdr` that `exec` reads. -/
structure Phdr where
  pType : ℕ
  pFlags : ℕ
  pOffset : ℕ
  pVaddr : ℕ
  pFilesz : ℕ
  pMemsz : ℕ
  pAlign : ℕ
  deriving DecidableEq, Repr

/-- The program header at an address. -/
def phdrAt (mem : ℕ → ℕ) (ph : ℕ) : Phdr where
  pType := load mem 4 ph
  pFlags := load mem 4 (ph + 4)
  pOffset := load mem 8 (ph + 8)
  pVaddr := load mem 8 (ph + 16)
  pFilesz := load mem 8 (ph + 32)
  pMemsz := load mem 8 (ph + 40)
  pAlign := load mem 8 (ph + 48)

/-- The table of `n` program headers. -/
def headerTable (mem : ℕ → ℕ) (phentsize : ℕ) : ℕ → ℕ → List Phdr
  | 0, _ => []
  | n + 1, ph => phdrAt mem ph :: headerTable mem phentsize n ((ph + phentsize) % 2 ^ 64)

namespace Phdr

/-- The header is of the type `PT_LOAD`. -/
def IsLoad (p : Phdr) : Prop := p.pType = ptLoad

instance : DecidablePred IsLoad := fun p => inferInstanceAs (Decidable (p.pType = ptLoad))

/-- `p_vaddr + p_memsz`. -/
def segEnd (p : Phdr) : ℕ := (p.pVaddr + p.pMemsz) % 2 ^ 64

end Phdr

/-! ### `exec` -/

/-- `vma_struct`, with any values.  The file is a slot of `file_array`. -/
structure VmArea where
  /-- The first address. -/
  vmStart : ℕ
  /-- The address behind the last one, which may wrap around. -/
  vmEnd : ℕ
  /-- The bits for the page tables. -/
  prot : ℕ
  /-- `p_offset`. -/
  vmPgoff : ℕ
  /-- `p_filesz`. -/
  vmFilesz : ℕ
  /-- `p_align`. -/
  vmAlign : ℕ
  /-- The slot of the file, if there is one. -/
  vmFile : Option ℕ
  deriving DecidableEq, Repr

/-- The area of a segment. -/
def Phdr.area (p : Phdr) (fd : ℕ) : VmArea where
  vmStart := p.pVaddr
  vmEnd := p.segEnd
  prot := (mapPflagsToVmprot p.pFlags).bits
  vmPgoff := p.pOffset
  vmFilesz := p.pFilesz
  vmAlign := p.pAlign
  vmFile := some fd

/-- What `exec` stores in the new `mm_struct` for the program. -/
structure ExecMm where
  /-- The areas, in the order of the list. -/
  mmap : List VmArea
  /-- `e_entry`. -/
  entry : ℕ
  /-- The first address of the code. -/
  codeStart : ℕ
  /-- The address behind the code. -/
  codeEnd : ℕ
  /-- The first address of the data. -/
  dataStart : ℕ
  /-- The address behind the data. -/
  dataEnd : ℕ
  /-- Where the heap starts. -/
  userHeap : ℕ
  /-- The break. -/
  brk : ℕ
  deriving DecidableEq, Repr

/-- The `mm_struct` in front of the loop. -/
def ExecMm.init (entry : ℕ) : ExecMm where
  mmap := []
  entry := entry
  codeStart := 0
  codeEnd := 0
  dataStart := 0
  dataEnd := 0
  userHeap := 0
  brk := 0

/-- The body of the loop for a segment, at the index `i`. -/
def ExecMm.addSegment (mm : ExecMm) (fd i : ℕ) (p : Phdr) : ExecMm :=
  let mm := if i = 0 ∧ p.pFlags = 5 then { mm with codeStart := p.pVaddr, codeEnd := p.segEnd } else mm
  let mm := if i = 1 ∧ p.pFlags = 6 then { mm with dataStart := p.pVaddr, dataEnd := p.segEnd } else mm
  { mm with mmap := mm.mmap ++ [p.area fd] }

/-- The loop over the program headers, at the index `i` with `n` more indices, and `ph` at a header. -/
def execHeaders (mem : ℕ → ℕ) (fd phentsize : ℕ) : ℕ → ℕ → ℕ → ExecMm → PageState →
    Except Stop (ExecMm × PageState)
  | 0, _, _, mm, pages => .ok (mm, pages)
  | n + 1, i, ph, mm, pages =>
    let p := phdrAt mem ph
    -- `continue` skips the end of the body, where `ph` is moved
    if ¬p.IsLoad then execHeaders mem fd phentsize n (i + 1) ph mm pages
    else do
      let (_, pages) ← pages.getFreePage
      execHeaders mem fd phentsize n (i + 1) ((ph + phentsize) % 2 ^ 64) (mm.addSegment fd i p) pages

/-- `PG_ALIGN`, of a `uint64_t`. -/
def pgAlign64 (addr : ℕ) : ℕ := (addr + pgSize - 1) % 2 ^ 64 / pgSize * pgSize

/-- The place of the heap. -/
def ExecMm.adjustHeap (mm : ExecMm) : ExecMm :=
  let userHeap := if mm.dataEnd ≠ 0 then pgAlign64 mm.dataEnd else pgAlign64 mm.codeEnd
  { mm with userHeap := userHeap, brk := userHeap }

/-- The area of the stack. -/
def stackArea : VmArea where
  vmStart := userTop - 0x10 * pgSize
  vmEnd := userTop
  prot := pteRw
  vmPgoff := 0
  vmFilesz := 0
  vmAlign := pgSize
  vmFile := none

/-- What `exec` makes of the file at `fp`, with the areas in the new `mm_struct`. -/
def execMm (mem : ℕ → ℕ) (fp fd : ℕ) (pages : PageState) : Except Stop (ExecMm × PageState) := do
  let phoff := load mem 8 (fp + 32)
  let phentsize := load mem 2 (fp + 54)
  let phnum := load mem 2 (fp + 56)
  let (mm, pages) ← execHeaders mem fd phentsize phnum 0 ((fp + phoff) % 2 ^ 64)
    (.init (load mem 8 (fp + 24))) pages
  let mm := mm.adjustHeap
  let (_, pages) ← pages.getFreePage
  .ok ({ mm with mmap := mm.mmap ++ [stackArea] }, pages)

/-- The program headers of the file at `fp`. -/
def fileHeaders (mem : ℕ → ℕ) (fp : ℕ) : List Phdr :=
  headerTable mem (load mem 2 (fp + 54)) (load mem 2 (fp + 56)) ((fp + load mem 8 (fp + 32)) % 2 ^ 64)

section Loop

variable {mem : ℕ → ℕ} {fp fd phentsize n i ph e : ℕ} {mm mm' : ExecMm} {pages pages' : PageState}
  {table : List Phdr}

/-- The segments in front of the first header of another type. -/
def leading (table : List Phdr) : List Phdr := table.takeWhile Phdr.IsLoad

/-- The end of the header at an index, if it has these flags; otherwise `e`. -/
def endAt (loads : List Phdr) (i flags e : ℕ) : ℕ :=
  match loads[i]? with
  | some p => if p.pFlags = flags then p.segEnd else e
  | none => e

@[simp] theorem addSegment_mmap (p : Phdr) : (mm.addSegment fd i p).mmap = mm.mmap ++ [p.area fd] := by
  simp only [ExecMm.addSegment]
  split <;> split <;> rfl

@[simp] theorem addSegment_codeEnd (p : Phdr) : (mm.addSegment fd i p).codeEnd =
    if i = 0 ∧ p.pFlags = 5 then p.segEnd else mm.codeEnd := by
  simp only [ExecMm.addSegment]
  split <;> split <;> rfl

@[simp] theorem addSegment_dataEnd (p : Phdr) : (mm.addSegment fd i p).dataEnd =
    if i = 1 ∧ p.pFlags = 6 then p.segEnd else mm.dataEnd := by
  simp only [ExecMm.addSegment]
  split <;> split <;> rfl

/-- At a header of another type the loop stays where it is. -/
theorem execHeaders_stuck (hload : ¬(phdrAt mem ph).IsLoad) :
    execHeaders mem fd phentsize n i ph mm pages = .ok (mm, pages) := by
  induction n generalizing i with
  | zero => rfl
  | succ n ih => rw [execHeaders, if_pos hload, ih]

/-- **What the loop does**: it adds the areas of the leading segments. -/
theorem execHeaders_spec (h : execHeaders mem fd phentsize n i ph mm pages = .ok (mm', pages')) :
    mm'.mmap = mm.mmap ++ (leading (headerTable mem phentsize n ph)).map (fun p => p.area fd) ∧
      mm'.codeEnd = (if i = 0 then endAt (leading (headerTable mem phentsize n ph)) 0 5 mm.codeEnd
        else mm.codeEnd) ∧
      mm'.dataEnd = if i ≤ 1 then endAt (leading (headerTable mem phentsize n ph)) (1 - i) 6 mm.dataEnd
        else mm.dataEnd := by
  induction n generalizing i ph mm pages with
  | zero =>
    obtain ⟨rfl, -⟩ := Prod.mk.inj (Except.ok.inj h)
    simp [headerTable, leading, endAt]
  | succ n ih =>
    by_cases hload : (phdrAt mem ph).IsLoad
    · rw [execHeaders, if_neg (not_not.2 hload)] at h
      obtain ⟨⟨page, pages₁⟩, -, hrest⟩ := bind_eq_ok.1 h
      obtain ⟨hmmap, hcode, hdata⟩ := ih hrest
      have hlead : leading (headerTable mem phentsize (n + 1) ph) =
          phdrAt mem ph :: leading (headerTable mem phentsize n ((ph + phentsize) % 2 ^ 64)) := by
        simp [leading, headerTable, hload]
      rw [hlead]
      refine ⟨by rw [hmmap]; simp, ?_, ?_⟩
      · rw [hcode]
        rcases i with _ | i <;> simp [endAt]
      · rw [hdata]
        rcases i with _ | _ | i <;> simp [endAt]
    · rw [execHeaders_stuck hload] at h
      obtain ⟨rfl, -⟩ := Prod.mk.inj (Except.ok.inj h)
      simp [headerTable, leading, hload, endAt]

/-! ### The segments -/

/-- The area is the one that the segment asks for. -/
structure Phdr.Maps (vma : VmArea) (p : Phdr) : Prop where
  /-- The area starts with the segment. -/
  start : vma.vmStart = p.pVaddr
  /-- The area ends with the segment. -/
  stop : vma.vmEnd = (p.pVaddr + p.pMemsz) % 2 ^ 64
  /-- The contents of the area are at the offset of the segment. -/
  pgoff : vma.vmPgoff = p.pOffset
  /-- The contents have the length of the segment in the file. -/
  filesz : vma.vmFilesz = p.pFilesz
  /-- The area is writable if the segment is. -/
  writable : vma.prot &&& pteRw ≠ 0 ↔ p.pFlags &&& pfW ≠ 0

/-- There is exactly one area for each segment, in the order of the table. -/
def MapsAll (mmap : List VmArea) (table : List Phdr) : Prop :=
  List.Forall₂ Phdr.Maps mmap (table.filter Phdr.IsLoad)

/-- No segment is behind a header of another type. -/
def LoadsFirst (table : List Phdr) : Prop := table.Pairwise fun p q => q.IsLoad → p.IsLoad

/-- The flags of a segment that can be written to are only the three that every processor has. -/
def PlainFlags (table : List Phdr) : Prop :=
  ∀ p ∈ table, p.IsLoad → p.pFlags &&& pfW ≠ 0 → p.pFlags < 8

instance (table : List Phdr) : Decidable (LoadsFirst table) :=
  inferInstanceAs (Decidable (List.Pairwise _ table))

instance (table : List Phdr) : Decidable (PlainFlags table) :=
  inferInstanceAs (Decidable (∀ p ∈ table, _))

/-- `map_pflags_to_vmprot` looks for whole values, so a further flag takes the permission away. -/
theorem writable_iff (f : ℕ) :
    ((mapPflagsToVmprot f).bits &&& pteRw ≠ 0 ↔ f &&& pfW ≠ 0) ↔ (f &&& pfW ≠ 0 → f < 8) := by
  by_cases hf : f < 8
  · have hsmall : ∀ f < 8, ((mapPflagsToVmprot f).bits &&& pteRw ≠ 0 ↔ f &&& pfW ≠ 0) := by decide
    exact ⟨fun _ _ => hf, fun _ => hsmall f hf⟩
  · have hprot : mapPflagsToVmprot f = .readOnly := by
      unfold mapPflagsToVmprot
      split <;> first | omega | rfl
    have hzero : ¬(Prot.readOnly.bits &&& pteRw ≠ 0) := by decide
    rw [hprot, iff_false_left hzero]
    exact ⟨fun hno hw => absurd hw hno, fun himp hw => hf (himp hw)⟩

theorem maps_area_iff (p : Phdr) (fd : ℕ) :
    p.Maps (p.area fd) ↔ (p.pFlags &&& pfW ≠ 0 → p.pFlags < 8) := by
  rw [← writable_iff]
  exact ⟨fun h => h.writable, fun h => ⟨rfl, rfl, rfl, rfl, h⟩⟩

/-- The leading segments are all of them exactly if none is behind another header. -/
theorem length_leading_iff (table : List Phdr) :
    (leading table).length = (table.filter Phdr.IsLoad).length ↔ LoadsFirst table := by
  induction table with
  | nil => simp [leading, LoadsFirst]
  | cons p table ih =>
    by_cases hload : p.IsLoad
    · have hcons : LoadsFirst (p :: table) ↔ LoadsFirst table := by
        rw [LoadsFirst, List.pairwise_cons]
        exact ⟨fun h => h.2, fun h => ⟨fun _ _ _ => hload, h⟩⟩
      rw [hcons, ← ih]
      simp [leading, hload]
    · -- no segment is left
      have hnone : LoadsFirst (p :: table) ↔ ∀ q ∈ table, ¬q.IsLoad := by
        rw [LoadsFirst, List.pairwise_cons]
        refine ⟨fun h q hq hql => hload (h.1 q hq hql), fun h => ⟨fun q hq hql => absurd hql (h q hq), ?_⟩⟩
        exact List.pairwise_of_forall_mem_list fun q _ r hr hrl => absurd hrl (h r hr)
      rw [hnone, eq_comm]
      simp [leading, hload, List.length_eq_zero_iff, List.filter_eq_nil_iff]

theorem leading_eq_filter (h : LoadsFirst table) : leading table = table.filter Phdr.IsLoad := by
  have hsplit := List.takeWhile_append_dropWhile (p := fun p => decide p.IsLoad) (l := table)
  have hfilter : table.filter Phdr.IsLoad =
      leading table ++ (table.dropWhile Phdr.IsLoad).filter Phdr.IsLoad := by
    conv_lhs => rw [← hsplit, List.filter_append]
    rw [List.filter_eq_self.2 fun p hp => List.mem_takeWhile_imp (p := fun q : Phdr => decide q.IsLoad) hp]
    rfl
  have hlen := (length_leading_iff table).2 h
  rw [hfilter, List.length_append] at hlen
  have hnil : (table.dropWhile Phdr.IsLoad).filter Phdr.IsLoad = [] :=
    List.length_eq_zero_iff.1 (by omega)
  rw [hfilter, hnil, List.append_nil]

/-- The areas of some segments are the right ones exactly if the flags are plain. -/
theorem forall₂_area_iff (loads : List Phdr) (fd : ℕ) :
    List.Forall₂ Phdr.Maps (loads.map fun p => p.area fd) loads ↔
      ∀ p ∈ loads, p.pFlags &&& pfW ≠ 0 → p.pFlags < 8 := by
  rw [List.forall₂_map_left_iff, List.forall₂_same]
  exact forall₂_congr fun p _ => maps_area_iff p fd

/-- The areas of the leading segments. -/
theorem mapsAll_leading_iff (table : List Phdr) (fd : ℕ) :
    MapsAll ((leading table).map fun p => p.area fd) table ↔ LoadsFirst table ∧ PlainFlags table := by
  have hplain : PlainFlags table ↔
      ∀ p ∈ table.filter Phdr.IsLoad, p.pFlags &&& pfW ≠ 0 → p.pFlags < 8 := by
    simp only [PlainFlags, List.mem_filter, decide_eq_true_eq, and_imp]
  rw [MapsAll, hplain, ← forall₂_area_iff _ fd]
  constructor
  · intro hall
    have hlen := hall.length_eq
    rw [List.length_map] at hlen
    have hfirst := (length_leading_iff _).1 hlen
    rw [leading_eq_filter hfirst] at hall
    exact ⟨hfirst, hall⟩
  · rintro ⟨hfirst, hall⟩
    rw [leading_eq_filter hfirst]
    exact hall

/-- **One area for each segment, in the order of the table, exactly if** no segment is behind a header of
another type, and those that can be written to have plain flags. -/
theorem segments_iff (h : execHeaders mem fd phentsize n 0 ph (.init e) pages = .ok (mm, pages')) :
    MapsAll mm.mmap (headerTable mem phentsize n ph) ↔
      LoadsFirst (headerTable mem phentsize n ph) ∧ PlainFlags (headerTable mem phentsize n ph) := by
  obtain ⟨hmmap, -, -⟩ := execHeaders_spec h
  rw [ExecMm.init, List.nil_append] at hmmap
  rw [hmmap]
  exact mapsAll_leading_iff _ fd

end Loop

/-! ### Files with program headers -/

/-- The bytes of a program header. -/
def Phdr.bytes (p : Phdr) : List ℕ :=
  wordBytes 4 p.pType ++ wordBytes 4 p.pFlags ++ wordBytes 8 p.pOffset ++ wordBytes 8 p.pVaddr ++
    wordBytes 8 0 ++ wordBytes 8 p.pFilesz ++ wordBytes 8 p.pMemsz ++ wordBytes 8 p.pAlign

/-- A file at the address 0 that has these program headers behind its own header. -/
def elfFile (table : List Phdr) (a : ℕ) : ℕ :=
  (List.replicate 24 0 ++ wordBytes 8 0x400000 ++ wordBytes 8 64 ++ List.replicate 14 0 ++ wordBytes 2 56 ++
    wordBytes 2 table.length ++ List.replicate 6 0 ++ table.flatMap Phdr.bytes).getD a 0

/-- A segment of one page. -/
def pageSegment (pFlags pVaddr : ℕ) : Phdr where
  pType := ptLoad
  pFlags := pFlags
  pOffset := 0x1000
  pVaddr := pVaddr
  pFilesz := 0x1000
  pMemsz := 0x1000
  pAlign := 0x1000

/-- A note, which is not loaded. -/
def noteHeader : Phdr := { pageSegment 4 0x400000 with pType := 4 }

/-- Nothing was allocated yet. -/
def freePages : PageState where
  bitmap := fun _ => 0
  pageArray := fun _ => 0

/-- Code, data, and a note behind them. -/
def codeAndData : List Phdr := [pageSegment 5 0x400000, pageSegment 6 0x600000, noteHeader]

theorem segments_iff_codeAndData : ∃ mm pages',
    execHeaders (elfFile codeAndData) 3 56 3 0 64 (.init 0x400000) freePages = .ok (mm, pages') ∧
      (MapsAll mm.mmap (headerTable (elfFile codeAndData) 56 3 64) ↔
        LoadsFirst (headerTable (elfFile codeAndData) 56 3 64) ∧
          PlainFlags (headerTable (elfFile codeAndData) 56 3 64)) := by
  have hrun : reaches (execHeaders (elfFile codeAndData) 3 56 3 0 64 (.init 0x400000) freePages)
      (fun _ => true) = true := by decide +kernel
  obtain ⟨⟨mm, pages'⟩, hs, -⟩ := exists_of_reaches hrun
  exact ⟨mm, pages', hs, segments_iff hs⟩

/-- A note in front of the code. -/
theorem segments_fails : ¬∀ (mem : ℕ → ℕ) (fd phentsize n ph e : ℕ) (pages : PageState) (mm : ExecMm)
    (pages' : PageState), execHeaders mem fd phentsize n 0 ph (.init e) pages = .ok (mm, pages') →
      MapsAll mm.mmap (headerTable mem phentsize n ph) := by
  intro hall
  have hrun : reaches (execHeaders (elfFile [noteHeader, pageSegment 5 0x400000]) 3 56 2 0 64
      (.init 0x400000) freePages) (fun _ => true) = true := by decide +kernel
  obtain ⟨⟨mm, pages'⟩, hs, -⟩ := exists_of_reaches hrun
  have hmaps := hall _ 3 56 2 64 0x400000 freePages mm pages' hs
  rw [(execHeaders_spec hs).1, ExecMm.init, List.nil_append, mapsAll_leading_iff] at hmaps
  exact absurd hmaps.1 (by decide +kernel)

section Heap

variable {mem : ℕ → ℕ} {fp fd : ℕ} {mm : ExecMm} {pages pages' : PageState} {table : List Phdr}

/-! ### The heap -/

/-- The heap starts at a page, with the break, and no area of a file reaches into it. -/
structure HeapAbove (mm : ExecMm) : Prop where
  /-- The heap starts with a page. -/
  aligned : mm.userHeap % pgSize = 0
  /-- The heap is empty. -/
  brk : mm.brk = mm.userHeap
  /-- The segments end below the heap. -/
  above : ∀ vma ∈ mm.mmap, vma.vmFile ≠ none → vma.vmEnd ≤ mm.userHeap
  /-- No segment has an address of the heap, wherever the break is set. -/
  apart : ∀ vma ∈ mm.mmap, vma.vmFile ≠ none → ∀ newBreak addr,
    ¬((mm.userHeap ≤ addr ∧ addr < newBreak) ∧ vma.vmStart ≤ addr ∧ addr < vma.vmEnd)

/-- The end of the second segment if it has the flags of data, otherwise of the first one if it has those
of code. -/
def recordedEnd (loads : List Phdr) : ℕ :=
  if endAt loads 1 6 0 ≠ 0 then endAt loads 1 6 0 else endAt loads 0 5 0

/-- No segment ends in a page above the last page of the recorded one. -/
def NoneAbove (loads : List Phdr) : Prop :=
  recordedEnd loads + pgSize ≤ 2 ^ 64 ∧
    ∀ p ∈ loads, (p.segEnd + pgSize - 1) / pgSize ≤ (recordedEnd loads + pgSize - 1) / pgSize

instance (loads : List Phdr) : Decidable (NoneAbove loads) := inferInstanceAs (Decidable (_ ∧ _))

theorem segEnd_lt (p : Phdr) : p.segEnd < 2 ^ 64 := Nat.mod_lt _ (by decide)

theorem mem_of_endAt {loads : List Phdr} {k flags : ℕ} (h : endAt loads k flags 0 ≠ 0) :
    ∃ p ∈ loads, p.segEnd = endAt loads k flags 0 := by
  unfold endAt at h ⊢
  split at h
  · next p hp =>
    split at h
    · next hflags => exact ⟨p, List.mem_of_getElem? hp, (if_pos hflags).symm⟩
    · exact absurd rfl h
  · exact absurd rfl h

theorem mem_of_recordedEnd {loads : List Phdr} (h : recordedEnd loads ≠ 0) :
    ∃ p ∈ loads, p.segEnd = recordedEnd loads := by
  unfold recordedEnd at h ⊢
  split
  · next hdata => exact mem_of_endAt hdata
  · next hdata =>
    rw [if_neg hdata] at h
    exact mem_of_endAt h

/-- Rounding up the recorded end is enough exactly if no segment ends above it. -/
theorem le_pgAlign64_iff (loads : List Phdr) :
    (∀ p ∈ loads, p.segEnd ≤ pgAlign64 (recordedEnd loads)) ↔ NoneAbove loads := by
  unfold NoneAbove pgAlign64 pgSize
  constructor
  · intro hle
    have hroom : recordedEnd loads + 4096 ≤ 2 ^ 64 := by
      by_contra hwrap
      -- the sum wraps around to the first page
      have hne : recordedEnd loads ≠ 0 := by omega
      obtain ⟨p, hp, hend⟩ := mem_of_recordedEnd hne
      have hpage := hle p hp
      have hlt := segEnd_lt p
      omega
    refine ⟨hroom, fun p hp => ?_⟩
    have hpage := hle p hp
    omega
  · rintro ⟨hroom, hle⟩ p hp
    have hpage := hle p hp
    omega

/-- The areas and the heap that `exec` makes. -/
theorem execMm_spec (h : execMm mem fp fd pages = .ok (mm, pages')) :
    mm.mmap = (leading (fileHeaders mem fp)).map (fun p => p.area fd) ++ [stackArea] ∧
      mm.userHeap = pgAlign64 (recordedEnd (leading (fileHeaders mem fp))) ∧ mm.brk = mm.userHeap := by
  obtain ⟨⟨mm₁, pages₁⟩, hloop, hrest⟩ := bind_eq_ok.1 h
  obtain ⟨⟨page, pages₂⟩, -, hlast⟩ := bind_eq_ok.1 hrest
  obtain ⟨rfl, -⟩ := Prod.mk.inj (Except.ok.inj hlast)
  obtain ⟨hmmap, hcode, hdata⟩ := execHeaders_spec hloop
  simp only [ExecMm.init, if_pos, List.nil_append, Nat.zero_le, Nat.sub_zero] at hmmap hcode hdata
  refine ⟨?_, ?_, rfl⟩
  · simp only [ExecMm.adjustHeap, hmmap, fileHeaders]
  · change (if mm₁.dataEnd ≠ 0 then pgAlign64 mm₁.dataEnd else pgAlign64 mm₁.codeEnd) = _
    rw [← apply_ite pgAlign64, hcode, hdata]
    rfl

/-- **The heap is above the segments exactly if** none of them ends in a page above the end of the one
that was recorded.  Here the segments are in front of the other headers. -/
theorem heapAbove_iff (h : execMm mem fp fd pages = .ok (mm, pages'))
    (hfirst : LoadsFirst (fileHeaders mem fp)) :
    HeapAbove mm ↔ NoneAbove ((fileHeaders mem fp).filter Phdr.IsLoad) := by
  obtain ⟨hmmap, hheap, hbrk⟩ := execMm_spec h
  rw [leading_eq_filter hfirst] at hmmap hheap
  rw [← le_pgAlign64_iff, ← hheap]
  constructor
  · intro habove p hp
    refine habove.above (p.area fd) ?_ (by simp [Phdr.area])
    rw [hmmap]
    exact List.mem_append_left _ (List.mem_map_of_mem hp)
  · intro hle
    have habove : ∀ vma ∈ mm.mmap, vma.vmFile ≠ none → vma.vmEnd ≤ mm.userHeap := by
      intro vma hvma hfile
      rw [hmmap] at hvma
      rcases List.mem_append.1 hvma with hvma | hvma
      · obtain ⟨p, hp, rfl⟩ := List.mem_map.1 hvma
        exact hle p hp
      · obtain rfl := List.mem_singleton.1 hvma
        exact absurd rfl hfile
    refine ⟨?_, hbrk, habove, fun vma hvma hfile newBreak addr => ?_⟩
    · rw [hheap]
      exact Nat.mul_mod_left ..
    · have hend := habove vma hvma hfile
      omega

end Heap

theorem heapAbove_iff_codeAndData : ∃ mm pages',
    execMm (elfFile codeAndData) 0 3 freePages = .ok (mm, pages') ∧
      (HeapAbove mm ↔ NoneAbove ((fileHeaders (elfFile codeAndData) 0).filter Phdr.IsLoad)) := by
  have hrun : reaches (execMm (elfFile codeAndData) 0 3 freePages) (fun _ => true) = true := by
    decide +kernel
  obtain ⟨⟨mm, pages'⟩, hs, -⟩ := exists_of_reaches hrun
  exact ⟨mm, pages', hs, heapAbove_iff hs (by decide +kernel)⟩

/-- Every segment ends below the next one. -/
def Increasing (table : List Phdr) : Prop :=
  (table.filter Phdr.IsLoad).Pairwise fun p q => p.pVaddr + p.pMemsz ≤ q.pVaddr

instance (table : List Phdr) : Decidable (Increasing table) :=
  inferInstanceAs (Decidable (List.Pairwise _ _))

/-- Constants, code and data, each in a segment of its own. -/
def threeSegments : List Phdr :=
  [pageSegment 4 0x400000, pageSegment 5 0x401000, pageSegment 6 0x402000]

/-- The heap of a program with these segments starts at the address 0. -/
theorem heapAbove_fails : ¬∀ (mem : ℕ → ℕ) (fp fd : ℕ) (pages : PageState) (mm : ExecMm)
    (pages' : PageState), execMm mem fp fd pages = .ok (mm, pages') → LoadsFirst (fileHeaders mem fp) →
      Increasing (fileHeaders mem fp) → HeapAbove mm := by
  intro hall
  have hrun : reaches (execMm (elfFile threeSegments) 0 3 freePages) (fun _ => true) = true := by
    decide +kernel
  obtain ⟨⟨mm, pages'⟩, hs, -⟩ := exists_of_reaches hrun
  have habove := hall _ 0 3 freePages mm pages' hs (by decide +kernel) (by decide +kernel)
  obtain ⟨hmmap, hheap, -⟩ := execMm_spec hs
  have hmem : (pageSegment 4 0x400000).area 3 ∈ mm.mmap := by
    rw [hmmap]
    exact List.mem_append_left _ (List.mem_map_of_mem (by decide +kernel))
  have hend := habove.above _ hmem (by decide)
  rw [hheap] at hend
  exact absurd hend (by decide +kernel)

/-! ### Programs for the user half -/

/-- The segment of a header, of a program that is linked for the user half. -/
def Phdr.toSegment (p : Phdr) : Option Vm.LoadSegment :=
  if h : p.IsLoad ∧ 0 < p.pVaddr + p.pMemsz ∧ p.pVaddr + p.pMemsz ≤ userTop then
    some
      { pFlags := p.pFlags
        pOffset := p.pOffset
        pVaddr := p.pVaddr
        pFilesz := p.pFilesz
        pMemsz := p.pMemsz
        pos := h.2.1
        inUser := h.2.2 }
  else none

/-- The same area. -/
structure Vma.Same (vma : Vma) (area : VmArea) : Prop where
  start : area.vmStart = vma.vmStart
  stop : area.vmEnd = vma.vmEnd
  prot : area.prot = vma.prot.bits
  pgoff : area.vmPgoff = vma.vmPgoff
  filesz : area.vmFilesz = vma.vmFilesz

namespace Vm

/-- The headers of a program for the user half are those that `execSegments` gets. -/
theorem loaded_toSegment (table : List Phdr)
    (huser : ∀ p ∈ table, p.IsLoad → 0 < p.pVaddr + p.pMemsz ∧ p.pVaddr + p.pMemsz ≤ userTop) :
    List.Forall₂ (fun seg p => p.toSegment = some seg) (loaded (table.map Phdr.toSegment))
      (leading table) := by
  induction table with
  | nil => exact .nil
  | cons p table ih =>
    have htail := ih fun q hq => huser q (List.mem_cons_of_mem p hq)
    by_cases hload : p.IsLoad
    · have hsome : p.toSegment = some _ := dif_pos ⟨hload, huser p (List.mem_cons_self ..) hload⟩
      rw [List.map_cons, hsome, loaded, leading, List.takeWhile_cons_of_pos (by simpa using hload)]
      exact .cons hsome htail
    · have hnone : p.toSegment = none := dif_neg fun h => hload h.1
      rw [List.map_cons, hnone, leading, List.takeWhile_cons_of_neg (by simpa using hload)]
      exact .nil

/-- **They have the same areas**, whatever the slot of the file is. -/
theorem same_area {p : Phdr} {seg : LoadSegment} (h : p.toSegment = some seg) (file fd : ℕ) :
    (seg.vma file).Same (p.area fd) := by
  unfold Phdr.toSegment at h
  split at h
  · next hp =>
    obtain rfl := (Option.some.inj h).symm
    have hend : p.segEnd = p.pVaddr + p.pMemsz := by
      have huser := hp.2.2
      unfold userTop at huser
      exact Nat.mod_eq_of_lt (by omega)
    exact ⟨rfl, hend, rfl, rfl, rfl⟩
  · cases h

theorem segmentEnd_eq {segs : List LoadSegment} {loads : List Phdr}
    (h : List.Forall₂ (fun seg p => p.toSegment = some seg) segs loads) (i flags : ℕ) :
    segmentEnd segs[i]? flags 0 = endAt loads i flags 0 ∧ endAt loads i flags 0 ≤ userTop := by
  induction h generalizing i with
  | nil => exact ⟨rfl, Nat.zero_le _⟩
  | @cons seg p segs loads hp _ ih =>
    cases i with
    | zero =>
      have hend : p.segEnd = seg.pVaddr + seg.pMemsz := (same_area hp 0 0).stop
      have hflags : seg.pFlags = p.pFlags := by
        unfold Phdr.toSegment at hp
        split at hp
        · rw [← Option.some.inj hp]
        · cases hp
      simp only [segmentEnd, endAt, List.getElem?_cons_zero, hflags, hend, true_and]
      split
      · exact seg.inUser
      · exact Nat.zero_le _
    | succ i => exact ih i

/-- **The heap is where `Vm.exec` puts it.** -/
theorem heapStart_toSegment (table : List Phdr)
    (huser : ∀ p ∈ table, p.IsLoad → 0 < p.pVaddr + p.pMemsz ∧ p.pVaddr + p.pMemsz ≤ userTop) :
    heapStart (table.map Phdr.toSegment) = pgAlign64 (recordedEnd (leading table)) := by
  have hloaded := loaded_toSegment table huser
  obtain ⟨hdata, hdataUser⟩ := segmentEnd_eq hloaded 1 6
  obtain ⟨hcode, hcodeUser⟩ := segmentEnd_eq hloaded 0 5
  have halign : ∀ e ≤ userTop, pgAlign e = pgAlign64 e := by
    intro e he
    unfold pgAlign pgAlign64 pgSize
    unfold userTop at he
    rw [Nat.mod_eq_of_lt (by omega)]
  rw [heapStart, recordedEnd, hdata, hcode]
  split
  · exact halign _ hdataUser
  · exact halign _ hcodeUser

theorem same_stackArea : stackVma.Same stackArea := ⟨rfl, rfl, rfl, rfl, rfl⟩

/-- **An address space that `Vm.exec` makes** for a program of the user half is the one that `exec` makes of
the bytes of its file: area by area, with the same heap. -/
theorem same_execMm {mem : ℕ → ℕ} {fp fd file : ℕ} {pages pages' : PageState} {mm : ExecMm}
    {space : MmStruct} (h : execMm mem fp fd pages = .ok (mm, pages'))
    (huser : ∀ p ∈ fileHeaders mem fp, p.IsLoad →
      0 < p.pVaddr + p.pMemsz ∧ p.pVaddr + p.pMemsz ≤ userTop)
    (hspace : (Program.elf file ((fileHeaders mem fp).map Phdr.toSegment)).Space space) :
    List.Forall₂ Vma.Same space.mmap mm.mmap ∧ space.userHeap = mm.userHeap ∧ space.brk = mm.brk := by
  obtain ⟨hmmap, hheap, hbrk⟩ := execMm_spec h
  obtain ⟨hareas, hstart, hbreak⟩ := hspace
  have hall : List.Forall₂ Vma.Same
      ((loaded ((fileHeaders mem fp).map Phdr.toSegment)).map fun seg => seg.vma file)
      ((leading (fileHeaders mem fp)).map fun p => p.area fd) := by
    rw [List.forall₂_map_left_iff, List.forall₂_map_right_iff]
    exact (loaded_toSegment _ huser).imp fun seg p hp => same_area hp file fd
  have hplace := heapStart_toSegment _ huser
  refine ⟨?_, ?_, ?_⟩
  · rw [hareas, hmmap]
    exact List.rel_append hall (.cons same_stackArea .nil)
  · rw [hstart, hheap, hplace]
  · rw [hbreak, hbrk, hheap, hplace]

end Vm

end PlumOs
