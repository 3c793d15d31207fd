import PlumOs.Fs.Directory
import PlumOs.Lib.Run

/-!
# Descriptors (`sys/tarfs.c`, `sys/syscall.c`)

A slot of `file_array` is used if its field `free` is not 0.  `tarfs_close` hands its entry to
`zero_tarfs_file_entry` by value, so the function clears a copy, and the slot stays used.

* `tarfsClose`, `close`, `read`, `copyFileArray` : the functions of the source;
* `FdAct`, `Descriptors.step` : the calls of a process, with the descriptors that are open;
* `Reachable` : the tables that processes can have, and `Reachable.unusedZero` : their unused slots are
  pages of zeros;
* `conserved_iff` : **the used slots are the open descriptors exactly as long as** none is closed;
* `conserved_fails` : the root directory is opened and closed.
-/

namespace PlumOs

/-! ### The calls -/

/-- `zero_tarfs_file_entry`: what becomes of its parameter. -/
def zeroTarfsFileEntry (entry : FileEntry) : FileEntry :=
  { entry with mode := [], name := [], free := 0, startAddr := 0, size := 0, pos := 0 }

/-- `tarfs_close`.  The entry that is cleared is not the one in the table. -/
def tarfsClose (files : FileTable) (fd : ℤ) : Except FsStop FileTable :=
  if (startFd : ℤ) ≤ fd ∧ fd < maxFileNum then
    let _entry := zeroTarfsFileEntry (files fd.toNat)
    .ok files
  else .error (.assertFail "tarfs_close")

/-- `close`. -/
def close (files : FileTable) (fd : ℤ) : Except FsStop FileTable :=
  if fd ≠ 0 ∧ fd ≠ 1 ∧ fd ≠ 2 then tarfsClose files fd else .error (.assertFail "close")

/-- `read`: the table afterwards.  `copied` says if `copy_from_kernel` succeeds. -/
def read (img : Tarfs) (files : FileTable) (fd : ℤ) (size : ℕ) (copied : Bool) :
    Except FsStop FileTable :=
  if fd = 1 ∨ fd = 2 then .error (.assertFail "read")
  -- the result is -1, or comes from the keyboard
  else if size = 0 ∨ fd = 0 then .ok files
  else if fd < 0 ∨ maxFileNum ≤ fd then .error .overrun
  else if (files fd.toNat).type = .file then
    let (_, _, file) := (files fd.toNat).toTarfsFile.read img.mem size
    .ok (if copied then
      Function.update files fd.toNat { files fd.toNat with toTarfsFile := file } else files)
  else .error (.assertFail "read")

/-- `copy_file_array`, into the page of zeros of a new process. -/
def copyFileArray (old : FileTable) : FileTable := fun i =>
  if i ∈ slots ∧ (old i).free ≠ 0 then
    { FileEntry.zero with
      mode := (old i).mode, free := (old i).free, startAddr := (old i).startAddr,
      size := (old i).size, pos := (old i).pos }
  else FileEntry.zero

/-- A call of the process.  `before` is the byte in front of the buffer on the stack. -/
inductive FdAct where
  | openFile (before : ℕ) (path : List ℕ)
  | close (fd : ℕ)
  | read (fd size : ℕ) (copied : Bool)
  | getdents (before fd : ℕ) (bufSize : ℤ) (copied : Bool)
  deriving DecidableEq, Repr

/-- A process with its table, the descriptors that were opened and not closed since, and the one that
was opened last, if that was the last call. -/
structure Descriptors where
  files : FileTable
  opened : List ℕ
  fresh : Option ℕ

namespace Descriptors

/-- A process with a table that it has got from `fork`, or with an empty one. -/
def start (files : FileTable) : Descriptors where
  files := files
  opened := slots.filter fun i => (files i).free ≠ 0
  fresh := none

/-- One call.  Files are opened for reading, with the mode `"r"`. -/
def step (img : Tarfs) (fuel : ℕ) (s : Descriptors) : FdAct → Except FsStop Descriptors
  | .openFile before path => do
    let (fd, files) ← tarfsOpen img before fuel s.files path [114]
    .ok (if fd = -1 then { s with files := files, fresh := none }
      else { files := files, opened := fd.toNat :: s.opened, fresh := some fd.toNat })
  | .close fd => do
    let files ← PlumOs.close s.files fd
    .ok { files := files, opened := s.opened.filter fun i => i ≠ fd, fresh := none }
  | .read fd size copied => do
    let files ← PlumOs.read img s.files fd size copied
    .ok { s with files := files, fresh := none }
  | .getdents before fd bufSize copied => do
    let (_, _, files) ← PlumOs.getdents img before fuel s.files fd bufSize copied
    .ok { s with files := files, fresh := none }

end Descriptors

namespace FdAct

/-- Only descriptors that are open are closed and read. -/
def OnOpen (s : Descriptors) : FdAct → Prop
  | openFile _ _ => True
  | close fd => fd ∈ s.opened
  | read fd _ _ => fd ∈ s.opened
  | getdents _ fd _ _ => fd ∈ s.opened

instance (s : Descriptors) : DecidablePred (OnOpen s)
  | openFile _ _ => inferInstanceAs (Decidable True)
  | close fd => inferInstanceAs (Decidable (fd ∈ s.opened))
  | read fd _ _ => inferInstanceAs (Decidable (fd ∈ s.opened))
  | getdents _ fd _ _ => inferInstanceAs (Decidable (fd ∈ s.opened))

/-- The call is no `close`. -/
def NotClose : FdAct → Prop
  | close _ => False
  | _ => True

end FdAct

/-! ### Reachable tables -/

/-- The tables of processes: of the first ones, of their children, and after some calls. -/
inductive Reachable (img : Tarfs) (fuel : ℕ) : FileTable → Prop
  | zero : Reachable img fuel fun _ => FileEntry.zero
  | fork {files : FileTable} : Reachable img fuel files → Reachable img fuel (copyFileArray files)
  | calls {files : FileTable} {as : List FdAct} {s : Descriptors} : Reachable img fuel files →
      Along (Descriptors.step img fuel) FdAct.OnOpen (.start files) as →
      run (Descriptors.step img fuel) (.start files) as = .ok s → Reachable img fuel s.files

/-- The slots that are not used are as in a page of zeros. -/
def UnusedZero (files : FileTable) : Prop := ∀ i, (files i).free = 0 → files i = FileEntry.zero

/-- What the calls keep: only used slots are open. -/
structure Descriptors.Sound (s : Descriptors) : Prop where
  unusedZero : UnusedZero s.files
  used : ∀ i ∈ s.opened, i ∈ slots ∧ (s.files i).free ≠ 0

section Calls

variable {img : Tarfs} {before fuel size i : ℕ} {fd res bufSize : ℤ} {files files' : FileTable}
  {path mode bytes : List ℕ} {copied : Bool} {s s' : Descriptors} {as : List FdAct}

/-! ### The calls on a slot -/

theorem tarfsClose_slot (files : FileTable) (hi : i ∈ slots) : tarfsClose files i = .ok files := by
  have hrange : 3 ≤ i ∧ i < 20 := mem_slots.1 hi
  rw [tarfsClose, if_pos]
  show ((3 : ℕ) : ℤ) ≤ i ∧ (i : ℤ) < (20 : ℕ)
  omega

theorem close_slot (files : FileTable) (hi : i ∈ slots) : close files i = .ok files := by
  have hrange : 3 ≤ i ∧ i < 20 := mem_slots.1 hi
  rw [close, if_pos (by omega), tarfsClose_slot files hi]

/-- On a slot `read` asserts only that it is the one of a file. -/
theorem read_slot (img : Tarfs) (files : FileTable) (hi : i ∈ slots) (hsize : size ≠ 0) (copied : Bool) :
    read img files i size copied =
      if (files i).type = .file then
        .ok (if copied then
          Function.update files i
            { files i with toTarfsFile := ((files i).toTarfsFile.read img.mem size).2.2 } else files)
      else .error (.assertFail "read") := by
  have hrange : 3 ≤ i ∧ i < 20 := mem_slots.1 hi
  have hlt : ¬((i : ℤ) < 0 ∨ ((20 : ℕ) : ℤ) ≤ i) := by omega
  rw [PlumOs.read, if_neg (by omega), if_neg (by omega), if_neg hlt, Int.toNat_natCast]

/-! ### Opening and moving -/

/-- A slot that was free is used now, and its position is the same. -/
def Opened (files files' : FileTable) (i : ℕ) : Prop :=
  files.freeSlot = some i ∧
    ∃ entry, files' = Function.update files i entry ∧ entry.free = 1 ∧ entry.pos = (files i).pos

/-- Only a free slot is used. -/
theorem openSlot_opened {type : FileType} {p : ℕ}
    (h : openSlot img before files path mode type p = .ok (fd, files')) :
    ∃ i : ℕ, fd = i ∧ Opened files files' i := by
  rw [openSlot] at h
  cases hslot : files.freeSlot with
  | none =>
    rw [hslot] at h
    cases h
  | some i =>
    rw [hslot] at h
    simp only at h
    split at h
    case isFalse => cases h
    split at h
    · cases h
      exact ⟨i, rfl, hslot, _, rfl, rfl, rfl⟩
    cases type with
    | dir =>
      cases h
      exact ⟨i, rfl, hslot, _, rfl, rfl, rfl⟩
    | file =>
      cases hsize : found (getFilesz img.mem p) with
      | error e =>
        rw [hsize] at h
        cases h
      | ok filesz =>
        rw [hsize] at h
        cases h
        exact ⟨i, rfl, hslot, _, rfl, rfl, rfl⟩

/-- **What `tarfs_open` does**: nothing, or it uses the first free slot. -/
theorem tarfsOpen_cases (h : tarfsOpen img before fuel files path mode = .ok (fd, files')) :
    (fd = -1 ∧ files' = files) ∨ ∃ i : ℕ, fd = i ∧ Opened files files' i := by
  rw [tarfsOpen] at h
  split at h
  · cases h
  cases hres : openRes img before fuel path with
  | error e =>
    rw [hres] at h
    cases h
  | ok res =>
    rw [hres, ok_bind] at h
    cases res with
    | none =>
      cases h
      exact .inl ⟨rfl, rfl⟩
    | some x => exact .inr (openSlot_opened h)

/-- A call that moves in one file. -/
def Moved (files files' : FileTable) (i : ℕ) : Prop :=
  ∃ file, files' = Function.update files i { files i with toTarfsFile := file }

theorem Moved.refl : Moved files files i :=
  ⟨(files i).toTarfsFile, (Function.update_eq_self i files).symm⟩

/-- What `read` does. -/
theorem read_moved (h : read img files fd size copied = .ok files') :
    Moved files files' fd.toNat := by
  rw [read] at h
  split at h
  · cases h
  split at h
  · cases h
    exact .refl
  split at h
  · cases h
  split at h
  · cases copied with
    | false =>
      cases h
      exact .refl
    | true =>
      cases h
      exact ⟨_, rfl⟩
  · cases h

/-- What `getdents` does. -/
theorem getdents_moved
    (h : getdents img before fuel files fd bufSize copied = .ok (res, bytes, files')) :
    Moved files files' fd.toNat := by
  rcases getdents_cases h with ⟨-, rfl⟩ | ⟨type, name, pos, rfl, -⟩
  · exact .refl
  · exact ⟨{ (files fd.toNat).toTarfsFile with pos := pos }, rfl⟩

theorem Moved.free_eq (h : Moved files files' i) (j : ℕ) : (files' j).free = (files j).free := by
  obtain ⟨file, rfl⟩ := h
  rw [Function.update_apply]
  split
  · rename_i hj
    rw [hj]
  · rfl

theorem Moved.unusedZero (h : Moved files files' i) (hzero : UnusedZero files)
    (hused : (files i).free ≠ 0) : UnusedZero files' := by
  intro j hj
  rw [h.free_eq] at hj
  obtain ⟨file, rfl⟩ := h
  have hne : j ≠ i := by
    rintro rfl
    exact hused hj
  rw [Function.update_of_ne hne]
  exact hzero j hj

theorem Opened.unusedZero (h : Opened files files' i) (hzero : UnusedZero files) :
    UnusedZero files' := by
  obtain ⟨-, entry, rfl, hfree, -⟩ := h
  intro j hj
  by_cases hji : j = i
  · subst hji
    rw [Function.update_self, hfree] at hj
    exact absurd hj (by decide)
  · rw [Function.update_of_ne hji] at hj ⊢
    exact hzero j hj

theorem Opened.free_eq (h : Opened files files' i) (j : ℕ) :
    (files' j).free = if j = i then 1 else (files j).free := by
  obtain ⟨-, entry, rfl, hfree, -⟩ := h
  rw [Function.update_apply]
  split <;> simp [hfree]

/-- A slot that is free has the position 0, so the new descriptor has it too. -/
theorem Opened.pos_eq (h : Opened files files' i) (hzero : UnusedZero files) :
    (files' i).pos = 0 := by
  obtain ⟨hslot, entry, rfl, -, hpos⟩ := h
  rw [Function.update_self, hpos, hzero i (mem_slots_of_freeSlot hslot).2]
  rfl

namespace Descriptors

/-- **What a call does**: it opens a file or not, moves in one that is open, or closes one, which
changes nothing in the table. -/
theorem step_cases {a : FdAct} (ha : a.OnOpen s) (h : step img fuel s a = .ok s') :
    (a.NotClose ∧ s'.opened = s.opened ∧ s'.fresh = none ∧
      (s'.files = s.files ∨ ∃ i ∈ s.opened, Moved s.files s'.files i)) ∨
    (a.NotClose ∧ ∃ i, Opened s.files s'.files i ∧ s'.opened = i :: s.opened ∧ s'.fresh = some i) ∨
    ∃ fd ∈ s.opened, a = .close fd ∧ s' = ⟨s.files, s.opened.filter fun i => i ≠ fd, none⟩ := by
  cases a with
  | openFile before path =>
    rw [step] at h
    cases hopen : tarfsOpen img before fuel s.files path [114] with
    | error e =>
      rw [hopen] at h
      cases h
    | ok x =>
      obtain ⟨fd, files⟩ := x
      rw [hopen, ok_bind] at h
      rcases tarfsOpen_cases hopen with ⟨rfl, rfl⟩ | ⟨i, rfl, hi⟩
      · cases h
        exact .inl ⟨trivial, rfl, rfl, .inl rfl⟩
      · have hne : ¬(i : ℤ) = -1 := by omega
        simp only [if_neg hne, Int.toNat_natCast] at h
        cases h
        exact .inr (.inl ⟨trivial, i, hi, rfl, rfl⟩)
  | close fd =>
    rw [step, PlumOs.close] at h
    split at h
    · rw [tarfsClose] at h
      split at h
      · cases h
        exact .inr (.inr ⟨fd, ha, rfl, rfl⟩)
      · cases h
    · cases h
  | read fd size copied =>
    rw [step] at h
    cases hread : PlumOs.read img s.files fd size copied with
    | error e =>
      rw [hread] at h
      cases h
    | ok files =>
      rw [hread] at h
      cases h
      exact .inl ⟨trivial, rfl, rfl, .inr ⟨fd, ha, by simpa using read_moved hread⟩⟩
  | getdents before fd bufSize copied =>
    rw [step] at h
    cases hdents : PlumOs.getdents img before fuel s.files fd bufSize copied with
    | error e =>
      rw [hdents] at h
      cases h
    | ok x =>
      obtain ⟨res, bytes, files⟩ := x
      rw [hdents] at h
      cases h
      exact .inl ⟨trivial, rfl, rfl, .inr ⟨fd, ha, by simpa using getdents_moved hdents⟩⟩

theorem sound_start (h : UnusedZero files) : (start files).Sound where
  unusedZero := h
  used i hi := by simpa [start] using hi

/-- A call keeps the invariant. -/
theorem Sound.step {a : FdAct} (h : s.Sound) (ha : a.OnOpen s)
    (hs : Descriptors.step img fuel s a = .ok s') : s'.Sound := by
  rcases step_cases ha hs with ⟨-, hopened, -, hfiles | ⟨i, hi, hmoved⟩⟩ |
    ⟨-, i, hi, hopened, -⟩ | ⟨fd, -, -, rfl⟩
  · exact ⟨by rw [hfiles]; exact h.unusedZero, by rw [hopened, hfiles]; exact h.used⟩
  · refine ⟨hmoved.unusedZero h.unusedZero (h.used i hi).2, fun j hj => ?_⟩
    rw [hopened] at hj
    rw [hmoved.free_eq]
    exact h.used j hj
  · refine ⟨hi.unusedZero h.unusedZero, fun j hj => ?_⟩
    rw [hopened] at hj
    rw [hi.free_eq]
    rcases List.mem_cons.1 hj with rfl | hj
    · exact ⟨(mem_slots_of_freeSlot hi.1).1, by simp⟩
    · refine ⟨(h.used j hj).1, ?_⟩
      split
      · decide
      · exact (h.used j hj).2
  · exact ⟨h.unusedZero, fun j hj => h.used j (List.mem_of_mem_filter hj)⟩

end Descriptors

/-- **In a table that a process can have the unused slots are as in a page of zeros.** -/
theorem Reachable.unusedZero (h : Reachable img fuel files) : UnusedZero files := by
  induction h with
  | zero => exact fun _ _ => rfl
  | fork _ ih =>
    intro i hi
    rw [copyFileArray] at hi ⊢
    split at hi
    · rename_i hused
      exact absurd hi hused.2
    · rename_i hused
      rw [if_neg hused]
  | calls _ hal hrun ih =>
    have hsound := run_invariant (Descriptors.sound_start ih)
      (fun _ _ _ hI hG hs => hI.step hG hs) hal hrun
    exact hsound.unusedZero

/-! ### Conservation -/

namespace Descriptors

/-- The used slots are the open descriptors, so there is a slot to hand out unless all are open, and
the descriptor that was opened last starts at position 0. -/
structure Conserved (s : Descriptors) : Prop where
  /-- The slots in use are those of open descriptors. -/
  used : ∀ i ∈ slots, (s.files i).free ≠ 0 ↔ i ∈ s.opened
  /-- A slot is found as long as one is free. -/
  freeSlot : (∃ i ∈ slots, i ∉ s.opened) → s.files.freeSlot ≠ none
  /-- A new descriptor starts at the beginning. -/
  fresh : ∀ i ∈ s.fresh, (s.files i).pos = 0

/-- A slot that is not open can be handed out. -/
theorem freeSlot_of_used (h : ∀ i ∈ slots, (s.files i).free ≠ 0 ↔ i ∈ s.opened) :
    (∃ i ∈ slots, i ∉ s.opened) → s.files.freeSlot ≠ none := by
  rintro ⟨i, hi, hno⟩ hnone
  have hused := List.find?_eq_none.1 hnone i hi
  exact hno ((h i hi).1 (by simpa using hused))

theorem conserved_start (files : FileTable) : (start files).Conserved := by
  have hused : ∀ i ∈ slots, ((start files).files i).free ≠ 0 ↔ i ∈ (start files).opened := by
    intro i hi
    simp [start, hi]
  exact ⟨hused, freeSlot_of_used hused, by simp [start]⟩

/-- A call that does not close keeps the conservation. -/
theorem Conserved.step {a : FdAct} (h : s.Conserved) (hsound : s.Sound) (ha : a.OnOpen s)
    (hno : a.NotClose) (hs : Descriptors.step img fuel s a = .ok s') : s'.Conserved := by
  suffices hused : (∀ i ∈ slots, (s'.files i).free ≠ 0 ↔ i ∈ s'.opened) ∧
      ∀ i ∈ s'.fresh, (s'.files i).pos = 0 from ⟨hused.1, freeSlot_of_used hused.1, hused.2⟩
  rcases step_cases ha hs with ⟨-, hopened, hfresh, hfiles⟩ | ⟨-, i, hi, hopened, hfresh⟩ |
    ⟨fd, -, rfl, -⟩
  · have hfree : ∀ j, (s'.files j).free = (s.files j).free := by
      rcases hfiles with hfiles | ⟨i, -, hmoved⟩
      · exact fun j => by rw [hfiles]
      · exact hmoved.free_eq
    rw [hopened, hfresh]
    refine ⟨fun j hj => ?_, by simp⟩
    rw [hfree]
    exact h.used j hj
  · rw [hopened, hfresh]
    refine ⟨fun j hj => ?_, ?_⟩
    · rw [hi.free_eq, List.mem_cons, ← h.used j hj]
      by_cases hji : j = i <;> simp [hji]
    · intro j hj
      obtain rfl : i = j := by simpa using hj
      exact hi.pos_eq hsound.unusedZero
  · exact absurd hno id

/-- `close` leaves the slot used. -/
theorem not_conserved_of_close {fd : ℕ} (hsound : s.Sound) (hfd : fd ∈ s.opened) :
    ∃ s', Descriptors.step img fuel s (.close fd) = .ok s' ∧ ¬s'.Conserved := by
  obtain ⟨hslot, hused⟩ := hsound.used fd hfd
  refine ⟨⟨s.files, s.opened.filter fun i => i ≠ fd, none⟩, ?_, fun h => ?_⟩
  · rw [Descriptors.step, close_slot s.files hslot]
    rfl
  · have hmem := (h.used fd hslot).1 hused
    simp at hmem

/-- **The descriptors are conserved exactly as long as** none is closed. -/
theorem conserved_iff (hfiles : Reachable img fuel files)
    (hopen : Along (Descriptors.step img fuel) FdAct.OnOpen (start files) as) :
    Always (Descriptors.step img fuel) Conserved (start files) as ↔
      Along (Descriptors.step img fuel) (fun _ a => a.NotClose) (start files) as := by
  refine always_iff_along (I := fun s => s.Sound ∧ s.Conserved)
    ⟨sound_start hfiles.unusedZero, conserved_start files⟩ (fun _ h => h.2) ?_ ?_ hopen
  · exact fun s a s' hI ha hno hs => ⟨hI.1.step ha hs, hI.2.step hI.1 ha hno hs⟩
  · intro s a hI ha hclose
    cases a with
    | close fd => exact not_conserved_of_close hI.1 ha
    | openFile before path => exact absurd trivial hclose
    | read fd size copied => exact absurd trivial hclose
    | getdents before fd bufSize copied => exact absurd trivial hclose

end Descriptors

end Calls

/-- The root directory is opened twice and closed once. -/
def rootCalls : List FdAct := [.openFile 0 [47], .openFile 0 [47, 47], .close 3]

theorem onOpen_rootCalls : Along (Descriptors.step sampleTarfs 0) FdAct.OnOpen
    (.start fun _ => FileEntry.zero) rootCalls :=
  along_of_decide (by decide)

theorem conserved_iff_root :
    Always (Descriptors.step sampleTarfs 0) Descriptors.Conserved (.start fun _ => FileEntry.zero)
        rootCalls ↔
      Along (Descriptors.step sampleTarfs 0) (fun _ a => a.NotClose) (.start fun _ => FileEntry.zero)
        rootCalls :=
  Descriptors.conserved_iff .zero onOpen_rootCalls

/-- After the third call the slot 3 is still used. -/
theorem conserved_fails : ¬∀ (img : Tarfs) (fuel : ℕ) (files : FileTable) (as : List FdAct),
    Reachable img fuel files →
      Along (Descriptors.step img fuel) FdAct.OnOpen (.start files) as →
      Always (Descriptors.step img fuel) Descriptors.Conserved (.start files) as := by
  intro hall
  have hal := hall sampleTarfs 0 _ rootCalls .zero onOpen_rootCalls
  have hrun : reaches (run (Descriptors.step sampleTarfs 0) (.start fun _ => FileEntry.zero) rootCalls)
      (fun s => (s.files 3).free = 1 ∧ 3 ∉ s.opened) = true := by decide
  obtain ⟨s, hs, htest⟩ := exists_of_reaches hrun
  obtain ⟨hfree, hno⟩ := of_decide_eq_true htest
  have hmem := ((hal.of_run hs).used 3 (by decide)).1
  exact hno (hmem (by rw [hfree]; decide))

end PlumOs
