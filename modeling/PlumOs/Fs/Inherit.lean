import PlumOs.Fs.Descriptors

/-!
# Descriptors of a child (`sys/syscall.c`)

`fork` makes the file table of the child with `copy_file_array`, in a page of zeros.  The function
copies all fields of a used slot but `name` and `type`: in the child every used slot is a directory
without a name.

* `FdCall.exec`, `callResults` : calls of `read` and `getdents` on the descriptors of a process, and what
  they return, up to the call that stops the kernel;
* `callResults_congr` : the calls depend on nothing but the slots;
* `Inherits` : the slots of the child are those of the parent, and so is what calls on them return;
* `inherits_iff` : **a table is inherited exactly if** its used slots are directories without a name,
  as in a process that has itself opened nothing since it was forked;
* `read_child` : a regular file cannot be read in the child;
* `inherits_fails` : the parent has opened `bin/ls`.
-/

namespace PlumOs

/-! ### Calls and their results -/

/-- What a call of `read` on a descriptor returns, and the bytes that it copies. -/
def readResult (img : Tarfs) (files : FileTable) (fd size : ℕ) (copied : Bool) : ℤ × List ℕ :=
  if size = 0 then (-1, [])
  else
    let (res, bytes, _) := (files fd).toTarfsFile.read img.mem size
    -- at the end of the file nothing is copied
    if copied ∨ (files fd).pos = (files fd).size then (res, bytes) else (-1, [])

/-- A call of the process on one of its descriptors. -/
inductive FdCall where
  | read (fd size : ℕ) (copied : Bool)
  | getdents (before fd : ℕ) (bufSize : ℤ) (copied : Bool)
  deriving DecidableEq, Repr

namespace FdCall

/-- The descriptor. -/
def fd : FdCall → ℕ
  | read fd _ _ => fd
  | getdents _ fd _ _ => fd

/-- The result of the call and the bytes for the user, and the table afterwards. -/
def exec (img : Tarfs) (fuel : ℕ) (files : FileTable) :
    FdCall → Except FsStop ((ℤ × List ℕ) × FileTable)
  | read fd size copied => do
    let files' ← PlumOs.read img files fd size copied
    .ok (readResult img files fd size copied, files')
  | getdents before fd bufSize copied => do
    let (res, bytes, files') ← PlumOs.getdents img before fuel files fd bufSize copied
    .ok ((res, bytes), files')

end FdCall

/-- What the calls return one after the other, and why the kernel stopped in the end, if it did. -/
def callResults (img : Tarfs) (fuel : ℕ) :
    FileTable → List FdCall → List (ℤ × List ℕ) × Option FsStop
  | _, [] => ([], none)
  | files, c :: cs =>
    match c.exec img fuel files with
    | .ok (res, files') =>
      let (rest, stop) := callResults img fuel files' cs
      (res :: rest, stop)
    | .error e => ([], some e)

/-- The slots of a child are those of the parent, and calls on the descriptors that the parent has open
return in the child what they return in the parent. -/
structure Inherits (img : Tarfs) (fuel : ℕ) (files : FileTable) : Prop where
  slots : ∀ i ∈ slots, copyFileArray files i = files i
  results : ∀ cs : List FdCall, (∀ c ∈ cs, c.fd ∈ PlumOs.slots ∧ (files c.fd).free ≠ 0) →
    callResults img fuel (copyFileArray files) cs = callResults img fuel files cs

/-- Two tables with the same slots. -/
def SameSlots (files files' : FileTable) : Prop := ∀ i ∈ slots, files i = files' i

section Calls

variable {img : Tarfs} {fuel i size : ℕ} {files files' f g : FileTable} {entry : FileEntry} {c : FdCall}
  {cs : List FdCall} {copied : Bool}

theorem SameSlots.update (h : SameSlots f g) (i : ℕ) (entry : FileEntry) :
    SameSlots (Function.update f i entry) (Function.update g i entry) := by
  intro j hj
  by_cases hji : j = i
  · rw [hji, Function.update_self, Function.update_self]
  · rw [Function.update_of_ne hji, Function.update_of_ne hji]
    exact h j hj

/-- A call that moves in a file looks at its slot, and stores there. -/
theorem exec_cases (hfd : c.fd ∈ slots) (h : SameSlots f g) :
    (∃ e, c.exec img fuel f = .error e ∧ c.exec img fuel g = .error e) ∨
    ∃ res f' g', c.exec img fuel f = .ok (res, f') ∧ c.exec img fuel g = .ok (res, g') ∧
      SameSlots f' g' := by
  have hentry : f c.fd = g c.fd := h _ hfd
  have hrange : startFd ≤ c.fd ∧ c.fd < maxFileNum := mem_slots.1 hfd
  cases c with
  | read fd size copied =>
    replace hentry : f fd = g fd := hentry
    have hres : readResult img f fd size copied = readResult img g fd size copied := by
      rw [readResult, readResult, hentry]
    simp only [FdCall.exec, hres, PlumOs.read, Int.toNat_natCast, hentry]
    split
    · exact .inl ⟨_, rfl, rfl⟩
    split
    · exact .inr ⟨_, f, g, rfl, rfl, h⟩
    split
    · exact .inl ⟨_, rfl, rfl⟩
    split
    · cases copied with
      | false => exact .inr ⟨_, f, g, rfl, rfl, h⟩
      | true => exact .inr ⟨_, _, _, rfl, rfl, h.update fd _⟩
    · exact .inl ⟨_, rfl, rfl⟩
  | getdents before fd bufSize copied =>
    replace hentry : f fd = g fd := hentry
    simp only [FdCall.exec, PlumOs.getdents, nextEntry, Int.toNat_natCast, hentry]
    split
    case isFalse => exact .inl ⟨_, rfl, rfl⟩
    cases hwalk : traverseTarfs img before (g fd).name belongsToDir fuel
        (((g fd).startAddr + (g fd).pos) % 2 ^ 64) with
    | error e => exact .inl ⟨_, rfl, rfl⟩
    | ok x =>
      cases x with
      | none => exact .inr ⟨_, f, g, rfl, rfl, h⟩
      | some x =>
        obtain ⟨type, p⟩ := x
        simp only [ok_bind]
        cases hstep : dentStep img.mem p type with
        | error e => exact .inl ⟨_, rfl, rfl⟩
        | ok step =>
          cases hname : found (cstr img.mem p) with
          | error e => exact .inl ⟨_, rfl, rfl⟩
          | ok name =>
            simp only [ok_bind]
            split
            case isFalse => exact .inl ⟨_, rfl, rfl⟩
            cases copied with
            | false => exact .inr ⟨_, _, _, rfl, rfl, h.update fd _⟩
            | true => exact .inr ⟨_, _, _, rfl, rfl, h.update fd _⟩

/-- **Calls on the same slots return the same**, and stop at the same call. -/
theorem callResults_congr (hfd : ∀ c ∈ cs, c.fd ∈ slots) (h : SameSlots f g) :
    callResults img fuel f cs = callResults img fuel g cs := by
  induction cs generalizing f g with
  | nil => rfl
  | cons c cs ih =>
    rw [List.forall_mem_cons] at hfd
    rcases exec_cases hfd.1 h with ⟨e, hf, hg⟩ | ⟨res, f', g', hf, hg, hsame⟩
    · rw [callResults, callResults, hf, hg]
    · rw [callResults, callResults, hf, hg]
      simp only [ih hfd.2 hsame]

/-! ### What a child inherits -/

/-- The used slots are directories without a name. -/
def Nameless (files : FileTable) : Prop :=
  ∀ i ∈ slots, (files i).free ≠ 0 → (files i).type = .dir ∧ (files i).name = []

/-- What a child has in a used slot. -/
theorem copyFileArray_used (hi : i ∈ slots) (hused : (files i).free ≠ 0) :
    copyFileArray files i = { files i with type := .dir, name := [] } := by
  rw [copyFileArray, if_pos ⟨hi, hused⟩]
  rfl

/-- **A slot of the child is the parent's exactly if** it is unused, or a directory without a name. -/
theorem copyFileArray_eq_iff (hzero : UnusedZero files) (hi : i ∈ slots) :
    copyFileArray files i = files i ↔
      ((files i).free ≠ 0 → (files i).type = .dir ∧ (files i).name = []) := by
  by_cases hused : (files i).free = 0
  · rw [copyFileArray, if_neg (fun h => h.2 hused), hzero i hused]
    exact ⟨fun _ h => absurd rfl h, fun _ => rfl⟩
  · rw [copyFileArray_used hi hused]
    constructor
    · intro heq _
      rw [← heq]
      exact ⟨rfl, rfl⟩
    · intro h
      obtain ⟨htype, hname⟩ := h hused
      rw [← htype, ← hname]

/-- **A table is inherited exactly if** its used slots are directories without a name. -/
theorem inherits_iff (h : Reachable img fuel files) : Inherits img fuel files ↔ Nameless files := by
  constructor
  · exact fun hinh i hi => (copyFileArray_eq_iff h.unusedZero hi).1 (hinh.slots i hi)
  · intro hnameless
    have hsame : SameSlots (copyFileArray files) files := fun i hi =>
      (copyFileArray_eq_iff h.unusedZero hi).2 (hnameless i hi)
    exact ⟨hsame, fun cs hcs => callResults_congr (fun c hc => (hcs c hc).1) hsame⟩

/-- **In the child the assertion of `read` fails** for every descriptor that was open in the parent. -/
theorem read_child (hi : i ∈ slots) (hused : (files i).free ≠ 0) (hsize : size ≠ 0) :
    PlumOs.read img (copyFileArray files) i size copied = .error (.assertFail "read") := by
  have htype : (copyFileArray files i).type ≠ .file := by
    rw [copyFileArray_used hi hused]
    exact fun h => nomatch h
  rw [read_slot img (copyFileArray files) hi hsize, if_neg htype]

end Calls

/-- `bin/ls` is opened. -/
def openLs : List FdAct := [.openFile 0 [98, 105, 110, 47, 108, 115]]

/-- The process reads the first bytes of `bin/ls`. -/
def readLs : List FdCall := [.read 3 4 true]

/-- A table in which `bin/ls` is open and can be read. -/
theorem reachable_openLs : ∃ files, Reachable sampleTarfs 10 files ∧ (files 3).free = 1 ∧
    (callResults sampleTarfs 10 files readLs).2 = none := by
  have hal : Along (Descriptors.step sampleTarfs 10) FdAct.OnOpen (.start fun _ => FileEntry.zero) openLs :=
    ⟨trivial, fun _ _ => trivial⟩
  have hrun : reaches (run (Descriptors.step sampleTarfs 10) (.start fun _ => FileEntry.zero) openLs)
      (fun s => (s.files 3).free = 1 ∧ (callResults sampleTarfs 10 s.files readLs).2 = none) = true := by
    decide +kernel
  obtain ⟨s, hs, htest⟩ := exists_of_reaches hrun
  obtain ⟨hfree, hread⟩ := of_decide_eq_true htest
  exact ⟨s.files, .calls .zero hal hs, hfree, hread⟩

theorem inherits_iff_openLs : ∃ files, (files 3).free = 1 ∧
    (Inherits sampleTarfs 10 files ↔ Nameless files) := by
  obtain ⟨files, hfiles, hfree, -⟩ := reachable_openLs
  exact ⟨files, hfree, inherits_iff hfiles⟩

/-- The parent can read `bin/ls`; in the child the first call of `read` stops the kernel. -/
theorem inherits_fails : ¬∀ (img : Tarfs) (fuel : ℕ) (files : FileTable), Reachable img fuel files →
    Inherits img fuel files := by
  intro hall
  obtain ⟨files, hfiles, hfree, hread⟩ := reachable_openLs
  have hused : (files 3).free ≠ 0 := by
    rw [hfree]
    decide
  have hopen : ∀ c ∈ readLs, c.fd ∈ slots ∧ (files c.fd).free ≠ 0 := by
    intro c hc
    obtain rfl := List.mem_singleton.1 hc
    exact ⟨by decide, hused⟩
  have hsame := (hall sampleTarfs 10 files hfiles).results readLs hopen
  have hchild : callResults sampleTarfs 10 (copyFileArray files) readLs =
      ([], some (.assertFail "read")) := by
    have hstop : PlumOs.read sampleTarfs (copyFileArray files) (3 : ℕ) 4 true =
        .error (.assertFail "read") := read_child (by decide) hused (by decide)
    rw [readLs, callResults, FdCall.exec]
    simp only [hstop]
    rfl
  rw [← hsame, hchild] at hread
  exact absurd hread (by simp)

end PlumOs
