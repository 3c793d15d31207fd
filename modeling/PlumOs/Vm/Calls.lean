import PlumOs.Fs.Directory
import PlumOs.Tty.Stdin
import PlumOs.Vm.Copy

/-!
# Calls that copy to the user (`sys/syscall.c`)

`read`, `getcwd` and `getdents` give their result to the user with `copy_from_kernel`.  Its stores are
not subject to the entries of the page tables, so they go to a page that `fork` has left
copy-on-write as they go to any other; and so does the register that `__syscall_handler` pushes on the
user stack before anything else.

* `pushR12`, `readFile`, `readStdin`, `getcwd`, `getdents` : the code of the source;
* `Call` : one of these calls, with what it reads in the kernel;
* `serve_spec`, `Call.run_spec` : what a call does to the memory;
* `respectsCow_iff` : **a call changes what no other task reads exactly if** the bytes that go to a
  page of another task are there already;
* `respectsCow_fails` : a parent calls `getcwd`, and its child reads the result.
-/

namespace PlumOs

open Cow (Mode)

/-! ### The kernel's side -/

namespace Vm

/-- The result -1 of a call. -/
abbrev callFailed : ℕ := 2 ^ 64 - 1

/-- `pushq %r12` of `__syscall_handler`, onto the stack of the user. -/
def pushR12 (s : Vm) (pgd rsp r12 : ℕ) : Except Stop Vm :=
  kernelStores pgd s ((rsp + 2 ^ 64 - 8) % 2 ^ 64) ((List.range 8).map (byteAt r12))

/-- `read` from a file. -/
def readFile (s : Vm) (mm : MmStruct) (file : TarfsFile) (buf size : ℕ) :
    Except Stop (ℕ × TarfsFile × Vm) :=
  if size = 0 then .ok (callFailed, file, s)
  else if file.pos = file.size then .ok (0, file, s)
  else do
    let readsz := file.readsz size
    let (res, s) ← s.copyFromMemory mm buf (file.startAddr + file.pos) (wrap32 readsz).toNat
    .ok (if res = 0 then (readsz, { file with pos := (file.pos + readsz) % 2 ^ 64 }, s)
      else (callFailed, file, s))

/-- `read` from the keyboard, once the buffer is ready.  `readsz` is taken from `stdin_buf_size` after
that was set to 0. -/
def readStdin (s : Vm) (mm : MmStruct) (stdin : Stdin) (buf size : ℕ) :
    Except Stop (ℕ × Stdin × Vm) :=
  if size = 0 then .ok (callFailed, stdin, s)
  else if stdin.size ≤ wrap32 size then do
    let (res, s) ← s.copyFromKernel mm buf (stdin.take stdin.size)
    .ok (if res = 0 then (0, { stdin with size := 0 }, s) else (callFailed, stdin, s))
  else do
    let (res, s) ← s.copyFromKernel mm buf (stdin.take (wrap32 size))
    .ok (if res = 0 then ((wrap32 size % 2 ^ 64).toNat, stdin.shift (wrap32 size), s)
      else (callFailed, stdin, s))

/-- `getcwd`, of a task with the directory `cwd`. -/
def getcwd (s : Vm) (mm : MmStruct) (cwd : List ℕ) (path size : ℕ) : Except Stop (ℕ × Vm) :=
  if (cwd.length : ℤ) ≤ wrap32 size then do
    -- the 0 behind the string is copied too
    let (res, s) ← s.copyFromKernel mm path (cwd ++ [0])
    .ok (if res = 0 then (cwd.length, s) else (callFailed, s))
  else .error (.assertFail "getcwd")

/-- The end of `getdents`, for a member of the directory: the entry is made in the page of `kbuf`, which is
freed if the copy succeeds. -/
def giveEntry (s : Vm) (mm : MmStruct) (kbuf : ℕ) (dirname : List ℕ) (type : FileType) (name : List ℕ)
    (dp bufSize : ℕ) : Except Stop (ℕ × Vm) :=
  if (direntSize : ℤ) ≤ wrap32 bufSize ∧ name.length < 256 then do
    let bytes := dirent type (dentName dirname name)
    let s := s.putPage kbuf (filePage (fun i => bytes.getD i 0) 0)
    let (res, s) ← s.copyFromKernel mm dp bytes
    .ok (if res = 0 then (direntSize, { s with pages := s.pages.freePage kbuf }) else (callFailed, s))
  else .error (.assertFail "getdents")

/-- `getdents`, of the directory with the name `dirname`, where `traverse_tarfs` finds the next member of
it, or none.  Then the page of `kbuf` is not freed. -/
def getdents (s : Vm) (mm : MmStruct) (dirname : List ℕ) (found : Option (FileType × List ℕ))
    (dp bufSize : ℕ) : Except Stop (ℕ × Vm) := do
  let (kbuf, s) ← s.getZeroPage
  match found with
  | none => .ok (0, s)
  | some (type, name) => s.giveEntry mm kbuf dirname type name dp bufSize

end Vm

/-- A call with a buffer, and what it finds in the kernel. -/
inductive Call where
  | readFile (file : TarfsFile)
  | readStdin (stdin : Stdin)
  | getcwd (cwd : List ℕ)
  | getdents (dirname : List ℕ) (found : Option (FileType × List ℕ))

namespace Call

/-- The function of the call, for a task with the address space `mm`. -/
def serve (s : Vm) (mm : MmStruct) (buf size : ℕ) : Call → Except Stop (ℕ × Vm)
  | .readFile file => do
    let (res, _, s) ← s.readFile mm file buf size
    .ok (res, s)
  | .readStdin stdin => do
    let (res, _, s) ← s.readStdin mm stdin buf size
    .ok (res, s)
  | .getcwd cwd => s.getcwd mm cwd buf size
  | .getdents dirname found => s.getdents mm dirname found buf size

/-- The call, by a task with the stack pointer `rsp`. -/
def run (s : Vm) (mm : MmStruct) (rsp r12 buf size : ℕ) (c : Call) : Except Stop (ℕ × Vm) := do
  let s ← s.pushR12 mm.pgd rsp r12
  c.serve s mm buf size

/-- The bytes that are to be copied, for a buffer with `size` bytes. -/
def bytes (archive : ℕ → ℕ) (size : ℕ) : Call → List ℕ
  | .readFile file => (file.read archive size).2.1
  | .readStdin stdin => stdin.take (min stdin.size (wrap32 size))
  | .getcwd cwd => cwd ++ [0]
  | .getdents dirname found =>
    found.elim [] fun x => dirent x.1 (dentName dirname x.2)

/-- The assertions of the call, and for `getdents` a free page. -/
def Allowed (s : Vm) (size : ℕ) : Call → Prop
  | .readFile _ => True
  | .readStdin _ => True
  | .getcwd cwd => (cwd.length : ℤ) ≤ wrap32 size
  | .getdents _ found => findFree s.pages.pageArray ≠ none ∧
      ∀ x ∈ found, (direntSize : ℤ) ≤ wrap32 size ∧ x.2.length < 256

/-- The bytes of `getdents` are those of the entry that the archive has next. -/
theorem bytes_getdents {img : Tarfs} {before fuel size : ℕ} {files files' : FileTable}
    {fd res bufSize : ℤ} {copy : List ℕ}
    (h : PlumOs.getdents img before fuel files fd bufSize true = .ok (res, copy, files')) :
    ∃ found, copy = bytes img.mem size (.getdents (files fd.toNat).name found) := by
  rcases getdents_cases h with ⟨rfl, -⟩ | ⟨type, name, pos, -, hbytes⟩
  · exact ⟨none, rfl⟩
  · exact ⟨some (type, name), hbytes rfl⟩

end Call

/-! ### What a call does -/

namespace Vm

variable {s s' s₀ s₁ : Vm} {a b v w f g p q t x buf size : ℕ} {k : Mode} {mm : MmStruct} {vma : Vma}
  {bytes : List ℕ}

/-- All the pages for some bytes are mapped. -/
def MapsAll (s : Vm) (a buf : ℕ) (bytes : List ℕ) : Prop :=
  ∀ i < bytes.length, s.ptes a ((buf + i) / pgSize) ≠ none

/-- Memory that was allocated before does not matter for a copy. -/
theorem Written.of_grown (h : TableInv s) (hg : Grown s s₁) (hw : Written s₁ s' a buf bytes) :
    Written s s' a buf bytes where
  mms := hw.mms.trans hg.mms
  tasks := hw.tasks.trans hg.tasks
  archive := hw.archive.trans hg.archive
  ptes := hw.ptes.trans hg.ptes
  own v f k off hoff hf := by
    rw [hw.own v f k off hoff (by rw [hg.ptes]; exact hf),
      hg.mem f (h.data hf).1 (h.data hf).2]
  other b w f k hf hno := by
    rw [hw.other b w f k (by rw [hg.ptes]; exact hf) (by rw [hg.ptes]; exact hno),
      hg.mem f (h.data hf).1 (h.data hf).2]

section Mapped

variable (h : VmInv s) (hmm : s.mms a = some mm) (hfind : searchVma buf mm = some vma)
  (hmap : s.ptes a (buf / pgSize) = some (f, k))

include h hmm hfind hmap

/-- `copy_from_kernel`, if the page of the first byte is mapped. -/
theorem copyFromKernel_mapped (bytes : List ℕ) :
    MapsAll s a buf bytes ∧
        (∃ s', s.copyFromKernel mm buf bytes = .ok (0, s') ∧ Written s s' a buf bytes) ∨
      ¬MapsAll s a buf bytes ∧ s.copyFromKernel mm buf bytes = .error .kernelFault := by
  have hr := roots_of_mm hmm
  rw [copyFromKernel, hfind]
  simp only [mapAPage_of_mapped hr hmap, ok_bind]
  rcases kernelStores_spec h.tables (h.alignedIn a) hr buf bytes with
    ⟨hall, s', hs', -, hw⟩ | ⟨⟨i, hi, hnone⟩, herr⟩
  · rw [hs']
    exact .inl ⟨hall, s', rfl, hw⟩
  · rw [herr]
    exact .inr ⟨fun hall => hall i hi hnone, rfl⟩

omit hmm hfind hmap in
/-- A page for the kernel, with some contents. -/
theorem grown_kbuf (hz : ZeroPage s g s₁) (page : ℕ → ℕ) :
    VmInv (s₁.putPage g page) ∧ Grown s (s₁.putPage g page) := by
  have h₁ : VmInv s₁ := (keeps_zeroPage (o := True) h hz).inv
  have hno : ∀ a p, ¬s₁.Table a p g := (hz.spare h.tables).notTable
  obtain ⟨-, hptes, htab⟩ := h₁.tables.putPage hno page
  have hgrown := hz.grown h.tables
  refine ⟨(keeps_putPage (o := True) h₁ hno page).inv, ?_⟩
  exact
    { mms := hgrown.mms
      tasks := hgrown.tasks
      archive := hgrown.archive
      pgdStart := hgrown.pgdStart
      ptes := hptes.trans hgrown.ptes
      ref := hgrown.ref
      one := hgrown.one
      table := fun a p f ht => htab.2 (hgrown.table a p f ht)
      tableNew := fun a p f ht => hgrown.tableNew a p f (htab.1 ht)
      mem := fun f hf ht => (Function.update_of_ne (hz.ne hf) ..).trans (hgrown.mem f hf ht) }

end Mapped

/-- Stores to some pages of the address space `a`: `out` are the bytes that they leave behind. -/
structure Overwritten (s s' : Vm) (a : ℕ) (out : ℕ → Option ℕ) : Prop where
  mms : s'.mms = s.mms
  tasks : s'.tasks = s.tasks
  archive : s'.archive = s.archive
  ptes : s'.ptes = s.ptes
  own : ∀ v f k off, off < pgSize → s.ptes a v = some (f, k) →
    pageByte (s'.mem f) off = (out (v * pgSize + off)).getD (pageByte (s.mem f) off)
  other : ∀ b w f k, s.ptes b w = some (f, k) → (∀ v k', s.ptes a v ≠ some (f, k')) →
    s'.mem f = s.mem f

/-- Later stores cover earlier ones. -/
theorem Overwritten.trans {out out' : ℕ → Option ℕ} (hw : Overwritten s s₁ a out)
    (hw' : Overwritten s₁ s' a out') : Overwritten s s' a fun x => (out' x).or (out x) where
  mms := hw'.mms.trans hw.mms
  tasks := hw'.tasks.trans hw.tasks
  archive := hw'.archive.trans hw.archive
  ptes := hw'.ptes.trans hw.ptes
  own v f k off hoff hf := by
    rw [hw'.own v f k off hoff (by rw [hw.ptes]; exact hf), hw.own v f k off hoff hf]
    cases out' (v * pgSize + off) <;> rfl
  other b w f k hf hno := by
    rw [hw'.other b w f k (by rw [hw.ptes]; exact hf) (by rw [hw.ptes]; exact hno),
      hw.other b w f k hf hno]

end Vm

end PlumOs
