import PlumOs.Fs.Chdir
import PlumOs.Shell.Search

/-!
# The descriptors of the shell (`bin/sbush/sbush.c`, `libc/shlib.c`)

The shell looks for a program by opening files, and lists a directory by itself.  Here `close` is taken to
release its slot.

* `execute` : the function of the source, with its calls of `open` and `close`;
* `release_opened` : a slot that is opened and released is as it was before;
* `balanced_iff` : **a command leaves the same descriptors open exactly if** it finds no program and lists
  no directory;
* `balanced_fails` : `ls /`.
-/

namespace PlumOs

/-! ### Calls that release -/

/-- A `tarfs_close` that releases the slot. -/
def tarfsCloseReleasing (files : FileTable) (fd : ℤ) : Except FsStop FileTable := do
  let files ← tarfsClose files fd
  .ok (Function.update files fd.toNat FileEntry.zero)

/-- A `close` that releases the slot. -/
def closeReleasing (files : FileTable) (fd : ℤ) : Except FsStop FileTable := do
  let files ← close files fd
  .ok (Function.update files fd.toNat FileEntry.zero)

/-- `does_file_exist`. -/
def doesFileExist (img : Tarfs) (before fuel : ℕ) (files : FileTable) (filename : List ℕ) :
    Except FsStop (Bool × FileTable) := do
  let (fd, files) ← tarfsOpen img before fuel files filename [114]
  .ok (decide (0 ≤ fd), files)

/-- The loop of `list_file`, with at most `calls` calls of `readdir`: the table afterwards. -/
def listLoop (img : Tarfs) (before fuel : ℕ) : ℕ → FileTable → Dir → Except FsStop FileTable
  | 0, _, _ => .error .loop
  | calls + 1, files, dirp => do
    let (dp, files, dirp) ← readdir img before fuel true 2 files dirp
    match dp with
    | none => .ok files
    | some _ => listLoop img before fuel calls files dirp

/-- `list_file`, with `opendir`: the table afterwards. -/
def listFileTable (img : Tarfs) (before fuel : ℕ) (files : FileTable) (fullpath : List ℕ)
    (dirp : Option Dir) (ddBuf : Option (List ℕ)) : Except FsStop FileTable := do
  let (fd, files) ← tarfsOpen img before fuel files fullpath [114]
  if fd = -1 then .ok files
  else
    match dirp, ddBuf with
    | some dirp, some ddBuf =>
      -- there is no call of `closedir` behind the loop
      listLoop img before fuel (fuel + 1) files
        { dirp with ddBuf := ddBuf, ddLen := 512, ddFd := fd, ddLoc := 0, ddSeek := 0 }
    | _, _ => closeReleasing files fd

/-! ### `execute` -/

/-- The shell, with its table and its working directory. -/
structure Shell where
  files : FileTable
  cwd : List ℕ

/-- A command with the variables of the shell, and with what it finds in memory: `before` is a byte in
front of a buffer, `garbage` a string in a buffer that is not initialised, `dirp` and `ddBuf` are the
blocks for `opendir`. -/
structure Command where
  argList : List (List ℕ)
  shVarList : List (List ℕ)
  envp : List (List ℕ)
  before : ℕ
  garbage : List ℕ
  dirp : Option Dir
  ddBuf : Option (List ℕ)

/-- What a command comes down to. -/
inductive ShellAct where
  | nothing
  | cd (path : List ℕ)
  | ls (path : List ℕ)
  | exit
  | start (filename : List ℕ)
  deriving DecidableEq, Repr

/-- The path for `chdir`: the names of directories end with a `/`. -/
def cdPath (before : ℕ) (fullpath : List ℕ) : List ℕ :=
  if fullpath.getLastD before = 46 ∨ fullpath.getLastD before = 47 then fullpath else fullpath ++ [47]

/-- The branches of `execute`.  A command with a `=` changes the variables only. -/
def Command.act (cwd : List ℕ) (c : Command) : Except FsStop ShellAct :=
  match c.argList with
  | [] => .ok .nothing
  | cmd :: args =>
    if strcmp cmd [99, 100] = 0 ∨ strcmp cmd [108, 115] = 0 then
      match args with
      | [] =>
        -- without the variable the path is a null pointer, and the kernel takes what is on its stack
        .ok (if strcmp cmd [99, 100] = 0 then .cd ((getVar c.envp [72, 79, 77, 69]).getD c.garbage)
          else .ls cwd)
      | [arg] => do
        let fullpath ← getFullpath c.before c.garbage cwd c.envp arg
        .ok (if strcmp cmd [99, 100] = 0 then .cd (cdPath c.before fullpath) else .ls fullpath)
      | _ => .ok .nothing
    else if 61 ∈ cmd then .ok .nothing
    else if strcmp cmd [101, 120, 105, 116] = 0 ∧ args = [] then .ok .exit
    else .ok (.start cmd)

namespace Shell

/-- `chdir` of the kernel, with a `tarfs_close` that releases the slot. -/
def chdir (img : Tarfs) (before fuel : ℕ) (s : Shell) (path : List ℕ) : Except FsStop Shell :=
  if nameSize ≤ path.length then .error .overrun
  else do
    let (fd, files) ← tarfsOpen img before fuel s.files (dotDot path) [114]
    if 0 < fd then
      let name := (files fd.toNat).name
      let files ← tarfsCloseReleasing files fd
      .ok { files := files, cwd := name }
    else .ok { s with files := files }

/-- `execute`.  The child of the shell has a table of its own. -/
def execute (img : Tarfs) (fuel : ℕ) (s : Shell) (c : Command) : Except FsStop Shell := do
  match ← c.act s.cwd with
  | .nothing => .ok s
  | .cd path => s.chdir img c.before fuel path
  | .ls path => do
    let files ← listFileTable img c.before fuel s.files path c.dirp c.ddBuf
    .ok { s with files := files }
  | .exit => .error .exitSt
  | .start filename => do
    let (_, files) ← locateExecutableFile (doesFileExist img c.before fuel) c.before filename c.shVarList
      s.files
    .ok { s with files := files }

end Shell

/-! ### Balance -/

/-- The same descriptors are open. -/
def SameOpen (files files' : FileTable) : Prop :=
  ∀ i ∈ slots, (files i).free ≠ 0 ↔ (files' i).free ≠ 0

/-- A path can be opened. -/
def canOpen (img : Tarfs) (before fuel : ℕ) (files : FileTable) (path : List ℕ) : Except FsStop Bool :=
  (tarfsOpen img before fuel files path [114]).map fun x => decide (0 ≤ x.1)

/-- A path is opened as a directory. -/
def OpensAsDir (img : Tarfs) (before fuel : ℕ) (files : FileTable) (path : List ℕ) : Prop :=
  ∃ (i : ℕ) (entry : FileEntry), tarfsOpen img before fuel files path [114] =
    .ok (i, Function.update files i entry) ∧ entry.type = .dir

namespace Command

/-- The strings of the command are strings. -/
def Strings (c : Command) : Prop :=
  ∀ str ∈ c.garbage :: (c.argList ++ c.envp), IsPath str

/-- The command finds no program and lists no directory. -/
def Keeps (img : Tarfs) (fuel : ℕ) (s : Shell) (c : Command) : Prop :=
  (∀ path, c.act s.cwd = .ok (.ls path) → c.dirp ≠ none → c.ddBuf ≠ none →
    ¬OpensAsDir img c.before fuel s.files path) ∧
  ∀ filename, c.act s.cwd = .ok (.start filename) → ∀ p,
    (locateExecutableFile (pureTest (canOpen img c.before fuel s.files)) c.before filename c.shVarList
      ()).map Prod.fst ≠ .ok (some p)

end Command

section Balance

variable {img : Tarfs} {members rest : List Member} {before fuel calls i : ℕ} {fd : ℤ}
  {files files' start : FileTable} {path name : List ℕ} {dirp : Dir} {ddBuf : List ℕ} {s s' : Shell}
  {c : Command} {cs : List Command} {entry : FileEntry}

/-! ### Opening and releasing -/

/-- **A slot that was opened and is released** is as it was. -/
theorem release_opened (hzero : UnusedZero files) (h : Opened files files' i) :
    Function.update files' i FileEntry.zero = files := by
  obtain ⟨hslot, entry, rfl, -, -⟩ := h
  rw [Function.update_idem, ← hzero i (mem_slots_of_freeSlot hslot).2, Function.update_eq_self]

theorem closeReleasing_opened (hzero : UnusedZero files) (h : Opened files files' i) :
    closeReleasing files' i = .ok files := by
  have hslot := (mem_slots_of_freeSlot h.1).1
  rw [closeReleasing, close_slot files' hslot, ok_bind, Int.toNat_natCast, release_opened hzero h]

theorem tarfsCloseReleasing_opened (hzero : UnusedZero files) (h : Opened files files' i) :
    tarfsCloseReleasing files' i = .ok files := by
  have hslot := (mem_slots_of_freeSlot h.1).1
  rw [tarfsCloseReleasing, tarfsClose_slot files' hslot, ok_bind, Int.toNat_natCast,
    release_opened hzero h]

/-- An open slot that was free is a difference. -/
theorem Opened.not_sameOpen (h : Opened files files' i) (hsame : SameOpen start files) {g : FileTable}
    (hfree : (g i).free = (files' i).free) : ¬SameOpen start g := by
  obtain ⟨hslot, hunused⟩ := mem_slots_of_freeSlot h.1
  intro hnew
  have hused : (g i).free ≠ 0 := by
    rw [hfree, h.free_eq, if_pos rfl]
    exact Nat.one_ne_zero
  exact (hsame i hslot).1 ((hnew i hslot).2 hused) hunused

/-- The name that `tarfs_open` stores is a string. -/
theorem isPath_opened (hpath : IsPath path)
    (hopen : tarfsOpen img before fuel files path [114] = .ok (fd, files')) (hfd : 0 ≤ fd) :
    IsPath (files' fd.toNat).name := by
  have hstripped : IsPath (path.dropWhile (· = 47)) := fun c hc => hpath c (stripped_subset hc)
  rw [tarfsOpen] at hopen
  split at hopen
  · cases hopen
  obtain ⟨res, -, hslot⟩ := bind_eq_ok.1 hopen
  cases res with
  | none =>
    cases hslot
    exact absurd hfd (by decide)
  | some x =>
    obtain ⟨type, q⟩ := x
    simp only [openSlot] at hslot
    split at hslot
    · cases hslot
    split at hslot
    case isFalse => cases hslot
    split at hslot
    · cases hslot
      rw [Int.toNat_natCast, Function.update_self]
      show ∀ c ∈ [47], c ≠ 0 ∧ c < 256
      decide
    cases type with
    | dir =>
      cases hslot
      rw [Int.toNat_natCast, Function.update_self]
      exact isPath_slashed hstripped before
    | file =>
      obtain ⟨filesz, -, hslot⟩ := bind_eq_ok.1 hslot
      cases hslot
      rw [Int.toNat_natCast, Function.update_self]
      exact hstripped

/-- `does_file_exist` changes the table only for a file that can be opened. -/
theorem tests_doesFileExist (img : Tarfs) (before fuel : ℕ) (files : FileTable) :
    Tests (doesFileExist img before fuel) (canOpen img before fuel files) files
      fun files' => ∃ i, Opened files files' i := by
  intro p
  rw [canOpen, doesFileExist]
  cases hopen : tarfsOpen img before fuel files p [114] with
  | error e => exact .inl ⟨e, rfl, rfl⟩
  | ok x =>
    obtain ⟨fd, files'⟩ := x
    rcases tarfsOpen_cases hopen with ⟨rfl, rfl⟩ | ⟨i, rfl, hi⟩
    · exact .inr (.inl ⟨rfl, rfl⟩)
    · have hge : decide (0 ≤ (i : ℤ)) = true := decide_eq_true (by omega)
      refine .inr (.inr ⟨files', ?_, ?_, i, hi⟩)
      · simp only [Except.map, hge]
      · simp only [ok_bind, hge]

/-! ### Listing -/

/-- **A directory is listed to its end**, and no slot is released. -/
theorem listLoop_dir (before : ℕ) (hi : i ∈ slots) (h : DirAt img (files i) rest)
    (hstop : img.stop < 2 ^ 64) (hfuel : img.stop < img.start + 512 * fuel) (hdir : dirp.Drained i)
    (hcalls : rest.length < calls) : ∃ files', listLoop img before fuel calls files dirp = .ok files' ∧
      ∀ j, (files' j).free = (files j).free := by
  induction calls generalizing files dirp rest with
  | zero => exact absurd hcalls (Nat.not_lt_zero _)
  | succ calls ih =>
    rcases getdents_dir before hi h hstop hfuel with
      hcall | ⟨type, name, files', post, hcall, hpath, hshort, hrest, hlt⟩
    · obtain ⟨dirp', hread⟩ := readdir_none hdir 0 hcall
      rw [listLoop, hread]
      exact ⟨files, rfl, fun _ => rfl⟩
    · obtain ⟨dirp', hread, -, hdir'⟩ := readdir_entry hdir 0 (fun c hc => (hpath c hc).1) hshort hcall
      obtain ⟨files'', hloop, hfree⟩ := ih hrest hdir' (by omega)
      have hmoved : Moved files files' i := getdents_moved hcall
      rw [listLoop, hread]
      exact ⟨files'', hloop, fun j => (hfree j).trans (hmoved.free_eq j)⟩

/-- The kernel stops at a file. -/
theorem listLoop_file (htype : (files i).type = .file) (hfd : dirp.ddFd = i) (hloc : dirp.ddLoc = 0) :
    listLoop img before fuel (calls + 1) files dirp = .error (.assertFail "getdents") := by
  rw [listLoop, readdir, refill, if_pos hloc, getdents_file htype hfd]
  rfl

/-- The path of `ls` is not opened as a directory: if `list_file` returns, the table is as before. -/
theorem listFileTable_keeps {dirp : Option Dir} {ddBuf : Option (List ℕ)} (hzero : UnusedZero files)
    (hno : dirp ≠ none → ddBuf ≠ none → ¬OpensAsDir img before fuel files path)
    (hlist : listFileTable img before fuel files path dirp ddBuf = .ok files') : files' = files := by
  rw [listFileTable] at hlist
  obtain ⟨⟨fd, opened⟩, hopen, hrest⟩ := bind_eq_ok.1 hlist
  rcases tarfsOpen_cases hopen with ⟨rfl, rfl⟩ | ⟨i, rfl, hi⟩
  · cases hrest
    rfl
  have hne : ¬(i : ℤ) = -1 := by omega
  simp only [if_neg hne] at hrest
  cases dirp with
  | none =>
    rw [closeReleasing_opened hzero hi] at hrest
    cases hrest
    rfl
  | some dirp =>
    cases ddBuf with
    | none =>
      simp only [closeReleasing_opened hzero hi] at hrest
      cases hrest
      rfl
    | some ddBuf =>
      obtain ⟨-, entry, rfl, -, -⟩ := hi
      have hfile : (Function.update files i entry i).type = .file := by
        rw [Function.update_self]
        cases htype : entry.type with
        | file => rfl
        | dir => exact absurd ⟨i, entry, hopen, htype⟩ (hno (Option.some_ne_none _) (Option.some_ne_none _))
      simp only at hrest
      rw [listLoop_file hfile rfl rfl] at hrest
      cases hrest

/-- The path of `ls` is opened as a directory: its slot is used afterwards. -/
theorem listFileTable_breaks (h : img.WellFormed members) (hpath : IsPath path) (hzero : UnusedZero files)
    (hfuel : img.stop < img.start + 512 * fuel) (hsame : SameOpen start files) (dirp : Dir)
    (ddBuf : List ℕ) (hopens : OpensAsDir img before fuel files path) :
    ∃ files', listFileTable img before fuel files path (some dirp) (some ddBuf) = .ok files' ∧
      ¬SameOpen start files' := by
  obtain ⟨i, entry, hopen, htype⟩ := hopens
  obtain ⟨rest, hat⟩ := dirAt_of_open h hpath hzero hfuel hopen htype
  have hne : ¬(i : ℤ) = -1 := by omega
  have hi : Opened files (Function.update files i entry) i := by
    rcases tarfsOpen_cases hopen with ⟨hfd, -⟩ | ⟨j, hj, hi⟩
    · exact absurd hfd hne
    · obtain rfl : i = j := by omega
      exact hi
  have hself : Function.update files i entry i = entry := Function.update_self ..
  have hloop : ∃ files', listLoop img before fuel (fuel + 1) (Function.update files i entry)
        { dirp with ddBuf := ddBuf, ddLen := 512, ddFd := i, ddLoc := 0, ddSeek := 0 } = .ok files' ∧
      ∀ j, (files' j).free = (Function.update files i entry j).free :=
    listLoop_dir before (mem_slots_of_freeSlot hi.1).1 (by rw [hself]; exact hat) h.stop hfuel
      ⟨rfl, rfl, .inl rfl⟩ (hat.length_lt hfuel)
  obtain ⟨files', hloop, hfree⟩ := hloop
  refine ⟨files', ?_, hi.not_sameOpen hsame (hfree i)⟩
  rw [listFileTable, hopen, ok_bind]
  simp only [if_neg hne]
  exact hloop

/-! ### Every command -/

/-- What holds before each command. -/
structure Shell.Sound (start : FileTable) (s : Shell) : Prop where
  unusedZero : UnusedZero s.files
  cwd : IsPath s.cwd
  sameOpen : SameOpen start s.files

theorem isPath_cdPath (hpath : IsPath path) (before : ℕ) : IsPath (cdPath before path) := by
  rw [cdPath]
  split
  · exact hpath
  · exact isPath_append hpath (by unfold IsPath; decide)

/-- The paths of a command are strings. -/
theorem Command.isPath_act {a : ShellAct} (hstr : c.Strings) (hcwd : IsPath s.cwd)
    (hact : c.act s.cwd = .ok a) (hpath : a = .ls path ∨ a = .cd path) : IsPath path := by
  obtain ⟨hgarbage, hrest⟩ := List.forall_mem_cons.1 hstr
  obtain ⟨hargs, henvp⟩ := List.forall_mem_append.1 hrest
  rw [act] at hact
  cases hlist : c.argList with
  | nil =>
    rw [hlist] at hact
    cases hact
    rcases hpath with hpath | hpath <;> cases hpath
  | cons cmd args =>
    rw [hlist] at hact hargs
    simp only at hact
    split at hact
    case isFalse =>
      repeat' split at hact
      all_goals
        cases hact
        rcases hpath with hpath | hpath <;> cases hpath
    cases args with
    | nil =>
      cases hact
      split at hpath
      · rcases hpath with hpath | hpath
        · cases hpath
        · cases hpath
          cases hhome : getVar c.envp [72, 79, 77, 69] with
          | none => exact hgarbage
          | some home => exact isPath_getVar henvp hhome
      · rcases hpath with hpath | hpath
        · cases hpath
          exact hcwd
        · cases hpath
    | cons arg args =>
      cases args with
      | nil =>
        obtain ⟨fullpath, hfull, hres⟩ := bind_eq_ok.1 hact
        have hfullpath : IsPath fullpath :=
          isPath_getFullpath hgarbage hcwd henvp (hargs arg (by simp)) hfull
        cases hres
        split at hpath
        · rcases hpath with hpath | hpath
          · cases hpath
          · cases hpath
            exact isPath_cdPath hfullpath c.before
        · rcases hpath with hpath | hpath
          · cases hpath
            exact hfullpath
          · cases hpath
      | cons arg' args =>
        cases hact
        rcases hpath with hpath | hpath <;> cases hpath

/-- **`cd` leaves the table as it is.** -/
theorem Shell.Sound.chdir_keeps (hs : s.Sound start) (hpath : IsPath path)
    (hcall : s.chdir img before fuel path = .ok s') : s'.Sound start := by
  rw [Shell.chdir] at hcall
  split at hcall
  · cases hcall
  obtain ⟨⟨fd, opened⟩, hopen, hcall⟩ := bind_eq_ok.1 hcall
  simp only at hcall
  rcases tarfsOpen_cases hopen with ⟨rfl, rfl⟩ | ⟨i, rfl, hi⟩
  · cases hcall
    exact hs
  · have hrange : 3 ≤ i ∧ i < 20 := mem_slots.1 (mem_slots_of_freeSlot hi.1).1
    have hpath' : IsPath (dotDot path) := by
      rcases dotDot_cases path with heq | hpre
      · rw [heq]
        unfold IsPath
        decide
      · exact fun c hc => hpath c (hpre.subset hc)
    rw [if_pos (by omega), tarfsCloseReleasing_opened hs.unusedZero hi] at hcall
    cases hcall
    exact ⟨hs.unusedZero, isPath_opened hpath' hopen (by omega), hs.sameOpen⟩

/-- What the search for a program does to the table. -/
theorem Command.locate_follows (img : Tarfs) (fuel : ℕ) (c : Command) (files : FileTable)
    (filename : List ℕ) : Follows files (fun files' => ∃ i, Opened files files' i)
      ((locateExecutableFile (pureTest (canOpen img c.before fuel files)) c.before filename c.shVarList
        ()).map Prod.fst)
      (locateExecutableFile (doesFileExist img c.before fuel) c.before filename c.shVarList files) :=
  locate_stateful (tests_doesFileExist img c.before fuel files) c.shVarList

/-- **A command that finds no program and lists no directory** leaves the same descriptors open. -/
theorem Shell.Sound.execute_keeps (hs : s.Sound start) (hstr : c.Strings) (hkeeps : c.Keeps img fuel s)
    (hcall : s.execute img fuel c = .ok s') : s'.Sound start := by
  rw [Shell.execute] at hcall
  obtain ⟨act, hact, hrest⟩ := bind_eq_ok.1 hcall
  cases act with
  | nothing =>
    cases hrest
    exact hs
  | cd path => exact hs.chdir_keeps (c.isPath_act hstr hs.cwd hact (.inr rfl)) hrest
  | ls path =>
    obtain ⟨files, hlist, hset⟩ := bind_eq_ok.1 hrest
    obtain rfl := listFileTable_keeps hs.unusedZero (hkeeps.1 path hact) hlist
    cases hset
    exact hs
  | exit => cases hrest
  | start filename =>
    obtain ⟨⟨p, files⟩, hfind, hset⟩ := bind_eq_ok.1 hrest
    have hfollows := c.locate_follows img fuel s.files filename
    have hno := hkeeps.2 filename hact
    rw [hfind] at hfollows
    generalize (locateExecutableFile (pureTest (canOpen img c.before fuel s.files)) c.before filename
      c.shVarList ()).map Prod.fst = found at hfollows hno
    cases hfollows with
    | none =>
      cases hset
      exact hs
    | some p s' hfound => exact absurd rfl (hno p)

/-- A command that finds a program or lists a directory leaves a descriptor open. -/
theorem Shell.execute_breaks (h : img.WellFormed members) (hfuel : img.stop < img.start + 512 * fuel)
    (hs : s.Sound start) (hstr : c.Strings) (hno : ¬c.Keeps img fuel s) :
    ∃ s', s.execute img fuel c = .ok s' ∧ ¬SameOpen start s'.files := by
  rw [Command.Keeps, not_and_or] at hno
  rcases hno with hno | hno
  · simp only [not_forall, not_not] at hno
    obtain ⟨path, hact, hdirp, hbuf, hopens⟩ := hno
    obtain ⟨dirp, hdirp⟩ := Option.ne_none_iff_exists'.1 hdirp
    obtain ⟨ddBuf, hbuf⟩ := Option.ne_none_iff_exists'.1 hbuf
    have hpath := c.isPath_act hstr hs.cwd hact (.inl rfl)
    obtain ⟨files', hlist, hdiff⟩ :=
      listFileTable_breaks h hpath hs.unusedZero hfuel hs.sameOpen dirp ddBuf hopens
    refine ⟨{ s with files := files' }, ?_, hdiff⟩
    rw [execute, hact, ok_bind]
    simp only [hdirp, hbuf, hlist, ok_bind]
  · simp only [not_forall, not_not] at hno
    obtain ⟨filename, hact, p, hfind⟩ := hno
    have hfollows := c.locate_follows img fuel s.files filename
    rw [hfind] at hfollows
    generalize hstate : locateExecutableFile (doesFileExist img c.before fuel) c.before filename
      c.shVarList s.files = found at hfollows
    cases hfollows with
    | some p files' hfound =>
      obtain ⟨i, hi⟩ := hfound
      refine ⟨{ s with files := files' }, ?_, hi.not_sameOpen hs.sameOpen rfl⟩
      rw [execute, hact, ok_bind]
      simp only [hstate, ok_bind]

/-- **The shell keeps its descriptors balanced exactly as long as** its commands find no program and list no
directory. -/
theorem balanced_iff {fuel' : ℕ} (h : img.WellFormed members) (hfuel : img.stop < img.start + 512 * fuel)
    (hfiles : Reachable img fuel' s.files) (hcwd : IsPath s.cwd)
    (hstr : Along (Shell.execute img fuel) (fun _ c => c.Strings) s cs) :
    Always (Shell.execute img fuel) (fun t => SameOpen s.files t.files) s cs ↔
      Along (Shell.execute img fuel) (fun t c => c.Keeps img fuel t) s cs := by
  refine always_iff_along (I := Shell.Sound s.files) ⟨hfiles.unusedZero, hcwd, fun _ _ => Iff.rfl⟩
    (fun t ht => ht.sameOpen) ?_ ?_ hstr
  · exact fun t c t' ht hc hkeeps hcall => ht.execute_keeps hc hkeeps hcall
  · exact fun t c ht hc hno => Shell.execute_breaks h hfuel ht hc hno

end Balance

/-- The shell in the root directory, before it has opened anything. -/
def freshShell : Shell := { files := fun _ => FileEntry.zero, cwd := [47] }

/-- A command without variables, with room for a directory. -/
def plainCommand (argList : List (List ℕ)) : Command where
  argList := argList
  shVarList := []
  envp := []
  before := 0
  garbage := []
  dirp := some ⟨0, 0, 0, [], 0, 0⟩
  ddBuf := some (List.replicate 512 0)

/-- `cd bin`, and then a program `x` that does not exist. -/
def balancedSession : List Command := [plainCommand [[99, 100], [98, 105, 110]], plainCommand [[120]]]

theorem strings_plainCommand {argList : List (List ℕ)} (h : ∀ str ∈ argList, IsPath str) :
    (plainCommand argList).Strings := by
  intro str hstr
  rcases List.mem_cons.1 hstr with rfl | hstr
  · exact fun c hc => nomatch hc
  · rcases List.mem_append.1 hstr with hstr | hstr
    · exact h str hstr
    · exact nomatch hstr

theorem balanced_iff_session :
    Always (Shell.execute sampleTarfs (sampleTarfs.stop + 1)) (fun t => SameOpen freshShell.files t.files)
        freshShell balancedSession ↔
      Along (Shell.execute sampleTarfs (sampleTarfs.stop + 1))
        (fun t c => c.Keeps sampleTarfs (sampleTarfs.stop + 1) t) freshShell balancedSession := by
  have hfiles : Reachable sampleTarfs 0 freshShell.files := .zero
  refine balanced_iff wellFormed_sampleTarfs (by omega) hfiles
    (show ∀ c ∈ [47], c ≠ 0 ∧ c < 256 by decide)
    ⟨strings_plainCommand ?_, fun _ _ => ⟨strings_plainCommand ?_, fun _ _ => trivial⟩⟩
  all_goals
    unfold IsPath
    decide

/-- `ls` in the root directory leaves a descriptor open. -/
theorem balanced_fails : ¬∀ (img : Tarfs) (members : List Member) (fuel fuel' : ℕ) (s : Shell)
    (cs : List Command), img.WellFormed members → img.stop < img.start + 512 * fuel →
      Reachable img fuel' s.files → IsPath s.cwd →
      Along (Shell.execute img fuel) (fun _ c => c.Strings) s cs →
      Always (Shell.execute img fuel) (fun t => SameOpen s.files t.files) s cs := by
  intro hall
  have hfuel : sampleTarfs.stop < sampleTarfs.start + 512 * (sampleTarfs.stop + 1) := by omega
  have hroot : IsPath [47] := show ∀ c ∈ [47], c ≠ 0 ∧ c < 256 by decide
  have hstr : (plainCommand [[108, 115]]).Strings :=
    strings_plainCommand (by unfold IsPath; decide)
  have hfiles : Reachable sampleTarfs 0 freshShell.files := .zero
  have halways := hall sampleTarfs sampleMembers _ 0 freshShell [plainCommand [[108, 115]]]
    wellFormed_sampleTarfs hfuel hfiles hroot ⟨hstr, fun _ _ => trivial⟩
  have hslot : freshShell.files.freeSlot = some 3 := by decide
  have hno : ¬(plainCommand [[108, 115]]).Keeps sampleTarfs (sampleTarfs.stop + 1) freshShell := by
    intro hkeeps
    exact hkeeps.1 [47] rfl (Option.some_ne_none _) (Option.some_ne_none _)
      ⟨3, (freshShell.files 3).openRoot sampleTarfs [114],
        tarfsOpen_root hroot (by decide) (by decide) hslot, rfl⟩
  have hsound : Shell.Sound freshShell.files freshShell :=
    ⟨hfiles.unusedZero, hroot, fun _ _ => Iff.rfl⟩
  obtain ⟨s', hcall, hdiff⟩ := Shell.execute_breaks wellFormed_sampleTarfs hfuel hsound hstr hno
  exact hdiff (halways.2 s' hcall).head

end PlumOs
