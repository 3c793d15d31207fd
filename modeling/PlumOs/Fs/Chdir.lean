import PlumOs.Fs.Tools
import PlumOs.Proc.ExecArgs

/-!
# The working directory (`sys/syscall.c`, `sys/process.c`)

`chdir` rewrites a path that ends in `/..`, opens what it names and takes the name that `tarfs_open` has
stored.  It does not look whether that is a directory.  `exec` asserts that its strings fit into a page,
and copies the first of them to the field `name` of the task; the field `cwd` is right behind it.

* `dotDot`, `chdir`, `forkCwd`, `execCwd` : the functions of the source, with what they do to the working
  directory;
* `CwdAct`, `CwdAct.step` : the calls of the processes;
* `chdir_spec` : what `chdir` does, by the name of what is opened;
* `workDirs_iff` : **the working directories are directories exactly as long as** no process goes to a
  file, and no first argument is so long that another name than that of a directory is behind `name`;
* `workDirs_fails` : a process goes to `bin/ls`.
-/

namespace PlumOs

/-! ### `chdir` -/

/-- `while(cwd[len] == '/') len--`.  There is no value if `len` is negative in the end: then the loop has
read in front of the buffer, and the path is the root's whatever is there. -/
def skipSlashes (cwd : List ℕ) : ℕ → Option ℕ
  | 0 => if cwd.getD 0 0 = 47 then none else some 0
  | len + 1 => if cwd.getD (len + 1) 0 = 47 then skipSlashes cwd len else some (len + 1)

/-- `while(len >= 0 && cwd[len] != '/') len--`, without a value if `len` is negative. -/
def lastSlash (cwd : List ℕ) : ℕ → Option ℕ
  | 0 => if cwd.getD 0 0 = 47 then some 0 else none
  | len + 1 => if cwd.getD (len + 1) 0 = 47 then some (len + 1) else lastSlash cwd len

/-- The part of `chdir` for a path that ends in `/..`. -/
def dotDot (cwd : List ℕ) : List ℕ :=
  let len := cwd.length
  if 3 ≤ len ∧ cwd.getD (len - 1) 0 = 46 ∧ cwd.getD (len - 2) 0 = 46 ∧ cwd.getD (len - 3) 0 = 47 then
    match (skipSlashes cwd (len - 3)).bind (lastSlash cwd) with
    | some len => cwd.take (len + 1)
    | none => [47]
  else cwd

/-- A process, with its table and its working directory: the characters up to the first 0 of the field
`cwd`, or all of them. -/
structure CwdTask where
  files : FileTable
  cwd : List ℕ

/-- `chdir`: the result, and the process afterwards. -/
def chdir (img : Tarfs) (before fuel : ℕ) (t : CwdTask) (path : List ℕ) :
    Except FsStop (ℤ × CwdTask) := do
  let (fd, files) ← tarfsOpen img before fuel t.files (dotDot path) [114]
  if 0 < fd then
    let name := (files fd.toNat).name
    let files ← tarfsClose files fd
    .ok (0, { files := files, cwd := name })
  else .ok (-1, { t with files := files })

/-! ### The other calls -/

/-- The child of a process.  A name that is not ended in its field is not a string. -/
def forkCwd (t : CwdTask) : Except FsStop CwdTask :=
  if t.cwd.length < nameSize then .ok { files := copyFileArray t.files, cwd := t.cwd }
  else .error .overrun

/-- The field `cwd` after a string is copied to the field `name` in front of it. -/
def spill (cwd argv0 : List ℕ) : List ℕ :=
  if argv0.length < nameSize then cwd else (argv0.drop nameSize).take nameSize

/-- The strings that `exec` gets: the arguments and the environment of the program. -/
structure ExecStrings where
  argv : List (List ℕ)
  envp : List (List ℕ)
  deriving DecidableEq, Repr

namespace ExecStrings

/-- `assert(parameter_size + 0x100 < PG_SIZE)`, with the sizes as `exec` computes them. -/
def Asserted (x : ExecStrings) : Prop := (Args.intSizes x.argv x.envp).Ok

instance (x : ExecStrings) : Decidable x.Asserted := inferInstanceAs (Decidable (Args.Sizes.Ok _))

/-- The working directory when `argv[0]` has been copied to `name`; a null pointer is not copied. -/
def cwdAfter (x : ExecStrings) (cwd : List ℕ) : List ℕ := x.argv.head?.elim cwd (spill cwd)

end ExecStrings

/-- `exec`.  There are no strings if the file is a script: then `exec` calls itself for the interpreter,
before it comes to its arguments. -/
def execCwd (img : Tarfs) (before fuel : ℕ) (t : CwdTask) (filename : List ℕ) (strings : Option ExecStrings) :
    Except FsStop CwdTask := do
  let (fd, files) ← tarfsOpen img before fuel t.files filename [114]
  if fd < startFd then .error .exitSt
  else
    match strings with
    | none => .ok { files := files, cwd := t.cwd }
    | some x =>
      if x.Asserted then .ok { files := files, cwd := x.cwdAfter t.cwd }
      else .error (.assertFail "exec")

/-- A call that ends the process is no reason to stop. -/
def orExit (r : Except FsStop CwdTask) : Except FsStop (Option CwdTask) :=
  match r with
  | .ok t => .ok (some t)
  | .error .exitSt => .ok none
  | .error e => .error e

/-- A call of the process with this number. -/
inductive CwdAct where
  | chdir (i before : ℕ) (path : List ℕ)
  | fork (i : ℕ)
  | exec (i before : ℕ) (filename : List ℕ) (strings : Option ExecStrings)
  deriving DecidableEq, Repr

/-- The processes.  Those that have ended are gone. -/
abbrev CwdTasks : Type := List (Option CwdTask)

/-- The process with this number, if it is there. -/
def CwdTasks.task (s : CwdTasks) (i : ℕ) : Option CwdTask := (s[i]?).join

namespace CwdAct

/-- One call.  Nothing happens without the process. -/
def step (img : Tarfs) (fuel : ℕ) (s : CwdTasks) : CwdAct → Except FsStop CwdTasks
  | chdir i before path =>
    match s.task i with
    | some t => do
      let t ← orExit ((PlumOs.chdir img before fuel t path).map Prod.snd)
      .ok (s.set i t)
    | none => .ok s
  | fork i =>
    match s.task i with
    | some t => do
      let child ← forkCwd t
      .ok (s ++ [some child])
    | none => .ok s
  | exec i before filename strings =>
    match s.task i with
    | some t => do
      let t ← orExit (execCwd img before fuel t filename strings)
      .ok (s.set i t)
    | none => .ok s

end CwdAct

/-- The first process. -/
def firstTask : CwdTasks := [some { files := fun _ => FileEntry.zero, cwd := [47] }]

/-! ### Working directories -/

/-- The root, or the name of a directory of the archive that fits into its field. -/
def IsDir (members : List Member) (d : List ℕ) : Prop :=
  (d = [47] ∨ .dir d ∈ members) ∧ d.length < nameSize

instance (members : List Member) : DecidablePred (IsDir members) := fun d =>
  inferInstanceAs (Decidable ((d = [47] ∨ .dir d ∈ members) ∧ d.length < nameSize))

/-- Every process is in a directory. -/
def AllDirs (members : List Member) (s : CwdTasks) : Prop :=
  ∀ t : CwdTask, some t ∈ s → IsDir members t.cwd

/-- The name that `tarfs_open` stores for a path, if it opens something. -/
def openedName (members : List Member) (path : List ℕ) : Option (List ℕ) :=
  if IsRoot path then some [47]
  else if stripped path = [] then some []
  else (members.find? fun m => m.Named (stripped path)).map Member.name

namespace CwdAct

/-- The paths that `chdir` gets. -/
def Short : CwdAct → Prop
  | chdir _ _ path => IsPath path ∧ path.length < 63
  | _ => True

/-- `chdir` goes to a directory, or does not get a slot to open anything.  If `exec` opens its file and its
strings pass the assertion, then the first of them fits into its field, or is followed by the name of a
directory there. -/
def Keeps (img : Tarfs) (members : List Member) (fuel : ℕ) (s : CwdTasks) : CwdAct → Prop
  | chdir i _ path => ∀ t ∈ s.task i, t.files.freeSlot = none ∨
      ∀ name ∈ openedName members (dotDot path), IsDir members name
  | fork _ => True
  | exec i before filename strings => ∀ t ∈ s.task i,
      (∃ fd files, tarfsOpen img before fuel t.files filename [114] = .ok (fd, files) ∧
        (startFd : ℤ) ≤ fd) →
      ∀ x ∈ strings, x.Asserted →
        ∀ a ∈ x.argv.head?, a.length < nameSize ∨ IsDir members ((a.drop nameSize).take nameSize)

end CwdAct

section Chdir

variable {img : Tarfs} {members : List Member} {before fuel i : ℕ} {files : FileTable}
  {path name cwd : List ℕ} {t t' : CwdTask} {s s' : CwdTasks} {a : CwdAct} {as : List CwdAct}

/-! ### `chdir` -/

/-- The rewriting cuts the path, or the root is left. -/
theorem dotDot_cases (path : List ℕ) : dotDot path = [47] ∨ dotDot path <+: path := by
  rw [dotDot]
  split
  · split
    · exact .inr (List.take_prefix ..)
    · exact .inl rfl
  · exact .inr (List.prefix_refl _)

theorem isPath_dotDot (hpath : IsPath path) (hlen : path.length < 63) :
    IsPath (dotDot path) ∧ (dotDot path).length < 63 := by
  rcases dotDot_cases path with heq | hpre
  · rw [heq]
    exact ⟨by unfold IsPath; decide, by decide⟩
  · exact ⟨fun c hc => hpath c (hpre.subset hc), Nat.lt_of_le_of_lt hpre.length_le hlen⟩

/-- What has no name is not opened. -/
theorem openedName_eq_none : openedName members path = none ↔ kindOf members path = none := by
  rw [openedName, kindOf]
  split
  · simp
  split
  · simp
  · rw [Option.map_eq_none_iff, Option.map_eq_none_iff]

namespace Tarfs.WellFormed

variable (h : img.WellFormed members) (hpath : IsPath path) (hlen : path.length < 63)
  (hfuel : img.stop < img.start + 512 * fuel)

include h hpath hlen hfuel

/-- What is opened has its name in the slot. -/
theorem open_name (before : ℕ) (hname : openedName members path = some name) (hslot : files.freeSlot = some i) :
    ∃ entry : FileEntry, entry.name = name ∧
      tarfsOpen img before fuel files path [114] = .ok (i, Function.update files i entry) := by
  rw [openedName] at hname
  split at hname
  · rename_i hroot
    cases hname
    exact ⟨_, rfl, tarfsOpen_root hpath hroot (by decide) hslot⟩
  rename_i hroot
  split at hname
  · rename_i hnil
    cases hname
    exact ⟨_, rfl, h.tarfsOpen_slashes hpath hlen hroot hfuel (by decide) hslot hnil⟩
  · obtain ⟨m, hfind, rfl⟩ := Option.map_eq_some_iff.1 hname
    obtain ⟨pre, post, -, hlookup⟩ := lookup_of_find img.start hfind
    refine ⟨_, ?_, h.tarfsOpen_member hpath hlen hroot hfuel (by decide) hslot hlookup⟩
    cases m <;> rfl

end Tarfs.WellFormed

/-- **What `chdir` does**, by the name of what is opened: nothing, or it ends the process, or the name is
the new working directory. -/
theorem chdir_spec (h : img.WellFormed members) (hpath : IsPath path) (hlen : path.length < 63)
    (hfuel : img.stop < img.start + 512 * fuel) (t : CwdTask) (before : ℕ) :
    (openedName members (dotDot path) = none ∧ chdir img before fuel t path = .ok (-1, t)) ∨
    (t.files.freeSlot = none ∧ chdir img before fuel t path = .error .exitSt) ∨
    ∃ name files, openedName members (dotDot path) = some name ∧ t.files.freeSlot ≠ none ∧
      chdir img before fuel t path = .ok (0, ⟨files, name⟩) := by
  obtain ⟨hpath', hlen'⟩ := isPath_dotDot hpath hlen
  cases hname : openedName members (dotDot path) with
  | none =>
    refine .inl ⟨rfl, ?_⟩
    rw [chdir, h.open_nothing hpath' hlen' hfuel (openedName_eq_none.1 hname)]
    rfl
  | some name =>
    cases hslot : t.files.freeSlot with
    | none =>
      have hkind : kindOf members (dotDot path) ≠ none :=
        mt openedName_eq_none.2 (by rw [hname]; exact Option.some_ne_none name)
      refine .inr (.inl ⟨rfl, ?_⟩)
      rw [chdir, h.open_full hpath' hlen' hfuel hslot hkind]
      rfl
    | some i =>
      obtain ⟨entry, hentry, hopen⟩ := h.open_name hpath' hlen' hfuel before hname hslot
      have hin := (mem_slots_of_freeSlot hslot).1
      have hrange : 3 ≤ i ∧ i < 20 := mem_slots.1 hin
      have hpos : 0 < (i : ℤ) := by omega
      refine .inr (.inr ⟨name, Function.update t.files i entry, rfl, Option.some_ne_none i, ?_⟩)
      rw [chdir, hopen]
      simp only [ok_bind, if_pos hpos, tarfsClose_slot _ hin, Int.toNat_natCast, Function.update_self,
        hentry]

/-- **A call of `chdir` that returns -1** leaves the working directory as it is. -/
theorem chdir_error (hcall : chdir img before fuel t path = .ok (-1, t')) : t'.cwd = t.cwd := by
  rw [chdir] at hcall
  obtain ⟨⟨fd, files⟩, -, hcall⟩ := bind_eq_ok.1 hcall
  simp only at hcall
  split at hcall
  · obtain ⟨files', -, hres⟩ := bind_eq_ok.1 hcall
    cases hres
  · cases hcall
    rfl

/-! ### Every call -/

theorem AllDirs.set (hs : AllDirs members s) {t : Option CwdTask}
    (ht : ∀ u ∈ t, IsDir members u.cwd) : AllDirs members (s.set i t) := by
  intro u hu
  rcases List.mem_or_eq_of_mem_set hu with hu | hu
  · exact hs u hu
  · exact ht u hu.symm

theorem CwdTasks.mem_of_task (ht : s.task i = some t) : some t ∈ s := by
  rw [task, Option.join_eq_some_iff] at ht
  exact List.mem_of_getElem? ht

/-- A process that is there is not where the new one is put. -/
theorem CwdTasks.mem_set (ht : s.task i = some t) (u : CwdTask) : some u ∈ s.set i (some u) := by
  rw [task, Option.join_eq_some_iff] at ht
  obtain ⟨hi, -⟩ := List.getElem?_eq_some_iff.1 ht
  exact List.mem_set hi (some u)

/-- What `exec` leaves in the field `cwd`. -/
theorem isDir_spill_iff {argv0 : List ℕ} (hcwd : IsDir members cwd) : IsDir members (spill cwd argv0) ↔
    argv0.length < nameSize ∨ IsDir members ((argv0.drop nameSize).take nameSize) := by
  rw [spill]
  split
  · rename_i hshort
    exact iff_of_true hcwd (.inl hshort)
  · rename_i hlong
    exact ⟨.inr, fun h => h.resolve_left hlong⟩

/-- What `exec` leaves in the field `cwd`, by its strings. -/
theorem isDir_cwdAfter_iff {x : ExecStrings} (hcwd : IsDir members cwd) : IsDir members (x.cwdAfter cwd) ↔
    ∀ a ∈ x.argv.head?, a.length < nameSize ∨ IsDir members ((a.drop nameSize).take nameSize) := by
  rw [ExecStrings.cwdAfter]
  cases x.argv.head? with
  | none => exact iff_of_true hcwd fun a ha => absurd ha (Option.not_mem_none a)
  | some a => exact (isDir_spill_iff hcwd).trans (by simp)

/-- What `exec` does for a process: it ends or stops, without a change of the working directory, or it
goes on with its strings, or for an interpreter. -/
inductive ExecResult (img : Tarfs) (before fuel : ℕ) (t : CwdTask) (filename : List ℕ)
    (strings : Option ExecStrings) (r : Except FsStop CwdTask) : Prop where
  | notOpened (e : FsStop) (hr : r = .error e)
      (hopen : ¬∃ fd files, tarfsOpen img before fuel t.files filename [114] = .ok (fd, files) ∧
        (startFd : ℤ) ≤ fd)
  | script (files : FileTable) (hstrings : strings = none) (hr : r = .ok { files := files, cwd := t.cwd })
  | stopped (x : ExecStrings) (e : FsStop) (hstrings : strings = some x) (hassert : ¬x.Asserted)
      (hr : r = .error e)
  | copied (x : ExecStrings) (files : FileTable) (hstrings : strings = some x) (hassert : x.Asserted)
      (hopen : ∃ fd files, tarfsOpen img before fuel t.files filename [114] = .ok (fd, files) ∧
        (startFd : ℤ) ≤ fd)
      (hr : r = .ok { files := files, cwd := x.cwdAfter t.cwd })

theorem execCwd_cases (img : Tarfs) (before fuel : ℕ) (t : CwdTask) (filename : List ℕ)
    (strings : Option ExecStrings) :
    ExecResult img before fuel t filename strings (execCwd img before fuel t filename strings) := by
  rw [execCwd]
  cases hopen : tarfsOpen img before fuel t.files filename [114] with
  | error e =>
    refine .notOpened e rfl ?_
    rintro ⟨fd, files, hcase, -⟩
    rw [hopen] at hcase
    cases hcase
  | ok r =>
    obtain ⟨fd, files⟩ := r
    rw [ok_bind]
    by_cases hfd : fd < (startFd : ℤ)
    · refine .notOpened .exitSt (if_pos hfd) ?_
      rintro ⟨fd', files', hcase, hge⟩
      rw [hopen] at hcase
      cases hcase
      exact absurd hfd (not_lt.2 hge)
    · simp only [if_neg hfd]
      cases strings with
      | none => exact .script files rfl rfl
      | some x =>
        by_cases hassert : x.Asserted
        · exact .copied x files rfl hassert ⟨fd, files, hopen, not_lt.1 hfd⟩ (if_pos hassert)
        · exact .stopped x _ rfl hassert (if_neg hassert)

/-- A process that ends does not stop the others. -/
theorem orExit_error {e : FsStop} {r : Option CwdTask} (h : orExit (.error e) = .ok r) : r = none := by
  cases e with
  | exitSt =>
    cases h
    rfl
  | loop => cases h
  | overrun => cases h
  | assertFail func => cases h

namespace CwdAct

variable (h : img.WellFormed members) (hfuel : img.stop < img.start + 512 * fuel)

include h hfuel

/-- **One call keeps the working directories.** -/
theorem step_keeps (hs : AllDirs members s) (hshort : a.Short) (hkeeps : a.Keeps img members fuel s)
    (hstep : step img fuel s a = .ok s') : AllDirs members s' := by
  cases a with
  | chdir i before path =>
    cases ht : s.task i with
    | none =>
      simp only [step, ht] at hstep
      cases hstep
      exact hs
    | some t =>
      have hold : IsDir members t.cwd := hs t (CwdTasks.mem_of_task ht)
      simp only [step, ht] at hstep
      rcases chdir_spec h hshort.1 hshort.2 hfuel t before with
        ⟨-, hcall⟩ | ⟨-, hcall⟩ | ⟨name, files, hname, hslot, hcall⟩
      · rw [hcall] at hstep
        cases hstep
        exact hs.set fun u hu => by cases hu; exact hold
      · rw [hcall] at hstep
        cases hstep
        exact hs.set fun u hu => nomatch hu
      · rw [hcall] at hstep
        cases hstep
        have hdir := (hkeeps t ht).resolve_left hslot name hname
        exact hs.set fun u hu => by cases hu; exact hdir
  | fork i =>
    cases ht : s.task i with
    | none =>
      simp only [step, ht] at hstep
      cases hstep
      exact hs
    | some t =>
      have hold : IsDir members t.cwd := hs t (CwdTasks.mem_of_task ht)
      simp only [step, ht, forkCwd, if_pos hold.2] at hstep
      cases hstep
      intro u hu
      rcases List.mem_append.1 hu with hu | hu
      · exact hs u hu
      · obtain rfl : u = _ := Option.some.inj (List.mem_singleton.1 hu)
        exact hold
  | exec i before filename strings =>
    cases ht : s.task i with
    | none =>
      simp only [step, ht] at hstep
      cases hstep
      exact hs
    | some t =>
      have hold : IsDir members t.cwd := hs t (CwdTasks.mem_of_task ht)
      simp only [step, ht] at hstep
      obtain ⟨r, hr, hset⟩ := bind_eq_ok.1 hstep
      cases hset
      have hend : ∀ e, execCwd img before fuel t filename strings = .error e →
          AllDirs members (s.set i r) := by
        intro e hcall
        rw [hcall] at hr
        obtain rfl := orExit_error hr
        refine hs.set fun u hu => ?_
        cases hu
      cases execCwd_cases img before fuel t filename strings with
      | notOpened e hcall _ => exact hend e hcall
      | stopped x e _ _ hcall => exact hend e hcall
      | script files _ hcall =>
        rw [hcall] at hr
        cases hr
        refine hs.set fun u hu => ?_
        cases hu
        exact hold
      | copied x files hstrings hassert hopens hcall =>
        rw [hcall] at hr
        cases hr
        refine hs.set fun u hu => ?_
        cases hu
        exact (isDir_cwdAfter_iff hold).2 (hkeeps t ht hopens x hstrings hassert)

/-- A call that does not meet the condition leaves a process in no directory. -/
theorem step_breaks (hs : AllDirs members s) (hshort : a.Short) (hno : ¬a.Keeps img members fuel s) :
    ∃ s', step img fuel s a = .ok s' ∧ ¬AllDirs members s' := by
  cases a with
  | chdir i before path =>
    simp only [Keeps, not_forall, not_or] at hno
    obtain ⟨t, ht, hslot, name, hname, hdir⟩ := hno
    rcases chdir_spec h hshort.1 hshort.2 hfuel t before with
      ⟨hnone, -⟩ | ⟨hnone, -⟩ | ⟨name', files, hname', -, hcall⟩
    · rw [hnone] at hname
      cases hname
    · exact absurd hnone hslot
    · obtain rfl : name' = name := Option.some.inj (hname'.symm.trans hname)
      refine ⟨s.set i (some ⟨files, name'⟩), ?_, fun hall => ?_⟩
      · simp only [step, show s.task i = some t from ht, hcall]
        rfl
      · exact hdir (hall _ (CwdTasks.mem_set ht _))
  | fork i => exact absurd trivial hno
  | exec i before filename strings =>
    simp only [Keeps, not_forall] at hno
    obtain ⟨t, ht, hopens, x, hx, hassert, a, ha, hlong⟩ := hno
    have hold : IsDir members t.cwd := hs t (CwdTasks.mem_of_task ht)
    cases execCwd_cases img before fuel t filename strings with
    | notOpened e _ hnone => exact absurd hopens hnone
    | script files hnone _ =>
      rw [hnone] at hx
      cases hx
    | stopped y e hy hfail _ =>
      obtain rfl : x = y := Option.some.inj (hx.symm.trans hy)
      exact absurd hassert hfail
    | copied y files hy _ _ hcall =>
      obtain rfl : x = y := Option.some.inj (hx.symm.trans hy)
      refine ⟨s.set i (some ⟨files, x.cwdAfter t.cwd⟩), ?_, fun hall => ?_⟩
      · simp only [step, show s.task i = some t from ht, hcall]
        rfl
      · exact hlong ((isDir_cwdAfter_iff hold).1 (hall _ (CwdTasks.mem_set ht _)) a ha)

end CwdAct

/-- The first process is in the root directory. -/
theorem allDirs_firstTask : AllDirs members firstTask := by
  intro t ht
  obtain rfl : t = _ := Option.some.inj (List.mem_singleton.1 ht)
  exact ⟨.inl rfl, (by decide : 1 < 64)⟩

/-- **The working directories are directories exactly as long as** the calls meet the condition, and a call
of `chdir` that returns -1 leaves the working directory as it is. -/
theorem workDirs_iff (h : img.WellFormed members) (hfuel : img.stop < img.start + 512 * fuel)
    (hshort : Along (CwdAct.step img fuel) (fun _ a => a.Short) firstTask as) :
    (Always (CwdAct.step img fuel) (AllDirs members) firstTask as ↔
      Along (CwdAct.step img fuel) (CwdAct.Keeps img members fuel) firstTask as) ∧
    ∀ before t path t', chdir img before fuel t path = .ok (-1, t') → t'.cwd = t.cwd := by
  refine ⟨always_iff_along allDirs_firstTask (fun _ hs => hs) ?_ ?_ hshort,
    fun before t path t' hcall => chdir_error hcall⟩
  · exact fun s a s' hs ha hkeeps hstep => CwdAct.step_keeps h hfuel hs ha hkeeps hstep
  · exact fun s a hs ha hno => CwdAct.step_breaks h hfuel hs ha hno

end Chdir

/-- A process goes to `bin`, and its child back to the root. -/
def binCalls : List CwdAct :=
  [.chdir 0 0 [98, 105, 110], .fork 0, .chdir 1 0 [98, 105, 110, 47, 46, 46]]

/-- A process goes to `bin/ls`. -/
def lsCalls : List CwdAct := [.chdir 0 0 [98, 105, 110, 47, 108, 115]]

theorem workDirs_iff_bin :
    (Always (CwdAct.step sampleTarfs (sampleTarfs.stop + 1)) (AllDirs sampleMembers) firstTask binCalls ↔
      Along (CwdAct.step sampleTarfs (sampleTarfs.stop + 1))
        (CwdAct.Keeps sampleTarfs sampleMembers (sampleTarfs.stop + 1)) firstTask binCalls) ∧
    ∀ before t path t', chdir sampleTarfs before (sampleTarfs.stop + 1) t path = .ok (-1, t') →
      t'.cwd = t.cwd := by
  refine workDirs_iff wellFormed_sampleTarfs (by omega) ⟨?_, fun _ _ => ⟨trivial, fun _ _ => ⟨?_, ?_⟩⟩⟩
  · exact ⟨by unfold IsPath; decide, by decide⟩
  · exact ⟨by unfold IsPath; decide, by decide⟩
  · exact fun _ _ => trivial

/-- `bin/ls` is not a directory. -/
theorem workDirs_fails : ¬∀ (img : Tarfs) (members : List Member) (fuel : ℕ) (as : List CwdAct),
    img.WellFormed members → img.stop < img.start + 512 * fuel →
      Along (CwdAct.step img fuel) (fun _ a => a.Short) firstTask as →
      Always (CwdAct.step img fuel) (AllDirs members) firstTask as := by
  intro hall
  have hfuel : sampleTarfs.stop < sampleTarfs.start + 512 * (sampleTarfs.stop + 1) := by omega
  have hshort : CwdAct.Short (.chdir 0 0 [98, 105, 110, 47, 108, 115]) :=
    ⟨by unfold IsPath; decide, by decide⟩
  have halways := hall sampleTarfs sampleMembers _ lsCalls wellFormed_sampleTarfs hfuel
    ⟨hshort, fun _ _ => trivial⟩
  have hno : ¬CwdAct.Keeps sampleTarfs sampleMembers (sampleTarfs.stop + 1) firstTask
      (.chdir 0 0 [98, 105, 110, 47, 108, 115]) := by
    intro hkeeps
    rcases hkeeps _ rfl with hslot | hdir
    · exact absurd hslot (by decide)
    · exact absurd (hdir [98, 105, 110, 47, 108, 115] (by decide)) (by decide)
  obtain ⟨s', hstep, hnot⟩ :=
    CwdAct.step_breaks wellFormed_sampleTarfs hfuel allDirs_firstTask hshort hno
  exact hnot (halways.2 s' hstep)

end PlumOs
