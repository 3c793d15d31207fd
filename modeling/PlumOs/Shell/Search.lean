import PlumOs.Fs.Open

/-!
# Paths and variables of the shell (`libc/shlib.c`)

A list of variables is a list of strings `NAME=value`.  The shell looks for a program under its name, and
then in the directories of `PATH` one after the other.

* `getVar`, `getFullpath`, `locateExecutableFile` : the functions of the source, the last one with a
  parameter for `does_file_exist`;
* `isPath_getFullpath` : strings are made of strings;
* `locate_stateful` : **a search that changes nothing until it finds a file** is the search with a
  predicate.
-/

namespace PlumOs

/-- `MAX_VAR_SIZE`. -/
abbrev maxVarSize : ℕ := 2048

/-- `MAX_BUFFER_SIZE`. -/
abbrev maxBufferSize : ℕ := 2048

/-- `MAX_ENV_VAR_NUM`. -/
abbrev maxEnvVarNum : ℕ := 256

/-- `get_var`, in the variables in front of the first null pointer.  The entry behind the last one of
`MAX_ENV_VAR_NUM` is looked at after the loop. -/
def getVar (varList : List (List ℕ)) (varName : List ℕ) : Option (List ℕ) :=
  let nlen := min varName.length maxVarSize
  ((varList.take (maxEnvVarNum + 1)).find? fun entry => strncmp varName entry nlen = 0).map
    fun entry => (entry.drop nlen).take (maxVarSize - 1)

/-- A directory and a name behind it in a buffer of `MAX_BUFFER_SIZE`, with a `/` between them if the
directory has none at its end.  `before` is the byte in front of the directory. -/
def joined (before : ℕ) (dir name : List ℕ) : Except FsStop (List ℕ) :=
  let buf := slashed before dir ++ name
  if buf.length < maxBufferSize then .ok buf else .error .overrun

/-- A path in a directory, for `get_fullpath`.  Its assertion ends the shell if it fails. -/
def inDirectory (before : ℕ) (ptr rest : List ℕ) : Except FsStop (List ℕ) :=
  if ptr.length + rest.length < maxBufferSize then joined before ptr rest else .error .exitSt

/-- `get_fullpath`, in the working directory `cwd`.  `garbage` is the string in the buffer that `malloc`
returns. -/
def getFullpath (before : ℕ) (garbage cwd : List ℕ) (envp : List (List ℕ)) (path : List ℕ) :
    Except FsStop (List ℕ) :=
  if path.head? = some 47 then .ok path
  else if path.head? = some 126 then
    match getVar envp [72, 79, 77, 69, 61] with
    | some ptr => inDirectory before ptr path.tail
    | none => .ok garbage
  else inDirectory before cwd path

section Locate

variable {σ : Type} (exist : σ → List ℕ → Except FsStop (Bool × σ)) (before : ℕ) (filename : List ℕ)

/-- The search of `locate_executable_file` in the components of `PATH`.  `before` is the byte in front of
the buffer. -/
def locateIn : List (List ℕ) → σ → Except FsStop (Option (List ℕ) × σ)
  | [], s => .ok (none, s)
  | [dir], s =>
    -- the `/` is appended in any case
    if dir ≠ [] ∧ filename.length + dir.length + 1 < maxBufferSize - 1 then do
      let (found, s) ← exist s (dir ++ 47 :: filename)
      .ok (if found then some (dir ++ 47 :: filename) else none, s)
    else .ok (none, s)
  | dir :: dir' :: dirs, s => do
    let buf ← joined before dir filename
    if maxBufferSize - 1 < filename.length + dir.length + 1 then .ok (none, s)
    else do
      let (found, s) ← exist s buf
      if found then .ok (some buf, s) else locateIn (dir' :: dirs) s

/-- `locate_executable_file`. -/
def locateExecutableFile (varList : List (List ℕ)) (s : σ) : Except FsStop (Option (List ℕ) × σ) := do
  let (found, s) ← exist s filename
  if found then .ok (some filename, s)
  else
    match getVar varList [80, 65, 84, 72, 61] with
    | none => .ok (none, s)
    | some path => locateIn exist before filename (path.splitOn 58) s

end Locate

/-! ### Strings -/

section Strings

variable {before : ℕ} {garbage cwd path dir name varName value : List ℕ} {varList envp : List (List ℕ)}

theorem isPath_append (hdir : IsPath dir) (hname : IsPath name) : IsPath (dir ++ name) := by
  intro c hc
  rcases List.mem_append.1 hc with hc | hc
  · exact hdir c hc
  · exact hname c hc

theorem isPath_slashed (hdir : IsPath dir) (before : ℕ) : IsPath (slashed before dir) := by
  rw [slashed]
  split
  · exact hdir
  · exact isPath_append hdir (by unfold IsPath; decide)

theorem isPath_getVar (hvars : ∀ v ∈ varList, IsPath v) (h : getVar varList varName = some value) :
    IsPath value := by
  obtain ⟨entry, hfind, rfl⟩ := Option.map_eq_some_iff.1 h
  have hmem := List.mem_of_mem_take (List.mem_of_find?_eq_some hfind)
  exact fun c hc => hvars entry hmem c (List.mem_of_mem_drop (List.mem_of_mem_take hc))

theorem isPath_joined {buf : List ℕ} (hdir : IsPath dir) (hname : IsPath name)
    (h : joined before dir name = .ok buf) : IsPath buf := by
  rw [joined] at h
  split at h
  · cases h
    exact isPath_append (isPath_slashed hdir before) hname
  · cases h

theorem isPath_inDirectory {ptr rest buf : List ℕ} (hptr : IsPath ptr) (hrest : IsPath rest)
    (h : inDirectory before ptr rest = .ok buf) : IsPath buf := by
  rw [inDirectory] at h
  split at h
  · exact isPath_joined hptr hrest h
  · cases h

/-- **The full path is a string**, if all that it is made of are. -/
theorem isPath_getFullpath {fullpath : List ℕ} (hgarbage : IsPath garbage) (hcwd : IsPath cwd)
    (henvp : ∀ v ∈ envp, IsPath v) (hpath : IsPath path)
    (h : getFullpath before garbage cwd envp path = .ok fullpath) : IsPath fullpath := by
  rw [getFullpath] at h
  split at h
  · cases h
    exact hpath
  split at h
  · split at h
    · rename_i ptr hhome
      have htail : IsPath path.tail := fun c hc => hpath c (List.mem_of_mem_tail hc)
      exact isPath_inDirectory (isPath_getVar henvp hhome) htail h
    · cases h
      exact hgarbage
  · exact isPath_inDirectory hcwd hpath h

end Strings

/-! ### The search -/

section Search

variable {σ : Type} {exist : σ → List ℕ → Except FsStop (Bool × σ)} {s : σ}
  {test : List ℕ → Except FsStop Bool} {before : ℕ} {filename : List ℕ}

/-- The result of a search in a state that changes only when a file is found. -/
inductive Follows (s : σ) (found : σ → Prop) :
    Except FsStop (Option (List ℕ)) → Except FsStop (Option (List ℕ) × σ) → Prop
  | error (e : FsStop) : Follows s found (.error e) (.error e)
  | none : Follows s found (.ok none) (.ok (none, s))
  | some (p : List ℕ) (s' : σ) : found s' → Follows s found (.ok (some p)) (.ok (some p, s'))

/-- The search with a predicate. -/
abbrev pureTest (test : List ℕ → Except FsStop Bool) : Unit → List ℕ → Except FsStop (Bool × Unit) :=
  fun _ p => (test p).map fun b => (b, ())

variable {found : σ → Prop}

/-- What `exist` does in the state `s`, by the test. -/
def Tests (exist : σ → List ℕ → Except FsStop (Bool × σ)) (test : List ℕ → Except FsStop Bool) (s : σ)
    (found : σ → Prop) : Prop :=
  ∀ p, (∃ e, test p = .error e ∧ exist s p = .error e) ∨
    (test p = .ok false ∧ exist s p = .ok (false, s)) ∨
    ∃ s', test p = .ok true ∧ exist s p = .ok (true, s') ∧ found s'

theorem locateIn_follows (h : Tests exist test s found) (dirs : List (List ℕ)) :
    Follows s found ((locateIn (pureTest test) before filename dirs ()).map Prod.fst)
      (locateIn exist before filename dirs s) := by
  induction dirs with
  | nil => exact .none
  | cons dir dirs ih =>
    cases dirs with
    | nil =>
      rw [locateIn, locateIn]
      split
      · rcases h (dir ++ 47 :: filename) with ⟨e, ht, hs⟩ | ⟨ht, hs⟩ | ⟨s', ht, hs, hfound⟩
        · rw [hs, pureTest, ht]
          exact .error e
        · rw [hs, pureTest, ht]
          exact .none
        · rw [hs, pureTest, ht]
          exact .some _ s' hfound
      · exact .none
    | cons dir' dirs =>
      rw [locateIn, locateIn]
      cases hbuf : joined before dir filename with
      | error e => exact .error e
      | ok buf =>
        simp only [ok_bind]
        split
        · exact .none
        · rcases h buf with ⟨e, ht, hs⟩ | ⟨ht, hs⟩ | ⟨s', ht, hs, hfound⟩
          · rw [hs, pureTest, ht]
            exact .error e
          · rw [hs, pureTest, ht]
            exact ih
          · rw [hs, pureTest, ht]
            exact .some _ s' hfound

/-- **The search changes the state only when it finds a file**, and finds what the search with the test
finds. -/
theorem locate_stateful (h : Tests exist test s found) (varList : List (List ℕ)) :
    Follows s found ((locateExecutableFile (pureTest test) before filename varList ()).map Prod.fst)
      (locateExecutableFile exist before filename varList s) := by
  rw [locateExecutableFile, locateExecutableFile]
  rcases h filename with ⟨e, ht, hs⟩ | ⟨ht, hs⟩ | ⟨s', ht, hs, hfound⟩
  · rw [hs, pureTest, ht]
    exact .error e
  · rw [hs, pureTest, ht]
    show Follows s found (Except.map Prod.fst (match getVar varList [80, 65, 84, 72, 61] with
      | none => .ok (none, ())
      | some path => locateIn (pureTest test) before filename (path.splitOn 58) ()))
      (match getVar varList [80, 65, 84, 72, 61] with
      | none => .ok (none, s)
      | some path => locateIn exist before filename (path.splitOn 58) s)
    cases getVar varList [80, 65, 84, 72, 61] with
    | none => exact .none
    | some path => exact locateIn_follows h _
  · rw [hs, pureTest, ht]
    exact .some _ s' hfound

end Search

end PlumOs
