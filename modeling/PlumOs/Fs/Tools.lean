import PlumOs.Fs.Cat

/-!
# The programs `ls` and `cat` (`bin/ls/ls.c`, `bin/cat/cat.c`)

`cat` opens its argument and calls `read`, `ls` opens it and calls `getdents`.  `tarfs_open` opens files
and directories alike, and neither program looks at what it has got: it is an assertion of the kernel
that fails for the wrong kind.

* `listFile`, `Tool.run` : the functions of the source, from the full path on;
* `kindOf` : what a path is opened as;
* `cat_file`, `cat_dir`, `ls_dir`, `ls_file` : each program on each kind;
* `returns_iff` : **a program returns exactly if** the path is opened as nothing or as what the program
  expects, or the process has no slot left to open it;
* `returns_fails` : `cat` on the root directory.
-/

namespace PlumOs

/-- `list_file`, with the two blocks that `malloc` returns in `opendir`: the names that are printed. -/
def listFile (img : Tarfs) (before before' fuel rounds calls : ℕ) (files : FileTable)
    (fullpath : List ℕ) (dirp : Option Dir) (ddBuf : Option (List ℕ)) :
    Except FsStop (Option (List (List ℕ))) := do
  let (dir, files) ← opendir img before fuel files fullpath dirp ddBuf
  match dir with
  | none => .ok none
  | some dir => do
    let names ← readdirAll img before' fuel true rounds calls files dir
    .ok (some names)

/-- A program with the blocks that it gets from `malloc`; `cat` comes with what it does with the bytes in
its buffer. -/
inductive Tool where
  | cat (buf : List ℕ) (print : List ℕ → List ℕ)
  | ls (dirp : Dir) (ddBuf : List ℕ)

namespace Tool

/-- The calls of a program with this path.  No loop has more than `fuel` rounds before its last one. -/
def run (img : Tarfs) (before before' fuel : ℕ) (files : FileTable) (fullpath : List ℕ) :
    Tool → Except FsStop Unit
  | cat buf print => do
    let _ ← PlumOs.cat (fun buf => .ok (print buf)) img before fuel (fuel + 1) files fullpath (some buf)
    .ok ()
  | ls dirp ddBuf => do
    let _ ← listFile img before before' fuel 2 (fuel + 1) files fullpath (some dirp) (some ddBuf)
    .ok ()

/-- The kind that the calls of the program are for. -/
def wants : Tool → FileType
  | cat _ _ => .file
  | ls _ _ => .dir

end Tool

/-- The program returns, or the process exits because it has no slot left.  No assertion fails, and no
loop goes on. -/
def Returns {α : Type} (r : Except FsStop α) : Prop :=
  Yields r (fun _ => True) fun e => e = .exitSt

/-- What a path is opened as.  Without a name behind the `/`s it is the first block of zeros, as a file,
unless it stands for the root directory. -/
def kindOf (members : List Member) (path : List ℕ) : Option FileType :=
  if IsRoot path then some .dir
  else if stripped path = [] then some .file
  else (members.find? fun m => m.Named (stripped path)).map Member.type

/-- The descriptor of a directory is in front of these members. -/
structure DirAt (img : Tarfs) (entry : FileEntry) (rest : List Member) : Prop where
  type : entry.type = .dir
  name : DirName entry.name
  short : entry.name.length < nameSize
  laid : Laid img (entry.startAddr + entry.pos) rest
  names : ∀ m ∈ rest, m.name.length < 100 ∧ IsPath m.name
  start : img.start ≤ entry.startAddr + entry.pos

/-- The descriptor of a file. -/
structure FileAt (img : Tarfs) (entry : FileEntry) : Prop where
  type : entry.type = .file
  sound : entry.toTarfsFile.Sound
  inside : entry.size ≤ img.stop - img.start

section Kinds

variable {img : Tarfs} {members rest : List Member} {before before' fuel rounds calls i : ℕ}
  {files : FileTable} {entry : FileEntry} {path buf ddBuf : List ℕ} {dirp : Dir}
  {print : List ℕ → List ℕ}

/-! ### What is opened -/

/-- The search by name, and the address of what it finds. -/
theorem lookup_of_find (start : ℕ) {n : List ℕ} {m : Member}
    (hfind : (members.find? fun m => m.Named n) = some m) : ∃ pre post, members = pre ++ m :: post ∧
      lookup start members n = some (start + totalSize pre, m) := by
  obtain ⟨hm, pre, post, rfl, hpre⟩ := List.find?_eq_some_iff_append.1 hfind
  replace hm : m.Named n := by simpa using hm
  replace hpre : ∀ x ∈ pre, ¬x.Named n := by simpa using hpre
  exact ⟨pre, post, rfl, find_membersAt hpre hm⟩

theorem lookup_eq_none (start : ℕ) {n : List ℕ}
    (hfind : (members.find? fun m => m.Named n) = none) : lookup start members n = none :=
  List.find?_eq_none.2 fun x hx => List.find?_eq_none.1 hfind x.2 (mem_of_mem_membersAt hx)

/-- The name of a directory is one `/` longer than the path at most. -/
theorem Member.Named.length_le {n name : List ℕ} (h : (Member.dir name).Named n) :
    name.length ≤ n.length + 1 := by
  rcases h with rfl | rfl
  · exact Nat.le_succ _
  · rw [List.length_append]
    exact Nat.le_refl _

namespace Tarfs.WellFormed

variable (h : img.WellFormed members) (hpath : IsPath path) (hlen : path.length < 63)
  (hfuel : img.stop < img.start + 512 * fuel)

include h hpath hlen hfuel

/-- Nothing is opened. -/
theorem open_nothing (hkind : kindOf members path = none) :
    tarfsOpen img before fuel files path [114] = .ok (-1, files) := by
  rw [kindOf] at hkind
  split at hkind
  · cases hkind
  rename_i hroot
  split at hkind
  · cases hkind
  rename_i hne
  exact h.tarfsOpen_none hpath hlen hroot hfuel hne
    (lookup_eq_none img.start (Option.map_eq_none_iff.1 hkind))

/-- Without a free slot the process exits, if there is something to open. -/
theorem open_full (hslot : files.freeSlot = none) (hkind : kindOf members path ≠ none) :
    tarfsOpen img before fuel files path [114] = .error .exitSt := by
  have hle := length_stripped path
  have hbuf : ¬nameSize ≤ (path.dropWhile (· = 47)).length :=
    not_le.2 (Nat.lt_of_le_of_lt hle (hlen.trans (by decide)))
  by_cases hroot : IsRoot path
  · rw [tarfsOpen, if_neg hbuf, openRes, if_pos hroot]
    simp only [ok_bind, openSlot, hslot]
  rw [h.tarfsOpen_eq hpath hlen hroot hfuel]
  rw [kindOf, if_neg hroot] at hkind
  by_cases hnil : stripped path = []
  · rw [hnil, h.lookup_nil, Option.map_none, Option.none_or, if_pos rfl]
    simp only [openSlot, hslot]
  · rw [if_neg hnil, Ne, Option.map_eq_none_iff] at hkind
    obtain ⟨m, hfind⟩ := Option.ne_none_iff_exists'.1 hkind
    obtain ⟨pre, post, -, hlookup⟩ := lookup_of_find img.start hfind
    rw [hlookup, Option.map_some, Option.some_or]
    simp only [openSlot, hslot]

variable (hslot : files.freeSlot = some i) (hpos : (files i).pos = 0)

include hslot hpos

/-- A directory is opened. -/
theorem open_dir (hkind : kindOf members path = some .dir) : ∃ entry rest, DirAt img entry rest ∧
    rest.length ≤ members.length ∧
    tarfsOpen img before fuel files path [114] = .ok (i, Function.update files i entry) := by
  rw [kindOf] at hkind
  split at hkind
  · rename_i hroot
    refine ⟨(files i).openRoot img [114], members, ⟨rfl, .inl rfl, (show 1 < 64 by decide), ?_,
      fun m hm => ⟨(h.names m hm).short, h.isPath hm⟩, Nat.le_add_right ..⟩, Nat.le_refl _,
      tarfsOpen_root hpath hroot (by decide) hslot⟩
    rw [FileEntry.openRoot, hpos]
    exact h.laid
  rename_i hroot
  split at hkind
  · cases hkind
  obtain ⟨m, hfind, htype⟩ := Option.map_eq_some_iff.1 hkind
  cases m with
  | file name content => cases htype
  | dir name =>
    have hnamed : Member.Named (stripped path) (.dir name) := by simpa using List.find?_some hfind
    obtain ⟨pre, post, rfl, hlookup⟩ := lookup_of_find img.start hfind
    have hmem : Member.dir name ∈ pre ++ .dir name :: post := by simp
    have hle := length_stripped path
    have hname := hnamed.length_le
    refine ⟨(files i).openMember [114] (img.start + totalSize pre) (.dir name), post,
      ⟨rfl, .inr ⟨h.names _ hmem, h.isPath hmem, h.slash _ hmem⟩, ?_, ?_, fun m hm => ?_, ?_⟩, ?_,
      h.tarfsOpen_member hpath hlen hroot hfuel (by decide) hslot hlookup⟩
    · show name.length < 64
      omega
    · rw [FileEntry.openMember, hpos]
      exact (laid_append.1 h.laid).2.2
    · have hin : m ∈ pre ++ .dir name :: post := by simp [hm]
      exact ⟨(h.names m hin).short, h.isPath hin⟩
    · show img.start ≤ img.start + totalSize pre + tarfsHeader + (files i).pos
      omega
    · rw [List.length_append, List.length_cons]
      omega

/-- A file is opened. -/
theorem open_file (hkind : kindOf members path = some .file) : ∃ entry, FileAt img entry ∧
    tarfsOpen img before fuel files path [114] = .ok (i, Function.update files i entry) := by
  have hend := h.laid.stop_ge
  have hstop := h.stop
  rw [kindOf] at hkind
  split at hkind
  · cases hkind
  rename_i hroot
  split at hkind
  · rename_i hnil
    have hzero : roundTo512 0 = 0 := by decide
    refine ⟨(files i).openFile [] [114] (img.start + totalSize members) 0, ⟨rfl, ⟨?_, ?_, ?_⟩, ?_⟩,
      h.tarfsOpen_slashes hpath hlen hroot hfuel (by decide) hslot hnil⟩
    · rw [FileEntry.openFile, hzero]
      show img.start + totalSize members + 512 + 0 ≤ 2 ^ 64
      omega
    · rw [FileEntry.openFile, hzero]
      exact Nat.two_pow_pos 31
    · simp only [FileEntry.openFile, hpos, Nat.zero_le]
    · simp only [FileEntry.openFile, hzero, Nat.zero_le]
  obtain ⟨m, hfind, htype⟩ := Option.map_eq_some_iff.1 hkind
  cases m with
  | dir name => cases htype
  | file name content =>
    obtain ⟨pre, post, rfl, hlookup⟩ := lookup_of_find img.start hfind
    obtain ⟨⟨-, hmember⟩, hrest⟩ := (laid_append.1 h.laid).2
    have hge := hrest.stop_ge
    refine ⟨(files i).openMember [114] (img.start + totalSize pre) (.file name content), ⟨rfl, ?_, ?_⟩,
      h.tarfsOpen_member hpath hlen hroot hfuel (by decide) hslot hlookup⟩
    · simp only [FileEntry.openMember, hpos]
      exact hmember.sound
    · simp only [FileEntry.openMember]
      simp only [Member.size] at hge
      omega

end Tarfs.WellFormed

/-- **Whatever the path was**, a directory that `tarfs_open` has opened is in front of some members. -/
theorem dirAt_of_open (h : img.WellFormed members) (hpath : IsPath path) (hzero : UnusedZero files)
    (hfuel : img.stop < img.start + 512 * fuel)
    (hopen : tarfsOpen img before fuel files path [114] = .ok (i, Function.update files i entry))
    (htype : entry.type = .dir) : ∃ rest, DirAt img entry rest := by
  rw [tarfsOpen] at hopen
  split at hopen
  · cases hopen
  obtain ⟨res, hres, hslot⟩ := bind_eq_ok.1 hopen
  cases res with
  | none =>
    have hfd := congrArg Prod.fst (Except.ok.inj hslot)
    simp only at hfd
    omega
  | some x =>
    obtain ⟨type, q⟩ := x
    simp only [openSlot] at hslot
    split at hslot
    · cases hslot
    rename_i j hj
    have hpos : (files j).pos = 0 := by rw [hzero j (mem_slots_of_freeSlot hj).2]; rfl
    split at hslot
    case isFalse => cases hslot
    -- the entry that was stored
    have hentry : ∀ entry' : FileEntry,
        (Except.ok ((j : ℤ), Function.update files j entry') : Except FsStop (ℤ × FileTable)) =
          .ok ((i : ℤ), Function.update files i entry) → entry = entry' := by
      intro entry' heq
      have hpair := Except.ok.inj heq
      have hfd : (j : ℤ) = i := congrArg Prod.fst hpair
      obtain rfl : j = i := by omega
      have hfiles := congrFun (congrArg Prod.snd hpair) j
      simp only [Function.update_self] at hfiles
      exact hfiles.symm
    split at hslot
    · obtain rfl := hentry _ hslot
      refine ⟨members, rfl, .inl rfl, (show 1 < 64 by decide), ?_,
        fun m hm => ⟨(h.names m hm).short, h.isPath hm⟩, Nat.le_add_right ..⟩
      rw [FileEntry.openRoot, hpos]
      exact h.laid
    rename_i hroot
    cases type with
    | file =>
      obtain ⟨filesz, -, hslot⟩ := bind_eq_ok.1 hslot
      obtain rfl := hentry _ hslot
      cases htype
    | dir =>
      obtain rfl := hentry _ hslot
      rw [openRes, if_neg hroot] at hres
      have hshort : ∀ m ∈ members, m.name.length < 2 ^ 64 := fun m hm =>
        (h.names m hm).short.trans (by decide)
      obtain ⟨pre, name, post, rfl, rfl, hcheck, hlen⟩ :=
        traverse_eq_dir h.laid hshort h.stop hfuel hres
      have hmem : Member.dir name ∈ pre ++ .dir name :: post := by simp
      have hbytes : ∀ c ∈ slashed before (path.dropWhile (· = 47)), c < 256 := fun c hc => by
        rw [slashed] at hc
        split at hc
        · exact (hpath c (stripped_subset hc)).2
        · rcases List.mem_append.1 hc with hc | hc
          · exact (hpath c (stripped_subset hc)).2
          · rw [List.mem_singleton.1 hc]
            decide
      have hname : slashed before (path.dropWhile (· = 47)) = name :=
        (strcmp_eq_zero hbytes (h.nameBytes hmem)).1 hcheck
      refine ⟨post, rfl, ?_, ?_, ?_, fun m hm => ?_, ?_⟩
      · rw [FileEntry.openDir, hname]
        exact .inr ⟨h.names _ hmem, h.isPath hmem, h.slash _ hmem⟩
      · exact hlen
      · rw [FileEntry.openDir, hpos]
        exact (laid_append.1 h.laid).2.2
      · have hin : m ∈ pre ++ .dir name :: post := by simp [hm]
        exact ⟨(h.names m hin).short, h.isPath hin⟩
      · show img.start ≤ img.start + totalSize pre + tarfsHeader + (files j).pos
        omega

/-! ### The programs -/

/-- `read` from a file goes on to its end. -/
theorem catLoop_returns (hi : i ∈ slots) (htype : (files i).type = .file)
    (hsound : (files i).toTarfsFile.Sound) (hrounds : (files i).size ≤ (files i).pos + 4096 * rounds) :
    ∃ chars, catLoop (fun buf => .ok (print buf)) img (rounds + 1) files i buf = .ok chars := by
  induction rounds generalizing files buf with
  | zero =>
    have hle := hsound.pos
    exact ⟨[], catLoop_end hi htype (by omega)⟩
  | succ rounds ih =>
    by_cases hend : (files i).pos = (files i).size
    · exact ⟨[], catLoop_end hi htype hend⟩
    · obtain ⟨pos, hnext⟩ : ∃ pos, pos = min ((files i).pos + pageSize) (files i).size := ⟨_, rfl⟩
      rw [catLoop_next hi htype hsound hend, ← hnext]
      simp only [ok_bind]
      unfold pageSize at hnext
      obtain ⟨files', hfiles'⟩ : ∃ files', files' = Function.update files i { files i with pos := pos } :=
        ⟨_, rfl⟩
      have hentry : files' i = { files i with pos := pos } := by rw [hfiles', Function.update_self]
      have hrest : ∀ buf, ∃ chars,
          catLoop (fun buf => .ok (print buf)) img (rounds + 1) files' i buf = .ok chars := fun buf =>
        ih (by rw [hentry]; exact htype)
          (by rw [hentry]; exact ⟨hsound.fits, hsound.small, by simp only; omega⟩)
          (by rw [hentry]; simp only; omega)
      obtain ⟨chars, hchars⟩ := hrest (fillBuf buf ((files i).toTarfsFile.slice img.mem (files i).pos pos))
      rw [← hfiles', hchars]
      exact ⟨_, rfl⟩

/-- The assertion of `read` fails for a directory. -/
theorem catLoop_dir (hi : i ∈ slots) (htype : (files i).type = .dir) :
    catLoop (fun buf => .ok (print buf)) img (rounds + 1) files i buf = .error (.assertFail "read") := by
  have hfile : (files i).type ≠ .file := by
    rw [htype]
    exact fun hcase => nomatch hcase
  rw [catLoop, read_slot img files hi (by decide), if_neg hfile]
  rfl

/-- A call of `getdents` on a directory, with any members behind it. -/
theorem getdents_dir (before : ℕ) (hi : i ∈ slots) (h : DirAt img (files i) rest) (hstop : img.stop < 2 ^ 64)
    (hfuel : img.stop < img.start + 512 * fuel) :
    getdents img before fuel files i 512 true = .ok (0, [], files) ∨
    ∃ type name files' post, getdents img before fuel files i 512 true =
        .ok (direntSize, dirent type name, files') ∧
      IsPath name ∧ name.length < 256 ∧ DirAt img (files' i) post ∧ post.length < rest.length := by
  have hshort : ∀ m ∈ rest, m.name.length < 2 ^ 64 := fun m hm => (h.names m hm).1.trans (by decide)
  have hbuf : (slashed before (files i).name).length < nameSize := by
    rw [h.name.slashed_eq]
    exact h.short
  have hzero : belongsToDir (files i).name [] ≠ 0 := by simp [belongsToDir]
  have hstart := h.start
  have hdirent : (direntSize : ℤ) ≤ 512 := by decide
  have hroom : img.stop < (files i).startAddr + (files i).pos + 512 * fuel := by omega
  have hfd : (i : ℤ).toNat ∈ slots := hi
  rcases traverse_first before h.laid hshort hbuf hstop hroom hzero with
    ⟨-, hwalk⟩ | ⟨pre, m, post, rfl, -, -, hwalk⟩
  · exact .inl (getdents_none hstop hfd h.type h.laid hwalk)
  · obtain ⟨hlen, hpath⟩ := h.names m (by simp)
    have hcall := getdents_found hstop hfd h.type h.laid (hlen.trans (by decide)) hdirent hwalk
    rw [Int.toNat_natCast, h.name.dName_eq] at hcall
    refine .inr ⟨_, _, _, post, hcall, fun c hc => hpath c (List.mem_of_mem_drop hc), ?_, ?_, ?_⟩
    · rw [List.length_drop]
      omega
    · rw [Function.update_self]
      refine ⟨h.type, h.name, h.short, ?_, fun x hx => h.names x (by simp [hx]), ?_⟩
      · simpa only [Nat.add_assoc] using (laid_append.1 h.laid).2.2
      · show img.start ≤ (files i).startAddr + ((files i).pos + totalSize pre + m.size)
        omega
    · rw [List.length_append, List.length_cons]
      omega

/-- The calls of `readdir` go on to the end of the directory. -/
theorem readdirAll_returns (before : ℕ) (hi : i ∈ slots) (h : DirAt img (files i) rest)
    (hstop : img.stop < 2 ^ 64) (hfuel : img.stop < img.start + 512 * fuel) (hdir : dirp.Drained i)
    (hcalls : rest.length < calls) :
    ∃ names, readdirAll img before fuel true 2 calls files dirp = .ok names := by
  induction calls generalizing files dirp rest with
  | zero => exact absurd hcalls (Nat.not_lt_zero _)
  | succ calls ih =>
    rcases getdents_dir before hi h hstop hfuel with
      hcall | ⟨type, name, files', post, hcall, hpath, hshort, hrest, hlt⟩
    · obtain ⟨dirp', hread⟩ := readdir_none hdir 0 hcall
      rw [readdirAll, hread]
      exact ⟨[], rfl⟩
    · obtain ⟨dirp', hread, hname, hdir'⟩ := readdir_entry hdir 0 (fun c hc => (hpath c hc).1) hshort hcall
      obtain ⟨names, hnames⟩ := ih hrest hdir' (by omega)
      rw [readdirAll, hread]
      simp only [ok_bind, hname, found, hnames]
      exact ⟨_, rfl⟩

/-- The assertion of `getdents` fails for a file. -/
theorem getdents_file (htype : (files i).type = .file) (hfd : dirp.ddFd = i) :
    getdents img before fuel files dirp.ddFd dirp.ddLen true = .error (.assertFail "getdents") := by
  have hdir : ¬((startFd : ℤ) ≤ (i : ℤ) ∧ (i : ℤ) < maxFileNum ∧ (files i).type = .dir) := by
    rw [htype]
    exact fun hcase => nomatch hcase.2.2
  rw [getdents, hfd, Int.toNat_natCast]
  simp only [if_neg hdir]

theorem readdirAll_file (htype : (files i).type = .file) (hfd : dirp.ddFd = i)
    (hloc : dirp.ddLoc = 0) : readdirAll img before fuel true 2 (calls + 1) files dirp =
      .error (.assertFail "getdents") := by
  rw [readdirAll, readdir, refill, if_pos hloc, getdents_file htype hfd]
  rfl

/-- Every member takes a header at least. -/
theorem length_le_totalSize (members : List Member) : 512 * members.length ≤ totalSize members := by
  induction members with
  | nil => exact Nat.le_refl _
  | cons m members ih =>
    have hsize : 512 ≤ m.size := m.size_ge
    rw [List.length_cons, totalSize_cons]
    omega

/-- The rounds of a loop over the members reach the end of the directory. -/
theorem DirAt.length_lt (h : DirAt img entry rest) (hfuel : img.stop < img.start + 512 * fuel) :
    rest.length < fuel + 1 := by
  have hend := h.laid.stop_ge
  have hstart := h.start
  have hlen := length_le_totalSize rest
  omega

namespace Tool

/-- A program does nothing if it gets no descriptor. -/
theorem run_nothing (tool : Tool)
    (hopen : tarfsOpen img before fuel files path [114] = .ok (-1, files)) :
    tool.run img before before' fuel files path = .ok () := by
  cases tool with
  | cat buf print =>
    rw [run, PlumOs.cat, hopen, ok_bind]
    simp only
    rw [if_neg (by decide), ok_bind]
  | ls dirp ddBuf =>
    rw [run, listFile, opendir, hopen]
    rfl

/-- The process exits. -/
theorem run_exit (tool : Tool)
    (hopen : tarfsOpen img before fuel files path [114] = .error .exitSt) :
    tool.run img before before' fuel files path = .error .exitSt := by
  cases tool with
  | cat buf print =>
    rw [run, PlumOs.cat, hopen]
    rfl
  | ls dirp ddBuf =>
    rw [run, listFile, opendir, hopen]
    rfl

section Opened

variable (hopen : tarfsOpen img before fuel files path [114] = .ok (i, Function.update files i entry))

include hopen

/-- `cat` is in its loop. -/
theorem run_cat (hi : i ∈ slots) : (cat buf print).run img before before' fuel files path =
    (catLoop (fun buf => .ok (print buf)) img (fuel + 1) (Function.update files i entry) i buf >>=
      fun _ => .ok ()) := by
  rw [run, PlumOs.cat_eq hi hopen]

/-- `ls` is in its loop. -/
theorem run_ls : (ls dirp ddBuf).run img before before' fuel files path =
    (readdirAll img before' fuel true 2 (fuel + 1) (Function.update files i entry)
      { dirp with ddBuf := ddBuf, ddLen := 512, ddFd := i, ddLoc := 0, ddSeek := 0 } >>=
      fun _ => .ok ()) := by
  have hfd : ¬(i : ℤ) = -1 := by omega
  rw [run, listFile, opendir, hopen]
  simp only [ok_bind, if_neg hfd]
  cases readdirAll img before' fuel true 2 (fuel + 1) (Function.update files i entry)
      { dirp with ddBuf := ddBuf, ddLen := 512, ddFd := i, ddLoc := 0, ddSeek := 0 } <;> rfl

/-- **`ls` on a file** lets an assertion fail. -/
theorem ls_file (htype : entry.type = .file) :
    (ls dirp ddBuf).run img before before' fuel files path = .error (.assertFail "getdents") := by
  rw [run_ls hopen, readdirAll_file (by rw [Function.update_self]; exact htype) rfl rfl]
  rfl

variable (hi : i ∈ slots)

include hi

/-- **`cat` on a file** returns. -/
theorem cat_file (hat : FileAt img entry) (hfuel : img.stop < img.start + 512 * fuel) :
    (cat buf print).run img before before' fuel files path = .ok () := by
  have hinside := hat.inside
  have hself : Function.update files i entry i = entry := Function.update_self ..
  have hloop : ∃ chars, catLoop (fun buf => .ok (print buf)) img (fuel + 1)
      (Function.update files i entry) i buf = .ok chars :=
    catLoop_returns hi (by rw [hself]; exact hat.type) (by rw [hself]; exact hat.sound)
      (by rw [hself]; omega)
  obtain ⟨chars, hchars⟩ := hloop
  rw [run_cat hopen hi, hchars, ok_bind]

/-- **`cat` on a directory** lets an assertion fail. -/
theorem cat_dir (htype : entry.type = .dir) :
    (cat buf print).run img before before' fuel files path = .error (.assertFail "read") := by
  rw [run_cat hopen hi, catLoop_dir hi (by rw [Function.update_self]; exact htype)]
  rfl

/-- **`ls` on a directory** returns. -/
theorem ls_dir (hat : DirAt img entry rest) (hstop : img.stop < 2 ^ 64)
    (hfuel : img.stop < img.start + 512 * fuel) :
    (ls dirp ddBuf).run img before before' fuel files path = .ok () := by
  have hself : Function.update files i entry i = entry := Function.update_self ..
  have hdrained : ({ dirp with
      ddBuf := ddBuf, ddLen := 512, ddFd := i, ddLoc := 0, ddSeek := 0 } : Dir).Drained i :=
    ⟨rfl, rfl, .inl rfl⟩
  have hloop : ∃ names, readdirAll img before' fuel true 2 (fuel + 1) (Function.update files i entry)
      { dirp with ddBuf := ddBuf, ddLen := 512, ddFd := i, ddLoc := 0, ddSeek := 0 } = .ok names :=
    readdirAll_returns before' hi (by rw [hself]; exact hat) hstop hfuel hdrained (hat.length_lt hfuel)
  obtain ⟨names, hnames⟩ := hloop
  rw [run_ls hopen, hnames, ok_bind]

end Opened

end Tool

/-- **A program returns exactly if** the path is opened as nothing or as what the program expects, or there
is no slot to open it. -/
theorem returns_iff (tool : Tool) (before before' : ℕ) {fuel' : ℕ} (h : img.WellFormed members)
    (hpath : IsPath path) (hlen : path.length < 63) (hfiles : Reachable img fuel' files)
    (hfuel : img.stop < img.start + 512 * fuel) :
    Returns (tool.run img before before' fuel files path) ↔
      files.freeSlot = none ∨ ∀ type ∈ kindOf members path, type = tool.wants := by
  cases hslot : files.freeSlot with
  | none =>
    refine iff_of_true ?_ (.inl rfl)
    by_cases hkind : kindOf members path = none
    · rw [tool.run_nothing (h.open_nothing hpath hlen hfuel hkind)]
      trivial
    · rw [tool.run_exit (h.open_full hpath hlen hfuel hslot hkind)]
      exact rfl
  | some i =>
    obtain ⟨hi, hfree⟩ := mem_slots_of_freeSlot hslot
    have hpos : (files i).pos = 0 := by rw [hfiles.unusedZero i hfree]; rfl
    cases hkind : kindOf members path with
    | none =>
      refine iff_of_true ?_ (.inr fun type htype => nomatch htype)
      rw [tool.run_nothing (h.open_nothing hpath hlen hfuel hkind)]
      trivial
    | some type =>
      simp only [Option.mem_def, Option.some.injEq, forall_eq', reduceCtorEq, false_or]
      cases type with
      | file =>
        obtain ⟨entry, hat, hopen⟩ := h.open_file hpath hlen hfuel hslot hpos hkind
        cases tool with
        | cat buf print =>
          rw [Tool.cat_file hopen hi hat hfuel]
          exact iff_of_true trivial rfl
        | ls dirp ddBuf =>
          rw [Tool.ls_file hopen hat.type]
          exact iff_of_false (fun hcase => nomatch hcase) (fun hcase => nomatch hcase)
      | dir =>
        obtain ⟨entry, rest, hat, -, hopen⟩ := h.open_dir hpath hlen hfuel hslot hpos hkind
        cases tool with
        | cat buf print =>
          rw [Tool.cat_dir hopen hi hat.type]
          exact iff_of_false (fun hcase => nomatch hcase) (fun hcase => nomatch hcase)
        | ls dirp ddBuf =>
          rw [Tool.ls_dir hopen hi hat h.stop hfuel]
          exact iff_of_true trivial rfl

end Kinds

/-- `ls bin` returns. -/
theorem returns_iff_bin : Returns ((Tool.ls ⟨0, 0, 0, [], 0, 0⟩ (List.replicate 512 0)).run sampleTarfs 0 0
    (sampleTarfs.stop + 1) (fun _ => FileEntry.zero) [98, 105, 110]) := by
  have hfiles : Reachable sampleTarfs 0 fun _ => FileEntry.zero := .zero
  have hkind : kindOf sampleMembers [98, 105, 110] = some .dir := by decide
  refine (returns_iff _ 0 0 wellFormed_sampleTarfs (by unfold IsPath; decide) (by decide) hfiles
    (by omega)).2 (.inr fun type htype => ?_)
  rw [hkind] at htype
  exact (Option.some.inj htype).symm

/-- `cat /` does not. -/
theorem returns_fails : ¬∀ (tool : Tool) (img : Tarfs) (members : List Member)
    (before before' fuel fuel' : ℕ) (files : FileTable) (path : List ℕ), img.WellFormed members →
      IsPath path → path.length < 63 → Reachable img fuel' files →
      img.stop < img.start + 512 * fuel → Returns (tool.run img before before' fuel files path) := by
  intro hall
  have hfiles : Reachable sampleTarfs 0 fun _ => FileEntry.zero := .zero
  have hpath : IsPath [47] := by unfold IsPath; decide
  have hreturns := hall (.cat (List.replicate 4096 0) id) sampleTarfs sampleMembers 0 0
    (sampleTarfs.stop + 1) 0 _ [47] wellFormed_sampleTarfs hpath (by decide) hfiles (by omega)
  have hslot : FileTable.freeSlot (fun _ => FileEntry.zero) = some 3 := by decide
  rw [Tool.cat_dir (tarfsOpen_root hpath (by decide) (by decide) hslot) (by decide) rfl] at hreturns
  exact nomatch hreturns

end PlumOs
