import Mathlib.Data.List.Find
import Mathlib.Data.List.TakeWhile
import PlumOs.Fs.Archive

/-!
# Opening a file (`sys/tarfs.c`)

`tarfs_open` takes the `/`s at the front of a path away, looks for the rest in the archive and stores
what it finds in the first free slot of `file_array`.  The root directory has no member; it is known
from the three paths `/`, `//` and `///`.

* `FileEntry`, `tarfsOpen` : the entry of a slot, and the function of the source;
* `Names` : the paths that name the root or a member;
* `tarfsOpen_eq` : what the call returns and stores, in a well-formed archive;
* `open_iff` : **the call succeeds exactly for the paths that name something, unless** the path is
  empty;
* `open_fails` : the empty path names nothing, and is opened as the block of zeros at the end.
-/

namespace PlumOs

/-! ### The file table -/

/-- `FILE_NAME_SIZE`. -/
abbrev fileNameSize : ℕ := 128

/-- `START_FD`, the first slot that is used. -/
abbrev startFd : ℕ := 3

/-- `MAX_FILE_NUM`. -/
abbrev maxFileNum : ℕ := 20

/-- `tarfs_file`, the entry of a slot. -/
structure FileEntry extends TarfsFile where
  /-- The mode that was given to `open`. -/
  mode : List ℕ
  /-- The name, shortened to the array. -/
  name : List ℕ
  /-- 0 while the slot is free. -/
  free : ℕ
  /-- A file or a directory. -/
  type : FileType
  deriving DecidableEq, Repr

/-- An entry in a page of zeros. -/
def FileEntry.zero : FileEntry :=
  { startAddr := 0, size := 0, pos := 0, mode := [], name := [], free := 0, type := .dir }

/-- `file_array` of a task. -/
abbrev FileTable : Type := ℕ → FileEntry

/-- The descriptors. -/
def slots : List ℕ := List.range' startFd (maxFileNum - startFd)

theorem mem_slots {i : ℕ} : i ∈ slots ↔ startFd ≤ i ∧ i < maxFileNum := by
  rw [slots, List.mem_range'_1]
  omega

/-- The first slot that is not used. -/
def FileTable.freeSlot (files : FileTable) : Option ℕ := slots.find? fun i => (files i).free = 0

/-! ### `tarfs_open` -/

/-- The paths that the source takes for the root directory. -/
def IsRoot (filename : List ℕ) : Prop :=
  strcmp filename [47] = 0 ∨ strcmp filename [47, 47] = 0 ∨ strcmp filename [47, 47, 47] = 0

instance : DecidablePred IsRoot := fun filename =>
  inferInstanceAs (Decidable (strcmp filename [47] = 0 ∨ strcmp filename [47, 47] = 0 ∨
    strcmp filename [47, 47, 47] = 0))

/-- The entry of the root directory, in the place of another one. -/
def FileEntry.openRoot (entry : FileEntry) (img : Tarfs) (mode : List ℕ) : FileEntry :=
  { entry with free := 1, startAddr := img.start, name := [47], mode := mode, type := .dir }

/-- The entry of a directory. -/
def FileEntry.openDir (entry : FileEntry) (before : ℕ) (newfname mode : List ℕ) (res : ℕ) :
    FileEntry :=
  { entry with
    free := 1, startAddr := res + tarfsHeader, name := slashed before newfname, mode := mode,
    type := .dir }

/-- The entry of a file.  Only here is the size set, and nowhere the position. -/
def FileEntry.openFile (entry : FileEntry) (newfname mode : List ℕ) (res filesz : ℕ) : FileEntry :=
  { entry with
    free := 1, startAddr := res + tarfsHeader, name := newfname, mode := mode, type := .file,
    size := roundTo512 filesz }

/-- What `tarfs_open` looks for: the root directory, with the special value 1, or a member. -/
def openRes (img : Tarfs) (before fuel : ℕ) (filename : List ℕ) :
    Except FsStop (Option (FileType × ℕ)) :=
  if IsRoot filename then .ok (some (.dir, 1))
  else traverseTarfs img before (filename.dropWhile (· = 47)) strcmp fuel img.start

/-- What `tarfs_open` stores in the first free slot, if there is one. -/
def openSlot (img : Tarfs) (before : ℕ) (files : FileTable) (filename mode : List ℕ) (type : FileType)
    (res : ℕ) : Except FsStop (ℤ × FileTable) :=
  let newfname := filename.dropWhile (· = 47)
  match files.freeSlot with
  | none => .error .exitSt
  | some i =>
    if mode.length < 16 ∧ filename.length < fileNameSize then
      if IsRoot filename then
        .ok (i, Function.update files i ((files i).openRoot img mode))
      else
        match type with
        | .dir => .ok (i, Function.update files i ((files i).openDir before newfname mode res))
        | .file => do
          let filesz ← found (getFilesz img.mem res)
          .ok (i, Function.update files i ((files i).openFile newfname mode res filesz))
    else .error (.assertFail "tarfs_open")

/-- `tarfs_open`: the descriptor or -1, and the table afterwards.  `before` is the byte in front of the
buffer `newfname` on the stack. -/
def tarfsOpen (img : Tarfs) (before fuel : ℕ) (files : FileTable) (filename mode : List ℕ) :
    Except FsStop (ℤ × FileTable) :=
  if nameSize ≤ (filename.dropWhile (· = 47)).length then .error .overrun
  else do
    match ← openRes img before fuel filename with
    | none => .ok (-1, files)
    | some (type, res) => openSlot img before files filename mode type res

/-! ### Comparing names -/

theorem strncmp_eq_zero {dest src : List ℕ} (hdest : ∀ c ∈ dest, c < 256) (hsrc : ∀ c ∈ src, c < 256)
    (hlen : dest.length = src.length) : strncmp dest src dest.length = 0 ↔ dest = src := by
  induction dest generalizing src with
  | nil =>
    cases src with
    | nil => simp [strncmp]
    | cons d src => simp at hlen
  | cons c dest ih =>
    cases src with
    | nil => simp at hlen
    | cons d src =>
      rw [List.forall_mem_cons] at hdest hsrc
      rw [List.length_cons, strncmp, List.cons_eq_cons]
      by_cases hcd : c = d
      · rw [if_pos hcd, ih hdest.2 hsrc.2 (by simpa using hlen)]
        exact ⟨fun h => ⟨hcd, h⟩, fun h => h.2⟩
      · have hne : charVal c - charVal d ≠ 0 := fun h =>
          hcd (charVal_injective hdest.1 hsrc.1 (Int.sub_eq_zero.1 h))
        rw [if_neg hcd]
        exact ⟨fun h => absurd h hne, fun h => absurd h.1 hcd⟩

/-- **`strcmp` returns 0 exactly for equal strings.** -/
theorem strcmp_eq_zero {dest src : List ℕ} (hdest : ∀ c ∈ dest, c < 256)
    (hsrc : ∀ c ∈ src, c < 256) : strcmp dest src = 0 ↔ dest = src := by
  rw [strcmp]
  by_cases hlen : dest.length = src.length
  · rw [if_neg (not_not.2 hlen), strncmp_eq_zero hdest hsrc hlen]
  · rw [if_pos hlen]
    exact ⟨fun h => absurd h (by decide), fun h => absurd (congrArg List.length h) hlen⟩

/-! ### What is opened -/

/-- A path is a string. -/
def IsPath (path : List ℕ) : Prop := ∀ c ∈ path, c ≠ 0 ∧ c < 256

/-- The path without the `/`s at its front. -/
def stripped (path : List ℕ) : List ℕ := path.dropWhile (· = 47)

/-- The member has this name.  The `/` at the end of a directory's name can be left out. -/
def Member.Named (n : List ℕ) : Member → Prop
  | .dir name => name = n ∨ name = n ++ [47]
  | .file name _ => name = n

instance (n : List ℕ) : DecidablePred (Member.Named n)
  | .dir name => inferInstanceAs (Decidable (name = n ∨ name = n ++ [47]))
  | .file name _ => inferInstanceAs (Decidable (name = n))

/-- The path consists of one or more `/`s, or is the name of a member with some `/`s in front. -/
def Names (members : List Member) (path : List ℕ) : Prop :=
  (path ≠ [] ∧ ∀ c ∈ path, c = 47) ∨ ∃ m ∈ members, m.Named (stripped path)

/-- The first member with this name, and its address. -/
def lookup (start : ℕ) (members : List Member) (n : List ℕ) : Option (ℕ × Member) :=
  (membersAt start members).find? fun x => x.2.Named n

/-- The entry of a member with its header at `q`, in the place of another entry. -/
def FileEntry.openMember (entry : FileEntry) (mode : List ℕ) (q : ℕ) : Member → FileEntry
  | .dir name =>
    { entry with
      free := 1, startAddr := q + tarfsHeader, name := name, mode := mode, type := .dir }
  | .file name content =>
    { entry with
      free := 1, startAddr := q + tarfsHeader, name := name, mode := mode, type := .file,
      size := paddedSize content }

section Opening

variable {img : Tarfs} {members : List Member} {before fuel i q : ℕ} {files : FileTable}
  {path n name mode : List ℕ} {m : Member}

theorem stripped_eq_nil : stripped path = [] ↔ ∀ c ∈ path, c = 47 := by
  simp [stripped, List.dropWhile_eq_nil_iff]

theorem stripped_subset {c : ℕ} (h : c ∈ stripped path) : c ∈ path :=
  (List.dropWhile_suffix _).subset h

theorem length_stripped (path : List ℕ) : (stripped path).length ≤ path.length :=
  (List.dropWhile_suffix _).length_le

theorem isRoot_iff (hpath : IsPath path) :
    IsRoot path ↔ path = [47] ∨ path = [47, 47] ∨ path = [47, 47, 47] := by
  have hbytes : ∀ c ∈ path, c < 256 := fun c hc => (hpath c hc).2
  rw [IsRoot, strcmp_eq_zero hbytes (by decide), strcmp_eq_zero hbytes (by decide),
    strcmp_eq_zero hbytes (by decide)]

/-- The root directory is a path of `/`s. -/
theorem IsRoot.stripped_eq (hpath : IsPath path) (h : IsRoot path) : stripped path = [] := by
  rcases (isRoot_iff hpath).1 h with rfl | rfl | rfl <;> rfl

theorem length_slashed (before : ℕ) (n : List ℕ) : (slashed before n).length ≤ n.length + 1 := by
  rw [slashed]
  split
  · exact Nat.le_succ _
  · rw [List.length_append]
    rfl

/-- Before a `/` at the end of a proper name there is another character. -/
theorem ProperName.not_slash {l : List ℕ} (h : ProperName (l ++ [47])) : l.getLast? ≠ some 47 := by
  intro hl
  obtain ⟨l', rfl⟩ := List.getLast?_eq_some_iff.1 hl
  exact h.components ⟨l', [], by simp⟩

/-- A directory has the name that is looked for, or the one with a `/` appended. -/
theorem slashed_eq_iff {l : List ℕ} (h : ProperName (l ++ [47])) :
    slashed before n = l ++ [47] ↔ l ++ [47] = n ∨ l ++ [47] = n ++ [47] := by
  have hlast := h.not_slash
  have hne : l ≠ [] := by
    rintro rfl
    exact h.relative rfl
  rw [slashed, List.getLastD_eq_getLast?]
  constructor
  · intro heq
    split at heq
    · exact .inl heq.symm
    · exact .inr heq.symm
  · rintro (rfl | heq)
    · rw [List.getLast?_concat, Option.getD_some, if_pos rfl]
    · obtain rfl : l = n := by simpa using heq
      obtain ⟨c, hc⟩ := Option.ne_none_iff_exists'.1 (mt List.getLast?_eq_none_iff.1 hne)
      rw [hc, Option.getD_some, if_neg fun h47 => hlast (by rw [hc, h47])]

/-- The paths of the root directory. -/
theorem tarfsOpen_root (hpath : IsPath path) (hroot : IsRoot path) (hmode : mode.length < 16)
    (hslot : files.freeSlot = some i) : tarfsOpen img before fuel files path mode =
      .ok (i, Function.update files i ((files i).openRoot img mode)) := by
  have hlen : path.length < fileNameSize := by
    rcases (isRoot_iff hpath).1 hroot with rfl | rfl | rfl <;> decide
  have hstripped : path.dropWhile (· = 47) = [] := hroot.stripped_eq hpath
  rw [tarfsOpen, hstripped, if_neg (by decide), openRes, if_pos hroot]
  simp only [ok_bind, openSlot, hslot, if_pos hroot, if_pos (And.intro hmode hlen)]

namespace Tarfs.WellFormed

variable (h : img.WellFormed members)

include h

theorem nameBytes (hm : m ∈ members) : ∀ c ∈ m.name, c < 256 := by
  have hat : ∃ p, m.At img.mem p := by
    have hlaid := h.laid
    obtain ⟨pre, post, rfl⟩ := List.append_of_mem hm
    exact ⟨_, ((laid_append.1 hlaid).2).1⟩
  obtain ⟨p, hp⟩ := hat
  intro c hc
  obtain ⟨i, hi, rfl⟩ := List.getElem_of_mem hc
  rw [← hp.strAt.bytes i hi]
  exact h.bytes _

/-- In a well-formed archive the comparison with `strcmp` accepts the members with the name. -/
theorem accepted_iff (hn : ∀ c ∈ n, c < 256) (hm : m ∈ members) :
    m.Accepted before n strcmp ↔ m.Named n := by
  cases m with
  | file name content =>
    have hname : ∀ c ∈ name, c < 256 := h.nameBytes hm
    rw [Member.Accepted, strcmp_eq_zero hn hname, eq_comm]
    rfl
  | dir name =>
    obtain ⟨l, rfl⟩ := h.slash _ hm
    have hname : ∀ c ∈ l ++ [47], c < 256 := h.nameBytes hm
    have hslashed : ∀ c ∈ slashed before n, c < 256 := by
      intro c hc
      rw [slashed] at hc
      split at hc
      · exact hn c hc
      · rcases List.mem_append.1 hc with hc | hc
        · exact hn c hc
        · rw [List.mem_singleton.1 hc]
          decide
    rw [Member.Accepted, strcmp_eq_zero hslashed hname, slashed_eq_iff (h.names _ hm)]
    rfl

/-- What the traversal finds for a name. -/
theorem traverse_strcmp (before : ℕ) (hn : ∀ c ∈ n, c < 256) (hlen : n.length + 1 < nameSize)
    (hfuel : img.stop < img.start + 512 * fuel) :
    traverseTarfs img before n strcmp fuel img.start =
      .ok (((lookup img.start members n).map fun x => (x.2.type, x.1)).or
        (if n = [] then some (.file, img.start + totalSize members) else none)) := by
  have hshort : ∀ m ∈ members, m.name.length < 2 ^ 64 := fun m hm =>
    (h.names m hm).short.trans (by decide)
  have hbuf : (slashed before n).length < nameSize :=
    Nat.lt_of_le_of_lt (length_slashed before n) hlen
  have hfind : ((membersAt img.start members).find? fun x => x.2.Accepted before n strcmp) =
      lookup img.start members n := by
    refine List.find?_congr fun x hx => ?_
    exact decide_eq_decide.2 (h.accepted_iff hn (mem_of_mem_membersAt hx))
  have hnil : strcmp n [] = 0 ↔ n = [] := strcmp_eq_zero hn (by simp)
  rw [traverse_laid h.laid hshort hbuf h.stop hfuel, hfind]
  simp only [hnil]

/-- No member has an empty name. -/
theorem lookup_nil : lookup img.start members [] = none := by
  refine List.find?_eq_none.2 fun x hx => ?_
  have hname := h.names _ (mem_of_mem_membersAt hx)
  intro hnamed
  replace hnamed := of_decide_eq_true hnamed
  cases hx2 : x.2 with
  | file name content =>
    rw [hx2] at hname hnamed
    exact hname.nonempty hnamed
  | dir name =>
    rw [hx2] at hname hnamed
    rcases hnamed with hnil | hroot
    · exact hname.nonempty hnil
    · exact hname.relative (by rw [Member.name, hroot]; rfl)

section Call

variable (hpath : IsPath path) (hlen : path.length < 63) (hroot : ¬IsRoot path)
  (hfuel : img.stop < img.start + 512 * fuel)

include hpath hlen hroot hfuel

/-- Any other path is looked for in the archive. -/
theorem tarfsOpen_eq : tarfsOpen img before fuel files path mode =
    match ((lookup img.start members (stripped path)).map fun x => (x.2.type, x.1)).or
        (if stripped path = [] then some (.file, img.start + totalSize members) else none) with
    | none => .ok (-1, files)
    | some (type, res) => openSlot img before files path mode type res := by
  have hle := length_stripped path
  have hbuf : ¬nameSize ≤ (path.dropWhile (· = 47)).length :=
    not_le.2 (Nat.lt_of_le_of_lt hle (hlen.trans (by decide)))
  have hbytes : ∀ c ∈ stripped path, c < 256 := fun c hc => (hpath c (stripped_subset hc)).2
  have hres := h.traverse_strcmp before hbytes (by unfold nameSize; omega) hfuel
  rw [tarfsOpen, if_neg hbuf, openRes, if_neg hroot]
  rw [stripped] at hres ⊢
  rw [hres]
  rfl

/-- Paths of other characters, which name nothing. -/
theorem tarfsOpen_none (hne : stripped path ≠ [])
    (hfind : lookup img.start members (stripped path) = none) :
    tarfsOpen img before fuel files path mode = .ok (-1, files) := by
  rw [h.tarfsOpen_eq hpath hlen hroot hfuel, hfind, if_neg hne]
  rfl

variable (hmode : mode.length < 16) (hslot : files.freeSlot = some i)

include hmode hslot

/-- A path that names a member. -/
theorem tarfsOpen_member (hfind : lookup img.start members (stripped path) = some (q, m)) :
    tarfsOpen img before fuel files path mode =
      .ok (i, Function.update files i ((files i).openMember mode q m)) := by
  have hguard : mode.length < 16 ∧ path.length < fileNameSize :=
    ⟨hmode, hlen.trans (by decide)⟩
  have hx : (q, m) ∈ membersAt img.start members := List.mem_of_find?_eq_some hfind
  have hat : m.At img.mem q := h.laid.at hx
  have hnamed : m.Named (stripped path) := by
    simpa using List.find?_some hfind
  rw [h.tarfsOpen_eq hpath hlen hroot hfuel, hfind, Option.map_some, Option.some_or]
  simp only [openSlot, hslot, if_pos hguard, if_neg hroot]
  cases m with
  | dir name =>
    have hmem : Member.dir name ∈ members := mem_of_mem_membersAt hx
    obtain ⟨l, rfl⟩ := h.slash _ hmem
    have hname : slashed before (stripped path) = l ++ [47] :=
      (slashed_eq_iff (h.names _ hmem)).2 hnamed
    rw [stripped] at hname
    simp only [Member.type, FileEntry.openDir, FileEntry.openMember, hname]
  | file name content =>
    have hname : name = stripped path := hnamed
    simp only [Member.type, hat.2.getFilesz_eq, found, ok_bind, FileEntry.openFile,
      FileEntry.openMember, hat.2.roundTo512_eq, hname, stripped]

/-- Paths of other numbers of `/`s: the first block of zeros is opened, as a file. -/
theorem tarfsOpen_slashes (hnil : stripped path = []) :
    tarfsOpen img before fuel files path mode =
      .ok (i, Function.update files i
        ((files i).openFile [] mode (img.start + totalSize members) 0)) := by
  have hguard : mode.length < 16 ∧ path.length < fileNameSize :=
    ⟨hmode, hlen.trans (by decide)⟩
  have hfilesz : getFilesz img.mem (img.start + totalSize members) = some 0 := by
    have hlaid := h.laid
    rw [← List.append_nil members, laid_append] at hlaid
    obtain ⟨k, hk, -, hzero⟩ := hlaid.2
    exact (getFilesz_zeros fun j hj => hzero j (by omega)).2.2
  rw [h.tarfsOpen_eq hpath hlen hroot hfuel, hnil, h.lookup_nil]
  rw [stripped] at hnil
  simp only [Option.map_none, Option.none_or, if_true, openSlot, hslot, if_pos hguard, if_neg hroot,
    hnil, hfilesz, found, ok_bind]

end Call

end Tarfs.WellFormed

/-- For every large enough number of headers the call returns a descriptor if the path names something,
and otherwise it returns -1 and leaves the table as it is. -/
def OpensExactly (img : Tarfs) (members : List Member) (before : ℕ) (files : FileTable)
    (path mode : List ℕ) : Prop :=
  ∃ n, ∀ fuel ≥ n,
    (Names members path → ∃ fd ∈ slots, ∃ files' : FileTable,
      tarfsOpen img before fuel files path mode = .ok ((fd : ℤ), files') ∧ (files' fd).free = 1) ∧
    (¬Names members path → tarfsOpen img before fuel files path mode = .ok (-1, files))

theorem mem_slots_of_freeSlot (h : files.freeSlot = some i) : i ∈ slots ∧ (files i).free = 0 :=
  ⟨List.mem_of_find?_eq_some h, by simpa using List.find?_some h⟩

/-- A member with a name is there exactly if the search finds one. -/
theorem lookup_ne_none {start : ℕ} :
    lookup start members n ≠ none ↔ ∃ m ∈ members, m.Named n := by
  rw [lookup, ← Option.isSome_iff_ne_none, List.find?_isSome]
  simp only [decide_eq_true_eq]
  constructor
  · rintro ⟨x, hx, hnamed⟩
    exact ⟨x.2, mem_of_mem_membersAt hx, hnamed⟩
  · rintro ⟨m, hm, hnamed⟩
    obtain ⟨q, hq⟩ := exists_mem_membersAt start hm
    exact ⟨(q, m), hq, hnamed⟩

/-- The empty path names nothing, and any other path without a member has to be one of `/`s. -/
theorem names_iff (start : ℕ) : Names members path ↔
    (path ≠ [] ∧ stripped path = []) ∨ lookup start members (stripped path) ≠ none := by
  rw [Names, lookup_ne_none, stripped_eq_nil]

/-- The empty path names nothing, and is opened as the first block of zeros. -/
theorem not_opensExactly_nil (h : img.WellFormed members) (hmode : mode.length < 16)
    (hi : files.freeSlot = some i) : ¬OpensExactly img members before files [] mode := by
  rintro ⟨n, hopen⟩
  have hnone : ¬Names members [] := by
    rw [names_iff img.start, stripped, List.dropWhile_nil, h.lookup_nil]
    simp
  have hcall := (hopen (max n (img.stop + 1)) (Nat.le_max_left ..)).2 hnone
  rw [h.tarfsOpen_slashes (by simp [IsPath]) (by decide) (by decide) (by omega) hmode hi rfl] at hcall
  have hfd := congrArg Prod.fst (Except.ok.inj hcall)
  simp only at hfd
  omega

/-- **A path of fewer than 63 bytes is opened exactly if it names something, unless it is empty.** -/
theorem open_iff (h : img.WellFormed members) (hpath : IsPath path) (hlen : path.length < 63)
    (hmode : mode.length < 16) (hslot : files.freeSlot ≠ none) :
    OpensExactly img members before files path mode ↔ path ≠ [] := by
  obtain ⟨i, hi⟩ := Option.ne_none_iff_exists'.1 hslot
  have hmem := (mem_slots_of_freeSlot hi).1
  constructor
  · rintro hopen rfl
    exact not_opensExactly_nil h hmode hi hopen
  · intro hne
    refine ⟨img.stop + 1, fun fuel hge => ⟨fun hnames => ?_, fun hnames => ?_⟩⟩
    · suffices ∃ entry : FileEntry, entry.free = 1 ∧
          tarfsOpen img before fuel files path mode = .ok (i, Function.update files i entry) by
        obtain ⟨entry, hfree, heq⟩ := this
        exact ⟨i, hmem, _, heq, by rw [Function.update_self]; exact hfree⟩
      by_cases hroot : IsRoot path
      · exact ⟨_, rfl, tarfsOpen_root hpath hroot hmode hi⟩
      cases hfind : lookup img.start members (stripped path) with
      | some x =>
        obtain ⟨q, m⟩ := x
        refine ⟨_, ?_, h.tarfsOpen_member hpath hlen hroot (by omega) hmode hi hfind⟩
        cases m <;> rfl
      | none =>
        have hnil := (((names_iff img.start).1 hnames).resolve_right (not_not.2 hfind)).2
        exact ⟨_, rfl, h.tarfsOpen_slashes hpath hlen hroot (by omega) hmode hi hnil⟩
    · rw [names_iff img.start, not_or, not_and, not_not] at hnames
      have hroot : ¬IsRoot path := fun hroot => hnames.1 hne (hroot.stripped_eq hpath)
      exact h.tarfsOpen_none hpath hlen hroot (by omega) (hnames.1 hne) hnames.2

end Opening

/-- The path `//bin` names the directory `bin/`. -/
theorem open_iff_bin : Names sampleMembers [47, 47, 98, 105, 110] ∧
    (OpensExactly sampleTarfs sampleMembers 0 (fun _ => FileEntry.zero) [47, 47, 98, 105, 110] [114] ↔
      [47, 47, 98, 105, 110] ≠ []) := by
  refine ⟨.inr ⟨.dir [98, 105, 110, 47], by decide, by decide⟩, ?_⟩
  exact open_iff wellFormed_sampleTarfs (by unfold IsPath; decide) (by decide) (by decide) (by decide)

/-- The empty path. -/
theorem open_fails : ¬∀ (img : Tarfs) (members : List Member) (before : ℕ) (files : FileTable)
    (path mode : List ℕ), img.WellFormed members → IsPath path → path.length < 63 →
      mode.length < 16 → files.freeSlot ≠ none →
      OpensExactly img members before files path mode := by
  intro hall
  have hopen := hall sampleTarfs sampleMembers 0 (fun _ => FileEntry.zero) [] [114]
    wellFormed_sampleTarfs (by simp [IsPath]) (by decide) (by decide) (by decide)
  exact not_opensExactly_nil wellFormed_sampleTarfs (by decide) (i := 3) rfl hopen

end PlumOs
