import PlumOs.Fs.Open
import PlumOs.Lib.Bytes

/-!
# Directories (`sys/syscall.c`)

The archive has no directories but in the names of its members.  `getdents` goes through the archive
behind the header of the directory, and takes the next member with a name that `belongs_to_dir`
accepts; the position of the descriptor is the end of that member.

* `belongsToDir`, `getdents` : the functions of the source;
* `Child` : the members directly in a directory, and `listing`, their names without the directory's;
* `accepted_iff_child` : `belongs_to_dir` accepts these members;
* `Cursor`, `getdents_spec` : **a call returns the next of them**, and the next call goes on behind it.
-/

namespace PlumOs

/-- `sizeof(struct dirent)`; the structure is packed. -/
abbrev direntSize : ℕ := 274

/-- The bytes of a number, the lowest first. -/
def bytesOf (n len : ℕ) : List ℕ := (List.range len).map (byteAt n)

/-- A `struct dirent`: `d_ino`, `d_off`, `d_reclen` and `d_name`, in a page of zeros. -/
def dirent (type : FileType) (dName : List ℕ) : List ℕ :=
  bytesOf (type.toNat + 1) 8 ++ bytesOf direntSize 8 ++ bytesOf direntSize 2 ++
    (dName ++ List.replicate 256 0).take 256

theorem length_dirent (type : FileType) (dName : List ℕ) : (dirent type dName).length = direntSize := by
  have hname : ((dName ++ List.replicate 256 0).take 256).length = 256 := by
    rw [List.length_take, List.length_append, List.length_replicate]
    omega
  simp only [dirent, bytesOf, List.length_append, List.length_map, List.length_range, hname]

/-! ### `belongs_to_dir` and `getdents` -/

/-- The loops of `belongs_to_dir`: 0 if there is no `/`, or the first one is at the end. -/
def belongsLoop : List ℕ → ℤ
  | [] => 0
  | c :: name => if c = 47 then if name = [] then 0 else 1 else belongsLoop name

/-- `belongs_to_dir`: 0 if it does. -/
def belongsToDir (dirname name : List ℕ) : ℤ :=
  if dirname = [] ∨ name = [] then 1
  else if strcmp dirname [47] = 0 then belongsLoop name
  else if strncmp dirname name dirname.length = 0 then belongsLoop (name.drop dirname.length)
  else 1

/-- The bytes of a member with the size `filesz` in the archive, for `getdents`. -/
def dentStep (mem : ℕ → ℕ) (res : ℕ) : FileType → Except FsStop ℕ
  | .dir => .ok tarfsHeader
  | .file => do
    let filesz ← found (getFilesz mem res)
    .ok (roundTo512 filesz + tarfsHeader)

/-- What `getdents` finds for a descriptor of a directory: the type and the name of the next member, and the
table with the position behind it. -/
def nextEntry (img : Tarfs) (before fuel : ℕ) (files : FileTable) (fd : ℤ) :
    Except FsStop (Option (FileType × List ℕ × FileTable)) := do
  let entry := files fd.toNat
  let res ← traverseTarfs img before entry.name belongsToDir fuel ((entry.startAddr + entry.pos) % 2 ^ 64)
  match res with
  | none => .ok none
  | some (type, res) => do
    let step ← dentStep img.mem res type
    let pos := (res + 2 ^ 64 - entry.startAddr + step) % 2 ^ 64
    let name ← found (cstr img.mem res)
    .ok (some (type, name, Function.update files fd.toNat { entry with pos := pos }))

/-- `d_name`, for a member of a directory. -/
def dentName (dirname name : List ℕ) : List ℕ :=
  if strcmp dirname [47] = 0 then name else name.drop dirname.length

/-- `getdents`: the result, the bytes for the user and the table afterwards.  `before` is the byte in
front of `dirname` on the stack, and `copied` says if `copy_from_kernel` succeeds.  With the page of `kbuf`
it is `Vm.sysGetdents`. -/
def getdents (img : Tarfs) (before fuel : ℕ) (files : FileTable) (fd bufSize : ℤ) (copied : Bool) :
    Except FsStop (ℤ × List ℕ × FileTable) :=
  let entry := files fd.toNat
  if (startFd : ℤ) ≤ fd ∧ fd < maxFileNum ∧ entry.type = .dir then do
    let next ← nextEntry img before fuel files fd
    match next with
    | none => .ok (0, [], files)
    | some (type, name, files) =>
      if (direntSize : ℤ) ≤ bufSize ∧ name.length < 256 then
        if copied then .ok (direntSize, dirent type (dentName entry.name name), files)
        else .ok (-1, [], files)
      else .error (.assertFail "getdents")
  else .error (.assertFail "getdents")

/-- Only the position of the descriptor is moved. -/
theorem nextEntry_cases {img : Tarfs} {before fuel : ℕ} {files files' : FileTable} {fd : ℤ}
    {type : FileType} {name : List ℕ}
    (h : nextEntry img before fuel files fd = .ok (some (type, name, files'))) :
    ∃ pos, files' = Function.update files fd.toNat { files fd.toNat with pos := pos } := by
  obtain ⟨res, -, h⟩ := bind_eq_ok.1 h
  cases res with
  | none => cases h
  | some x =>
    obtain ⟨step, -, h⟩ := bind_eq_ok.1 h
    obtain ⟨name', -, h⟩ := bind_eq_ok.1 h
    cases h
    exact ⟨_, rfl⟩

/-- What `getdents` does: nothing at the end of the directory, or it moves behind a member and has an
entry for the user. -/
theorem getdents_cases {img : Tarfs} {before fuel : ℕ} {files files' : FileTable}
    {fd res bufSize : ℤ} {copied : Bool} {bytes : List ℕ}
    (h : getdents img before fuel files fd bufSize copied = .ok (res, bytes, files')) :
    (bytes = [] ∧ files' = files) ∨
    ∃ type name pos,
      files' = Function.update files fd.toNat { files fd.toNat with pos := pos } ∧
      (copied = true → bytes = dirent type (dentName (files fd.toNat).name name)) := by
  rw [getdents] at h
  split at h
  case isFalse => cases h
  obtain ⟨next, hnext, h⟩ := bind_eq_ok.1 h
  cases next with
  | none =>
    cases h
    exact .inl ⟨rfl, rfl⟩
  | some x =>
    obtain ⟨type, name, moved⟩ := x
    obtain ⟨pos, rfl⟩ := nextEntry_cases hnext
    simp only at h
    split at h
    case isFalse => cases h
    cases copied with
    | false =>
      cases h
      exact .inr ⟨type, name, pos, rfl, (fun h => nomatch h)⟩
    | true =>
      cases h
      exact .inr ⟨type, name, pos, rfl, fun _ => rfl⟩

/-! ### The members of a directory -/

/-- One component of a path, with or without a `/` at its end. -/
def Component (r : List ℕ) : Prop := ∃ c, c ≠ [] ∧ 47 ∉ c ∧ (r = c ∨ r = c ++ [47])

theorem component_iff {r : List ℕ} : Component r ↔ r ≠ [] ∧ r ≠ [47] ∧ 47 ∉ r.dropLast := by
  constructor
  · rintro ⟨c, hne, hc, rfl | rfl⟩
    · refine ⟨hne, ?_, fun h => hc (List.mem_of_mem_dropLast h)⟩
      rintro rfl
      exact hc (by simp)
    · simp [hne, hc]
  · rintro ⟨hne, hroot, hslash⟩
    by_cases hlast : r.getLast hne = 47
    · refine ⟨r.dropLast, fun h => hroot ?_, hslash, .inr ?_⟩
      · rw [← List.dropLast_append_getLast hne, h, hlast, List.nil_append]
      · rw [← hlast, List.dropLast_append_getLast]
    · refine ⟨r, hne, fun h => ?_, .inl rfl⟩
      rw [← List.dropLast_append_getLast hne, List.mem_append, List.mem_singleton] at h
      rcases h with h | h
      exacts [hslash h, hlast h.symm]

instance : DecidablePred Component := fun _ => decidable_of_iff _ component_iff.symm

/-- The member is directly in the directory with this name, where the root's is empty. -/
def Child (d : List ℕ) (m : Member) : Prop := d <+: m.name ∧ Component (m.name.drop d.length)

instance (d : List ℕ) : DecidablePred (Child d) := fun m =>
  inferInstanceAs (Decidable (d <+: m.name ∧ Component (m.name.drop d.length)))

/-- The names of the members that are directly in a directory, relative to it. -/
def listing (d : List ℕ) (members : List Member) : List (List ℕ) :=
  (members.filter (Child d)).map fun m => m.name.drop d.length

/-- The name of the root directory is `/`, but members in it have no `/` in front. -/
def dirPrefix (d : List ℕ) : List ℕ := if d = [47] then [] else d

/-- The name of a directory: `/`, or the name of a member with a `/` at its end. -/
def DirName (d : List ℕ) : Prop :=
  d = [47] ∨ ProperName d ∧ IsPath d ∧ ∃ l, d = l ++ [47]

section Names

variable {img : Tarfs} {d r name : List ℕ} {before : ℕ} {m : Member} {pre post : List Member}

theorem DirName.slashed_eq (hd : DirName d) : slashed before d = d := by
  have hlast : ∃ l, d = l ++ [47] := by
    rcases hd with rfl | hd
    exacts [⟨[], rfl⟩, hd.2.2]
  obtain ⟨l, rfl⟩ := hlast
  rw [slashed, List.getLastD_concat, if_pos rfl]

theorem belongsLoop_eq_zero : belongsLoop r = 0 ↔ 47 ∉ r.dropLast := by
  induction r with
  | nil => simp [belongsLoop]
  | cons c r ih =>
    rw [belongsLoop]
    cases r with
    | nil => simp [belongsLoop]
    | cons c' r =>
      rw [List.dropLast_cons_cons, List.mem_cons, not_or, ← ih]
      by_cases hc : c = 47
      · rw [if_pos hc, if_neg (List.cons_ne_nil c' r)]
        simp [hc]
      · rw [if_neg hc]
        exact ⟨fun h => ⟨Ne.symm hc, h⟩, fun h => h.2⟩

/-- `strncmp` with the length of the first string tests for a prefix. -/
theorem strncmp_prefix_iff (hd : IsPath d) (hname : ∀ c ∈ name, c < 256) :
    strncmp d name d.length = 0 ↔ d <+: name := by
  induction d generalizing name with
  | nil =>
    cases name <;> simp [strncmp]
  | cons c d ih =>
    obtain ⟨⟨hzero, hlt⟩, hrest⟩ := List.forall_mem_cons.1 hd
    cases name with
    | nil =>
      have hne : charVal c ≠ 0 := fun h => hzero (charVal_injective hlt (by decide) h)
      rw [List.length_cons, strncmp]
      exact ⟨fun h => absurd h hne, fun h => absurd (List.prefix_nil.1 h) (List.cons_ne_nil c d)⟩
    | cons c' name =>
      rw [List.forall_mem_cons] at hname
      rw [List.length_cons, strncmp, List.cons_prefix_cons]
      by_cases hcc : c = c'
      · rw [if_pos hcc, ih hrest hname.2]
        exact ⟨fun h => ⟨hcc, h⟩, fun h => h.2⟩
      · have hne : charVal c - charVal c' ≠ 0 := fun h =>
          hcc (charVal_injective hlt hname.1 (Int.sub_eq_zero.1 h))
        rw [if_neg hcc]
        exact ⟨fun h => absurd h hne, fun h => absurd h.1 hcc⟩

/-- What `belongs_to_dir` tests. -/
theorem belongsToDir_eq_zero (hd : DirName d) (hne : name ≠ []) (hname : ∀ c ∈ name, c < 256) :
    belongsToDir d name = 0 ↔
      dirPrefix d <+: name ∧ 47 ∉ (name.drop (dirPrefix d).length).dropLast := by
  rw [belongsToDir, dirPrefix]
  by_cases hroot : d = [47]
  · subst hroot
    rw [if_neg (by simp [hne]), if_pos (by decide), if_pos rfl, belongsLoop_eq_zero]
    simp
  · obtain ⟨hproper, hpath, -⟩ := hd.resolve_left hroot
    have hcmp : strcmp d [47] ≠ 0 := fun h =>
      hroot ((strcmp_eq_zero (fun c hc => (hpath c hc).2) (by decide)).1 h)
    rw [if_neg (by simp [hne, hproper.nonempty]), if_neg hcmp, if_neg hroot]
    by_cases hpre : d <+: name
    · rw [if_pos ((strncmp_prefix_iff hpath hname).2 hpre), belongsLoop_eq_zero]
      exact ⟨fun h => ⟨hpre, h⟩, fun h => h.2⟩
    · rw [if_neg (mt (strncmp_prefix_iff hpath hname).1 hpre)]
      exact ⟨fun h => absurd h (by decide), fun h => absurd h.1 hpre⟩

/-- **`belongs_to_dir` accepts the members in the directory**, of those with another name. -/
theorem accepted_iff_child (hd : DirName d) (hproper : ProperName m.name)
    (hname : ∀ c ∈ m.name, c < 256) (hne : m.name ≠ d) :
    m.Accepted before d belongsToDir ↔ Child (dirPrefix d) m := by
  have hacc : m.Accepted before d belongsToDir ↔ belongsToDir d m.name = 0 := by
    cases m with
    | dir name => rw [Member.Accepted, hd.slashed_eq]; rfl
    | file name content => rfl
  rw [hacc, belongsToDir_eq_zero hd hproper.nonempty hname, Child, component_iff]
  refine ⟨fun h => ⟨h.1, ?_, ?_, h.2⟩, fun h => ⟨h.1, h.2.2.2⟩⟩
  all_goals
    intro hdrop
    obtain ⟨r, hr⟩ := h.1
    rw [← hr, List.drop_left] at hdrop
    subst hdrop
    rw [dirPrefix] at hr
    split at hr
  · exact hproper.nonempty hr.symm
  · exact hne (by rw [← hr, List.append_nil])
  · exact hproper.relative (by rw [← hr]; rfl)
  · rename_i hroot
    obtain ⟨-, -, l, rfl⟩ := hd.resolve_left hroot
    exact hproper.components ⟨l, [], by rw [← hr]; simp⟩

theorem listing_split (hpre : ∀ x ∈ pre, ¬Child d x) (hm : Child d m) :
    listing d (pre ++ m :: post) = m.name.drop d.length :: listing d post := by
  have hnil : pre.filter (Child d) = [] := by
    simpa [List.filter_eq_nil_iff] using hpre
  rw [listing, List.filter_append, hnil, List.nil_append, List.filter_cons, if_pos (by simpa using hm)]
  rfl

theorem listing_nil (h : ∀ x ∈ post, ¬Child d x) : listing d post = [] := by
  have hnil : post.filter (Child d) = [] := by
    simpa [List.filter_eq_nil_iff] using h
  rw [listing, hnil, List.map_nil]

end Names

/-! ### Successive calls -/

/-- The descriptor of the directory `d` is at these members. -/
structure Cursor (img : Tarfs) (d : List ℕ) (entry : FileEntry) (members : List Member) : Prop where
  dir : entry.type = .dir
  name : entry.name = d
  laid : Laid img (entry.startAddr + entry.pos) members
  others : ∀ m ∈ members, ProperName m.name ∧ IsPath m.name ∧ m.name ≠ d

/-- The cursor of a descriptor has moved behind the next member in the directory, which has this name
there. -/
structure Advances (img : Tarfs) (d : List ℕ) (fd : ℤ) (files : FileTable) (members : List Member)
    (name : List ℕ) (files' : FileTable) (post : List Member) : Prop where
  listing : listing (dirPrefix d) members = name :: listing (dirPrefix d) post
  path : IsPath name
  short : name.length < 256
  shorter : post.length < members.length
  forward : (files fd.toNat).startAddr + (files fd.toNat).pos ≤
    (files' fd.toNat).startAddr + (files' fd.toNat).pos
  cursor : Cursor img d (files' fd.toNat) post

section Getdents

variable {img : Tarfs} {d : List ℕ} {before fuel p : ℕ} {fd bufSize : ℤ} {files : FileTable}
  {members pre post : List Member} {m : Member} {checker : List ℕ → List ℕ → ℤ} {filename : List ℕ}

/-- The first member that is accepted, with its address. -/
theorem find_membersAt {P : Member → Prop} [DecidablePred P] (hpre : ∀ x ∈ pre, ¬P x) (hm : P m) :
    ((membersAt p (pre ++ m :: post)).find? fun x => P x.2) = some (p + totalSize pre, m) := by
  have hnone : ((membersAt p pre).find? fun x => P x.2) = none := by
    refine List.find?_eq_none.2 fun x hx => ?_
    simpa using hpre x.2 (mem_of_mem_membersAt hx)
  rw [membersAt_append, List.find?_append, hnone, Option.none_or, membersAt,
    List.find?_cons_of_pos (by simpa using hm)]

/-- **What a traversal finds**: nothing, or the first member that is accepted. -/
theorem traverse_first (before : ℕ) (h : Laid img p members)
    (hlen : ∀ m ∈ members, m.name.length < 2 ^ 64) (hbuf : (slashed before filename).length < nameSize)
    (hstop : img.stop < 2 ^ 64) (hfuel : img.stop < p + 512 * fuel) (hzero : checker filename [] ≠ 0) :
    ((∀ x ∈ members, ¬x.Accepted before filename checker) ∧
      traverseTarfs img before filename checker fuel p = .ok none) ∨
    ∃ pre m post, members = pre ++ m :: post ∧ (∀ x ∈ pre, ¬x.Accepted before filename checker) ∧
      m.Accepted before filename checker ∧
      traverseTarfs img before filename checker fuel p = .ok (some (m.type, p + totalSize pre)) := by
  rw [traverse_laid h hlen hbuf hstop hfuel, if_neg hzero, Option.or_none]
  cases hfind : members.find? (Member.Accepted before filename checker) with
  | none =>
    have hnone : ∀ x ∈ members, ¬x.Accepted before filename checker := by
      simpa using List.find?_eq_none.1 hfind
    refine .inl ⟨hnone, ?_⟩
    rw [List.find?_eq_none.2 fun x hx => ?_, Option.map_none]
    simpa using hnone x.2 (mem_of_mem_membersAt hx)
  | some m =>
    obtain ⟨hm, pre, post, rfl, hpre⟩ := List.find?_eq_some_iff_append.1 hfind
    replace hm : m.Accepted before filename checker := by simpa using hm
    replace hpre : ∀ x ∈ pre, ¬x.Accepted before filename checker := by simpa using hpre
    refine .inr ⟨pre, m, post, rfl, hpre, hm, ?_⟩
    rw [find_membersAt hpre hm, Option.map_some]

/-- The bytes of a member are skipped. -/
theorem dentStep_eq (h : m.At img.mem p) : dentStep img.mem p m.type = .ok m.size := by
  cases m with
  | dir name => rfl
  | file name content =>
    rw [Member.type, dentStep, h.2.getFilesz_eq]
    simp only [found, ok_bind, h.2.roundTo512_eq, Member.size, Nat.add_comm]

/-- The name in the directory entry. -/
theorem DirName.dName_eq (hd : DirName d) (name : List ℕ) :
    dentName d name = name.drop (dirPrefix d).length := by
  rw [dentName, dirPrefix]
  by_cases hroot : d = [47]
  · rw [if_pos hroot, if_pos (by rw [hroot]; decide), List.length_nil, List.drop_zero]
  · have hbytes : ∀ c ∈ d, c < 256 := fun c hc => ((hd.resolve_left hroot).2.1 c hc).2
    rw [if_neg hroot, if_neg (mt (strcmp_eq_zero hbytes (by decide)).1 hroot)]

section Found

variable (hstop : img.stop < 2 ^ 64) (hfd : fd.toNat ∈ slots) (htype : (files fd.toNat).type = .dir)

include hstop hfd htype

/-- The assertion of `getdents` holds, and the position does not wrap around. -/
theorem getdents_guard (h : Laid img ((files fd.toNat).startAddr + (files fd.toNat).pos) members) :
    (((3 : ℕ) : ℤ) ≤ fd ∧ fd < (20 : ℕ) ∧ (files fd.toNat).type = .dir) ∧
      ((files fd.toNat).startAddr + (files fd.toNat).pos) % 2 ^ 64 =
        (files fd.toNat).startAddr + (files fd.toNat).pos := by
  have hrange : 3 ≤ fd.toNat ∧ fd.toNat < 20 := mem_slots.1 hfd
  have hge := h.stop_ge
  exact ⟨⟨by omega, by omega, htype⟩, Nat.mod_eq_of_lt (by omega)⟩

/-- A call at the end of the directory. -/
theorem getdents_none (h : Laid img ((files fd.toNat).startAddr + (files fd.toNat).pos) members)
    (hwalk : traverseTarfs img before (files fd.toNat).name belongsToDir fuel
      ((files fd.toNat).startAddr + (files fd.toNat).pos) = .ok none) :
    getdents img before fuel files fd bufSize true = .ok (0, [], files) := by
  obtain ⟨hguard, hmod⟩ := getdents_guard hstop hfd htype h
  rw [getdents, nextEntry]
  simp only [if_pos hguard, hmod, hwalk, ok_bind]

/-- A call that finds a member: its entry is for the user, and the position is behind it. -/
theorem getdents_found
    (h : Laid img ((files fd.toNat).startAddr + (files fd.toNat).pos) (pre ++ m :: post))
    (hname : m.name.length < 256) (hbuf : (direntSize : ℤ) ≤ bufSize)
    (hwalk : traverseTarfs img before (files fd.toNat).name belongsToDir fuel
      ((files fd.toNat).startAddr + (files fd.toNat).pos) =
        .ok (some (m.type, (files fd.toNat).startAddr + (files fd.toNat).pos + totalSize pre))) :
    getdents img before fuel files fd bufSize true = .ok (direntSize,
      dirent m.type (dentName (files fd.toNat).name m.name),
      Function.update files fd.toNat
        { files fd.toNat with pos := (files fd.toNat).pos + totalSize pre + m.size }) := by
  obtain ⟨hguard, hmod⟩ := getdents_guard hstop hfd htype h
  obtain ⟨hat, hrest⟩ := (laid_append.1 h).2
  have hend := hrest.stop_ge
  have hpos : ((files fd.toNat).startAddr + (files fd.toNat).pos + totalSize pre + 2 ^ 64 -
      (files fd.toNat).startAddr + m.size) % 2 ^ 64 =
        (files fd.toNat).pos + totalSize pre + m.size := by omega
  rw [getdents, nextEntry]
  simp only [if_pos hguard, hmod, hwalk, ok_bind, dentStep_eq hat, hpos,
    hat.strAt.cstr_eq (hname.trans (by decide)), found, if_pos (And.intro hbuf hname), if_true]

end Found

/-- What the traversal of `getdents` finds. -/
theorem Cursor.traverse (before : ℕ) {entry : FileEntry} (h : Cursor img d entry members) (hd : DirName d)
    (hlen : d.length < nameSize) (hstop : img.stop < 2 ^ 64)
    (hfuel : img.stop < entry.startAddr + entry.pos + 512 * fuel) :
    ((∀ x ∈ members, ¬Child (dirPrefix d) x) ∧
      traverseTarfs img before d belongsToDir fuel (entry.startAddr + entry.pos) = .ok none) ∨
    ∃ pre m post, members = pre ++ m :: post ∧ (∀ x ∈ pre, ¬Child (dirPrefix d) x) ∧
      Child (dirPrefix d) m ∧
      traverseTarfs img before d belongsToDir fuel (entry.startAddr + entry.pos) =
        .ok (some (m.type, entry.startAddr + entry.pos + totalSize pre)) := by
  have hshort : ∀ m ∈ members, m.name.length < 2 ^ 64 := fun m hm =>
    (h.others m hm).1.short.trans (by decide)
  have hacc : ∀ m ∈ members, m.Accepted before d belongsToDir ↔ Child (dirPrefix d) m := fun m hm =>
    have hother := h.others m hm
    accepted_iff_child hd hother.1 (fun c hc => (hother.2.1 c hc).2) hother.2.2
  have hbuf : (slashed before d).length < nameSize := by
    rw [hd.slashed_eq]
    exact hlen
  have hzero : belongsToDir d [] ≠ 0 := by simp [belongsToDir]
  rcases traverse_first before h.laid hshort hbuf hstop hfuel hzero with
    ⟨hnone, hwalk⟩ | ⟨pre, m, post, rfl, hpre, hm, hwalk⟩
  · exact .inl ⟨fun x hx => mt (hacc x hx).2 (hnone x hx), hwalk⟩
  · refine .inr ⟨pre, m, post, rfl, fun x hx => ?_, (hacc m (by simp)).1 hm, hwalk⟩
    exact mt (hacc x (List.mem_append_left _ hx)).2 (hpre x hx)

/-- **One call**: the end of the directory, or the next member in it. -/
theorem getdents_spec (before : ℕ) (h : Cursor img d (files fd.toNat) members) (hd : DirName d)
    (hlen : d.length < nameSize) (hstop : img.stop < 2 ^ 64) (hfd : fd.toNat ∈ slots)
    (hbuf : (direntSize : ℤ) ≤ bufSize)
    (hfuel : img.stop < (files fd.toNat).startAddr + (files fd.toNat).pos + 512 * fuel) :
    (listing (dirPrefix d) members = [] ∧
      getdents img before fuel files fd bufSize true = .ok (0, [], files)) ∨
    ∃ type name files' post, Advances img d fd files members name files' post ∧
      getdents img before fuel files fd bufSize true =
        .ok (direntSize, dirent type name, files') := by
  obtain rfl := h.name
  rcases h.traverse before hd hlen hstop hfuel with
    ⟨hnone, hwalk⟩ | ⟨pre, m, post, rfl, hpre, hm, hwalk⟩
  · exact .inl ⟨listing_nil hnone, getdents_none hstop hfd h.dir h.laid hwalk⟩
  · obtain ⟨hat, hrest⟩ := (laid_append.1 h.laid).2
    obtain ⟨hproper, hpath, -⟩ := h.others m (by simp)
    have hshort := hproper.short
    refine .inr ⟨m.type, m.name.drop (dirPrefix (files fd.toNat).name).length,
      Function.update files fd.toNat { files fd.toNat with
        pos := (files fd.toNat).pos + totalSize pre + m.size }, post, ?_, ?_⟩
    · refine ⟨listing_split hpre hm, fun c hc => hpath c (List.mem_of_mem_drop hc), ?_, ?_, ?_, ?_⟩
      · rw [List.length_drop]
        omega
      · rw [List.length_append, List.length_cons]
        omega
      · rw [Function.update_self]
        show _ + _ ≤ (files fd.toNat).startAddr + ((files fd.toNat).pos + totalSize pre + m.size)
        omega
      · rw [Function.update_self]
        refine ⟨h.dir, rfl, ?_, fun x hx => h.others x (by simp [hx])⟩
        simpa only [Nat.add_assoc] using hrest
    · rw [getdents_found hstop hfd h.dir h.laid (hshort.trans (by decide)) hbuf hwalk, hd.dName_eq]

end Getdents

end PlumOs
