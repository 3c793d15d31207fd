import PlumOs.Fs.Descriptors

/-!
# Listing a directory (`libc/dir.c`)

`readdir` keeps a buffer for the entries that `getdents` returns, and takes one entry after the other
out of it.  Each call of `getdents` returns one entry only, so the buffer is read again each time.

* `opendir`, `readdir` : the functions of the source, with the bytes of the buffer;
* `readdirAll` : the names up to the first call that returns `NULL`;
* `Tidy` : each directory is in the archive before its members, and names are unique and short;
* `listing_exact` : **the names are those of the members in the directory**, in the archive's order and
  each once.
-/

namespace PlumOs

/-! ### `opendir` and `readdir` -/

/-- `DIR`, with the bytes that `dd_buf` points to. -/
structure Dir where
  /-- The descriptor. -/
  ddFd : ℤ
  /-- The place of the next entry in the buffer. -/
  ddLoc : ℤ
  /-- `dd_seek`. -/
  ddSeek : ℤ
  /-- The buffer. -/
  ddBuf : List ℕ
  /-- The size of the buffer. -/
  ddLen : ℤ
  /-- What the last call of `getdents` returned. -/
  ddSize : ℤ
  deriving DecidableEq, Repr

/-- `opendir`.  `dirp` and `ddBuf` are the blocks that the two calls of `malloc` return, with what was
in them. -/
def opendir (img : Tarfs) (before fuel : ℕ) (files : FileTable) (name : List ℕ) (dirp : Option Dir)
    (ddBuf : Option (List ℕ)) : Except FsStop (Option Dir × FileTable) := do
  let (fd, files) ← tarfsOpen img before fuel files name [114]
  if fd = -1 then .ok (none, files)
  else
    match dirp, ddBuf with
    | some dirp, some ddBuf =>
      .ok (some { dirp with ddBuf := ddBuf, ddLen := 512, ddFd := fd, ddLoc := 0, ddSeek := 0 }, files)
    | _, _ => do
      let files ← close files fd
      .ok (none, files)

namespace Dir

/-- The number in some bytes of the buffer. -/
def number (dirp : Dir) (off len : ℕ) : ℕ :=
  packBytes ((List.range len).map fun i => dirp.ddBuf.getD (off + i) 0)

/-- `d_ino` of the entry at an offset of the buffer. -/
def dIno (dirp : Dir) (dp : ℕ) : ℕ := dirp.number dp 8

/-- `d_reclen`. -/
def dReclen (dirp : Dir) (dp : ℕ) : ℕ := dirp.number (dp + 16) 2

/-- `d_name`, up to the 0. -/
def dName (dirp : Dir) (dp : ℕ) : Option (List ℕ) :=
  cstr (fun i => dirp.ddBuf.getD i 0) (dp + 18)

/-- What `getdents` leaves in the buffer. -/
def fill (dirp : Dir) (size : ℤ) (bytes : List ℕ) : Dir :=
  { dirp with ddSize := size, ddBuf := bytes ++ dirp.ddBuf.drop bytes.length }

end Dir

/-- How a round of the loop of `readdir` ends. -/
inductive Round where
  | null
  | again
  | entry (dp : ℕ)
  deriving DecidableEq, Repr

/-- The first part of a round: an empty buffer is filled.  The round ends here if there is no entry. -/
def refill (img : Tarfs) (before fuel : ℕ) (copied : Bool) (files : FileTable) (dirp : Dir) :
    Except FsStop (Bool × FileTable × Dir) :=
  if dirp.ddLoc = 0 then do
    let (size, bytes, files) ← getdents img before fuel files dirp.ddFd dirp.ddLen copied
    .ok (0 < size, files, dirp.fill size bytes)
  else .ok (true, files, dirp)

/-- The second part: the entry at the position. -/
def takeEntry (dirp : Dir) : Round × Dir :=
  if dirp.ddSize ≤ dirp.ddLoc then (.again, { dirp with ddLoc := 0 })
  else
    let dp := dirp.ddLoc.toNat
    if dirp.dReclen dp = 0 ∨ dirp.ddLen + 1 - dirp.ddLoc < dirp.dReclen dp then (.null, dirp)
    else
      (if dirp.dIno dp = 0 then .again else .entry dp,
        { dirp with ddLoc := dirp.ddLoc + dirp.dReclen dp })

/-- `readdir`, with at most `rounds` rounds of its loop: the offset of the entry in the buffer, or
`none` for `NULL`. -/
def readdir (img : Tarfs) (before fuel : ℕ) (copied : Bool) :
    ℕ → FileTable → Dir → Except FsStop (Option ℕ × FileTable × Dir)
  | 0, _, _ => .error .loop
  | rounds + 1, files, dirp => do
    let (more, files, dirp) ← refill img before fuel copied files dirp
    if more then
      match takeEntry dirp with
      | (.null, dirp) => .ok (none, files, dirp)
      | (.again, dirp) => readdir img before fuel copied rounds files dirp
      | (.entry dp, dirp) => .ok (some dp, files, dirp)
    else .ok (none, files, dirp)

/-- The names of the entries that at most `calls` calls of `readdir` return, up to `NULL`. -/
def readdirAll (img : Tarfs) (before fuel : ℕ) (copied : Bool) (rounds : ℕ) :
    ℕ → FileTable → Dir → Except FsStop (List (List ℕ))
  | 0, _, _ => .error .loop
  | calls + 1, files, dirp => do
    match ← readdir img before fuel copied rounds files dirp with
    | (none, _, _) => .ok []
    | (some dp, files, dirp) =>
      let name ← found (dirp.dName dp)
      let names ← readdirAll img before fuel copied rounds calls files dirp
      .ok (name :: names)

/-! ### The entry in the buffer -/

section Buffer

variable {dirp : Dir} {type : FileType} {name pre mid post : List ℕ}

/-- The bytes of a number make up the number. -/
theorem packBytes_bytesOf (n len : ℕ) : packBytes (bytesOf n len) = n % 256 ^ len := by
  induction len generalizing n with
  | zero => rw [Nat.pow_zero, Nat.mod_one]; rfl
  | succ len ih =>
    have htail : bytesOf n (len + 1) = n % 256 :: bytesOf (n / 256) len := by
      rw [bytesOf, List.range_succ_eq_map, List.map_cons, List.map_map, bytesOf, byteAt, Nat.pow_zero,
        Nat.div_one]
      refine congrArg _ (List.map_congr_left fun k _ => ?_)
      rw [Function.comp_apply, byteAt, byteAt, Nat.pow_succ', Nat.div_div_eq_div_mul]
    rw [htail, packBytes, ih, Nat.pow_succ', Nat.mod_mul, Nat.mod_mod]

theorem length_bytesOf (n len : ℕ) : (bytesOf n len).length = len := by
  rw [bytesOf, List.length_map, List.length_range]

/-- The bytes of the buffer behind some others. -/
theorem getD_middle {i : ℕ} (hi : i < mid.length) :
    (pre ++ (mid ++ post)).getD (pre.length + i) 0 = mid.getD i 0 := by
  rw [List.getD_append_right _ _ _ _ (Nat.le_add_right ..), Nat.add_sub_cancel_left,
    List.getD_append _ _ _ _ hi]

/-- A number in the buffer. -/
theorem number_eq {n len : ℕ} (h : dirp.ddBuf = pre ++ (bytesOf n len ++ post))
    (hn : n < 256 ^ len) : dirp.number pre.length len = n := by
  have hbytes : (List.range len).map (fun i => dirp.ddBuf.getD (pre.length + i) 0) = bytesOf n len := by
    refine List.ext_getElem (by simp [length_bytesOf]) fun i h₁ h₂ => ?_
    rw [List.getElem_map, List.getElem_range, h, getD_middle h₂, List.getD_eq_getElem _ _ h₂]
  rw [Dir.number, hbytes, packBytes_bytesOf, Nat.mod_eq_of_lt hn]

/-- The length of an entry. -/
theorem dReclen_fill (size : ℤ) : (dirp.fill size (dirent type name)).dReclen 0 = direntSize := by
  have hbuf : (dirp.fill size (dirent type name)).ddBuf =
      (bytesOf (type.toNat + 1) 8 ++ bytesOf direntSize 8) ++ (bytesOf direntSize 2 ++
        ((name ++ List.replicate 256 0).take 256 ++
          dirp.ddBuf.drop (dirent type name).length)) := by
    simp only [Dir.fill, dirent, List.append_assoc]
  have hpre : (bytesOf (type.toNat + 1) 8 ++ bytesOf direntSize 8).length = 0 + 16 := by
    simp only [List.length_append, length_bytesOf]
  rw [Dir.dReclen, ← hpre]
  exact number_eq hbuf (by decide)

/-- The type of an entry. -/
theorem dIno_fill (size : ℤ) : (dirp.fill size (dirent type name)).dIno 0 = type.toNat + 1 := by
  have hbuf : (dirp.fill size (dirent type name)).ddBuf =
      [] ++ (bytesOf (type.toNat + 1) 8 ++ (bytesOf direntSize 8 ++ (bytesOf direntSize 2 ++
        ((name ++ List.replicate 256 0).take 256 ++
          dirp.ddBuf.drop (dirent type name).length)))) := by
    simp only [Dir.fill, dirent, List.append_assoc, List.nil_append]
  have hlt : type.toNat + 1 < 256 ^ 8 := by cases type <;> decide
  rw [Dir.dIno, ← List.length_nil]
  exact number_eq hbuf hlt

/-- The name of an entry. -/
theorem dName_fill (size : ℤ) (hname : ∀ c ∈ name, c ≠ 0) (hlen : name.length < 256) :
    (dirp.fill size (dirent type name)).dName 0 = some name := by
  have hbuf : (dirp.fill size (dirent type name)).ddBuf =
      (bytesOf (type.toNat + 1) 8 ++ bytesOf direntSize 8 ++ bytesOf direntSize 2) ++
        ((name ++ List.replicate 256 0).take 256 ++
          dirp.ddBuf.drop (dirent type name).length) := by
    simp only [Dir.fill, dirent, List.append_assoc]
  have hpre : (bytesOf (type.toNat + 1) 8 ++ bytesOf direntSize 8 ++ bytesOf direntSize 2).length =
      18 := by
    simp only [List.length_append, length_bytesOf]
  have hfull : ((name ++ List.replicate 256 0).take 256).length = 256 := by
    rw [List.length_take, List.length_append, List.length_replicate]
    omega
  refine StrAt.cstr_eq (strAt_of_getD 256 hname hlen fun i hi => ?_)
    (hlen.trans (by decide))
  rw [hbuf, Nat.zero_add, ← hpre, getD_middle (by omega), List.getD_eq_getElem _ _ (by omega),
    List.getElem_take]
  by_cases hin : i < name.length
  · rw [List.getElem_append_left hin, List.getD_eq_getElem _ _ hin]
  · rw [List.getElem_append_right (Nat.le_of_not_lt hin), List.getElem_replicate,
      List.getD_eq_default _ _ (Nat.le_of_not_lt hin)]

end Buffer

/-! ### The names that are returned -/

/-- `readdir` has taken all that is in the buffer. -/
structure Dir.Drained (dirp : Dir) (fd : ℤ) : Prop where
  fd : dirp.ddFd = fd
  len : dirp.ddLen = 512
  loc : dirp.ddLoc = 0 ∨ dirp.ddSize ≤ dirp.ddLoc

/-- No member is in a directory that comes later in the archive, no two members have the same name, and
the names are short. -/
structure Tidy (members : List Member) : Prop where
  /-- The names are short enough for `open`. -/
  short : ∀ m ∈ members, m.name.length < 63
  /-- No name is there twice. -/
  unique : (members.map Member.name).Nodup
  /-- A directory is in front of what is in it. -/
  parents : members.Pairwise fun m m' => m'.type = .dir → ¬Child m'.name m

section Readdir

variable {img : Tarfs} {d : List ℕ} {before fuel rounds calls q : ℕ} {fd : ℤ} {files : FileTable}
  {dirp : Dir} {members pre post : List Member} {m : Member}

/-- The names on both sides of a member are other names. -/
theorem Tidy.unique_at (ht : Tidy members) (hm : members = pre ++ m :: post) :
    (pre.map Member.name ++ m.name :: post.map Member.name).Nodup := by
  have hnodup := ht.unique
  rwa [hm, List.map_append, List.map_cons] at hnodup

section Calls

variable {type : FileType} {name : List ℕ} {files' : FileTable} (hdir : dirp.Drained fd)

include hdir

/-- If an entry is left from the call before, the first round only sets the position back. -/
theorem readdir_again (img : Tarfs) (before fuel rounds : ℕ) (files : FileTable) :
    ∃ dirp' : Dir, dirp'.Drained fd ∧ dirp'.ddLoc = 0 ∧ ∃ rounds',
      readdir img before fuel true (rounds + 2) files dirp =
        readdir img before fuel true (rounds' + 1) files dirp' := by
  by_cases hloc : dirp.ddLoc = 0
  · exact ⟨dirp, hdir, hloc, rounds + 1, rfl⟩
  · have hsize := hdir.loc.resolve_left hloc
    refine ⟨{ dirp with ddLoc := 0 }, ⟨hdir.fd, hdir.len, .inl rfl⟩, rfl, rounds, ?_⟩
    rw [readdir, refill, if_neg hloc]
    simp only [ok_bind, if_true, takeEntry, if_pos hsize]

/-- A call of `readdir` at the end of the directory. -/
theorem readdir_none (rounds : ℕ)
    (hcall : getdents img before fuel files fd 512 true = .ok (0, [], files)) :
    ∃ dirp', readdir img before fuel true (rounds + 2) files dirp = .ok (none, files, dirp') := by
  obtain ⟨dirp', hdir', hloc, rounds', hagain⟩ :=
    readdir_again hdir img before fuel rounds files
  refine ⟨dirp'.fill 0 [], ?_⟩
  rw [hagain, readdir, refill, if_pos hloc, hdir'.fd, hdir'.len, hcall]
  rfl

/-- A call of `readdir` that finds a member: the entry is at the start of the buffer. -/
theorem readdir_entry (rounds : ℕ) (hname : ∀ c ∈ name, c ≠ 0) (hshort : name.length < 256)
    (hcall : getdents img before fuel files fd 512 true =
      .ok (direntSize, dirent type name, files')) :
    ∃ dirp', readdir img before fuel true (rounds + 2) files dirp = .ok (some 0, files', dirp') ∧
      dirp'.dName 0 = some name ∧ dirp'.Drained fd := by
  obtain ⟨dirp', hdir', hloc, rounds', hagain⟩ :=
    readdir_again hdir img before fuel rounds files
  obtain ⟨full, hfull⟩ : ∃ full, full = dirp'.fill direntSize (dirent type name) := ⟨_, rfl⟩
  have hreclen : full.dReclen 0 = direntSize := by rw [hfull, dReclen_fill]
  have hino : full.dIno 0 = type.toNat + 1 := by rw [hfull, dIno_fill]
  have hdname : full.dName 0 = some name := by rw [hfull, dName_fill _ hname hshort]
  have hloc' : full.ddLoc = 0 := by rw [hfull]; exact hloc
  have hsize : full.ddSize = direntSize := by rw [hfull]; rfl
  have hlen' : full.ddLen = 512 := by rw [hfull]; exact hdir'.len
  have htake : takeEntry full = (.entry 0, { full with ddLoc := direntSize }) := by
    rw [takeEntry, hloc', hsize, hlen', if_neg (by decide), Int.toNat_zero]
    simp only [hreclen, hino]
    rw [if_neg (by decide), if_neg (Nat.succ_ne_zero _), Int.zero_add]
  refine ⟨{ full with ddLoc := direntSize }, ?_, hdname,
    ⟨by rw [hfull]; exact hdir'.fd, hlen', .inr (by rw [hsize])⟩⟩
  rw [hagain, readdir, refill, if_pos hloc, hdir'.fd, hdir'.len, hcall]
  simp only [ok_bind, ← hfull]
  rw [if_pos (show decide (0 < (direntSize : ℤ)) = true from rfl), htake]

/-- **One call of `readdir`.** -/
theorem readdir_spec (h : Cursor img d (files fd.toNat) members) (hd : DirName d)
    (hlen : d.length < nameSize) (hstop : img.stop < 2 ^ 64) (hfd : fd.toNat ∈ slots)
    (hfuel : img.stop < (files fd.toNat).startAddr + (files fd.toNat).pos + 512 * fuel)
    (before rounds : ℕ) :
    (listing (dirPrefix d) members = [] ∧
      ∃ dirp', readdir img before fuel true (rounds + 2) files dirp = .ok (none, files, dirp')) ∨
    ∃ name files' post dirp', Advances img d fd files members name files' post ∧
      readdir img before fuel true (rounds + 2) files dirp = .ok (some 0, files', dirp') ∧
      dirp'.dName 0 = some name ∧ dirp'.Drained fd := by
  have hbuf : (direntSize : ℤ) ≤ 512 := by decide
  rcases getdents_spec before h hd hlen hstop hfd hbuf hfuel with
    ⟨hnil, hcall⟩ | ⟨type, name, files', post, hadv, hcall⟩
  · exact .inl ⟨hnil, readdir_none hdir rounds hcall⟩
  · obtain ⟨dirp', hread, hname, hdir'⟩ :=
      readdir_entry hdir rounds (fun c hc => (hadv.path c hc).1) hadv.short hcall
    exact .inr ⟨name, files', post, dirp', hadv, hread, hname, hdir'⟩

end Calls

/-- **The calls up to the end of the directory** return the names of the members in it. -/
theorem readdirAll_eq (h : Cursor img d (files fd.toNat) members) (hd : DirName d)
    (hlen : d.length < nameSize) (hstop : img.stop < 2 ^ 64) (hfd : fd.toNat ∈ slots)
    (hfuel : img.stop < (files fd.toNat).startAddr + (files fd.toNat).pos + 512 * fuel)
    (hdir : dirp.Drained fd) (hrounds : 2 ≤ rounds) (hcalls : members.length < calls) :
    readdirAll img before fuel true rounds calls files dirp =
      .ok (listing (dirPrefix d) members) := by
  obtain ⟨rounds, rfl⟩ := Nat.exists_eq_add_of_le' hrounds
  induction calls generalizing files dirp members with
  | zero => exact absurd hcalls (Nat.not_lt_zero _)
  | succ calls ih =>
    rw [readdirAll]
    rcases readdir_spec hdir h hd hlen hstop hfd hfuel before rounds with
      ⟨hnil, dirp', hcall⟩ | ⟨name, files', post, dirp', hadv, hcall, hname, hdir'⟩
    · rw [hcall, hnil]
      rfl
    · have hshorter := hadv.shorter
      have hforward := hadv.forward
      rw [hcall, hadv.listing]
      simp only [ok_bind, hname, found, ih hadv.cursor (by omega) hdir' (by omega)]

/-- The new descriptor is in front of the members of the directory. -/
structure OpensDir (img : Tarfs) (members : List Member) (d : List ℕ) (entry : FileEntry)
    (rest : List Member) : Prop where
  cursor : Cursor img d entry rest
  listing : listing (dirPrefix d) rest = listing (dirPrefix d) members
  length : rest.length ≤ members.length
  start : img.start ≤ entry.startAddr + entry.pos

namespace Tarfs.WellFormed

variable (h : img.WellFormed members)

include h

theorem isPath (hm : m ∈ members) : IsPath m.name := by
  obtain ⟨q, hq⟩ := exists_mem_membersAt img.start hm
  exact fun c hc => ⟨(h.laid.at hq).strAt.nonzero c hc, h.nameBytes hm c hc⟩

/-- The root directory is opened in front of all members. -/
theorem opensDir_root {entry : FileEntry} (hpos : entry.pos = 0) (mode : List ℕ) :
    OpensDir img members [47] (entry.openRoot img mode) members where
  cursor :=
    { dir := rfl
      name := rfl
      laid := by
        rw [FileEntry.openRoot, hpos]
        exact h.laid
      others := fun m hm => by
        refine ⟨h.names m hm, h.isPath hm, fun hroot => ?_⟩
        exact (h.names m hm).relative (by rw [hroot]; rfl) }
  listing := rfl
  length := Nat.le_refl _
  start := Nat.le_add_right ..

variable (ht : Tidy members)

include ht

/-- No other member has the name of the directory, and none would be taken for it. -/
theorem lookup_dir (hm : members = pre ++ .dir d :: post) :
    lookup img.start members d = some (img.start + totalSize pre, .dir d) := by
  have hpre : ∀ x ∈ pre, ¬x.Named d := by
    intro x hx hnamed
    have hmem : x ∈ members := by
      rw [hm]
      exact List.mem_append_left _ hx
    have hne : x.name ≠ d := by
      intro heq
      have hdisj := (List.nodup_append.1 (ht.unique_at hm)).2.2 x.name (List.mem_map_of_mem hx)
      exact hdisj d (by simp [Member.name]) heq
    cases x with
    | file name content => exact hne hnamed
    | dir name =>
      rcases hnamed with hnamed | hnamed
      · exact hne hnamed
      · obtain ⟨l, rfl⟩ := h.slash d (by rw [hm]; simp)
        exact (h.names _ hmem).components ⟨l, [], by rw [Member.name, hnamed]; simp⟩
  rw [lookup, hm]
  exact find_membersAt hpre (.inl rfl)

/-- The directory `d` is opened in front of the members behind it. -/
theorem opensDir_member {entry : FileEntry} (hpos : entry.pos = 0)
    (hm : members = pre ++ .dir d :: post) (mode : List ℕ) :
    OpensDir img members d (entry.openMember mode (img.start + totalSize pre) (.dir d)) post := by
  have hlaid : Laid img (img.start + totalSize pre + tarfsHeader) post := by
    have hall := h.laid
    rw [hm, laid_append] at hall
    exact hall.2.2
  have hproper := h.names (.dir d) (by rw [hm]; simp)
  have hroot : d ≠ [47] := by
    rintro rfl
    exact hproper.relative rfl
  refine ⟨⟨rfl, rfl, ?_, fun m hmem => ?_⟩, ?_, ?_, ?_⟩
  · rw [FileEntry.openMember, hpos]
    exact hlaid
  · have hin : m ∈ members := by
      rw [hm]
      simp [hmem]
    refine ⟨h.names m hin, h.isPath hin, fun heq => ?_⟩
    have hcons := (List.nodup_append.1 (ht.unique_at hm)).2.1
    exact (List.nodup_cons.1 hcons).1 (List.mem_map.2 ⟨m, hmem, heq⟩)
  · -- neither the members before the directory nor itself are in it
    have hself : ¬Child d (.dir d) := by
      rintro ⟨-, hcomp⟩
      rw [Member.name, List.drop_length, component_iff] at hcomp
      exact hcomp.1 rfl
    have hnone : (pre ++ [Member.dir d]).filter (Child d) = [] := by
      refine List.filter_eq_nil_iff.2 fun x hx => ?_
      rcases List.mem_append.1 hx with hx | hx
      · have hparents := ht.parents
        rw [hm, List.pairwise_append] at hparents
        exact fun hchild => hparents.2.2 x hx (.dir d) (by simp) rfl (of_decide_eq_true hchild)
      · rw [List.mem_singleton.1 hx]
        simpa using hself
    have hsplit : members = (pre ++ [Member.dir d]) ++ post := by rw [hm]; simp
    rw [dirPrefix, if_neg hroot, hsplit, PlumOs.listing, PlumOs.listing,
      List.filter_append (pre ++ _), hnone, List.nil_append]
  · rw [hm, List.length_append, List.length_cons]
    omega
  · show img.start ≤ img.start + totalSize pre + tarfsHeader + entry.pos
    omega

end Tarfs.WellFormed

/-- The names of the members in a directory are different. -/
theorem nodup_listing (h : (members.map Member.name).Nodup) (d : List ℕ) : (listing d members).Nodup := by
  have hsub : ((members.filter (Child d)).map Member.name).Nodup :=
    h.sublist (List.Sublist.map _ (List.filter_sublist))
  rw [listing]
  refine List.Nodup.map_on ?_ (hsub.of_map _)
  intro x hx y hy hxy
  have hfront : ∀ m ∈ members.filter (Child d), d ++ m.name.drop d.length = m.name := by
    intro m hm
    have hchild : Child d m := by simpa using List.of_mem_filter hm
    obtain ⟨r, hr⟩ := hchild.1
    rw [← hr, List.drop_left]
  have hname : x.name = y.name := by rw [← hfront x hx, ← hfront y hy, hxy]
  exact List.inj_on_of_nodup_map hsub hx hy hname

/-- What `tarfs_open` does for the name of a directory. -/
theorem Tarfs.WellFormed.tarfsOpen_dir (h : img.WellFormed members) (before fuel : ℕ)
    (mode : List ℕ) (ht : Tidy members) (hd : d = [47] ∨ .dir d ∈ members)
    (hmode : mode.length < 16) {i : ℕ}
    (hslot : files.freeSlot = some i) (hpos : (files i).pos = 0)
    (hfuel : img.stop < img.start + 512 * fuel) :
    ∃ entry rest, OpensDir img members d entry rest ∧
      tarfsOpen img before fuel files d mode = .ok (i, Function.update files i entry) := by
  rcases hd with rfl | hd
  · exact ⟨_, members, h.opensDir_root hpos mode,
      tarfsOpen_root (by unfold IsPath; decide) (by decide) hmode hslot⟩
  · have hproper : ProperName d := h.names _ hd
    have hpath : IsPath d := h.isPath hd
    obtain ⟨c, l, rfl⟩ := List.exists_cons_of_ne_nil hproper.nonempty
    have hc : c ≠ 47 := fun hc => hproper.relative (by rw [hc]; rfl)
    have hstripped : stripped (c :: l) = c :: l := by
      rw [stripped, List.dropWhile_cons_of_neg (by simpa using hc)]
    have hroot : ¬IsRoot (c :: l) := fun hroot => by
      have hnil := hroot.stripped_eq hpath
      rw [hstripped] at hnil
      exact List.cons_ne_nil c l hnil
    obtain ⟨pre, post, hm⟩ := List.append_of_mem hd
    refine ⟨_, post, h.opensDir_member ht hpos hm mode,
      h.tarfsOpen_member hpath (ht.short _ hd) hroot hfuel hmode hslot ?_⟩
    rw [hstripped]
    exact h.lookup_dir ht hm

/-- **Listing a directory.**  `opendir` succeeds, and the calls of `readdir` up to `NULL` return the names
of the members directly in the directory, in the archive's order and each once. -/
theorem listing_exact (h : img.WellFormed members) (ht : Tidy members)
    (hd : d = [47] ∨ .dir d ∈ members) {before' fuel' : ℕ} (hfiles : Reachable img fuel' files)
    (hslot : files.freeSlot ≠ none) (dirp : Dir) (ddBuf : List ℕ) :
    ∃ n, ∀ fuel ≥ n, ∀ rounds ≥ n, ∀ calls ≥ n, ∃ files' dirp',
      opendir img before fuel files d (some dirp) (some ddBuf) = .ok (some dirp', files') ∧
      readdirAll img before' fuel true rounds calls files' dirp' =
        .ok (listing (dirPrefix d) members) ∧
      (listing (dirPrefix d) members).Nodup := by
  obtain ⟨i, hi⟩ := Option.ne_none_iff_exists'.1 hslot
  obtain ⟨hmem, hfree⟩ := mem_slots_of_freeSlot hi
  have hpos : (files i).pos = 0 := by rw [hfiles.unusedZero i hfree]; rfl
  have hname : DirName d ∧ d.length < nameSize := by
    rcases hd with rfl | hd
    · exact ⟨.inl rfl, by decide⟩
    · exact ⟨.inr ⟨h.names _ hd, h.isPath hd, h.slash d hd⟩, (ht.short _ hd).trans (by decide)⟩
  refine ⟨img.stop + members.length + 2, fun fuel hfuel rounds hrounds calls hcalls => ?_⟩
  obtain ⟨entry, rest, hopens, hopen⟩ :=
    h.tarfsOpen_dir before fuel [114] ht hd (by decide) hi hpos (by omega)
  have hentry : Function.update files i entry (i : ℤ).toNat = entry := Function.update_self ..
  have hlen := hopens.length
  have hstart := hopens.start
  refine ⟨Function.update files i entry,
    { dirp with ddBuf := ddBuf, ddLen := 512, ddFd := i, ddLoc := 0, ddSeek := 0 }, ?_, ?_,
    nodup_listing ht.unique _⟩
  · rw [opendir, hopen]
    simp only [ok_bind]
    rw [if_neg (by omega)]
  · rw [← hopens.listing]
    have hcur : Cursor img d (Function.update files i entry (i : ℤ).toNat) rest := by
      rw [hentry]
      exact hopens.cursor
    refine readdirAll_eq hcur hname.1 hname.2 h.stop hmem ?_ ⟨rfl, rfl, .inl rfl⟩ (by omega) (by omega)
    rw [hentry]
    omega

end Readdir

/-- The directory `bin/` has the member `ls` in it. -/
theorem listing_exact_bin : listing (dirPrefix [98, 105, 110, 47]) sampleMembers = [[108, 115]] ∧
    ∃ n, ∀ fuel ≥ n, ∀ rounds ≥ n, ∀ calls ≥ n, ∃ files' dirp',
      opendir sampleTarfs 0 fuel (fun _ => FileEntry.zero) [98, 105, 110, 47]
          (some ⟨0, 0, 0, [], 0, 0⟩) (some (List.replicate 512 0)) = .ok (some dirp', files') ∧
      readdirAll sampleTarfs 0 fuel true rounds calls files' dirp' =
        .ok (listing (dirPrefix [98, 105, 110, 47]) sampleMembers) ∧
      (listing (dirPrefix [98, 105, 110, 47]) sampleMembers).Nodup := by
  refine ⟨by decide, ?_⟩
  have hfiles : Reachable sampleTarfs 0 fun _ => FileEntry.zero := .zero
  exact listing_exact wellFormed_sampleTarfs ⟨by decide, by decide, by decide⟩ (.inr (by decide)) hfiles
    (by decide) _ _

end PlumOs
