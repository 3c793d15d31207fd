import PlumOs.Fs.Cat
import PlumOs.Lib.Answers

/-!
# What a process sees of its files (`sys/syscall.c`, `sys/tarfs.c`)

To the process, an open file is the rest of its bytes and an open directory the rest of its entries.
The kernel has a table of addresses, sizes and positions in the archive instead, and goes through the
archive at each call.

* `FileAct.exec` : the calls of a process on its table, with what they return, and the step from a
  process to its child;
* `Handle`, `OpenFiles` : the open descriptors as the process sees them, one behind the other, as no
  slot is ever free again;
* `OpenFiles.exec` : the calls on these;
* `Handle.Shown`, `OpenFiles.Shown` : the table shows these descriptors;
* `simulates_openFiles` : each call on the table returns what the call on the descriptors returns;
* `files_refine` : **so do all calls of a process** and of those it descends from, in any order;
* `reads_in_order` : **the calls of `read` on a descriptor return the bytes of the file from the front**,
  whatever other calls there are between them.
-/

namespace PlumOs

/-! ### The calls -/

/-- What a process does: it calls the kernel, or goes on as the child that it has forked. -/
inductive FileAct where
  | call (a : FdAct)
  | child
  deriving DecidableEq, Repr

/-- A call of a process: what it returns with the bytes for the user, and the table afterwards. -/
def FdAct.exec (img : Tarfs) (fuel : ℕ) (files : FileTable) :
    FdAct → Except FsStop ((ℤ × List ℕ) × FileTable)
  | openFile before path => do
    let (fd, files') ← tarfsOpen img before fuel files path [114]
    .ok ((fd, []), files')
  | close fd => do
    let files' ← PlumOs.close files fd
    .ok ((0, []), files')
  | read fd size copied => FdCall.exec img fuel files (.read fd size copied)
  | getdents before fd bufSize copied => FdCall.exec img fuel files (.getdents before fd bufSize copied)

/-- `fork` returns 0 in the child. -/
def FileAct.exec (img : Tarfs) (fuel : ℕ) (files : FileTable) :
    FileAct → Except FsStop ((ℤ × List ℕ) × FileTable)
  | call a => a.exec img fuel files
  | child => .ok ((0, []), copyFileArray files)

/-! ### The descriptors of a process -/

/-- An open descriptor: the bytes of the file that are still to come, or the entries of the directory.
Nothing can be read from one that comes from the parent. -/
inductive Handle where
  | file (rest : List ℕ)
  | dir (rest : List (FileType × List ℕ))
  | inherited
  deriving DecidableEq, Repr

/-- The descriptors in the order in which they were opened. -/
abbrev OpenFiles : Type := List Handle

/-- The bytes of a file up to the end of its last block. -/
def padded (content : List ℕ) : List ℕ :=
  content ++ List.replicate (paddedSize content - content.length) 0

/-- The members directly in the directory `d`, with their types. -/
def entries (d : List ℕ) (members : List Member) : List (FileType × List ℕ) :=
  (members.filter (Child d)).map fun m => (m.type, m.name.drop d.length)

/-- What is to come when a member is opened. -/
def Member.handle (members : List Member) : Member → Handle
  | dir name => .dir (entries name members)
  | file _ content => .file (padded content)

/-- What a path opens: the root directory, or the first member with this name. -/
def handleOf (members : List Member) (path : List ℕ) : Option Handle :=
  if IsRoot path then some (.dir (entries [] members))
  else (members.find? (Member.Named (stripped path))).map (Member.handle members)

namespace OpenFiles

/-- The descriptor `fd`, if it is open. -/
def handle (v : OpenFiles) (fd : ℕ) : Option Handle := if startFd ≤ fd then v[fd - startFd]? else none

/-- A call of the process. -/
def call (members : List Member) (v : OpenFiles) : FdAct → Except FsStop ((ℤ × List ℕ) × OpenFiles)
  | .openFile _ path =>
    match handleOf members path with
    | none => .ok ((-1, []), v)
    | some h =>
      if v.length < maxFileNum - startFd then .ok (((startFd + v.length : ℕ), []), v ++ [h])
      else .error .exitSt
  | .close _ => .ok ((0, []), v)
  | .read fd size copied =>
    if size = 0 then .ok ((-1, []), v)
    else
      match v.handle fd with
      | some (.file rest) =>
        if rest = [] ∨ copied = true then
          .ok (((rest.take size).length, rest.take size),
            v.set (fd - startFd) (.file (rest.drop size)))
        else .ok ((-1, []), v)
      | _ => .error (.assertFail "read")
  | .getdents _ fd _ copied =>
    match v.handle fd with
    | some (.dir []) => .ok ((0, []), v)
    | some (.dir ((type, name) :: rest)) =>
      -- the entry is gone, too, if the buffer cannot be written
      .ok (if copied then (direntSize, dirent type name) else (-1, []),
        v.set (fd - startFd) (.dir rest))
    | _ => .error (.assertFail "getdents")

/-- A step of the process. -/
def exec (members : List Member) (v : OpenFiles) : FileAct → Except FsStop ((ℤ × List ℕ) × OpenFiles)
  | .call a => v.call members a
  | .child => .ok ((0, []), v.map fun _ => .inherited)

/-- The path is short and names no block of zeros, the descriptor is open, position and size make no
overflow, and the buffer has room for an entry.  No inherited descriptor is listed. -/
def Allowed (v : OpenFiles) : FileAct → Prop
  | .call (.openFile _ path) =>
    (∀ c ∈ path, c ≠ 0 ∧ c < 256) ∧ path.length < 63 ∧ (IsRoot path ∨ stripped path ≠ [])
  | .call (.close fd) => (v.handle fd).isSome
  | .call (.read fd size _) => (v.handle fd).isSome ∧ size + 2 ^ 31 ≤ 2 ^ 64
  | .call (.getdents _ fd bufSize _) =>
    (v.handle fd).isSome ∧ v.handle fd ≠ some .inherited ∧ (direntSize : ℤ) ≤ bufSize
  | .child => True

instance decidableAllowedFile (v : OpenFiles) : DecidablePred v.Allowed
  | .call (.openFile _ path) => inferInstanceAs (Decidable ((∀ c ∈ path, c ≠ 0 ∧ c < 256) ∧ _))
  | .call (.close fd) => inferInstanceAs (Decidable ((v.handle fd).isSome = true))
  | .call (.read fd _ _) => inferInstanceAs (Decidable ((v.handle fd).isSome = true ∧ _))
  | .call (.getdents _ fd _ _) => inferInstanceAs (Decidable ((v.handle fd).isSome = true ∧ _ ∧ _))
  | .child => inferInstanceAs (Decidable True)

end OpenFiles

/-! ### What the table shows -/

/-- A slot is at the bytes that are to come, or in front of the members with these entries. -/
def Handle.Shown (img : Tarfs) (entry : FileEntry) : Handle → Prop
  | file rest => entry.type = .file ∧ entry.toTarfsFile.Sound ∧
    entry.toTarfsFile.slice img.mem entry.pos entry.size = rest
  | dir rest => ∃ d members, Cursor img d entry members ∧ (DirName d ∧ d.length < nameSize) ∧
    img.start ≤ entry.startAddr + entry.pos ∧ entries (dirPrefix d) members = rest
  -- `copy_file_array` leaves the type of a directory in the page of zeros
  | inherited => entry.type = .dir

/-- The table shows these descriptors, and its other slots were never used. -/
structure OpenFiles.Shown (img : Tarfs) (files : FileTable) (v : OpenFiles) : Prop where
  length : v.length ≤ maxFileNum - startFd
  used : ∀ i (h : i < v.length), v[i].Shown img (files (startFd + i)) ∧ (files (startFd + i)).free ≠ 0
  unused : ∀ i, v.length ≤ i → files (startFd + i) = FileEntry.zero

section Table

variable {img : Tarfs} {files : FileTable} {v : OpenFiles} {entry : FileEntry} {h : Handle} {fd i : ℕ}

/-- A descriptor that is open is a slot with its handle. -/
theorem OpenFiles.exists_of_handle (hsome : (v.handle fd).isSome) :
    ∃ i, ∃ hi : i < v.length, fd = startFd + i ∧ v.handle fd = some v[i] := by
  by_cases hfd : startFd ≤ fd
  · have hget : v.handle fd = v[fd - startFd]? := by rw [handle, if_pos hfd]
    rw [hget] at hsome
    have hi : fd - startFd < v.length := by
      by_contra hge
      rw [List.getElem?_eq_none (Nat.le_of_not_lt hge)] at hsome
      cases hsome
    exact ⟨fd - startFd, hi, by omega, by rw [hget, List.getElem?_eq_getElem hi]⟩
  · rw [handle, if_neg hfd] at hsome
    cases hsome

theorem OpenFiles.handle_slot (v : OpenFiles) (i : ℕ) : v.handle (startFd + i) = v[i]? := by
  rw [handle, if_pos (Nat.le_add_right ..), Nat.add_sub_cancel_left]

namespace OpenFiles.Shown

theorem slot (hv : v.Shown img files) (hi : i < v.length) : startFd + i ∈ slots := by
  have hlen := hv.length
  exact mem_slots.2 ⟨Nat.le_add_right .., by unfold maxFileNum startFd at *; omega⟩

/-- The next descriptor is the slot behind those that are open. -/
theorem freeSlot_eq (hv : v.Shown img files) : files.freeSlot =
    if v.length < maxFileNum - startFd then some (startFd + v.length) else none := by
  have hused : ∀ j, startFd ≤ j → j < startFd + v.length → (files j).free ≠ 0 := by
    intro j hj hlt
    obtain ⟨i, rfl⟩ := Nat.exists_eq_add_of_le hj
    exact (hv.used i (by omega)).2
  have hlen := hv.length
  rw [FileTable.freeSlot, slots]
  split
  · refine List.find?_range'_eq_some.2 ⟨?_, List.mem_range'_1.2 (by omega), fun j hj hlt => ?_⟩
    · rw [hv.unused v.length (Nat.le_refl _)]
      rfl
    · simpa using hused j hj hlt
  · refine List.find?_range'_eq_none.2 fun j hj hlt => ?_
    simpa using hused j hj (by omega)

/-- A descriptor is opened. -/
theorem append (hv : v.Shown img files) (hlen : v.length < maxFileNum - startFd)
    (hentry : h.Shown img entry) (hfree : entry.free ≠ 0) :
    OpenFiles.Shown img (Function.update files (startFd + v.length) entry) (v ++ [h]) where
  length := by
    rw [List.length_append]
    exact hlen
  used i hi := by
    rw [List.length_append, List.length_singleton] at hi
    by_cases hlast : i = v.length
    · subst hlast
      rw [List.getElem_concat_length rfl, Function.update_self]
      exact ⟨hentry, hfree⟩
    · rw [List.getElem_append_left (by omega), Function.update_of_ne (by omega)]
      exact hv.used i (by omega)
  unused i hi := by
    rw [List.length_append, List.length_singleton] at hi
    rw [Function.update_of_ne (by omega)]
    exact hv.unused i (by omega)

/-- A descriptor moves. -/
theorem set (hv : v.Shown img files) (hentry : h.Shown img entry) (hfree : entry.free ≠ 0)
    (hi : i < v.length) :
    OpenFiles.Shown img (Function.update files (startFd + i) entry) (v.set i h) where
  length := by
    rw [List.length_set]
    exact hv.length
  used j hj := by
    rw [List.length_set] at hj
    by_cases hji : j = i
    · subst hji
      rw [List.getElem_set_self, Function.update_self]
      exact ⟨hentry, hfree⟩
    · rw [List.getElem_set_ne (Ne.symm hji), Function.update_of_ne (by omega)]
      exact hv.used j hj
  unused j hj := by
    rw [List.length_set] at hj
    rw [Function.update_of_ne (by omega)]
    exact hv.unused j hj

end OpenFiles.Shown

end Table

/-! ### Reading -/

section Reading

variable {img : Tarfs} {members : List Member} {files : FileTable} {v : OpenFiles} {file : TarfsFile}
  {archive : ℕ → ℕ} {fuel i size n lo hi : ℕ} {copied : Bool}

/-- The first bytes of a slice, and the others. -/
theorem TarfsFile.take_drop_slice (hle : lo ≤ hi) :
    (file.slice archive lo hi).take n = file.slice archive lo (min (lo + n) hi) ∧
      (file.slice archive lo hi).drop n = file.slice archive (min (lo + n) hi) hi := by
  have happ : file.slice archive lo (min (lo + n) hi) ++ file.slice archive (min (lo + n) hi) hi =
      file.slice archive lo hi := slice_append (by omega) (Nat.min_le_right ..)
  have hlen : (file.slice archive lo (min (lo + n) hi)).length = min (lo + n) hi - lo := length_slice ..
  rw [← happ]
  by_cases hn : lo + n ≤ hi
  · have hfront : (file.slice archive lo (min (lo + n) hi)).length = n := by omega
    exact ⟨List.take_left' hfront, List.drop_left' hfront⟩
  · have hnil : file.slice archive (min (lo + n) hi) hi = [] := by
      rw [← List.length_eq_zero_iff, length_slice]
      omega
    rw [hnil, List.append_nil]
    exact ⟨List.take_of_length_le (by omega), List.drop_eq_nil_of_le (by omega)⟩

/-- A slot that is not at the end of its file has bytes that are to come. -/
theorem TarfsFile.Sound.slice_eq_nil (h : file.Sound) :
    file.slice archive file.pos file.size = [] ↔ file.pos = file.size := by
  have hle := h.pos
  rw [← List.length_eq_zero_iff, TarfsFile.length_slice]
  omega

/-- **A call of `read`.** -/
theorem agree_read (hv : v.Shown img files) (hi : i < v.length) (hsize : size + 2 ^ 31 ≤ 2 ^ 64) :
    SameAnswer (fun files v => OpenFiles.Shown img files v)
      (FdAct.exec img fuel files (.read (startFd + i) size copied))
      (v.call members (.read (startFd + i) size copied)) := by
  have hslot := hv.slot hi
  obtain ⟨hshown, hfree⟩ := hv.used i hi
  have hhandle : v.handle (startFd + i) = some v[i] := by
    rw [OpenFiles.handle_slot, List.getElem?_eq_getElem hi]
  rw [FdAct.exec, FdCall.exec, OpenFiles.call, hhandle, Nat.add_sub_cancel_left]
  by_cases hzero : size = 0
  · have hread : PlumOs.read img files (startFd + i : ℕ) size copied = .ok files := by
      rw [PlumOs.read, if_neg (by unfold startFd; omega), if_pos (.inl hzero)]
    rw [hread, readResult, if_pos hzero, if_pos hzero]
    exact ⟨rfl, hv⟩
  rw [read_slot img files hslot hzero copied, readResult, if_neg hzero, if_neg hzero]
  cases hcase : v[i] with
  | dir rest =>
    rw [hcase] at hshown
    obtain ⟨d, ms, hcursor, -⟩ := hshown
    rw [hcursor.dir, if_neg (by decide)]
    exact rfl
  | inherited =>
    rw [hcase] at hshown
    rw [show (files (startFd + i)).type = .dir from hshown, if_neg (by decide)]
    exact rfl
  | file rest =>
    rw [hcase] at hshown
    obtain ⟨htype, hsound, rfl⟩ := hshown
    rw [if_pos htype]
    simp only [hsound.slice_eq_nil, ok_bind]
    by_cases hend : (files (startFd + i)).pos = (files (startFd + i)).size
    · -- at the end of the file nothing moves
      have hread : (files (startFd + i)).toTarfsFile.read img.mem size =
          (0, [], (files (startFd + i)).toTarfsFile) := by
        rw [TarfsFile.read, if_pos hend]
      have hnil : (files (startFd + i)).toTarfsFile.slice img.mem (files (startFd + i)).pos
          (files (startFd + i)).size = [] := hsound.slice_eq_nil.2 hend
      have hsame : v.set i (.file []) = v := by
        rw [hnil] at hcase
        rw [← hcase, List.set_getElem_self]
      rw [hnil]
      simp only [hread, hend, or_true, true_or, if_true, List.take_nil, List.drop_nil, hsame]
      refine ⟨rfl, ?_⟩
      split
      · exact (Function.update_eq_self (startFd + i) files).symm ▸ hv
      · exact hv
    · have hsmall := hsound.small
      have hpos := hsound.pos
      have hone : 1 ≤ size := by omega
      have hwrap : (files (startFd + i)).pos + size < 2 ^ 64 := by omega
      have hread := @TarfsFile.read_nowrap img.mem _ _ hsound hend hone hwrap
      cases copied with
      | false =>
        have hstay : ¬((files (startFd + i)).pos = (files (startFd + i)).size ∨ false = true) := by
          simp [hend]
        simp only [if_neg hstay, if_neg (mt Or.symm hstay), if_neg Bool.false_ne_true]
        exact ⟨rfl, hv⟩
      | true =>
        obtain ⟨htake, hdrop⟩ :=
          @TarfsFile.take_drop_slice (files (startFd + i)).toTarfsFile img.mem size _ _ hpos
        simp only [hread, true_or, or_true, if_true, htake, hdrop, TarfsFile.length_slice]
        refine ⟨rfl, hv.set ⟨htype, ⟨hsound.fits, hsound.small, Nat.min_le_right ..⟩, rfl⟩ hfree hi⟩

end Reading

/-! ### Listing -/

section Listing

variable {img : Tarfs} {members pre post : List Member} {files files' : FileTable} {v : OpenFiles}
  {m : Member} {d bytes : List ℕ} {before fuel i : ℕ} {fd res bufSize : ℤ} {copied : Bool}

theorem entries_split (hpre : ∀ x ∈ pre, ¬Child d x) (hm : Child d m) :
    entries d (pre ++ m :: post) = (m.type, m.name.drop d.length) :: entries d post := by
  have hnil : pre.filter (Child d) = [] := by
    simpa [List.filter_eq_nil_iff] using hpre
  rw [entries, List.filter_append, hnil, List.nil_append, List.filter_cons, if_pos (by simpa using hm)]
  rfl

theorem entries_nil (h : ∀ x ∈ post, ¬Child d x) : entries d post = [] := by
  have hnil : post.filter (Child d) = [] := by
    simpa [List.filter_eq_nil_iff] using h
  rw [entries, hnil, List.map_nil]

/-- A call with a buffer that cannot be written moves as the others do. -/
theorem getdents_uncopied
    (h : getdents img before fuel files fd bufSize true = .ok (res, bytes, files')) :
    getdents img before fuel files fd bufSize false =
      .ok (if res = 0 then 0 else -1, [], files') := by
  rw [getdents] at h ⊢
  simp only at h ⊢
  split at h
  case isFalse => cases h
  rename_i hguard
  rw [if_pos hguard]
  obtain ⟨next, hnext, h⟩ := bind_eq_ok.1 h
  rw [hnext, ok_bind]
  cases next with
  | none =>
    cases h
    rfl
  | some x =>
    obtain ⟨type, name, moved⟩ := x
    simp only at h ⊢
    split at h
    case isFalse => cases h
    rename_i hroom
    cases h
    rw [if_pos hroom]
    rfl

/-- **A call of `getdents`.** -/
theorem agree_getdents (hv : v.Shown img files) (hi : i < v.length) (hown : v[i] ≠ .inherited)
    (hbuf : (direntSize : ℤ) ≤ bufSize) (hstop : img.stop < 2 ^ 64)
    (hfuel : img.stop < img.start + 512 * fuel) :
    SameAnswer (fun files v => OpenFiles.Shown img files v)
      (FdAct.exec img fuel files (.getdents before (startFd + i) bufSize copied))
      (v.call members (.getdents before (startFd + i) bufSize copied)) := by
  have hslot := hv.slot hi
  obtain ⟨hshown, hfree⟩ := hv.used i hi
  have hhandle : v.handle (startFd + i) = some v[i] := by
    rw [OpenFiles.handle_slot, List.getElem?_eq_getElem hi]
  rw [FdAct.exec, FdCall.exec, OpenFiles.call, hhandle, Nat.add_sub_cancel_left]
  cases hcase : v[i] with
  | inherited => exact absurd hcase hown
  | file rest =>
    rw [hcase] at hshown
    have hguard : ¬((startFd : ℤ) ≤ (startFd + i : ℕ) ∧ ((startFd + i : ℕ) : ℤ) < maxFileNum ∧
        (files (startFd + i)).type = .dir) := by
      rw [hshown.1]
      exact fun h => absurd h.2.2 (by decide)
    rw [getdents]
    simp only [Int.toNat_natCast, if_neg hguard]
    exact rfl
  | dir rest =>
    rw [hcase] at hshown
    obtain ⟨d, ms, hcursor, ⟨hd, hlen⟩, hstart, rfl⟩ := hshown
    obtain rfl := hcursor.name
    have hfuel' : img.stop < (files (startFd + i)).startAddr + (files (startFd + i)).pos + 512 * fuel := by
      omega
    rcases hcursor.traverse before hd hlen hstop hfuel' with
      ⟨hnone, hwalk⟩ | ⟨pre, m, post, rfl, hpre, hm, hwalk⟩
    · have hcall : getdents img before fuel files (startFd + i : ℕ) bufSize true = .ok (0, [], files) :=
        getdents_none hstop hslot hcursor.dir hcursor.laid hwalk
      rw [entries_nil hnone]
      cases copied with
      | true =>
        rw [hcall]
        exact ⟨rfl, hv⟩
      | false =>
        rw [getdents_uncopied hcall]
        exact ⟨rfl, hv⟩
    · obtain ⟨hat, hrest⟩ := (laid_append.1 hcursor.laid).2
      have hshort := (hcursor.others m (by simp)).1.short
      have hmoved : Handle.Shown img { files (startFd + i) with
          pos := (files (startFd + i)).pos + totalSize pre + m.size }
          (.dir (entries (dirPrefix (files (startFd + i)).name) post)) := by
        refine ⟨_, post, ⟨hcursor.dir, rfl, ?_, fun x hx => hcursor.others x (by simp [hx])⟩,
          ⟨hd, hlen⟩, ?_, rfl⟩
        · simpa only [Nat.add_assoc] using hrest
        · simp only
          omega
      have hcall : getdents img before fuel files (startFd + i : ℕ) bufSize true =
          .ok (direntSize, dirent m.type (m.name.drop (dirPrefix (files (startFd + i)).name).length),
            Function.update files (startFd + i) { files (startFd + i) with
              pos := (files (startFd + i)).pos + totalSize pre + m.size }) := by
        rw [← hd.dName_eq]
        exact getdents_found hstop hslot hcursor.dir hcursor.laid (hshort.trans (by decide)) hbuf hwalk
      rw [entries_split hpre hm]
      cases copied with
      | true =>
        rw [hcall]
        exact ⟨rfl, hv.set hmoved hfree hi⟩
      | false =>
        rw [getdents_uncopied hcall]
        exact ⟨rfl, hv.set hmoved hfree hi⟩

end Listing

/-! ### Opening -/

section Opening

variable {img : Tarfs} {members pre post : List Member} {files : FileTable} {v : OpenFiles}
  {entry : FileEntry} {m : Member} {d path content : List ℕ} {before fuel q : ℕ} {archive : ℕ → ℕ}

/-- The bytes of a member and the zeros behind them. -/
theorem RegularMember.slice_eq_padded (h : RegularMember archive q content) :
    TarfsFile.slice archive ⟨q + tarfsHeader, paddedSize content, 0⟩ 0 (paddedSize content) =
      padded content := by
  have hle : content.length ≤ paddedSize content := by
    unfold paddedSize
    omega
  have hmem : RegularMember (Tarfs.mk archive 0 0).mem q content := h
  exact hmem.slice_padded hle le_rfl

/-- The members behind the header of a directory have the entries of all members in it. -/
theorem entries_of_listing (hsuffix : post <:+ members)
    (hlisting : listing d post = listing d members) : entries d post = entries d members := by
  have hfilter : post.filter (Child d) = members.filter (Child d) := by
    refine (hsuffix.filter _).eq_of_length ?_
    simpa only [listing, List.length_map] using congrArg List.length hlisting
  rw [entries, entries, hfilter]

/-- The names of members are names of directories that `getdents` can take. -/
theorem Tarfs.WellFormed.dirName (h : img.WellFormed members) (ht : Tidy members)
    (hd : Member.dir d ∈ members) : DirName d ∧ d.length < nameSize :=
  ⟨.inr ⟨h.names _ hd, h.isPath hd, h.slash d hd⟩, (ht.short _ hd).trans (by decide)⟩

/-- What is opened shows what is to come. -/
theorem shown_openRoot (h : img.WellFormed members) (hpos : entry.pos = 0) (mode : List ℕ) :
    Handle.Shown img (entry.openRoot img mode) (.dir (entries [] members)) :=
  ⟨[47], members, (h.opensDir_root hpos mode).cursor, ⟨.inl rfl, by decide⟩, Nat.le_add_right .., rfl⟩

theorem shown_openMember (h : img.WellFormed members) (ht : Tidy members) (hm : members = pre ++ m :: post)
    (mode : List ℕ) :
    Handle.Shown img (FileEntry.zero.openMember mode (img.start + totalSize pre) m) (m.handle members) := by
  cases m with
  | file name content =>
    have hlaid := h.laid
    rw [hm, laid_append] at hlaid
    have hreg : RegularMember img.mem (img.start + totalSize pre) content := hlaid.2.1.2
    exact ⟨rfl, hreg.sound, hreg.slice_eq_padded⟩
  | dir d =>
    have hopens : OpensDir img members d (FileEntry.zero.openMember mode _ (.dir d)) post :=
      h.opensDir_member ht rfl hm mode
    have hname := h.dirName ht (d := d) (by rw [hm]; simp)
    have hroot : d ≠ [47] := by
      rintro rfl
      exact (h.names (.dir [47]) (by rw [hm]; simp)).relative rfl
    have hlisting := hopens.listing
    rw [dirPrefix, if_neg hroot] at hlisting
    refine ⟨d, post, hopens.cursor, hname, hopens.start, ?_⟩
    rw [dirPrefix, if_neg hroot]
    exact entries_of_listing ⟨pre ++ [.dir d], by rw [hm]; simp⟩ hlisting

/-- The member with a name, and its address. -/
theorem lookup_eq (start : ℕ) (n : List ℕ) :
    (∃ pre m post, members = pre ++ m :: post ∧ members.find? (Member.Named n) = some m ∧
      lookup start members n = some (start + totalSize pre, m)) ∨
    (members.find? (Member.Named n) = none ∧ lookup start members n = none) := by
  cases hfind : members.find? (Member.Named n) with
  | none =>
    refine .inr ⟨rfl, List.find?_eq_none.2 fun x hx => ?_⟩
    exact List.find?_eq_none.1 hfind x.2 (mem_of_mem_membersAt hx)
  | some m =>
    obtain ⟨hm, pre, post, rfl, hpre⟩ := List.find?_eq_some_iff_append.1 hfind
    refine .inl ⟨pre, m, post, rfl, rfl, find_membersAt (fun x hx => ?_) (of_decide_eq_true hm)⟩
    simpa using hpre x hx

/-- **A call of `open`.** -/
theorem agree_openFile (h : img.WellFormed members) (ht : Tidy members)
    (hfuel : img.stop < img.start + 512 * fuel) (hv : v.Shown img files) (hpath : IsPath path)
    (hlen : path.length < 63) (hname : IsRoot path ∨ stripped path ≠ []) :
    SameAnswer (fun files v => OpenFiles.Shown img files v)
      (FdAct.exec img fuel files (.openFile before path)) (v.call members (.openFile before path)) := by
  have hzero := hv.unused v.length (Nat.le_refl _)
  have hslot := hv.freeSlot_eq
  rw [FdAct.exec, OpenFiles.call, handleOf]
  by_cases hroot : IsRoot path
  · rw [if_pos hroot]
    simp only
    split at hslot
    · rename_i hroom
      rw [tarfsOpen_root hpath hroot (by decide) hslot, if_pos hroom]
      refine ⟨rfl, hv.append hroom (shown_openRoot h ?_ [114]) Nat.one_ne_zero⟩
      rw [hzero]
      rfl
    · rename_i hfull
      have hstop : tarfsOpen img before fuel files path [114] = .error .exitSt := by
        have hlong : (path.dropWhile (· = 47)) = [] := hroot.stripped_eq hpath
        rw [tarfsOpen, hlong, if_neg (by decide), openRes, if_pos hroot]
        simp only [ok_bind, openSlot, hslot]
      rw [hstop, if_neg hfull]
      exact rfl
  · rw [if_neg hroot]
    have hne := hname.resolve_left hroot
    rcases lookup_eq img.start (stripped path) with
      ⟨pre, m, post, hm, hfind, hlookup⟩ | ⟨hfind, hlookup⟩
    · rw [hfind, Option.map_some]
      simp only
      split at hslot
      · rename_i hroom
        rw [h.tarfsOpen_member hpath hlen hroot hfuel (by decide) hslot hlookup, if_pos hroom, hzero]
        refine ⟨rfl, hv.append hroom (shown_openMember h ht hm [114]) ?_⟩
        cases m <;> exact Nat.one_ne_zero
      · rename_i hfull
        rw [h.tarfsOpen_eq hpath hlen hroot hfuel, hlookup, Option.map_some, Option.some_or, if_neg hfull]
        simp only [openSlot, hslot]
        exact rfl
    · rw [hfind, Option.map_none, h.tarfsOpen_none hpath hlen hroot hfuel hne hlookup]
      exact ⟨rfl, hv⟩

end Opening

/-! ### All calls -/

section Runs

variable {img : Tarfs} {members : List Member} {files : FileTable} {v : OpenFiles} {fuel : ℕ}
  {acts : List FileAct}

/-- The child has all descriptors of its parent, as directories without a name. -/
theorem OpenFiles.Shown.child (hv : v.Shown img files) :
    OpenFiles.Shown img (copyFileArray files) (v.map fun _ => .inherited) where
  length := by
    rw [List.length_map]
    exact hv.length
  used i hi := by
    rw [List.length_map] at hi
    rw [List.getElem_map, copyFileArray_used (hv.slot hi) (hv.used i hi).2]
    exact ⟨rfl, (hv.used i hi).2⟩
  unused i hi := by
    rw [List.length_map] at hi
    rw [copyFileArray, if_neg]
    rw [hv.unused i hi]
    exact fun h => h.2 rfl

/-- **Each call on the table returns what the call on the descriptors returns.** -/
theorem simulates_openFiles (h : img.WellFormed members) (ht : Tidy members)
    (hfuel : img.stop < img.start + 512 * fuel) :
    Simulates (FileAct.exec img fuel) (OpenFiles.exec members) OpenFiles.Allowed
      (fun files v => OpenFiles.Shown img files v) := by
  intro files v a hv ha
  cases a with
  | child => exact ⟨rfl, hv.child⟩
  | call a =>
    rw [FileAct.exec, OpenFiles.exec]
    cases a with
    | openFile before path => exact agree_openFile h ht hfuel hv ha.1 ha.2.1 ha.2.2
    | close fd =>
      obtain ⟨i, hi, rfl, -⟩ := OpenFiles.exists_of_handle ha
      rw [FdAct.exec, OpenFiles.call, close_slot files (hv.slot hi)]
      exact ⟨rfl, hv⟩
    | read fd size copied =>
      obtain ⟨i, hi, rfl, -⟩ := OpenFiles.exists_of_handle ha.1
      exact agree_read hv hi ha.2
    | getdents before fd bufSize copied =>
      obtain ⟨hopen, hown, hbuf⟩ := ha
      obtain ⟨i, hi, rfl, hhandle⟩ := OpenFiles.exists_of_handle hopen
      have hne : v[i] ≠ .inherited := fun heq => hown (by rw [hhandle, heq])
      exact agree_getdents hv hi hne hbuf h.stop hfuel

theorem shown_nil (img : Tarfs) : OpenFiles.Shown img (fun _ => FileEntry.zero) [] where
  length := Nat.zero_le _
  used _ hi := absurd hi (Nat.not_lt_zero _)
  unused _ _ := rfl

/-- Calls on `bin/ls` and on the directory `bin/`, and then the child opens `bin/ls` again and reads
from it and from the descriptor that it has inherited. -/
def sampleCalls : List FileAct :=
  [.call (.openFile 0 [98, 105, 110, 47, 108, 115]), .call (.openFile 0 [47, 47, 98, 105, 110]),
    .call (.read 3 4 true), .call (.getdents 0 4 512 true), .call (.openFile 0 [108]),
    .call (.read 3 600 false), .call (.read 3 600 true), .call (.read 3 600 true),
    .call (.getdents 0 4 512 true), .call (.close 4), .child,
    .call (.openFile 0 [98, 105, 110, 47, 108, 115]), .call (.read 5 2 true), .call (.read 3 1 true)]

theorem tidy_sampleMembers : Tidy sampleMembers := ⟨by decide, by decide, by decide⟩

theorem allowed_sampleCalls :
    Along (follow (OpenFiles.exec sampleMembers)) OpenFiles.Allowed [] sampleCalls :=
  along_of_decide (by decide +kernel)

/-- **A process sees open files and directories.**  What its calls return, and the reason the kernel
stops for, if it does, are those of the calls on the descriptors. -/
theorem files_refine (h : img.WellFormed members) (ht : Tidy members)
    (hfuel : img.stop < img.start + 512 * fuel)
    (hal : Along (follow (OpenFiles.exec members)) OpenFiles.Allowed [] acts) :
    answers (FileAct.exec img fuel) (fun _ => FileEntry.zero) acts =
      answers (OpenFiles.exec members) [] acts :=
  (simulates_openFiles h ht hfuel).answers_eq (shown_nil img) hal

theorem files_refine_sample : answers (FileAct.exec sampleTarfs 10) (fun _ => FileEntry.zero) sampleCalls =
    answers (OpenFiles.exec sampleMembers) [] sampleCalls :=
  files_refine wellFormed_sampleTarfs tidy_sampleMembers (by decide) allowed_sampleCalls

end Runs

/-! ### The bytes of one descriptor -/

/-- The steps of a process with what they returned. -/
abbrev FileLog : Type := List (FileAct × (ℤ × List ℕ))

/-- The bytes that calls of `read` on a descriptor have returned. -/
def bytesRead (fd : ℕ) (log : FileLog) : List ℕ :=
  log.flatMap fun x =>
    match x.1 with
    | .call (.read fd' _ _) => if fd' = fd then x.2.2 else []
    | _ => []

/-- A call of `read` on the descriptor has returned 0. -/
def EndSeen (fd : ℕ) (log : FileLog) : Prop :=
  ∃ size copied, size ≠ 0 ∧ (FileAct.call (.read fd size copied), ((0 : ℤ), ([] : List ℕ))) ∈ log

/-- Some bytes have been read, and these are still to come, in this process or its parent. -/
structure FileOrder (bytes : List ℕ) (fd : ℕ) (post : FileLog) (v : OpenFiles) (rest : List ℕ) : Prop where
  /-- What was read and what is left are the file. -/
  append : bytesRead fd post ++ rest = bytes
  /-- The file is still open at this place, or was inherited. -/
  handle : v.handle fd = some (.file rest) ∨ v.handle fd = some .inherited
  /-- Nothing is left once a read has returned 0. -/
  eof : EndSeen fd post → rest = []

section Order

variable {members : List Member} {v v' : OpenFiles} {a : FileAct} {r : ℤ × List ℕ} {h x : Handle}
  {fd fd' : ℕ} {rest bytes : List ℕ} {log post : FileLog}

theorem bytesRead_append (fd : ℕ) (log post : FileLog) :
    bytesRead fd (log ++ post) = bytesRead fd log ++ bytesRead fd post := List.flatMap_append

namespace OpenFiles

theorem handle_append (hx : v.handle fd = some x) (h : Handle) : handle (v ++ [h]) fd = some x := by
  obtain ⟨i, hi, rfl, hget⟩ := exists_of_handle (by rw [hx]; rfl)
  rw [hx] at hget
  rw [handle_slot, List.getElem?_append_left hi, List.getElem?_eq_getElem hi, hget]

theorem handle_set (hx : v.handle fd' = some x) (h : Handle) (fd : ℕ) :
    handle (v.set (fd' - startFd) h) fd = if fd = fd' then some h else v.handle fd := by
  have hsome : (v.handle fd').isSome := by
    rw [hx]
    rfl
  obtain ⟨i, hi, rfl, -⟩ := exists_of_handle hsome
  rw [Nat.add_sub_cancel_left]
  by_cases hfd : startFd ≤ fd
  · obtain ⟨j, rfl⟩ := Nat.exists_eq_add_of_le hfd
    rw [handle_slot, handle_slot, List.getElem?_set]
    by_cases hji : i = j
    · subst hji
      rw [if_pos rfl, if_pos hi, if_pos rfl]
    · rw [if_neg hji, if_neg (by omega)]
  · rw [handle, handle, if_neg hfd, if_neg hfd, if_neg (by omega)]

theorem handle_child (hx : v.handle fd = some x) : handle (v.map fun _ => .inherited) fd = some .inherited := by
  obtain ⟨i, hi, rfl, -⟩ := exists_of_handle (by rw [hx]; rfl)
  rw [handle_slot, List.getElem?_map, List.getElem?_eq_getElem hi]
  rfl

end OpenFiles

namespace FileOrder

/-- The descriptor is open. -/
theorem exists_handle (hI : FileOrder bytes fd post v rest) : ∃ x, v.handle fd = some x := by
  rcases hI.handle with hx | hx
  exacts [⟨_, hx⟩, ⟨_, hx⟩]

/-- A step that does not read from the descriptor. -/
theorem other (hI : FileOrder bytes fd post v rest)
    (hhandle : v'.handle fd = v.handle fd ∨ v'.handle fd = some .inherited)
    (hread : ∀ size copied, a = .call (.read fd size copied) → r = (-1, [])) :
    FileOrder bytes fd (post ++ [(a, r)]) v' rest where
  append := by
    have hnone : bytesRead fd [(a, r)] = [] := by
      simp only [bytesRead, List.flatMap_cons, List.flatMap_nil, List.append_nil]
      split
      · split
        · rename_i hfd
          subst hfd
          rw [hread _ _ rfl]
        · rfl
      · rfl
    rw [bytesRead_append, hnone, List.append_nil, hI.append]
  handle := by
    rcases hhandle with heq | heq
    · rw [heq]
      exact hI.handle
    · exact .inr heq
  eof := by
    rintro ⟨size, copied, hsize, hmem⟩
    rcases List.mem_append.1 hmem with hmem | hmem
    · exact hI.eof ⟨size, copied, hsize, hmem⟩
    · obtain ⟨rfl, rfl⟩ := Prod.mk.inj (List.mem_singleton.1 hmem)
      exact absurd (congrArg Prod.fst (hread size copied rfl)) (by decide)

/-- A call of `read` that returns some bytes, or 0 at the end of the file. -/
theorem read {size : ℕ} {copied : Bool} (hI : FileOrder bytes fd post v rest)
    (hx : v.handle fd = some (.file rest)) (hsize : size ≠ 0) : FileOrder bytes fd
      (post ++ [(FileAct.call (.read fd size copied), (((rest.take size).length : ℤ), rest.take size))])
      (v.set (fd - startFd) (.file (rest.drop size))) (rest.drop size) where
  append := by
    have hone : bytesRead fd [(FileAct.call (.read fd size copied),
        (((rest.take size).length : ℤ), rest.take size))] = rest.take size := by
      simp only [bytesRead, List.flatMap_cons, List.flatMap_nil, List.append_nil, if_true]
    rw [bytesRead_append, hone, List.append_assoc, List.take_append_drop, hI.append]
  handle := .inl (by rw [OpenFiles.handle_set hx, if_pos rfl])
  eof := by
    rintro ⟨size', copied', hne, hmem⟩
    rcases List.mem_append.1 hmem with hmem | hmem
    · rw [hI.eof ⟨size', copied', hne, hmem⟩, List.drop_nil]
    · have hzero := congrArg (fun x : FileAct × (ℤ × List ℕ) => x.2.2) (List.mem_singleton.1 hmem)
      simp only at hzero
      rcases List.take_eq_nil_iff.1 hzero.symm with hnil | hnil
      · exact absurd hnil hsize
      · rw [hnil, List.drop_nil]

/-- **A step of the process** goes on in the file, or leaves the descriptor alone. -/
theorem step (hI : FileOrder bytes fd post v rest) (hs : v.exec members a = .ok (r, v')) :
    ∃ rest', FileOrder bytes fd (post ++ [(a, r)]) v' rest' := by
  obtain ⟨x, hx⟩ := hI.exists_handle
  cases a with
  | child =>
    cases hs
    exact ⟨rest, hI.other (.inr (OpenFiles.handle_child hx)) (fun _ _ h => by cases h)⟩
  | call a =>
    rw [OpenFiles.exec] at hs
    cases a with
    | openFile before path =>
      rw [OpenFiles.call] at hs
      have hother : v'.handle fd = v.handle fd := by
        split at hs
        · cases hs
          rfl
        · split at hs
          · cases hs
            rw [hx]
            exact OpenFiles.handle_append hx _
          · cases hs
      exact ⟨rest, hI.other (.inl hother) (fun _ _ h => by cases h)⟩
    | close fd' =>
      cases hs
      exact ⟨rest, hI.other (.inl rfl) (fun _ _ h => by cases h)⟩
    | read fd' size copied =>
      rw [OpenFiles.call] at hs
      split at hs
      · cases hs
        exact ⟨rest, hI.other (.inl rfl) (fun _ _ _ => rfl)⟩
      · rename_i hsize
        split at hs
        · rename_i rest' hx'
          split at hs
          · cases hs
            by_cases hfd : fd' = fd
            · subst hfd
              have heq : rest' = rest := by
                rcases hI.handle with hfile | hfile <;> rw [hx'] at hfile <;> cases hfile
                rfl
              subst heq
              exact ⟨_, hI.read hx' hsize⟩
            · refine ⟨rest, hI.other (.inl ?_) fun _ _ h => ?_⟩
              · rw [OpenFiles.handle_set hx', if_neg (Ne.symm hfd)]
              · cases h
                exact absurd rfl hfd
          · cases hs
            exact ⟨rest, hI.other (.inl rfl) (fun _ _ _ => rfl)⟩
        · cases hs
    | getdents before fd' bufSize copied =>
      rw [OpenFiles.call] at hs
      have hother : v'.handle fd = v.handle fd := by
        split at hs
        · cases hs
          rfl
        · rename_i type name es hx'
          cases hs
          have hfd : fd ≠ fd' := by
            rintro rfl
            rcases hI.handle with hfile | hfile <;> rw [hx'] at hfile <;> cases hfile
          rw [OpenFiles.handle_set hx', if_neg hfd]
        · cases hs
      exact ⟨rest, hI.other (.inl hother) (fun _ _ h => by cases h)⟩

end FileOrder

/-- Behind each call that has opened a file its bytes are in order. -/
def AllFileOrder (members : List Member) (log : FileLog) (v : OpenFiles) : Prop :=
  ∀ pre post before path bytes fd, handleOf members path = some (.file bytes) →
    log = pre ++ (FileAct.call (.openFile before path), (((fd : ℕ) : ℤ), ([] : List ℕ))) :: post →
    ∃ rest, FileOrder bytes fd post v rest

/-- The bytes of a file that is opened are still to come. -/
theorem fileOrder_open {before : ℕ} {path : List ℕ} (hopen : handleOf members path = some (.file bytes))
    (hs : v.exec members (.call (.openFile before path)) = .ok (((fd : ℤ), []), v')) :
    FileOrder bytes fd [] v' bytes := by
  rw [OpenFiles.exec, OpenFiles.call, hopen] at hs
  simp only at hs
  split at hs
  · obtain ⟨hres, rfl⟩ := Prod.mk.inj (Except.ok.inj hs)
    obtain rfl : startFd + v.length = fd := Int.natCast_inj.1 (congrArg Prod.fst hres)
    refine ⟨rfl, .inl ?_, ?_⟩
    · rw [OpenFiles.handle_slot, List.getElem?_concat_length]
    · rintro ⟨size, copied, -, hmem⟩
      cases hmem
  · cases hs

theorem AllFileOrder.step (hI : AllFileOrder members log v) (hs : v.exec members a = .ok (r, v')) :
    AllFileOrder members (log ++ [(a, r)]) v' := by
  intro pre post before path bytes fd hopen hlog
  rcases List.eq_nil_or_concat post with rfl | ⟨post, last, rfl⟩
  · obtain ⟨-, hlast⟩ := List.append_inj' hlog rfl
    obtain ⟨rfl, rfl⟩ := Prod.mk.inj (List.cons.inj hlast).1
    exact ⟨bytes, fileOrder_open hopen hs⟩
  · rw [List.concat_eq_append, ← List.cons_append, ← List.append_assoc] at hlog
    obtain ⟨rfl, hlast⟩ := List.append_inj' hlog rfl
    obtain rfl := (List.cons.inj hlast).1
    obtain ⟨rest, hrest⟩ := hI _ _ _ _ _ _ hopen rfl
    rw [List.concat_eq_append]
    exact hrest.step hs

/-- The sample calls with what they return.  The bytes of `bin/ls` are read in two calls, with calls on
another descriptor and a read into a wrong buffer between them. -/
def sampleFileLog : FileLog :=
  sampleCalls.zip (answers (FileAct.exec sampleTarfs 10) (fun _ => FileEntry.zero) sampleCalls).1

/-- **The calls of `read` on a descriptor return the bytes of its file from the front**, whatever other calls
the process or the one it descends from makes between them, and all of them up to the end of the last
block if one of the calls returns 0. -/
theorem reads_in_order {img : Tarfs} {fuel before : ℕ} {path : List ℕ} {acts : List FileAct} {pre : FileLog}
    (h : img.WellFormed members) (ht : Tidy members) (hfuel : img.stop < img.start + 512 * fuel)
    (hal : Along (follow (OpenFiles.exec members)) OpenFiles.Allowed [] acts)
    (hopen : handleOf members path = some (.file bytes))
    (hlog : acts.zip (answers (FileAct.exec img fuel) (fun _ => FileEntry.zero) acts).1 =
      pre ++ (.call (.openFile before path), ((fd : ℤ), [])) :: post) :
    bytesRead fd post <+: bytes ∧ (EndSeen fd post → bytesRead fd post = bytes) := by
  rw [(simulates_openFiles h ht hfuel).answers_eq (shown_nil img) hal] at hlog
  have hnil : AllFileOrder members [] [] := by
    intro pre post before path bytes fd _ hnil
    exact absurd hnil (by simp)
  obtain ⟨v, hv⟩ := answers_history hnil (fun _ _ _ _ _ hI _ hs => hI.step hs) hal
  obtain ⟨rest, hrest⟩ := hv pre post before path bytes fd hopen (by rw [List.nil_append, hlog])
  refine ⟨⟨rest, hrest.append⟩, fun hend => ?_⟩
  rw [← hrest.append, hrest.eof hend, List.append_nil]

theorem reads_in_order_sample : bytesRead 3 sampleFileLog.tail <+: padded [127, 69, 76, 70] ∧
    (EndSeen 3 sampleFileLog.tail → bytesRead 3 sampleFileLog.tail = padded [127, 69, 76, 70]) := by
  have hlog : sampleFileLog =
      [] ++ (FileAct.call (.openFile 0 [98, 105, 110, 47, 108, 115]), (((3 : ℕ) : ℤ), ([] : List ℕ))) ::
        sampleFileLog.tail := by
    decide +kernel
  exact reads_in_order wellFormed_sampleTarfs tidy_sampleMembers (by decide) allowed_sampleCalls
    (by decide +kernel) hlog

end Order

end PlumOs
