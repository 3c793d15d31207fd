import PlumOs.Fs.Inherit
import PlumOs.Fs.Listing
import PlumOs.Libc.Printf

/-!
# The program `cat` (`bin/cat/cat.c`)

`cat` reads the file in pieces of a page into one buffer, and prints the buffer as a string after each
call.  It does not look at the number of bytes that were read.

* `cat` : the function `main` of the source, from the full path on;
* `buffer_first` : what is in the buffer after the first call of `read`;
* `cat_iff` : **the bytes of a member without a 0 are printed exactly if** there are fewer than 4096;
* `cat_fails` : a member of 4096 bytes fills the buffer, and `printf` goes on reading behind it.
-/

namespace PlumOs

/-- `PAGE_SIZE`. -/
abbrev pageSize : ℕ := 4096

/-- What is in the buffer after some bytes are copied to its start. -/
def fillBuf (buf bytes : List ℕ) : List ℕ := bytes ++ buf.drop bytes.length

/-- The loop of `cat`, with at most `rounds` calls of `read`: the characters that it prints.  `print` is
what it does with the buffer. -/
def catLoop (print : List ℕ → Except FsStop (List ℕ)) (img : Tarfs) :
    ℕ → FileTable → ℤ → List ℕ → Except FsStop (List ℕ)
  | 0, _, _, _ => .error .loop
  | rounds + 1, files, fd, buf => do
    let files' ← PlumOs.read img files fd pageSize true
    let (res, bytes) := readResult img files fd.toNat pageSize true
    if 0 < res then
      let buf := fillBuf buf bytes
      let chars ← print buf
      let rest ← catLoop print img rounds files' fd buf
      .ok (chars ++ rest)
    else .ok []

/-- `main` of `cat`, with one argument: the characters that it prints.  `fullpath` is what `get_fullpath`
returns, and `buf` the block that `malloc` returns, with what is in it. -/
def cat (print : List ℕ → Except FsStop (List ℕ)) (img : Tarfs) (before fuel rounds : ℕ)
    (files : FileTable) (fullpath : List ℕ) (buf : Option (List ℕ)) : Except FsStop (List ℕ) := do
  let (fd, files) ← tarfsOpen img before fuel files fullpath [114]
  if 0 < fd then
    match buf with
    | none => .ok []
    | some buf => catLoop print img rounds files fd buf
  else .ok []

/-- `printf("%s", buf)`. -/
def printBuf (buf : List ℕ) : Except FsStop (List ℕ) :=
  match printf [37, 115] [.str (some buf)] with
  | some chars => .ok chars
  | none => .error .overrun

section Printing

variable {img : Tarfs} {print : List ℕ → Except FsStop (List ℕ)} {before fuel rounds q i : ℕ}
  {files : FileTable} {entry : FileEntry} {file : TarfsFile} {content buf path name mode : List ℕ}

/-! ### The calls of `read` -/

/-- What `read` does with the descriptor of a file. -/
theorem read_file (hi : i ∈ slots) (htype : (files i).type = .file) {size : ℕ} (hsize : size ≠ 0) :
    PlumOs.read img files i size true = .ok (Function.update files i
      { files i with toTarfsFile := ((files i).toTarfsFile.read img.mem size).2.2 }) := by
  rw [read_slot img files hi hsize, if_pos htype]
  rfl

/-- A round of the loop, by the result of the call of `read`. -/
theorem catLoop_round (hi : i ∈ slots) (htype : (files i).type = .file) {res : ℕ} {bytes : List ℕ}
    (hread : (files i).toTarfsFile.read img.mem pageSize = (res, bytes, file)) :
    catLoop print img (rounds + 1) files i buf =
      if 0 < res then
        print (fillBuf buf bytes) >>= fun chars =>
        catLoop print img rounds (Function.update files i { files i with toTarfsFile := file }) i
          (fillBuf buf bytes) >>= fun rest =>
        .ok (chars ++ rest)
      else .ok [] := by
  have hres : readResult img files i pageSize true = ((res : ℤ), bytes) := by
    rw [readResult, if_neg (by decide), hread]
    simp
  rw [catLoop, read_file hi htype (by decide), hread, Int.toNat_natCast]
  simp only [ok_bind, hres, Int.natCast_pos]

/-- A round at the end of the file is the last one. -/
theorem catLoop_end (hi : i ∈ slots) (htype : (files i).type = .file)
    (hend : (files i).pos = (files i).size) : catLoop print img (rounds + 1) files i buf = .ok [] := by
  have hread : (files i).toTarfsFile.read img.mem pageSize = (0, [], (files i).toTarfsFile) := by
    rw [TarfsFile.read, if_pos hend]
  rw [catLoop_round hi htype hread, if_neg (Nat.lt_irrefl 0)]

/-- A round before the end of the file: the next bytes are in the buffer, up to a page. -/
theorem catLoop_next (hi : i ∈ slots) (htype : (files i).type = .file)
    (hsound : (files i).toTarfsFile.Sound) (hend : (files i).pos ≠ (files i).size) :
    catLoop print img (rounds + 1) files i buf =
      (print (fillBuf buf ((files i).toTarfsFile.slice img.mem (files i).pos
        (min ((files i).pos + pageSize) (files i).size))) >>= fun chars =>
      catLoop print img rounds
        (Function.update files i { files i with pos := min ((files i).pos + pageSize) (files i).size }) i
        (fillBuf buf ((files i).toTarfsFile.slice img.mem (files i).pos
          (min ((files i).pos + pageSize) (files i).size))) >>= fun rest =>
      .ok (chars ++ rest)) := by
  have hsmall := hsound.small
  have hle := hsound.pos
  have hwrap : (files i).pos + pageSize < 2 ^ 64 := by
    unfold pageSize
    omega
  have hmore : 0 < min ((files i).pos + pageSize) (files i).size - (files i).pos := by
    unfold pageSize
    omega
  rw [catLoop_round hi htype (TarfsFile.read_nowrap hsound hend (by decide) hwrap), if_pos hmore]

/-! ### The buffer -/

/-- A member is in the archive with zeros behind it. -/
theorem RegularMember.slice_padded (h : RegularMember img.mem q content) {size pos hi : ℕ}
    (hlo : content.length ≤ hi) (hhi : hi ≤ paddedSize content) :
    TarfsFile.slice img.mem ⟨q + tarfsHeader, size, pos⟩ 0 hi =
      content ++ List.replicate (hi - content.length) 0 := by
  rw [← TarfsFile.slice_append (Nat.zero_le _) hlo, h.slice_eq]
  congr 1
  refine List.ext_getElem (by simp) fun j h₁ h₂ => ?_
  rw [List.length_replicate] at h₂
  simp only [TarfsFile.slice, List.getElem_map, List.getElem_range', List.getElem_replicate, Nat.one_mul]
  unfold paddedSize at hhi
  exact h.padding _ (by omega) (by omega)

/-- **The buffer after the first call** of `read`, on a member that fits into it. -/
theorem buffer_first (h : RegularMember img.mem q content) (hlen : content.length < pageSize)
    {size pos : ℕ} : fillBuf (List.replicate pageSize 0)
        (TarfsFile.slice img.mem ⟨q + tarfsHeader, size, pos⟩ 0 (paddedSize content)) =
      content ++ List.replicate (pageSize - content.length) 0 := by
  have hpad : content.length ≤ paddedSize content ∧ paddedSize content ≤ pageSize := by
    unfold pageSize at hlen ⊢
    unfold paddedSize
    omega
  rw [h.slice_padded hpad.1 (Nat.le_refl _), fillBuf, List.drop_replicate, List.append_assoc,
    List.replicate_append_replicate, List.length_append, List.length_replicate]
  congr 2
  omega

/-- A whole page of the member is in the buffer, without a 0. -/
theorem buffer_full (h : RegularMember img.mem q content) (hlen : pageSize ≤ content.length)
    (hbuf : buf.length = pageSize) {size pos : ℕ} :
    fillBuf buf (TarfsFile.slice img.mem ⟨q + tarfsHeader, size, pos⟩ 0 pageSize) =
      content.take pageSize := by
  have hslice : TarfsFile.slice img.mem ⟨q + tarfsHeader, size, pos⟩ 0 pageSize =
      content.take pageSize := by
    refine List.ext_getElem (by simp [hlen]) fun j h₁ h₂ => ?_
    rw [TarfsFile.length_slice] at h₁
    rw [List.getElem_take]
    simp only [TarfsFile.slice, List.getElem_map, List.getElem_range', Nat.zero_add, Nat.one_mul]
    exact h.bytes j (by omega)
  rw [hslice, fillBuf, List.drop_eq_nil_of_le (by rw [List.length_take]; omega), List.append_nil]

/-! ### What is printed -/

/-- `tarfs_open` has stored the member in the slot. -/
structure OpenedAt (img : Tarfs) (q : ℕ) (name content : List ℕ) (entry : FileEntry) : Prop where
  member : RegularMember img.mem q content
  entry : ∃ old : FileEntry, old.pos = 0 ∧
    entry = old.openMember [114] q (.file name content)

theorem OpenedAt.file_eq (h : OpenedAt img q name content entry) :
    entry.type = .file ∧ entry.toTarfsFile = ⟨q + tarfsHeader, paddedSize content, 0⟩ := by
  obtain ⟨old, hpos, rfl⟩ := h.entry
  refine ⟨rfl, ?_⟩
  simp only [FileEntry.openMember, hpos]

/-- **The loop prints the member exactly if** it has fewer bytes than the buffer. -/
theorem catLoop_iff (hi : i ∈ slots) (h : OpenedAt img q name content (files i)) (hzero : 0 ∉ content)
    (hrounds : 2 ≤ rounds) : catLoop printBuf img rounds files i (List.replicate pageSize 0) =
      .ok content ↔ content.length < pageSize := by
  obtain ⟨rounds, rfl⟩ := Nat.exists_eq_add_of_le' hrounds
  obtain ⟨htype, hfile⟩ := h.file_eq
  have hsound : (files i).toTarfsFile.Sound := by
    rw [hfile]
    exact h.member.sound
  have hpos : (files i).pos = 0 := by rw [hfile]
  have hsize : (files i).size = paddedSize content := by rw [hfile]
  by_cases hempty : content = []
  · subst hempty
    rw [catLoop_end hi htype (by rw [hpos, hsize]; rfl)]
    simp
  have hlt : 0 < content.length := List.length_pos_of_ne_nil hempty
  have hend : (files i).pos ≠ (files i).size := by
    rw [hpos, hsize]
    unfold paddedSize
    omega
  rw [catLoop_next hi htype hsound hend, hpos, hsize, hfile, Nat.zero_add]
  by_cases hlen : content.length < pageSize
  · have hmin : min pageSize (paddedSize content) = paddedSize content := by
      unfold pageSize at hlen ⊢
      unfold paddedSize
      omega
    obtain ⟨n, hn⟩ := Nat.exists_eq_add_of_lt hlen
    have hrest : pageSize - content.length = n + 1 := by omega
    have hprint : printBuf (content ++ List.replicate (pageSize - content.length) 0) = .ok content := by
      have hstring := stringIn_append hzero n []
      rw [List.append_nil] at hstring
      rw [printBuf, hrest, printf_str, hstring]
      rw [List.length_append, List.length_replicate]
      unfold maxBufSize
      unfold pageSize at hrest
      omega
    have hlast : catLoop printBuf img (rounds + 1) (Function.update files i
        { files i with pos := paddedSize content }) i
          (content ++ List.replicate (pageSize - content.length) 0) = .ok [] := by
      refine catLoop_end hi ?_ ?_
      · rw [Function.update_self]
        exact htype
      · rw [Function.update_self]
        exact hsize.symm
    rw [hmin, buffer_first h.member hlen, hprint, ok_bind, hlast, ok_bind, List.append_nil]
    exact iff_of_true rfl hlen
  · -- no byte of the buffer is 0
    have hmin : min pageSize (paddedSize content) = pageSize := by
      unfold pageSize at hlen ⊢
      unfold paddedSize
      omega
    have hfull : (content.take pageSize).length ≤ maxBufSize := by
      rw [List.length_take]
      unfold pageSize maxBufSize
      omega
    have hnone : stringIn (content.take pageSize) = none :=
      if_neg fun hmem => hzero (List.mem_of_mem_take hmem)
    have hprint : printBuf (content.take pageSize) = .error .overrun := by
      rw [printBuf, printf_str hfull, hnone]
    rw [hmin, buffer_full h.member (not_lt.1 hlen) (List.length_replicate ..), hprint]
    exact iff_of_false (fun hcase => nomatch hcase) hlen

/-- After the file is opened, only the loop is left. -/
theorem cat_eq (hi : i ∈ slots)
    (hopen : tarfsOpen img before fuel files path [114] = .ok (i, Function.update files i entry)) :
    cat print img before fuel rounds files path (some buf) =
      catLoop print img rounds (Function.update files i entry) i buf := by
  have hrange : 3 ≤ i ∧ i < 20 := mem_slots.1 hi
  rw [cat, hopen, ok_bind]
  simp only
  rw [if_pos (by omega)]

/-- **`cat` prints a member without a 0 exactly if** it has fewer bytes than the buffer. -/
theorem cat_iff (hi : i ∈ slots) (h : OpenedAt img q name content entry)
    (hopen : tarfsOpen img before fuel files path [114] = .ok (i, Function.update files i entry))
    (hzero : 0 ∉ content) (hrounds : 2 ≤ rounds) :
    cat printBuf img before fuel rounds files path (some (List.replicate pageSize 0)) = .ok content ↔
      content.length < pageSize := by
  have hat : OpenedAt img q name content (Function.update files i entry i) := by
    rw [Function.update_self]
    exact h
  rw [cat_eq hi hopen]
  exact catLoop_iff hi hat hzero hrounds

/-- A process that has opened nothing yet opens the first member. -/
theorem opened_first (before : ℕ) {members : List Member}
    (h : img.WellFormed (.file name content :: members)) (hlen : name.length < 63) (hfuel : img.stop < img.start + 512 * fuel) :
    ∃ entry, OpenedAt img img.start name content entry ∧
      tarfsOpen img before fuel (fun _ => FileEntry.zero) name [114] =
        .ok ((3 : ℕ), Function.update (fun _ => FileEntry.zero) 3 entry) := by
  have hproper : ProperName name := h.names (.file name content) (List.mem_cons_self ..)
  have hpath : IsPath name := h.isPath (List.mem_cons_self ..)
  have hstripped : stripped name = name := by
    obtain ⟨c, l, rfl⟩ := List.exists_cons_of_ne_nil hproper.nonempty
    exact List.dropWhile_cons_of_neg (by simpa using hproper.relative)
  have hroot : ¬IsRoot name := fun hroot => hproper.nonempty (by rw [← hstripped, hroot.stripped_eq hpath])
  have hfind : lookup img.start (.file name content :: members) (stripped name) =
      some (img.start, .file name content) := by
    rw [hstripped, lookup, membersAt, List.find?_cons_of_pos (by simp [Member.Named])]
  exact ⟨_, ⟨h.laid.1.2, _, rfl, rfl⟩,
    h.tarfsOpen_member hpath hlen hroot hfuel (by decide) (by decide) hfind⟩

end Printing

/-- One file `a`, with this number of characters. -/
def oneFile (n : ℕ) : List Member := [.file [97] (List.replicate n 120)]

/-- The archive with this file. -/
def oneFileTarfs (n : ℕ) : Tarfs := archiveOf 0xffffffff80000000 (oneFile n)

theorem wellFormed_oneFileTarfs (n : ℕ) (hn : n ≤ 5000) : (oneFileTarfs n).WellFormed (oneFile n) := by
  have hproper : ProperName [97] := ⟨by decide, by decide, by decide, by decide⟩
  refine wellFormed_archiveOf (fun m hm => ?_) (Nat.le_refl _) ?_
  · obtain rfl := List.mem_singleton.1 hm
    refine ⟨hproper, (fun h => nomatch h), (show ∀ c ∈ [97], c ≠ 0 ∧ c < 256 by decide), fun c hc => ?_⟩
    rw [List.eq_of_mem_replicate hc]
    decide
  · simp only [oneFile, totalSize, List.map_cons, List.map_nil, List.sum_cons, List.sum_nil, Member.size,
      paddedSize, List.length_replicate, tarfsHeader]
    omega

/-- A file of 600 characters is printed. -/
theorem cat_iff_small : cat printBuf (oneFileTarfs 600) 0 ((oneFileTarfs 600).stop + 1) 2
      (fun _ => FileEntry.zero) [97] (some (List.replicate pageSize 0)) =
    .ok (List.replicate 600 120) := by
  have hfuel : (oneFileTarfs 600).stop <
      (oneFileTarfs 600).start + 512 * ((oneFileTarfs 600).stop + 1) := by omega
  obtain ⟨entry, hat, hopen⟩ := opened_first 0 (wellFormed_oneFileTarfs 600 (by decide)) (by decide) hfuel
  refine (cat_iff (by decide) hat hopen ?_ (by decide)).2 ?_
  · exact fun h => absurd (List.eq_of_mem_replicate h) (by decide)
  · rw [List.length_replicate]
    decide

/-- A file of 4096 characters is not. -/
theorem cat_fails : ¬∀ (img : Tarfs) (before fuel rounds q i : ℕ) (files : FileTable) (entry : FileEntry)
    (path name content : List ℕ), i ∈ slots → OpenedAt img q name content entry →
      tarfsOpen img before fuel files path [114] = .ok (i, Function.update files i entry) →
      0 ∉ content → 2 ≤ rounds →
      cat printBuf img before fuel rounds files path (some (List.replicate pageSize 0)) =
        .ok content := by
  intro hall
  have hfuel : (oneFileTarfs 4096).stop <
      (oneFileTarfs 4096).start + 512 * ((oneFileTarfs 4096).stop + 1) := by omega
  obtain ⟨entry, hat, hopen⟩ := opened_first 0 (wellFormed_oneFileTarfs 4096 (by decide)) (by decide) hfuel
  have hzero : 0 ∉ List.replicate 4096 120 := fun h => absurd (List.eq_of_mem_replicate h) (by decide)
  have hprint := hall _ 0 _ 2 _ 3 _ entry _ _ _ (by decide) hat hopen hzero (by decide)
  have hat' : OpenedAt (oneFileTarfs 4096) (oneFileTarfs 4096).start [97] (List.replicate 4096 120)
      (Function.update (fun _ => FileEntry.zero) 3 entry 3) := by
    rw [Function.update_self]
    exact hat
  rw [cat_eq (by decide) hopen, catLoop_iff (by decide) hat' hzero (by decide),
    List.length_replicate] at hprint
  exact absurd hprint (by decide)

end PlumOs
