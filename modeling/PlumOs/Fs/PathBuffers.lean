import PlumOs.Fs.Open
import PlumOs.Lib.Traced

/-!
# The buffers for a path (`sys/tarfs.c`, `sys/string.c`)

`tarfs_open` copies a path to `newfname`, `traverse_tarfs` what it looks for to `name`; both are arrays
of 64 bytes on the stack.  The path is compared with the 128 bytes of `FILE_NAME_SIZE`, and only after
that.

* `strncpyPlaces`, `traverseStores`, `tarfsOpenStores` : the functions of the source, with the places of
  the arrays that they store to, as if the arrays had no end;
* `tarfsOpen_eq_stores` : where all the places are inside, this is `tarfsOpen`;
* `MeetsDir` : the search comes to a directory;
* `pathFits_iff` : **the arrays hold a path exactly if** it has fewer than 63 bytes after the `/`s at its
  front, or 63 bytes and no `/` is appended.
-/

namespace PlumOs

/-! ### Stores -/

/-- The arrays. -/
inductive PathBuffer where
  | newfname
  | name
  deriving DecidableEq, Repr

/-- The places that `strncpy` stores to: one for each character, and the last one for the 0. -/
def strncpyPlaces (src : List ℕ) (size : ℕ) : List ℕ := List.range (min size src.length + 1)

/-- Stores to these places of an array. -/
def storesTo (b : PathBuffer) (places : List ℕ) : Traced FsStop (PathBuffer × ℕ) Unit :=
  ⟨places.map fun i => (b, i), .ok ()⟩

/-- The places of `name`, for a directory. -/
def dirnamePlaces (before : ℕ) (filename : List ℕ) : List ℕ :=
  strncpyPlaces filename filename.length ++
    if filename.getLastD before = 47 then [] else [filename.length, filename.length + 1]

/-- `traverse_tarfs`, with at most `fuel` headers. -/
def traverseStores (img : Tarfs) (before : ℕ) (filename : List ℕ) (checker : List ℕ → List ℕ → ℤ) :
    ℕ → ℕ → Traced FsStop (PathBuffer × ℕ) (Option (FileType × ℕ))
  | 0, _ => .lift (.error .loop)
  | fuel + 1, p =>
    if p < img.stop then do
      let name ← .lift (found (cstr img.mem p))
      if img.mem (p + 156) = 53 then do
        storesTo .name (dirnamePlaces before filename)
        if checker (slashed before filename) name = 0 then pure (some (.dir, p))
        else traverseStores img before filename checker fuel ((p + tarfsHeader) % 2 ^ 64)
      else if checker filename name = 0 then pure (some (.file, p))
      else do
        let filesz ← .lift (found (getFilesz img.mem p))
        traverseStores img before filename checker fuel ((p + fileStep filesz) % 2 ^ 64).toNat
    else pure none

/-- The places of `newfname` behind the name of a directory that is opened. -/
def appendPlaces (before : ℕ) (files : FileTable) (filename mode : List ℕ) (type : FileType) : List ℕ :=
  let newfname := filename.dropWhile (· = 47)
  if files.freeSlot ≠ none ∧ mode.length < 16 ∧ filename.length < fileNameSize ∧ ¬IsRoot filename ∧
      type = .dir ∧ newfname.getLastD before ≠ 47 then [newfname.length, newfname.length + 1]
  else []

/-- What `tarfs_open` looks for. -/
def openResStores (img : Tarfs) (before fuel : ℕ) (filename : List ℕ) :
    Traced FsStop (PathBuffer × ℕ) (Option (FileType × ℕ)) :=
  if IsRoot filename then pure (some (.dir, 1))
  else traverseStores img before (filename.dropWhile (· = 47)) strcmp fuel img.start

/-- `tarfs_open`. -/
def tarfsOpenStores (img : Tarfs) (before fuel : ℕ) (files : FileTable) (filename mode : List ℕ) :
    Traced FsStop (PathBuffer × ℕ) (ℤ × FileTable) := do
  let newfname := filename.dropWhile (· = 47)
  storesTo .newfname (strncpyPlaces newfname newfname.length)
  match ← openResStores img before fuel filename with
  | none => pure (-1, files)
  | some (type, res) => do
    storesTo .newfname (appendPlaces before files filename mode type)
    .lift (openSlot img before files filename mode type res)

/-- The name under which `tarfs_open` stores what it has found for a path. -/
def storedName (before : ℕ) (path : List ℕ) (type : FileType) : List ℕ :=
  if IsRoot path then [47]
  else
    match type with
    | .dir => slashed before (stripped path)
    | .file => stripped path

/-- A place inside its array. -/
def Inside (u : PathBuffer × ℕ) : Prop := u.2 < nameSize

instance : DecidablePred Inside := fun u => inferInstanceAs (Decidable (u.2 < nameSize))

/-- The search comes to the header of a directory. -/
inductive MeetsDir (img : Tarfs) (filename : List ℕ) : ℕ → Prop
  | here {p : ℕ} {name : List ℕ} (inside : p < img.stop) (named : cstr img.mem p = some name)
      (dir : img.mem (p + 156) = 53) : MeetsDir img filename p
  | next {p filesz : ℕ} {name : List ℕ} (inside : p < img.stop) (named : cstr img.mem p = some name)
      (file : img.mem (p + 156) ≠ 53) (other : strcmp filename name ≠ 0)
      (size : getFilesz img.mem p = some filesz)
      (rest : MeetsDir img filename ((p + fileStep filesz) % 2 ^ 64).toNat) : MeetsDir img filename p

/-- A call of `tarfs_open` stores to places inside its arrays only, however many headers it needs. -/
def PathFits (img : Tarfs) (before : ℕ) (files : FileTable) (path mode : List ℕ) : Prop :=
  ∀ fuel, ∀ u ∈ (tarfsOpenStores img before fuel files path mode).uses, Inside u

/-! ### Where the arrays are large enough -/

section Places

variable {img : Tarfs} {before fuel p : ℕ} {filename path src : List ℕ}
  {checker : List ℕ → List ℕ → ℤ} {b : PathBuffer} {places : List ℕ} {files : FileTable} {mode : List ℕ}
  {type : FileType}

theorem inside_storesTo : (∀ u ∈ (storesTo b places).uses, Inside u) ↔ ∀ i ∈ places, i < nameSize := by
  rw [storesTo, List.forall_mem_map]
  rfl

theorem checked_storesTo : (storesTo b places).checked Inside .overrun =
    if ∀ i ∈ places, i < nameSize then .ok () else .error .overrun := by
  rw [Traced.checked]
  exact if_congr inside_storesTo rfl rfl

/-- A string fits with the 0 behind it. -/
theorem strncpyPlaces_lt : (∀ i ∈ strncpyPlaces src src.length, i < nameSize) ↔ src.length < nameSize := by
  simp only [strncpyPlaces, Nat.min_self, List.mem_range]
  exact ⟨fun h => h _ (Nat.lt_succ_self _), fun h i hi => by omega⟩

theorem dirnamePlaces_lt :
    (∀ i ∈ dirnamePlaces before filename, i < nameSize) ↔ (slashed before filename).length < nameSize := by
  rw [dirnamePlaces, List.forall_mem_append, strncpyPlaces_lt, slashed]
  split_ifs
  · simp
  · rw [List.length_append, List.length_singleton]
    simp only [List.forall_mem_cons, List.not_mem_nil, false_imp_iff, implies_true, and_true]
    omega

/-- The traversal that stops for the size of the array. -/
theorem traverseTarfs_eq_stores : traverseTarfs img before filename checker fuel p =
    (traverseStores img before filename checker fuel p).checked Inside .overrun := by
  induction fuel generalizing p with
  | zero => rw [traverseTarfs, traverseStores, Traced.checked_lift]
  | succ fuel ih =>
    rw [traverseTarfs, traverseStores]
    by_cases hp : p < img.stop
    · rw [if_pos hp, if_pos hp, Traced.checked_bind, Traced.checked_lift]
      congr 1
      funext name
      by_cases hdir : img.mem (p + 156) = 53
      · rw [if_pos hdir, if_pos hdir, Traced.checked_bind, checked_storesTo]
        simp only [dirnamePlaces_lt]
        by_cases hbuf : nameSize ≤ (slashed before filename).length
        · rw [if_pos hbuf, if_neg (Nat.not_lt.2 hbuf)]
          rfl
        · rw [if_neg hbuf, if_pos (Nat.not_le.1 hbuf), ok_bind]
          split_ifs
          · rw [Traced.checked_pure]
          · exact ih
      · rw [if_neg hdir, if_neg hdir]
        split_ifs
        · rw [Traced.checked_pure]
        · rw [Traced.checked_bind, Traced.checked_lift]
          congr 1
          funext filesz
          exact ih
    · rw [if_neg hp, if_neg hp, Traced.checked_pure]

/-- A directory that is found had room for its name. -/
theorem slashed_lt_of_dir {q : ℕ}
    (h : traverseTarfs img before filename checker fuel p = .ok (some (.dir, q))) :
    (slashed before filename).length < nameSize := by
  induction fuel generalizing p with
  | zero => cases h
  | succ fuel ih =>
    rw [traverseTarfs] at h
    by_cases hp : p < img.stop
    · rw [if_pos hp] at h
      obtain ⟨name, -, h⟩ := bind_eq_ok.1 h
      split_ifs at h with hdir hbuf
      · exact Nat.not_le.1 hbuf
      · exact ih h
      · cases h
      · obtain ⟨filesz, -, h⟩ := bind_eq_ok.1 h
        exact ih h
    · rw [if_neg hp] at h
      cases h

/-- So there is room for the `/` in `newfname`. -/
theorem appendPlaces_lt
    (h : ¬IsRoot path → type = .dir → (slashed before (stripped path)).length < nameSize) :
    ∀ i ∈ appendPlaces before files path mode type, i < nameSize := by
  rw [appendPlaces]
  split_ifs with hadd
  · obtain ⟨-, -, -, hroot, hdir, hlast⟩ := hadd
    have hlt := h hroot hdir
    rw [slashed, stripped, if_neg hlast, List.length_append, List.length_singleton] at hlt
    simp only [List.forall_mem_cons, List.not_mem_nil, false_imp_iff, implies_true, and_true]
    omega
  · exact fun i hi => absurd hi List.not_mem_nil

theorem openRes_eq_stores : openRes img before fuel path =
    (openResStores img before fuel path).checked Inside .overrun := by
  rw [openRes, openResStores]
  split_ifs
  · rw [Traced.checked_pure]
  · exact traverseTarfs_eq_stores

/-- **`tarfs_open` with its stores**, where a store outside of the arrays stops it. -/
theorem tarfsOpen_eq_stores : tarfsOpen img before fuel files path mode =
    (tarfsOpenStores img before fuel files path mode).checked Inside .overrun := by
  rw [tarfsOpen, tarfsOpenStores, Traced.checked_bind, checked_storesTo]
  simp only [strncpyPlaces_lt]
  by_cases hbuf : nameSize ≤ (path.dropWhile (· = 47)).length
  · rw [if_pos hbuf, if_neg (Nat.not_lt.2 hbuf)]
    rfl
  rw [if_neg hbuf, if_pos (Nat.not_le.1 hbuf), ok_bind, Traced.checked_bind, ← openRes_eq_stores]
  cases hfound : openRes img before fuel path with
  | error e => rfl
  | ok res =>
    rw [ok_bind, ok_bind]
    cases res with
    | none => rw [Traced.checked_pure]
    | some res =>
      obtain ⟨type, q⟩ := res
      have hroom : ∀ i ∈ appendPlaces before files path mode type, i < nameSize := by
        refine appendPlaces_lt fun hroot hdir => ?_
        rw [openRes, if_neg hroot, hdir] at hfound
        exact slashed_lt_of_dir hfound
      simp only [Traced.checked_bind, checked_storesTo, if_pos hroom, ok_bind, Traced.checked_lift]

/-- A call that returns stores to places inside, and returns the same. -/
theorem openStores_result {res : ℤ × FileTable}
    (h : tarfsOpen img before fuel files path mode = .ok res) :
    (tarfsOpenStores img before fuel files path mode).result = .ok res := by
  rw [tarfsOpen_eq_stores, Traced.checked] at h
  split_ifs at h
  exact h

/-- A call that returns has found nothing, or has stored what it has found in the first free slot. -/
theorem openStores_cases {fd : ℤ} {files' : FileTable}
    (h : (tarfsOpenStores img before fuel files path mode).result = .ok (fd, files')) :
    (fd = -1 ∧ files' = files) ∨
    ∃ (type : FileType) (q i : ℕ) (entry : FileEntry),
      (openResStores img before fuel path).result = .ok (some (type, q)) ∧ files.freeSlot = some i ∧
        path.length < fileNameSize ∧ fd = i ∧ files' = Function.update files i entry ∧
          entry.free = 1 ∧ entry.name = storedName before path type := by
  have hrun : ((openResStores img before fuel path).result >>= fun res =>
      match res with
      | none => .ok (-1, files)
      | some (type, q) => openSlot img before files path mode type q) = .ok (fd, files') := by
    rw [← h, tarfsOpenStores, Traced.result_bind]
    change _ = (openResStores img before fuel path >>= _).result
    rw [Traced.result_bind]
    congr 1
    funext res
    rcases res with _ | ⟨type, q⟩
    · rfl
    · simp only [Traced.result_bind]
      rfl
  obtain ⟨res, hres, hslot⟩ := bind_eq_ok.1 hrun
  rcases res with _ | ⟨type, q⟩
  · cases hslot
    exact .inl ⟨rfl, rfl⟩
  refine .inr ⟨type, q, ?_⟩
  simp only at hslot
  rw [openSlot] at hslot
  cases hfree : files.freeSlot with
  | none =>
    rw [hfree] at hslot
    cases hslot
  | some i =>
    rw [hfree] at hslot
    simp only at hslot
    unfold storedName
    by_cases hguard : mode.length < 16 ∧ path.length < fileNameSize
    · rw [if_pos hguard] at hslot
      by_cases hroot : IsRoot path
      · rw [if_pos hroot] at hslot ⊢
        cases hslot
        exact ⟨i, _, hres, rfl, hguard.2, rfl, rfl, rfl, rfl⟩
      · rw [if_neg hroot] at hslot ⊢
        cases type with
        | dir =>
          cases hslot
          exact ⟨i, _, hres, rfl, hguard.2, rfl, rfl, rfl, rfl⟩
        | file =>
          obtain ⟨filesz, -, hslot⟩ := bind_eq_ok.1 hslot
          cases hslot
          exact ⟨i, _, hres, rfl, hguard.2, rfl, rfl, rfl, rfl⟩
    · rw [if_neg hguard] at hslot
      cases hslot

theorem length_storedName (before : ℕ) (path : List ℕ) (type : FileType) :
    (storedName before path type).length ≤ path.length + 1 := by
  have hle := length_stripped path
  unfold storedName
  split_ifs
  · exact Nat.le_add_left ..
  · cases type with
    | dir => exact (length_slashed before _).trans (Nat.succ_le_succ hle)
    | file => exact hle.trans (Nat.le_succ _)

/-! ### Archives of members -/

/-- One step of the traversal in an archive of members, as `traverse_member` for names that fit. -/
theorem traverseStores_member {m : Member} (hm : m.At img.mem p) (hlen : m.name.length < 2 ^ 64)
    (hnext : p + m.size + 512 ≤ img.stop) (hstop : img.stop < 2 ^ 64) :
    (traverseStores img before filename checker (fuel + 1) p).result =
      if m.Accepted before filename checker then .ok (some (m.type, p))
      else (traverseStores img before filename checker fuel (p + m.size)).result := by
  have hlt : p < img.stop := by omega
  rw [traverseStores, if_pos hlt]
  cases m with
  | dir name =>
    have hname : cstr img.mem p = some name := hm.strAt.cstr_eq hlen
    have hmod : (p + tarfsHeader) % 2 ^ 64 = p + tarfsHeader := by
      simp only [Member.size] at hnext
      exact Nat.mod_eq_of_lt (by omega)
    rw [hname, Traced.result_bind, found, Traced.result_lift, ok_bind, if_pos hm.2, Traced.result_bind, hmod]
    by_cases hacc : checker (slashed before filename) name = 0
    · have hacc' : (Member.dir name).Accepted before filename checker := hacc
      rw [if_pos hacc']
      simp only [if_pos hacc]
      rfl
    · have hacc' : ¬(Member.dir name).Accepted before filename checker := hacc
      rw [if_neg hacc']
      simp only [if_neg hacc]
      rfl
  | file name content =>
    have hname : cstr img.mem p = some name := hm.strAt.cstr_eq hlen
    have hreg := hm.2
    have himage := hreg.image
    simp only [Member.size, paddedSize] at hnext
    rw [hname, Traced.result_bind, found, Traced.result_lift, ok_bind, if_neg hreg.regular]
    by_cases hacc : checker filename name = 0
    · have hacc' : (Member.file name content).Accepted before filename checker := hacc
      rw [if_pos hacc', if_pos hacc, Traced.result_pure]
      rfl
    · have hacc' : ¬(Member.file name content).Accepted before filename checker := hacc
      rw [if_neg hacc', if_neg hacc, Traced.result_bind, hreg.getFilesz_eq, found, Traced.result_lift,
        ok_bind, add_fileStep (by omega) (by omega), Int.toNat_natCast]
      rfl

/-- The traversal of the blocks of zeros. -/
theorem traverseStores_zeros {k : ℕ} (hk : img.stop = p + 512 * k) (hstop : img.stop < 2 ^ 64)
    (hzero : ∀ i < 512 * k, img.mem (p + i) = 0) (hfuel : k < fuel) :
    ∃ res, (traverseStores img before filename checker fuel p).result = .ok res ∧
      ∀ q, res = some (.file, q) → ∃ n, getFilesz img.mem q = some n := by
  induction k generalizing p fuel with
  | zero =>
    obtain ⟨fuel, rfl⟩ := Nat.exists_eq_succ_of_ne_zero (Nat.ne_of_gt hfuel)
    rw [traverseStores, if_neg (by omega)]
    exact ⟨none, rfl, nofun⟩
  | succ k ih =>
    obtain ⟨fuel, rfl⟩ := Nat.exists_eq_succ_of_ne_zero (Nat.ne_of_gt (Nat.zero_lt_of_lt hfuel))
    obtain ⟨hname, htype, hsize⟩ := getFilesz_zeros fun i hi => hzero i (by omega)
    rw [traverseStores, if_pos (by omega), hname, Traced.result_bind, found, Traced.result_lift, ok_bind,
      if_neg htype]
    by_cases hacc : checker filename [] = 0
    · rw [if_pos hacc]
      refine ⟨some (.file, p), rfl, fun q hq => ?_⟩
      cases hq
      exact ⟨0, hsize⟩
    · have hstep : (((p : ℤ) + fileStep 0) % 2 ^ 64).toNat = p + 512 := by
        rw [show fileStep 0 = 512 from rfl]
        omega
      rw [if_neg hacc, Traced.result_bind, hsize, found, Traced.result_lift, ok_bind, hstep]
      refine ih (by omega) (fun i hi => ?_) (by omega)
      rw [Nat.add_assoc]
      exact hzero (512 + i) (by omega)

/-- **In an archive of members the traversal returns**, and a file that it finds has a size. -/
theorem traverseStores_laid {members : List Member} (h : Laid img p members)
    (hlen : ∀ m ∈ members, m.name.length < 2 ^ 64) (hstop : img.stop < 2 ^ 64)
    (hfuel : img.stop < p + 512 * fuel) :
    ∃ res, (traverseStores img before filename checker fuel p).result = .ok res ∧
      ∀ q, res = some (.file, q) → ∃ n, getFilesz img.mem q = some n := by
  induction members generalizing p fuel with
  | nil =>
    obtain ⟨k, hk, hend, hzero⟩ := h
    exact traverseStores_zeros hend hstop hzero (by omega)
  | cons m members ih =>
    obtain ⟨hm, hrest⟩ := h
    have hge := hrest.stop_ge
    have hsize := m.size_ge
    unfold tarfsHeader at hsize
    obtain ⟨fuel, rfl⟩ : ∃ k, fuel = k + 1 := Nat.exists_eq_succ_of_ne_zero (by omega)
    rw [traverseStores_member hm (hlen m (List.mem_cons_self ..)) (by omega) hstop]
    by_cases hacc : m.Accepted before filename checker
    · rw [if_pos hacc]
      refine ⟨some (m.type, p), rfl, fun q hq => ?_⟩
      cases m with
      | dir name => cases hq
      | file name content =>
        cases hq
        exact ⟨_, hm.2.getFilesz_eq⟩
    · rw [if_neg hacc]
      exact ih hrest (fun x hx => hlen x (List.mem_cons_of_mem m hx)) (by omega)

/-- So `tarfs_open` does not go on for ever. -/
theorem openStores_ne_loop {members : List Member} (h : Laid img img.start members)
    (hlen : ∀ m ∈ members, m.name.length < 2 ^ 64) (hstop : img.stop < 2 ^ 64)
    (hfuel : img.stop < img.start + 512 * fuel) :
    (tarfsOpenStores img before fuel files path mode).result ≠ .error .loop := by
  have hres : ∃ res, (openResStores img before fuel path).result = .ok res ∧
      ∀ q, res = some (.file, q) → ¬IsRoot path → ∃ n, getFilesz img.mem q = some n := by
    rw [openResStores]
    split_ifs with hroot
    · exact ⟨_, rfl, fun q _ hnot => absurd hroot hnot⟩
    · obtain ⟨res, hres, hfile⟩ := traverseStores_laid h hlen hstop hfuel
      exact ⟨res, hres, fun q hq _ => hfile q hq⟩
  obtain ⟨res, hres, hfile⟩ := hres
  have hfirst : ∀ places : List ℕ, (storesTo .newfname places).result = .ok () := fun _ => rfl
  rw [tarfsOpenStores, Traced.result_bind, hfirst, ok_bind, Traced.result_bind, hres, ok_bind]
  rcases res with _ | ⟨type, q⟩
  · intro heq
    cases heq
  simp only [Traced.result_bind, hfirst, ok_bind, Traced.result_lift]
  rw [openSlot]
  cases files.freeSlot with
  | none =>
    intro heq
    cases heq
  | some i =>
    simp only
    split_ifs with hguard hroot
    · intro heq
      cases heq
    · cases type with
      | dir =>
        intro heq
        cases heq
      | file =>
        obtain ⟨n, hn⟩ := hfile q rfl hroot
        rw [hn]
        intro heq
        cases heq
    · intro heq
      cases heq

/-! ### Which paths fit -/

/-- The uses of a step to a header with a name. -/
theorem mem_uses_traverse {name : List ℕ} {u : PathBuffer × ℕ} (hp : p < img.stop)
    (hname : cstr img.mem p = some name) :
    u ∈ (traverseStores img before filename checker (fuel + 1) p).uses ↔
      if img.mem (p + 156) = 53 then u ∈ (storesTo .name (dirnamePlaces before filename)).uses ∨
        checker (slashed before filename) name ≠ 0 ∧
          u ∈ (traverseStores img before filename checker fuel ((p + tarfsHeader) % 2 ^ 64)).uses
      else checker filename name ≠ 0 ∧ ∃ filesz, getFilesz img.mem p = some filesz ∧
        u ∈ (traverseStores img before filename checker fuel
          ((p + fileStep filesz) % 2 ^ 64).toNat).uses := by
  rw [traverseStores, if_pos hp, hname, found, Traced.mem_uses_bind]
  simp only [Traced.uses_lift, List.not_mem_nil, false_or, Traced.result_lift, Except.ok.injEq,
    exists_eq_left']
  by_cases hdir : img.mem (p + 156) = 53
  · rw [if_pos hdir, if_pos hdir, Traced.mem_uses_bind]
    refine or_congr_right ?_
    by_cases hacc : checker (slashed before filename) name = 0
    · simp [hacc, storesTo]
    · simp [hacc, storesTo]
  · rw [if_neg hdir, if_neg hdir]
    by_cases hacc : checker filename name = 0
    · simp [hacc]
    · rw [if_neg hacc, Traced.mem_uses_bind]
      cases getFilesz img.mem p with
      | none => simp [found]
      | some filesz => simp [found, hacc]

/-- A directory that the traversal comes to needs its name in the array. -/
theorem MeetsDir.uses (h : MeetsDir img filename p) :
    ∃ fuel, ∀ i ∈ dirnamePlaces before filename,
      (.name, i) ∈ (traverseStores img before filename strcmp fuel p).uses := by
  induction h with
  | here inside named dir =>
    refine ⟨1, fun i hi => ?_⟩
    rw [mem_uses_traverse inside named, if_pos dir]
    exact .inl (List.mem_map_of_mem hi)
  | next inside named file other size rest ih =>
    obtain ⟨fuel, huses⟩ := ih
    refine ⟨fuel + 1, fun i hi => ?_⟩
    rw [mem_uses_traverse inside named, if_neg file]
    exact ⟨other, _, size, huses i hi⟩

/-- Without one the array is not used. -/
theorem uses_eq_nil (h : ¬MeetsDir img filename p) :
    (traverseStores img before filename strcmp fuel p).uses = [] := by
  induction fuel generalizing p with
  | zero => rfl
  | succ fuel ih =>
    refine List.eq_nil_iff_forall_not_mem.2 fun u hu => ?_
    by_cases hp : p < img.stop
    · cases hname : cstr img.mem p with
      | none =>
        rw [traverseStores, if_pos hp, hname] at hu
        exact absurd hu List.not_mem_nil
      | some name =>
        rw [mem_uses_traverse hp hname] at hu
        by_cases hdir : img.mem (p + 156) = 53
        · exact h (.here hp hname hdir)
        · rw [if_neg hdir] at hu
          obtain ⟨hother, filesz, hsize, hrest⟩ := hu
          rw [ih fun hmeet => h (.next hp hname hdir hother hsize hmeet)] at hrest
          exact absurd hrest List.not_mem_nil
    · rw [traverseStores, if_neg hp] at hu
      exact absurd hu List.not_mem_nil

/-- With room for the name of a directory the array is large enough. -/
theorem traverse_inside (h : (slashed before filename).length < nameSize) :
    ∀ u ∈ (traverseStores img before filename strcmp fuel p).uses, Inside u := by
  induction fuel generalizing p with
  | zero => exact fun u hu => absurd hu List.not_mem_nil
  | succ fuel ih =>
    intro u hu
    by_cases hp : p < img.stop
    · cases hname : cstr img.mem p with
      | none =>
        rw [traverseStores, if_pos hp, hname] at hu
        exact absurd hu List.not_mem_nil
      | some name =>
        rw [mem_uses_traverse hp hname] at hu
        split_ifs at hu
        · obtain hstore | ⟨-, hrest⟩ := hu
          · exact inside_storesTo.2 (dirnamePlaces_lt.2 h) u hstore
          · exact ih u hrest
        · obtain ⟨-, filesz, -, hrest⟩ := hu
          exact ih u hrest
    · rw [traverseStores, if_neg hp] at hu
      exact absurd hu List.not_mem_nil

/-- The traversal keeps to its array exactly if there is room for the name of a directory, or it does not
come to one. -/
theorem traverse_inside_iff :
    (∀ fuel, ∀ u ∈ (traverseStores img before filename strcmp fuel p).uses, Inside u) ↔
      (slashed before filename).length < nameSize ∨ ¬MeetsDir img filename p := by
  constructor
  · intro hinside
    by_contra hcon
    rw [not_or, not_not] at hcon
    have hcomes : ∃ fuel, ∀ i ∈ dirnamePlaces before filename,
        (.name, i) ∈ (traverseStores img before filename strcmp fuel p).uses := hcon.2.uses
    obtain ⟨fuel, huses⟩ := hcomes
    exact hcon.1 (dirnamePlaces_lt.1 fun i hi => hinside fuel _ (huses i hi))
  · rintro (hlt | hnone) fuel
    · exact traverse_inside hlt
    · rw [uses_eq_nil hnone]
      exact fun u hu => absurd hu List.not_mem_nil

/-- The stores of a call, by its parts. -/
theorem tarfsOpen_inside_iff :
    (∀ u ∈ (tarfsOpenStores img before fuel files path mode).uses, Inside u) ↔
      (stripped path).length < nameSize ∧ ∀ u ∈ (openResStores img before fuel path).uses, Inside u := by
  rw [tarfsOpenStores]
  constructor
  · intro h
    constructor
    · refine strncpyPlaces_lt.1 (inside_storesTo (b := .newfname).1 fun u hu => h u ?_)
      exact Traced.mem_uses_bind.2 (.inl hu)
    · exact fun u hu => h u (Traced.mem_uses_bind.2 (.inr ⟨(), rfl, Traced.mem_uses_bind.2 (.inl hu)⟩))
  · rintro ⟨hlen, hres⟩ u hu
    obtain hu | ⟨⟨⟩, -, hu⟩ := Traced.mem_uses_bind.1 hu
    · exact inside_storesTo.2 (strncpyPlaces_lt.2 hlen) u hu
    obtain hu | ⟨res, hfound, hu⟩ := Traced.mem_uses_bind.1 hu
    · exact hres u hu
    cases res with
    | none => exact absurd hu List.not_mem_nil
    | some res =>
      obtain ⟨type, q⟩ := res
      have hopen : openRes img before fuel path = .ok (some (type, q)) := by
        rw [openRes_eq_stores, Traced.checked, if_pos hres, hfound]
      obtain hu | ⟨⟨⟩, -, hu⟩ := Traced.mem_uses_bind.1 hu
      · refine inside_storesTo.2 (appendPlaces_lt fun hroot hdir => ?_) u hu
        rw [openRes, if_neg hroot, hdir] at hopen
        exact slashed_lt_of_dir hopen
      · exact absurd hu List.not_mem_nil

/-- The root directory has a short path. -/
theorem IsRoot.length_le (h : IsRoot path) : path.length ≤ 3 := by
  have hlen : ∀ src : List ℕ, strcmp path src = 0 → path.length = src.length := by
    intro src hsrc
    rw [strcmp] at hsrc
    split_ifs at hsrc with hne
    exact not_not.1 hne
  obtain h | h | h := h <;> rw [hlen _ h] <;> decide

/-- **The arrays hold a path exactly if** fewer than 63 bytes of it are behind the `/`s at its front, or
63 bytes and no `/` is appended. -/
theorem pathFits_iff : PathFits img before files path mode ↔
    (stripped path).length + 1 < nameSize ∨ (stripped path).length < nameSize ∧
      ((stripped path).getLastD before = 47 ∨ ¬MeetsDir img (stripped path) img.start) := by
  have hslashed : (slashed before (stripped path)).length < nameSize ↔
      (stripped path).length + 1 < nameSize ∨
        (stripped path).length < nameSize ∧ (stripped path).getLastD before = 47 := by
    rw [slashed]
    split_ifs with hlast
    · simp only [hlast, and_true]
      omega
    · rw [List.length_append, List.length_singleton]
      simp only [hlast, and_false, or_false]
  have hfits : PathFits img before files path mode ↔ (stripped path).length < nameSize ∧
      ∀ fuel, ∀ u ∈ (openResStores img before fuel path).uses, Inside u := by
    simp only [PathFits, tarfsOpen_inside_iff]
    exact ⟨fun h => ⟨(h 0).1, fun fuel => (h fuel).2⟩, fun h fuel => ⟨h.1, h.2 fuel⟩⟩
  rw [hfits]
  by_cases hroot : IsRoot path
  · have hshort := (length_stripped path).trans hroot.length_le
    unfold nameSize
    refine iff_of_true ⟨by omega, fun fuel u hu => ?_⟩ (.inl (by omega))
    rw [openResStores, if_pos hroot] at hu
    exact absurd hu List.not_mem_nil
  · simp only [openResStores, if_neg hroot]
    rw [← stripped, traverse_inside_iff, hslashed]
    constructor
    · rintro ⟨hlen, (hroom | ⟨-, hlast⟩) | hnone⟩
      · exact .inl hroom
      · exact .inr ⟨hlen, .inl hlast⟩
      · exact .inr ⟨hlen, .inr hnone⟩
    · rintro (hroom | ⟨hlen, hlast | hnone⟩)
      · exact ⟨by omega, .inl (.inl hroom)⟩
      · exact ⟨hlen, .inl (.inr ⟨hlen, hlast⟩)⟩
      · exact ⟨hlen, .inr hnone⟩

end Places

/-- A path of 64 bytes is too long for `newfname`. -/
theorem pathFits_fails : ¬∀ (img : Tarfs) (before : ℕ) (files : FileTable) (path mode : List ℕ),
    IsPath path → path.length < fileNameSize → PathFits img before files path mode := by
  intro h
  have hpath : IsPath (List.replicate 64 97) := fun c hc => by
    rw [List.eq_of_mem_replicate hc]
    decide
  have hfits := h sampleTarfs 0 (fun _ => FileEntry.zero) _ [114] hpath (by decide) 0 (.newfname, 64)
  exact absurd (hfits (by decide)) (by decide)

end PlumOs
