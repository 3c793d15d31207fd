import PlumOs.Shell.Search

/-!
# The components of `PATH` (`locate_executable_file` of `libc/shlib.c`)

Each directory of `PATH` is joined with the name of the program, with a `/` between them if it has none
at its end.  The last directory is handled by a piece of code of its own.

* `joinPath`, `searched` : a directory and a name, and what a search is meant to find;
* `locateIn_eq_iff` : the search in the directories;
* `locate_iff` : **the search treats all directories alike exactly if** the program is found before the
  last one, or the last one makes no difference: it ends with no `/` and its path with the name is not as
  long as the buffer, or no such file exists;
* `locate_fails` : a program in the last directory of `/bin/:/lib/`.
-/

namespace PlumOs

/-- A directory and a name, with a `/` between them if the directory does not end with one. -/
def joinPath (dir filename : List ℕ) : List ℕ :=
  if dir.getLast? = some 47 then dir ++ filename else dir ++ 47 :: filename

/-- The file itself, or the first one in the directories that exists. -/
def searched (doesExist : List ℕ → Bool) (dirs : List (List ℕ)) (filename : List ℕ) : Option (List ℕ) :=
  if doesExist filename then some filename
  else (dirs.map fun dir => joinPath dir filename).find? doesExist

/-- The code for the last directory does with it what the code for the others would do. -/
def LastAlike (doesExist : List ℕ → Bool) (filename dir : List ℕ) : Prop :=
  if dir.getLast? = some 47 then
    doesExist (dir ++ filename) = false ∧
      (filename.length + dir.length + 1 < maxBufferSize - 1 → doesExist (dir ++ 47 :: filename) = false)
  else doesExist (dir ++ 47 :: filename) = true → filename.length + dir.length + 1 < maxBufferSize - 1

instance (doesExist : List ℕ → Bool) (filename dir : List ℕ) : Decidable (LastAlike doesExist filename dir) :=
  by unfold LastAlike; infer_instance

variable {doesExist : List ℕ → Bool} {before : ℕ} {filename dir : List ℕ} {dirs : List (List ℕ)}

theorem joinPath_eq (before : ℕ) (hdir : dir ≠ []) : slashed before dir ++ filename = joinPath dir filename := by
  have hlast : dir.getLastD before = 47 ↔ dir.getLast? = some 47 := by
    rw [List.getLastD_eq_getLast?, List.getLast?_eq_some_getLast hdir, Option.getD_some, Option.some.injEq]
  rw [slashed, joinPath]
  by_cases h : dir.getLast? = some 47
  · rw [if_pos (hlast.2 h), if_pos h]
  · rw [if_neg (mt hlast.1 h), if_neg h, List.append_assoc]
    rfl

theorem joined_eq (before : ℕ) (hdir : dir ≠ []) (hlen : dir.length + 1 + filename.length < maxBufferSize) :
    joined before dir filename = .ok (joinPath dir filename) := by
  have hjoin : (joinPath dir filename).length < maxBufferSize := by
    rw [joinPath]
    split
    · rw [List.length_append]
      omega
    · rw [List.length_append, List.length_cons]
      omega
  simp only [joined, joinPath_eq before hdir, if_pos hjoin]

/-- What the code for the last directory finds. -/
theorem locateIn_last (hdir : dir ≠ []) :
    (locateIn (pureTest fun p => .ok (doesExist p)) before filename [dir] ()).map Prod.fst =
      .ok (if filename.length + dir.length + 1 < maxBufferSize - 1 ∧ doesExist (dir ++ 47 :: filename) = true
        then some (dir ++ 47 :: filename) else none) := by
  rw [locateIn]
  by_cases hlen : filename.length + dir.length + 1 < maxBufferSize - 1
  · rw [if_pos ⟨hdir, hlen⟩]
    by_cases hexist : doesExist (dir ++ 47 :: filename) = true
    · rw [if_pos ⟨hlen, hexist⟩, pureTest, hexist]
      rfl
    · rw [if_neg fun h => hexist h.2, pureTest, Bool.eq_false_iff.2 hexist]
      rfl
  · rw [if_neg fun h => hlen h.2, if_neg fun h => hlen h.1]
    rfl

/-- The code for the last directory finds what it is meant to, exactly if it is like that for the
others. -/
theorem locateIn_last_iff (hdir : dir ≠ []) :
    (locateIn (pureTest fun p => .ok (doesExist p)) before filename [dir] ()).map Prod.fst =
        .ok ([joinPath dir filename].find? doesExist) ↔ LastAlike doesExist filename dir := by
  rw [locateIn_last hdir, Except.ok.injEq, LastAlike, joinPath]
  by_cases hslash : dir.getLast? = some 47
  · rw [if_pos hslash, if_pos hslash, List.find?_singleton]
    have hne : dir ++ 47 :: filename ≠ dir ++ filename := fun h =>
      absurd (congrArg List.length (List.append_cancel_left h)) (by simp)
    by_cases hcode : filename.length + dir.length + 1 < maxBufferSize - 1 ∧
        doesExist (dir ++ 47 :: filename) = true
    · rw [if_pos hcode]
      refine iff_of_false (fun h => ?_) fun h => Bool.false_ne_true ((h.2 hcode.1).symm.trans hcode.2)
      split at h
      · exact hne (Option.some.inj h)
      · cases h
    · rw [if_neg hcode, ← Bool.not_eq_true (doesExist (dir ++ filename))]
      have hno : filename.length + dir.length + 1 < maxBufferSize - 1 →
          doesExist (dir ++ 47 :: filename) = false := fun hlen =>
        Bool.eq_false_iff.2 fun hexist => hcode ⟨hlen, hexist⟩
      rw [and_iff_left hno]
      by_cases hmeant : doesExist (dir ++ filename) = true
      · rw [if_pos hmeant]
        exact iff_of_false (fun h => by cases h) (not_not.2 hmeant)
      · rw [if_neg hmeant]
        exact iff_of_true rfl hmeant
  · rw [if_neg hslash, if_neg hslash, List.find?_singleton]
    by_cases hexist : doesExist (dir ++ 47 :: filename) = true
    · rw [if_pos hexist]
      by_cases hlen : filename.length + dir.length + 1 < maxBufferSize - 1
      · rw [if_pos ⟨hlen, hexist⟩]
        exact iff_of_true rfl fun _ => hlen
      · rw [if_neg fun h => hlen h.1]
        exact iff_of_false (fun h => by cases h) fun h => hlen (h hexist)
    · rw [if_neg fun h => hexist h.2, if_neg hexist]
      exact iff_of_true rfl fun h => absurd h hexist

/-- A directory in front of others. -/
theorem locateIn_cons {dir' : List ℕ} (hdir : dir ≠ [])
    (hlen : dir.length + 1 + filename.length < maxBufferSize) :
    locateIn (pureTest fun p => .ok (doesExist p)) before filename (dir :: dir' :: dirs) () =
      if doesExist (joinPath dir filename) = true then .ok (some (joinPath dir filename), ())
      else locateIn (pureTest fun p => .ok (doesExist p)) before filename (dir' :: dirs) () := by
  rw [locateIn, joined_eq before hdir hlen, ok_bind, if_neg (by omega)]
  cases hexist : doesExist (joinPath dir filename) with
  | true =>
    rw [pureTest, hexist]
    rfl
  | false =>
    rw [pureTest, hexist]
    rfl

/-- **The search in the directories** finds what it is meant to, exactly if the last one does not come to
it or makes no difference. -/
theorem locateIn_eq_iff (before : ℕ) (hdirs : ∀ dir ∈ dirs, dir ≠ [])
    (hlen : ∀ dir ∈ dirs, dir.length + 1 + filename.length < maxBufferSize) :
    (locateIn (pureTest fun p => .ok (doesExist p)) before filename dirs ()).map Prod.fst =
        .ok ((dirs.map fun dir => joinPath dir filename).find? doesExist) ↔
      (∃ dir ∈ dirs.dropLast, doesExist (joinPath dir filename) = true) ∨
        ∀ dir ∈ dirs.getLast?, LastAlike doesExist filename dir := by
  induction dirs with
  | nil =>
    refine iff_of_true rfl (.inr fun dir h => ?_)
    cases h
  | cons dir dirs ih =>
    obtain ⟨hdir, hdirs⟩ := List.forall_mem_cons.1 hdirs
    obtain ⟨hlendir, hlen⟩ := List.forall_mem_cons.1 hlen
    cases dirs with
    | nil =>
      rw [List.map_singleton, locateIn_last_iff hdir, List.dropLast_singleton, List.getLast?_singleton]
      simp
    | cons dir' dirs =>
      rw [locateIn_cons hdir hlendir, List.map_cons, List.dropLast_cons_cons, List.getLast?_cons_cons,
        List.exists_mem_cons_iff, or_assoc]
      by_cases hexist : doesExist (joinPath dir filename) = true
      · rw [if_pos hexist, List.find?_cons_of_pos hexist]
        exact iff_of_true rfl (.inl hexist)
      · rw [if_neg hexist, List.find?_cons_of_neg hexist, or_iff_right hexist]
        exact ih hdirs hlen

/-- **The search treats all directories alike exactly if** the program is found before the last one, or
the last one makes no difference. -/
theorem locate_iff {varList : List (List ℕ)}
    (hpath : getVar varList [80, 65, 84, 72, 61] = some ([58].intercalate dirs))
    (hdirs : ∀ dir ∈ dirs, dir ≠ [] ∧ 58 ∉ dir)
    (hlen : ∀ dir ∈ dirs, dir.length + 1 + filename.length < maxBufferSize) :
    (locateExecutableFile (pureTest fun p => .ok (doesExist p)) before filename varList ()).map Prod.fst =
        .ok (searched doesExist dirs filename) ↔
      doesExist filename = true ∨ (∃ dir ∈ dirs.dropLast, doesExist (joinPath dir filename) = true) ∨
        ∀ dir ∈ dirs.getLast?, LastAlike doesExist filename dir := by
  rw [locateExecutableFile, searched, pureTest]
  cases hexist : doesExist filename with
  | true => exact iff_of_true rfl (.inl rfl)
  | false =>
    rw [or_iff_right Bool.false_ne_true,
      ← locateIn_eq_iff before (fun dir hdir => (hdirs dir hdir).1) hlen]
    simp only [hpath]
    cases dirs with
    | nil => exact Iff.rfl
    | cons dir dirs =>
      have hsplit : ([58].intercalate (dir :: dirs)).splitOn 58 = dir :: dirs :=
        List.splitOn_intercalate 58 (fun d hd => (hdirs d hd).2) (List.cons_ne_nil dir dirs)
      rw [hsplit]
      exact Iff.rfl

/-- `ls` with `PATH=/bin:/lib`, where `/bin/ls` exists. -/
theorem locate_bin_ls :
    (locateExecutableFile (pureTest fun p => .ok (p == [47, 98, 105, 110, 47, 108, 115])) 0 [108, 115]
        [[80, 65, 84, 72, 61, 47, 98, 105, 110, 58, 47, 108, 105, 98]] ()).map Prod.fst =
      .ok (some [47, 98, 105, 110, 47, 108, 115]) :=
  (locate_iff
    (by decide : _ = some ([58].intercalate [[47, 98, 105, 110], [47, 108, 105, 98]])) (by decide)
    (by decide)).2
    (.inr (.inl ⟨[47, 98, 105, 110], by decide, by decide⟩))

/-- `a` with `PATH=/bin/:/lib/`, where `/lib/a` exists. -/
theorem locate_fails : ¬ ∀ (doesExist : List ℕ → Bool) (before : ℕ) (filename : List ℕ)
    (varList dirs : List (List ℕ)),
    getVar varList [80, 65, 84, 72, 61] = some ([58].intercalate dirs) →
    (∀ dir ∈ dirs, dir ≠ [] ∧ 58 ∉ dir) →
    (∀ dir ∈ dirs, dir.length + 1 + filename.length < maxBufferSize) →
    (locateExecutableFile (pureTest fun p => .ok (doesExist p)) before filename varList ()).map Prod.fst =
      .ok (searched doesExist dirs filename) := by
  intro h
  have hfound := h (fun p => p == [47, 108, 105, 98, 47, 97]) 0 [97]
    [[80, 65, 84, 72, 61, 47, 98, 105, 110, 47, 58, 47, 108, 105, 98, 47]]
    [[47, 98, 105, 110, 47], [47, 108, 105, 98, 47]] (by decide) (by decide) (by decide)
  exact absurd hfound (by decide)

end PlumOs
