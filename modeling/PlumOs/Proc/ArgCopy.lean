import PlumOs.Lib.Ram
import PlumOs.Lib.Word
import PlumOs.Mm.PageAlloc

/-!
# Lists of strings in memory

`exec` measures and copies the null-terminated arrays of strings that it is given (`sys/process.c`,
`sys/string.c`).  The memory is a `Ram`: every store of a byte is in its log.  The loops take fuel;
a loop that runs out of it returns `none`.

* `strlen`, `strncpy` : the kernel's string functions, with their tests for null pointers;
* `getStrlistSize`, `getStrlistNum`, `copyStrlist` : the loops over an array of strings.  Sizes are
  `int`s, so that they are reduced to 32 bits;
* `lay`, `plan` : what the copy leaves in memory, and where it stores, if it does not store over its
  own source;
* `copyStrlist_eq` : **the copy** does exactly that, with enough fuel;
* `plan_of_copyStrlist` : a copy that stores inside of a region only has its whole plan in there.
-/

namespace PlumOs.Args

/-- A pointer moved by a signed distance, in 64 bits. -/
def ptrAdd (p : ℕ) (d : ℤ) : ℕ := ((p + d) % 2 ^ 64).toNat

/-- An `int` that is converted to `size_t`. -/
def sizeT (n : ℤ) : ℕ := (n % 2 ^ 64).toNat

/-- `strlen` of the kernel: a null pointer has length 0. -/
def strlen (mem : ℕ → ℕ) (fuel s : ℕ) : Option ℕ :=
  if s = 0 then some 0 else PlumOs.strlen mem s fuel

/-- The loop of `strncpy` from the index `i` on.  The length of the source is computed again in every
round. -/
def strncpyLoop (fuel dest src size : ℕ) : ℕ → ℕ → Ram → Option Ram
  | 0, _, _ => none
  | n + 1, i, r =>
    if i < size then
      (strlen r.bytes fuel src).bind fun len =>
        if i < len then
          -- the third operand of the condition stores the character before it is tested
          if r.bytes (src + i) ≠ 0 then
            strncpyLoop fuel dest src size n (i + 1) (r.store (dest + i) (r.bytes (src + i)))
          else some ((r.store (dest + i) (r.bytes (src + i))).store (dest + i) 0)
        else some (r.store (dest + i) 0)
    else some (r.store (dest + i) 0)

/-- `strncpy` of the kernel, which ends the copy with a 0. -/
def strncpy (fuel : ℕ) (r : Ram) (dest src size : ℕ) : Option Ram :=
  if dest = 0 ∨ src = 0 then some r else strncpyLoop fuel dest src size fuel 0 r

/-- The loop of `get_strlist_size`. -/
def strlistSizeLoop (mem : ℕ → ℕ) (fuel : ℕ) : ℕ → ℕ → ℤ → Option ℤ
  | 0, _, _ => none
  | n + 1, argv, size =>
    if load mem 8 argv = 0 then some size
    else (strlen mem fuel (load mem 8 argv)).bind fun len =>
      strlistSizeLoop mem fuel n (argv + 8) (wrap32 (size + (len + 1)))

/-- The bytes of the strings, the ending 0 of each one counted. -/
def getStrlistSize (mem : ℕ → ℕ) (fuel argv : ℕ) : Option ℤ := strlistSizeLoop mem fuel fuel argv 0

/-- The loop of `get_strlist_num`. -/
def strlistNumLoop (mem : ℕ → ℕ) : ℕ → ℕ → ℤ → Option ℤ
  | 0, _, _ => none
  | n + 1, argv, i =>
    if load mem 8 argv = 0 then some i else strlistNumLoop mem n (argv + 8) (wrap32 (i + 1))

/-- The number of strings. -/
def getStrlistNum (mem : ℕ → ℕ) (fuel argv : ℕ) : Option ℤ := strlistNumLoop mem fuel argv 0

/-- The loop of `copy_strlist`: the pointer, then the string, and `start` moves behind it. -/
def copyStrlistLoop (fuel : ℕ) : ℕ → ℕ → ℕ → ℕ → Ram → Option Ram
  | 0, _, _, _, _ => none
  | n + 1, des, src, start, r =>
    if load r.bytes 8 src = 0 then some r
    else
      let r₁ := r.put des (wordBytes 8 start)
      (strlen r₁.bytes fuel (load r₁.bytes 8 src)).bind fun len =>
        (strncpy fuel r₁ start (load r₁.bytes 8 src) (sizeT (wrap32 len))).bind fun r₂ =>
          copyStrlistLoop fuel n (des + 8) (src + 8) (ptrAdd start (wrap32 (wrap32 len + 1))) r₂

/-- `copy_strlist`. -/
def copyStrlist (fuel : ℕ) (r : Ram) (des src start : ℕ) : Option Ram :=
  copyStrlistLoop fuel fuel des src start r

/-- What is copied of a string: its length is an `int`. -/
def cut (s : List ℕ) : List ℕ := s.take (sizeT (wrap32 s.length))

/-- The bytes that are stored for a string, none of them at a null pointer. -/
def piece (start : ℕ) (s : List ℕ) : List ℕ := if start = 0 then [] else cut s ++ [0]

/-- Where the next string goes. -/
def next (start : ℕ) (s : List ℕ) : ℕ := ptrAdd start (wrap32 (wrap32 s.length + 1))

/-- The memory after the copy of a list of strings. -/
def lay (r : Ram) : ℕ → ℕ → List (List ℕ) → Ram
  | _, _, [] => r
  | des, start, s :: strs =>
    lay ((r.put des (wordBytes 8 start)).put start (piece start s)) (des + 8) (next start s) strs

/-- The addresses of the stores, in order. -/
def plan : ℕ → ℕ → List (List ℕ) → List ℕ
  | _, _, [] => []
  | des, start, s :: strs =>
    List.range' des 8 ++ (List.range' start (piece start s).length ++ plan (des + 8) (next start s) strs)

section Strncpy

variable {fuel dest src size n i : ℕ} {r r' : Ram} {s : List ℕ} {Q : ℕ → Prop}

/-- A store into the region leaves a string outside of it as it is. -/
theorem strAt_store (hs : StrAt r.bytes src s) (hout : ∀ k ≤ s.length, ¬ Q (src + k)) {a b : ℕ}
    (ha : Q a) : StrAt (r.store a b).bytes src s := by
  apply hs.congr
  intro k hk
  rw [Ram.store_bytes, Function.update_of_ne]
  intro heq
  exact hout k hk (heq ▸ ha)

/-- One round, with the string in place. -/
theorem strncpyLoop_succ (hs : StrAt r.bytes src s) (hsrc : src ≠ 0) (hfuel : s.length < fuel) :
    strncpyLoop fuel dest src size (n + 1) i r =
      if h : i < (s.take size).length then
        strncpyLoop fuel dest src size n (i + 1) (r.store (dest + i) (s.take size)[i])
      else some (r.store (dest + i) 0) := by
  have hlen : strlen r.bytes fuel src = some s.length := by rw [strlen, if_neg hsrc, hs.strlen_eq hfuel]
  rw [strncpyLoop, hlen, Option.bind_some]
  -- the string ends where its length says, so that the test for a 0 in the condition never ends the loop
  split_ifs with hsize hlength hzero htake htake htake htake
  · have hchar : r.bytes (src + i) = (s.take size)[i] := by
      rw [hs.bytes i hlength, List.getElem_take]
    rw [hchar]
  · rw [List.length_take] at htake
    omega
  · rw [hs.bytes i hlength] at hzero
    exact absurd (not_not.1 hzero) (hs.nonzero _ (List.getElem_mem _))
  all_goals first | rfl | (rw [List.length_take] at htake; omega)

theorem strncpyLoop_eq (hs : StrAt r.bytes src s) (hsrc : src ≠ 0) (hfuel : s.length < fuel)
    (hout : ∀ k ≤ s.length, ¬ Q (src + k)) (hi : i ≤ (s.take size).length)
    (hin : ∀ k, i ≤ k → k ≤ (s.take size).length → Q (dest + k)) (hn : (s.take size).length - i < n) :
    strncpyLoop fuel dest src size n i r = some (r.put (dest + i) ((s.take size).drop i ++ [0])) := by
  induction n generalizing i r with
  | zero => omega
  | succ n ih =>
    rw [strncpyLoop_succ hs hsrc hfuel]
    split_ifs with hlt
    · rw [ih (strAt_store hs hout (hin i (Nat.le_refl i) hi)) hlt
        (fun k hk => hin k (by omega)) (by omega),
        List.drop_eq_getElem_cons hlt]
      rfl
    · rw [List.drop_of_length_le (Nat.le_of_not_lt hlt)]
      rfl

/-- A store stays in the log, whatever it overwrites. -/
theorem strncpyLoop_log (hrun : strncpyLoop fuel dest src size n i r = some r') : r.log ⊆ r'.log := by
  induction n generalizing i r with
  | zero => cases hrun
  | succ n ih =>
    rw [strncpyLoop] at hrun
    by_cases hsize : i < size
    · rw [if_pos hsize] at hrun
      obtain ⟨len, -, hround⟩ := Option.bind_eq_some_iff.1 hrun
      split_ifs at hround
      · exact List.Subset.trans (r.log_subset_store ..) (ih hround)
      · rw [← Option.some.inj hround]
        exact List.Subset.trans (r.log_subset_store ..) (Ram.log_subset_store ..)
      · rw [← Option.some.inj hround]
        exact r.log_subset_store ..
    · rw [if_neg hsize] at hrun
      rw [← Option.some.inj hrun]
      exact r.log_subset_store ..

/-- If the loop stores inside of the region only, then its whole copy is in there: the string, which
is outside, does not change on the way. -/
theorem strncpyLoop_in (hs : StrAt r.bytes src s) (hsrc : src ≠ 0) (hfuel : s.length < fuel)
    (hout : ∀ k ≤ s.length, ¬ Q (src + k)) (hrun : strncpyLoop fuel dest src size n i r = some r')
    (hlog : ∀ a ∈ r'.log, Q a) : ∀ k, i ≤ k → k ≤ (s.take size).length → Q (dest + k) := by
  induction n generalizing i r with
  | zero => cases hrun
  | succ n ih =>
    intro k hik hk
    rw [strncpyLoop_succ hs hsrc hfuel] at hrun
    split_ifs at hrun with hlt
    · have hfirst : Q (dest + i) := by
        apply hlog
        apply strncpyLoop_log hrun
        simp
      rcases Nat.eq_or_lt_of_le hik with rfl | hik
      · exact hfirst
      · exact ih (strAt_store hs hout hfirst) hrun k hik hk
    · have hki : k = i := by omega
      apply hlog
      rw [← Option.some.inj hrun, hki]
      simp

/-- **The copy of a string.** -/
theorem strncpy_eq (hs : StrAt r.bytes src s) (hsrc : src ≠ 0) (hfuel : s.length < fuel)
    (hout : ∀ k ≤ s.length, ¬ Q (src + k))
    (hin : dest ≠ 0 → ∀ k ≤ (s.take size).length, Q (dest + k)) :
    strncpy fuel r dest src size =
      some (r.put dest (if dest = 0 then [] else s.take size ++ [0])) := by
  rw [strncpy]
  by_cases hdest : dest = 0
  · rw [if_pos (Or.inl hdest), if_pos hdest]
    rfl
  · have hshort : (s.take size).length ≤ s.length := by
      rw [List.length_take]
      exact Nat.min_le_right _ _
    rw [if_neg (by tauto), if_neg hdest]
    exact strncpyLoop_eq hs hsrc hfuel hout (Nat.zero_le _) (fun k _ hk => hin hdest k hk) (by omega)

/-- The copy of a whole string to a place that does not overlap it. -/
theorem strncpy_length (hs : StrAt r.bytes src s) (hsrc : src ≠ 0) (hdest : dest ≠ 0)
    (hfuel : s.length < fuel) (hout : ∀ k ≤ s.length, ¬ (dest ≤ src + k ∧ src + k ≤ dest + s.length)) :
    strncpy fuel r dest src s.length = some (r.put dest (s ++ [0])) := by
  have hall : s.take s.length = s := List.take_length
  rw [strncpy_eq (Q := fun a => dest ≤ a ∧ a ≤ dest + s.length) hs hsrc hfuel hout, if_neg hdest, hall]
  rw [hall]
  omega

theorem strncpy_log (hrun : strncpy fuel r dest src size = some r') : r.log ⊆ r'.log := by
  rw [strncpy] at hrun
  split_ifs at hrun with hnull
  · rw [← Option.some.inj hrun]
    exact fun _ ha => ha
  · exact strncpyLoop_log hrun

theorem strncpy_in (hs : StrAt r.bytes src s) (hsrc : src ≠ 0) (hfuel : s.length < fuel)
    (hout : ∀ k ≤ s.length, ¬ Q (src + k)) (hrun : strncpy fuel r dest src size = some r')
    (hlog : ∀ a ∈ r'.log, Q a) (hdest : dest ≠ 0) : ∀ k ≤ (s.take size).length, Q (dest + k) := by
  intro k hk
  rw [strncpy, if_neg (by tauto)] at hrun
  exact strncpyLoop_in hs hsrc hfuel hout hrun hlog k (Nat.zero_le k) hk

end Strncpy

section Plan

variable {r : Ram} {des start x : ℕ} {s : List ℕ} {strs : List (List ℕ)}

theorem length_piece (hstart : start ≠ 0) : (piece start s).length = (cut s).length + 1 := by
  rw [piece, if_neg hstart, List.length_append]
  rfl

theorem lay_log (r : Ram) (des start : ℕ) (strs : List (List ℕ)) :
    (lay r des start strs).log = r.log ++ plan des start strs := by
  induction strs generalizing r des start with
  | nil => simp [lay, plan]
  | cons s strs ih =>
    rw [lay, ih, Ram.put_log, Ram.put_log, length_wordBytes, plan, List.append_assoc, List.append_assoc]

/-- Bytes that are not stored to stay. -/
theorem lay_bytes_of_notMem (hx : x ∉ plan des start strs) :
    (lay r des start strs).bytes x = r.bytes x := by
  induction strs generalizing r des start with
  | nil => rfl
  | cons s strs ih =>
    rw [plan, List.mem_append, List.mem_append, not_or, not_or] at hx
    obtain ⟨hslot, hpiece, htail⟩ := hx
    rw [lay, ih htail, Ram.put_bytes_of_notMem hpiece, Ram.put_bytes_of_notMem (by simpa using hslot)]

end Plan

section Copy

variable {fuel n des src start : ℕ} {r r' : Ram} {strs : List (List ℕ)} {Q : ℕ → Prop}

/-- The source of a copy stays where it is, as long as the stores are in the region. -/
theorem strsAt_put (h : StrsAt r.bytes (fun a => ¬ Q a) src strs) (a : ℕ) {bs : List ℕ}
    (hin : ∀ x ∈ List.range' a bs.length, Q x) :
    StrsAt (r.put a bs).bytes (fun a => ¬ Q a) src strs :=
  h.congr fun x hx => Ram.put_bytes_of_notMem fun hmem => hx (hin x hmem)

/-- The source after the store of a pointer: the slot that is read, the string, and what follows. -/
theorem strsAt_slot {s : List ℕ} (h : StrsAt r.bytes (fun a => ¬ Q a) src (s :: strs)) (start : ℕ)
    (hslot : ∀ a ∈ List.range' des 8, Q a) :
    load (r.put des (wordBytes 8 start)).bytes 8 src = load r.bytes 8 src ∧
      load r.bytes 8 src ≠ 0 ∧
      StrAt (r.put des (wordBytes 8 start)).bytes (load r.bytes 8 src) s ∧
      (∀ k ≤ s.length, ¬ Q (load r.bytes 8 src + k)) ∧
      StrsAt (r.put des (wordBytes 8 start)).bytes (fun a => ¬ Q a) (src + 8) strs := by
  have hload : load (r.put des (wordBytes 8 start)).bytes 8 src = load r.bytes 8 src := by
    apply load_congr
    intro k hk
    apply Ram.put_bytes_of_notMem
    rw [length_wordBytes]
    exact fun hmem => h.2.1 k hk (hslot _ hmem)
  have hput : StrsAt (r.put des (wordBytes 8 start)).bytes (fun a => ¬ Q a) src (s :: strs) :=
    strsAt_put h des (by simpa using hslot)
  obtain ⟨hptr, -, hstr, hout, htail⟩ := hput
  rw [hload] at hptr hstr hout
  exact ⟨hload, hptr, hstr, hout, htail⟩

/-- One round, with the strings in place. -/
theorem copyStrlistLoop_succ {s : List ℕ} (h : StrsAt r.bytes (fun a => ¬ Q a) src (s :: strs))
    (hfuel : s.length < fuel) (hslot : ∀ a ∈ List.range' des 8, Q a) :
    copyStrlistLoop fuel (n + 1) des src start r =
      (strncpy fuel (r.put des (wordBytes 8 start)) start (load r.bytes 8 src)
        (sizeT (wrap32 s.length))).bind fun r₂ =>
          copyStrlistLoop fuel n (des + 8) (src + 8) (next start s) r₂ := by
  obtain ⟨hload, hptr, hstr, -, -⟩ := strsAt_slot h start hslot
  have hlen : strlen (r.put des (wordBytes 8 start)).bytes fuel (load r.bytes 8 src) = some s.length := by
    rw [strlen, if_neg hptr, hstr.strlen_eq hfuel]
  simp only [copyStrlistLoop, if_neg hptr, hload, hlen, Option.bind_some, next]

theorem copyStrlistLoop_eq (h : StrsAt r.bytes (fun a => ¬ Q a) src strs)
    (hfuel : ∀ s ∈ strs, s.length < fuel) (hn : strs.length < n)
    (hin : ∀ a ∈ plan des start strs, Q a) :
    copyStrlistLoop fuel n des src start r = some (lay r des start strs) := by
  induction strs generalizing n des src start r with
  | nil =>
    obtain ⟨n, rfl⟩ := Nat.exists_eq_succ_of_ne_zero (Nat.ne_of_gt hn)
    rw [copyStrlistLoop, if_pos h.1]
    rfl
  | cons s strs ih =>
    obtain ⟨n, rfl⟩ := Nat.exists_eq_succ_of_ne_zero (Nat.ne_of_gt (Nat.zero_lt_of_lt hn))
    obtain ⟨hs, hstrs⟩ := List.forall_mem_cons.1 hfuel
    obtain ⟨hslot, hrest⟩ := List.forall_mem_append.1 hin
    obtain ⟨hpiece, htail⟩ := List.forall_mem_append.1 hrest
    obtain ⟨-, hptr, hstr, hout, hsrc⟩ := strsAt_slot h start hslot
    have hcopy : start ≠ 0 → ∀ k ≤ (cut s).length, Q (start + k) := by
      intro hstart k hk
      apply hpiece
      rw [length_piece hstart, List.mem_range'_1]
      omega
    rw [copyStrlistLoop_succ h hs hslot, strncpy_eq hstr hptr hs hout hcopy, Option.bind_some]
    exact ih (strsAt_put hsrc start hpiece) hstrs (by simpa using hn) htail

/-- **The copy of a list of strings**, if the plan is in a region where the source is not. -/
theorem copyStrlist_eq (h : StrsAt r.bytes (fun a => ¬ Q a) src strs)
    (hfuel : ∀ s ∈ strs, s.length < fuel) (hn : strs.length < fuel)
    (hin : ∀ a ∈ plan des start strs, Q a) :
    copyStrlist fuel r des src start = some (lay r des start strs) :=
  copyStrlistLoop_eq h hfuel hn hin

theorem copyStrlistLoop_log (hrun : copyStrlistLoop fuel n des src start r = some r') :
    r.log ⊆ r'.log := by
  induction n generalizing des src start r with
  | zero => cases hrun
  | succ n ih =>
    rw [copyStrlistLoop] at hrun
    split_ifs at hrun
    · rw [← Option.some.inj hrun]
      exact fun _ ha => ha
    · obtain ⟨len, -, hlen⟩ := Option.bind_eq_some_iff.1 hrun
      obtain ⟨r₂, hcopy, htail⟩ := Option.bind_eq_some_iff.1 hlen
      exact List.Subset.trans (r.log_subset_put ..) (List.Subset.trans (strncpy_log hcopy) (ih htail))

/-- The pointer of a round is in the log. -/
theorem copyStrlistLoop_slot_log (hptr : load r.bytes 8 src ≠ 0)
    (hrun : copyStrlistLoop fuel (n + 1) des src start r = some r') :
    ∀ a ∈ List.range' des 8, a ∈ r'.log := by
  intro a ha
  rw [copyStrlistLoop, if_neg hptr] at hrun
  obtain ⟨len, -, hlen⟩ := Option.bind_eq_some_iff.1 hrun
  obtain ⟨r₂, hcopy, htail⟩ := Option.bind_eq_some_iff.1 hlen
  apply copyStrlistLoop_log htail
  apply strncpy_log hcopy
  rw [Ram.put_log, length_wordBytes]
  exact List.mem_append_right _ ha

theorem plan_of_copyStrlistLoop (h : StrsAt r.bytes (fun a => ¬ Q a) src strs)
    (hfuel : ∀ s ∈ strs, s.length < fuel)
    (hrun : copyStrlistLoop fuel n des src start r = some r') (hlog : ∀ a ∈ r'.log, Q a) :
    ∀ a ∈ plan des start strs, Q a := by
  induction strs generalizing n des src start r with
  | nil => exact List.forall_mem_nil _
  | cons s strs ih =>
    cases n with
    | zero => cases hrun
    | succ n =>
      obtain ⟨hs, hstrs⟩ := List.forall_mem_cons.1 hfuel
      have hslot : ∀ a ∈ List.range' des 8, Q a := fun a ha =>
        hlog a (copyStrlistLoop_slot_log h.1 hrun a ha)
      obtain ⟨-, hptr, hstr, hout, hsrc⟩ := strsAt_slot h start hslot
      rw [copyStrlistLoop_succ h hs hslot] at hrun
      obtain ⟨r₂, hcopy, htail⟩ := Option.bind_eq_some_iff.1 hrun
      have hlog₂ : ∀ a ∈ r₂.log, Q a := fun a ha => hlog a (copyStrlistLoop_log htail ha)
      -- the string is copied inside of the region, so that the rest of the source is still in place
      have hin : start ≠ 0 → ∀ k ≤ (cut s).length, Q (start + k) :=
        strncpy_in hstr hptr hs hout hcopy hlog₂
      have hpiece : ∀ a ∈ List.range' start (piece start s).length, Q a := by
        intro a ha
        by_cases hstart : start = 0
        · rw [piece, if_pos hstart] at ha
          cases ha
        · rw [length_piece hstart, List.mem_range'_1] at ha
          have heq : start + (a - start) = a := by omega
          rw [← heq]
          exact hin hstart _ (by omega)
      rw [strncpy_eq hstr hptr hs hout hin] at hcopy
      rw [← Option.some.inj hcopy] at htail
      exact List.forall_mem_append.2
        ⟨hslot, List.forall_mem_append.2 ⟨hpiece, ih (strsAt_put hsrc start hpiece) hstrs htail⟩⟩

/-- **A copy that stores inside of a region only** has its whole plan in there. -/
theorem plan_of_copyStrlist (h : StrsAt r.bytes (fun a => ¬ Q a) src strs)
    (hfuel : ∀ s ∈ strs, s.length < fuel) (hrun : copyStrlist fuel r des src start = some r')
    (hlog : ∀ a ∈ r'.log, Q a) : ∀ a ∈ plan des start strs, Q a :=
  plan_of_copyStrlistLoop h hfuel hrun hlog

theorem copyStrlist_log (hrun : copyStrlist fuel r des src start = some r') : r.log ⊆ r'.log :=
  copyStrlistLoop_log hrun

end Copy

/-- The bytes that a list of strings takes in the copy. -/
def extent : List (List ℕ) → ℕ
  | [] => 0
  | s :: strs => (cut s).length + 1 + extent strs

/-- The bytes that a list of strings takes where it is. -/
def size : List (List ℕ) → ℕ
  | [] => 0
  | s :: strs => s.length + 1 + size strs

/-- The copy of each string is shorter than a page. -/
def Compact (strs : List (List ℕ)) : Prop := ∀ s ∈ strs, (cut s).length < pgSize

section Compact

variable {des start a lo : ℕ} {r : Ram} {s : List ℕ} {strs : List (List ℕ)} {R : ℕ → Prop}

theorem length_cut (s : List ℕ) : (cut s).length = min (sizeT (wrap32 s.length)) s.length := by
  rw [cut, List.length_take]

/-- A string that is shorter than a page is copied as it is. -/
theorem cut_eq_self (hs : s.length < pgSize) : cut s = s := by
  unfold pgSize at hs
  have hint : wrap32 s.length = s.length := wrap32_of_mem (by omega) (by omega)
  rw [cut, hint, sizeT]
  apply List.take_of_length_le
  omega

/-- A copy shorter than a page is as long as the length in an `int` says. -/
theorem wrap32_length (hs : (cut s).length < pgSize) : ((cut s).length : ℤ) = wrap32 s.length := by
  rw [length_cut] at hs ⊢
  unfold pgSize at hs
  unfold sizeT wrap32 at *
  omega

theorem next_eq (hs : (cut s).length < pgSize) (htop : start + (cut s).length + 1 < 2 ^ 64) :
    next start s = start + ((cut s).length + 1) := by
  have hint := wrap32_length hs
  unfold pgSize at hs
  rw [next, ← hint, wrap32_of_mem (by omega) (by omega), ptrAdd]
  omega

/-- The plan of a compact list: the slots and the strings behind one another. -/
theorem mem_plan (h : Compact strs) (hstart : start ≠ 0) (htop : start + extent strs < 2 ^ 64)
    (ha : a ∈ plan des start strs) :
    (des ≤ a ∧ a < des + 8 * strs.length) ∨ (start ≤ a ∧ a < start + extent strs) := by
  induction strs generalizing des start with
  | nil => cases ha
  | cons s strs ih =>
    obtain ⟨hs, hstrs⟩ := List.forall_mem_cons.1 h
    rw [extent] at htop ⊢
    rw [plan, next_eq hs (by omega), length_piece hstart, List.mem_append, List.mem_append,
      List.mem_range'_1, List.mem_range'_1] at ha
    rw [List.length_cons]
    rcases ha with ha | ha | ha
    · omega
    · omega
    · have := ih hstrs (by omega) (by omega) ha
      omega

theorem nodup_plan (h : Compact strs) (hstart : start ≠ 0) (htop : start + extent strs < 2 ^ 64)
    (hsep : des + 8 * strs.length ≤ start ∨ start + extent strs ≤ des) :
    (plan des start strs).Nodup := by
  induction strs generalizing des start with
  | nil => exact List.nodup_nil
  | cons s strs ih =>
    obtain ⟨hs, hstrs⟩ := List.forall_mem_cons.1 h
    rw [extent] at htop hsep
    rw [List.length_cons] at hsep
    -- what follows is behind the slot and behind the string
    have htail : ∀ x ∈ plan (des + 8) (next start s) strs,
        (des + 8 ≤ x ∧ x < des + 8 + 8 * strs.length) ∨
          (start + ((cut s).length + 1) ≤ x ∧ x < start + ((cut s).length + 1) + extent strs) := by
      intro x hx
      rw [next_eq hs (by omega)] at hx
      exact mem_plan hstrs (by omega) (by omega) hx
    have hrest : (List.range' start (piece start s).length ++
        plan (des + 8) (next start s) strs).Nodup := by
      rw [List.nodup_append]
      refine ⟨List.nodup_range', ?_, ?_⟩
      · rw [next_eq hs (by omega)]
        exact ih hstrs (by omega) (by omega) (by omega)
      · intro x hx y hy hxy
        rw [length_piece hstart, List.mem_range'_1] at hx
        have := htail y hy
        omega
    rw [plan, List.nodup_append]
    refine ⟨List.nodup_range', hrest, ?_⟩
    intro x hx y hy hxy
    rw [List.mem_range'_1] at hx
    rw [List.mem_append, length_piece hstart, List.mem_range'_1] at hy
    rcases hy with hy | hy
    · omega
    · have := htail y hy
      omega

/-- **What the copy leaves**: the array of the copied strings, if the slot behind it holds 0. -/
theorem strsAt_lay (h : Compact strs) (hchars : ∀ s ∈ strs, ∀ c ∈ s, c ≠ 0) (hstart : start ≠ 0)
    (htop : start + extent strs < 2 ^ 64)
    (hsep : des + 8 * (strs.length + 1) ≤ start ∨ start + extent strs ≤ des)
    (hnull : ∀ k < 8, r.bytes (des + 8 * strs.length + k) = 0)
    (hslots : ∀ x, des ≤ x → x < des + 8 * (strs.length + 1) → R x)
    (hstrs : ∀ x, start ≤ x → x < start + extent strs → R x) :
    StrsAt (lay r des start strs).bytes R des (strs.map cut) := by
  induction strs generalizing des start r with
  | nil =>
    refine ⟨load_eq_zero fun k hk => hnull k hk, fun k hk => hslots _ (by omega) ?_⟩
    rw [List.length_nil]
    omega
  | cons s strs ih =>
    obtain ⟨hs, hcompact⟩ := List.forall_mem_cons.1 h
    obtain ⟨hchar, hchars⟩ := List.forall_mem_cons.1 hchars
    rw [extent] at htop hsep hstrs
    rw [List.length_cons] at hsep hnull hslots
    have hnext : next start s = start + ((cut s).length + 1) := next_eq hs (by omega)
    have hpiece := length_piece (s := s) hstart
    -- the memory after the first string, and what the others leave of it
    set r₁ := r.put des (wordBytes 8 start) with hr₁
    set r₂ := r₁.put start (piece start s) with hr₂
    have hkept : ∀ x, (des ≤ x ∧ x < des + 8 ∨ start ≤ x ∧ x < start + ((cut s).length + 1)) →
        (lay r₂ (des + 8) (next start s) strs).bytes x = r₂.bytes x := by
      intro x hx
      apply lay_bytes_of_notMem
      intro hmem
      rw [hnext] at hmem
      have := mem_plan hcompact (by omega) (by omega) hmem
      omega
    have hload : load (lay r₂ (des + 8) (next start s) strs).bytes 8 des = start := by
      have hword : load r₁.bytes 8 des = start := load_put r 8 des (by omega)
      refine (load_congr fun k hk => ?_).trans hword
      rw [hkept _ (by omega), hr₂, Ram.put_bytes_of_notMem]
      rw [List.mem_range'_1]
      omega
    have hstr : StrAt (lay r₂ (des + 8) (next start s) strs).bytes start (cut s) := by
      have hput : StrAt r₂.bytes start (cut s) := by
        rw [hr₂, piece, if_neg hstart]
        exact StrAt.of_put r₁ start fun c hc => hchar c (List.mem_of_mem_take hc)
      exact hput.congr fun i hi => hkept _ (by omega)
    have htail : StrsAt (lay r₂ (des + 8) (next start s) strs).bytes R (des + 8) (strs.map cut) := by
      rw [hnext]
      apply ih hcompact hchars (by omega) (by omega) (by omega)
      · intro k hk
        rw [hr₂, Ram.put_bytes_of_notMem, hr₁, Ram.put_bytes_of_notMem]
        · have heq : des + 8 + 8 * strs.length + k = des + 8 * (strs.length + 1) + k := by omega
          rw [heq]
          exact hnull k hk
        · rw [length_wordBytes, List.mem_range'_1]
          omega
        · rw [List.mem_range'_1]
          omega
      · exact fun x hx hx' => hslots x (by omega) (by omega)
      · exact fun x hx hx' => hstrs x (by omega) (by omega)
    rw [List.map_cons, lay, StrsAt, hload]
    exact ⟨hstart, fun k hk => hslots _ (by omega) (by omega), hstr,
      fun k hk => hstrs _ (by omega) (by omega), htail⟩

/-- The strings of a list whose plan is in a page are in the page. -/
theorem strings_of_plan (hplan : ∀ a ∈ plan des start strs, lo ≤ a ∧ a < lo + pgSize)
    (hstart : start ≠ 0) (htop : lo + pgSize < 2 ^ 64) :
    strs ≠ [] → lo ≤ start ∧ start + extent strs ≤ lo + pgSize := by
  induction strs generalizing des start with
  | nil => exact fun hne => absurd rfl hne
  | cons s strs ih =>
    intro _
    obtain ⟨-, hrest⟩ := List.forall_mem_append.1 hplan
    obtain ⟨hpiece, htail⟩ := List.forall_mem_append.1 hrest
    -- the first and the last byte of the string are in the page
    have hfirst := hpiece start (by rw [length_piece hstart, List.mem_range'_1]; omega)
    have hlast := hpiece (start + (cut s).length) (by rw [length_piece hstart, List.mem_range'_1]; omega)
    have hs : (cut s).length < pgSize := by omega
    rw [next_eq hs (by omega)] at htail
    rw [extent]
    by_cases hnil : strs = []
    · rw [hnil, extent]
      omega
    · have := ih htail (by omega) hnil
      omega

/-- The slots are in the page, too. -/
theorem slots_of_plan (hplan : ∀ a ∈ plan des start strs, lo ≤ a ∧ a < lo + pgSize) :
    strs ≠ [] → lo ≤ des ∧ des + 8 * strs.length ≤ lo + pgSize := by
  induction strs generalizing des start with
  | nil => exact fun hne => absurd rfl hne
  | cons s strs ih =>
    intro _
    obtain ⟨hslot, hrest⟩ := List.forall_mem_append.1 hplan
    obtain ⟨-, htail⟩ := List.forall_mem_append.1 hrest
    have hfirst := hslot des (by rw [List.mem_range'_1]; omega)
    have hlast := hslot (des + 7) (by rw [List.mem_range'_1]; omega)
    rw [List.length_cons]
    by_cases hnil : strs = []
    · rw [hnil, List.length_nil]
      omega
    · have := ih htail hnil
      omega

theorem extent_le_of_plan (hplan : ∀ a ∈ plan des start strs, lo ≤ a ∧ a < lo + pgSize)
    (hstart : start ≠ 0) (htop : lo + pgSize < 2 ^ 64) : extent strs ≤ pgSize := by
  by_cases hnil : strs = []
  · rw [hnil]
    exact Nat.zero_le _
  · have := strings_of_plan hplan hstart htop hnil
    omega

theorem length_le_of_plan (hplan : ∀ a ∈ plan des start strs, lo ≤ a ∧ a < lo + pgSize) :
    8 * strs.length ≤ pgSize := by
  by_cases hnil : strs = []
  · rw [hnil]
    exact Nat.zero_le _
  · have := slots_of_plan hplan hnil
    omega

theorem length_le_size (strs : List (List ℕ)) : strs.length ≤ size strs := by
  induction strs with
  | nil => exact Nat.le_refl 0
  | cons s strs ih =>
    rw [List.length_cons, size]
    omega

theorem size_map_cut (strs : List (List ℕ)) : size (strs.map cut) = extent strs := by
  induction strs with
  | nil => rfl
  | cons s strs ih => rw [List.map_cons, size, extent, ih]

/-- A list whose true size is less than a page is copied as it is. -/
theorem map_cut_eq_self (h : size strs < pgSize) : strs.map cut = strs := by
  induction strs with
  | nil => rfl
  | cons s strs ih =>
    rw [size] at h
    rw [List.map_cons, cut_eq_self (by omega), ih (by omega)]

theorem compact_of_extent (h : extent strs ≤ pgSize) : Compact strs := by
  induction strs with
  | nil => exact List.forall_mem_nil _
  | cons s strs ih =>
    rw [extent] at h
    exact List.forall_mem_cons.2 ⟨by omega, ih (by omega)⟩

/-- What has been copied once is copied as it is. -/
theorem extent_map_cut (h : Compact strs) : extent (strs.map cut) = extent strs := by
  induction strs with
  | nil => rfl
  | cons s strs ih =>
    obtain ⟨hs, hstrs⟩ := List.forall_mem_cons.1 h
    rw [List.map_cons, extent, extent, cut_eq_self hs, ih hstrs]

theorem map_cut_map_cut (h : Compact strs) : (strs.map cut).map cut = strs.map cut := by
  induction strs with
  | nil => rfl
  | cons s strs ih =>
    obtain ⟨hs, hstrs⟩ := List.forall_mem_cons.1 h
    rw [List.map_cons, List.map_cons, cut_eq_self hs, ih hstrs]

/-- The two sizes of a compact list are the same in an `int`. -/
theorem wrap32_size (h : Compact strs) : wrap32 (size strs) = wrap32 (extent strs) := by
  have hdiff : ((size strs : ℤ) - extent strs) % 2 ^ 32 = 0 := by
    induction strs with
    | nil => rfl
    | cons s strs ih =>
      obtain ⟨hs, hstrs⟩ := List.forall_mem_cons.1 h
      have hlen := wrap32_length hs
      have := ih hstrs
      rw [wrap32] at hlen
      rw [size, extent]
      omega
  rw [wrap32, wrap32]
  omega

end Compact

section Sizes

variable {mem : ℕ → ℕ} {R : ℕ → Prop} {fuel n argv : ℕ} {z v : ℤ} {strs : List (List ℕ)}

theorem strlistSizeLoop_eq (h : StrsAt mem R argv strs) (hfuel : ∀ s ∈ strs, s.length < fuel)
    (hn : strs.length < n) :
    strlistSizeLoop mem fuel n argv (wrap32 z) = some (wrap32 (z + size strs)) := by
  induction strs generalizing n argv z with
  | nil =>
    obtain ⟨n, rfl⟩ := Nat.exists_eq_succ_of_ne_zero (Nat.ne_of_gt hn)
    rw [strlistSizeLoop, if_pos h.1, size, Nat.cast_zero, Int.add_zero]
  | cons s strs ih =>
    obtain ⟨n, rfl⟩ := Nat.exists_eq_succ_of_ne_zero (Nat.ne_of_gt (Nat.zero_lt_of_lt hn))
    obtain ⟨hs, hstrs⟩ := List.forall_mem_cons.1 hfuel
    obtain ⟨hptr, -, hstr, -, htail⟩ := h
    rw [strlistSizeLoop, if_neg hptr, strlen, if_neg hptr, hstr.strlen_eq hs, Option.bind_some,
      wrap32_wrap32_add, ih htail hstrs (by simpa using hn), size]
    congr 2
    omega

/-- The size in an `int`. -/
theorem getStrlistSize_eq (h : StrsAt mem R argv strs) (hfuel : ∀ s ∈ strs, s.length < fuel)
    (hn : strs.length < fuel) : getStrlistSize mem fuel argv = some (wrap32 (size strs)) := by
  have hloop := strlistSizeLoop_eq (z := 0) h hfuel hn
  rwa [Int.zero_add] at hloop

/-- The loop over the strings ends only with enough fuel. -/
theorem fuel_of_strlistSizeLoop (h : StrsAt mem R argv strs)
    (hrun : strlistSizeLoop mem fuel n argv z = some v) :
    (∀ s ∈ strs, s.length < fuel) ∧ strs.length < n := by
  induction strs generalizing n argv z with
  | nil =>
    cases n with
    | zero => cases hrun
    | succ n => exact ⟨List.forall_mem_nil _, Nat.succ_pos n⟩
  | cons s strs ih =>
    cases n with
    | zero => cases hrun
    | succ n =>
      obtain ⟨hptr, -, hstr, -, htail⟩ := h
      rw [strlistSizeLoop, if_neg hptr, strlen, if_neg hptr] at hrun
      obtain ⟨len, hlen, hrest⟩ := Option.bind_eq_some_iff.1 hrun
      obtain ⟨hstrs, hn⟩ := ih htail hrest
      exact ⟨List.forall_mem_cons.2 ⟨(hstr.of_strlen_eq hlen).2, hstrs⟩, Nat.succ_lt_succ hn⟩

theorem strlistNumLoop_eq (h : StrsAt mem R argv strs) (hn : strs.length < n) :
    strlistNumLoop mem n argv (wrap32 z) = some (wrap32 (z + strs.length)) := by
  induction strs generalizing n argv z with
  | nil =>
    obtain ⟨n, rfl⟩ := Nat.exists_eq_succ_of_ne_zero (Nat.ne_of_gt hn)
    rw [strlistNumLoop, if_pos h.1, List.length_nil, Nat.cast_zero, Int.add_zero]
  | cons s strs ih =>
    obtain ⟨n, rfl⟩ := Nat.exists_eq_succ_of_ne_zero (Nat.ne_of_gt (Nat.zero_lt_of_lt hn))
    obtain ⟨hptr, -, -, -, htail⟩ := h
    rw [strlistNumLoop, if_neg hptr, wrap32_wrap32_add, ih htail (by simpa using hn), List.length_cons]
    congr 2
    omega

/-- The number in an `int`. -/
theorem getStrlistNum_eq (h : StrsAt mem R argv strs) (hn : strs.length < fuel) :
    getStrlistNum mem fuel argv = some (wrap32 strs.length) := by
  have hloop := strlistNumLoop_eq (z := 0) h hn
  rwa [Int.zero_add] at hloop

end Sizes

end PlumOs.Args
