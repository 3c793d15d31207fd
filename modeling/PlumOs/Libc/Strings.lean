import PlumOs.Fs.Archive
import PlumOs.Proc.ArgCopy

/-!
# The string functions (`sys/string.c`, `libc/string.c`)

`strncmp`, `strcmp` and `strncpy` have the same text in the kernel and in libc.  They count characters
with an `int`, and compare it with lengths, which `strlen` counts with a `size_t`.  An `int` that is
counted beyond its greatest value has no value, so that such a call has no result here.

* `strncmp`, `strcmp`, `strncpy` : the functions of the source, on a memory of bytes;
* `strncmp_refines`, `strcmp_refines` : on strings they are the comparisons of lists of `Fs/Archive.lean`;
* `StrcmpMeans`, `StrncmpMeans`, `StrncpyMeans` : what their callers take them for;
* `means_iff` : **they are this exactly if fewer than 2^31 characters are counted**.
-/

namespace PlumOs

namespace Strings

/-- Why a call has no result: the index is no `int` any more, or a loop goes on. -/
inductive StrStop where
  | overflow
  | runaway
  deriving DecidableEq, Repr

/-- `i++` of an `int`. -/
def inc (i : ℕ) : Except StrStop ℕ := if i + 1 < 2 ^ 31 then .ok (i + 1) else .error .overflow

/-- `strlen`, which looks at no more than `fuel` bytes. -/
def strlen (mem : ℕ → ℕ) (fuel s : ℕ) : Except StrStop ℕ :=
  (Args.strlen mem fuel s).elim (.error .runaway) .ok

/-- The loop of `strncmp` from the index `i` on, and its result. -/
def strncmpLoop (mem : ℕ → ℕ) (fuel dest src size : ℕ) : ℕ → ℕ → Except StrStop ℤ
  | 0, _ => .error .runaway
  | turns + 1, i => do
    let diff := charVal (mem (dest + i)) - charVal (mem (src + i))
    let destLen ← strlen mem fuel dest
    let srcLen ← strlen mem fuel src
    if diff = 0 ∧ i < destLen ∧ i < srcLen ∧ i < size then do
      let i ← inc i
      strncmpLoop mem fuel dest src size turns i
    else return if i = size then 0 else diff

/-- `strncmp(dest, src, size)`. -/
def strncmp (mem : ℕ → ℕ) (fuel dest src size : ℕ) : Except StrStop ℤ :=
  if dest = 0 ∨ src = 0 then .ok (-1) else strncmpLoop mem fuel dest src size fuel 0

/-- The loop of `strcmp` from the index `i` on, and its result. -/
def strcmpLoop (mem : ℕ → ℕ) (fuel dest src : ℕ) : ℕ → ℕ → Except StrStop ℤ
  | 0, _ => .error .runaway
  | turns + 1, i => do
    let diff := charVal (mem (dest + i)) - charVal (mem (src + i))
    let destLen ← strlen mem fuel dest
    if diff = 0 ∧ i < destLen then do
      let i ← inc i
      strcmpLoop mem fuel dest src turns i
    else return if i = destLen then 0 else diff

/-- `strcmp(dest, src)`. -/
def strcmp (mem : ℕ → ℕ) (fuel dest src : ℕ) : Except StrStop ℤ :=
  if dest = 0 ∨ src = 0 then .ok (-1)
  else do
    let destLen ← strlen mem fuel dest
    let srcLen ← strlen mem fuel src
    if destLen ≠ srcLen then return -1 else strcmpLoop mem fuel dest src fuel 0

/-- The loop of `strncpy` from the index `i` on, and the store of the 0. -/
def strncpyLoop (fuel dest src size : ℕ) : ℕ → ℕ → Ram → Except StrStop Ram
  | 0, _, _ => .error .runaway
  | turns + 1, i, r =>
    if i < size then do
      let srcLen ← strlen r.bytes fuel src
      if i < srcLen then
        let c := r.bytes (src + i)
        let r := r.store (dest + i) c
        if c ≠ 0 then do
          let i ← inc i
          strncpyLoop fuel dest src size turns i r
        else return r.store (dest + i) 0
      else return r.store (dest + i) 0
    else return r.store (dest + i) 0

/-- `strncpy(dest, src, size)`: the pointer that it returns, and the memory. -/
def strncpy (fuel : ℕ) (r : Ram) (dest src size : ℕ) : Except StrStop (ℕ × Ram) :=
  if dest = 0 ∨ src = 0 then .ok (0, r)
  else (strncpyLoop fuel dest src size fuel 0 r).map fun r => (dest, r)

/-! ### What the callers take them for -/

/-- The result is 0 exactly for equal strings. -/
def StrcmpMeans (a b : List ℕ) (r : Except StrStop ℤ) : Prop := ∃ v, r = .ok v ∧ (v = 0 ↔ a = b)

/-- The result is 0 exactly for strings with the same first `n` characters. -/
def StrncmpMeans (a b : List ℕ) (n : ℕ) (r : Except StrStop ℤ) : Prop :=
  ∃ v, r = .ok v ∧ (v = 0 ↔ a.take n = b.take n)

/-- From `dest` on there are the first `n` characters of the string and a 0, and all other bytes are as
before; `dest` is returned. -/
def StrncpyMeans (a : List ℕ) (n dest : ℕ) (before : Ram) (r : Except StrStop (ℕ × Ram)) : Prop :=
  ∃ after, r = .ok (dest, after) ∧
    (∀ i (h : i < (a.take n).length), after.bytes (dest + i) = (a.take n)[i]) ∧
    after.bytes (dest + (a.take n).length) = 0 ∧
    ∀ x, x < dest ∨ dest + (a.take n).length < x → after.bytes x = before.bytes x

variable {mem : ℕ → ℕ} {fuel turns dest src size i n k : ℕ} {a b s : List ℕ} {r : Ram}

theorem strlen_eq (h : StrAt mem dest s) (h0 : dest ≠ 0) (hfuel : s.length < fuel) :
    strlen mem fuel dest = .ok s.length := by
  rw [strlen, Args.strlen, if_neg h0, h.strlen_eq hfuel]
  rfl

theorem inc_ok (h : i + 1 < 2 ^ 31) : inc i = .ok (i + 1) := if_pos h

theorem inc_overflow (h : 2 ^ 31 ≤ i + 1) : inc i = .error .overflow := if_neg (Nat.not_lt.2 h)

/-! ### `strncmp` and `strcmp` -/

/-- The comparison of lists in `Fs/Archive.lean`, by the index at which the loop of `strncmp` ends. -/
theorem strncmp_eq_ite (a b : List ℕ) (n : ℕ) : PlumOs.strncmp a b n =
    if min (commonLength a b) n = n then 0
    else charVal (a.getD (commonLength a b) 0) - charVal (b.getD (commonLength a b) 0) := by
  fun_induction PlumOs.strncmp a b n with
  | case1 a b => rw [if_pos (Nat.min_zero _)]
  | case2 n => simp [commonLength]
  | case3 c a n => simp [commonLength, charVal]
  | case4 d b n => simp [commonLength, charVal]
  | case5 n c a b ih =>
    rw [ih, commonLength, if_pos rfl, List.getD_cons_succ, List.getD_cons_succ]
    exact if_congr (by omega) rfl rfl
  | case6 n c a d b hne =>
    rw [commonLength, if_neg hne, if_neg (by omega), List.getD_cons_zero, List.getD_cons_zero]

section Compare

variable (ha : StrAt mem dest a) (hb : StrAt mem src b) (hdest : dest ≠ 0) (hsrc : src ≠ 0)
  (hbytes : ∀ x, mem x < 256) (hfa : a.length < fuel) (hfb : b.length < fuel)

include ha hb

theorem diff_eq (hia : i ≤ a.length) (hib : i ≤ b.length) :
    charVal (mem (dest + i)) - charVal (mem (src + i)) = charVal (a.getD i 0) - charVal (b.getD i 0) := by
  rw [ha.byte hia, hb.byte hib]

include hbytes in
/-- The characters behind the common ones are the same only in equal strings. -/
theorem diff_eq_zero : charVal (mem (dest + commonLength a b)) - charVal (mem (src + commonLength a b)) = 0 ↔
    a = b := by
  rw [← getD_commonLength ha.nonzero hb.nonzero, ← ha.byte (commonLength_le_left a b),
    ← hb.byte (commonLength_le_right a b), Int.sub_eq_zero]
  exact ⟨charVal_injective (hbytes _) (hbytes _), congrArg charVal⟩

include hdest hsrc hbytes hfa hfb

/-- **The loop of `strncmp`** counts the common characters, up to `size`. -/
theorem strncmpLoop_eq (hk : k = min (commonLength a b) size) (hi : i ≤ k) (hint : i < 2 ^ 31)
    (hturns : k - i < turns) : strncmpLoop mem fuel dest src size turns i =
      if k < 2 ^ 31 then
        .ok (if k = size then 0 else charVal (mem (dest + k)) - charVal (mem (src + k)))
      else .error .overflow := by
  induction turns generalizing i with
  | zero => exact absurd hturns (Nat.not_lt_zero _)
  | succ turns ih =>
    have hleft := commonLength_le_left a b
    have hright := commonLength_le_right a b
    rw [strncmpLoop, strlen_eq ha hdest hfa, strlen_eq hb hsrc hfb]
    simp only [ok_bind]
    rcases Nat.lt_or_eq_of_le hi with hlt | rfl
    · have hcommon : i < commonLength a b := by omega
      have hsame : charVal (mem (dest + i)) - charVal (mem (src + i)) = 0 := by
        rw [diff_eq ha hb (by omega) (by omega), getD_of_lt_commonLength hcommon, Int.sub_self]
      rw [if_pos ⟨hsame, by omega, by omega, by omega⟩]
      by_cases hnext : i + 1 < 2 ^ 31
      · rw [inc_ok hnext, ok_bind, ih (by omega) hnext (by omega)]
      · rw [inc_overflow (by omega), if_neg (by omega)]
        rfl
    · -- the loop ends: all are counted, or the strings are different here, or both end here
      have hend : ¬ (charVal (mem (dest + i)) - charVal (mem (src + i)) = 0 ∧ i < a.length ∧
          i < b.length ∧ i < size) := by
        rintro ⟨hzero, hia, -, hsize⟩
        obtain rfl : i = commonLength a b := by omega
        rw [diff_eq_zero ha hb hbytes] at hzero
        rw [hzero, commonLength_self] at hia
        exact absurd hia (Nat.lt_irrefl _)
      rw [if_neg hend, if_pos hint]
      rfl

/-- On strings, `strncmp` is the comparison of lists that the file system is modelled with. -/
theorem strncmp_refines (hshort : min (commonLength a b) n < 2 ^ 31) :
    strncmp mem fuel dest src n = .ok (PlumOs.strncmp a b n) := by
  have hle := commonLength_le_left a b
  have hloop : strncmpLoop mem fuel dest src n fuel 0 = _ :=
    strncmpLoop_eq ha hb hdest hsrc hbytes hfa hfb rfl (Nat.zero_le _) (by decide) (by omega)
  rw [strncmp, if_neg (not_or.2 ⟨hdest, hsrc⟩), hloop, if_pos hshort, strncmp_eq_ite]
  by_cases hn : min (commonLength a b) n = n
  · rw [if_pos hn, if_pos hn]
  · have hlt : min (commonLength a b) n = commonLength a b := by omega
    rw [if_neg hn, if_neg hn, hlt, diff_eq ha hb hle (commonLength_le_right a b)]

/-- **`strncmp`** is the comparison of the first `n` characters, exactly if fewer than 2^31 are counted. -/
theorem strncmpMeans_iff (n : ℕ) : StrncmpMeans a b n (strncmp mem fuel dest src n) ↔
    min (commonLength a b) n < 2 ^ 31 := by
  have hle := commonLength_le_left a b
  have hloop : strncmpLoop mem fuel dest src n fuel 0 = _ :=
    strncmpLoop_eq ha hb hdest hsrc hbytes hfa hfb rfl (Nat.zero_le _) (by decide) (by omega)
  rw [strncmp, if_neg (not_or.2 ⟨hdest, hsrc⟩), hloop]
  constructor
  · rintro ⟨v, hv, -⟩
    by_contra hlong
    rw [if_neg hlong] at hv
    cases hv
  · intro hshort
    rw [if_pos hshort]
    refine ⟨_, rfl, ?_⟩
    rw [take_eq_take_iff]
    by_cases hn : n ≤ commonLength a b
    · rw [Nat.min_eq_right hn, if_pos rfl]
      exact iff_of_true rfl (.inl hn)
    · rw [Nat.min_eq_left (by omega), if_neg (by omega), diff_eq_zero ha hb hbytes]
      exact ⟨.inr, fun h => h.resolve_left hn⟩

omit hbytes in
/-- The loop of `strcmp` on strings of one length is that of `strncmp`, with this length. -/
theorem strcmpLoop_eq (hlen : a.length = b.length) :
    strcmpLoop mem fuel dest src turns i = strncmpLoop mem fuel dest src a.length turns i := by
  induction turns generalizing i with
  | zero => rfl
  | succ turns ih =>
    rw [strcmpLoop, strncmpLoop, strlen_eq ha hdest hfa, strlen_eq hb hsrc hfb]
    simp only [ok_bind, ih, ← hlen, and_self_iff]

/-- On strings, `strcmp` is the comparison of lists that the file system is modelled with. -/
theorem strcmp_refines (hshort : commonLength a b < 2 ^ 31) :
    strcmp mem fuel dest src = .ok (PlumOs.strcmp a b) := by
  rw [strcmp, if_neg (not_or.2 ⟨hdest, hsrc⟩), strlen_eq ha hdest hfa, strlen_eq hb hsrc hfb]
  simp only [ok_bind, PlumOs.strcmp]
  by_cases hlen : a.length = b.length
  · have hmin := Nat.min_le_left (commonLength a b) a.length
    have href := strncmp_refines ha hb hdest hsrc hbytes hfa hfb (n := a.length) (by omega)
    rw [strncmp, if_neg (not_or.2 ⟨hdest, hsrc⟩)] at href
    rw [if_neg (not_not.2 hlen), if_neg (not_not.2 hlen), ← href]
    exact strcmpLoop_eq ha hb hdest hsrc hfa hfb hlen
  · rw [if_pos hlen, if_pos hlen]
    rfl

/-- **`strcmp`** is the comparison of strings, exactly if the lengths are different or fewer than 2^31
characters are counted. -/
theorem strcmpMeans_iff : StrcmpMeans a b (strcmp mem fuel dest src) ↔
    a.length ≠ b.length ∨ commonLength a b < 2 ^ 31 := by
  rw [strcmp, if_neg (not_or.2 ⟨hdest, hsrc⟩), strlen_eq ha hdest hfa, strlen_eq hb hsrc hfb]
  simp only [ok_bind]
  by_cases hlen : a.length = b.length
  · rw [if_neg (not_not.2 hlen), strcmpLoop_eq ha hb hdest hsrc hfa hfb hlen]
    have hmeans := strncmpMeans_iff ha hb hdest hsrc hbytes hfa hfb a.length
    have htake : a.take a.length = b.take a.length ↔ a = b := by
      rw [List.take_length, hlen, List.take_length]
    rw [StrncmpMeans, htake, Nat.min_eq_left (commonLength_le_left a b), strncmp,
      if_neg (not_or.2 ⟨hdest, hsrc⟩)] at hmeans
    rw [StrcmpMeans, hmeans]
    exact (or_iff_right (not_not.2 hlen)).symm
  · rw [if_pos hlen]
    refine iff_of_true ⟨-1, rfl, ?_⟩ (.inl hlen)
    exact iff_of_false (by decide) fun hab => hlen (congrArg List.length hab)

end Compare

/-! ### `strncpy` -/

section Copy

variable (hdest : dest ≠ 0) (hsrc : src ≠ 0) (hfuel : a.length < fuel)

/-- The string in the course of the copy: as long as before, with the characters from `i` on. -/
def Remains (r : Ram) (src : ℕ) (a : List ℕ) (i : ℕ) : Prop :=
  ∃ s, StrAt r.bytes src s ∧ s.length = a.length ∧ ∀ j, i ≤ j → s.getD j 0 = a.getD j 0

/-- A store of the copy changes no character that is still to be copied, if the destination does not
start behind the first character of the string inside of it. -/
theorem Remains.store {c : ℕ} (h : Remains r src a i) (hplace : dest ≤ src ∨ src + a.length < dest)
    (hi : i < a.length) (hc : c ≠ 0) : Remains (r.store (dest + i) c) src a (i + 1) := by
  obtain ⟨s, hs, hlen, hrest⟩ := h
  by_cases hover : src ≤ dest + i ∧ dest + i ≤ src + a.length
  · -- the store is to a character that was copied
    have hle : dest + i - src ≤ i := by omega
    refine ⟨s.set (dest + i - src) c, ⟨fun j hj => ?_, fun d hd => ?_, ?_⟩, by simpa using hlen,
      fun j hj => ?_⟩
    · rw [List.length_set] at hj
      rw [Ram.store_bytes, List.getElem_set]
      by_cases hj' : dest + i - src = j
      · rw [if_pos hj', show src + j = dest + i by omega, Function.update_self]
      · rw [if_neg hj', Function.update_of_ne (by omega), hs.bytes j hj]
    · rcases List.mem_or_eq_of_mem_set hd with hd | rfl
      · exact hs.nonzero d hd
      · exact hc
    · rw [List.length_set, Ram.store_bytes, Function.update_of_ne (by omega)]
      exact hs.stop
    · rw [← hrest j (by omega)]
      simp [List.getD_eq_getElem?_getD, List.getElem?_set_ne (show dest + i - src ≠ j by omega)]
  · refine ⟨s, hs.congr fun j hj => ?_, hlen, fun j hj => hrest j (by omega)⟩
    rw [Ram.store_bytes, Function.update_of_ne (by omega)]

include hsrc hfuel

/-- **The loop of `strncpy`** stores the characters, up to `size`, and the 0. -/
theorem strncpyLoop_eq (hplace : dest ≤ src ∨ src + a.length < dest) (hnonzero : ∀ c ∈ a, c ≠ 0)
    (h : Remains r src a i) (hi : i ≤ (a.take size).length) (hint : i < 2 ^ 31)
    (hturns : (a.take size).length - i < turns) : strncpyLoop fuel dest src size turns i r =
      if (a.take size).length < 2 ^ 31 then .ok (r.put (dest + i) ((a.take size).drop i ++ [0]))
      else .error .overflow := by
  induction turns generalizing i r with
  | zero => exact absurd hturns (Nat.not_lt_zero _)
  | succ turns ih =>
    have hlength : (a.take size).length = min size a.length := List.length_take
    obtain ⟨s, hs, hlen, hrest⟩ := id h
    have hstrlen : strlen r.bytes fuel src = .ok a.length := by
      rw [strlen_eq hs hsrc (by omega), hlen]
    rw [strncpyLoop]
    rcases Nat.lt_or_eq_of_le hi with hlt | heq
    · have hia : i < a.length := by omega
      have hchar : r.bytes (src + i) = a[i] := by
        rw [hs.byte (by omega), hrest i (Nat.le_refl i)]
        simp [hia]
      have hc : a[i] ≠ 0 := hnonzero _ (List.getElem_mem hia)
      rw [if_pos (by omega), hstrlen, ok_bind, if_pos hia]
      simp only [hchar]
      rw [if_pos hc]
      by_cases hnext : i + 1 < 2 ^ 31
      · have hdrop : (a.take size).drop i = a[i] :: (a.take size).drop (i + 1) := by
          rw [List.drop_eq_getElem_cons hlt, List.getElem_take]
        rw [inc_ok hnext, ok_bind, ih (h.store hplace hia hc) hlt hnext (by omega), hdrop]
        rfl
      · rw [inc_overflow (by omega), if_neg (by omega)]
        rfl
    · have hdrop : (a.take size).drop i = [] := List.drop_of_length_le (Nat.le_of_eq heq.symm)
      rw [hdrop, if_pos (show (a.take size).length < 2 ^ 31 by omega)]
      by_cases hsize : i < size
      · rw [if_pos hsize, hstrlen, ok_bind, if_neg (by omega)]
        rfl
      · rw [if_neg hsize]
        rfl

include hdest

/-- **`strncpy`** copies the first `n` characters and ends them with a 0, exactly if fewer than 2^31 are
copied. -/
theorem strncpyMeans_iff (ha : StrAt r.bytes src a) (hplace : dest ≤ src ∨ src + a.length < dest) (n : ℕ) :
    StrncpyMeans a n dest r (strncpy fuel r dest src n) ↔ min n a.length < 2 ^ 31 := by
  have hlength : (a.take n).length = min n a.length := List.length_take
  have hloop : strncpyLoop fuel dest src n fuel 0 r = _ :=
    strncpyLoop_eq hsrc hfuel hplace ha.nonzero ⟨a, ha, rfl, fun _ _ => rfl⟩ (Nat.zero_le _) (by decide)
      (by omega)
  rw [strncpy, if_neg (not_or.2 ⟨hdest, hsrc⟩), hloop]
  constructor
  · rintro ⟨after, h, -⟩
    by_contra hlong
    rw [if_neg (by omega)] at h
    cases h
  · intro hshort
    rw [if_pos (by omega), List.drop_zero, Nat.add_zero]
    refine ⟨_, rfl, fun i hi => ?_, ?_, fun x hx => ?_⟩
    · rw [Ram.put_bytes (by rw [List.length_append]; omega), List.getElem_append_left hi]
    · rw [Ram.put_bytes (by simp), List.getElem_append_right (Nat.le_refl _)]
      simp
    · refine Ram.put_bytes_of_notMem fun hmem => ?_
      rw [List.length_append, List.length_singleton, List.mem_range'_1] at hmem
      omega

end Copy

/-! ### The string functions -/

/-- **The string functions are what their callers take them for, exactly if fewer than 2^31 characters are
counted**: the common characters for `strcmp` (if the lengths are the same) and for `strncmp`, those that
are copied for `strncpy`.  The destination does not start inside of the string. -/
theorem means_iff {dest strA strB : ℕ} (ha : StrAt r.bytes strA a) (hb : StrAt r.bytes strB b)
    (hA : strA ≠ 0) (hB : strB ≠ 0) (hdest : dest ≠ 0) (hbytes : ∀ x, r.bytes x < 256)
    (hplace : dest ≤ strA ∨ strA + a.length < dest) (hfa : a.length < fuel) (hfb : b.length < fuel)
    (n : ℕ) :
    (StrcmpMeans a b (strcmp r.bytes fuel strA strB) ↔
        a.length ≠ b.length ∨ commonLength a b < 2 ^ 31) ∧
      (StrncmpMeans a b n (strncmp r.bytes fuel strA strB n) ↔ min (commonLength a b) n < 2 ^ 31) ∧
      (StrncpyMeans a n dest r (strncpy fuel r dest strA n) ↔ min n a.length < 2 ^ 31) :=
  ⟨strcmpMeans_iff ha hb hA hB hbytes hfa hfb, strncmpMeans_iff ha hb hA hB hbytes hfa hfb n,
    strncpyMeans_iff hdest hA hfa ha hplace n⟩

/-- The strings `ab` and `ac`. -/
def twoStrings : Ram := ⟨fun x => [0, 97, 98, 0, 97, 99].getD x 0, []⟩

theorem twoStrings_lt (x : ℕ) : twoStrings.bytes x < 256 := by
  rcases Nat.lt_or_ge x 6 with hlt | hge
  · revert x
    decide
  · have hout : twoStrings.bytes x = 0 := by simp [twoStrings, hge]
    omega

/-- The strings differ, their first characters do not, and the first one is copied behind them. -/
theorem means_iff_two : StrcmpMeans [97, 98] [97, 99] (strcmp twoStrings.bytes 3 1 4) ∧
    StrncmpMeans [97, 98] [97, 99] 1 (strncmp twoStrings.bytes 3 1 4 1) ∧
    StrncpyMeans [97, 98] 5 8 twoStrings (strncpy 3 twoStrings 8 1 5) := by
  have ha : StrAt twoStrings.bytes 1 [97, 98] := ⟨by decide, by decide, rfl⟩
  have hb : StrAt twoStrings.bytes 4 [97, 99] := ⟨by decide, by decide, rfl⟩
  have hiff := fun n => means_iff ha hb (by decide) (by decide) (show 8 ≠ 0 by decide) twoStrings_lt
    (.inr (by decide)) (show [97, 98].length < 3 by decide) (show [97, 99].length < 3 by decide) n
  exact ⟨(hiff 1).1.2 (by decide), (hiff 1).2.1.2 (by decide), (hiff 5).2.2.2 (by decide)⟩

/-- Two strings of 2^31 letters each, at 1 and at 2^32. -/
def longBytes (x : ℕ) : ℕ := if 1 ≤ x ∧ x ≤ 2 ^ 31 ∨ 2 ^ 32 ≤ x ∧ x < 2 ^ 32 + 2 ^ 31 then 97 else 0

theorem strAt_longBytes {p : ℕ} (hp : p = 1 ∨ p = 2 ^ 32) :
    StrAt longBytes p (List.replicate (2 ^ 31) 97) where
  bytes i hi := by
    rw [List.length_replicate] at hi
    rw [List.getElem_replicate, longBytes, if_pos (by omega)]
  nonzero c hc := by
    rw [List.eq_of_mem_replicate hc]
    decide
  stop := by
    rw [List.length_replicate, longBytes, if_neg (by omega)]

/-- **Equal strings of 2^31 letters** do not compare as equal: the index of `strcmp` is no `int` any more
at their end. -/
theorem means_fails : ¬ StrcmpMeans (List.replicate (2 ^ 31) 97) (List.replicate (2 ^ 31) 97)
    (strcmp longBytes (2 ^ 31 + 1) 1 (2 ^ 32)) := by
  have hlt : ∀ x, longBytes x < 256 := by
    intro x
    unfold longBytes
    split <;> decide
  have hlength : (List.replicate (2 ^ 31) 97).length = 2 ^ 31 := List.length_replicate
  intro h
  have hcond := (strcmpMeans_iff (strAt_longBytes (.inl rfl)) (strAt_longBytes (.inr rfl)) (by decide)
    (by decide) hlt (by omega) (by omega)).1 h
  rw [commonLength_self, hlength] at hcond
  rcases hcond with hne | hshort
  · exact hne rfl
  · exact absurd hshort (Nat.lt_irrefl _)

end Strings

end PlumOs
