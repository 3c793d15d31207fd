import Mathlib.Algebra.Order.Ring.Int
import Mathlib.Data.List.Range
import Mathlib.Logic.Function.Basic

/-!
# The buffer of the keyboard (`stdin_buf`)

`kbdintr` appends characters to `stdin_buf` and takes them back, and `read_stdin` takes them away at
the front, by moving the rest of the buffer down.  The buffer is memory of its own here and in the other
modules of the terminal: `kbdinit` takes its page before `mm_init` has run, and when the page stays its own
is the subject of `Mm/Exclusive.lean` (`stdinPage_exclusive_iff`).

* `Stdin.content` : what is in the buffer;
* `Stdin.take_append_shift` : **what is read, and what stays, is what there was**, in this order;
* `Stdin.content_push`, `Stdin.content_pop` : a character is added, or taken back, at the end.
-/

namespace PlumOs

/-- The buffer of the keyboard: `stdin_buf`, with what is before it and behind it, and
`stdin_buf_size`. -/
structure Stdin where
  /-- The bytes by their index, which may be negative. -/
  buf : ℤ → ℕ
  /-- `stdin_buf_size`. -/
  size : ℤ

/-- The first `n` bytes of the buffer; a copy of a negative number of bytes copies none. -/
def Stdin.take (stdin : Stdin) (n : ℤ) : List ℕ :=
  (List.range n.toNat).map fun i => stdin.buf i

/-- `stdin_buf[i-size] = stdin_buf[i]`, from `size` on. -/
def Stdin.shift (stdin : Stdin) (n : ℤ) : Stdin where
  buf := (List.range (stdin.size - n).toNat).foldl
    (fun buf j => Function.update buf (j : ℤ) (buf (n + j))) stdin.buf
  size := stdin.size - n

namespace Stdin

/-- `stdin_buf[0..stdin_buf_size)`. -/
def content (stdin : Stdin) : List ℕ := stdin.take stdin.size

variable {stdin : Stdin}

/-- Counting to `n` with natural numbers or with integers is the same. -/
theorem range_cast (k : ℕ) : (do let a ← List.range k; pure (a : ℤ)) = (List.range k).map Nat.cast :=
  List.flatMap_pure_eq_map _ _

theorem take_eq (n : ℤ) : stdin.take n = (List.range n.toNat).map fun i : ℕ => stdin.buf i := by
  rw [take, range_cast, List.map_map]
  rfl

@[simp] theorem length_take (n : ℤ) : (stdin.take n).length = n.toNat := by
  rw [take_eq, List.length_map, List.length_range]

theorem getElem_take {n : ℤ} {i : ℕ} (h : i < (stdin.take n).length) :
    (stdin.take n)[i] = stdin.buf i := by
  simp only [take_eq, List.getElem_map, List.getElem_range]

theorem content_eq_nil (h : stdin.size ≤ 0) : stdin.content = [] := by
  rw [← List.length_eq_zero_iff, content, length_take]
  omega

/-- The loop moves upwards, so it reads no byte that it has written. -/
theorem move_down {n : ℤ} (hn : 0 < n) (k : ℕ) (buf : ℤ → ℕ) (i : ℤ) :
    (List.range k).foldl (fun buf (j : ℕ) => Function.update buf (j : ℤ) (buf (n + j))) buf i =
      if 0 ≤ i ∧ i < k then buf (n + i) else buf i := by
  induction k generalizing i with
  | zero => rw [List.range_zero, List.foldl_nil, if_neg (by omega)]
  | succ k ih =>
    rw [List.range_succ, List.foldl_append, List.foldl_cons, List.foldl_nil]
    by_cases hik : i = k
    · subst hik
      rw [Function.update_self, ih, if_neg (by omega), if_pos (by omega)]
    · rw [Function.update_of_ne hik, ih]
      congr 1
      rw [eq_iff_iff]
      omega

theorem shift_buf {n i : ℤ} (hn : 0 < n) (hi : 0 ≤ i) (hsize : i < stdin.size - n) :
    (stdin.shift n).buf i = stdin.buf (n + i) := by
  simp only [shift, range_cast, List.foldl_map]
  rw [move_down hn, if_pos (by omega)]

/-- **What is read, and what stays, is what there was.** -/
theorem take_append_shift {n : ℤ} (hn : 0 < n) (hsize : n ≤ stdin.size) :
    stdin.take n ++ (stdin.shift n).content = stdin.content := by
  apply List.ext_getElem
  · simp only [content, shift, List.length_append, length_take]
    omega
  · intro i h₁ h₂
    simp only [content, length_take] at h₂
    by_cases hi : i < n.toNat
    · rw [List.getElem_append_left (by simpa using hi), getElem_take]
      simp only [content, getElem_take]
    · rw [List.getElem_append_right (by simpa using hi)]
      simp only [content, getElem_take, length_take]
      rw [shift_buf hn (by omega) (by omega)]
      congr 1
      omega

/-- The first byte, and what stays when it is read. -/
theorem content_cons (h : 0 < stdin.size) :
    stdin.content = stdin.buf 0 :: (stdin.shift 1).content := by
  rw [← take_append_shift (by omega : (0 : ℤ) < 1) (by omega), take_eq]
  rfl

/-- A character is added at the end. -/
theorem content_push {buf : ℤ → ℕ} {size : ℤ} (h : 0 ≤ size) (c : ℕ) :
    content ⟨Function.update buf size c, size + 1⟩ = content ⟨buf, size⟩ ++ [c] := by
  obtain ⟨k, rfl⟩ := Int.eq_ofNat_of_zero_le h
  have hk : ((k : ℤ) + 1).toNat = k + 1 := by omega
  simp only [content, take_eq, hk, Int.toNat_natCast, List.range_succ, List.map_append,
    List.map_singleton, Function.update_self]
  congr 1
  refine List.map_congr_left fun i hi => ?_
  rw [Function.update_of_ne]
  have := List.mem_range.1 hi
  omega

/-- The last character is taken back. -/
theorem content_pop {buf : ℤ → ℕ} {size : ℤ} (h : 0 < size) :
    content ⟨buf, size - 1⟩ = (content ⟨buf, size⟩).dropLast := by
  obtain ⟨k, rfl⟩ : ∃ k : ℕ, size = k + 1 := ⟨(size - 1).toNat, by omega⟩
  have hk : ((k : ℤ) + 1).toNat = k + 1 := by omega
  have hk' : ((k : ℤ) + 1 - 1).toNat = k := by omega
  simp only [content, take_eq, hk, hk', List.range_succ, List.map_append, List.map_singleton,
    List.dropLast_concat]

end Stdin

end PlumOs
