import Mathlib.Algebra.Order.Ring.Nat
import Mathlib.Data.Nat.ModEq
import Mathlib.Logic.Function.Basic
import Mathlib.Tactic.Ring

/-!
# Bytes of words

A page is a function from numbers to words of eight bytes, the lowest byte first.

* `byteAt`, `setByte`, `packBytes` : the bytes of one word;
* `pageByte`, `pageSetByte` : the bytes of a page;
* `pageByte_pageSetByte` : **a byte that is stored** is there afterwards, and no other one has changed;
* `byteAt_packBytes` : the bytes of a word that is made of bytes.
-/

namespace PlumOs

/-- The byte `k` of a word. -/
def byteAt (w k : ℕ) : ℕ := w / 256 ^ k % 256

/-- The word with its byte `k` replaced. -/
def setByte (w k b : ℕ) : ℕ := w - byteAt w k * 256 ^ k + b % 256 * 256 ^ k

/-- The byte at an offset of a page. -/
def pageByte (page : ℕ → ℕ) (off : ℕ) : ℕ := byteAt (page (off / 8)) (off % 8)

/-- The page with the byte at an offset replaced. -/
def pageSetByte (page : ℕ → ℕ) (off b : ℕ) : ℕ → ℕ :=
  Function.update page (off / 8) (setByte (page (off / 8)) (off % 8) b)

/-- The word made of some bytes, the lowest first. -/
def packBytes : List ℕ → ℕ
  | [] => 0
  | b :: bs => b % 256 + 256 * packBytes bs

variable {w j k b : ℕ}

/-- The word has three parts: the bytes above the byte `k`, the byte, and those below. -/
theorem setByte_eq (w k b : ℕ) :
    setByte w k b = (w / 256 ^ (k + 1) * 256 + b % 256) * 256 ^ k + w % 256 ^ k := by
  have hword : w / 256 ^ k * 256 ^ k + w % 256 ^ k = w := Nat.div_add_mod' w (256 ^ k)
  have hupper : w / 256 ^ k = w / 256 ^ (k + 1) * 256 + byteAt w k := by
    rw [byteAt, Nat.pow_succ, ← Nat.div_div_eq_div_mul, Nat.div_add_mod']
  have hsub : w - byteAt w k * 256 ^ k = w / 256 ^ (k + 1) * 256 * 256 ^ k + w % 256 ^ k := by
    rw [hupper, Nat.add_mul] at hword
    omega
  rw [setByte, hsub]
  ring

/-- The part above the byte `k` stays. -/
theorem setByte_div (w k b : ℕ) : setByte w k b / 256 ^ k = w / 256 ^ (k + 1) * 256 + b % 256 := by
  have hpos : 0 < 256 ^ k := Nat.pow_pos (by decide)
  rw [setByte_eq, Nat.mul_comm _ (256 ^ k), Nat.mul_add_div hpos, Nat.div_eq_of_lt (Nat.mod_lt w hpos),
    Nat.add_zero]

/-- The part below the byte `k` stays. -/
theorem setByte_mod (w k b : ℕ) : setByte w k b % 256 ^ k = w % 256 ^ k := by
  rw [setByte_eq, Nat.mul_comm _ (256 ^ k), Nat.mul_add_mod, Nat.mod_mod]

theorem byteAt_setByte_self (w k b : ℕ) : byteAt (setByte w k b) k = b % 256 := by
  rw [byteAt, setByte_div, Nat.add_comm, Nat.add_mul_mod_self_right, Nat.mod_mod]

/-- The bytes below `k` are those of the lower part. -/
theorem byteAt_mod (w : ℕ) (h : j < k) : byteAt (w % 256 ^ k) j = byteAt w j := by
  obtain ⟨d, rfl⟩ := Nat.exists_eq_add_of_lt h
  rw [byteAt, byteAt, Nat.add_assoc, Nat.pow_add, Nat.mod_mul_right_div_self, Nat.pow_succ,
    Nat.mod_mul_left_mod]

/-- The bytes above `k` are those of the upper part. -/
theorem byteAt_div (w : ℕ) (h : k < j) : byteAt w j = byteAt (w / 256 ^ k / 256) (j - (k + 1)) := by
  obtain ⟨d, rfl⟩ := Nat.exists_eq_add_of_lt h
  have hexp : k + d + 1 - (k + 1) = d := by omega
  have hpow : (256 : ℕ) ^ (k + d + 1) = 256 ^ k * 256 * 256 ^ d := by ring
  rw [byteAt, byteAt, hexp, hpow, Nat.div_div_eq_div_mul, Nat.div_div_eq_div_mul]
  ring_nf

theorem byteAt_setByte_of_ne (w b : ℕ) (h : j ≠ k) : byteAt (setByte w k b) j = byteAt w j := by
  rcases Nat.lt_or_gt_of_ne h with hlt | hgt
  · rw [← byteAt_mod _ hlt, setByte_mod, byteAt_mod _ hlt]
  · have hupper : setByte w k b / 256 ^ k / 256 = w / 256 ^ k / 256 := by
      have hpow : w / 256 ^ (k + 1) = w / 256 ^ k / 256 := by
        rw [Nat.pow_succ, Nat.div_div_eq_div_mul]
      rw [setByte_div, hpow]
      omega
    rw [byteAt_div _ hgt, hupper, ← byteAt_div _ hgt]

/-- **A byte that is stored** in a page. -/
theorem pageByte_pageSetByte (page : ℕ → ℕ) (off b x : ℕ) :
    pageByte (pageSetByte page off b) x = if x = off then b % 256 else pageByte page x := by
  unfold pageByte pageSetByte
  by_cases hword : x / 8 = off / 8
  · rw [hword, Function.update_self]
    split
    · next hx => rw [hx, byteAt_setByte_self]
    · next hx => rw [byteAt_setByte_of_ne _ _ (by omega)]
  · rw [Function.update_of_ne hword, if_neg fun hx => hword (by rw [hx])]

@[simp] theorem pageByte_zero (off : ℕ) : pageByte (fun _ => 0) off = 0 := by
  rw [pageByte, byteAt, Nat.zero_div]

/-- The bytes of a word that is made of bytes. -/
theorem byteAt_packBytes {bs : List ℕ} (h : k < bs.length) : byteAt (packBytes bs) k = bs[k] % 256 := by
  induction bs generalizing k with
  | nil => simp at h
  | cons c bs ih =>
    cases k with
    | zero =>
      rw [packBytes, byteAt, Nat.pow_zero, Nat.div_one, Nat.add_mul_mod_self_left, Nat.mod_mod]
      rfl
    | succ k =>
      have htail : (c % 256 + 256 * packBytes bs) / 256 = packBytes bs := by omega
      rw [packBytes, byteAt, Nat.pow_succ, Nat.mul_comm (256 ^ k), ← Nat.div_div_eq_div_mul, htail]
      exact ih (by simpa using h)

end PlumOs
