import Mathlib.Data.BitVec
import Mathlib.Data.Int.Basic

/-!
# Machine words

The program computes with C's fixed-width integers, as the x86-64 build computes them.

* `wrap32` : the value of a 32-bit signed `int` after an operation that may overflow;
* `charVal` : the value of a `char`, which has a sign;
* `sx32` : the 64-bit value of the `int` expression `1 << k` when it is combined with a
  `uint64_t`: the shift count is taken modulo 32 and the 32-bit result is sign-extended.
-/

namespace PlumOs

/-- Two's complement reduction to a 32-bit signed integer. -/
def wrap32 (x : ℤ) : ℤ := (x + 2 ^ 31) % 2 ^ 32 - 2 ^ 31

theorem wrap32_of_mem {x : ℤ} (h₁ : -2 ^ 31 ≤ x) (h₂ : x < 2 ^ 31) : wrap32 x = x := by
  unfold wrap32; omega

/-- Reducing an operand first does not change a reduced sum. -/
theorem wrap32_wrap32_add (x y : ℤ) : wrap32 (wrap32 x + y) = wrap32 (x + y) := by
  unfold wrap32; omega

/-- A value that needs at most 32 bits is reduced to zero only if it is zero. -/
theorem wrap32_eq_zero {x : ℤ} (h₁ : 0 ≤ x) (h₂ : x < 2 ^ 32) : wrap32 x = 0 ↔ x = 0 := by
  unfold wrap32; omega

/-- The value of a `char`, which has a sign. -/
def charVal (c : ℕ) : ℤ := if c < 128 then c else c - 256

theorem charVal_injective {c d : ℕ} (hc : c < 256) (hd : d < 256) (h : charVal c = charVal d) :
    c = d := by
  unfold charVal at h
  split at h <;> split at h <;> omega

/-- The C expression `1 << k`, an `int`, widened to 64 bits. -/
def sx32 (k : ℕ) : BitVec 64 := ((1 : BitVec 32) <<< (k % 32)).signExtend 64

theorem sx32_ne_zero (k : ℕ) : sx32 k ≠ 0 := by
  have h : ∀ j, j < 32 → ((1 : BitVec 32) <<< j).signExtend 64 ≠ 0 := by decide
  exact h _ (Nat.mod_lt _ (by decide))

/-- Setting the bits of a mask makes the masked word non-zero. -/
theorem or_and_self_ne_zero {w : ℕ} {m : BitVec w} (hm : m ≠ 0) (b : BitVec w) :
    (b ||| m) &&& m ≠ 0 := by
  have h : (b ||| m) &&& m = m := by
    apply BitVec.eq_of_getLsbD_eq
    intro i _
    simp only [BitVec.getLsbD_and, BitVec.getLsbD_or]
    cases b.getLsbD i <;> cases m.getLsbD i <;> rfl
  rw [h]; exact hm

/-- Setting further bits keeps a masked word non-zero. -/
theorem or_and_ne_zero {w : ℕ} {b m : BitVec w} (h : b &&& m ≠ 0) (c : BitVec w) :
    (b ||| c) &&& m ≠ 0 := by
  intro h0
  apply h
  apply BitVec.eq_of_getLsbD_eq
  intro i _
  have hi := congrArg (fun v : BitVec w => v.getLsbD i) h0
  simp only [BitVec.getLsbD_and, BitVec.getLsbD_or] at hi ⊢
  revert hi
  cases b.getLsbD i <;> cases c.getLsbD i <;> cases m.getLsbD i <;> simp

end PlumOs
