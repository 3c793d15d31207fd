import Mathlib.Data.Nat.Digits.Lemmas
import Mathlib.Logic.Function.Basic

/-!
# Numerals, and buffers that are filled from their end

The numeral of a number is the list of its digits, the most significant one first; it has no zero in
front unless it is the zero.  A program gets the digits from the last one on, so that it writes them
backwards into the end of a buffer.

* `numeral`, `digitsValue` : from a number to its digits, and back;
* `numeral_of_lt`, `numeral_of_le` : the numeral by its last digit, as a loop finds it;
* `Backward` : a buffer with the index of its last store, and all indices that were stored to;
* `Backward.put_string` : **what stands in a buffer** behind the stores of some characters.
-/

namespace PlumOs

/-! ### Numerals -/

section Numerals

variable {base n k d : ℕ} {ds l r : List ℕ}

/-- The digits of `n`, the most significant one first. -/
def numeral (base n : ℕ) : List ℕ := if n = 0 then [0] else (Nat.digits base n).reverse

/-- The number with the digits `ds`. -/
def digitsValue (base : ℕ) (ds : List ℕ) : ℕ := Nat.ofDigits base ds.reverse

theorem numeral_of_lt (hn : n < base) : numeral base n = [n] := by
  unfold numeral
  split
  · next h => rw [h]
  · next h => rw [Nat.digits_of_lt base n h hn, List.reverse_singleton]

/-- A number with more than one digit ends in its last digit. -/
theorem numeral_of_le (hbase : 1 < base) (hn : base ≤ n) :
    numeral base n = numeral base (n / base) ++ [n % base] := by
  have hn0 : n ≠ 0 := by omega
  have hdiv : n / base ≠ 0 := Nat.ne_of_gt (Nat.div_pos hn (by omega))
  rw [numeral, numeral, if_neg hn0, if_neg hdiv, Nat.digits_eq_cons_digits_div hbase hn0,
    List.reverse_cons]

theorem numeral_ne_nil : numeral base n ≠ [] := by
  unfold numeral
  split
  · exact List.cons_ne_nil 0 []
  · next hn => rwa [ne_eq, List.reverse_eq_nil_iff, Nat.digits_eq_nil_iff_eq_zero]

theorem lt_of_mem_numeral (hbase : 1 < base) (hd : d ∈ numeral base n) : d < base := by
  unfold numeral at hd
  split at hd
  · rw [List.mem_singleton.1 hd]
    omega
  · exact Nat.digits_lt_base hbase (List.mem_reverse.1 hd)

theorem length_numeral_le (hbase : 1 < base) (hk : 0 < k) (hn : n < base ^ k) :
    (numeral base n).length ≤ k := by
  unfold numeral
  split
  · exact hk
  · rw [List.length_reverse]
    exact (Nat.digits_length_le_iff hbase n).2 hn

theorem digitsValue_append (base : ℕ) (l r : List ℕ) :
    digitsValue base (l ++ r) = digitsValue base l * base ^ r.length + digitsValue base r := by
  rw [digitsValue, List.reverse_append, Nat.ofDigits_append, List.length_reverse, Nat.mul_comm, Nat.add_comm]
  rfl

theorem digitsValue_singleton (base d : ℕ) : digitsValue base [d] = d := Nat.ofDigits_singleton

/-- **The digits of a number** give the number. -/
theorem digitsValue_numeral (base n : ℕ) : digitsValue base (numeral base n) = n := by
  unfold numeral
  split
  · next h => rw [digitsValue_singleton, h]
  · rw [digitsValue, List.reverse_reverse, Nat.ofDigits_digits]

/-- The first digits, in their places, give no more than all of them. -/
theorem digitsValue_take_le (base : ℕ) (ds : List ℕ) (k : ℕ) :
    digitsValue base (ds.take k) * base ^ (ds.length - k) ≤ digitsValue base ds := by
  conv_rhs => rw [← List.take_append_drop k ds, digitsValue_append, List.length_drop]
  exact Nat.le_add_right _ _

/-- One more digit. -/
theorem digitsValue_take_succ (hk : k < ds.length) :
    digitsValue base (ds.take (k + 1)) = digitsValue base (ds.take k) * base + ds[k] := by
  rw [List.take_succ_eq_append_getElem hk, digitsValue_append, digitsValue_singleton,
    List.length_singleton, pow_one]

end Numerals

/-! ### Buffers -/

/-- The characters `s` stand from the index `i` on, with a 0 behind them and none among them. -/
def StringFrom (bytes : ℤ → ℕ) : ℤ → List ℕ → Prop
  | i, [] => bytes i = 0
  | i, c :: s => bytes i = c ∧ c ≠ 0 ∧ StringFrom bytes (i + 1) s

/-- A buffer that is filled from its end. -/
structure Backward where
  bytes : ℤ → ℕ
  /-- The index of the last store. -/
  pos : ℤ
  /-- The indices of all stores, the oldest one first. -/
  log : List ℤ

namespace Backward

variable {bytes bytes' : ℤ → ℕ} {i j : ℤ} {b : Backward} {c : ℕ} {s t : List ℕ}

/-- `buf[--pos] = c`. -/
def push (b : Backward) (c : ℕ) : Backward where
  bytes := Function.update b.bytes (b.pos - 1) c
  pos := b.pos - 1
  log := b.log ++ [b.pos - 1]

theorem push_bytes_pos (b : Backward) (c : ℕ) : (b.push c).bytes (b.push c).pos = c :=
  Function.update_self ..

/-- The stores of some characters, from the last one on. -/
def put (b : Backward) (s : List ℕ) : Backward := s.foldr (fun c b => b.push c) b

@[simp] theorem put_nil (b : Backward) : b.put [] = b := rfl

@[simp] theorem put_cons (b : Backward) (c : ℕ) (s : List ℕ) : b.put (c :: s) = (b.put s).push c := rfl

theorem put_append (b : Backward) (s t : List ℕ) : b.put (s ++ t) = (b.put t).put s :=
  List.foldr_append ..

theorem put_singleton (b : Backward) (c : ℕ) : b.put [c] = b.push c := rfl

@[simp] theorem put_pos (b : Backward) (s : List ℕ) : (b.put s).pos = b.pos - s.length := by
  induction s with
  | nil => simp
  | cons c s ih =>
    rw [put_cons, push, ih, List.length_cons]
    push_cast
    omega

/-- The stores are to the indices in front of the last one. -/
theorem mem_put_log (h : j ∈ (b.put s).log) : j ∈ b.log ∨ b.pos - s.length ≤ j ∧ j < b.pos := by
  induction s with
  | nil => exact .inl h
  | cons c s ih =>
    rw [List.length_cons]
    push_cast
    rcases List.mem_append.1 h with h | h
    · rcases ih h with h | ⟨h₁, h₂⟩
      · exact .inl h
      · exact .inr ⟨by omega, h₂⟩
    · have hj : j = (b.put s).pos - 1 := List.mem_singleton.1 h
      rw [put_pos] at hj
      exact .inr ⟨by omega, by omega⟩

end Backward

section Strings

variable {bytes bytes' : ℤ → ℕ} {i : ℤ} {b : Backward} {c : ℕ} {s t : List ℕ}

theorem stringFrom_nil : StringFrom bytes i [] ↔ bytes i = 0 := by
  unfold StringFrom
  rfl

/-- The bytes in front of a string do not matter. -/
theorem StringFrom.congr (h : StringFrom bytes i s) (hb : ∀ j, i ≤ j → bytes' j = bytes j) :
    StringFrom bytes' i s := by
  induction s generalizing i with
  | nil => exact (hb i (le_refl i)).trans h
  | cons c s ih => exact ⟨(hb i (le_refl i)).trans h.1, h.2.1, ih h.2.2 fun j hj => hb j (by omega)⟩

theorem StringFrom.ne_zero (h : StringFrom bytes i s) (hc : c ∈ s) : c ≠ 0 := by
  induction s generalizing i with
  | nil => exact absurd hc List.not_mem_nil
  | cons d s ih =>
    rcases List.mem_cons.1 hc with rfl | hc
    · exact h.2.1
    · exact ih h.2.2 hc

/-- There is one string at an index. -/
theorem StringFrom.unique (h : StringFrom bytes i s) (h' : StringFrom bytes i t) : s = t := by
  induction s generalizing i t with
  | nil =>
    cases t with
    | nil => rfl
    | cons d t => exact absurd (h'.1.symm.trans h) h'.2.1
  | cons c s ih =>
    cases t with
    | nil => exact absurd (h.1.symm.trans h') h.2.1
    | cons d t => rw [h.1.symm.trans h'.1, ih h.2.2 h'.2.2]

theorem Backward.push_string (h : StringFrom b.bytes b.pos s) (hc : c ≠ 0) :
    StringFrom (b.push c).bytes (b.push c).pos (c :: s) := by
  refine ⟨push_bytes_pos b c, hc, ?_⟩
  rw [show (b.push c).pos + 1 = b.pos from Int.sub_add_cancel b.pos 1]
  exact h.congr fun j hj => Function.update_of_ne (by omega) _ _

/-- **The characters stand in front of the string** that was there. -/
theorem Backward.put_string (h : StringFrom b.bytes b.pos t) (hs : ∀ c ∈ s, c ≠ 0) :
    StringFrom (b.put s).bytes (b.put s).pos (s ++ t) := by
  induction s with
  | nil => exact h
  | cons c s ih =>
    exact push_string (ih fun d hd => hs d (List.mem_cons_of_mem c hd)) (hs c List.mem_cons_self)

end Strings

end PlumOs
