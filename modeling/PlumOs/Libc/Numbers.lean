import PlumOs.Lib.Numeral
import PlumOs.Libc.Printf

/-!
# Numbers as text (`sys/printf.c`, `libc/printf.c`, `libc/math.c`)

`int_to_string`, `longlong_to_string` and `longlong_to_hexstring` write the digits of a number from the
last one on into a buffer of `NUM_BUF` bytes, and return a pointer to the first one.  The kernel and
libc have the same text of the functions that both of them have.  `atoi` adds up the digits with the
powers of ten that `power` gives.

* `intToStringIn`, `longlongToStringIn`, `longlongToHexstringIn`, `power`, `atoi` : the functions of the
  source;
* `Writes` : which string is returned, with all stores inside of the buffer;
* `digitStores_eq` : **the loop stores the numeral**;
* `intToStringIn_intToString`, `longlongToHexstring_eq` : the texts that `vsprintf` stores are these;
* `atoi_numeral` : **`atoi` gives the number back**, and no `int` overflows on the way;
* `numbersExact_iff` : **the numerals are exact for all numbers but the least `int`**, which is its own
  negative.
-/

namespace PlumOs

/-- An `int` that is stored to a `char`. -/
def toChar (x : ℤ) : ℕ := (x % 256).toNat

/-- The loop over the digits, and the store of the first one behind it. -/
def digitStores (base : ℤ) (char : ℤ → ℕ) : ℕ → ℤ → Backward → Option Backward
  | 0, _, _ => none
  | fuel + 1, n, b =>
    if base ≤ n then digitStores base char fuel (n / base) (b.push (char (n % base)))
    else some (b.push (char n))

/-- `char buf[NUM_BUF]`, where `pos` is behind its end. -/
def numBuffer (bytes : ℤ → ℕ) : Backward := ⟨bytes, numBuf, []⟩

/-- `int_to_string`. -/
def intToStringIn (bytes : ℤ → ℕ) (n : ℤ) : Option Backward :=
  let abs := if n < 0 then wrap32 (-n) else n
  (digitStores 10 (fun d => toChar (d + 48)) numBuf abs ((numBuffer bytes).push 0)).map fun b =>
    if n < 0 then b.push 45 else b

/-- `longlong_to_string`. -/
def longlongToStringIn (bytes : ℤ → ℕ) (n : ℕ) : Option Backward :=
  digitStores 10 (fun d => toChar (d + 48)) numBuf n ((numBuffer bytes).push 0)

/-- `table`, the digits from 0 to F. -/
def hexTable : List ℕ := [48, 49, 50, 51, 52, 53, 54, 55, 56, 57, 65, 66, 67, 68, 69, 70]

/-- `longlong_to_hexstring`. -/
def longlongToHexstringIn (bytes : ℤ → ℕ) (n : ℕ) : Option Backward :=
  digitStores 16 (fun d => hexTable.getD d.toNat 0) numBuf n ((numBuffer bytes).push 0)

/-- `power(radix, n)`. -/
def power (radix n : ℤ) : ℤ := (fun sum => wrap32 (sum * radix))^[n.toNat] 1

/-- One turn of the loop of `atoi`, which ends the program if the character is no digit. -/
def atoiTurn (str : List ℕ) (len sum : ℤ) (i : ℕ) : Option ℤ :=
  let digit := charVal (str.getD i 0) - 48
  if 0 ≤ digit ∧ digit ≤ 9 then some (wrap32 (sum + wrap32 (power 10 (wrap32 (len - i - 1)) * digit)))
  else none

/-- `atoi`. -/
def atoi (str : List ℕ) : Option ℤ :=
  let len := wrap32 str.length
  (List.range len.toNat).foldlM (atoiTurn str len) 0

/-! ### The numerals -/

/-- The characters of a decimal numeral. -/
def decimalDigits (n : ℕ) : List ℕ := (numeral 10 n).map (· + 48)

/-- The decimal numeral of an integer. -/
def decimal (n : ℤ) : List ℕ := if n < 0 then 45 :: decimalDigits n.natAbs else decimalDigits n.natAbs

/-- The hexadecimal numeral in upper case. -/
def hexadecimal (n : ℕ) : List ℕ := (numeral 16 n).map fun d => if d < 10 then d + 48 else d + 55

/-- The call comes back, the string is at the pointer that it returns, and it has stored only inside of
the buffer. -/
def Writes (r : Option Backward) (s : List ℕ) : Prop :=
  ∃ b, r = some b ∧ StringFrom b.bytes b.pos s ∧ ∀ i ∈ b.log, 0 ≤ i ∧ i < numBuf

variable {bytes : ℤ → ℕ} {r : Option Backward} {b : Backward} {s t : List ℕ} {base fuel n k : ℕ}

/-- A call writes one string. -/
theorem Writes.unique (h : Writes r s) (h' : Writes r t) : s = t := by
  obtain ⟨b, rfl, hs, -⟩ := h
  obtain ⟨b', hb', ht, -⟩ := h'
  cases hb'
  exact hs.unique ht

/-- The characters of a string that has room in the buffer. -/
theorem writes_put (hs : ∀ c ∈ s, c ≠ 0) (hlen : s.length < numBuf) :
    Writes (some (((numBuffer bytes).push 0).put s)) s := by
  have hlen' : (s.length : ℤ) < 80 := by exact_mod_cast hlen
  have hpos : ((numBuffer bytes).push 0).pos = 79 := rfl
  refine ⟨_, rfl, ?_, fun i hi => ?_⟩
  · have hnil : StringFrom ((numBuffer bytes).push 0).bytes ((numBuffer bytes).push 0).pos [] :=
      stringFrom_nil.2 (Backward.push_bytes_pos _ 0)
    have hput := Backward.put_string hnil hs
    rwa [List.append_nil] at hput
  · show 0 ≤ i ∧ i < 80
    rcases Backward.mem_put_log hi with hi | ⟨h₁, h₂⟩
    · have hi79 : i = 79 := List.mem_singleton.1 hi
      omega
    · omega

/-! ### The loop over the digits -/

/-- **The loop stores the numeral**, from its last digit on. -/
theorem digitStores_eq (char : ℤ → ℕ) (hbase : 1 < base) (hfuel : (numeral base n).length ≤ fuel) :
    digitStores base char fuel n b = some (b.put ((numeral base n).map fun d : ℕ => char d)) := by
  induction fuel generalizing n b with
  | zero =>
    exact absurd (List.eq_nil_of_length_eq_zero (Nat.le_zero.1 hfuel)) numeral_ne_nil
  | succ fuel ih =>
    by_cases hn : base ≤ n
    · rw [numeral_of_le hbase hn] at hfuel ⊢
      rw [List.length_append, List.length_singleton] at hfuel
      rw [digitStores, if_pos (by exact_mod_cast hn), List.map_append, List.map_singleton,
        Backward.put_append, Backward.put_singleton]
      exact ih (by omega)
    · rw [numeral_of_lt (by omega), digitStores, if_neg (by exact_mod_cast hn), List.map_singleton,
        Backward.put_singleton]

/-- A number below the base has one character, also if it is negative. -/
theorem digitStores_of_lt {m base : ℤ} (char : ℤ → ℕ) (hm : m < base) (b : Backward) :
    digitStores base char (fuel + 1) m b = some (b.push (char m)) := by
  rw [digitStores, if_neg (by omega)]

theorem decimalChar_eq {d : ℕ} (hd : d < 10) : toChar ((d : ℤ) + 48) = d + 48 := by
  unfold toChar
  omega

theorem map_decimalChar (n : ℕ) :
    ((numeral 10 n).map fun d : ℕ => toChar ((d : ℤ) + 48)) = decimalDigits n :=
  List.map_congr_left fun _ hd => decimalChar_eq (lt_of_mem_numeral (by decide) hd)

theorem map_hexChar (n : ℕ) :
    ((numeral 16 n).map fun d : ℕ => hexTable.getD (d : ℤ).toNat 0) = hexadecimal n := by
  have htable : ∀ d < 16, hexTable.getD ((d : ℕ) : ℤ).toNat 0 = if d < 10 then d + 48 else d + 55 := by
    decide
  exact List.map_congr_left fun d hd => htable d (lt_of_mem_numeral (by decide) hd)

theorem ne_zero_of_mem_decimalDigits {c : ℕ} (hc : c ∈ decimalDigits n) : c ≠ 0 := by
  obtain ⟨d, -, rfl⟩ := List.mem_map.1 hc
  omega

theorem ne_zero_of_mem_hexadecimal {c : ℕ} (hc : c ∈ hexadecimal n) : c ≠ 0 := by
  obtain ⟨d, -, rfl⟩ := List.mem_map.1 hc
  split <;> omega

theorem length_decimalDigits (hk : 0 < k) (hn : n < 10 ^ k) : (decimalDigits n).length ≤ k := by
  rw [decimalDigits, List.length_map]
  exact length_numeral_le (by decide) hk hn

theorem length_hexadecimal (hk : 0 < k) (hn : n < 16 ^ k) : (hexadecimal n).length ≤ k := by
  rw [hexadecimal, List.length_map]
  exact length_numeral_le (by decide) hk hn

/-- The loop for decimal digits. -/
theorem digitStores_decimal (hn : n < 10 ^ numBuf) (b : Backward) :
    digitStores 10 (fun d => toChar (d + 48)) numBuf n b = some (b.put (decimalDigits n)) := by
  have heq := digitStores_eq (b := b) (fun d => toChar (d + 48)) (show 1 < 10 by decide)
    (length_numeral_le (by decide) (by decide) hn)
  rw [map_decimalChar] at heq
  exact heq

/-- The loop for hexadecimal digits. -/
theorem digitStores_hexadecimal (hn : n < 16 ^ numBuf) (b : Backward) :
    digitStores 16 (fun d => hexTable.getD d.toNat 0) numBuf n b = some (b.put (hexadecimal n)) := by
  have heq := digitStores_eq (b := b) (fun d => hexTable.getD d.toNat 0) (show 1 < 16 by decide)
    (length_numeral_le (by decide) (by decide) hn)
  rw [map_hexChar] at heq
  exact heq

/-- **`longlong_to_string`** writes the decimal numeral. -/
theorem longlongToStringIn_writes (hn : n < 2 ^ 64) :
    Writes (longlongToStringIn bytes n) (decimalDigits n) := by
  have hlen := length_decimalDigits (show 0 < 20 by decide) (show n < 10 ^ 20 by omega)
  rw [longlongToStringIn, digitStores_decimal (lt_of_lt_of_le hn (by decide))]
  exact writes_put (fun c => ne_zero_of_mem_decimalDigits) (lt_of_le_of_lt hlen (by decide))

/-- **`longlong_to_hexstring`** writes the hexadecimal numeral. -/
theorem longlongToHexstringIn_writes (hn : n < 2 ^ 64) :
    Writes (longlongToHexstringIn bytes n) (hexadecimal n) := by
  have hlen := length_hexadecimal (show 0 < 16 by decide) (show n < 16 ^ 16 by omega)
  rw [longlongToHexstringIn, digitStores_hexadecimal (lt_of_lt_of_le hn (by decide))]
  exact writes_put (fun c => ne_zero_of_mem_hexadecimal) (lt_of_le_of_lt hlen (by decide))

theorem abs_eq_natAbs {n : ℤ} (h₁ : -2 ^ 31 < n) (h₂ : n < 2 ^ 31) :
    (if n < 0 then wrap32 (-n) else n) = (n.natAbs : ℤ) := by
  split
  · rw [wrap32_of_mem (by omega) (by omega)]
    omega
  · omega

/-- **`int_to_string`** writes the decimal numeral of an `int` that has a negative. -/
theorem intToStringIn_writes {n : ℤ} (h₁ : -2 ^ 31 < n) (h₂ : n < 2 ^ 31) :
    Writes (intToStringIn bytes n) (decimal n) := by
  have hlen := length_decimalDigits (show 0 < 10 by decide) (show n.natAbs < 10 ^ 10 by omega)
  have hstores := digitStores_decimal (show n.natAbs < 10 ^ numBuf from
    lt_of_lt_of_le (show n.natAbs < 2 ^ 31 by omega) (by decide)) ((numBuffer bytes).push 0)
  rw [intToStringIn, abs_eq_natAbs h₁ h₂, hstores, Option.map_some, decimal]
  split
  · rw [← Backward.put_cons]
    refine writes_put (fun c hc => ?_) (lt_of_le_of_lt (Nat.succ_le_succ hlen) (by decide))
    rcases List.mem_cons.1 hc with rfl | hc
    · decide
    · exact ne_zero_of_mem_decimalDigits hc
  · exact writes_put (fun c => ne_zero_of_mem_decimalDigits) (lt_of_le_of_lt hlen (by decide))

/-- **The least `int`** is its own negative, and is not above 9: the string is `-0`. -/
theorem intToStringIn_least : Writes (intToStringIn bytes (-2 ^ 31)) [45, 48] := by
  have hwrap : wrap32 (-(-2 ^ 31)) = -2 ^ 31 := by decide
  have hstores : digitStores 10 (fun d => toChar (d + 48)) numBuf (-2 ^ 31) ((numBuffer bytes).push 0) =
      some (((numBuffer bytes).push 0).push (toChar (-2 ^ 31 + 48))) :=
    digitStores_of_lt (fun d => toChar (d + 48)) (show (-2 ^ 31 : ℤ) < 10 by decide) _
  rw [intToStringIn, if_pos (by decide), hwrap]
  rw [hstores, Option.map_some, if_pos (by decide), show toChar (-2 ^ 31 + 48) = 48 by decide,
    ← Backward.put_singleton _ 48, ← Backward.put_cons]
  exact writes_put (by decide) (by decide)

/-! ### The texts that `printf` uses -/

/-- The loop as `vsprintf` has it finds the numeral. -/
theorem digitLoop_eq {pos : ℕ} (hbase : 1 < base) (hlen : (numeral base n).length ≤ pos + 1)
    (digits : List ℕ) : digitLoop base pos n digits = numeral base n ++ digits := by
  induction pos generalizing n digits with
  | zero =>
    by_cases hn : base ≤ n
    · -- two digits at least
      have hone := numeral_of_le hbase hn
      have hne : 0 < (numeral base (n / base)).length := List.length_pos_of_ne_nil numeral_ne_nil
      rw [hone, List.length_append, List.length_singleton] at hlen
      omega
    · rw [numeral_of_lt (by omega), digitLoop]
      rfl
  | succ pos ih =>
    by_cases hn : base ≤ n
    · rw [numeral_of_le hbase hn] at hlen ⊢
      rw [List.length_append, List.length_singleton] at hlen
      rw [digitLoop, if_pos hn, ih (by omega), List.append_assoc, List.singleton_append]
    · rw [numeral_of_lt (by omega), digitLoop, if_neg hn]
      rfl

/-- **The text that `vsprintf` stores** is the one that `int_to_string` returns, for every `int`. -/
theorem intToStringIn_intToString {n : ℤ} (h₁ : -2 ^ 31 ≤ n) (h₂ : n < 2 ^ 31) :
    Writes (intToStringIn bytes n) (intToString n) := by
  by_cases hn : n = -2 ^ 31
  · subst hn
    exact intToStringIn_least
  · have habs : (if n < 0 then wrap32 (-n) else n) = (n.natAbs : ℤ) := abs_eq_natAbs (by omega) h₂
    have hlen : (numeral 10 n.natAbs).length ≤ numBuf - 1 + 1 :=
      length_numeral_le (by decide) (by decide) (lt_of_lt_of_le
        (show n.natAbs < 2 ^ 31 by omega) (by decide))
    have htext : intToString n = decimal n := by
      rw [intToString, decimal, habs]
      simp only [if_neg (Int.not_lt.2 (Int.natCast_nonneg n.natAbs)), Int.toNat_natCast,
        digitLoop_eq (show 1 < 10 by decide) hlen, List.append_nil]
      rfl
    rw [htext]
    exact intToStringIn_writes (by omega) h₂

/-- The text of `longlong_to_string`, as `digitLoop` has it. -/
def longlongToString (n : ℕ) : List ℕ := (digitLoop 10 (numBuf - 1) n []).map (· + 48)

theorem longlongToString_eq (hn : n < 2 ^ 64) : longlongToString n = decimalDigits n := by
  have hlen : (numeral 10 n).length ≤ numBuf - 1 + 1 :=
    length_numeral_le (by decide) (by decide) (lt_of_lt_of_le hn (by decide))
  rw [longlongToString, digitLoop_eq (by decide) hlen, List.append_nil]
  rfl

/-- The text of `longlong_to_hexstring` is the numeral. -/
theorem longlongToHexstring_eq (hn : n < 2 ^ 64) : longlongToHexstring n = hexadecimal n := by
  have hlen : (numeral 16 n).length ≤ numBuf - 1 + 1 :=
    length_numeral_le (by decide) (by decide) (lt_of_lt_of_le hn (by decide))
  rw [longlongToHexstring, digitLoop_eq (by decide) hlen, List.append_nil]
  rfl

/-! ### Back to the number -/

/-- A power that is an `int` is computed without an overflow. -/
theorem power_eq {radix m : ℕ} (hradix : 0 < radix) (h : radix ^ m < 2 ^ 31) :
    power radix m = (radix ^ m : ℕ) := by
  rw [power, Int.toNat_natCast]
  induction m with
  | zero => rfl
  | succ m ih =>
    have hle : radix ^ m ≤ radix ^ (m + 1) := Nat.pow_le_pow_right hradix (Nat.le_succ m)
    have hcast : ((radix ^ (m + 1) : ℕ) : ℤ) = (radix ^ m : ℕ) * radix := by push_cast; ring
    rw [Function.iterate_succ_apply', ih (lt_of_le_of_lt hle h), ← hcast]
    exact wrap32_of_mem (by omega) (by exact_mod_cast h)

/-- **The loop of `atoi`** has the value of the digits so far, in their places. -/
theorem foldlM_atoiTurn {ds : List ℕ} (hds : ∀ d ∈ ds, d < 10) (hlen : ds.length ≤ 10)
    (hval : digitsValue 10 ds < 2 ^ 31) (hk : k ≤ ds.length) :
    (List.range k).foldlM (atoiTurn (ds.map (· + 48)) ds.length) 0 =
      some ((digitsValue 10 (ds.take k) * 10 ^ (ds.length - k) : ℕ) : ℤ) := by
  induction k with
  | zero => simp [digitsValue]
  | succ k ih =>
    have hlt : k < ds.length := hk
    have hd := hds ds[k] (List.getElem_mem hlt)
    have hbound := digitsValue_take_le 10 ds (k + 1)
    have hchar : charVal ((ds.map (· + 48)).getD k 0) - 48 = (ds[k] : ℤ) := by
      have hget : (ds.map (· + 48)).getD k 0 = ds[k] + 48 := by simp [hlt]
      rw [hget, charVal, if_pos (by omega)]
      push_cast
      omega
    -- the place of the digit
    have hplace : wrap32 ((ds.length : ℤ) - k - 1) = ((ds.length - (k + 1) : ℕ) : ℤ) := by
      rw [wrap32_of_mem (by omega) (by omega)]
      omega
    have hten : 10 ^ (ds.length - (k + 1)) ≤ 10 ^ 9 := Nat.pow_le_pow_right (by decide) (by omega)
    have hpower : power 10 ((ds.length - (k + 1) : ℕ) : ℤ) = (10 ^ (ds.length - (k + 1)) : ℕ) :=
      @power_eq 10 _ (by decide) (by omega)
    have hsplit : digitsValue 10 (ds.take (k + 1)) * 10 ^ (ds.length - (k + 1)) =
        digitsValue 10 (ds.take k) * 10 ^ (ds.length - k) + 10 ^ (ds.length - (k + 1)) * ds[k] := by
      have hexp : ds.length - k = ds.length - (k + 1) + 1 := by omega
      rw [digitsValue_take_succ hlt, hexp, pow_succ]
      ring
    rw [hsplit] at hbound ⊢
    rw [List.range_succ, List.foldlM_append, ih (Nat.le_of_lt hlt)]
    show (atoiTurn _ _ _ k >>= fun sum => some sum) = _
    rw [atoiTurn, hchar, hplace, hpower, if_pos (by omega)]
    have hprod : wrap32 ((10 ^ (ds.length - (k + 1)) : ℕ) * (ds[k] : ℤ)) =
        ((10 ^ (ds.length - (k + 1)) * ds[k] : ℕ) : ℤ) := by
      rw [← Nat.cast_mul]
      exact wrap32_of_mem (by omega) (by omega)
    rw [hprod, ← Nat.cast_add, wrap32_of_mem (by omega) (by omega)]
    rfl

/-- **`atoi` gives the number back.** -/
theorem atoi_decimalDigits (hn : n < 2 ^ 31) : atoi (decimalDigits n) = some (n : ℤ) := by
  have hlen := length_decimalDigits (show 0 < 10 by decide) (show n < 10 ^ 10 by omega)
  rw [decimalDigits, List.length_map] at hlen
  have hloop := @foldlM_atoiTurn _ (numeral 10 n) (fun d => lt_of_mem_numeral (by decide)) hlen
    (by rw [digitsValue_numeral]; exact hn) (Nat.le_refl _)
  rw [List.take_length, digitsValue_numeral, Nat.sub_self, pow_zero, Nat.mul_one] at hloop
  rw [atoi, decimalDigits, List.length_map, wrap32_of_mem (by omega) (by omega), Int.toNat_natCast]
  exact hloop

/-! ### From an `int` to its text and back -/

/-- The texts of an `int` and of a 64-bit number are their numerals, and the first one leads back to a
number that is not negative. -/
structure NumbersExact (bytes : ℤ → ℕ) (n : ℤ) (ull : ℕ) : Prop where
  /-- `int_to_string` writes the number in decimal. -/
  int : Writes (intToStringIn bytes n) (decimal n)
  /-- `atoi` reads it back. -/
  back : 0 ≤ n → ∃ s, Writes (intToStringIn bytes n) s ∧ atoi s = some n
  /-- `longlong_to_hexstring` writes the hexadecimal digits. -/
  hex : Writes (longlongToHexstringIn bytes ull) (hexadecimal ull)
  /-- `longlong_to_string` writes the decimal ones. -/
  long : Writes (longlongToStringIn bytes ull) (decimalDigits ull)

/-- **Numbers are written exactly, all but the least `int`.** -/
theorem numbersExact_iff (bytes : ℤ → ℕ) {n : ℤ} (h₁ : -2 ^ 31 ≤ n) (h₂ : n < 2 ^ 31) {ull : ℕ}
    (hull : ull < 2 ^ 64) : NumbersExact bytes n ull ↔ n ≠ -2 ^ 31 := by
  constructor
  · rintro h rfl
    have hlen := congrArg List.length (h.int.unique intToStringIn_least)
    revert hlen
    decide +kernel
  · intro hn
    have hint : Writes (intToStringIn bytes n) (decimal n) := intToStringIn_writes (by omega) h₂
    refine ⟨hint, fun h0 => ⟨_, hint, ?_⟩, longlongToHexstringIn_writes hull,
      longlongToStringIn_writes hull⟩
    have hatoi := atoi_decimalDigits (show n.natAbs < 2 ^ 31 by omega)
    rw [decimal, if_neg (by omega), hatoi, Int.natAbs_of_nonneg h0]

/-- The number -42, and the greatest 64-bit number. -/
theorem numbersExact_iff_negative : NumbersExact (fun _ => 0) (-42) (2 ^ 64 - 1) :=
  (numbersExact_iff _ (by decide) (by decide) (by decide)).2 (by decide)

/-- The text of the least `int` is not its numeral. -/
theorem numbersExact_fails : ¬ Writes (intToStringIn (fun _ => 0) (-2 ^ 31)) (decimal (-2 ^ 31)) := by
  intro h
  have hlen := congrArg List.length (h.unique intToStringIn_least)
  revert hlen
  decide +kernel

end PlumOs
