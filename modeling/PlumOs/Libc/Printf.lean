import Mathlib.Data.List.TakeWhile
import PlumOs.Lib.Word

/-!
# Formatted output (`libc/printf.c`)

`printf` formats into an array of `MAX_BUF_SIZE` bytes, and writes the characters in front of the first
0 in it one by one.  A string argument is copied up to its 0, however long it is.

* `vsprintf`, `printf` : the functions of the source, with `none` for an access outside of the format, a
  string or the array;
* `printf_plain` : a format without `%` is written as it is;
* `printf_str` : **the format `%s` writes the string that is in the object**, if there is one in it.
-/

namespace PlumOs

/-- `MAX_BUF_SIZE`. -/
abbrev maxBufSize : ℕ := 4097

/-- `NUM_BUF`. -/
abbrev numBuf : ℕ := 80

/-- The string in an object of these bytes; there is none if no byte is 0. -/
def stringIn (bytes : List ℕ) : Option (List ℕ) :=
  if 0 ∈ bytes then some (bytes.takeWhile (· ≠ 0)) else none

/-- An argument in `va_list`.  A pointer comes with the object that it leads to, if it is not null. -/
inductive PrintfArg where
  | char (c : ℕ)
  | str (s : Option (List ℕ))
  | int (n : ℤ)
  | hex (ull : ℕ)
  deriving DecidableEq, Repr

/-- The loops of `int_to_string` and `longlong_to_hexstring`: the digits from the last one on, in the
place that is left of the buffer. -/
def digitLoop (base : ℕ) : ℕ → ℕ → List ℕ → List ℕ
  | 0, n, digits => n :: digits
  | pos + 1, n, digits =>
    if base ≤ n then digitLoop base pos (n / base) (n % base :: digits) else n :: digits

/-- `int_to_string`.  The least number is its own negative, and its only digit is a `char`. -/
def intToString (n : ℤ) : List ℕ :=
  let abs := if n < 0 then wrap32 (-n) else n
  let digits := if abs < 0 then [((abs + 48) % 256).toNat]
    else (digitLoop 10 (numBuf - 1) abs.toNat []).map (· + 48)
  if n < 0 then 45 :: digits else digits

/-- `longlong_to_hexstring`, with the characters of `table`. -/
def longlongToHexstring (n : ℕ) : List ℕ :=
  (digitLoop 16 (numBuf - 1) n []).map fun d => if d < 10 then d + 48 else d + 55

/-- What `vsprintf` stores for a `%` with this character, other than `l`, and the arguments left. -/
def directive : ℕ → List PrintfArg → Option (List ℕ × List PrintfArg)
  | 99, .char c :: ap => some ([c % 256], ap)
  | 115, .str none :: ap => some ([60, 110, 117, 108, 108, 62], ap)
  | 115, .str (some s) :: ap => (stringIn s).map fun s => (s, ap)
  | 100, .int n :: ap => some (intToString n, ap)
  -- an argument that is missing
  | 99, _ => none
  | 115, _ => none
  | 100, _ => none
  | c, ap => some ([37, c], ap)

/-- `vsprintf`: the characters that it stores. -/
def vsprintf : List ℕ → List PrintfArg → Option (List ℕ)
  | [], _ => some []
  | [c], _ => some (if c = 37 then [] else [c])
  | c :: d :: fmt, ap =>
    if c ≠ 37 then (vsprintf (d :: fmt) ap).map (c :: ·)
    else if d = 108 then
      match fmt, ap with
      -- the 0 at the end of the format is taken for a character of it
      | [], _ => none
      | 120 :: fmt, .hex ull :: ap => (vsprintf fmt ap).map (longlongToHexstring ull ++ ·)
      | 120 :: _, _ => none
      | e :: fmt, ap => (vsprintf fmt ap).map (108 :: e :: ·)
    else
      match directive d ap with
      | none => none
      | some (stored, ap) => (vsprintf fmt ap).map (stored ++ ·)

/-- `printf`: the characters that it writes.  The array `str` is all 0 before, and `vsprintf` stores no 0
behind the characters. -/
def printf (format : List ℕ) (ap : List PrintfArg) : Option (List ℕ) :=
  (vsprintf format ap).bind fun stored =>
    if stored.length ≤ maxBufSize then
      stringIn (stored ++ List.replicate (maxBufSize - stored.length) 0)
    else none

section Strings

variable {s bytes format : List ℕ} {ap : List PrintfArg}

/-- The string in front of a 0. -/
theorem stringIn_append (hs : 0 ∉ s) (n : ℕ) (rest : List ℕ) :
    stringIn (s ++ List.replicate (n + 1) 0 ++ rest) = some s := by
  have hnonzero : ∀ c ∈ s, decide (c ≠ 0) = true := fun c hc =>
    decide_eq_true fun hzero => hs (hzero ▸ hc)
  rw [stringIn, if_pos (by simp), List.append_assoc, List.takeWhile_append_of_pos hnonzero,
    List.replicate_succ, List.cons_append, List.takeWhile_cons_of_neg (by decide), List.append_nil]

/-- A string has no 0. -/
theorem stringIn_eq_some (h : stringIn bytes = some s) : 0 ∉ s ∧ s.length < bytes.length := by
  rw [stringIn] at h
  split at h
  case isFalse => cases h
  rename_i hzero
  cases h
  refine ⟨fun hmem => ?_, ?_⟩
  · simpa using List.mem_takeWhile_imp hmem
  · refine Nat.lt_of_le_of_ne (List.takeWhile_prefix _).length_le fun hlen => ?_
    have hall := List.takeWhile_prefix (fun c => decide (c ≠ 0)) |>.eq_of_length hlen
    have hpos := List.takeWhile_eq_self_iff.1 hall 0 hzero
    simp at hpos

/-- The characters that are stored are written, up to the first 0 among them. -/
theorem printf_eq (hstored : vsprintf format ap = some s) (hs : 0 ∉ s) (hlen : s.length < maxBufSize) :
    printf format ap = some s := by
  obtain ⟨n, hn⟩ := Nat.exists_eq_add_of_lt hlen
  have hrest : maxBufSize - s.length = n + 1 := by omega
  have hstring := stringIn_append hs n []
  rw [List.append_nil] at hstring
  rw [printf, hstored, Option.bind_some, if_pos (Nat.le_of_lt hlen), hrest, hstring]

/-- **A format without `%` is written as it is.** -/
theorem printf_plain (hformat : 37 ∉ format) (hs : 0 ∉ format) (hlen : format.length < maxBufSize) :
    printf format ap = some format := by
  refine printf_eq ?_ hs hlen
  clear hs hlen
  induction format with
  | nil => rw [vsprintf]
  | cons c format ih =>
    obtain ⟨hc, hrest⟩ := not_or.1 (List.mem_cons.not.1 hformat)
    cases format with
    | nil => simp [vsprintf, Ne.symm hc]
    | cons d format =>
      unfold vsprintf
      rw [if_pos (Ne.symm hc), ih hrest, Option.map_some]

/-- What the format `%s` stores. -/
theorem vsprintf_str (bytes : List ℕ) : vsprintf [37, 115] [.str (some bytes)] = stringIn bytes := by
  rw [vsprintf, if_neg (by decide), if_neg (by decide), directive]
  cases stringIn bytes with
  | none => rfl
  | some s => simp [vsprintf]

/-- **The format `%s` writes the string in the object**, which is none if it is not ended there. -/
theorem printf_str (hlen : bytes.length ≤ maxBufSize) :
    printf [37, 115] [.str (some bytes)] = stringIn bytes := by
  cases hstr : stringIn bytes with
  | none => rw [printf, vsprintf_str, hstr, Option.bind_none]
  | some s =>
    obtain ⟨hs, hlt⟩ := stringIn_eq_some hstr
    exact printf_eq (by rw [vsprintf_str, hstr]) hs (by omega)

end Strings

end PlumOs
