import Mathlib.Algebra.Group.Nat.Defs
import Mathlib.Data.List.Basic

/-!
# Strings in a byte memory

A memory is a function `mem : ℕ → ℕ` from addresses to bytes.  A string is a list of bytes other than
0; in memory a 0 follows it.

* `StrAt mem addr s` : the string `s` is at the address `addr`;
* `strlen` : the search for the 0, which ends if there is one within the fuel;
* `cstr` : the string at an address;
* `StrAt.strlen_eq`, `StrAt.cstr_eq` : **they find the length and the bytes** of a string that is
  there;
* `commonLength` : how many characters two strings have in common, with what follows from the characters
  behind them.
-/

namespace PlumOs

/-- The bytes of `s` are at the address `addr`, with a 0 behind them and none among them. -/
structure StrAt (mem : ℕ → ℕ) (addr : ℕ) (s : List ℕ) : Prop where
  bytes : ∀ i (h : i < s.length), mem (addr + i) = s[i]
  nonzero : ∀ c ∈ s, c ≠ 0
  stop : mem (addr + s.length) = 0

/-- `strlen`, which looks at no more than `fuel` bytes. -/
def strlen (mem : ℕ → ℕ) (addr : ℕ) : ℕ → Option ℕ
  | 0 => none
  | fuel + 1 => if mem addr = 0 then some 0 else (strlen mem (addr + 1) fuel).map (· + 1)

/-- The string at an address, in a memory of 2^64 bytes. -/
def cstr (mem : ℕ → ℕ) (addr : ℕ) : Option (List ℕ) :=
  (strlen mem addr (2 ^ 64)).map fun len => (List.range len).map fun i => mem (addr + i)

variable {mem mem' : ℕ → ℕ} {addr fuel : ℕ} {c : ℕ} {s : List ℕ}

theorem StrAt.tail (h : StrAt mem addr (c :: s)) : StrAt mem (addr + 1) s where
  bytes i hi := by
    have hb := h.bytes (i + 1) (by simpa using hi)
    rw [List.getElem_cons_succ] at hb
    rw [← hb]
    congr 1
    omega
  nonzero d hd := h.nonzero d (List.mem_cons_of_mem c hd)
  stop := by
    rw [← h.stop, List.length_cons]
    congr 1
    omega

theorem StrAt.head (h : StrAt mem addr (c :: s)) : mem addr = c ∧ c ≠ 0 :=
  ⟨h.bytes 0 (by simp), h.nonzero c (List.mem_cons_self ..)⟩

/-- **The length of a string.** -/
theorem StrAt.strlen_eq (h : StrAt mem addr s) (hfuel : s.length < fuel) :
    strlen mem addr fuel = some s.length := by
  induction s generalizing addr fuel with
  | nil =>
    obtain ⟨fuel, rfl⟩ := Nat.exists_eq_succ_of_ne_zero (Nat.ne_of_gt hfuel)
    rw [strlen, if_pos (by simpa using h.stop)]
    rfl
  | cons c s ih =>
    obtain ⟨fuel, rfl⟩ := Nat.exists_eq_succ_of_ne_zero (Nat.ne_of_gt (Nat.zero_lt_of_lt hfuel))
    obtain ⟨hc, hne⟩ := h.head
    rw [strlen, if_neg (by rw [hc]; exact hne), ih h.tail (by simpa using hfuel)]
    rfl

/-- **The bytes of a string.** -/
theorem StrAt.cstr_eq (h : StrAt mem addr s) (hlen : s.length < 2 ^ 64) : cstr mem addr = some s := by
  have hchars : (List.range s.length).map (fun i => mem (addr + i)) = s := by
    refine List.ext_getElem (by simp) fun i h₁ h₂ => ?_
    rw [List.getElem_map, List.getElem_range]
    exact h.bytes i h₂
  rw [cstr, h.strlen_eq hlen, Option.map_some, hchars]

/-- Other bytes do not matter. -/
theorem StrAt.congr (h : StrAt mem addr s) (hmem : ∀ i, i ≤ s.length → mem' (addr + i) = mem (addr + i)) :
    StrAt mem' addr s where
  bytes i hi := (hmem i (Nat.le_of_lt hi)).trans (h.bytes i hi)
  nonzero := h.nonzero
  stop := (hmem s.length (Nat.le_refl _)).trans h.stop

/-- A character of a string, or the 0 behind it. -/
theorem StrAt.byte {i : ℕ} (h : StrAt mem addr s) (hi : i ≤ s.length) : mem (addr + i) = s.getD i 0 := by
  rcases Nat.lt_or_eq_of_le hi with hlt | rfl
  · rw [h.bytes i hlt]
    simp [hlt]
  · rw [h.stop]
    simp

/-! ### Common characters -/

/-- The number of characters in front of the first difference of two strings. -/
def commonLength : List ℕ → List ℕ → ℕ
  | c :: s, d :: t => if c = d then commonLength s t + 1 else 0
  | _, _ => 0

section Common

variable {t : List ℕ} {i n : ℕ}

@[simp] theorem commonLength_self (s : List ℕ) : commonLength s s = s.length := by
  induction s with
  | nil => rfl
  | cons c s ih => rw [commonLength, if_pos rfl, ih, List.length_cons]

theorem commonLength_le_left (s t : List ℕ) : commonLength s t ≤ s.length := by
  fun_induction commonLength s t with
  | case1 s c t ih => exact Nat.succ_le_succ ih
  | case2 => exact Nat.zero_le _
  | case3 => exact Nat.zero_le _

theorem commonLength_comm (s t : List ℕ) : commonLength s t = commonLength t s := by
  induction s generalizing t with
  | nil => cases t <;> rfl
  | cons c s ih =>
    cases t with
    | nil => rfl
    | cons d t =>
      rw [commonLength, commonLength, ih]
      exact if_congr eq_comm rfl rfl

theorem commonLength_le_right (s t : List ℕ) : commonLength s t ≤ t.length :=
  commonLength_comm s t ▸ commonLength_le_left t s

theorem getD_of_lt_commonLength (hi : i < commonLength s t) : s.getD i 0 = t.getD i 0 := by
  induction i generalizing s t with
  | zero =>
    unfold commonLength at hi
    split at hi
    · split at hi
      · next hcd => rw [hcd]; rfl
      · exact absurd hi (Nat.not_lt_zero _)
    · exact absurd hi (Nat.not_lt_zero _)
  | succ i ih =>
    unfold commonLength at hi
    split at hi
    · split at hi
      · exact ih (Nat.lt_of_succ_lt_succ hi)
      · exact absurd hi (Nat.not_lt_zero _)
    · exact absurd hi (Nat.not_lt_zero _)

/-- **Strings are equal** if the characters behind the common ones are the same, where a 0 is behind each
string. -/
theorem getD_commonLength (hs : ∀ c ∈ s, c ≠ 0) (ht : ∀ c ∈ t, c ≠ 0) :
    s.getD (commonLength s t) 0 = t.getD (commonLength s t) 0 ↔ s = t := by
  constructor
  · intro h
    fun_induction commonLength s t with
    | case1 s c t ih =>
      rw [List.forall_mem_cons] at hs ht
      rw [ih hs.2 ht.2 h]
    | case2 c s d t hcd => exact absurd h hcd
    | case3 s t hne =>
      cases s with
      | nil =>
        cases t with
        | nil => rfl
        | cons d t => exact absurd h.symm (ht d List.mem_cons_self)
      | cons c s =>
        cases t with
        | nil => exact absurd h (hs c List.mem_cons_self)
        | cons d t => exact absurd rfl (hne c s d t rfl)
  · rintro rfl
    rfl

/-- The first `n` characters of two strings are the same if all of them are common, or the strings are
equal. -/
theorem take_eq_take_iff : s.take n = t.take n ↔ n ≤ commonLength s t ∨ s = t := by
  induction n generalizing s t with
  | zero => simp
  | succ n ih =>
    cases s with
    | nil => cases t <;> simp [commonLength]
    | cons c s =>
      cases t with
      | nil => simp [commonLength]
      | cons d t =>
        rw [List.take_succ_cons, List.take_succ_cons, commonLength, List.cons.injEq, List.cons.injEq, ih]
        by_cases hcd : c = d
        · rw [if_pos hcd]
          simp [hcd]
        · rw [if_neg hcd]
          simp [hcd]

end Common

end PlumOs
