import Mathlib.Data.List.Basic
import Mathlib.Data.Nat.Find

/-!
# Line input (`libc/shlib.c`)

`myfgets` reads a line byte by byte.  It reads a byte before it tests whether there is room for it, and
the 0 goes behind the last byte, wherever that is.  What `read` answers is given: the byte that the
`k`-th call for one byte gets, or none if the call returns 0 or an error.

* `myfgets` : the function of the source, with its stores to `buf`;
* `InputKept` : the stores are inside of the buffer, and no byte but the end of the line is lost;
* `inputKept_iff` : **this holds exactly if there are fewer than `size` bytes in front of the end of the
  line or of the stream**.
-/

namespace PlumOs

/-- What a call of `myfgets` has done: its stores to `buf`, by index, and the number of the next read. -/
structure LineCall where
  stores : List (ℕ × ℕ)
  next : ℕ
  deriving DecidableEq, Repr

/-- The loop of `myfgets` with `i` bytes in the buffer, before the read `k`.  A turn that ends the loop
stores the 0. -/
def myfgetsLoop (answers : ℕ → Option ℕ) (size : ℤ) : ℕ → ℕ → ℕ → List (ℕ × ℕ) → Option LineCall
  | 0, _, _, _ => none
  | fuel + 1, i, k, stores =>
    match answers k with
    | none => some ⟨stores ++ [(i, 0)], k + 1⟩
    | some c =>
      if c ≠ 10 ∧ c ≠ 0 ∧ i < size then myfgetsLoop answers size fuel (i + 1) (k + 1) (stores ++ [(i, c)])
      else some ⟨stores ++ [(i, 0)], k + 1⟩

/-- `myfgets(buf, size, fd)`, where the next read of `fd` is the read `k`. -/
def myfgets (answers : ℕ → Option ℕ) (k : ℕ) (size : ℤ) : Option LineCall :=
  myfgetsLoop answers size (size.toNat + 1) 0 k []

/-- The answers at which a line ends. -/
def EndsLine (answer : Option ℕ) : Prop := answer = none ∨ answer = some 10 ∨ answer = some 0

instance (answer : Option ℕ) : Decidable (EndsLine answer) :=
  inferInstanceAs (Decidable (answer = none ∨ answer = some 10 ∨ answer = some 0))

/-- The bytes that the reads from `k` up to `next` have taken from the stream. -/
def taken (answers : ℕ → Option ℕ) (k next : ℕ) : List ℕ :=
  (List.range' k (next - k)).filterMap answers

/-- The call comes back, it has stored a line and a 0 behind it from index 0 on and below `size`, and has
taken this line from the stream, and at most the end of the line behind it. -/
def InputKept (answers : ℕ → Option ℕ) (k : ℕ) (size : ℤ) (r : Option LineCall) : Prop :=
  ∃ call line, r = some call ∧ call.stores.map Prod.snd = line ++ [0] ∧
    call.stores.map Prod.fst = List.range (line.length + 1) ∧
    (∀ s ∈ call.stores, (s.1 : ℤ) < size) ∧
    (taken answers k call.next = line ∨
      ∃ c, (c = 10 ∨ c = 0) ∧ taken answers k call.next = line ++ [c])

variable {answers : ℕ → Option ℕ} {size : ℤ} {k m : ℕ}

/-- The bytes of the first `m` reads. -/
def firstBytes (answers : ℕ → Option ℕ) (k m : ℕ) : List ℕ :=
  (List.range m).map fun j => (answers (k + j)).getD 0

/-- The stores of the first `m` turns. -/
def firstStores (answers : ℕ → Option ℕ) (k m : ℕ) : List (ℕ × ℕ) :=
  (List.range m).map fun j => (j, (answers (k + j)).getD 0)

/-- An answer that does not end the line is a byte. -/
theorem exists_byte {answer : Option ℕ} (h : ¬ EndsLine answer) :
    ∃ c, answer = some c ∧ c ≠ 10 ∧ c ≠ 0 := by
  cases answer with
  | none => exact absurd (.inl rfl) h
  | some c =>
    refine ⟨c, rfl, ?_, ?_⟩
    · rintro rfl
      exact h (.inr (.inl rfl))
    · rintro rfl
      exact h (.inr (.inr rfl))

/-- **The turns that do not end the line** store their bytes. -/
theorem myfgetsLoop_turns (hbytes : ∀ j < m, ¬ EndsLine (answers (k + j))) (hm : (m : ℤ) ≤ size)
    (fuel : ℕ) : myfgetsLoop answers size (fuel + m) 0 k [] =
      myfgetsLoop answers size fuel m (k + m) (firstStores answers k m) := by
  induction m generalizing fuel with
  | zero => rfl
  | succ m ih =>
    obtain ⟨c, hc, h10, h0⟩ := exists_byte (hbytes m (Nat.lt_succ_self m))
    have hstores : firstStores answers k (m + 1) = firstStores answers k m ++ [(m, c)] := by
      rw [firstStores, List.range_succ, List.map_append, List.map_singleton, hc]
      rfl
    have hroom : (m : ℤ) < size := by omega
    rw [show fuel + (m + 1) = fuel + 1 + m by omega, ih (fun j hj => hbytes j (by omega)) (by omega),
      myfgetsLoop]
    simp only [hc]
    rw [if_pos ⟨h10, h0, hroom⟩, hstores, Nat.add_assoc]

/-- The turn that ends the line. -/
theorem myfgetsLoop_end (h : EndsLine (answers k) ∨ size ≤ m) (fuel : ℕ) (stores : List (ℕ × ℕ)) :
    myfgetsLoop answers size (fuel + 1) m k stores = some ⟨stores ++ [(m, 0)], k + 1⟩ := by
  rw [myfgetsLoop]
  cases hc : answers k with
  | none => rfl
  | some c =>
    refine if_neg ?_
    rintro ⟨h10, h0, hroom⟩
    rw [hc] at h
    rcases h with (h | h | h) | h
    · cases h
    · exact h10 (Option.some.inj h)
    · exact h0 (Option.some.inj h)
    · omega

/-- The line ends behind `m` bytes, or there is no room for more. -/
theorem myfgets_eq (hbytes : ∀ j < m, ¬ EndsLine (answers (k + j))) (hm : (m : ℤ) ≤ size)
    (h : EndsLine (answers (k + m)) ∨ size ≤ m) :
    myfgets answers k size = some ⟨firstStores answers k m ++ [(m, 0)], k + m + 1⟩ := by
  have hfuel : size.toNat + 1 = (size.toNat - m + 1) + m := by omega
  rw [myfgets, hfuel, myfgetsLoop_turns hbytes hm, myfgetsLoop_end h]

/-- What the reads up to the end of the line have taken. -/
theorem taken_eq (hbytes : ∀ j < m, ¬ EndsLine (answers (k + j))) :
    taken answers k (k + m + 1) = firstBytes answers k m ++ (answers (k + m)).toList := by
  have hfirst : (List.range' k m).filterMap answers = firstBytes answers k m := by
    induction m with
    | zero => rfl
    | succ m ih =>
      obtain ⟨c, hc, -, -⟩ := exists_byte (hbytes m (Nat.lt_succ_self m))
      rw [List.range'_concat, Nat.one_mul, List.filterMap_append, ih fun j hj => hbytes j (by omega),
        firstBytes, firstBytes, List.range_succ, List.map_append, List.map_singleton, hc]
      simp [hc]
  rw [taken, show k + m + 1 - k = m + 1 by omega, List.range'_concat, Nat.one_mul, List.filterMap_append,
    hfirst]
  cases hc : answers (k + m) <;> simp [hc]

/-- **`myfgets` keeps its input exactly if fewer than `size` bytes are in front of the end of the line**,
or of the stream, for every stream and every size. -/
theorem inputKept_iff (answers : ℕ → Option ℕ) (k : ℕ) (hsize : 1 ≤ size) :
    InputKept answers k size (myfgets answers k size) ↔
      ∃ j : ℕ, (j : ℤ) < size ∧ EndsLine (answers (k + j)) := by
  constructor
  · intro h
    by_contra hno
    have hbytes : ∀ j < size.toNat, ¬ EndsLine (answers (k + j)) :=
      fun j hj hend => hno ⟨j, by omega, hend⟩
    obtain ⟨call, line, hcall, -, -, hinside, -⟩ := h
    -- the 0 is stored behind `size` bytes
    rw [myfgets_eq hbytes (by omega) (.inr (by omega))] at hcall
    cases hcall
    have hzero := hinside (size.toNat, 0) (List.mem_append_right _ List.mem_cons_self)
    simp only at hzero
    omega
  · intro h
    have hfirst : ∃ j : ℕ, EndsLine (answers (k + j)) := h.imp fun j hj => hj.2
    obtain ⟨j, hj, hend⟩ := h
    have hle := Nat.find_min' hfirst hend
    have hbytes : ∀ i < Nat.find hfirst, ¬ EndsLine (answers (k + i)) := fun i hi => Nat.find_min hfirst hi
    have hstop := Nat.find_spec hfirst
    generalize Nat.find hfirst = m at hle hbytes hstop
    refine ⟨_, firstBytes answers k m, myfgets_eq hbytes (by omega) (.inl hstop), ?_, ?_, ?_, ?_⟩
    · rw [List.map_append, firstStores, List.map_map]
      rfl
    · rw [List.map_append, firstStores, List.map_map, firstBytes, List.length_map, List.length_range,
        List.range_succ]
      exact congrArg (· ++ [m]) (List.map_id _)
    · intro s hs
      rcases List.mem_append.1 hs with hs | hs
      · obtain ⟨i, hi, rfl⟩ := List.mem_map.1 hs
        rw [List.mem_range] at hi
        simp only
        omega
      · rw [List.mem_singleton.1 hs]
        simp only
        omega
    · rw [taken_eq hbytes]
      rcases hstop with hc | hc | hc
      · exact .inl (by rw [hc]; exact List.append_nil _)
      · exact .inr ⟨10, .inl rfl, by rw [hc]; rfl⟩
      · exact .inr ⟨0, .inr rfl, by rw [hc]; rfl⟩

/-- A line of two bytes, read into a buffer for three. -/
theorem inputKept_iff_short :
    InputKept (fun k => [97, 98, 10, 99][k]?) 0 3 (myfgets (fun k => [97, 98, 10, 99][k]?) 0 3) :=
  (inputKept_iff _ 0 (by decide)).2 ⟨2, by decide, by decide⟩

/-- A line of three bytes, read into a buffer for two: the 0 is stored at index 2, and the third byte of
the line is lost. -/
theorem inputKept_fails :
    myfgets (fun k => [97, 98, 99, 10][k]?) 0 2 = some ⟨[(0, 97), (1, 98), (2, 0)], 3⟩ ∧
      ¬ InputKept (fun k => [97, 98, 99, 10][k]?) 0 2 (myfgets (fun k => [97, 98, 99, 10][k]?) 0 2) := by
  have hcall : myfgets (fun k => [97, 98, 99, 10][k]?) 0 2 =
      some ⟨[(0, 97), (1, 98), (2, 0)], 3⟩ := by decide
  refine ⟨hcall, ?_⟩
  rintro ⟨call, line, heq, -, -, hinside, -⟩
  rw [hcall] at heq
  cases heq
  exact absurd (hinside (2, 0) (by decide)) (by decide)

end PlumOs
