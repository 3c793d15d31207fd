import Mathlib.Algebra.Order.Ring.Nat
import Mathlib.Data.List.Nodup
import Mathlib.Logic.Function.Basic
import PlumOs.Lib.CStr

/-!
# A byte memory that remembers its stores

A `Ram` is a byte memory together with the list of the addresses that were stored to.

* `Ram.put` : the stores of a list of bytes to consecutive addresses, with what it leaves there and
  elsewhere;
* `load`, `wordBytes` : words of `n` bytes, the lowest byte first, and `BytesAt`, bytes that are in
  memory;
* `StrsAt mem R arr strs` : at `arr` is a null-terminated array of pointers to the strings `strs`,
  and all of it lies in the region `R`;
* `StrsAt.unique` : **what is there** is determined by the memory, so an array is read in one way.
-/

namespace PlumOs

/-- A memory and the addresses of the stores so far, the oldest first. -/
structure Ram where
  /-- The byte at every address. -/
  bytes : ℕ → ℕ
  /-- The addresses stored to. -/
  log : List ℕ

/-- The store of a byte. -/
def Ram.store (r : Ram) (addr b : ℕ) : Ram :=
  ⟨Function.update r.bytes addr b, r.log ++ [addr]⟩

/-- The stores of some bytes to consecutive addresses. -/
def Ram.put (r : Ram) (addr : ℕ) : List ℕ → Ram
  | [] => r
  | b :: bs => (r.store addr b).put (addr + 1) bs

/-- The `n` bytes of a word. -/
def wordBytes : ℕ → ℕ → List ℕ
  | 0, _ => []
  | n + 1, w => w % 256 :: wordBytes n (w / 256)

/-- The word of `n` bytes at an address. -/
def load (mem : ℕ → ℕ) : ℕ → ℕ → ℕ
  | 0, _ => 0
  | n + 1, addr => mem addr + 256 * load mem n (addr + 1)

/-- A null-terminated array of pointers to strings, all of it in the region `R`. -/
def StrsAt (mem : ℕ → ℕ) (R : ℕ → Prop) : ℕ → List (List ℕ) → Prop
  | arr, [] => load mem 8 arr = 0 ∧ ∀ k < 8, R (arr + k)
  | arr, s :: strs =>
    load mem 8 arr ≠ 0 ∧ (∀ k < 8, R (arr + k)) ∧ StrAt mem (load mem 8 arr) s ∧
      (∀ k ≤ s.length, R (load mem 8 arr + k)) ∧ StrsAt mem R (arr + 8) strs

section Put

@[simp] theorem Ram.store_bytes (r : Ram) (addr b : ℕ) :
    (r.store addr b).bytes = Function.update r.bytes addr b := rfl

@[simp] theorem Ram.store_log (r : Ram) (addr b : ℕ) : (r.store addr b).log = r.log ++ [addr] := rfl

theorem Ram.log_subset_store (r : Ram) (addr b : ℕ) : r.log ⊆ (r.store addr b).log := by
  rw [Ram.store_log]
  exact List.subset_append_left _ _

variable {r : Ram} {addr x k : ℕ} {bs : List ℕ}

theorem Ram.put_log (r : Ram) (addr : ℕ) (bs : List ℕ) :
    (r.put addr bs).log = r.log ++ List.range' addr bs.length := by
  induction bs generalizing r addr with
  | nil => simp [Ram.put]
  | cons b bs ih =>
    rw [Ram.put, ih, List.length_cons, List.range'_succ]
    simp

theorem Ram.log_subset_put (r : Ram) (addr : ℕ) (bs : List ℕ) : r.log ⊆ (r.put addr bs).log := by
  rw [Ram.put_log]
  exact List.subset_append_left _ _

/-- Other bytes stay. -/
theorem Ram.put_bytes_of_notMem (h : x ∉ List.range' addr bs.length) :
    (r.put addr bs).bytes x = r.bytes x := by
  induction bs generalizing r addr with
  | nil => rfl
  | cons b bs ih =>
    rw [List.length_cons, List.range'_succ, List.mem_cons, not_or] at h
    rw [Ram.put, ih h.2, Ram.store_bytes, Function.update_of_ne h.1]

/-- The bytes are there afterwards. -/
theorem Ram.put_bytes (h : k < bs.length) : (r.put addr bs).bytes (addr + k) = bs[k] := by
  induction bs generalizing r addr k with
  | nil => simp at h
  | cons b bs ih =>
    cases k with
    | zero =>
      have hout : addr ∉ List.range' (addr + 1) bs.length := by
        rw [List.mem_range'_1]
        omega
      change ((r.store addr b).put (addr + 1) bs).bytes addr = b
      rw [Ram.put_bytes_of_notMem hout, Ram.store_bytes, Function.update_self]
    | succ k =>
      have hstep : addr + (k + 1) = addr + 1 + k := by omega
      rw [Ram.put, hstep, ih (by simpa using h)]
      rfl

end Put

section Words

variable {mem mem' : ℕ → ℕ} {n addr addr' : ℕ}

@[simp] theorem length_wordBytes (n w : ℕ) : (wordBytes n w).length = n := by
  induction n generalizing w with
  | zero => rfl
  | succ n ih => rw [wordBytes, List.length_cons, ih]

theorem load_congr (h : ∀ k < n, mem' (addr' + k) = mem (addr + k)) :
    load mem' n addr' = load mem n addr := by
  induction n generalizing addr addr' with
  | zero => rfl
  | succ n ih =>
    have hhead : mem' addr' = mem addr := h 0 (by omega)
    have htail : load mem' n (addr' + 1) = load mem n (addr + 1) := by
      apply ih
      intro k hk
      have hstep : addr' + 1 + k = addr' + (k + 1) := by omega
      have hstep' : addr + 1 + k = addr + (k + 1) := by omega
      rw [hstep, hstep']
      exact h (k + 1) (by omega)
    rw [load, load, hhead, htail]

theorem load_eq_zero (h : ∀ k < n, mem (addr + k) = 0) : load mem n addr = 0 := by
  have hzero : ∀ n addr, load (fun _ => 0) n addr = 0 := by
    intro n
    induction n with
    | zero => intro addr; rfl
    | succ n ih => intro addr; rw [load, ih]
  rw [← hzero n addr]
  exact load_congr h

/-- The word that was stored. -/
theorem load_put (r : Ram) (n addr : ℕ) {w : ℕ} (hw : w < 256 ^ n) :
    load (r.put addr (wordBytes n w)).bytes n addr = w := by
  induction n generalizing r addr w with
  | zero =>
    rw [Nat.pow_zero] at hw
    rw [load]
    omega
  | succ n ih =>
    have hhead : (r.put addr (wordBytes (n + 1) w)).bytes addr = w % 256 :=
      Ram.put_bytes (k := 0) (by simp)
    have hupper : w / 256 < 256 ^ n := by
      rw [Nat.pow_succ] at hw
      omega
    rw [load, hhead, wordBytes, Ram.put, ih _ _ hupper]
    omega

/-- Some bytes at consecutive addresses. -/
def BytesAt (mem : ℕ → ℕ) : ℕ → List ℕ → Prop
  | _, [] => True
  | addr, b :: bs => mem addr = b ∧ BytesAt mem (addr + 1) bs

instance decidableBytesAt : (addr : ℕ) → (bs : List ℕ) → Decidable (BytesAt mem addr bs)
  | _, [] => .isTrue trivial
  | addr, b :: bs =>
    have := decidableBytesAt (addr + 1) bs
    inferInstanceAs (Decidable (mem addr = b ∧ BytesAt mem (addr + 1) bs))

theorem bytesAt_append {bs cs : List ℕ} :
    BytesAt mem addr (bs ++ cs) ↔ BytesAt mem addr bs ∧ BytesAt mem (addr + bs.length) cs := by
  induction bs generalizing addr with
  | nil => simp [BytesAt]
  | cons b bs ih =>
    have hnext : addr + 1 + bs.length = addr + (b :: bs).length := by
      rw [List.length_cons]
      omega
    rw [List.cons_append, BytesAt, BytesAt, ih, and_assoc, hnext]

/-- The bytes of a word are read as the word. -/
theorem BytesAt.load_eq {w : ℕ} (h : BytesAt mem addr (wordBytes n w)) (hw : w < 256 ^ n) :
    load mem n addr = w := by
  induction n generalizing addr w with
  | zero =>
    rw [Nat.pow_zero] at hw
    rw [load]
    omega
  | succ n ih =>
    rw [Nat.pow_succ] at hw
    obtain ⟨hhead, htail⟩ := h
    rw [load, hhead, ih htail (by omega)]
    omega

end Words

section Strings

variable {mem mem' : ℕ → ℕ} {R R' : ℕ → Prop} {addr arr l fuel : ℕ} {s t : List ℕ}
  {strs strs' : List (List ℕ)}

/-- A search that ends has found the length, within its fuel. -/
theorem StrAt.of_strlen_eq (h : StrAt mem addr s) (hl : strlen mem addr fuel = some l) :
    l = s.length ∧ s.length < fuel := by
  by_cases hfuel : s.length < fuel
  · rw [h.strlen_eq hfuel] at hl
    exact ⟨(Option.some.inj hl).symm, hfuel⟩
  · have hnone : strlen mem addr fuel = none := by
      clear hl
      induction fuel generalizing addr s with
      | zero => rfl
      | succ fuel ih =>
        cases s with
        | nil => simp at hfuel
        | cons c s =>
          obtain ⟨hc, hne⟩ := h.head
          rw [strlen, if_neg (by rw [hc]; exact hne), ih h.tail (by simpa using hfuel)]
          rfl
    rw [hnone] at hl
    cases hl

/-- There is one string at an address. -/
theorem StrAt.unique (hs : StrAt mem addr s) (ht : StrAt mem addr t) : s = t := by
  induction s generalizing addr t with
  | nil =>
    cases t with
    | nil => rfl
    | cons d t => exact absurd (ht.head.1.symm.trans hs.stop) ht.head.2
  | cons c s ih =>
    cases t with
    | nil => exact absurd (hs.head.1.symm.trans ht.stop) hs.head.2
    | cons d t => rw [← hs.head.1, ← ht.head.1, ih hs.tail ht.tail]

/-- The string that was stored. -/
theorem StrAt.of_put (r : Ram) (addr : ℕ) (hs : ∀ c ∈ s, c ≠ 0) :
    StrAt (r.put addr (s ++ [0])).bytes addr s where
  bytes i hi := by
    have hlen : i < (s ++ [0]).length := by
      rw [List.length_append]
      omega
    rw [Ram.put_bytes hlen, List.getElem_append_left hi]
  nonzero := hs
  stop := by
    have hlen : s.length < (s ++ [0]).length := by simp
    rw [Ram.put_bytes hlen, List.getElem_append_right (Nat.le_refl _)]
    simp

/-- The array is read from its region only. -/
theorem StrsAt.congr (h : StrsAt mem R arr strs) (hmem : ∀ a, R a → mem' a = mem a) :
    StrsAt mem' R arr strs := by
  induction strs generalizing arr with
  | nil =>
    obtain ⟨hnull, hslot⟩ := h
    exact ⟨(load_congr fun k hk => hmem _ (hslot k hk)).trans hnull, hslot⟩
  | cons s strs ih =>
    obtain ⟨hptr, hslot, hstr, hin, htail⟩ := h
    have hload : load mem' 8 arr = load mem 8 arr := load_congr fun k hk => hmem _ (hslot k hk)
    rw [StrsAt, hload]
    exact ⟨hptr, hslot, hstr.congr fun i hi => hmem _ (hin i hi), hin, ih htail⟩

theorem StrsAt.mono (h : StrsAt mem R arr strs) (hR : ∀ a, R a → R' a) : StrsAt mem R' arr strs := by
  induction strs generalizing arr with
  | nil => exact ⟨h.1, fun k hk => hR _ (h.2 k hk)⟩
  | cons s strs ih =>
    obtain ⟨hptr, hslot, hstr, hin, htail⟩ := h
    exact ⟨hptr, fun k hk => hR _ (hslot k hk), hstr, fun k hk => hR _ (hin k hk), ih htail⟩

theorem StrsAt.nonzero (h : StrsAt mem R arr strs) : ∀ s ∈ strs, ∀ c ∈ s, c ≠ 0 := by
  induction strs generalizing arr with
  | nil => exact List.forall_mem_nil _
  | cons s strs ih =>
    obtain ⟨-, -, hstr, -, htail⟩ := h
    exact List.forall_mem_cons.2 ⟨hstr.nonzero, ih htail⟩

/-- **One array of strings** is at an address. -/
theorem StrsAt.unique (h : StrsAt mem R arr strs) (h' : StrsAt mem R' arr strs') : strs = strs' := by
  induction strs generalizing arr strs' with
  | nil =>
    cases strs' with
    | nil => rfl
    | cons t strs' => exact absurd h.1 h'.1
  | cons s strs ih =>
    cases strs' with
    | nil => exact absurd h'.1 h.1
    | cons t strs' =>
      obtain ⟨-, -, hs, -, htail⟩ := h
      obtain ⟨-, -, ht, -, htail'⟩ := h'
      rw [hs.unique ht, ih htail htail']

end Strings

end PlumOs
