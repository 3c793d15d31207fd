import PlumOs.Lib.Bytes
import PlumOs.Lib.Ram

/-!
# Straight-line code with a stack

The part of the 64-bit x86 instructions that code for saving and restoring registers is made of, over
a byte memory.

* `readWord`, `writeWord`, `WordsAt` : words of eight bytes, and rows of them;
* `Instr`, `exec`, `runBlock` : the instructions and what they do, without interrupts;
* `runBlock_pushes` : **a row of pushes** leaves the registers on the stack, the last one lowest;
* `runBlock_pops` : **a row of pops** takes the registers from there.
-/

namespace PlumOs

namespace X86

/-! ### Words -/

/-- The word of eight bytes at an address. -/
def readWord (mem : ℕ → ℕ) (a : ℕ) : ℕ := load mem 8 a

/-- The memory with the `n` lowest bytes of a word stored at an address. -/
def store (mem : ℕ → ℕ) (n a w : ℕ) : ℕ → ℕ :=
  fun x => if a ≤ x ∧ x < a + n then byteAt w (x - a) else mem x

/-- The memory with a word stored at an address. -/
def writeWord (mem : ℕ → ℕ) (a w : ℕ) : ℕ → ℕ := store mem 8 a w

/-- These words are one behind the other. -/
def WordsAt (mem : ℕ → ℕ) : ℕ → List ℕ → Prop
  | _, [] => True
  | a, w :: ws => readWord mem a = w ∧ WordsAt mem (a + 8) ws

section Words

variable {mem mem' : ℕ → ℕ} {a b n w x : ℕ} {ws vs : List ℕ}

theorem store_of_out (h : x < a ∨ a + n ≤ x) : store mem n a w x = mem x := if_neg (by omega)

theorem writeWord_of_out (h : x < a ∨ a + 8 ≤ x) : writeWord mem a w x = mem x := store_of_out h

theorem load_byteAt (h : ∀ k < n, mem (a + k) = byteAt w k) : load mem n a = w % 256 ^ n := by
  induction n generalizing a w with
  | zero => rw [load, Nat.pow_zero, Nat.mod_one]
  | succ n ih =>
    have hhead : mem a = w % 256 := by
      rw [← Nat.add_zero a, h 0 (Nat.zero_lt_succ n), byteAt, Nat.pow_zero, Nat.div_one]
    have htail : load mem n (a + 1) = w / 256 % 256 ^ n := by
      refine ih fun k hk => ?_
      rw [Nat.add_assoc, Nat.add_comm 1 k, h (k + 1) (Nat.succ_lt_succ hk), byteAt, byteAt,
        Nat.pow_succ', Nat.div_div_eq_div_mul]
    rw [load, hhead, htail, Nat.pow_succ', Nat.mod_mul]

/-- **The word that was stored.** -/
theorem load_store (hw : w < 256 ^ n) : load (store mem n a w) n a = w := by
  have hbytes : ∀ k < n, store mem n a w (a + k) = byteAt w k := by
    intro k hk
    rw [store, if_pos (by omega), Nat.add_sub_cancel_left]
  rw [load_byteAt hbytes, Nat.mod_eq_of_lt hw]

theorem readWord_writeWord (hw : w < 2 ^ 64) : readWord (writeWord mem a w) a = w :=
  load_store (Nat.lt_of_lt_of_eq hw (by decide))

theorem load_congr_range (h : ∀ x, a ≤ x → x < a + n → mem' x = mem x) :
    load mem' n a = load mem n a :=
  load_congr fun k hk => h (a + k) (by omega) (by omega)

theorem readWord_congr (h : ∀ x, a ≤ x → x < a + 8 → mem' x = mem x) :
    readWord mem' a = readWord mem a :=
  load_congr_range h

/-- Words elsewhere stay. -/
theorem readWord_store_of_out (h : a + 8 ≤ b ∨ b + n ≤ a) :
    readWord (store mem n b w) a = readWord mem a :=
  readWord_congr fun x hlo hhi => store_of_out (by omega)

theorem readWord_writeWord_of_out (h : a + 8 ≤ b ∨ b + 8 ≤ a) :
    readWord (writeWord mem b w) a = readWord mem a := readWord_store_of_out h

theorem WordsAt.congr (h : WordsAt mem a ws)
    (hmem : ∀ x, a ≤ x → x < a + 8 * ws.length → mem' x = mem x) : WordsAt mem' a ws := by
  induction ws generalizing a with
  | nil => trivial
  | cons w ws ih =>
    rw [List.length_cons] at hmem
    refine ⟨?_, ih h.2 fun x hlo hhi => hmem x (by omega) (by omega)⟩
    rw [readWord_congr fun x hlo hhi => hmem x hlo (by omega)]
    exact h.1

theorem wordsAt_append :
    WordsAt mem a (ws ++ vs) ↔ WordsAt mem a ws ∧ WordsAt mem (a + 8 * ws.length) vs := by
  induction ws generalizing a with
  | nil => simp [WordsAt]
  | cons w ws ih =>
    have hstep : a + 8 + 8 * ws.length = a + 8 * (w :: ws).length := by
      rw [List.length_cons]
      omega
    rw [List.cons_append, WordsAt, WordsAt, ih, hstep, and_assoc]

/-- A row of words is a word at each place. -/
theorem wordsAt_iff : WordsAt mem a ws ↔ ∀ i (h : i < ws.length), readWord mem (a + 8 * i) = ws[i] := by
  induction ws generalizing a with
  | nil => exact iff_of_true trivial fun i h => absurd h (Nat.not_lt_zero i)
  | cons w ws ih =>
    have hstep : ∀ i, a + 8 + 8 * i = a + 8 * (i + 1) := fun i => by omega
    rw [WordsAt, ih]
    constructor
    · rintro ⟨hhead, htail⟩ i hi
      cases i with
      | zero => exact hhead
      | succ i =>
        rw [← hstep]
        exact htail i (Nat.lt_of_succ_lt_succ hi)
    · intro hall
      refine ⟨hall 0 (Nat.zero_lt_succ _), fun i hi => ?_⟩
      rw [hstep]
      exact hall (i + 1) (Nat.succ_lt_succ hi)

/-- Words that are copied one after the other, to another place. -/
def copyWords (mem : ℕ → ℕ) (new old n : ℕ) : ℕ → ℕ :=
  (List.range n).foldl (fun mem i => writeWord mem (new + 8 * i) (readWord mem (old + 8 * i))) mem

theorem copyWords_of_out (h : x < b ∨ b + 8 * n ≤ x) : copyWords mem b a n x = mem x := by
  induction n with
  | zero => rfl
  | succ n ih =>
    rw [copyWords, List.range_succ, List.foldl_append]
    exact (writeWord_of_out (by omega)).trans (ih (by omega))

theorem readWord_copyWords_of_out (h : w + 8 ≤ b ∨ b + 8 * n ≤ w) :
    readWord (copyWords mem b a n) w = readWord mem w :=
  readWord_congr fun x hlo hhi => copyWords_of_out (by omega)

/-- **A copy of a row of words.** -/
theorem WordsAt.copy (h : WordsAt mem a ws) (hlt : ∀ w ∈ ws, w < 2 ^ 64)
    (hout : a + 8 * ws.length ≤ b ∨ b + 8 * ws.length ≤ a) :
    WordsAt (copyWords mem b a ws.length) b ws := by
  rw [wordsAt_iff] at h ⊢
  suffices hn : ∀ n ≤ ws.length, ∀ i (hi : i < ws.length), i < n →
      readWord (copyWords mem b a n) (b + 8 * i) = ws[i] from
    fun i hi => hn ws.length (Nat.le_refl _) i hi hi
  intro n hn
  induction n with
  | zero => exact fun i _ hi => absurd hi (Nat.not_lt_zero i)
  | succ n ih =>
    intro i hi hin
    have hstep : copyWords mem b a (n + 1) = writeWord (copyWords mem b a n) (b + 8 * n)
        (readWord (copyWords mem b a n) (a + 8 * n)) := by
      rw [copyWords, List.range_succ, List.foldl_append]
      rfl
    rw [hstep]
    by_cases hlast : i = n
    · have hsrc : readWord (copyWords mem b a n) (a + 8 * n) = ws[i] := by
        rw [readWord_congr fun x hlo hhi => copyWords_of_out (by omega), ← hlast]
        exact h i hi
      rw [hsrc, ← hlast]
      exact readWord_writeWord (hlt _ (List.getElem_mem hi))
    · rw [readWord_writeWord_of_out (by omega)]
      exact ih (by omega) i hi (by omega)

end Words

/-! ### Instructions -/

/-- The general registers. -/
inductive Reg where
  | rax | rbx | rcx | rdx | rsi | rdi | rbp | rsp
  | r8 | r9 | r10 | r11 | r12 | r13 | r14 | r15
  deriving DecidableEq, Repr

/-- The registers and the memory. -/
structure State where
  regs : Reg → ℕ
  rflags : ℕ
  rip : ℕ
  mem : ℕ → ℕ

/-- The instructions, with the source in front of the destination. -/
inductive Instr where
  | push (r : Reg)
  | pop (r : Reg)
  | pushfq
  | popfq
  | mov (src dst : Reg)
  | movImm (value : ℕ) (dst : Reg)
  | loadAbs (addr : ℕ) (dst : Reg)
  | load (off : ℕ) (base dst : Reg)
  | store (src : Reg) (off : ℕ) (base : Reg)
  | cli
  | sti
  | ret
  | sysret
  deriving DecidableEq, Repr

/-- The address eight bytes below. -/
def below (a : ℕ) : ℕ := (a + 2 ^ 64 - 8) % 2 ^ 64

/-- An address some bytes above. -/
def above (a off : ℕ) : ℕ := (a + off) % 2 ^ 64

theorem below_eq {a : ℕ} (hlo : 8 ≤ a) (hhi : a < 2 ^ 64) : below a = a - 8 := by
  unfold below
  omega

theorem above_eq {a off : ℕ} (h : a + off < 2 ^ 64) : above a off = a + off := Nat.mod_eq_of_lt h

namespace State

def setReg (s : State) (r : Reg) (w : ℕ) : State := { s with regs := Function.update s.regs r w }

/-- The stack pointer moves down to a new word. -/
def push (s : State) (w : ℕ) : State :=
  { s.setReg .rsp (below (s.regs .rsp)) with mem := writeWord s.mem (below (s.regs .rsp)) w }

/-- The word at the stack pointer. -/
def top (s : State) : ℕ := readWord s.mem (s.regs .rsp)

/-- The stack pointer moves up. -/
def drop (s : State) : State := s.setReg .rsp (above (s.regs .rsp) 8)

end State

/-- The interrupt flag is bit 9. -/
def setIf (rflags : ℕ) (on : Bool) : ℕ := rflags / 1024 * 1024 + on.toNat * 512 + rflags % 512

/-- What an instruction does. -/
def exec (s : State) : Instr → State
  | .push r => s.push (s.regs r)
  | .pop r => s.drop.setReg r s.top
  | .pushfq => s.push s.rflags
  | .popfq => { s.drop with rflags := s.top }
  | .mov src dst => s.setReg dst (s.regs src)
  | .movImm value dst => s.setReg dst value
  | .loadAbs addr dst => s.setReg dst (readWord s.mem addr)
  | .load off base dst => s.setReg dst (readWord s.mem (above (s.regs base) off))
  | .store src off base => { s with mem := writeWord s.mem (above (s.regs base) off) (s.regs src) }
  | .cli => { s with rflags := setIf s.rflags false }
  | .sti => { s with rflags := setIf s.rflags true }
  | .ret => { s.drop with rip := s.top }
  | .sysret => { s with rip := s.regs .rcx, rflags := s.regs .r11 }

/-- The instructions one after the other. -/
def runBlock (s : State) (block : List Instr) : State := block.foldl exec s

section Block

variable {s s' s'' : State} {r q : Reg} {rs : List Reg} {f : Reg → ℕ} {m n w x : ℕ} {i : Instr}
  {block rest : List Instr}

@[simp] theorem runBlock_nil (s : State) : runBlock s [] = s := rfl

@[simp] theorem runBlock_cons (s : State) (i : Instr) (block : List Instr) :
    runBlock s (i :: block) = runBlock (exec s i) block := rfl

theorem runBlock_append (s : State) (block rest : List Instr) :
    runBlock s (block ++ rest) = runBlock (runBlock s block) rest := List.foldl_append

namespace State

@[simp] theorem setReg_self : (s.setReg r w).regs r = w := Function.update_self ..

theorem setReg_of_ne (h : q ≠ r) : (s.setReg r w).regs q = s.regs q := Function.update_of_ne h ..

@[simp] theorem setReg_mem : (s.setReg r w).mem = s.mem := rfl

theorem push_regs : (s.push w).regs = Function.update s.regs .rsp (below (s.regs .rsp)) := rfl

theorem push_rsp (hlo : 8 ≤ s.regs .rsp) (hhi : s.regs .rsp < 2 ^ 64) :
    (s.push w).regs .rsp = s.regs .rsp - 8 := by
  rw [push_regs, Function.update_self, below_eq hlo hhi]

theorem push_of_ne (h : q ≠ .rsp) : (s.push w).regs q = s.regs q := by
  rw [push_regs, Function.update_of_ne h]

theorem push_mem (hlo : 8 ≤ s.regs .rsp) (hhi : s.regs .rsp < 2 ^ 64) :
    (s.push w).mem = writeWord s.mem (s.regs .rsp - 8) w := by
  rw [push, below_eq hlo hhi]

theorem drop_rsp (h : s.regs .rsp + 8 < 2 ^ 64) : s.drop.regs .rsp = s.regs .rsp + 8 := by
  rw [drop, setReg_self, above_eq h]

theorem drop_of_ne (h : q ≠ .rsp) : s.drop.regs q = s.regs q := setReg_of_ne h

@[simp] theorem drop_mem : s.drop.mem = s.mem := rfl

end State

/-- What a row of pushes does. -/
structure Pushed (s s' : State) (rs : List Reg) : Prop where
  rsp : s'.regs .rsp = s.regs .rsp - 8 * rs.length
  regs : ∀ q, q ≠ .rsp → s'.regs q = s.regs q
  words : WordsAt s'.mem (s.regs .rsp - 8 * rs.length) (rs.reverse.map s.regs)
  mem : ∀ x, x < s.regs .rsp - 8 * rs.length ∨ s.regs .rsp ≤ x → s'.mem x = s.mem x

/-- **A row of pushes.** -/
theorem runBlock_pushes (hlt : ∀ r ∈ rs, s.regs r < 2 ^ 64) (hrsp : .rsp ∉ rs)
    (hlo : 8 * rs.length ≤ s.regs .rsp) (hhi : s.regs .rsp < 2 ^ 64) :
    Pushed s (runBlock s (rs.map .push)) rs := by
  induction rs generalizing s with
  | nil => exact ⟨rfl, fun _ _ => rfl, trivial, fun _ _ => rfl⟩
  | cons r rs ih =>
    have hlen : (r :: rs).length = rs.length + 1 := List.length_cons
    rw [List.mem_cons, not_or] at hrsp
    rw [hlen] at hlo
    have hstep : (s.push (s.regs r)).regs .rsp = s.regs .rsp - 8 := State.push_rsp (by omega) hhi
    have hregs : ∀ q ∈ rs, (s.push (s.regs r)).regs q = s.regs q := fun q hq =>
      State.push_of_ne fun heq => hrsp.2 (heq ▸ hq)
    have hrest := ih (s := s.push (s.regs r))
      (fun q hq => by rw [hregs q hq]; exact hlt q (List.mem_cons_of_mem r hq)) hrsp.2
      (by omega) (by omega)
    have hsp : s.regs .rsp - 8 - 8 * rs.length = s.regs .rsp - 8 * (rs.length + 1) := by omega
    have hmap : rs.reverse.map (s.push (s.regs r)).regs = rs.reverse.map s.regs :=
      List.map_congr_left fun q hq => hregs q (List.mem_reverse.1 hq)
    rw [List.map_cons, runBlock_cons]
    refine ⟨?_, fun q hq => (hrest.regs q hq).trans (State.push_of_ne hq), ?_, fun x hx => ?_⟩
    · rw [exec, hrest.rsp, hstep, hsp, hlen]
    · have hwords := hrest.words
      rw [hstep, hsp, hmap] at hwords
      -- the first register is above the others
      rw [hlen, List.reverse_cons, List.map_append, wordsAt_append, List.length_map,
        List.length_reverse]
      have habove : s.regs .rsp - 8 * (rs.length + 1) + 8 * rs.length = s.regs .rsp - 8 := by omega
      refine ⟨hwords, ?_, trivial⟩
      rw [habove, exec, readWord_congr fun x hlo' _ => hrest.mem x (.inr (by omega)),
        State.push_mem (by omega) hhi]
      exact readWord_writeWord (hlt r (List.mem_cons_self ..))
    · rw [hlen] at hx
      rw [exec, hrest.mem x (by omega), State.push_mem (by omega) hhi]
      exact writeWord_of_out (by omega)

/-- A stack that is some bytes deeper; the rest is as it was. -/
structure Deeper (s s' : State) (n : ℕ) : Prop where
  rsp : s'.regs .rsp = s.regs .rsp - n
  regs : ∀ q, q ≠ .rsp → s'.regs q = s.regs q
  mem : ∀ x, x < s.regs .rsp - n ∨ s.regs .rsp ≤ x → s'.mem x = s.mem x

theorem Pushed.deeper (h : Pushed s s' rs) : Deeper s s' (8 * rs.length) := ⟨h.rsp, h.regs, h.mem⟩

theorem deeper_push (hlo : 8 ≤ s.regs .rsp) (hhi : s.regs .rsp < 2 ^ 64) : Deeper s (s.push w) 8 := by
  refine ⟨State.push_rsp hlo hhi, fun q hq => State.push_of_ne hq, fun x hx => ?_⟩
  rw [State.push_mem hlo hhi, writeWord_of_out (by omega)]

theorem Deeper.trans (h : Deeper s s' n) (h' : Deeper s' s'' m) : Deeper s s'' (n + m) := by
  have hrsp := h.rsp
  refine ⟨?_, fun q hq => ?_, fun x hx => ?_⟩
  · rw [h'.rsp, hrsp, Nat.sub_sub]
  · rw [h'.regs q hq, h.regs q hq]
  · rw [h'.mem x (by omega), h.mem x (by omega)]

/-- What a row of pops does. -/
structure Popped (s s' : State) (rs : List Reg) (f : Reg → ℕ) : Prop where
  rsp : s'.regs .rsp = s.regs .rsp + 8 * rs.length
  regs : ∀ q ∈ rs, s'.regs q = f q
  other : ∀ q, q ∉ rs → q ≠ .rsp → s'.regs q = s.regs q
  mem : s'.mem = s.mem

/-- **A row of pops.** -/
theorem runBlock_pops (hwords : WordsAt s.mem (s.regs .rsp) (rs.map f)) (hrsp : .rsp ∉ rs)
    (hhi : s.regs .rsp + 8 * rs.length < 2 ^ 64) : Popped s (runBlock s (rs.map .pop)) rs f := by
  induction rs generalizing s with
  | nil => exact ⟨rfl, fun q hq => absurd hq List.not_mem_nil, fun _ _ _ => rfl, rfl⟩
  | cons r rs ih =>
    have hlen : (r :: rs).length = rs.length + 1 := List.length_cons
    rw [List.mem_cons, not_or] at hrsp
    rw [hlen] at hhi
    have hsp : (exec s (.pop r)).regs .rsp = s.regs .rsp + 8 := by
      rw [exec, State.setReg_of_ne hrsp.1, State.drop_rsp (by omega)]
    have htop : (exec s (.pop r)).regs r = f r := State.setReg_self.trans hwords.1
    have hother : ∀ q, q ≠ r → q ≠ .rsp → (exec s (.pop r)).regs q = s.regs q := fun q hqr hq =>
      (State.setReg_of_ne hqr).trans (State.drop_of_ne hq)
    have hrest := ih (s := exec s (.pop r)) (by rw [hsp]; exact hwords.2) hrsp.2 (by omega)
    rw [List.map_cons, runBlock_cons]
    refine ⟨by rw [hrest.rsp, hsp, hlen]; omega, fun q hq => ?_, fun q hq hne => ?_, hrest.mem⟩
    · by_cases hmem : q ∈ rs
      · exact hrest.regs q hmem
      · obtain rfl := (List.mem_cons.1 hq).resolve_right hmem
        rw [hrest.other q hmem (Ne.symm hrsp.1), htop]
    · rw [List.mem_cons, not_or] at hq
      rw [hrest.other q hq.2 hne, hother q hq.1 hne]

end Block

end X86

end PlumOs
