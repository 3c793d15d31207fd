import Mathlib.Data.Nat.Bitwise
import Mathlib.Logic.Function.Basic

/-!
# The ways into the kernel (`sys/idt.c`, `sys/gdt.c`, `sys/syscall.c`)

The processor finds the handler of an interrupt in a gate, the stack for it in the task state segment,
and the entry for `syscall` in a register.  All hold addresses in several parts.

* `IdtEntry`, `idtSetGate`, `initIdt` : the gates, as the source fills them;
* `SysSegmentDescriptor`, `setupTss` : the descriptor of the task state segment, in the bit fields of the source;
* `lstarLo`, `lstarHi` : the two halves of `IA32_LSTAR`;
* `IdtEntry.gate`, `SysSegmentDescriptor.base`, `segmentOf` : what the processor reads out of them;
* `kernel_entries` : **for every address of a symbol the processor finds the routine that the source names**,
  for all vectors.
-/

namespace PlumOs

/-- The addresses of the symbols that the tables refer to. -/
structure Symbols where
  exceptionHandler : ℕ → BitVec 64
  pageFaultHandler : BitVec 64
  isrWrapperTimer : BitVec 64
  isrWrapperKbd : BitVec 64
  syscallHandler : BitVec 64
  tss : BitVec 64

/-! ### Gates -/

/-- `idt_entry_t`. -/
structure IdtEntry where
  /-- Bits 0 to 15 of the address. -/
  baseLo16 : ℕ
  /-- The selector. -/
  sel : ℕ
  /-- The byte with the index into the interrupt stack table. -/
  always0 : ℕ
  /-- Type, privilege and presence. -/
  flags : ℕ
  /-- Bits 16 to 31 of the address. -/
  baseHi16 : ℕ
  /-- Bits 32 to 63 of the address. -/
  baseUp32 : ℕ
  reserved : ℕ
  deriving DecidableEq, Repr

/-- An entry after `memset`. -/
def IdtEntry.zero : IdtEntry := ⟨0, 0, 0, 0, 0, 0, 0⟩

/-- `idt_set_gate`. -/
def idtSetGate (entries : ℕ → IdtEntry) (num : ℕ) (base : BitVec 64) (sel flags : ℕ) : ℕ → IdtEntry :=
  Function.update entries num
    { entries num with
      baseLo16 := base.toNat &&& 0xFFFF
      baseHi16 := base.toNat >>> 16 &&& 0xFFFF
      baseUp32 := base.toNat >>> 32 &&& 0xFFFFFFFF
      sel := sel
      always0 := 0
      flags := flags }

namespace Symbols

variable (sym : Symbols)

/-- The third argument of the calls of `idt_set_gate`, one for each vector. -/
def handler (n : ℕ) : BitVec 64 :=
  if n = 13 ∨ n = 14 then sym.pageFaultHandler
  else if n = 32 then sym.isrWrapperTimer
  else if n = 33 then sym.isrWrapperKbd
  else sym.exceptionHandler n

/-- `init_idt`. -/
def initIdt : ℕ → IdtEntry :=
  (List.range 34).foldl (fun entries n =>
    idtSetGate entries n (sym.handler n) 0x08 (if n < 32 then 0x8f else 0x8E)) fun _ => IdtEntry.zero

end Symbols

/-- What the processor does for a vector: where it goes on, and if interrupts are disabled there. -/
structure Gate where
  offset : ℕ
  selector : ℕ
  ist : ℕ
  dpl : ℕ
  clearsIf : Bool
  deriving DecidableEq, Repr

/-- The gate in an entry, if it is present: of an interrupt or of a trap. -/
def IdtEntry.gate (e : IdtEntry) : Option Gate :=
  if e.flags.testBit 7 ∧ (e.flags % 32 = 0xE ∨ e.flags % 32 = 0xF) then
    some
      { offset := e.baseLo16 + 2 ^ 16 * e.baseHi16 + 2 ^ 32 * e.baseUp32
        selector := e.sel
        ist := e.always0 % 8
        dpl := e.flags / 32 % 4
        clearsIf := e.flags % 32 = 0xE }
  else none

/-! ### Segments -/

/-- `sys_segment_descriptor`, without the fields that are not used. -/
structure SysSegmentDescriptor where
  /-- Bits 0 to 15 of the limit. -/
  lolimit : ℕ
  /-- Bits 0 to 23 of the address. -/
  lobase : ℕ
  /-- The type of the segment. -/
  type : ℕ
  /-- The privilege of the segment. -/
  dpl : ℕ
  /-- The segment is present. -/
  p : ℕ
  /-- Bits 16 to 19 of the limit. -/
  hilimit : ℕ
  /-- The unit of the limit. -/
  gran : ℕ
  /-- Bits 24 to 63 of the address. -/
  hibase : ℕ
  deriving DecidableEq, Repr

/-- `sizeof(struct tss_t)`. -/
abbrev sizeofTss : ℕ := 4 + 8 + 11 * 4

/-- `setup_tss`: a field of `n` bits takes the low bits of what is assigned. -/
def Symbols.setupTss (sym : Symbols) : SysSegmentDescriptor where
  lolimit := (sizeofTss - 1) % 2 ^ 16
  lobase := sym.tss.toNat % 2 ^ 24
  type := 9
  dpl := 0
  p := 1
  hilimit := 0
  gran := 0
  hibase := (sym.tss.toNat >>> 24) % 2 ^ 40

namespace SysSegmentDescriptor

variable (sd : SysSegmentDescriptor)

/-- The two words of the descriptor in `gdt`. -/
def words : ℕ × ℕ :=
  (sd.lolimit + 2 ^ 16 * sd.lobase + 2 ^ 40 * sd.type + 2 ^ 45 * sd.dpl + 2 ^ 47 * sd.p +
    2 ^ 48 * sd.hilimit + 2 ^ 55 * sd.gran + 2 ^ 56 * (sd.hibase % 2 ^ 8), sd.hibase / 2 ^ 8)

end SysSegmentDescriptor

/-- A segment of code: `GDT_CS | P | DPL | L | LO_LIMIT | HI_LIMIT | GR`. -/
def codeDescriptor (dpl : ℕ) : ℕ :=
  0x00180000000000 ||| 0x00800000000000 ||| dpl ||| 0x20000000000000 ||| 0x0000000000ffff |||
    0x0f000000000000 ||| 0x80000000000000

/-- A segment of data: `GDT_DS | P | W | DPL | LO_LIMIT | HI_LIMIT | GR`. -/
def dataDescriptor (dpl : ℕ) : ℕ :=
  0x00100000000000 ||| 0x00800000000000 ||| 0x00020000000000 ||| dpl ||| 0x0000000000ffff |||
    0x0f000000000000 ||| 0x80000000000000

/-- `DPL0` and `DPL3`. -/
abbrev dpl0 : ℕ := 0x00000000000000

abbrev dpl3 : ℕ := 0x00600000000000

/-- `gdt`: segments of the kernel, of the user, the task state segment, and the segments of the user for
`sysret`. -/
def Symbols.gdt (sym : Symbols) : ℕ → ℕ
  | 1 => codeDescriptor dpl0
  | 2 => dataDescriptor dpl0
  | 3 => codeDescriptor dpl3
  | 4 => dataDescriptor dpl3
  | 5 => sym.setupTss.words.1
  | 6 => sym.setupTss.words.2
  | 7 => dataDescriptor dpl3
  | 8 => codeDescriptor dpl3
  | _ => 0

/-- The base that the processor reads out of the two words of a system descriptor, in parts of 24, 8 and
32 bits. -/
def tssBase (lo hi : ℕ) : ℕ := lo / 2 ^ 16 % 2 ^ 24 + 2 ^ 24 * (lo / 2 ^ 56 % 2 ^ 8) + 2 ^ 32 * (hi % 2 ^ 32)

/-- A task state segment of 64 bits that is available, with a limit in bytes. -/
def TssPresent (lo limit : ℕ) : Prop :=
  lo / 2 ^ 40 % 2 ^ 5 = 9 ∧ lo / 2 ^ 47 % 2 = 1 ∧ lo / 2 ^ 55 % 2 = 0 ∧
    lo % 2 ^ 16 + 2 ^ 16 * (lo / 2 ^ 48 % 2 ^ 4) = limit

/-- A segment of code or data. -/
structure Segment where
  code : Bool
  long : Bool
  writable : Bool
  dpl : ℕ
  deriving DecidableEq, Repr

/-- The segment in a word of `gdt`, if it is present. -/
def segmentOf (w : ℕ) : Option Segment :=
  if w.testBit 47 ∧ w.testBit 44 then
    some ⟨w.testBit 43, w.testBit 53, w.testBit 41, w / 2 ^ 45 % 4⟩
  else none

/-! ### System calls -/

/-- The lower half of `IA32_LSTAR`. -/
def Symbols.lstarLo (sym : Symbols) : ℕ := sym.syscallHandler.toNat &&& ((1 <<< 32) - 1)

/-- The upper half: the bits above the lower half, shifted down. -/
def Symbols.lstarHi (sym : Symbols) : ℕ :=
  (sym.syscallHandler &&& ~~~BitVec.ofNat 64 ((1 <<< 32) - 1)).toNat >>> 32

/-- The upper half of `IA32_STAR`. -/
def starHi : ℕ := (0x33 <<< 16) ||| 0x8

/-- The index in `gdt` of a selector. -/
def selectorIndex (sel : ℕ) : ℕ := sel / 8

/-- The selectors that `syscall` and `sysret` load: of the code, and of the stack. -/
def syscallSelectors : ℕ × ℕ := (starHi % 2 ^ 16, starHi % 2 ^ 16 + 8)

def sysretSelectors : ℕ × ℕ := (starHi / 2 ^ 16 + 16, starHi / 2 ^ 16 + 8)

/-! ### What the processor finds -/

section Entries

variable {entries : ℕ → IdtEntry}

/-- Each entry is stored once. -/
theorem foldl_idtSetGate (n : ℕ) (base : ℕ → BitVec 64) (sel : ℕ) (flags : ℕ → ℕ) (v : ℕ) :
    (List.range n).foldl (fun entries i => idtSetGate entries i (base i) sel (flags i)) entries v =
      if v < n then idtSetGate entries v (base v) sel (flags v) v else entries v := by
  induction n with
  | zero => rfl
  | succ n ih =>
    rw [List.range_succ, List.foldl_append, List.foldl_cons, List.foldl_nil]
    by_cases hv : v = n
    · subst hv
      have hsame := ih
      rw [if_neg (lt_irrefl v)] at hsame
      rw [if_pos (Nat.lt_succ_self v), idtSetGate, idtSetGate, Function.update_self,
        Function.update_self, hsame]
    · rw [idtSetGate, Function.update_of_ne hv, ih]
      by_cases hlt : v < n
      · rw [if_pos hlt, if_pos (by omega)]
      · rw [if_neg hlt, if_neg (by omega)]

/-- The parts of an address. -/
theorem gate_offset (base : BitVec 64) : (base.toNat &&& 0xFFFF) +
    2 ^ 16 * (base.toNat >>> 16 &&& 0xFFFF) + 2 ^ 32 * (base.toNat >>> 32 &&& 0xFFFFFFFF) =
      base.toNat := by
  have hlt := base.isLt
  rw [show 0xFFFF = 2 ^ 16 - 1 from rfl, show 0xFFFFFFFF = 2 ^ 32 - 1 from rfl,
    Nat.and_two_pow_sub_one_eq_mod, Nat.and_two_pow_sub_one_eq_mod, Nat.and_two_pow_sub_one_eq_mod,
    Nat.shiftRight_eq_div_pow, Nat.shiftRight_eq_div_pow]
  omega

/-- A gate that is filled is found. -/
theorem gate_idtSetGate (v : ℕ) (base : BitVec 64) (sel : ℕ) {flags : ℕ}
    (hflags : flags = 0x8f ∨ flags = 0x8E) :
    (idtSetGate entries v base sel flags v).gate =
      some ⟨base.toNat, sel, 0, 0, decide (flags = 0x8E)⟩ := by
  have hpresent : flags.testBit 7 ∧ (flags % 32 = 0xE ∨ flags % 32 = 0xF) := by
    rcases hflags with rfl | rfl <;> decide
  rw [idtSetGate, Function.update_self, IdtEntry.gate, if_pos hpresent]
  simp only [gate_offset]
  rcases hflags with rfl | rfl <;> simp

theorem gate_initIdt (sym : Symbols) (v : ℕ) : (sym.initIdt v).gate =
    if v < 34 then some ⟨(sym.handler v).toNat, 8, 0, 0, decide (32 ≤ v)⟩ else none := by
  have hflags : (if v < 32 then 0x8f else 0x8E) = 0x8f ∨ (if v < 32 then 0x8f else 0x8E) = 0x8E := by
    split
    exacts [.inl rfl, .inr rfl]
  have hclears : decide ((if v < 32 then 0x8f else 0x8E) = 0x8E) = decide (32 ≤ v) := by
    by_cases hlt : v < 32
    · simp [hlt]
    · simp [hlt, not_lt.1 hlt]
  rw [Symbols.initIdt, foldl_idtSetGate, apply_ite IdtEntry.gate, gate_idtSetGate v _ _ hflags, hclears]
  rfl

/-- The base of the task state segment. -/
theorem tss_setupTss (sym : Symbols) : tssBase (sym.gdt 5) (sym.gdt 6) = sym.tss.toNat ∧
    TssPresent (sym.gdt 5) 55 := by
  have hlt := sym.tss.isLt
  simp only [Symbols.gdt, SysSegmentDescriptor.words, Symbols.setupTss, tssBase, TssPresent, sizeofTss,
    Nat.shiftRight_eq_div_pow]
  omega

/-- The segments of a privilege level. -/
theorem segmentOf_code (n : ℕ) (hn : n < 4) :
    segmentOf (codeDescriptor (n * 2 ^ 45)) = some ⟨true, true, false, n⟩ := by
  revert n
  decide

theorem segmentOf_data (n : ℕ) (hn : n < 4) :
    segmentOf (dataDescriptor (n * 2 ^ 45)) = some ⟨false, false, true, n⟩ := by
  revert n
  decide

/-- The two halves of the address of `__syscall_handler`. -/
theorem lstar_eq (sym : Symbols) : sym.lstarLo + 2 ^ 32 * sym.lstarHi = sym.syscallHandler.toNat := by
  have hlo : sym.lstarLo = sym.syscallHandler.toNat % 2 ^ 32 := by
    rw [Symbols.lstarLo, show (1 <<< 32) - 1 = 2 ^ 32 - 1 from rfl, Nat.and_two_pow_sub_one_eq_mod]
  have hhi : sym.lstarHi = sym.syscallHandler.toNat / 2 ^ 32 := by
    have hbits : (sym.syscallHandler &&& ~~~BitVec.ofNat 64 ((1 <<< 32) - 1)) >>> 32 =
        sym.syscallHandler >>> 32 := by
      refine BitVec.eq_of_getLsbD_eq fun i hi => ?_
      have hmask : (BitVec.ofNat 64 ((1 <<< 32) - 1)).getLsbD (32 + i) = false := by
        rw [show (1 <<< 32) - 1 = 2 ^ 32 - 1 from rfl, BitVec.getLsbD_ofNat, Nat.testBit_two_pow_sub_one]
        simp
      rw [BitVec.getLsbD_ushiftRight, BitVec.getLsbD_ushiftRight, BitVec.getLsbD_and,
        BitVec.getLsbD_not, hmask]
      by_cases hlt : 32 + i < 64
      · simp [hlt]
      · simp [BitVec.getLsbD_of_ge sym.syscallHandler (32 + i) (by omega)]
    rw [Symbols.lstarHi, ← BitVec.toNat_ushiftRight, hbits, BitVec.toNat_ushiftRight,
      Nat.shiftRight_eq_div_pow]
  rw [hlo, hhi]
  omega

/-- **Every way into the kernel.**  Whatever the addresses of the symbols are, the gate of each exception is a
trap to its handler, those of the timer and the keyboard disable interrupts, and no other vector has a
gate.  The task state segment is found, `syscall` goes to `__syscall_handler`, and `syscall` and
`sysret` load segments of the kernel and of the user. -/
theorem kernel_entries (sym : Symbols) :
    (∀ v, (sym.initIdt v).gate =
      if v < 34 then some ⟨(sym.handler v).toNat, 8, 0, 0, decide (32 ≤ v)⟩ else none) ∧
    (tssBase (sym.gdt 5) (sym.gdt 6) = sym.tss.toNat ∧ TssPresent (sym.gdt 5) (sizeofTss - 1)) ∧
    sym.lstarLo + 2 ^ 32 * sym.lstarHi = sym.syscallHandler.toNat ∧
    (segmentOf (sym.gdt (selectorIndex syscallSelectors.1)) = some ⟨true, true, false, 0⟩ ∧
      segmentOf (sym.gdt (selectorIndex syscallSelectors.2)) = some ⟨false, false, true, 0⟩) ∧
    segmentOf (sym.gdt (selectorIndex sysretSelectors.1)) = some ⟨true, true, false, 3⟩ ∧
      segmentOf (sym.gdt (selectorIndex sysretSelectors.2)) = some ⟨false, false, true, 3⟩ := by
  refine ⟨gate_initIdt sym, tss_setupTss sym, lstar_eq sym, ?_, ?_⟩
  · exact ⟨segmentOf_code 0 (by decide), segmentOf_data 0 (by decide)⟩
  · exact ⟨segmentOf_code 3 (by decide), segmentOf_data 3 (by decide)⟩

end Entries

end PlumOs
