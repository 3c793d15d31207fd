import Mathlib.Data.Fin.Basic
import Mathlib.Data.List.FinRange
import Mathlib.Data.Nat.Bitwise
import Mathlib.Logic.Function.Basic

/-!
# The interrupt controller 8259A

A chip has eight lines, and the line 0 has the highest priority.  A request waits until the line is not
masked and no line with the same or a higher priority is in service; then the processor acknowledges it,
and the line is in service until the end of the interrupt is written to the chip.  Two chips are
cascaded: the second one is at a line of the first.

* `Chip`, `Chip.command`, `Chip.data` : one chip, and what is written to its two ports;
* `Chip.interrupt`, `Chip.acknowledge` : the request for the processor, and its acknowledgement;
* `Pics`, `Pics.outb`, `Pics.deliver` : the two chips, with the ports and the vectors of a PC;
* `Chip.init` : **the four words of an initialization**, whatever the chip was waiting for;
* `Chip.interrupt_eq_some` : the request that is delivered;
* `Chip.endOfInterrupt_acknowledge` : **a request that is taken and ended** is gone, and nothing else has
  changed.

Rotating priorities, polling, the reading of registers and spurious interrupts are left out.
-/

namespace PlumOs

namespace I8259

/-- The lines of one chip. -/
abbrev Line : Type := Fin 8

/-- What the next word for the data port is. -/
inductive Await where
  | mask
  | base (single icw4 : Bool)
  | cascade (icw4 : Bool)
  | mode
  deriving DecidableEq, Repr

/-- One chip. -/
structure Chip where
  /-- The vector of its first line. -/
  base : ℕ
  /-- The mask. -/
  masked : Line → Bool
  /-- The requests that wait. -/
  request : Line → Bool
  /-- The requests that the processor handles. -/
  service : Line → Bool
  /-- The end of an interrupt is assumed when it starts. -/
  autoEoi : Bool
  /-- The special mask mode is on. -/
  specialMask : Bool
  /-- What it expects on the data port. -/
  await : Await

/-! ### One chip -/

namespace Chip

variable (c : Chip)

/-- A line in service holds back its own requests and those of lower priorities.  In the special mask mode it
does not if it is masked. -/
def holds (l : Line) : Bool := c.service l && !(c.specialMask && c.masked l)

/-- The request of the line can go to the processor. -/
def ready (l : Line) : Bool :=
  c.request l && !c.masked l && (List.finRange 8).all fun k => decide (l < k) || !c.holds k

/-- The request with the highest priority. -/
def interrupt : Option Line := (List.finRange 8).find? c.ready

/-- The processor takes a request. -/
def acknowledge (l : Line) : Chip :=
  { c with
    request := Function.update c.request l false
    service := if c.autoEoi then c.service else Function.update c.service l true }

/-- The end of the interrupt with the highest priority. -/
def endOfInterrupt : Chip :=
  match (List.finRange 8).find? c.holds with
  | some l => { c with service := Function.update c.service l false }
  | none => c

/-- A word for the command port: `ICW1` with the bit 4, `OCW3` with the bit 3, otherwise `OCW2`. -/
def command (v : ℕ) : Chip :=
  if v.testBit 4 then
    { base := c.base, masked := fun _ => false, request := fun _ => false, service := fun _ => false,
      autoEoi := false, specialMask := false, await := .base (v.testBit 1) (v.testBit 0) }
  else if v.testBit 3 then
    if v.testBit 6 then { c with specialMask := v.testBit 5 } else c
  else if v / 32 = 1 then c.endOfInterrupt
  else c

/-- A word for the data port: `ICW2`, `ICW3` and `ICW4` after `ICW1`, otherwise the mask. -/
def data (v : ℕ) : Chip :=
  match c.await with
  | .base single icw4 =>
    { c with
      base := v / 8 * 8
      await := if single then (if icw4 then .mode else .mask) else .cascade icw4 }
  | .cascade icw4 => { c with await := if icw4 then .mode else .mask }
  | .mode => { c with autoEoi := v.testBit 1, await := .mask }
  | .mask => { c with masked := fun l => v.testBit l }

end Chip

/-! ### Two chips -/

/-- The chips of a PC.  The request of the second one is at the line 2 of the first. -/
structure Pics where
  master : Chip
  slave : Chip

/-- The line of the second chip. -/
abbrev slaveLine : Line := 2

namespace Pics

variable (p : Pics)

/-- A word for a port. -/
def outb (port v : ℕ) : Pics :=
  if port = 0x20 then { p with master := p.master.command v }
  else if port = 0x21 then { p with master := p.master.data v }
  else if port = 0xA0 then { p with slave := p.slave.command v }
  else if port = 0xA1 then { p with slave := p.slave.data v }
  else p

/-- A device has a request. -/
def raise (irq : Fin 16) : Pics :=
  if h : irq.val < 8 then
    { p with master := { p.master with request := Function.update p.master.request ⟨irq, h⟩ true } }
  else
    { p with slave := { p.slave with
        request := Function.update p.slave.request ⟨irq - 8, by omega⟩ true } }

/-- The first chip, with the request of the second one. -/
def joined : Chip :=
  { p.master with request := Function.update p.master.request slaveLine p.slave.interrupt.isSome }

/-- The processor takes an interrupt: its vector, and the chips afterwards. -/
def deliver : Option (ℕ × Pics) :=
  match p.joined.interrupt with
  | none => none
  | some l =>
    if l = slaveLine then
      p.slave.interrupt.map fun k : Line =>
        (p.slave.base + k.val, ⟨p.joined.acknowledge slaveLine, p.slave.acknowledge k⟩)
    else some (p.master.base + l.val, ⟨p.joined.acknowledge l, p.slave⟩)

end Pics

/-! ### What the words do -/

/-- The first line with a property. -/
theorem find_finRange {n : ℕ} {P : Fin n → Bool} {l : Fin n} :
    (List.finRange n).find? P = some l ↔ P l = true ∧ ∀ k < l, P k = false := by
  rw [List.find?_eq_some_iff_getElem]
  refine and_congr_right fun _ => ?_
  constructor
  · rintro ⟨i, hi, rfl, hlt⟩ k hk
    rw [List.getElem_finRange] at hk
    simpa using hlt k.val hk
  · intro hlt
    refine ⟨l.val, by simp, by simp, fun j hj => ?_⟩
    simpa using hlt ⟨j, hj.trans l.isLt⟩ hj

namespace Chip

variable {c : Chip} {l k : Line} {v : ℕ}

/-- **The initialization with `ICW1` to `ICW4`**, whatever the chip did before. -/
theorem init (c : Chip) {icw1 icw2 icw3 icw4 : ℕ} (h4 : icw1.testBit 4) (h1 : icw1.testBit 1 = false)
    (h0 : icw1.testBit 0) :
    ((((c.command icw1).data icw2).data icw3).data icw4) =
      { base := icw2 / 8 * 8, masked := fun _ => false, request := fun _ => false,
        service := fun _ => false, autoEoi := icw4.testBit 1, specialMask := false, await := .mask } := by
  have hcommand : c.command icw1 =
      { base := c.base, masked := fun _ => false, request := fun _ => false, service := fun _ => false,
        autoEoi := false, specialMask := false, await := .base false true } := by
    rw [command, if_pos h4, h1, h0]
  rw [hcommand]
  rfl

theorem data_mask (h : c.await = .mask) (v : ℕ) : c.data v = { c with masked := fun l => v.testBit l } := by
  rw [data, h]

theorem ready_iff : c.ready l = true ↔
    c.request l = true ∧ c.masked l = false ∧ ∀ k ≤ l, c.holds k = false := by
  simp only [ready, Bool.and_eq_true, Bool.not_eq_true', List.all_eq_true, List.mem_finRange,
    Bool.or_eq_true, decide_eq_true_eq, true_implies, and_assoc]
  refine and_congr_right fun _ => and_congr_right fun _ => forall_congr' fun k => ?_
  rw [← not_le]
  tauto

/-- **The request that goes to the processor.** -/
theorem interrupt_eq_some : c.interrupt = some l ↔ c.ready l = true ∧ ∀ k < l, c.ready k = false :=
  find_finRange

theorem interrupt_eq_none : c.interrupt = none ↔ ∀ l, c.ready l = false := by
  simp [interrupt, List.find?_eq_none]

/-- The end of an interrupt is that of the first line in service. -/
theorem endOfInterrupt_of_holds (h : c.holds l = true) (hlt : ∀ k < l, c.holds k = false) :
    c.endOfInterrupt = { c with service := Function.update c.service l false } := by
  rw [endOfInterrupt, find_finRange.2 ⟨h, hlt⟩]

/-- **A request that is taken and ended** is gone, and nothing else has changed. -/
theorem endOfInterrupt_acknowledge (h : c.ready l = true) (hauto : c.autoEoi = false) :
    (c.acknowledge l).endOfInterrupt = { c with request := Function.update c.request l false } := by
  obtain ⟨-, hmasked, hfree⟩ := ready_iff.1 h
  have hservice : c.service l = false := by
    have hl := hfree l (le_refl l)
    rw [holds, hmasked, Bool.and_false, Bool.not_false, Bool.and_true] at hl
    exact hl
  have hack : c.acknowledge l = { c with
      request := Function.update c.request l false, service := Function.update c.service l true } := by
    rw [acknowledge, hauto]
    rfl
  have hholds : (c.acknowledge l).holds l = true := by
    rw [hack]
    simp only [holds, Function.update_self, hmasked, Bool.and_false, Bool.not_false, Bool.and_true]
  have hlt : ∀ k < l, (c.acknowledge l).holds k = false := by
    intro k hk
    rw [← hfree k hk.le, hack]
    simp only [holds, Function.update_of_ne hk.ne]
  rw [endOfInterrupt_of_holds hholds hlt, hack]
  simp only [Function.update_idem]
  rw [← hservice, Function.update_eq_self]

theorem endOfInterrupt_idle (h : ∀ l, c.service l = false) : c.endOfInterrupt = c := by
  have hnone : (List.finRange 8).find? c.holds = none := by
    simp [List.find?_eq_none, holds, h]
  rw [endOfInterrupt, hnone]

theorem command_eoi (c : Chip) : c.command 0x20 = c.endOfInterrupt := rfl

end Chip

end I8259

end PlumOs
