import PlumOs.Lib.I8259
import PlumOs.Mm.PageAlloc
import PlumOs.Tty.Keyboard

/-!
# Interrupts of the devices (`sys/pic.c`, `sys/itimer.c`, `sys/kbd.c`, `sys/timer.c`)

The driver keeps the mask of the two interrupt controllers in `irqmask`.  The lines of the timer and of
the keyboard are enabled at boot, and the handlers write the end of the interrupt to both chips, the one
of the timer before it calls `schedule`.  `kbdintr` returns early if there is no scancode to be read,
and then it writes no end of the interrupt.

* `picsetmask`, `picenable`, `picinit`, `picSendeoi`, `timerinit`, `kbdinit` : the functions of the source;
* `picinit_eq`, `boot_driver` : the chips after `picinit` and after the boot, whatever they did before;
* `enabled_iff` : **a line is enabled exactly if** it is the one of the second chip or `picenable` was called
  for it;
* `IrqAct`, `IrqState.step` : requests of devices and interrupts of the processor.  A handler is reduced to
  its writes to the ports, and no spurious interrupt (line 7 of a chip) is raised;
* `interrupts_served` : **in every run** no interrupt stops the kernel, the timer is always served, and **the
  keyboard is exactly as long as** `kbdintr` has not returned early.
-/

namespace PlumOs

open I8259

/-! ### The driver -/

/-- The mask of the driver, and the chips. -/
structure PicDriver where
  irqmask : BitVec 16
  pics : Pics

namespace PicDriver

variable (d : PicDriver)

/-- `outb`, with a byte. -/
def outb (port v : ℕ) : PicDriver := { d with pics := d.pics.outb port (v % 256) }

/-- `picsetmask`. -/
def picsetmask (mask : BitVec 16) : PicDriver :=
  (({ d with irqmask := mask } : PicDriver).outb (0x20 + 1) mask.toNat).outb (0xA0 + 1) (mask >>> 8).toNat

/-- `picenable`. -/
def picenable (irq : ℕ) : PicDriver := d.picsetmask (d.irqmask &&& ~~~(1#16 <<< irq))

/-- `T_IRQ0`. -/
abbrev tIrq0 : ℕ := 32

/-- `picinit`: the words for both chips, and the mask. -/
def picinit : PicDriver :=
  let d := (d.outb (0x20 + 1) 0xFF).outb (0xA0 + 1) 0xFF
  let d := (((d.outb 0x20 0x11).outb (0x20 + 1) tIrq0).outb (0x20 + 1) (1 <<< 2)).outb (0x20 + 1) 0x1
  let d := (((d.outb 0xA0 0x11).outb (0xA0 + 1) (tIrq0 + 8)).outb (0xA0 + 1) 2).outb (0xA0 + 1) 0x3
  let d := (((d.outb 0x20 0x68).outb 0x20 0x0a).outb 0xA0 0x68).outb 0xA0 0x0a
  if d.irqmask ≠ 0xFFFF then d.picsetmask d.irqmask else d

/-- `pic_sendeoi`. -/
def picSendeoi (irq : ℕ) : PicDriver :=
  let d := if 8 ≤ irq then d.outb 0xA0 0x20 else d
  d.outb 0x20 0x20

/-- `TIMER_DIV(x)`, for `x` interrupts in a second. -/
def timerDiv (x : ℕ) : ℕ := (1193182 + x / 2) / x

/-- `timerinit`. -/
def timerinit : PicDriver :=
  let d := d.outb (0x40 + 3) (0x00 ||| 0x04 ||| 0x30)
  let d := (d.outb 0x40 (timerDiv 100 % 256)).outb 0x40 (timerDiv 100 / 256)
  d.picenable 0

/-- The second part of `kbdinit`. -/
def kbdinit : PicDriver := d.picenable 1

/-- Both chips wait for a mask, and the second one is not between requests. -/
structure Programmed (d : PicDriver) : Prop where
  master : d.pics.master.await = .mask
  slave : d.pics.slave.await = .mask

end PicDriver

/-- A chip that is programmed with a vector base and masks. -/
def I8259.Chip.programmed (base : ℕ) (autoEoi : Bool) (masked : Line → Bool) : Chip :=
  { base := base, masked := masked, request := fun _ => false, service := fun _ => false,
    autoEoi := autoEoi, specialMask := true, await := .mask }

section Driver

variable {d : PicDriver} {irq v : ℕ} {irqs : List ℕ}

/-- The masks of the chips are the bits of `irqmask`. -/
def PicDriver.Masked (d : PicDriver) : Prop :=
  (∀ l : Line, d.pics.master.masked l = d.irqmask.getLsbD l) ∧
    ∀ l : Line, d.pics.slave.masked l = d.irqmask.getLsbD (8 + l)

/-- The mask of a chip is a byte of the mask. -/
theorem testBit_mask (mask : BitVec 16) (l : Line) :
    (mask.toNat % 256).testBit l = mask.getLsbD l ∧
      ((mask >>> 8).toNat % 256).testBit l = mask.getLsbD (8 + l) := by
  have hl := l.isLt
  rw [show 256 = 2 ^ 8 from rfl, Nat.testBit_mod_two_pow, Nat.testBit_mod_two_pow,
    decide_eq_true hl, Bool.true_and, Bool.true_and, BitVec.testBit_toNat, BitVec.testBit_toNat,
    BitVec.getLsbD_ushiftRight]
  exact ⟨rfl, rfl⟩

/-! The words for the four ports. -/

@[simp] theorem PicDriver.outb_command (d : PicDriver) (v : ℕ) : d.outb 0x20 v =
    { d with pics := { d.pics with master := d.pics.master.command (v % 256) } } := rfl

@[simp] theorem PicDriver.outb_data (d : PicDriver) (v : ℕ) : d.outb (0x20 + 1) v =
    { d with pics := { d.pics with master := d.pics.master.data (v % 256) } } := rfl

@[simp] theorem PicDriver.outb_slave_command (d : PicDriver) (v : ℕ) : d.outb 0xA0 v =
    { d with pics := { d.pics with slave := d.pics.slave.command (v % 256) } } := rfl

@[simp] theorem PicDriver.outb_slave_data (d : PicDriver) (v : ℕ) : d.outb (0xA0 + 1) v =
    { d with pics := { d.pics with slave := d.pics.slave.data (v % 256) } } := rfl

/-- `picsetmask` sets both masks, and nothing else in the chips. -/
theorem picsetmask_eq (hd : d.Programmed) (mask : BitVec 16) : d.picsetmask mask =
    { irqmask := mask
      pics :=
        { master := { d.pics.master with masked := fun l => mask.getLsbD l }
          slave := { d.pics.slave with masked := fun l => mask.getLsbD (8 + l) } } } := by
  have hmaster : (fun l : Line => (mask.toNat % 256).testBit l) = fun l : Line => mask.getLsbD l :=
    funext fun l => (testBit_mask mask l).1
  have hslave : (fun l : Line => ((mask >>> 8).toNat % 256).testBit l) =
      fun l : Line => mask.getLsbD (8 + l) :=
    funext fun l => (testBit_mask mask l).2
  simp only [PicDriver.picsetmask, PicDriver.outb_data, PicDriver.outb_slave_data,
    Chip.data_mask hd.master, Chip.data_mask hd.slave, hmaster, hslave]

/-- The words of `picinit` for one chip: `ICW1` to `ICW4`, the special mask mode, and the register that is
read. -/
theorem programmed_eq (c : Chip) (icw2 icw3 icw4 : ℕ) :
    (((((c.command 0x11).data icw2).data icw3).data icw4).command 0x68).command 0x0a =
      .programmed (icw2 / 8 * 8) (icw4.testBit 1) fun _ => false := by
  rw [Chip.init c rfl rfl rfl]
  rfl

/-- **The chips after `picinit`**, whatever they did before: no line is in service, and no request is
left. -/
theorem picinit_eq (d : PicDriver) (hmask : d.irqmask ≠ 0xFFFF) : d.picinit =
    { irqmask := d.irqmask
      pics :=
        { master := .programmed 32 false fun l => d.irqmask.getLsbD l
          slave := .programmed 40 true fun l => d.irqmask.getLsbD (8 + l) } } := by
  obtain ⟨irqmask, master, slave⟩ := d
  replace hmask : irqmask ≠ 0xFFFF := hmask
  have hpics : ({ irqmask := irqmask, pics := ⟨master, slave⟩ } : PicDriver).picinit =
      ({ irqmask := irqmask
         pics :=
          { master := .programmed 32 false fun _ => false
            slave := .programmed 40 true fun _ => false } } : PicDriver).picsetmask irqmask := by
    rw [PicDriver.picinit]
    simp only [PicDriver.outb_command, PicDriver.outb_data, PicDriver.outb_slave_command,
      PicDriver.outb_slave_data, ne_eq, hmask, not_false_eq_true, if_true]
    simp only [PicDriver.tIrq0, Nat.reduceMod, Nat.reduceShiftLeft, Nat.reduceAdd, programmed_eq]
    rfl
  have hd : ({ irqmask := irqmask
               pics :=
                { master := .programmed 32 false fun _ => false
                  slave := .programmed 40 true fun _ => false } } : PicDriver).Programmed := ⟨rfl, rfl⟩
  rw [hpics, picsetmask_eq hd]
  rfl

/-- `irqmask` at the start, with any chips. -/
def PicDriver.initial (pics : Pics) : PicDriver := ⟨0xFFFF &&& ~~~(1#16 <<< 2), pics⟩

/-- The line is not masked in its chip. -/
def PicDriver.Enabled (d : PicDriver) (irq : ℕ) : Prop :=
  (∃ l : Line, l.val = irq ∧ d.pics.master.masked l = false) ∨
    ∃ l : Line, 8 + l.val = irq ∧ d.pics.slave.masked l = false

theorem picsetmask_programmed (hd : d.Programmed) (mask : BitVec 16) :
    (d.picsetmask mask).Programmed ∧ (d.picsetmask mask).Masked := by
  rw [picsetmask_eq hd]
  exact ⟨⟨hd.master, hd.slave⟩, fun _ => rfl, fun _ => rfl⟩

/-- The lines that are enabled are zeros of the mask. -/
theorem PicDriver.Masked.enabled_iff_bit (h : d.Masked) :
    d.Enabled irq ↔ irq < 16 ∧ d.irqmask.getLsbD irq = false := by
  constructor
  · rintro (⟨l, rfl, hl⟩ | ⟨l, rfl, hl⟩)
    · exact ⟨by omega, by rw [← h.1, hl]⟩
    · exact ⟨by omega, by rw [← h.2, hl]⟩
  · rintro ⟨hirq, hbit⟩
    by_cases hlow : irq < 8
    · exact .inl ⟨⟨irq, hlow⟩, rfl, by rw [h.1, hbit]⟩
    · refine .inr ⟨⟨irq - 8, by omega⟩, by simp only; omega, ?_⟩
      rw [h.2, show 8 + (irq - 8) = irq by omega, hbit]

/-- A bit is cleared. -/
theorem getLsbD_clear (mask : BitVec 16) (i : ℕ) (hirq : irq < 16) :
    (mask &&& ~~~(1#16 <<< i)).getLsbD irq = (mask.getLsbD irq && decide (irq ≠ i)) := by
  rw [BitVec.getLsbD_and, BitVec.getLsbD_not, BitVec.getLsbD_shiftLeft, BitVec.getLsbD_one]
  rcases lt_trichotomy irq i with hlt | rfl | hgt
  · simp [hirq, hlt, hlt.ne]
  · simp [hirq]
  · have hsub : irq - i ≠ 0 := by omega
    simp [hirq, hgt.ne', not_lt_of_gt hgt, hsub]

theorem picenables_masked (hd : d.Programmed) (hmask : d.Masked) (irqs : List ℕ) :
    (irqs.foldl PicDriver.picenable d).Masked ∧ ∀ irq < 16,
      ((irqs.foldl PicDriver.picenable d).irqmask.getLsbD irq = false ↔
        d.irqmask.getLsbD irq = false ∨ irq ∈ irqs) := by
  induction irqs generalizing d with
  | nil => exact ⟨hmask, fun irq _ => by simp⟩
  | cons i irqs ih =>
    obtain ⟨hd', hmask'⟩ := picsetmask_programmed hd (d.irqmask &&& ~~~(1#16 <<< i))
    obtain ⟨hrest, hiff⟩ := ih hd' hmask'
    refine ⟨hrest, fun irq hirq => (hiff irq hirq).trans ?_⟩
    rw [picsetmask_eq hd, getLsbD_clear d.irqmask i hirq, List.mem_cons]
    by_cases heq : irq = i <;> simp [heq]

/-- **The lines that are enabled** after `picinit` and any calls of `picenable`, whatever the chips did
before. -/
theorem enabled_iff (pics : Pics) (irqs : List ℕ) (hirqs : ∀ i ∈ irqs, i < 16) (irq : ℕ) :
    (irqs.foldl PicDriver.picenable (PicDriver.initial pics).picinit).Enabled irq ↔
      irq = 2 ∨ irq ∈ irqs := by
  have hne : (PicDriver.initial pics).irqmask ≠ 0xFFFF := by
    show (0xFFFF &&& ~~~(1#16 <<< 2) : BitVec 16) ≠ 0xFFFF
    decide
  obtain ⟨d, hd⟩ : ∃ d, d = (PicDriver.initial pics).picinit := ⟨_, rfl⟩
  have heq := hd.trans (picinit_eq _ hne)
  have hprogrammed : d.Programmed := by
    rw [heq]
    exact ⟨rfl, rfl⟩
  have hmasked : d.Masked := by
    rw [heq]
    exact ⟨fun _ => rfl, fun _ => rfl⟩
  obtain ⟨hm, hbits⟩ := picenables_masked hprogrammed hmasked irqs
  have hinit : ∀ irq < 16, (d.irqmask.getLsbD irq = false ↔ irq = 2) := by
    rw [heq]
    show ∀ irq < 16, ((0xFFFF &&& ~~~(1#16 <<< 2) : BitVec 16).getLsbD irq = false ↔ irq = 2)
    decide
  rw [← hd, hm.enabled_iff_bit]
  constructor
  · rintro ⟨hirq, hbit⟩
    rwa [hbits irq hirq, hinit irq hirq] at hbit
  · intro h
    have hirq : irq < 16 := by
      rcases h with rfl | hmem
      exacts [by decide, hirqs irq hmem]
    rw [hbits irq hirq, hinit irq hirq]
    exact ⟨hirq, h⟩

end Driver

/-- A chip that was in use with the vectors from `base` on, and every line of it was enabled. -/
def usedChip (base : ℕ) : Chip where
  base := base
  masked := fun _ => false
  request := fun _ => false
  service := fun _ => false
  autoEoi := false
  specialMask := false
  await := .mask

/-- The line of the keyboard is enabled at boot, and the one of the serial port is not any more. -/
theorem enabled_iff_boot :
    ([0, 1].foldl PicDriver.picenable (PicDriver.initial ⟨usedChip 8, usedChip 0x70⟩).picinit).Enabled 1 ∧
      ¬([0, 1].foldl PicDriver.picenable (PicDriver.initial ⟨usedChip 8, usedChip 0x70⟩).picinit).Enabled 4 :=
  ⟨(enabled_iff ⟨usedChip 8, usedChip 0x70⟩ [0, 1] (by decide) 1).2 (by decide),
    mt (enabled_iff ⟨usedChip 8, usedChip 0x70⟩ [0, 1] (by decide) 4).1 (by decide)⟩

/-! ### Interrupts -/

/-- The driver, and the vectors that were delivered, with whether the handler wrote the end of the
interrupt; the latest is first. -/
structure IrqState where
  driver : PicDriver
  log : List (ℕ × Bool)

/-- A device has a request, or the processor looks for one between two instructions.  If it is the one
of the keyboard, `status` is what `kbdintr` reads from the status port. -/
inductive IrqAct where
  | raise (irq : Fin 16)
  | interrupt (status : Fin 256)
  deriving DecidableEq, Repr

namespace IrqState

/-- What `start` makes of the chips: `picinit`, `timerinit` and `kbdinit`. -/
def boot (pics : Pics) : IrqState := ⟨(PicDriver.initial pics).picinit.timerinit.kbdinit, []⟩

/-- The handler of a vector, as far as it writes to the chips. -/
def handler (s : IrqState) (vector : ℕ) (status : Fin 256) : Except Stop IrqState :=
  if vector = 32 then .ok ⟨s.driver.picSendeoi 32, (vector, true) :: s.log⟩
  else if vector = 33 then
    .ok (if dataInBuffer status then ⟨s.driver.picSendeoi 33, (vector, true) :: s.log⟩
      else ⟨s.driver, (vector, false) :: s.log⟩)
  -- the gate is not present, and the handler of that exception panics
  else .error (.panic "exception!")

/-- One step. -/
def step (s : IrqState) : IrqAct → Except Stop IrqState
  | .raise irq => .ok { s with driver := { s.driver with pics := s.driver.pics.raise irq } }
  | .interrupt status =>
    match s.driver.pics.deliver with
    | none => .ok s
    | some (vector, pics) => handler { s with driver := { s.driver with pics := pics } } vector status

/-- `kbdintr` has returned early. -/
def Early (s : IrqState) : Prop := (33, false) ∈ s.log

instance decidableEarly (s : IrqState) : Decidable s.Early :=
  inferInstanceAs (Decidable ((33, false) ∈ s.log))

/-- What the steps keep: the masks of the boot, and only the keyboard's line is in service, if `kbdintr` has
returned early. -/
structure Served (s : IrqState) : Prop where
  master : ∃ request service, s.driver.pics.master =
    { Chip.programmed 32 false (fun l => decide (3 ≤ l)) with request := request, service := service } ∧
    ∀ l, service l = true ↔ l = 1 ∧ s.Early
  slave : ∃ request, s.driver.pics.slave =
    { Chip.programmed 40 true (fun _ => true) with request := request }
  log : ∀ x ∈ s.log, x = (32, true) ∨ x.1 = 33
  /-- After an early return only the timer is served. -/
  after : s.log.Pairwise fun x y => y = (33, false) → x = (32, true)

section Interrupts

variable {s s' : IrqState} {a : IrqAct} {status : Fin 256} {l : Line} {pics : Pics} {acts : List IrqAct}

/-- The words for the timer are for other ports. -/
theorem timerinit_eq (d : PicDriver) : d.timerinit = d.picenable 0 := rfl

theorem initial_irqmask (pics : Pics) : (PicDriver.initial pics).irqmask = 0xFFFB#16 := by
  show (0xFFFF &&& ~~~(1#16 <<< 2) : BitVec 16) = 0xFFFB#16
  decide

/-- **The chips after the boot**, whatever they did before. -/
theorem boot_driver (pics : Pics) : (boot pics).driver =
    { irqmask := 0xFFF8#16
      pics :=
        { master := .programmed 32 false fun l => decide (3 ≤ l)
          slave := .programmed 40 true fun _ => true } } := by
  have hne : (PicDriver.initial pics).irqmask ≠ 0xFFFF := by
    rw [initial_irqmask]
    decide
  have hmaster : (fun l : Line => (0xFFF8#16).getLsbD l) = fun l : Line => decide (3 ≤ l) := by
    decide
  have hslave : (fun l : Line => (0xFFF8#16).getLsbD (8 + l)) = fun _ : Line => true := by
    decide
  have hmask : 0xFFFB#16 &&& ~~~(1#16 <<< 0) &&& ~~~(1#16 <<< 1) = 0xFFF8#16 := by decide
  rw [boot, timerinit_eq, PicDriver.kbdinit, picinit_eq _ hne, initial_irqmask, PicDriver.picenable,
    PicDriver.picenable, picsetmask_eq ⟨rfl, rfl⟩, picsetmask_eq ⟨rfl, rfl⟩]
  simp only [hmask, hmaster, hslave]
  rfl

theorem served_boot (pics : Pics) : (boot pics).Served where
  master := by
    rw [boot_driver]
    refine ⟨_, _, rfl, fun l => ?_⟩
    exact ⟨fun h => absurd h Bool.false_ne_true, fun h => absurd h.2 List.not_mem_nil⟩
  slave := by
    rw [boot_driver]
    exact ⟨_, rfl⟩
  log x hx := absurd hx List.not_mem_nil
  after := List.Pairwise.nil

/-- The second chip has no request that is not masked. -/
theorem Served.joined_eq (h : s.Served) : s.driver.pics.joined = { s.driver.pics.master with
    request := Function.update s.driver.pics.master.request slaveLine false } := by
  obtain ⟨request', hslave⟩ := h.slave
  have hquiet : s.driver.pics.slave.interrupt = none := by
    rw [Chip.interrupt_eq_none, hslave]
    intro k
    rw [Bool.eq_false_iff, ne_eq, Chip.ready_iff]
    exact fun hready => Bool.noConfusion hready.2.1
  rw [Pics.joined, hquiet]
  rfl

/-- The requests that can go to the processor. -/
theorem Served.ready_joined (h : s.Served) (l : Line) : s.driver.pics.joined.ready l = true ↔
    s.driver.pics.master.request l = true ∧ (l = 0 ∨ l = 1 ∧ ¬s.Early) := by
  obtain ⟨request, service, hmaster, hservice⟩ := h.master
  have hjoined := h.joined_eq
  rw [hmaster] at hjoined
  have hholds : ∀ k, s.driver.pics.joined.holds k = true ↔ k = 1 ∧ s.Early := by
    intro k
    rw [hjoined]
    simp only [Chip.holds, Chip.programmed, Bool.true_and, Bool.and_eq_true, Bool.not_eq_true',
      decide_eq_false_iff_not, hservice]
    refine and_iff_left_of_imp fun hk => ?_
    rw [hk.1]
    decide
  have hfree : ∀ k, s.driver.pics.joined.holds k = false ↔ ¬(k = 1 ∧ s.Early) := fun k => by
    rw [← hholds, Bool.not_eq_true]
  have hmasked : s.driver.pics.joined.masked l = false ↔ ¬(3 ≤ l) := by
    rw [hjoined]
    exact decide_eq_false_iff_not
  have hrequest : s.driver.pics.joined.request l = true ↔
      l ≠ slaveLine ∧ s.driver.pics.master.request l = true := by
    rw [hjoined, hmaster]
    simp only [Function.update_apply]
    split <;> simp_all
  simp only [Chip.ready_iff, hrequest, hmasked, hfree]
  constructor
  · rintro ⟨⟨hne, hreq⟩, hlt, hall⟩
    refine ⟨hreq, ?_⟩
    have hcases : l = 0 ∨ l = 1 := by
      revert hne hlt
      clear hall hreq hrequest hmasked
      revert l
      decide
    refine hcases.imp_right fun hl => ⟨hl, fun hearly => ?_⟩
    exact hall l (le_refl _) ⟨hl, hearly⟩
  · rintro ⟨hreq, rfl | ⟨rfl, hearly⟩⟩
    · refine ⟨⟨by decide, hreq⟩, by decide, fun k hk hno => ?_⟩
      rw [hno.1] at hk
      exact absurd hk (by decide)
    · exact ⟨⟨by decide, hreq⟩, by decide, fun k _ hno => hearly hno.2⟩

/-- **What is delivered next**: the timer, or else the keyboard if `kbdintr` has not returned early. -/
theorem Served.deliver_eq (h : s.Served) : s.driver.pics.deliver =
    if s.driver.pics.master.request 0 = true then
      some (32, ⟨s.driver.pics.joined.acknowledge 0, s.driver.pics.slave⟩)
    else if s.driver.pics.master.request 1 = true ∧ ¬s.Early then
      some (33, ⟨s.driver.pics.joined.acknowledge 1, s.driver.pics.slave⟩)
    else none := by
  have hbase : s.driver.pics.master.base = 32 := by
    obtain ⟨request, service, hmaster, -⟩ := h.master
    rw [hmaster]
    rfl
  have hnot : ∀ l, s.driver.pics.joined.ready l = false ↔
      ¬(s.driver.pics.master.request l = true ∧ (l = 0 ∨ l = 1 ∧ ¬s.Early)) := fun l => by
    rw [← h.ready_joined, Bool.not_eq_true]
  rw [Pics.deliver]
  split_ifs with htimer hkbd
  · have hfirst : s.driver.pics.joined.interrupt = some 0 :=
      Chip.interrupt_eq_some.2
        ⟨(h.ready_joined 0).2 ⟨htimer, .inl rfl⟩, fun k hk => absurd hk (by simp)⟩
    rw [hfirst]
    simp only [hbase]
    rfl
  · have hsecond : s.driver.pics.joined.interrupt = some 1 := by
      refine Chip.interrupt_eq_some.2
        ⟨(h.ready_joined 1).2 ⟨hkbd.1, .inr ⟨rfl, hkbd.2⟩⟩, fun k hk => ?_⟩
      obtain rfl : k = 0 := by
        revert k
        decide
      exact (hnot 0).2 fun hready => htimer hready.1
    rw [hsecond]
    simp only [hbase]
    rfl
  · have hnone : s.driver.pics.joined.interrupt = none := by
      refine Chip.interrupt_eq_none.2 fun l => (hnot l).2 ?_
      rintro ⟨hreq, rfl | ⟨rfl, hearly⟩⟩
      exacts [htimer hreq, hkbd ⟨hreq, hearly⟩]
    rw [hnone]

/-- `pic_sendeoi` after a request of the first chip. -/
theorem picSendeoi_acknowledge {d : PicDriver} {irq : ℕ} (hirq : 8 ≤ irq)
    (hready : d.pics.joined.ready l = true) (hauto : d.pics.master.autoEoi = false)
    (hslave : ∀ k, d.pics.slave.service k = false) :
    ({ d with pics := ⟨d.pics.joined.acknowledge l, d.pics.slave⟩ } : PicDriver).picSendeoi irq =
      { d with pics := ⟨{ d.pics.joined with
        request := Function.update d.pics.joined.request l false }, d.pics.slave⟩ } := by
  rw [PicDriver.picSendeoi, if_pos hirq, PicDriver.outb_slave_command, PicDriver.outb_command]
  simp only [Nat.reduceMod, Chip.command_eoi, Chip.endOfInterrupt_idle hslave]
  rw [Chip.endOfInterrupt_acknowledge hready hauto]

/-- The state after a handler that has written the end of the interrupt. -/
theorem Served.served_ended (h : s.Served) {vector : ℕ} (hvector : vector = 32 ∨ vector = 33)
    (hearly : s.Early → vector = 32) : Served
      ⟨{ s.driver with pics := ⟨{ s.driver.pics.joined with
        request := Function.update s.driver.pics.joined.request l false }, s.driver.pics.slave⟩ },
        (vector, true) :: s.log⟩ := by
  obtain ⟨request, service, hmaster, hservice⟩ := h.master
  refine ⟨⟨Function.update (Function.update request slaveLine false) l false, service, ?_, fun k => ?_⟩,
    h.slave, ?_, ?_⟩
  · simp only [h.joined_eq, hmaster]
  · rw [hservice, Early, Early, List.mem_cons]
    simp
  · intro x hx
    rcases List.mem_cons.1 hx with rfl | hx
    · exact hvector.imp (fun hv => by rw [hv]) id
    · exact h.log x hx
  · refine List.pairwise_cons.2 ⟨fun y hy hyf => ?_, h.after⟩
    rw [hyf] at hy
    rw [hearly hy]

/-- The state after `kbdintr` has returned early: the line of the keyboard stays in service. -/
theorem Served.served_early (h : s.Served) (hearly : ¬s.Early) : Served
      ⟨{ s.driver with pics := ⟨s.driver.pics.joined.acknowledge 1, s.driver.pics.slave⟩ },
        (33, false) :: s.log⟩ := by
  obtain ⟨request, service, hmaster, hservice⟩ := h.master
  refine ⟨⟨Function.update (Function.update request slaveLine false) 1 false,
    Function.update service 1 true, ?_, fun l => ?_⟩, h.slave, ?_, ?_⟩
  · simp only [h.joined_eq, hmaster]
    rfl
  · rw [Early, Function.update_apply]
    split_ifs with hl
    · exact iff_of_true rfl ⟨hl, List.mem_cons_self ..⟩
    · rw [hservice]
      exact iff_of_false (fun hs => hl hs.1) fun hs => hl hs.1
  · intro x hx
    rcases List.mem_cons.1 hx with rfl | hx
    · exact .inr rfl
    · exact h.log x hx
  · refine List.pairwise_cons.2 ⟨fun y hy hyf => ?_, h.after⟩
    rw [hyf] at hy
    exact absurd hy hearly

/-- A step keeps the invariant, and none stops the kernel. -/
theorem Served.step (h : s.Served) (a : IrqAct) : ∃ s', s.step a = .ok s' ∧ s'.Served := by
  obtain ⟨request, service, hmaster, hservice⟩ := h.master
  obtain ⟨request', hslave⟩ := h.slave
  have hauto : s.driver.pics.master.autoEoi = false := by
    rw [hmaster]
    rfl
  have hidle : ∀ k, s.driver.pics.slave.service k = false := by
    rw [hslave]
    exact fun _ => rfl
  cases a with
  | raise irq =>
    refine ⟨_, rfl, ?_⟩
    by_cases hirq : irq.val < 8
    · refine ⟨⟨Function.update request ⟨irq, hirq⟩ true, service, ?_, hservice⟩,
        ⟨request', ?_⟩, h.log, h.after⟩
      · simp only [Pics.raise, dif_pos hirq, hmaster]
      · simp only [Pics.raise, dif_pos hirq, hslave]
    · refine ⟨⟨request, service, ?_, hservice⟩,
        ⟨Function.update request' ⟨irq - 8, by omega⟩ true, ?_⟩, h.log, h.after⟩
      · simp only [Pics.raise, dif_neg hirq, hmaster]
      · simp only [Pics.raise, dif_neg hirq, hslave]
  | interrupt status =>
    rw [IrqState.step, h.deliver_eq]
    split_ifs with htimer hkbd
    · have hready := (h.ready_joined 0).2 ⟨htimer, .inl rfl⟩
      dsimp only [handler]
      rw [if_pos rfl, picSendeoi_acknowledge (by decide) hready hauto hidle]
      exact ⟨_, rfl, h.served_ended (.inl rfl) fun _ => rfl⟩
    · have hready := (h.ready_joined 1).2 ⟨hkbd.1, .inr ⟨rfl, hkbd.2⟩⟩
      dsimp only [handler]
      rw [if_neg (by decide), if_pos rfl]
      by_cases hdata : dataInBuffer status = true
      · rw [if_pos hdata, picSendeoi_acknowledge (by decide) hready hauto hidle]
        refine ⟨_, rfl, h.served_ended (.inr rfl) fun hearly => absurd hearly hkbd.2⟩
      · rw [if_neg hdata]
        exact ⟨_, rfl, h.served_early hkbd.2⟩
    · exact ⟨s, rfl, h⟩

/-- **The devices are served.**  From the boot on, whatever the chips did before, no interrupt stops the
kernel.  Between two handlers only the keyboard's line may be in service, exactly if `kbdintr` has
returned early, and from then on all interrupts are the timer's.  The next interrupt is the timer's if
it has a request, and otherwise the keyboard's if it has one and `kbdintr` has not returned early.  That
is so for requests that stay until they are taken: the chips raise no spurious interrupts here. -/
theorem interrupts_served (pics : Pics) (acts : List IrqAct) :
    ∃ s, run IrqState.step (boot pics) acts = .ok s ∧
      (∀ l, s.driver.pics.master.service l = true ↔ l = 1 ∧ (33, false) ∈ s.log) ∧
      s.log.Pairwise (fun x y => y = (33, false) → x = (32, true)) ∧
      s.driver.pics.deliver.map Prod.fst =
        if s.driver.pics.master.request 0 = true then some 32
        else if s.driver.pics.master.request 1 = true ∧ (33, false) ∉ s.log then some 33
        else none := by
  have hal : Along IrqState.step (fun _ _ => True) (boot pics) acts :=
    along_of_forall (fun _ _ => trivial) _ _
  obtain ⟨s, hrun, h⟩ := run_progress (served_boot pics) (fun _ a hs _ => hs.step a) hal
  refine ⟨s, hrun, ?_, h.after, ?_⟩
  · obtain ⟨request, service, hmaster, hservice⟩ := h.master
    rw [hmaster]
    exact hservice
  · rw [h.deliver_eq]
    rw [apply_ite (Option.map Prod.fst), apply_ite (Option.map Prod.fst)]
    rfl

end Interrupts

end IrqState

end PlumOs
