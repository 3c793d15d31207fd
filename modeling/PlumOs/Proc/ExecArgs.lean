import Mathlib.Tactic.Ring
import PlumOs.Proc.ArgCopy
import PlumOs.Vm.Paging

/-!
# The arguments of `exec`

`exec` copies the arguments and the environment of the new program twice (`sys/process.c`): from the
memory of the caller to a page of the kernel, and, when the address space of the caller is gone, from
there to the top page of the new stack.  The new program finds them from its stack pointer on
(`crt/crt1.c`).

* `Sizes` : the sizes that `exec` computes, in `int`s, and the addresses that it derives from them;
* `ExecCall` : a call of `exec`, with its strings in memory;
* `ExecCall.exec` : the copies, with the copy of the first argument to the name of the process in
  between;
* `Passed.Delivers` : the program finds its arguments, and no store was out of place;
* `ExecCall.roundTrips_iff` : **the arguments arrive** iff their true size, not reduced to an `int`,
  passes the assertion of `exec`.
-/

namespace PlumOs.Args

/-- The page at the address `base`. -/
def InPage (base a : ℕ) : Prop := base ≤ a ∧ a < base + pgSize

instance (base a : ℕ) : Decidable (InPage base a) := inferInstanceAs (Decidable (_ ∧ _))

/-- The top page of the stack of a new process. -/
abbrev stackPage : ℕ := userTop - pgSize

/-- The offset of `name` in the packed `task_struct`: five words, twenty files of 176 bytes, `mm`,
`pid` and `ppid`. -/
abbrev nameOff : ℕ := 5 * 8 + 20 * 176 + 8 + 4 + 4

/-! ### Sizes and addresses -/

/-- `arglist_size`, `envlist_size`, `argv_num` and `envp_num`. -/
structure Sizes where
  arglist : ℤ
  envlist : ℤ
  argvNum : ℤ
  envpNum : ℤ

namespace Sizes

variable (z : Sizes)

/-- `parameter_size`. -/
def parameter : ℤ := wrap32 (z.arglist + z.envlist + z.argvNum * 8 + z.envpNum * 8 + 8)

/-- The assertion of `exec`. -/
def Ok : Prop := wrap32 (z.parameter + 0x100) < pgSize

instance : Decidable z.Ok := inferInstanceAs (Decidable (_ < _))

/-- `pa_start`, where the arguments go on the stack. -/
def paStart : ℕ := ptrAdd userTop (-z.arglist - 8) / 8 * 8

/-- `pv_start`, where the environment goes on the stack. -/
def pvStart : ℕ := ptrAdd z.paStart (-z.envlist - 8) / 8 * 8

/-- `envpp`, the array of the environment on the stack. -/
def envpp : ℕ := ptrAdd z.pvStart (-wrap32 (z.envpNum * 8))

/-- `argvp`, the array of the arguments on the stack. -/
def argvp : ℕ := ptrAdd z.envpp (-wrap32 (z.argvNum * 8))

/-- `argcp`, the new stack pointer. -/
def argcp : ℕ := ptrAdd z.argvp (-8)

/-- `kstart`, where the arguments go in the kernel buffer. -/
def kstart (kbuf : ℕ) : ℕ := ptrAdd kbuf (wrap32 (wrap32 (z.argvNum + z.envpNum) * 8) + 0x30)

/-- `kenvpp`, the array of the environment in the kernel buffer. -/
def kenvpp (kbuf : ℕ) : ℕ := ptrAdd kbuf (wrap32 (z.argvNum * 8) + 0x10)

/-- Where the environment goes in the kernel buffer. -/
def kenvStart (kbuf : ℕ) : ℕ := ptrAdd (z.kstart kbuf) (z.arglist + 0x30)

end Sizes

/-- The sizes of the arguments and the environment. -/
def getSizes (mem : ℕ → ℕ) (fuel argv envp : ℕ) : Option Sizes := do
  let arglist ← getStrlistSize mem fuel argv
  let envlist ← getStrlistSize mem fuel envp
  let argc ← getStrlistNum mem fuel argv
  let envc ← getStrlistNum mem fuel envp
  return ⟨arglist, envlist, wrap32 (argc + 1), wrap32 (envc + 1)⟩

/-! ### The call -/

/-- The memory that `exec` does not write while it reads its arguments: neither the page of the kernel
buffer nor the bytes where the first argument is copied to as the name of the process. -/
def Foreign (kbuf task : ℕ) (args : List (List ℕ)) (a : ℕ) : Prop :=
  ¬ InPage kbuf a ∧ ∀ s ∈ args.head?, ¬ (task + nameOff ≤ a ∧ a ≤ task + nameOff + s.length)

/-- A call of `exec`, when the kernel buffer has been allocated. -/
structure ExecCall where
  /-- The memory, that of the caller and that of the kernel. -/
  mem : ℕ → ℕ
  /-- The kernel buffer. -/
  kbuf : ℕ
  /-- The `task_struct` of the process. -/
  task : ℕ
  /-- The array of the arguments. -/
  argv : ℕ
  /-- The array of the environment. -/
  envp : ℕ
  /-- The arguments. -/
  args : List (List ℕ)
  /-- The environment. -/
  envs : List (List ℕ)
  /-- The buffer is in the kernel half. -/
  kernel : userTop ≤ kbuf
  /-- The kernel maps no memory at the end of the address space. -/
  top : kbuf + 4 * pgSize ≤ 2 ^ 64
  /-- The buffer comes from `get_zero_page`. -/
  zero : ∀ a, InPage kbuf a → mem a = 0
  argv_at : StrsAt mem (Foreign kbuf task args) argv args
  envp_at : StrsAt mem (Foreign kbuf task args) envp envs

/-- What the new program finds. -/
structure Passed where
  /-- The memory of the new address space. -/
  mem : ℕ → ℕ
  /-- The stack pointer. -/
  userStack : ℕ
  /-- The stores to the kernel buffer. -/
  bufferLog : List ℕ
  /-- The stores to the stack. -/
  stackLog : List ℕ

/-- The copies to the kernel buffer. -/
def copyIn (fuel : ℕ) (mem : ℕ → ℕ) (kbuf argv envp : ℕ) (z : Sizes) : Option Ram := do
  let r ← copyStrlist fuel ⟨mem, []⟩ kbuf argv (z.kstart kbuf)
  copyStrlist fuel r (z.kenvpp kbuf) envp (z.kenvStart kbuf)

/-- The copy of the first argument to the name of the process. -/
def copyName (fuel : ℕ) (r : Ram) (task argv : ℕ) : Option Ram := do
  let len ← strlen r.bytes fuel (load r.bytes 8 argv)
  strncpy fuel r (task + nameOff) (load r.bytes 8 argv) len

/-- The memory after the new address space has been set up: the kernel buffer is as it was, and the
top page of the stack is a new one.  Nothing is said about the rest. -/
def newSpace (kbuf : ℕ) (mem other : ℕ → ℕ) (a : ℕ) : ℕ :=
  if InPage kbuf a then mem a else if InPage stackPage a then 0 else other a

/-- The copies to the stack, and the number of arguments below them. -/
def copyOut (fuel : ℕ) (mem : ℕ → ℕ) (kbuf : ℕ) (z : Sizes) : Option Ram := do
  let r ← copyStrlist fuel ⟨mem, []⟩ z.envpp (z.kenvpp kbuf) z.pvStart
  let r ← copyStrlist fuel r z.argvp kbuf z.paStart
  return r.put z.argcp (wordBytes 4 ((z.argvNum - 1) % 2 ^ 32).toNat)

/-- `exec`, as far as it passes on the arguments.  An assertion that fails is an endless loop. -/
def ExecCall.exec (c : ExecCall) (other : ℕ → ℕ) (fuel : ℕ) : Option Passed := do
  let z ← getSizes c.mem fuel c.argv c.envp
  if z.Ok then
    let k ← copyIn fuel c.mem c.kbuf c.argv c.envp z
    let r ← copyName fuel k c.task c.argv
    let u ← copyOut fuel (newSpace c.kbuf r.bytes other) c.kbuf z
    return ⟨u.bytes, z.argcp, k.log, u.log⟩
  else none

namespace Passed

variable (x : Passed)

/-- `argc` of `_start`. -/
def argc : ℤ := wrap32 (load x.mem 4 x.userStack)

/-- `argv` of `_start`. -/
def argv : ℕ := x.userStack + 8

/-- `envp` of `_start`. -/
def envp : ℕ := ptrAdd x.argv (wrap32 (wrap32 (x.argc + 1) * 8))

/-- `_start` finds these arguments in the stack page, no byte of the copies was stored twice, and every
store was to the page that it was meant for. -/
structure Delivers (kbuf : ℕ) (args envs : List (List ℕ)) : Prop where
  /-- `argc` is the number of arguments. -/
  argc_eq : x.argc = args.length
  /-- `argv` points to the arguments, in the stack page. -/
  argv_at : StrsAt x.mem (InPage stackPage) x.argv args
  /-- `envp` points to the environment, in the stack page. -/
  envp_at : StrsAt x.mem (InPage stackPage) x.envp envs
  /-- The stores to the new stack are to its page. -/
  stack_in : ∀ a ∈ x.stackLog, InPage stackPage a
  /-- None of them is to a byte that was stored before. -/
  stack_nodup : x.stackLog.Nodup
  /-- The stores to the buffer are to its page. -/
  buffer_in : ∀ a ∈ x.bufferLog, InPage kbuf a
  /-- None of them is to a byte that was stored before. -/
  buffer_nodup : x.bufferLog.Nodup

end Passed

namespace ExecCall

variable (c : ExecCall)

/-- The assertion passes. -/
def Asserted : Prop := ∃ fuel z, getSizes c.mem fuel c.argv c.envp = some z ∧ z.Ok

/-- `exec` comes to its end, and the new program finds the arguments of the call. -/
def RoundTrips (other : ℕ → ℕ) : Prop :=
  ∃ fuel x, c.exec other fuel = some x ∧ x.Delivers c.kbuf c.args c.envs

/-- The true sizes pass the assertion. -/
def Fits : Prop :=
  size c.args + size c.envs + (c.args.length + 1) * 8 + (c.envs.length + 1) * 8 + 8 + 0x100 < pgSize

instance : Decidable c.Fits := inferInstanceAs (Decidable (_ < _))

/-- The copy of the first argument to the name of the process does not run into the kernel buffer.  A
name of 520 bytes or more leaves the page of the task, and may then also run into another page, such as
the caller's own kernel stack, which `fork` takes right behind the task; the kernel buffer is the only one
that `exec` goes on to read its arguments from. -/
def NameClear : Prop :=
  ∀ s ∈ c.args.head?, c.task + nameOff + s.length < c.kbuf ∨ c.kbuf + pgSize ≤ c.task + nameOff

end ExecCall

/-! ### Two lists in one page -/

/-- The bytes of a list that is laid out: the slots, the one for the null pointer included, and the
strings. -/
def InArea (des start : ℕ) (strs : List (List ℕ)) (a : ℕ) : Prop :=
  (des ≤ a ∧ a < des + 8 * (strs.length + 1)) ∨ (start ≤ a ∧ a < start + extent strs)

/-- The fuel is enough for a list of strings. -/
def Enough (fuel : ℕ) (strs : List (List ℕ)) : Prop :=
  (∀ s ∈ strs, s.length < fuel) ∧ strs.length < fuel

/-- A list has its place in a page. -/
structure Placed (base des start : ℕ) (strs : List (List ℕ)) : Prop where
  compact : Compact strs
  chars : ∀ s ∈ strs, ∀ c ∈ s, c ≠ 0
  slots : base ≤ des ∧ des + 8 * (strs.length + 1) ≤ base + pgSize
  strings : base ≤ start ∧ start + extent strs ≤ base + pgSize
  sep : des + 8 * (strs.length + 1) ≤ start ∨ start + extent strs ≤ des
  bounds : 0 < base ∧ base + pgSize < 2 ^ 64

section Areas

variable {base des start des' start' src src' fuel a : ℕ} {strs strs' : List (List ℕ)} {r : Ram}

theorem Placed.inPage (h : Placed base des start strs) (ha : InArea des start strs a) :
    InPage base a := by
  have hslots := h.slots
  have hstrings := h.strings
  rw [InArea] at ha
  rw [InPage]
  omega

theorem Placed.start_ne_zero (h : Placed base des start strs) : start ≠ 0 := by
  have hstrings := h.strings
  have hbounds := h.bounds
  omega

theorem Placed.start_lt (h : Placed base des start strs) : start + extent strs < 2 ^ 64 := by
  have hstrings := h.strings
  have hbounds := h.bounds
  omega

theorem Placed.plan_inArea (h : Placed base des start strs) (ha : a ∈ plan des start strs) :
    InArea des start strs a := by
  have hmem := mem_plan h.compact h.start_ne_zero h.start_lt ha
  rw [InArea]
  omega

theorem Placed.plan_inPage (h : Placed base des start strs) :
    ∀ a ∈ plan des start strs, InPage base a :=
  fun _ ha => h.inPage (h.plan_inArea ha)

theorem Placed.plan_nodup (h : Placed base des start strs) : (plan des start strs).Nodup := by
  have hsep := h.sep
  exact nodup_plan h.compact h.start_ne_zero h.start_lt (by omega)

/-- The array of a list that has its place, in memory that was 0. -/
theorem Placed.strsAt (h : Placed base des start strs)
    (hzero : ∀ a, InArea des start strs a → r.bytes a = 0) :
    StrsAt (lay r des start strs).bytes (InArea des start strs) des (strs.map cut) := by
  apply strsAt_lay h.compact h.chars h.start_ne_zero h.start_lt h.sep
  · exact fun k hk => hzero _ (.inl ⟨by omega, by omega⟩)
  · exact fun x hx hx' => .inl ⟨hx, hx'⟩
  · exact fun x hx hx' => .inr ⟨hx, hx'⟩

/-- A copy of a list takes the place of the list. -/
theorem inArea_map_cut (h : Compact strs) :
    InArea des start (strs.map cut) a ↔ InArea des start strs a := by
  rw [InArea, InArea, extent_map_cut h, List.length_map]

theorem Placed.map_cut (h : Placed base des start strs) : Placed base des start (strs.map cut) := by
  have hextent := extent_map_cut h.compact
  obtain ⟨hcompact, hchars, hslots, hstrings, hsep, hbounds⟩ := h
  refine ⟨?_, ?_, ?_, ?_, ?_, hbounds⟩
  · apply compact_of_extent
    omega
  · intro s hs b hb
    obtain ⟨t, ht, rfl⟩ := List.mem_map.1 hs
    exact hchars t ht b (List.mem_of_mem_take hb)
  · rw [List.length_map]
    exact hslots
  · rw [hextent]
    exact hstrings
  · rw [hextent, List.length_map]
    exact hsep

/-- **Two lists in a page of zeros**, where their places do not overlap. -/
theorem Placed.strsAt_two (h : Placed base des start strs) (h' : Placed base des' start' strs')
    (hsep : ∀ a, InArea des start strs a → ¬ InArea des' start' strs' a)
    (hzero : ∀ a, InPage base a → r.bytes a = 0) :
    StrsAt (lay (lay r des start strs) des' start' strs').bytes (InArea des start strs) des
        (strs.map cut) ∧
      StrsAt (lay (lay r des start strs) des' start' strs').bytes (InArea des' start' strs') des'
        (strs'.map cut) := by
  constructor
  · apply (h.strsAt fun a ha => hzero a (h.inPage ha)).congr
    exact fun a ha => lay_bytes_of_notMem fun hmem => hsep a ha (h'.plan_inArea hmem)
  · apply h'.strsAt
    intro a ha
    rw [lay_bytes_of_notMem fun hmem => hsep a (h.plan_inArea hmem) ha, hzero a (h'.inPage ha)]

/-- The two copies, from outside of the page. -/
theorem Placed.copy_two (h : Placed base des start strs) (h' : Placed base des' start' strs')
    (hsrc : StrsAt r.bytes (fun a => ¬ InPage base a) src strs)
    (hsrc' : StrsAt r.bytes (fun a => ¬ InPage base a) src' strs')
    (hfuel : Enough fuel strs) (hfuel' : Enough fuel strs') :
    copyStrlist fuel r des src start = some (lay r des start strs) ∧
      copyStrlist fuel (lay r des start strs) des' src' start' =
        some (lay (lay r des start strs) des' start' strs') := by
  have hkept : StrsAt (lay r des start strs).bytes (fun a => ¬ InPage base a) src' strs' :=
    hsrc'.congr fun a ha => lay_bytes_of_notMem fun hmem => ha (h.plan_inPage a hmem)
  exact ⟨copyStrlist_eq hsrc hfuel.1 hfuel.2 h.plan_inPage,
    copyStrlist_eq hkept hfuel'.1 hfuel'.2 h'.plan_inPage⟩

theorem Placed.nodup_two (h : Placed base des start strs) (h' : Placed base des' start' strs')
    (hsep : ∀ a, InArea des start strs a → ¬ InArea des' start' strs' a) :
    (plan des start strs ++ plan des' start' strs').Nodup := by
  rw [List.nodup_append]
  refine ⟨h.plan_nodup, h'.plan_nodup, fun a ha b hb hab => ?_⟩
  exact hsep a (h.plan_inArea ha) (hab ▸ h'.plan_inArea hb)

end Areas

/-! ### The sizes of a call -/

/-- What is copied of the strings passes the assertion. -/
def CutFits (args envs : List (List ℕ)) : Prop :=
  extent args + extent envs + (args.length + 1) * 8 + (envs.length + 1) * 8 + 8 + 0x100 < pgSize

/-- The sizes if no `int` overflows. -/
def sizesOf (args envs : List (List ℕ)) : Sizes :=
  ⟨extent args, extent envs, args.length + 1, envs.length + 1⟩

section Layout

variable {args envs : List (List ℕ)} {kbuf fuel : ℕ}

theorem ptrAdd_eq {p q : ℕ} {d : ℤ} (h : (p : ℤ) + d = q) (hq : q < 2 ^ 64) : ptrAdd p d = q := by
  rw [ptrAdd, h]
  omega

/-- Without an overflow the assertion says what it means to say. -/
theorem ok_sizesOf_iff (hargs : extent args ≤ pgSize) (henvs : extent envs ≤ pgSize)
    (hn : 8 * args.length ≤ pgSize) (hm : 8 * envs.length ≤ pgSize) :
    (sizesOf args envs).Ok ↔ CutFits args envs := by
  unfold pgSize at hargs henvs hn hm
  simp only [Sizes.Ok, Sizes.parameter, sizesOf, CutFits, wrap32]
  unfold pgSize
  omega

theorem CutFits.ok (h : CutFits args envs) : (sizesOf args envs).Ok := by
  have hfits := h
  rw [CutFits] at hfits
  exact (ok_sizesOf_iff (by omega) (by omega) (by omega) (by omega)).2 h

/-- Where the arguments go in the kernel buffer, if there are not too many of them. -/
theorem kstart_eq {z : Sizes} {n m : ℕ} (hz : z.argvNum = n + 1) (hz' : z.envpNum = m + 1)
    (hn : 8 * n ≤ pgSize) (hm : 8 * m ≤ pgSize) (htop : kbuf + 4 * pgSize ≤ 2 ^ 64) :
    z.kstart kbuf = kbuf + 8 * (n + m + 2) + 0x30 := by
  unfold pgSize at hn hm htop
  have hsum : wrap32 ((n : ℤ) + 1 + (m + 1)) = n + 1 + (m + 1) := wrap32_of_mem (by omega) (by omega)
  rw [Sizes.kstart, hz, hz', hsum, wrap32_of_mem (by omega) (by omega)]
  exact ptrAdd_eq (by omega) (by omega)

/-- Where the environment goes, if the arguments are not too long. -/
theorem kenvStart_eq {z : Sizes} {n m e : ℕ} (hz : z.argvNum = n + 1) (hz' : z.envpNum = m + 1)
    (he : z.arglist = e) (hn : 8 * n ≤ pgSize) (hm : 8 * m ≤ pgSize) (hle : e ≤ pgSize)
    (htop : kbuf + 4 * pgSize ≤ 2 ^ 64) :
    z.kenvStart kbuf = kbuf + 8 * (n + m + 2) + 0x30 + e + 0x30 := by
  rw [Sizes.kenvStart, kstart_eq hz hz' hn hm htop, he]
  unfold pgSize at hn hm hle htop
  exact ptrAdd_eq (by omega) (by omega)

/-- The addresses in the kernel buffer. -/
theorem kernel_layout (h : CutFits args envs) (htop : kbuf + 4 * pgSize ≤ 2 ^ 64) :
    (sizesOf args envs).kenvpp kbuf = kbuf + 8 * (args.length + 1) + 0x10 ∧
      (sizesOf args envs).kstart kbuf = kbuf + 8 * (args.length + envs.length + 2) + 0x30 ∧
      (sizesOf args envs).kenvStart kbuf =
        kbuf + 8 * (args.length + envs.length + 2) + 0x30 + extent args + 0x30 := by
  rw [CutFits] at h
  refine ⟨?_, kstart_eq rfl rfl (by omega) (by omega) htop,
    kenvStart_eq rfl rfl rfl (by omega) (by omega) (by omega) htop⟩
  unfold pgSize at h htop
  have hargv : wrap32 (((args.length : ℤ) + 1) * 8) = (args.length + 1) * 8 :=
    wrap32_of_mem (by omega) (by omega)
  simp only [Sizes.kenvpp, sizesOf, hargv]
  exact ptrAdd_eq (by omega) (by omega)

/-- The addresses on the stack. -/
theorem stack_layout (h : CutFits args envs) :
    (sizesOf args envs).paStart + extent args + 8 ≤ userTop ∧
      userTop ≤ (sizesOf args envs).paStart + extent args + 15 ∧
      (sizesOf args envs).pvStart + extent envs + 8 ≤ (sizesOf args envs).paStart ∧
      (sizesOf args envs).paStart ≤ (sizesOf args envs).pvStart + extent envs + 15 ∧
      (sizesOf args envs).envpp + 8 * (envs.length + 1) = (sizesOf args envs).pvStart ∧
      (sizesOf args envs).argvp + 8 * (args.length + 1) = (sizesOf args envs).envpp ∧
      (sizesOf args envs).argcp + 8 = (sizesOf args envs).argvp := by
  rw [CutFits] at h
  unfold pgSize at h
  unfold userTop
  have hargv : wrap32 (((args.length : ℤ) + 1) * 8) = (args.length + 1) * 8 :=
    wrap32_of_mem (by omega) (by omega)
  have henvp : wrap32 (((envs.length : ℤ) + 1) * 8) = (envs.length + 1) * 8 :=
    wrap32_of_mem (by omega) (by omega)
  -- from the top of the stack down
  have hpa : (sizesOf args envs).paStart = (0x800000000000 - extent args - 8) / 8 * 8 := by
    rw [Sizes.paStart, ptrAdd_eq (q := 0x800000000000 - extent args - 8)
      (by simp only [sizesOf, userTop]; omega) (by omega)]
  have hpv : (sizesOf args envs).pvStart = ((sizesOf args envs).paStart - extent envs - 8) / 8 * 8 := by
    rw [Sizes.pvStart, ptrAdd_eq (q := (sizesOf args envs).paStart - extent envs - 8)
      (by simp only [sizesOf] at hpa ⊢; omega) (by omega)]
  have henvpp : (sizesOf args envs).envpp = (sizesOf args envs).pvStart - 8 * (envs.length + 1) := by
    rw [Sizes.envpp]
    exact ptrAdd_eq (by simp only [sizesOf] at hpa hpv ⊢; omega) (by omega)
  have hargvp : (sizesOf args envs).argvp = (sizesOf args envs).envpp - 8 * (args.length + 1) := by
    rw [Sizes.argvp]
    exact ptrAdd_eq (by simp only [sizesOf] at hpa hpv henvpp ⊢; omega) (by omega)
  have hargcp : (sizesOf args envs).argcp = (sizesOf args envs).argvp - 8 :=
    ptrAdd_eq (by omega) (by omega)
  omega

end Layout

section Sizes

variable {mem : ℕ → ℕ} {R : ℕ → Prop} {args envs : List (List ℕ)} {argv envp fuel : ℕ} {z : Sizes}

/-- The sizes that are computed. -/
def intSizes (args envs : List (List ℕ)) : Sizes :=
  ⟨wrap32 (size args), wrap32 (size envs), wrap32 (args.length + 1), wrap32 (envs.length + 1)⟩

theorem getSizes_eq (hargs : StrsAt mem R argv args) (henvs : StrsAt mem R envp envs)
    (hfuel : Enough fuel args) (hfuel' : Enough fuel envs) :
    getSizes mem fuel argv envp = some (intSizes args envs) := by
  rw [getSizes, getStrlistSize_eq hargs hfuel.1 hfuel.2, getStrlistSize_eq henvs hfuel'.1 hfuel'.2,
    getStrlistNum_eq hargs hfuel.2, getStrlistNum_eq henvs hfuel'.2]
  simp only [Option.bind_eq_bind, Option.bind_some, wrap32_wrap32_add]
  rfl

/-- Sizes are computed only with enough fuel. -/
theorem fuel_of_getSizes (hargs : StrsAt mem R argv args) (henvs : StrsAt mem R envp envs)
    (hz : getSizes mem fuel argv envp = some z) : Enough fuel args ∧ Enough fuel envs := by
  obtain ⟨arglist, harglist, hz⟩ := Option.bind_eq_some_iff.1 hz
  obtain ⟨envlist, henvlist, -⟩ := Option.bind_eq_some_iff.1 hz
  exact ⟨fuel_of_strlistSizeLoop hargs harglist, fuel_of_strlistSizeLoop henvs henvlist⟩

theorem CutFits.compact (h : CutFits args envs) : Compact args ∧ Compact envs := by
  rw [CutFits] at h
  exact ⟨compact_of_extent (by omega), compact_of_extent (by omega)⟩

theorem wrap32_succ {n : ℕ} (hn : 8 * n ≤ pgSize) : wrap32 ((n : ℤ) + 1) = n + 1 := by
  unfold pgSize at hn
  exact wrap32_of_mem (by omega) (by omega)

theorem wrap32_size_eq {strs : List (List ℕ)} (h : extent strs ≤ pgSize) :
    wrap32 (size strs) = extent strs := by
  rw [wrap32_size (compact_of_extent h)]
  unfold pgSize at h
  exact wrap32_of_mem (by omega) (by omega)

theorem intSizes_eq (hargs : extent args ≤ pgSize) (henvs : extent envs ≤ pgSize)
    (hn : 8 * args.length ≤ pgSize) (hm : 8 * envs.length ≤ pgSize) :
    intSizes args envs = sizesOf args envs := by
  rw [intSizes, wrap32_size_eq hargs, wrap32_size_eq henvs, wrap32_succ hn, wrap32_succ hm, sizesOf]

theorem CutFits.intSizes_eq (h : CutFits args envs) : intSizes args envs = sizesOf args envs := by
  rw [CutFits] at h
  exact Args.intSizes_eq (by omega) (by omega) (by omega) (by omega)

end Sizes

/-! ### The copies -/

namespace ExecCall

variable {c : ExecCall} {other : ℕ → ℕ} {fuel : ℕ}

theorem argv_out (c : ExecCall) : StrsAt c.mem (fun a => ¬ InPage c.kbuf a) c.argv c.args :=
  c.argv_at.mono fun _ ha => ha.1

theorem envp_out (c : ExecCall) : StrsAt c.mem (fun a => ¬ InPage c.kbuf a) c.envp c.envs :=
  c.envp_at.mono fun _ ha => ha.1

theorem kernel_pos (c : ExecCall) : 0 < c.kbuf ∧ c.kbuf + pgSize < 2 ^ 64 := by
  have hkernel := c.kernel
  have htop := c.top
  unfold userTop at hkernel
  unfold pgSize at htop ⊢
  omega

/-- The arguments have their place in the kernel buffer. -/
theorem placed_args (h : CutFits c.args c.envs) :
    Placed c.kbuf c.kbuf ((sizesOf c.args c.envs).kstart c.kbuf) c.args := by
  obtain ⟨-, hkstart, -⟩ := kernel_layout h c.top
  rw [hkstart]
  have hfits := h
  rw [CutFits] at hfits
  exact ⟨h.compact.1, c.argv_at.nonzero, by omega, by omega, by omega, c.kernel_pos⟩

/-- The environment has its place in the kernel buffer. -/
theorem placed_envs (h : CutFits c.args c.envs) :
    Placed c.kbuf ((sizesOf c.args c.envs).kenvpp c.kbuf) ((sizesOf c.args c.envs).kenvStart c.kbuf)
      c.envs := by
  obtain ⟨hkenvpp, -, hkenvStart⟩ := kernel_layout h c.top
  rw [hkenvpp, hkenvStart]
  have hfits := h
  rw [CutFits] at hfits
  exact ⟨h.compact.2, c.envp_at.nonzero, by omega, by omega, by omega, c.kernel_pos⟩

theorem buffer_sep (h : CutFits c.args c.envs) (a : ℕ)
    (ha : InArea c.kbuf ((sizesOf c.args c.envs).kstart c.kbuf) c.args a) :
    ¬ InArea ((sizesOf c.args c.envs).kenvpp c.kbuf) ((sizesOf c.args c.envs).kenvStart c.kbuf)
      c.envs a := by
  obtain ⟨hkenvpp, hkstart, hkenvStart⟩ := kernel_layout h c.top
  rw [hkstart, InArea] at ha
  rw [hkenvpp, hkenvStart, InArea]
  omega

/-- The kernel buffer after the copies. -/
def buffer (c : ExecCall) : Ram :=
  lay (lay ⟨c.mem, []⟩ c.kbuf ((sizesOf c.args c.envs).kstart c.kbuf) c.args)
    ((sizesOf c.args c.envs).kenvpp c.kbuf) ((sizesOf c.args c.envs).kenvStart c.kbuf) c.envs

theorem copyIn_eq (h : CutFits c.args c.envs) (hfuel : Enough fuel c.args)
    (hfuel' : Enough fuel c.envs) :
    copyIn fuel c.mem c.kbuf c.argv c.envp (sizesOf c.args c.envs) = some c.buffer := by
  obtain ⟨hfirst, hsecond⟩ := (placed_args h).copy_two (r := ⟨c.mem, []⟩) (placed_envs h) c.argv_out
    c.envp_out hfuel hfuel'
  rw [copyIn, hfirst, Option.bind_eq_bind, Option.bind_some, hsecond, buffer]

/-- Outside of its page the kernel buffer leaves the memory as it was. -/
theorem buffer_bytes (h : CutFits c.args c.envs) {a : ℕ} (ha : ¬ InPage c.kbuf a) :
    c.buffer.bytes a = c.mem a := by
  rw [buffer, lay_bytes_of_notMem fun hmem => ha ((placed_envs h).plan_inPage a hmem),
    lay_bytes_of_notMem fun hmem => ha ((placed_args h).plan_inPage a hmem)]

/-- The copy of the name leaves the kernel buffer alone. -/
theorem copyName_spec (h : CutFits c.args c.envs) (hfuel : Enough fuel c.args) (hname : c.NameClear) :
    ∃ r, copyName fuel c.buffer c.task c.argv = some r ∧
      ∀ a, InPage c.kbuf a → r.bytes a = c.buffer.bytes a := by
  have hargv : StrsAt c.buffer.bytes (Foreign c.kbuf c.task c.args) c.argv c.args :=
    c.argv_at.congr fun a ha => buffer_bytes h ha.1
  cases hcase : c.args with
  | nil =>
    rw [hcase] at hargv
    refine ⟨c.buffer, ?_, fun _ _ => rfl⟩
    rw [copyName, hargv.1, strlen, if_pos rfl, Option.bind_eq_bind, Option.bind_some, strncpy,
      if_pos (Or.inr rfl)]
  | cons s strs =>
    have hhead : s ∈ c.args.head? := by
      rw [hcase]
      rfl
    have hs : s.length < fuel := hfuel.1 s (List.mem_of_mem_head? hhead)
    have hargs := hargv
    rw [hcase] at hargs
    obtain ⟨hptr, -, hstr, hout, -⟩ := hargs
    have hlen : strlen c.buffer.bytes fuel (load c.buffer.bytes 8 c.argv) = some s.length := by
      rw [strlen, if_neg hptr, hstr.strlen_eq hs]
    -- the first argument is not where its copy goes
    have hcopy : strncpy fuel c.buffer (c.task + nameOff) (load c.buffer.bytes 8 c.argv) s.length =
        some (c.buffer.put (c.task + nameOff) (s ++ [0])) :=
      strncpy_length hstr hptr (by unfold nameOff; omega) hs fun k hk => (hout k hk).2 s rfl
    refine ⟨c.buffer.put (c.task + nameOff) (s ++ [0]), ?_, fun a ha => ?_⟩
    · rw [copyName, hlen, Option.bind_eq_bind, Option.bind_some, hcopy]
    · apply Ram.put_bytes_of_notMem
      have hclear := hname s hhead
      rw [InPage] at ha
      rw [List.length_append, List.length_singleton, List.mem_range'_1]
      omega

/-! ### The stack -/

/-- The memory that the copies to the stack start from. -/
theorem newSpace_bytes (c : ExecCall) {mem : ℕ → ℕ} (other : ℕ → ℕ) {a : ℕ} (ha : InPage stackPage a) :
    newSpace c.kbuf mem other a = 0 := by
  have hkernel := c.kernel
  have hout : ¬ InPage c.kbuf a := by
    rw [InPage] at ha ⊢
    unfold stackPage pgSize at ha
    unfold userTop at ha hkernel
    omega
  rw [newSpace, if_neg hout, if_pos ha]

/-- A list in the kernel buffer, seen from the new address space. -/
theorem strsAt_newSpace (c : ExecCall) {mem : ℕ → ℕ} (other : ℕ → ℕ) {R : ℕ → Prop} {arr : ℕ}
    {strs : List (List ℕ)} (h : StrsAt c.buffer.bytes R arr strs) (hR : ∀ a, R a → InPage c.kbuf a)
    (hmem : ∀ a, InPage c.kbuf a → mem a = c.buffer.bytes a) :
    StrsAt (newSpace c.kbuf mem other) (fun a => ¬ InPage stackPage a) arr strs := by
  have hkernel := c.kernel
  refine (h.congr fun a ha => ?_).mono fun a ha => ?_
  · rw [newSpace, if_pos (hR a ha), hmem a (hR a ha)]
  · have hin := hR a ha
    rw [InPage] at hin ⊢
    unfold stackPage pgSize
    unfold userTop at hkernel ⊢
    omega

theorem stackPage_bounds : 0 < stackPage ∧ stackPage + pgSize < 2 ^ 64 := by decide

/-- The arguments have their place on the stack. -/
theorem placed_stack_args (h : CutFits c.args c.envs) :
    Placed stackPage (sizesOf c.args c.envs).argvp (sizesOf c.args c.envs).paStart c.args := by
  have hlayout := stack_layout h
  have hfits := h
  rw [CutFits] at hfits
  unfold pgSize at hfits
  refine ⟨h.compact.1, c.argv_at.nonzero, ?_, ?_, by omega, stackPage_bounds⟩
  all_goals
    unfold stackPage pgSize
    unfold userTop at hlayout ⊢
    omega

/-- The environment has its place on the stack. -/
theorem placed_stack_envs (h : CutFits c.args c.envs) :
    Placed stackPage (sizesOf c.args c.envs).envpp (sizesOf c.args c.envs).pvStart c.envs := by
  have hlayout := stack_layout h
  have hfits := h
  rw [CutFits] at hfits
  unfold pgSize at hfits
  refine ⟨h.compact.2, c.envp_at.nonzero, ?_, ?_, by omega, stackPage_bounds⟩
  all_goals
    unfold stackPage pgSize
    unfold userTop at hlayout ⊢
    omega

theorem stack_sep (h : CutFits c.args c.envs) (a : ℕ)
    (ha : InArea (sizesOf c.args c.envs).envpp (sizesOf c.args c.envs).pvStart c.envs a) :
    ¬ InArea (sizesOf c.args c.envs).argvp (sizesOf c.args c.envs).paStart c.args a := by
  have hlayout := stack_layout h
  rw [InArea] at ha ⊢
  omega

/-- The lists on the stack after the copies. -/
def stack (c : ExecCall) (mem : ℕ → ℕ) : Ram :=
  lay (lay ⟨mem, []⟩ (sizesOf c.args c.envs).envpp (sizesOf c.args c.envs).pvStart (c.envs.map cut))
    (sizesOf c.args c.envs).argvp (sizesOf c.args c.envs).paStart (c.args.map cut)

/-- The lists in the kernel buffer. -/
theorem buffer_strsAt (h : CutFits c.args c.envs) :
    StrsAt c.buffer.bytes (InPage c.kbuf) c.kbuf (c.args.map cut) ∧
      StrsAt c.buffer.bytes (InPage c.kbuf) ((sizesOf c.args c.envs).kenvpp c.kbuf)
        (c.envs.map cut) := by
  have htwo := (placed_args h).strsAt_two (r := ⟨c.mem, []⟩) (placed_envs h) (buffer_sep h) c.zero
  exact ⟨htwo.1.mono fun _ => (placed_args h).inPage, htwo.2.mono fun _ => (placed_envs h).inPage⟩

section Stack

variable {mem : ℕ → ℕ}

theorem enough_map_cut {strs : List (List ℕ)} (h : Enough fuel strs) : Enough fuel (strs.map cut) := by
  refine ⟨fun s hs => ?_, by rw [List.length_map]; exact h.2⟩
  obtain ⟨t, ht, rfl⟩ := List.mem_map.1 hs
  have hlen := h.1 t ht
  rw [length_cut]
  omega

theorem copyOut_eq (other : ℕ → ℕ) (h : CutFits c.args c.envs) (hfuel : Enough fuel c.args)
    (hfuel' : Enough fuel c.envs) (hmem : ∀ a, InPage c.kbuf a → mem a = c.buffer.bytes a) :
    copyOut fuel (newSpace c.kbuf mem other) c.kbuf (sizesOf c.args c.envs) =
      some ((c.stack (newSpace c.kbuf mem other)).put (sizesOf c.args c.envs).argcp
        (wordBytes 4 c.args.length)) := by
  obtain ⟨hargs, henvs⟩ := buffer_strsAt h
  obtain ⟨hfirst, hsecond⟩ := (placed_stack_envs h).map_cut.copy_two
    (r := ⟨newSpace c.kbuf mem other, []⟩) (placed_stack_args h).map_cut
    (c.strsAt_newSpace other henvs (fun _ => id) hmem) (c.strsAt_newSpace other hargs (fun _ => id) hmem)
    (enough_map_cut hfuel') (enough_map_cut hfuel)
  have hargc : (((sizesOf c.args c.envs).argvNum - 1) % 2 ^ 32).toNat = c.args.length := by
    rw [CutFits] at h
    unfold pgSize at h
    simp only [sizesOf]
    omega
  rw [copyOut, hfirst, Option.bind_eq_bind, Option.bind_some, hsecond, hargc]
  rfl

/-- The lists on the stack. -/
theorem stack_strsAt (h : CutFits c.args c.envs) (mem other : ℕ → ℕ) :
    StrsAt (c.stack (newSpace c.kbuf mem other)).bytes
        (InArea (sizesOf c.args c.envs).envpp (sizesOf c.args c.envs).pvStart c.envs)
        (sizesOf c.args c.envs).envpp (c.envs.map cut) ∧
      StrsAt (c.stack (newSpace c.kbuf mem other)).bytes
        (InArea (sizesOf c.args c.envs).argvp (sizesOf c.args c.envs).paStart c.args)
        (sizesOf c.args c.envs).argvp (c.args.map cut) := by
  obtain ⟨hargs, henvs⟩ := h.compact
  have htwo := (placed_stack_envs h).map_cut.strsAt_two (r := ⟨newSpace c.kbuf mem other, []⟩)
    (placed_stack_args h).map_cut
    (fun a ha ha' => stack_sep h a ((inArea_map_cut henvs).1 ha) ((inArea_map_cut hargs).1 ha'))
    (fun a => c.newSpace_bytes other)
  rw [map_cut_map_cut hargs, map_cut_map_cut henvs] at htwo
  exact ⟨htwo.1.mono fun _ => (inArea_map_cut henvs).1, htwo.2.mono fun _ => (inArea_map_cut hargs).1⟩

theorem stack_log (c : ExecCall) (mem : ℕ → ℕ) :
    (c.stack mem).log =
      plan (sizesOf c.args c.envs).envpp (sizesOf c.args c.envs).pvStart (c.envs.map cut) ++
        plan (sizesOf c.args c.envs).argvp (sizesOf c.args c.envs).paStart (c.args.map cut) := by
  rw [stack, lay_log, lay_log, List.nil_append]

theorem buffer_log (c : ExecCall) :
    c.buffer.log = plan c.kbuf ((sizesOf c.args c.envs).kstart c.kbuf) c.args ++
      plan ((sizesOf c.args c.envs).kenvpp c.kbuf) ((sizesOf c.args c.envs).kenvStart c.kbuf) c.envs := by
  rw [buffer, lay_log, lay_log, List.nil_append]

/-- The state in which the new program starts. -/
def passed (c : ExecCall) (mem : ℕ → ℕ) : Passed :=
  let u := (c.stack mem).put (sizesOf c.args c.envs).argcp (wordBytes 4 c.args.length)
  ⟨u.bytes, (sizesOf c.args c.envs).argcp, c.buffer.log, u.log⟩

theorem passed_mem (c : ExecCall) (mem : ℕ → ℕ) :
    (c.passed mem).mem =
      ((c.stack mem).put (sizesOf c.args c.envs).argcp (wordBytes 4 c.args.length)).bytes := rfl

theorem passed_userStack (c : ExecCall) (mem : ℕ → ℕ) :
    (c.passed mem).userStack = (sizesOf c.args c.envs).argcp := by
  simp only [passed]

theorem passed_bufferLog (c : ExecCall) (mem : ℕ → ℕ) : (c.passed mem).bufferLog = c.buffer.log := rfl

theorem passed_argc (h : CutFits c.args c.envs) (mem : ℕ → ℕ) : (c.passed mem).argc = c.args.length := by
  rw [CutFits] at h
  unfold pgSize at h
  rw [Passed.argc, passed_mem, passed_userStack, load_put _ _ _ (by omega)]
  exact wrap32_of_mem (by omega) (by omega)

theorem passed_argv (h : CutFits c.args c.envs) (mem : ℕ → ℕ) :
    (c.passed mem).argv = (sizesOf c.args c.envs).argvp := by
  have hlayout := stack_layout h
  rw [Passed.argv, passed_userStack]
  omega

theorem passed_envp (h : CutFits c.args c.envs) (mem : ℕ → ℕ) :
    (c.passed mem).envp = (sizesOf c.args c.envs).envpp := by
  have hlayout := stack_layout h
  rw [Passed.envp, passed_argc h, passed_argv h]
  rw [CutFits] at h
  unfold pgSize at h
  unfold userTop at hlayout
  have hnum : wrap32 ((c.args.length : ℤ) + 1) = c.args.length + 1 := wrap32_of_mem (by omega) (by omega)
  rw [hnum, wrap32_of_mem (by omega) (by omega)]
  exact ptrAdd_eq (by omega) (by omega)

/-- The lists are above the number of arguments. -/
theorem passed_bytes (h : CutFits c.args c.envs) {a : ℕ} (ha : (sizesOf c.args c.envs).argvp ≤ a) :
    (c.passed mem).mem a = (c.stack mem).bytes a := by
  have hlayout := stack_layout h
  rw [passed_mem]
  apply Ram.put_bytes_of_notMem
  rw [length_wordBytes, List.mem_range'_1]
  omega

theorem passed_stackLog (c : ExecCall) (mem : ℕ → ℕ) :
    (c.passed mem).stackLog = (c.stack mem).log ++ List.range' (sizesOf c.args c.envs).argcp 4 := by
  rw [passed, Ram.put_log, length_wordBytes]

theorem stackLog_in (h : CutFits c.args c.envs) : ∀ a ∈ (c.passed mem).stackLog, InPage stackPage a := by
  have hlayout := stack_layout h
  have hfits := h
  rw [CutFits] at hfits
  unfold pgSize at hfits
  rw [passed_stackLog, stack_log]
  refine List.forall_mem_append.2 ⟨List.forall_mem_append.2
    ⟨(placed_stack_envs h).map_cut.plan_inPage, (placed_stack_args h).map_cut.plan_inPage⟩, ?_⟩
  intro a ha
  rw [List.mem_range'_1] at ha
  rw [InPage]
  unfold stackPage pgSize
  unfold userTop at hlayout ⊢
  omega

theorem stackLog_nodup (h : CutFits c.args c.envs) : (c.passed mem).stackLog.Nodup := by
  have hlayout := stack_layout h
  obtain ⟨hargs, henvs⟩ := h.compact
  rw [passed_stackLog, stack_log, List.nodup_append]
  refine ⟨?_, List.nodup_range', ?_⟩
  · apply (placed_stack_envs h).map_cut.nodup_two (placed_stack_args h).map_cut
    exact fun a ha ha' => stack_sep h a ((inArea_map_cut henvs).1 ha) ((inArea_map_cut hargs).1 ha')
  · intro a ha b hb hab
    rw [List.mem_range'_1] at hb
    -- the number of arguments is below both lists
    have habove : InArea (sizesOf c.args c.envs).envpp (sizesOf c.args c.envs).pvStart c.envs a ∨
        InArea (sizesOf c.args c.envs).argvp (sizesOf c.args c.envs).paStart c.args a := by
      rcases List.mem_append.1 ha with ha | ha
      · exact .inl ((inArea_map_cut henvs).1 ((placed_stack_envs h).map_cut.plan_inArea ha))
      · exact .inr ((inArea_map_cut hargs).1 ((placed_stack_args h).map_cut.plan_inArea ha))
    rw [InArea, InArea] at habove
    omega

/-- **What the new program finds**, if what is copied of its arguments fits. -/
theorem delivers_passed (h : CutFits c.args c.envs) (mem other : ℕ → ℕ) :
    (c.passed (newSpace c.kbuf mem other)).Delivers c.kbuf (c.args.map cut) (c.envs.map cut) := by
  have hlayout := stack_layout h
  obtain ⟨henvs, hargs⟩ := stack_strsAt h mem other
  refine ⟨?_, ?_, ?_, ?_, ?_, ?_, ?_⟩
  · rw [passed_argc h, List.length_map]
  · rw [passed_argv h]
    refine (hargs.congr fun a ha => passed_bytes h ?_).mono fun a => (placed_stack_args h).inPage
    rw [InArea] at ha
    omega
  · rw [passed_envp h]
    refine (henvs.congr fun a ha => passed_bytes h ?_).mono fun a => (placed_stack_envs h).inPage
    rw [InArea] at ha
    omega
  · exact stackLog_in h
  · exact stackLog_nodup h
  · rw [passed_bufferLog, buffer_log]
    exact List.forall_mem_append.2 ⟨(placed_args h).plan_inPage, (placed_envs h).plan_inPage⟩
  · rw [passed_bufferLog, buffer_log]
    exact (placed_args h).nodup_two (placed_envs h) (buffer_sep h)

end Stack

theorem enough_of_size {strs : List (List ℕ)} (h : size strs < fuel) : Enough fuel strs := by
  induction strs with
  | nil => exact ⟨List.forall_mem_nil _, h⟩
  | cons s strs ih =>
    rw [size] at h
    obtain ⟨hlen, hnum⟩ := ih (by omega)
    have hcount : strs.length ≤ size strs := length_le_size strs
    exact ⟨List.forall_mem_cons.2 ⟨by omega, hlen⟩, by rw [List.length_cons]; omega⟩

/-! ### The whole call -/

theorem exec_eq {z : Sizes} {k r u : Ram} (hz : getSizes c.mem fuel c.argv c.envp = some z) (hok : z.Ok)
    (hk : copyIn fuel c.mem c.kbuf c.argv c.envp z = some k)
    (hr : copyName fuel k c.task c.argv = some r)
    (hu : copyOut fuel (newSpace c.kbuf r.bytes other) c.kbuf z = some u) :
    c.exec other fuel = some ⟨u.bytes, z.argcp, k.log, u.log⟩ := by
  simp only [exec, hz, Option.bind_eq_bind, Option.bind_some, if_pos hok, hk, hr, hu, Option.pure_def]

/-- What is copied of the arguments arrives, if it fits. -/
theorem exec_spec (other : ℕ → ℕ) (h : CutFits c.args c.envs) (hfuel : Enough fuel c.args)
    (hfuel' : Enough fuel c.envs) (hname : c.NameClear) :
    ∃ x, c.exec other fuel = some x ∧ x.Delivers c.kbuf (c.args.map cut) (c.envs.map cut) := by
  have hz := getSizes_eq c.argv_at c.envp_at hfuel hfuel'
  rw [h.intSizes_eq] at hz
  obtain ⟨r, hr, hmem⟩ := copyName_spec h hfuel hname
  have hrun := exec_eq hz h.ok (copyIn_eq h hfuel hfuel') hr (copyOut_eq other h hfuel hfuel' hmem)
  refine ⟨_, hrun, ?_⟩
  have hpassed := delivers_passed h r.bytes other
  rw [passed] at hpassed
  exact hpassed

/-- A call that comes to its end has had enough fuel, the assertion has passed, and the stores to the
kernel buffer are those of the first copies. -/
theorem exec_inv {x : Passed} (hrun : c.exec other fuel = some x) :
    Enough fuel c.args ∧ Enough fuel c.envs ∧ (intSizes c.args c.envs).Ok ∧
      ∃ k, copyIn fuel c.mem c.kbuf c.argv c.envp (intSizes c.args c.envs) = some k ∧
        k.log = x.bufferLog := by
  obtain ⟨z, hz, hrun⟩ := Option.bind_eq_some_iff.1 hrun
  obtain ⟨hfuel, hfuel'⟩ := fuel_of_getSizes c.argv_at c.envp_at hz
  rw [getSizes_eq c.argv_at c.envp_at hfuel hfuel'] at hz
  obtain rfl := Option.some.inj hz
  by_cases hok : (intSizes c.args c.envs).Ok
  · rw [if_pos hok] at hrun
    obtain ⟨k, hk, hrun⟩ := Option.bind_eq_some_iff.1 hrun
    obtain ⟨r, -, hrun⟩ := Option.bind_eq_some_iff.1 hrun
    obtain ⟨u, -, hrun⟩ := Option.bind_eq_some_iff.1 hrun
    refine ⟨hfuel, hfuel', hok, k, hk, ?_⟩
    rw [← Option.some.inj hrun]
  · rw [if_neg hok] at hrun
    cases hrun

/-- If the kernel buffer holds all that is stored to it, then what is copied of the arguments fits. -/
theorem cutFits_of_exec {x : Passed} (hrun : c.exec other fuel = some x)
    (hlog : ∀ a ∈ x.bufferLog, InPage c.kbuf a) : CutFits c.args c.envs := by
  obtain ⟨hfuel, hfuel', hok, k, hk, hlogs⟩ := exec_inv hrun
  rw [← hlogs] at hlog
  obtain ⟨r, hr, hk⟩ := Option.bind_eq_some_iff.1 hk
  have htop := c.kernel_pos.2
  -- both copies are in the page
  have hplan := plan_of_copyStrlist c.argv_out hfuel.1 hr fun a ha => hlog a (copyStrlist_log hk ha)
  rw [copyStrlist_eq c.argv_out hfuel.1 hfuel.2 hplan] at hr
  obtain rfl := Option.some.inj hr
  have henvp : StrsAt (lay ⟨c.mem, []⟩ c.kbuf ((intSizes c.args c.envs).kstart c.kbuf) c.args).bytes
      (fun a => ¬ InPage c.kbuf a) c.envp c.envs :=
    c.envp_out.congr fun a ha => lay_bytes_of_notMem fun hmem => ha (hplan a hmem)
  have hplan' := plan_of_copyStrlist henvp hfuel'.1 hk hlog
  -- so there are not too many strings, and these are not too long
  have hn : 8 * c.args.length ≤ pgSize := length_le_of_plan hplan
  have hm : 8 * c.envs.length ≤ pgSize := length_le_of_plan hplan'
  have hargv : (intSizes c.args c.envs).argvNum = c.args.length + 1 := wrap32_succ hn
  have henvpNum : (intSizes c.args c.envs).envpNum = c.envs.length + 1 := wrap32_succ hm
  have hkstart := kstart_eq hargv henvpNum hn hm c.top
  have hargs : extent c.args ≤ pgSize := extent_le_of_plan hplan (by omega) htop
  have harglist : (intSizes c.args c.envs).arglist = extent c.args := wrap32_size_eq hargs
  have hkenvStart := kenvStart_eq hargv henvpNum harglist hn hm hargs c.top
  have henvs : extent c.envs ≤ pgSize := extent_le_of_plan hplan' (by omega) htop
  -- without an overflow the assertion has its meaning
  rw [intSizes_eq hargs henvs hn hm] at hok
  exact (ok_sizesOf_iff hargs henvs hn hm).1 hok

/-- **The arguments arrive** if and only if their true size passes the assertion, unless the name of the
process runs into the kernel buffer. -/
theorem roundTrips_iff (c : ExecCall) (other : ℕ → ℕ) (hname : c.NameClear) :
    c.RoundTrips other ↔ c.Fits := by
  constructor
  · rintro ⟨fuel, x, hrun, hx⟩
    have hfits := cutFits_of_exec hrun hx.buffer_in
    obtain ⟨hfuel, hfuel', -⟩ := exec_inv hrun
    -- the program finds what was copied, and the copies are whole
    obtain ⟨y, hy, hcut⟩ := exec_spec other hfits hfuel hfuel' hname
    obtain rfl : x = y := Option.some.inj (hrun.symm.trans hy)
    have hargs : c.args = c.args.map cut := hx.argv_at.unique hcut.argv_at
    have henvs : c.envs = c.envs.map cut := hx.envp_at.unique hcut.envp_at
    rw [Fits, hargs, henvs, size_map_cut, size_map_cut, List.length_map, List.length_map]
    exact hfits
  · intro hfits
    rw [Fits] at hfits
    have hargs : c.args.map cut = c.args := map_cut_eq_self (by omega)
    have henvs : c.envs.map cut = c.envs := map_cut_eq_self (by omega)
    have hcut : CutFits c.args c.envs := by
      rw [CutFits, ← size_map_cut, ← size_map_cut, hargs, henvs]
      exact hfits
    have hfuel : Enough (pgSize + 1) c.args := enough_of_size (by omega)
    have hfuel' : Enough (pgSize + 1) c.envs := enough_of_size (by omega)
    obtain ⟨x, hrun, hx⟩ := exec_spec other hcut hfuel hfuel' hname
    rw [hargs, henvs] at hx
    exact ⟨pgSize + 1, x, hrun, hx⟩

/-! ### An argument given many times -/

/-- `n` pointers to one string of `len` letters. -/
def repeatedMem (n len a : ℕ) : ℕ :=
  if 0x10000000 ≤ a ∧ a < 0x10000000 + 8 * n then if a % 8 = 3 then 0x20 else 0
  else if 0x20000000 ≤ a ∧ a < 0x20000000 + len then 97
  else 0

section Repeated

variable {n len : ℕ}

theorem load_repeatedMem {i : ℕ} (hi : i < n) :
    load (repeatedMem n len) 8 (0x10000000 + 8 * i) = 0x20000000 := by
  have hword : load (fun k => if k = 3 then 0x20 else 0) 8 0 = 0x20000000 := by decide
  rw [← hword]
  apply load_congr
  intro k hk
  rw [repeatedMem, if_pos (by omega), Nat.zero_add]
  congr 1
  rw [eq_iff_iff]
  omega

theorem strAt_repeatedMem (hn : n < 2 ^ 20) :
    StrAt (repeatedMem n len) 0x20000000 (List.replicate len 97) where
  bytes i hi := by
    rw [List.length_replicate] at hi
    rw [List.getElem_replicate, repeatedMem, if_neg (by omega), if_pos (by omega)]
  nonzero c hc := by
    rw [List.eq_of_mem_replicate hc]
    decide
  stop := by
    rw [List.length_replicate, repeatedMem, if_neg (by omega), if_neg (by omega)]

theorem strsAt_repeatedMem (hn : n < 2 ^ 20) (hlen : len < 2 ^ 28) {i : ℕ} (hi : i ≤ n) :
    StrsAt (repeatedMem n len) (fun a => a < 2 ^ 32) (0x10000000 + 8 * (n - i))
      (List.replicate i (List.replicate len 97)) := by
  induction i with
  | zero =>
    refine ⟨load_eq_zero fun k hk => ?_, fun k hk => by omega⟩
    rw [repeatedMem, if_neg (by omega), if_neg (by omega)]
  | succ i ih =>
    have hload : load (repeatedMem n len) 8 (0x10000000 + 8 * (n - (i + 1))) = 0x20000000 :=
      load_repeatedMem (by omega)
    have hnext : 0x10000000 + 8 * (n - (i + 1)) + 8 = 0x10000000 + 8 * (n - i) := by omega
    rw [List.replicate_succ, StrsAt, hload, hnext]
    refine ⟨by decide, fun k hk => by omega, strAt_repeatedMem hn, fun k hk => ?_, ih (by omega)⟩
    rw [List.length_replicate] at hk
    omega

theorem foreign_of_lt {args : List (List ℕ)} {a : ℕ} (ha : a < 2 ^ 32) :
    Foreign 0xffffffff80300000 0xffffffff80200000 args a := by
  refine ⟨?_, fun s _ => ?_⟩
  · rw [InPage]
    omega
  · omega

/-- The call with `n` pointers to one string of `len` letters, and no environment. -/
def repeated (n len : ℕ) (hn : n < 2 ^ 20) (hlen : len < 2 ^ 28) : ExecCall where
  mem := repeatedMem n len
  kbuf := 0xffffffff80300000
  task := 0xffffffff80200000
  argv := 0x10000000
  envp := 0x30000000
  args := List.replicate n (List.replicate len 97)
  envs := []
  kernel := by decide
  top := by decide
  zero a ha := by
    have hlow := ha.1
    rw [repeatedMem, if_neg (by omega), if_neg (by omega)]
  argv_at := by
    have hstrs := strsAt_repeatedMem hn hlen (Nat.le_refl n)
    rw [Nat.sub_self] at hstrs
    exact hstrs.mono fun a => foreign_of_lt
  envp_at := by
    refine ⟨load_eq_zero fun k hk => ?_, fun k hk => foreign_of_lt (by omega)⟩
    rw [repeatedMem, if_neg (by omega), if_neg (by omega)]

theorem size_replicate (n : ℕ) (s : List ℕ) : size (List.replicate n s) = n * (s.length + 1) := by
  induction n with
  | zero => rw [Nat.zero_mul]; rfl
  | succ n ih =>
    rw [List.replicate_succ, size, ih]
    ring

theorem intSizes_repeated (hn : n < 2 ^ 20) (hlen : len < 2 ^ 28) :
    intSizes (repeated n len hn hlen).args (repeated n len hn hlen).envs =
      ⟨wrap32 ((n * (len + 1) : ℕ)), 0, wrap32 (n + 1), 1⟩ := by
  have hargs : (repeated n len hn hlen).args = List.replicate n (List.replicate len 97) := rfl
  have henvs : (repeated n len hn hlen).envs = [] := rfl
  rw [hargs, henvs, intSizes, size_replicate, List.length_replicate, List.length_replicate]
  rfl

end Repeated

/-- Two short arguments arrive. -/
theorem roundTrips_repeated :
    (repeated 2 3 (by decide) (by decide)).NameClear ∧
      (repeated 2 3 (by decide) (by decide)).RoundTrips fun _ => 0 := by
  have hname : (repeated 2 3 (by decide) (by decide)).NameClear := by
    intro s hs
    obtain rfl : List.replicate 3 97 = s := Option.some.inj hs
    decide
  refine ⟨hname, (roundTrips_iff _ _ hname).2 ?_⟩
  decide

/-- 65536 pointers to one string of 65527 letters: their size in an `int` is negative, so that the
assertion passes, and the copy runs over the kernel buffer. -/
theorem roundTrips_fails :
    (repeated 65536 65527 (by decide) (by decide)).Asserted ∧
      ¬ (repeated 65536 65527 (by decide) (by decide)).RoundTrips fun _ => 0 := by
  set c := repeated 65536 65527 (by decide) (by decide)
  constructor
  · have hargs : Enough (size c.args + 1) c.args := enough_of_size (Nat.lt_succ_self _)
    have henvs : Enough (size c.args + 1) c.envs := enough_of_size (Nat.succ_pos _)
    refine ⟨_, _, getSizes_eq c.argv_at c.envp_at hargs henvs, ?_⟩
    rw [intSizes_repeated]
    decide
  · rintro ⟨fuel, x, hrun, hx⟩
    have hfits := cutFits_of_exec hrun hx.buffer_in
    rw [CutFits] at hfits
    have hlen : c.args.length = 65536 := List.length_replicate
    rw [hlen] at hfits
    unfold pgSize at hfits
    omega

end ExecCall

end PlumOs.Args
