import PlumOs.Lib.CStr
import PlumOs.Lib.Traced
import PlumOs.Libc.Numbers

/-!
# Scanning a format (`sys/printf.c`, `libc/printf.c`)

`vsprintf` moves a pointer over the format and tests each byte for the 0 that ends it, except for the
byte behind `%l`.  The kernel and libc differ in the directives they know only.  A call leaves a trace of
the bytes of the format that it reads and of the characters that it stores.

* `Dialect`, `kernelDialect`, `libcDialect` : the directives;
* `scan` : the loop of `vsprintf`, and `scan_eq` what one turn does;
* `StopsAtNul` : a call that comes back, reads nothing behind the 0, and stores no 0 of its own;
* `stopsAtNul_iff` : **both versions do this exactly for the formats that do not end in the directive
  `%l`**;
* `scan_libc` : the trace of libc's version stores what `vsprintf` says.
-/

namespace PlumOs

/-! ### The loop of `vsprintf` -/

/-- What a call does with the format and with `str`. -/
inductive FmtEvent where
  /-- The byte at an address is read. -/
  | read (addr : ℕ)
  /-- A character is stored. -/
  | store (c : ℕ)
  /-- The argument of a `%c` is stored. -/
  | storeArg (c : ℕ)
  deriving DecidableEq, Repr

/-- Why a call has no result: there is no argument for a directive, or the loop goes on. -/
inductive FmtStop where
  | noArg
  | runaway
  deriving DecidableEq, Repr

/-- What a directive does with its argument. -/
inductive Conv where
  | char
  | str
  | int
  | hex
  | pointer
  | unsigned
  deriving DecidableEq, Repr

/-- The directives of a version. -/
structure Dialect where
  /-- The directives with the character behind `%`, other than `l`. -/
  plain : ℕ → Option Conv
  /-- The directives with the character behind `%l`. -/
  long : ℕ → Option Conv
  /-- What is stored for `%l` if the directive is not known. -/
  stray : List ℕ
  /-- A 0 is no directive. -/
  long_zero : long 0 = none

/-- `%c`, `%s`, `%d`, `%x`, `%p`, `%lx` and `%lu`. -/
def kernelDialect : Dialect where
  plain c := if c = 99 then some .char else if c = 115 then some .str else if c = 100 then some .int
    else if c = 120 then some .hex else if c = 112 then some .pointer else none
  long c := if c = 120 then some .hex else if c = 117 then some .unsigned else none
  stray := [37, 108]
  long_zero := rfl

/-- `%c`, `%s`, `%d` and `%lx`. -/
def libcDialect : Dialect where
  plain c := if c = 99 then some .char else if c = 115 then some .str else if c = 100 then some .int
    else none
  long c := if c = 120 then some .hex else none
  stray := [108]
  long_zero := rfl

/-- The stores of a directive with its argument. -/
def Conv.stores : Conv → PrintfArg → Option (List FmtEvent)
  | .char, .char c => some [.storeArg (c % 256)]
  | .str, .str none => some ([60, 110, 117, 108, 108, 62].map .store)
  | .str, .str (some bytes) => (stringIn bytes).map (List.map .store)
  | .int, .int n => some ((intToString n).map .store)
  | .hex, .hex ull => some ((longlongToHexstring ull).map .store)
  | .pointer, .hex ull => some ((48 :: 120 :: longlongToHexstring ull).map .store)
  | .unsigned, .hex ull => some ((longlongToString ull).map .store)
  | _, _ => none

/-- The stores of a directive, or of the characters `text` if it is not known, and the arguments left. -/
def takeArg (conv : Option Conv) (text : List ℕ) (ap : List PrintfArg) :
    Option (List FmtEvent × List PrintfArg) :=
  match conv, ap with
  | none, ap => some (text.map .store, ap)
  | some conv, arg :: ap => (conv.stores arg).map fun events => (events, ap)
  | some _, [] => none

/-- The directive with the character `c` behind `%`. -/
def Dialect.plainArg (d : Dialect) (c : ℕ) : List PrintfArg → Option (List FmtEvent × List PrintfArg) :=
  takeArg (d.plain c) [37, c]

/-- The directive with the character `c` behind `%l`. -/
def Dialect.longArg (d : Dialect) (c : ℕ) : List PrintfArg → Option (List FmtEvent × List PrintfArg) :=
  takeArg (d.long c) (d.stray ++ [c])

/-- `c = *fmt++`. -/
def readByte (mem : ℕ → ℕ) (fmt : ℕ) : Traced FmtStop FmtEvent ℕ := .use (.read fmt) (mem fmt)

/-- The loops of `vsprintf` from the byte at `fmt` on, where `idx` characters are stored already. -/
def scan (d : Dialect) (mem : ℕ → ℕ) : ℕ → ℕ → List PrintfArg → ℕ → Traced FmtStop FmtEvent ℕ
  | 0, _, _, _ => .lift (.error .runaway)
  | fuel + 1, fmt, ap, idx => do
    let c ← readByte mem fmt
    if c = 0 then pure idx
    else if c ≠ 37 then do
      .trace [.store c]
      scan d mem fuel (fmt + 1) ap (idx + 1)
    else do
      let c ← readByte mem (fmt + 1)
      if c = 0 then pure idx
      else if c = 108 then do
        -- this byte is not tested
        let c ← readByte mem (fmt + 2)
        match d.longArg c ap with
        | none => .lift (.error .noArg)
        | some (events, ap) => do
          .trace events
          scan d mem fuel (fmt + 3) ap (idx + events.length)
      else
        match d.plainArg c ap with
        | none => .lift (.error .noArg)
        | some (events, ap) => do
          .trace events
          scan d mem fuel (fmt + 2) ap (idx + events.length)

/-- `vsprintf` of the kernel. -/
def kernelVsprintf (mem : ℕ → ℕ) (fuel fmt : ℕ) (ap : List PrintfArg) : Traced FmtStop FmtEvent ℕ :=
  scan kernelDialect mem fuel fmt ap 0

/-- `vsprintf` of libc. -/
def libcVsprintf (mem : ℕ → ℕ) (fuel fmt : ℕ) (ap : List PrintfArg) : Traced FmtStop FmtEvent ℕ :=
  scan libcDialect mem fuel fmt ap 0

/-! ### Formats and arguments -/

/-- An argument as the caller passes it: a string is ended in its object, numbers have their width. -/
def PrintfArg.Proper : PrintfArg → Prop
  | .char c => c < 2 ^ 32
  | .str none => True
  | .str (some bytes) => 0 ∈ bytes
  | .int n => -2 ^ 31 ≤ n ∧ n < 2 ^ 31
  | .hex ull => ull < 2 ^ 64

/-- There is an argument of its kind for each directive of the format. -/
def Suffices (d : Dialect) : List ℕ → List PrintfArg → Prop
  | [], _ => True
  | [_], _ => True
  | c :: e :: fmt, ap =>
    if c ≠ 37 then Suffices d (e :: fmt) ap
    else if e = 108 then
      match fmt with
      | [] => True
      | g :: fmt =>
        match d.longArg g ap with
        | none => False
        | some (_, ap) => Suffices d fmt ap
    else
      match d.plainArg e ap with
      | none => False
      | some (_, ap) => Suffices d fmt ap

section

variable {d : Dialect} {c e g : ℕ} {fmt : List ℕ} {ap : List PrintfArg}

theorem suffices_char (hc : c ≠ 37) : Suffices d (c :: e :: fmt) ap ↔ Suffices d (e :: fmt) ap := by
  conv_lhs => unfold Suffices
  rw [if_pos hc]

theorem suffices_long : Suffices d (37 :: 108 :: g :: fmt) ap ↔
    ∃ events ap', d.longArg g ap = some (events, ap') ∧ Suffices d fmt ap' := by
  conv_lhs => unfold Suffices
  rw [if_neg (not_not.2 rfl), if_pos rfl]
  dsimp only
  cases d.longArg g ap with
  | none => simp
  | some out => obtain ⟨events, ap'⟩ := out; simp

theorem suffices_plain (he : e ≠ 108) : Suffices d (37 :: e :: fmt) ap ↔
    ∃ events ap', d.plainArg e ap = some (events, ap') ∧ Suffices d fmt ap' := by
  conv_lhs => unfold Suffices
  rw [if_neg (not_not.2 rfl), if_neg he]
  cases d.plainArg e ap with
  | none => simp
  | some out => obtain ⟨events, ap'⟩ := out; simp

end

/-- The last directive of the format is a `%l` without a character behind it. -/
def endsInLong : List ℕ → Bool
  | [] => false
  | [_] => false
  | c :: e :: fmt =>
    if c ≠ 37 then endsInLong (e :: fmt)
    else if e = 108 then
      match fmt with
      | [] => true
      | _ :: fmt => endsInLong fmt
    else endsInLong fmt

/-- A byte that may be read if the format ends at `last`, and a character that may be stored. -/
def FmtEvent.Within (last : ℕ) : FmtEvent → Prop
  | .read addr => addr ≤ last
  | .store c => c ≠ 0
  | .storeArg _ => True

/-- The calls with enough turns come back, and whatever a call does is within the format and its
directives. -/
def StopsAtNul (last : ℕ) (call : ℕ → Traced FmtStop FmtEvent ℕ) : Prop :=
  (∃ turns n, ∀ fuel, turns ≤ fuel → (call fuel).result = .ok n) ∧
    ∀ fuel, ∀ e ∈ (call fuel).uses, e.Within last

variable {d : Dialect} {mem : ℕ → ℕ} {fuel addr idx last : ℕ} {fmt text : List ℕ}
  {ap ap' : List PrintfArg} {events : List FmtEvent}

/-! ### One turn -/

theorem scan_end (h : mem addr = 0) : scan d mem (fuel + 1) addr ap idx = ⟨[.read addr], .ok idx⟩ := by
  rw [scan, readByte, Traced.use_bind, if_pos h]
  rfl

/-- A character other than `%`. -/
theorem scan_char (h0 : mem addr ≠ 0) (h37 : mem addr ≠ 37) : scan d mem (fuel + 1) addr ap idx =
    (scan d mem fuel (addr + 1) ap (idx + 1)).after [.read addr, .store (mem addr)] := by
  rw [scan, readByte, Traced.use_bind, if_neg h0, if_pos h37, Traced.trace_bind, Traced.after_after]
  rfl

/-- A `%` at the end. -/
theorem scan_percent (h37 : mem addr = 37) (h0 : mem (addr + 1) = 0) :
    scan d mem (fuel + 1) addr ap idx = ⟨[.read addr, .read (addr + 1)], .ok idx⟩ := by
  rw [scan, readByte, Traced.use_bind, if_neg (by rw [h37]; decide), if_neg (not_not.2 h37), readByte,
    Traced.use_bind, if_pos h0]
  rfl

/-- A directive without `l`. -/
theorem scan_plain (h37 : mem addr = 37) (h0 : mem (addr + 1) ≠ 0) (h108 : mem (addr + 1) ≠ 108)
    (harg : d.plainArg (mem (addr + 1)) ap = some (events, ap')) :
    scan d mem (fuel + 1) addr ap idx = (scan d mem fuel (addr + 2) ap' (idx + events.length)).after
      ([.read addr, .read (addr + 1)] ++ events) := by
  rw [scan, readByte, Traced.use_bind, if_neg (by rw [h37]; decide), if_neg (not_not.2 h37), readByte,
    Traced.use_bind, if_neg h0, if_neg h108, harg]
  change Traced.after _ (Traced.after _ (Traced.after events _)) = _
  rw [Traced.after_after, Traced.after_after]
  rfl

/-- A directive with `l`, whose third byte may be the end of the format. -/
theorem scan_long (h37 : mem addr = 37) (h108 : mem (addr + 1) = 108)
    (harg : d.longArg (mem (addr + 2)) ap = some (events, ap')) :
    scan d mem (fuel + 1) addr ap idx = (scan d mem fuel (addr + 3) ap' (idx + events.length)).after
      ([.read addr, .read (addr + 1), .read (addr + 2)] ++ events) := by
  rw [scan, readByte, Traced.use_bind, if_neg (by rw [h37]; decide), if_neg (not_not.2 h37), readByte,
    Traced.use_bind, if_neg (by rw [h108]; decide), if_pos h108, readByte, Traced.use_bind, harg]
  change Traced.after _ (Traced.after _ (Traced.after _ (Traced.after events _))) = _
  rw [Traced.after_after, Traced.after_after, Traced.after_after]
  rfl

/-! ### What is stored -/

theorem ne_zero_of_mem_intToString {n : ℤ} (h₁ : -2 ^ 31 ≤ n) (h₂ : n < 2 ^ 31) {c : ℕ}
    (hc : c ∈ intToString n) : c ≠ 0 := by
  have hwrites : Writes (intToStringIn (fun _ => 0) n) (intToString n) := intToStringIn_intToString h₁ h₂
  obtain ⟨b, -, hs, -⟩ := hwrites
  exact hs.ne_zero hc

/-- A directive stores no 0, unless it is the argument of a `%c`. -/
theorem Conv.stores_within {conv : Conv} {arg : PrintfArg} (ha : arg.Proper)
    (h : conv.stores arg = some events) : ∀ e ∈ events, e.Within last := by
  have hmap : ∀ {s : List ℕ}, (∀ c ∈ s, c ≠ 0) → ∀ e ∈ s.map FmtEvent.store, e.Within last := by
    intro s hs e he
    obtain ⟨c, hc, rfl⟩ := List.mem_map.1 he
    exact hs c hc
  unfold Conv.stores at h
  split at h
  · cases h
    intro e he
    rw [List.mem_singleton.1 he]
    trivial
  · cases h
    exact hmap (by decide)
  · obtain ⟨s, hs, rfl⟩ := Option.map_eq_some_iff.1 h
    refine hmap fun c hc hzero => ?_
    exact (stringIn_eq_some hs).1 (hzero ▸ hc)
  · cases h
    exact hmap fun c => ne_zero_of_mem_intToString ha.1 ha.2
  · cases h
    rw [longlongToHexstring_eq ha]
    exact hmap fun c => ne_zero_of_mem_hexadecimal
  · cases h
    rw [longlongToHexstring_eq ha]
    refine hmap fun c hc => ?_
    rcases List.mem_cons.1 hc with rfl | hc
    · decide
    · rcases List.mem_cons.1 hc with rfl | hc
      · decide
      · exact ne_zero_of_mem_hexadecimal hc
  · cases h
    rw [longlongToString_eq ha]
    exact hmap fun c => ne_zero_of_mem_decimalDigits
  · cases h

theorem takeArg_within {conv : Option Conv} (hap : ∀ a ∈ ap, a.Proper) (htext : ∀ c ∈ text, c ≠ 0)
    (h : takeArg conv text ap = some (events, ap')) :
    (∀ e ∈ events, e.Within last) ∧ ∀ a ∈ ap', a.Proper := by
  unfold takeArg at h
  split at h
  · cases h
    refine ⟨fun e he => ?_, hap⟩
    obtain ⟨c, hc, rfl⟩ := List.mem_map.1 he
    exact htext c hc
  · obtain ⟨events', hstores, heq⟩ := Option.map_eq_some_iff.1 h
    cases heq
    exact ⟨Conv.stores_within (hap _ List.mem_cons_self) hstores,
      fun a ha => hap a (List.mem_cons_of_mem _ ha)⟩
  · cases h

/-! ### The whole format -/

theorem Dialect.plainArg_within {c : ℕ} (hap : ∀ a ∈ ap, a.Proper) (hc : c ≠ 0)
    (h : d.plainArg c ap = some (events, ap')) :
    (∀ e ∈ events, e.Within last) ∧ ∀ a ∈ ap', a.Proper := by
  refine takeArg_within hap (fun x hx => ?_) h
  rcases List.mem_cons.1 hx with rfl | hx
  · decide
  · rwa [List.mem_singleton.1 hx]

theorem Dialect.longArg_within {c : ℕ} (hap : ∀ a ∈ ap, a.Proper) (hstray : ∀ x ∈ d.stray, x ≠ 0)
    (hc : c ≠ 0) (h : d.longArg c ap = some (events, ap')) :
    (∀ e ∈ events, e.Within last) ∧ ∀ a ∈ ap', a.Proper := by
  refine takeArg_within hap (fun x hx => ?_) h
  rcases List.mem_append.1 hx with hx | hx
  · exact hstray x hx
  · rwa [List.mem_singleton.1 hx]

/-- The calls with more than `len` turns come back, and what a call does is within the format. -/
def EndsWithin (last len : ℕ) (call : ℕ → Traced FmtStop FmtEvent ℕ) : Prop :=
  ∃ n, ∀ fuel, (len < fuel → (call fuel).result = .ok n) ∧ ∀ e ∈ (call fuel).uses, e.Within last

/-- A scan whose first turn is its last one. -/
theorem endsWithin_done {len : ℕ} {is : List FmtEvent}
    (hstep : ∀ fuel, scan d mem (fuel + 1) addr ap idx = ⟨is, .ok idx⟩) (his : ∀ e ∈ is, e.Within last) :
    EndsWithin last len fun fuel => scan d mem fuel addr ap idx := by
  refine ⟨idx, fun fuel => ?_⟩
  cases fuel with
  | zero => exact ⟨fun hlt => absurd hlt (Nat.not_lt_zero _), fun e he => absurd he List.not_mem_nil⟩
  | succ fuel =>
    simp only [hstep]
    exact ⟨fun _ => trivial, his⟩

/-- A scan that goes on with a shorter format. -/
theorem EndsWithin.after {len len' addr' idx' : ℕ} {is : List FmtEvent}
    (h : EndsWithin last len' fun fuel => scan d mem fuel addr' ap' idx') (hlen : len' < len)
    (hstep : ∀ fuel, scan d mem (fuel + 1) addr ap idx = (scan d mem fuel addr' ap' idx').after is)
    (his : ∀ e ∈ is, e.Within last) : EndsWithin last len fun fuel => scan d mem fuel addr ap idx := by
  obtain ⟨n, hn⟩ := h
  refine ⟨n, fun fuel => ?_⟩
  cases fuel with
  | zero => exact ⟨fun hlt => absurd hlt (Nat.not_lt_zero _), fun e he => absurd he List.not_mem_nil⟩
  | succ fuel =>
    simp only [hstep, Traced.result_after, Traced.uses_after]
    refine ⟨fun hlt => (hn fuel).1 (by omega), fun e he => ?_⟩
    rcases List.mem_append.1 he with he | he
    · exact his e he
    · exact (hn fuel).2 e he

theorem forall_within_cons {e : FmtEvent} {is : List FmtEvent} (he : e.Within last)
    (his : ∀ e ∈ is, e.Within last) : ∀ e' ∈ e :: is, e'.Within last :=
  List.forall_mem_cons.2 ⟨he, his⟩

theorem forall_within_nil : ∀ e ∈ ([] : List FmtEvent), e.Within last := List.forall_mem_nil _

/-- **The scan of a format that does not end in `%l`** comes back, and what it does is within the format. -/
theorem scan_within (hstray : ∀ x ∈ d.stray, x ≠ 0) (h : StrAt mem addr fmt)
    (hlast : addr + fmt.length = last) (hap : ∀ a ∈ ap, a.Proper) (hs : Suffices d fmt ap)
    (hend : endsInLong fmt = false) :
    EndsWithin last fmt.length fun fuel => scan d mem fuel addr ap idx := by
  fun_induction endsInLong fmt generalizing addr ap idx with
  | case1 =>
    have hstop : mem addr = 0 := h.stop
    exact endsWithin_done (fun _ => scan_end hstop)
      (forall_within_cons (Nat.le_of_eq hlast) forall_within_nil)
  | case2 c =>
    obtain ⟨hc, hc0⟩ := h.head
    have hstop : mem (addr + 1) = 0 := h.tail.stop
    have hlast' : addr + 1 = last := hlast
    have hread : (FmtEvent.read addr).Within last := show addr ≤ last by omega
    have hread' : (FmtEvent.read (addr + 1)).Within last := show addr + 1 ≤ last by omega
    by_cases h37 : c = 37
    · exact endsWithin_done (fun _ => scan_percent (hc.trans h37) hstop)
        (forall_within_cons hread (forall_within_cons hread' forall_within_nil))
    · have hrest : EndsWithin last 0 fun fuel => scan d mem fuel (addr + 1) ap (idx + 1) :=
        endsWithin_done (fun _ => scan_end hstop) (forall_within_cons hread' forall_within_nil)
      exact hrest.after Nat.zero_lt_one (fun _ => scan_char (hc ▸ hc0) (hc ▸ h37))
        (forall_within_cons hread (forall_within_cons (hc ▸ hc0) forall_within_nil))
  | case3 c e fmt h37 ih =>
    obtain ⟨hc, hc0⟩ := h.head
    rw [List.length_cons] at hlast
    have hrest : EndsWithin last (e :: fmt).length fun fuel => scan d mem fuel (addr + 1) ap (idx + 1) :=
      ih h.tail (by omega) hap ((suffices_char h37).1 hs) hend
    exact hrest.after (Nat.lt_succ_self _) (fun _ => scan_char (hc ▸ hc0) (hc ▸ h37))
      (forall_within_cons (show addr ≤ last by omega) (forall_within_cons (hc ▸ hc0) forall_within_nil))
  | case4 => cases hend
  | case5 c h37 g fmt ih =>
    obtain rfl : c = 37 := not_not.1 h37
    obtain ⟨hc, -⟩ := h.head
    obtain ⟨he, -⟩ := h.tail.head
    obtain ⟨hg, hg0⟩ := h.tail.tail.head
    simp only [List.length_cons] at hlast
    obtain ⟨events, ap', harg, hs⟩ := suffices_long.1 hs
    obtain ⟨hevents, hap'⟩ : (∀ e ∈ events, e.Within last) ∧ ∀ a ∈ ap', a.Proper :=
      d.longArg_within hap hstray hg0 harg
    have hrest : EndsWithin last fmt.length fun fuel =>
        scan d mem fuel (addr + 3) ap' (idx + events.length) :=
      ih h.tail.tail.tail (by omega) hap' hs hend
    refine hrest.after (by simp only [List.length_cons]; omega) (fun _ => scan_long hc he (hg ▸ harg)) ?_
    exact forall_within_cons (show addr ≤ last by omega)
      (forall_within_cons (show addr + 1 ≤ last by omega)
        (forall_within_cons (show addr + 2 ≤ last by omega) hevents))
  | case6 c e fmt h37 h108 ih =>
    obtain rfl : c = 37 := not_not.1 h37
    obtain ⟨hc, -⟩ := h.head
    obtain ⟨he, he0⟩ := h.tail.head
    simp only [List.length_cons] at hlast
    obtain ⟨events, ap', harg, hs⟩ := (suffices_plain h108).1 hs
    obtain ⟨hevents, hap'⟩ : (∀ e ∈ events, e.Within last) ∧ ∀ a ∈ ap', a.Proper :=
      d.plainArg_within hap he0 harg
    have hrest : EndsWithin last fmt.length fun fuel =>
        scan d mem fuel (addr + 2) ap' (idx + events.length) :=
      ih h.tail.tail (by omega) hap' hs hend
    refine hrest.after (by simp only [List.length_cons]; omega)
      (fun _ => scan_plain hc (he ▸ he0) (he ▸ h108) (he ▸ harg)) ?_
    exact forall_within_cons (show addr ≤ last by omega)
      (forall_within_cons (show addr + 1 ≤ last by omega) hevents)

/-- Every scan reads the byte that it starts at. -/
theorem read_mem_scan (d : Dialect) (mem : ℕ → ℕ) (fuel addr : ℕ) (ap : List PrintfArg) (idx : ℕ) :
    .read addr ∈ (scan d mem (fuel + 1) addr ap idx).uses := by
  rw [scan, readByte, Traced.use_bind, Traced.uses_after]
  exact List.mem_append_left _ List.mem_cons_self

/-- **The scan of a format that ends in `%l`** reads the byte behind its 0. -/
theorem scan_reads_behind (h : StrAt mem addr fmt) (hs : Suffices d fmt ap)
    (hend : endsInLong fmt = true) (hlast : addr + fmt.length = last) (hfuel : fmt.length ≤ fuel) :
    .read (last + 1) ∈ (scan d mem fuel addr ap idx).uses := by
  fun_induction endsInLong fmt generalizing addr ap idx fuel with
  | case1 => cases hend
  | case2 c => cases hend
  | case3 c e fmt h37 ih =>
    obtain ⟨hc, hc0⟩ := h.head
    rw [List.length_cons] at hlast hfuel
    obtain ⟨fuel, rfl⟩ : ∃ k, fuel = k + 1 := ⟨fuel - 1, by omega⟩
    rw [scan_char (hc ▸ hc0) (hc ▸ h37), Traced.uses_after]
    exact List.mem_append_right _
      (ih h.tail ((suffices_char h37).1 hs) hend (by omega) (by omega))
  | case4 c h37 =>
    obtain rfl : c = 37 := not_not.1 h37
    obtain ⟨hc, -⟩ := h.head
    obtain ⟨he, -⟩ := h.tail.head
    have hstop : mem (addr + 2) = 0 := h.tail.tail.stop
    simp only [List.length_cons, List.length_nil] at hlast hfuel
    obtain ⟨fuel, rfl⟩ : ∃ k, fuel = k + 2 := ⟨fuel - 2, by omega⟩
    -- the 0 is taken for the character behind `%l`
    have harg : d.longArg (mem (addr + 2)) ap = some ((d.stray ++ [0]).map .store, ap) := by
      rw [hstop, Dialect.longArg, d.long_zero, takeArg]
    rw [scan_long hc he harg, Traced.uses_after, show last + 1 = addr + 3 by omega]
    exact List.mem_append_right _ (read_mem_scan d mem fuel (addr + 3) ap _)
  | case5 c h37 g fmt ih =>
    obtain rfl : c = 37 := not_not.1 h37
    obtain ⟨hc, -⟩ := h.head
    obtain ⟨he, -⟩ := h.tail.head
    obtain ⟨hg, -⟩ := h.tail.tail.head
    simp only [List.length_cons] at hlast hfuel
    obtain ⟨fuel, rfl⟩ : ∃ k, fuel = k + 1 := ⟨fuel - 1, by omega⟩
    obtain ⟨events, ap', harg, hs⟩ := suffices_long.1 hs
    rw [scan_long hc he (hg ▸ harg), Traced.uses_after]
    exact List.mem_append_right _ (ih h.tail.tail.tail hs hend (by omega) (by omega))
  | case6 c e fmt h37 h108 ih =>
    obtain rfl : c = 37 := not_not.1 h37
    obtain ⟨hc, -⟩ := h.head
    obtain ⟨he, he0⟩ := h.tail.head
    simp only [List.length_cons] at hlast hfuel
    obtain ⟨fuel, rfl⟩ : ∃ k, fuel = k + 1 := ⟨fuel - 1, by omega⟩
    obtain ⟨events, ap', harg, hs⟩ := (suffices_plain h108).1 hs
    rw [scan_plain hc (he ▸ he0) (he ▸ h108) (he ▸ harg), Traced.uses_after]
    exact List.mem_append_right _ (ih h.tail.tail hs hend (by omega) (by omega))

/-- A version stops at the 0 exactly if the format does not end in `%l`. -/
theorem scan_stopsAtNul_iff (hstray : ∀ x ∈ d.stray, x ≠ 0) (h : StrAt mem addr fmt)
    (hap : ∀ a ∈ ap, a.Proper) (hs : Suffices d fmt ap) :
    (StopsAtNul (addr + fmt.length) fun fuel => scan d mem fuel addr ap idx) ↔
      endsInLong fmt = false := by
  constructor
  · intro hstops
    rw [← Bool.not_eq_true]
    intro hend
    have hread : .read (addr + fmt.length + 1) ∈ (scan d mem fmt.length addr ap idx).uses :=
      scan_reads_behind h hs hend rfl (Nat.le_refl _)
    exact absurd (hstops.2 _ _ hread) (Nat.not_succ_le_self _)
  · intro hend
    obtain ⟨n, hn⟩ : EndsWithin (addr + fmt.length) fmt.length fun fuel => scan d mem fuel addr ap idx :=
      scan_within hstray h rfl hap hs hend
    exact ⟨⟨fmt.length + 1, n, fun fuel hle => (hn fuel).1 hle⟩, fun fuel => (hn fuel).2⟩

/-- **Both versions of `vsprintf` stop at the end of the format exactly if it does not end in `%l`**,
whatever stands behind it in memory and whatever the arguments are. -/
theorem stopsAtNul_iff (h : StrAt mem addr fmt) (hap : ∀ a ∈ ap, a.Proper) :
    (Suffices kernelDialect fmt ap →
        (StopsAtNul (addr + fmt.length) (fun fuel => kernelVsprintf mem fuel addr ap) ↔
          endsInLong fmt = false)) ∧
      (Suffices libcDialect fmt ap →
        (StopsAtNul (addr + fmt.length) (fun fuel => libcVsprintf mem fuel addr ap) ↔
          endsInLong fmt = false)) :=
  ⟨scan_stopsAtNul_iff (by decide) h hap, scan_stopsAtNul_iff (by decide) h hap⟩

/-- The memory that holds a text at address 0, and 0 behind it. -/
def memoryOf (text : List ℕ) (addr : ℕ) : ℕ := text.getD addr 0

theorem strAt_memoryOf (hnonzero : ∀ c ∈ text, c ≠ 0) : StrAt (memoryOf text) 0 text where
  bytes i hi := by simp [memoryOf, hi]
  nonzero := hnonzero
  stop := by simp [memoryOf]

/-- The format `n=%d`. -/
theorem stopsAtNul_iff_number :
    StopsAtNul 4 (fun fuel => kernelVsprintf (memoryOf [110, 61, 37, 100]) fuel 0 [.int (-3)]) ∧
      StopsAtNul 4 (fun fuel => libcVsprintf (memoryOf [110, 61, 37, 100]) fuel 0 [.int (-3)]) := by
  have hproper : ∀ a ∈ [PrintfArg.int (-3)], a.Proper := by
    intro a ha
    rw [List.mem_singleton.1 ha]
    exact ⟨by decide, by decide⟩
  have hformat : StrAt (memoryOf [110, 61, 37, 100]) 0 [110, 61, 37, 100] := strAt_memoryOf (by decide)
  have hboth := stopsAtNul_iff hformat hproper
  exact ⟨(hboth.1 (by simp [Suffices, Dialect.plainArg, takeArg, kernelDialect, Conv.stores])).2 rfl,
    (hboth.2 (by simp [Suffices, Dialect.plainArg, takeArg, libcDialect, Conv.stores])).2 rfl⟩

/-- The format `%l`, which needs no argument. -/
theorem stopsAtNul_fails :
    ¬ StopsAtNul 2 (fun fuel => kernelVsprintf (memoryOf [37, 108]) fuel 0 []) ∧
      ¬ StopsAtNul 2 (fun fuel => libcVsprintf (memoryOf [37, 108]) fuel 0 []) := by
  have hformat : StrAt (memoryOf [37, 108]) 0 [37, 108] := strAt_memoryOf (by decide)
  have hread : ∀ d, .read 3 ∈ (scan d (memoryOf [37, 108]) 2 0 [] 0).uses := fun d =>
    scan_reads_behind hformat (by simp [Suffices]) rfl rfl (Nat.le_refl _)
  constructor <;> exact fun hstops => absurd (hstops.2 2 _ (hread _)) (Nat.not_succ_le_self 2)

/-! ### What libc's version stores -/

/-- The character that is stored. -/
def FmtEvent.stored : FmtEvent → Option ℕ
  | .read _ => none
  | .store c => some c
  | .storeArg c => some c

theorem filterMap_stored_map (s : List ℕ) : (s.map FmtEvent.store).filterMap FmtEvent.stored = s := by
  induction s with
  | nil => rfl
  | cons c s ih => exact congrArg (c :: ·) ih

/-- What a directive stores, and the arguments left. -/
def storedBy (out : List FmtEvent × List PrintfArg) : List ℕ × List PrintfArg :=
  (out.1.filterMap FmtEvent.stored, out.2)

theorem storedBy_map (s : List ℕ) (ap : List PrintfArg) : storedBy (s.map .store, ap) = (s, ap) :=
  congrArg (Prod.mk · ap) (filterMap_stored_map s)

/-- `directive` has the directives of libc. -/
theorem directive_eq (e : ℕ) (ap : List PrintfArg) :
    directive e ap = (libcDialect.plainArg e ap).map storedBy := by
  by_cases h99 : e = 99
  · subst h99
    cases ap with
    | nil => rfl
    | cons arg ap => cases arg <;> rfl
  by_cases h115 : e = 115
  · subst h115
    cases ap with
    | nil => rfl
    | cons arg ap =>
      cases arg with
      | str s =>
        cases s with
        | none => rfl
        | some bytes =>
          have harg : libcDialect.plainArg 115 (.str (some bytes) :: ap) =
              ((stringIn bytes).map (List.map FmtEvent.store)).map fun events => (events, ap) := rfl
          rw [harg, Option.map_map, Option.map_map]
          exact congrArg (Option.map · _) (funext fun s => (storedBy_map s ap).symm)
      | char c => rfl
      | int n => rfl
      | hex ull => rfl
  by_cases h100 : e = 100
  · subst h100
    cases ap with
    | nil => rfl
    | cons arg ap =>
      cases arg with
      | int n => exact congrArg some (storedBy_map (intToString n) ap).symm
      | char c => rfl
      | str s => rfl
      | hex ull => rfl
  have hnone : libcDialect.plain e = none := by simp [libcDialect, h99, h115, h100]
  have hdir : directive e ap = some ([37, e], ap) := by
    unfold directive
    split <;> first | rfl | contradiction
  rw [hdir, Dialect.plainArg, hnone, takeArg, Option.map_some, storedBy_map]

/-- A directive with `l`, as `vsprintf` has it. -/
theorem vsprintf_long {g : ℕ} : vsprintf (37 :: 108 :: g :: fmt) ap =
    ((libcDialect.longArg g ap).map storedBy).bind fun out => (vsprintf fmt out.2).map (out.1 ++ ·) := by
  conv_lhs => unfold vsprintf
  rw [if_neg (by decide), if_pos rfl]
  by_cases hg : g = 120
  · subst hg
    cases ap with
    | nil => rfl
    | cons arg ap =>
      cases arg with
      | hex ull =>
        have harg : libcDialect.longArg 120 (.hex ull :: ap) =
            some ((longlongToHexstring ull).map .store, ap) := rfl
        rw [harg, Option.map_some, storedBy_map]
        rfl
      | char c => rfl
      | str s => rfl
      | int n => rfl
  · have harg : libcDialect.longArg g ap = some ([108, g].map .store, ap) := by
      have hnone : libcDialect.long g = none := if_neg hg
      rw [Dialect.longArg, hnone]
      rfl
    rw [harg, Option.map_some, storedBy_map]
    split
    · contradiction
    · next heq => exact absurd (List.cons.inj heq).1 hg
    · next heq _ => exact absurd (List.cons.inj heq).1 hg
    · next heq _ => cases heq; rfl

/-- A directive without `l`. -/
theorem vsprintf_plain {e : ℕ} (he : e ≠ 108) : vsprintf (37 :: e :: fmt) ap =
    ((libcDialect.plainArg e ap).map storedBy).bind fun out => (vsprintf fmt out.2).map (out.1 ++ ·) := by
  conv_lhs => unfold vsprintf
  rw [if_neg (by decide), if_neg he, ← directive_eq]
  cases directive e ap <;> rfl

/-- A directive that has a result, and the rest of the format. -/
theorem bind_storedBy {arg : Option (List FmtEvent × List PrintfArg)} {s : List ℕ}
    (h : ((arg.map storedBy).bind fun out => (vsprintf fmt out.2).map (out.1 ++ ·)) = some s) :
    ∃ events ap' t, arg = some (events, ap') ∧ vsprintf fmt ap' = some t ∧
      s = events.filterMap FmtEvent.stored ++ t := by
  obtain ⟨out, hout, h⟩ := Option.bind_eq_some_iff.1 h
  obtain ⟨⟨events, ap'⟩, rfl, rfl⟩ := Option.map_eq_some_iff.1 hout
  obtain ⟨t, ht, rfl⟩ := Option.map_eq_some_iff.1 h
  exact ⟨events, ap', t, rfl, ht, rfl⟩

/-- **libc's version stores what `vsprintf` says**, wherever that has a result. -/
theorem scan_libc {s : List ℕ} (h : StrAt mem addr fmt) (hv : vsprintf fmt ap = some s)
    (hfuel : fmt.length < fuel) :
    (scan libcDialect mem fuel addr ap idx).uses.filterMap FmtEvent.stored = s := by
  obtain ⟨fuel, rfl⟩ : ∃ k, fuel = k + 1 := ⟨fuel - 1, by omega⟩
  fun_induction endsInLong fmt generalizing addr ap idx fuel s with
  | case1 =>
    have hstop : mem addr = 0 := h.stop
    rw [vsprintf] at hv
    rw [scan_end hstop, ← Option.some.inj hv]
    rfl
  | case2 c =>
    obtain ⟨hc, hc0⟩ := h.head
    have hstop : mem (addr + 1) = 0 := h.tail.stop
    obtain ⟨fuel, rfl⟩ : ∃ k, fuel = k + 1 := ⟨fuel - 1, by rw [List.length_singleton] at hfuel; omega⟩
    rw [vsprintf] at hv
    rw [← Option.some.inj hv]
    by_cases h37 : c = 37
    · rw [scan_percent (hc.trans h37) hstop, if_pos h37]
      rfl
    · rw [scan_char (hc ▸ hc0) (hc ▸ h37), scan_end hstop, if_neg h37, hc]
      rfl
  | case3 c e fmt h37 ih =>
    obtain ⟨hc, hc0⟩ := h.head
    simp only [List.length_cons] at hfuel
    obtain ⟨fuel, rfl⟩ : ∃ k, fuel = k + 1 := ⟨fuel - 1, by omega⟩
    unfold vsprintf at hv
    rw [if_pos h37] at hv
    obtain ⟨t, ht, rfl⟩ := Option.map_eq_some_iff.1 hv
    rw [scan_char (hc ▸ hc0) (hc ▸ h37), hc, Traced.uses_after, List.filterMap_append,
      ih h.tail ht _ (by simp only [List.length_cons]; omega)]
    rfl
  | case4 c h37 =>
    unfold vsprintf at hv
    rw [if_neg h37, if_pos rfl] at hv
    cases hv
  | case5 c h37 g fmt ih =>
    obtain rfl : c = 37 := not_not.1 h37
    obtain ⟨hc, -⟩ := h.head
    obtain ⟨he, -⟩ := h.tail.head
    obtain ⟨hg, -⟩ := h.tail.tail.head
    simp only [List.length_cons] at hfuel
    obtain ⟨fuel, rfl⟩ : ∃ k, fuel = k + 1 := ⟨fuel - 1, by omega⟩
    rw [vsprintf_long] at hv
    obtain ⟨events, ap', t, harg, ht, rfl⟩ := bind_storedBy hv
    rw [scan_long hc he (hg ▸ harg), Traced.uses_after, List.filterMap_append,
      ih h.tail.tail.tail ht _ (by omega)]
    rfl
  | case6 c e fmt h37 h108 ih =>
    obtain rfl : c = 37 := not_not.1 h37
    obtain ⟨hc, -⟩ := h.head
    obtain ⟨he, he0⟩ := h.tail.head
    simp only [List.length_cons] at hfuel
    obtain ⟨fuel, rfl⟩ : ∃ k, fuel = k + 1 := ⟨fuel - 1, by omega⟩
    rw [vsprintf_plain h108] at hv
    obtain ⟨events, ap', t, harg, ht, rfl⟩ := bind_storedBy hv
    rw [scan_plain hc (he ▸ he0) (he ▸ h108) (he ▸ harg), Traced.uses_after, List.filterMap_append,
      ih h.tail.tail ht _ (by omega)]
    rfl

end PlumOs
