import Mathlib.Data.List.Induction

/-!
# Pre- and postconditions for calls that may stop

A call is a value of `Except ε α`.  `Yields x Q E` says that it returns a value with `Q` or stops
for a reason with `E`; `yields_bind` composes two calls, and `yields_foldlM` is the rule for a loop
over a list.
-/

namespace PlumOs

universe u v

variable {ε : Type u} {α β : Type v}

/-- The call returns a value with `Q`, or stops for a reason with `E`. -/
def Yields (x : Except ε α) (Q : α → Prop) (E : ε → Prop) : Prop :=
  match x with
  | .ok a => Q a
  | .error e => E e

variable {x : Except ε α} {f : α → Except ε β} {Q : α → Prop} {R : β → Prop} {E : ε → Prop}

theorem ok_bind (a : α) (f : α → Except ε β) : (Except.ok a >>= f) = f a := rfl

/-- A composed call that returns has got through its first part. -/
theorem bind_eq_ok {b : β} : (x >>= f) = .ok b ↔ ∃ a, x = .ok a ∧ f a = .ok b := by
  cases x with
  | ok a =>
    rw [ok_bind]
    exact ⟨fun h => ⟨a, rfl, h⟩, fun ⟨_, ha, h⟩ => by rw [Except.ok.inj ha]; exact h⟩
  | error e =>
    constructor
    · exact nofun
    · rintro ⟨_, ha, _⟩
      cases ha

/-- A call whose value is changed. -/
theorem map_eq_ok {g : α → β} {b : β} : x.map g = .ok b ↔ ∃ a, x = .ok a ∧ g a = b := by
  cases x with
  | ok a =>
    constructor
    · exact fun h => ⟨a, rfl, Except.ok.inj h⟩
    · rintro ⟨_, ⟨⟩, rfl⟩
      rfl
  | error e =>
    constructor
    · exact nofun
    · rintro ⟨_, ha, _⟩
      cases ha

theorem mapError_eq_ok {ε' : Type u} {f : ε → ε'} {a : α} : x.mapError f = .ok a ↔ x = .ok a := by
  cases x with
  | ok b =>
    exact ⟨fun h => congrArg Except.ok (Except.ok.inj h), fun h => congrArg Except.ok (Except.ok.inj h)⟩
  | error e => exact ⟨nofun, nofun⟩

theorem yields_ok {a : α} : Yields (.ok a : Except ε α) Q E ↔ Q a := Iff.rfl

theorem yields_pure {a : α} : Yields (pure a : Except ε α) Q E ↔ Q a := Iff.rfl

/-- A call that returns goes on with its value. -/
theorem yields_bind (hx : Yields x Q E) (hf : ∀ a, Q a → Yields (f a) R E) :
    Yields (x >>= f) R E := by
  cases x with
  | ok a => exact hf a hx
  | error e => exact hx

theorem Yields.imp {Q' : α → Prop} {E' : ε → Prop} (h : Yields x Q E) (hQ : ∀ a, Q a → Q' a)
    (hE : ∀ e, E e → E' e) : Yields x Q' E' := by
  cases x with
  | ok a => exact hQ a h
  | error e => exact hE e h

theorem Yields.mono {Q' : α → Prop} (h : Yields x Q E) (hQ : ∀ a, Q a → Q' a) :
    Yields x Q' E :=
  h.imp hQ fun _ => id

theorem Yields.and {Q' : α → Prop} {E' : ε → Prop} (h : Yields x Q E) (h' : Yields x Q' E') :
    Yields x (fun a => Q a ∧ Q' a) fun e => E e ∧ E' e := by
  cases x with
  | ok a => exact ⟨h, h'⟩
  | error e => exact ⟨h, h'⟩

theorem Yields.of_eq_ok {a : α} (h : Yields x Q E) (hx : x = .ok a) : Q a := by
  rw [hx] at h
  exact h

/-- What a call that returns has to show. -/
theorem yields_of_ok (h : ∀ a, x = .ok a → Q a) : Yields x Q fun _ => True := by
  cases x with
  | ok a => exact h a rfl
  | error e => trivial

theorem Yields.of_eq_error {e : ε} (h : Yields x Q E) (hx : x = .error e) : E e := by
  rw [hx] at h
  exact h

/-- The rule for loops: `P` is the invariant, about the elements that the loop has been through. -/
theorem yields_foldlM {f : β → α → Except ε β} {P : List α → β → Prop} {E : ε → Prop} (l : List α)
    {b : β} (hstep : ∀ pre x rest b, l = pre ++ x :: rest → P pre b →
      Yields (f b x) (P (pre ++ [x])) E) (h₀ : P [] b) : Yields (l.foldlM f b) (P l) E := by
  suffices h : ∀ rest pre b, l = pre ++ rest → P pre b → Yields (rest.foldlM f b) (P l) E from
    h l [] b rfl h₀
  intro rest
  induction rest with
  | nil =>
    intro pre b hl hb
    rw [List.append_nil] at hl
    rw [hl]
    exact hb
  | cons x rest ih =>
    intro pre b hl hb
    rw [List.foldlM_cons]
    refine yields_bind (hstep pre x rest b hl hb) fun b' hb' => ih (pre ++ [x]) b' ?_ hb'
    rw [hl, List.append_assoc, List.singleton_append]

/-- A relation between the values before and after every step of a loop, for the whole loop. -/
theorem rel_of_foldlM {f : β → α → Except ε β} {R : β → β → Prop} {l : List α} {b b' : β}
    (hrefl : ∀ b, R b b) (htrans : ∀ b₁ b₂ b₃, R b₁ b₂ → R b₂ b₃ → R b₁ b₃)
    (hstep : ∀ pre x b₁ b₂, pre ++ [x] <+: l → pre.foldlM f b = .ok b₁ → f b₁ x = .ok b₂ → R b₁ b₂)
    (hok : l.foldlM f b = .ok b') : R b b' := by
  induction l using List.reverseRecOn generalizing b' with
  | nil =>
    cases hok
    exact hrefl b
  | append_singleton l x ih =>
    rw [List.foldlM_append] at hok
    obtain ⟨b₁, hb₁, hok⟩ := bind_eq_ok.1 hok
    rw [List.foldlM_cons] at hok
    obtain ⟨b₂, hb₂, hok⟩ := bind_eq_ok.1 hok
    obtain rfl : b₂ = b' := Except.ok.inj hok
    refine htrans b b₁ b₂ (ih (fun pre y c₁ c₂ hpre => ?_) hb₁) (hstep l x b₁ b₂ List.prefix_rfl hb₁ hb₂)
    exact hstep pre y c₁ c₂ (hpre.trans (List.prefix_append l [x]))

end PlumOs
