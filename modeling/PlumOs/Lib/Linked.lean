import Mathlib.Data.List.Nodup

/-!
# Linked lists through a `next` field

Cells are named by pointers of any type, with one pointer for the end of a list.

* `Linked null next p l` : following `next` from `p` visits the cells `l` and ends at `null`;
* `Linked.unique`, `Linked.nodup` : the list is determined by its head and has no cycle;
* `Linked.congr` : it depends only on the links of its own cells;
* `Linked.push`, `Linked.pop`, `Linked.unlink` : insertion and removal.
-/

namespace PlumOs

variable {P : Type*} {null : P} {next next' : P → P}

/-- Following `next` from `p` visits the cells `l` and ends at `null`. -/
def Linked (null : P) (next : P → P) : P → List P → Prop
  | p, [] => p = null
  | p, x :: l => p = x ∧ x ≠ null ∧ Linked null next (next x) l

namespace Linked

variable {p x y : P} {l r l' : List P}

@[simp] theorem nil_iff : Linked null next p [] ↔ p = null := Iff.rfl

theorem ne_null (h : Linked null next p l) (hx : x ∈ l) : x ≠ null := by
  induction l generalizing p with
  | nil => simp at hx
  | cons y l ih =>
    rcases List.mem_cons.1 hx with rfl | hx
    · exact h.2.1
    · exact ih h.2.2 hx

/-- A list depends only on the links of its own cells. -/
theorem congr (h : Linked null next p l) (hn : ∀ x ∈ l, next' x = next x) :
    Linked null next' p l := by
  induction l generalizing p with
  | nil => exact h
  | cons y l ih =>
    refine ⟨h.1, h.2.1, ?_⟩
    rw [hn y List.mem_cons_self]
    exact ih h.2.2 fun x hx => hn x (List.mem_cons_of_mem _ hx)

theorem unique (h : Linked null next p l) (h' : Linked null next p l') : l = l' := by
  induction l generalizing p l' with
  | nil =>
    cases l' with
    | nil => rfl
    | cons y l' => exact absurd (h'.1.symm.trans h) h'.2.1
  | cons x l ih =>
    cases l' with
    | nil => exact absurd (h.1.symm.trans h') h.2.1
    | cons y l' =>
      obtain rfl : x = y := h.1.symm.trans h'.1
      rw [ih h.2.2 h'.2.2]

/-- The cells from one cell on form a list of their own. -/
theorem suffix (h : Linked null next p (l ++ x :: r)) : Linked null next x (x :: r) := by
  induction l generalizing p with
  | nil => exact ⟨rfl, h.2⟩
  | cons y l ih => exact ih h.2.2

/-- A list that ends has no cycle. -/
theorem nodup (h : Linked null next p l) : l.Nodup := by
  induction l generalizing p with
  | nil => exact List.nodup_nil
  | cons x l ih =>
    refine List.nodup_cons.2 ⟨fun hx => ?_, ih h.2.2⟩
    -- a second visit of `x` would start the same list with fewer cells
    obtain ⟨l₁, l₂, rfl⟩ := List.append_of_mem hx
    have hself : Linked null next x (x :: (l₁ ++ x :: l₂)) := ⟨rfl, h.2⟩
    have hlen := congrArg List.length (hself.unique h.2.2.suffix)
    simp only [List.length_cons, List.length_append] at hlen
    omega

/-- Insertion of a new cell in front. -/
theorem push (h : Linked null next p l) (hx : x ≠ null) (hnx : next' x = p)
    (hn : ∀ y ∈ l, next' y = next y) : Linked null next' x (x :: l) :=
  ⟨rfl, hx, by rw [hnx]; exact h.congr hn⟩

/-- Removal of the first cell. -/
theorem pop (h : Linked null next p (x :: l)) (hn : ∀ y ∈ l, next' y = next y) :
    Linked null next' (next x) l :=
  h.2.2.congr hn

/-- Removal of a cell behind another one. -/
theorem unlink (h : Linked null next p (l ++ y :: x :: r)) (hy : next' y = next x)
    (hn : ∀ z ∈ l ++ r, next' z = next z) : Linked null next' p (l ++ y :: r) := by
  induction l generalizing p with
  | nil =>
    refine ⟨h.1, h.2.1, ?_⟩
    rw [hy]
    exact h.2.2.2.2.congr fun z hz => hn z hz
  | cons z l ih =>
    refine ⟨h.1, h.2.1, ?_⟩
    rw [hn z List.mem_cons_self]
    exact ih h.2.2 fun w hw => hn w (List.mem_cons_of_mem _ hw)

/-- A list starts at its first cell. -/
theorem head_eq (h : Linked null next p l) : p = l.head?.getD null := by
  cases l with
  | nil => exact h
  | cons x l => exact h.1

/-- The link of a cell leads to the cell behind it. -/
theorem next_eq_head (h : Linked null next p (l ++ x :: r)) : next x = r.head?.getD null :=
  h.suffix.2.2.head_eq

theorem next_mem (h : Linked null next p l) (hx : x ∈ l) (hn : next x ≠ null) : next x ∈ l := by
  obtain ⟨l₁, l₂, rfl⟩ := List.append_of_mem hx
  have hnext := h.next_eq_head
  cases l₂ with
  | nil => exact absurd hnext hn
  | cons y l₂ =>
    have hy : next x = y := hnext
    rw [hy]
    simp

end Linked

end PlumOs
