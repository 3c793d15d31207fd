import Mathlib.Data.Set.Card
import Mathlib.Data.Int.Basic

/-!
# Frames shared copy-on-write

Spaces `A` map pages `V` to frames `F`, each mapping with a mode; `ref` counts the references to a
frame.  A space that writes to a frame it may share gets a copy, unless the count says that it is
the only one left.

* `Inv` : a writable frame is mapped once, and no frame has more mappings than references;
* `Inv.map`, `Inv.own`, `Inv.split` : a new mapping, and the two ways out of copy-on-write;
* `Forking` : what holds while a space is copied page by page, some pages more than once;
* `Forking.share` : the copy of one page, `Forking.inv` : the end of the copy;
* `Exact` : every reference is a mapping; a copy keeps this if it visits no mapped page twice.
-/

set_option linter.unusedSectionVars false

namespace PlumOs

namespace Cow

/-- How a page is mapped. -/
inductive Mode where
  | readOnly
  | writable
  | cow
  deriving DecidableEq, Repr

/-- The mappings. -/
abbrev Ptes (A V F : Type*) := A → V → Option (F × Mode)

variable {A V F : Type*}

/-- The places where the frame `f` is mapped. -/
def mapsTo (P : Ptes A V F) (f : F) : Set (A × V) := {x | ∃ k, P x.1 x.2 = some (f, k)}

/-- Every frame has at least as many references as mappings, at one page only. -/
structure Counted (P : Ptes A V F) (ref : F → ℤ) : Prop where
  /-- A frame is mapped finitely often. -/
  finite : ∀ f, (mapsTo P f).Finite
  /-- A frame has no more mappings than references. -/
  le : ∀ f, (mapsTo P f).Nonempty → ((mapsTo P f).ncard : ℤ) ≤ ref f
  /-- A frame is at the same page everywhere. -/
  aligned : ∀ a b v w f k k', P a v = some (f, k) → P b w = some (f, k') → v = w

/-- A frame that is mapped writable is mapped once. -/
def Isolated (P : Ptes A V F) : Prop :=
  ∀ a v f, P a v = some (f, .writable) → ∀ b w k, P b w = some (f, k) → b = a ∧ w = v

/-- The invariant. -/
structure Inv (P : Ptes A V F) (ref : F → ℤ) : Prop extends Counted P ref where
  isolated : Isolated P

/-- Every reference to a frame that is mapped is a mapping. -/
def Exact (P : Ptes A V F) (ref : F → ℤ) : Prop :=
  ∀ f, (mapsTo P f).Nonempty → ref f = (mapsTo P f).ncard

/-- The counts of mapped frames are the same. -/
def SameRef (P : Ptes A V F) (ref ref' : F → ℤ) : Prop :=
  ∀ f, (mapsTo P f).Nonempty → ref' f = ref f

variable {P P₀ : Ptes A V F} {ref ref' ref₀ : F → ℤ} {a b : A} {v w : V} {f g : F} {k k' : Mode}

theorem mem_mapsTo (h : P a v = some (f, k)) : (a, v) ∈ mapsTo P f := ⟨k, h⟩

theorem Counted.congr (h : Counted P ref) (href : SameRef P ref ref') : Counted P ref' :=
  ⟨h.finite, fun f hf => by rw [href f hf]; exact h.le f hf, h.aligned⟩

theorem Inv.congr (h : Inv P ref) (href : SameRef P ref ref') : Inv P ref' :=
  ⟨h.toCounted.congr href, h.isolated⟩

theorem Exact.congr (h : Exact P ref) (href : SameRef P ref ref') : Exact P ref' :=
  fun f hf => by rw [href f hf]; exact h f hf

/-- Nobody else maps a frame with a count of at most one. -/
theorem Counted.sole (h : Counted P ref) (hv : P a v = some (f, k)) (hone : ref f ≤ 1)
    (hw : P b w = some (f, k')) : b = a ∧ w = v := by
  have hle := h.le f ⟨_, mem_mapsTo hv⟩
  have hcard : (mapsTo P f).ncard ≤ 1 := by omega
  have heq := (Set.ncard_le_one (h.finite f)).1 hcard _ (mem_mapsTo hw) _ (mem_mapsTo hv)
  exact ⟨congrArg Prod.fst heq, congrArg Prod.snd heq⟩

variable [DecidableEq A] [DecidableEq V]

/-! ### Assignments -/

/-- Assign to one mapping. -/
def set (P : Ptes A V F) (a : A) (v : V) (x : Option (F × Mode)) : Ptes A V F :=
  fun b w => if b = a ∧ w = v then x else P b w

@[simp] theorem set_self (x : Option (F × Mode)) : set P a v x a v = x := if_pos ⟨rfl, rfl⟩

theorem set_of_ne {x : Option (F × Mode)} (h : ¬ (b = a ∧ w = v)) : set P a v x b w = P b w :=
  if_neg h

theorem set_eq_some {x : Option (F × Mode)} (h : set P a v x b w = some (g, k)) :
    b = a ∧ w = v ∧ x = some (g, k) ∨ ¬ (b = a ∧ w = v) ∧ P b w = some (g, k) := by
  unfold set at h
  split at h
  · next hbw => exact .inl ⟨hbw.1, hbw.2, h⟩
  · next hbw => exact .inr ⟨hbw, h⟩

theorem mapsTo_set_ne (hf : g ≠ f) (h : ∀ k, P a v ≠ some (g, k)) :
    mapsTo (set P a v (some (f, k))) g = mapsTo P g := by
  ext ⟨b, w⟩
  constructor
  · rintro ⟨k', hk'⟩
    rcases set_eq_some hk' with ⟨-, -, hx⟩ | ⟨-, hbw⟩
    · exact absurd (congrArg Prod.fst (Option.some.inj hx)).symm hf
    · exact ⟨k', hbw⟩
  · rintro ⟨k', hk'⟩
    refine ⟨k', (set_of_ne ?_).trans hk'⟩
    rintro ⟨rfl, rfl⟩
    exact h k' hk'

theorem mapsTo_set_same (h : P a v = some (f, k)) :
    mapsTo (set P a v (some (f, k'))) g = mapsTo P g := by
  ext ⟨b, w⟩
  constructor
  · rintro ⟨k₁, hk₁⟩
    rcases set_eq_some hk₁ with ⟨rfl, rfl, hx⟩ | ⟨-, hbw⟩
    · obtain rfl := congrArg Prod.fst (Option.some.inj hx)
      exact ⟨k, h⟩
    · exact ⟨k₁, hbw⟩
  · rintro ⟨k₁, hk₁⟩
    by_cases hbw : b = a ∧ w = v
    · obtain ⟨rfl, rfl⟩ := hbw
      obtain rfl := congrArg Prod.fst (Option.some.inj (h.symm.trans hk₁))
      exact ⟨k', set_self _⟩
    · exact ⟨k₁, (set_of_ne hbw).trans hk₁⟩

theorem mapsTo_set_left (h : P a v = some (g, k')) (hf : g ≠ f) :
    mapsTo (set P a v (some (f, k))) g = mapsTo P g \ {(a, v)} := by
  ext ⟨b, w⟩
  constructor
  · rintro ⟨k₁, hk₁⟩
    rcases set_eq_some hk₁ with ⟨-, -, hx⟩ | ⟨hne, hbw⟩
    · exact absurd (congrArg Prod.fst (Option.some.inj hx)).symm hf
    · exact ⟨⟨k₁, hbw⟩, fun heq => hne ⟨congrArg Prod.fst heq, congrArg Prod.snd heq⟩⟩
  · rintro ⟨⟨k₁, hk₁⟩, hne⟩
    refine ⟨k₁, (set_of_ne ?_).trans hk₁⟩
    rintro ⟨rfl, rfl⟩
    exact hne rfl

/-! ### A new mapping -/

/-- The frame is mapped nowhere. -/
def Unmapped (P : Ptes A V F) (f : F) : Prop := ∀ a v k, P a v ≠ some (f, k)

theorem Unmapped.mapsTo_eq (h : Unmapped P f) : mapsTo P f = ∅ := by
  ext ⟨b, w⟩
  exact ⟨fun ⟨k, hk⟩ => h b w k hk, False.elim⟩

theorem mapsTo_set_fresh (h : Unmapped P f) :
    mapsTo (set P a v (some (f, k))) f = {(a, v)} := by
  ext ⟨b, w⟩
  constructor
  · rintro ⟨k', hk'⟩
    rcases set_eq_some hk' with ⟨rfl, rfl, -⟩ | ⟨-, hbw⟩
    · rfl
    · exact absurd hbw (h b w k')
  · intro heq
    cases heq
    exact ⟨k, set_self _⟩

/-- How the counts follow the first mapping of a frame. -/
structure Fresh (P : Ptes A V F) (ref ref' : F → ℤ) (f : F) : Prop where
  unmapped : Unmapped P f
  one : ref' f = 1
  same : ∀ g, g ≠ f → (mapsTo P g).Nonempty → ref' g = ref g

theorem aligned_set_fresh (h : Counted P ref) (hf : Unmapped P f) (b c : A) (w x : V) (g : F)
    (k₁ k₂ : Mode) (h₁ : set P a v (some (f, k)) b w = some (g, k₁))
    (h₂ : set P a v (some (f, k)) c x = some (g, k₂)) : w = x := by
  rcases set_eq_some h₁ with ⟨-, rfl, hg⟩ | ⟨-, ho₁⟩ <;>
    rcases set_eq_some h₂ with ⟨-, rfl, hg'⟩ | ⟨-, ho₂⟩
  · rfl
  · obtain rfl := congrArg Prod.fst (Option.some.inj hg)
    exact absurd ho₂ (hf c x k₂)
  · obtain rfl := congrArg Prod.fst (Option.some.inj hg')
    exact absurd ho₁ (hf b w k₁)
  · exact h.aligned b c w x g k₁ k₂ ho₁ ho₂

theorem isolated_set_fresh (h : Isolated P) (hf : Unmapped P f) :
    Isolated (set P a v (some (f, k))) := by
  intro b w g hb c x k' hc
  rcases set_eq_some hb with ⟨rfl, rfl, hg⟩ | ⟨-, hob⟩ <;>
    rcases set_eq_some hc with ⟨rfl, rfl, hg'⟩ | ⟨-, hoc⟩
  · exact ⟨rfl, rfl⟩
  · obtain rfl := congrArg Prod.fst (Option.some.inj hg)
    exact absurd hoc (hf c x k')
  · obtain rfl := congrArg Prod.fst (Option.some.inj hg')
    exact absurd hob (hf b w _)
  · exact h b w g hob c x k' hoc

/-- **A page is mapped** to a frame that nobody uses. -/
theorem Inv.map (h : Inv P ref) (hv : P a v = none) (hf : Fresh P ref ref' f) (k : Mode) :
    Inv (set P a v (some (f, k))) ref' := by
  have hmaps : ∀ g, g ≠ f → mapsTo (set P a v (some (f, k))) g = mapsTo P g := fun g hg =>
    mapsTo_set_ne hg fun k' => by simp [hv]
  refine ⟨⟨fun g => ?_, fun g hg => ?_, aligned_set_fresh h.toCounted hf.unmapped⟩,
    isolated_set_fresh h.isolated hf.unmapped⟩
  · by_cases hgf : g = f
    · subst hgf; rw [mapsTo_set_fresh hf.unmapped]; exact Set.finite_singleton _
    · rw [hmaps g hgf]; exact h.finite g
  · by_cases hgf : g = f
    · subst hgf
      rw [mapsTo_set_fresh hf.unmapped, Set.ncard_singleton, hf.one]
      rfl
    · rw [hmaps g hgf] at hg ⊢
      rw [hf.same g hgf hg]
      exact h.le g hg

theorem Exact.map (h : Exact P ref) (hv : P a v = none) (hf : Fresh P ref ref' f) (k : Mode) :
    Exact (set P a v (some (f, k))) ref' := by
  intro g hg
  by_cases hgf : g = f
  · subst hgf
    rw [mapsTo_set_fresh hf.unmapped, Set.ncard_singleton, hf.one]
    rfl
  · have hmaps : mapsTo (set P a v (some (f, k))) g = mapsTo P g :=
      mapsTo_set_ne hgf fun k' => by simp [hv]
    rw [hmaps] at hg ⊢
    rw [hf.same g hgf hg]
    exact h g hg

/-! ### The end of copy-on-write -/

/-- **The only user left** may write to the frame. -/
theorem Inv.own (h : Inv P ref) (hv : P a v = some (f, k)) (hone : ref f ≤ 1) :
    Inv (set P a v (some (f, .writable))) ref := by
  have hmaps : ∀ g, mapsTo (set P a v (some (f, .writable))) g = mapsTo P g := fun g =>
    mapsTo_set_same hv
  have hold : ∀ b w g k', set P a v (some (f, .writable)) b w = some (g, k') →
      ∃ k₁, P b w = some (g, k₁) := by
    intro b w g k' hb
    have : (b, w) ∈ mapsTo (set P a v (some (f, .writable))) g := ⟨k', hb⟩
    rwa [hmaps] at this
  refine ⟨⟨fun g => ?_, fun g hg => ?_, fun b c w x g k₁ k₂ h₁ h₂ => ?_⟩, ?_⟩
  · rw [hmaps]; exact h.finite g
  · rw [hmaps] at hg ⊢; exact h.le g hg
  · obtain ⟨k₁', h₁'⟩ := hold b w g k₁ h₁
    obtain ⟨k₂', h₂'⟩ := hold c x g k₂ h₂
    exact h.aligned b c w x g k₁' k₂' h₁' h₂'
  · intro b w g hb c x k' hc
    obtain ⟨k₁, hc'⟩ := hold c x g k' hc
    rcases set_eq_some hb with ⟨rfl, rfl, hg⟩ | ⟨hne, hb⟩
    · obtain rfl := congrArg Prod.fst (Option.some.inj hg)
      exact h.toCounted.sole hv hone hc'
    · exact h.isolated b w g hb c x k₁ hc'

theorem Exact.own (h : Exact P ref) (hv : P a v = some (f, k)) :
    Exact (set P a v (some (f, k'))) ref := by
  intro g hg
  rw [mapsTo_set_same hv] at hg ⊢
  exact h g hg

/-- How the counts follow a copy. -/
structure Split (P : Ptes A V F) (ref ref' : F → ℤ) (f g : F) : Prop where
  unmapped : Unmapped P g
  one : ref' g = 1
  less : ref' f = ref f - 1
  same : ∀ x, x ≠ f → x ≠ g → (mapsTo P x).Nonempty → ref' x = ref x

theorem ncard_split (h : Counted P ref) (hv : P a v = some (f, k)) :
    ((mapsTo P f \ {(a, v)}).ncard : ℤ) = (mapsTo P f).ncard - 1 := by
  have hpos : 0 < (mapsTo P f).ncard := (Set.ncard_pos (h.finite f)).2 ⟨_, mem_mapsTo hv⟩
  rw [Set.ncard_sdiff_singleton_of_mem (mem_mapsTo hv)]
  omega

/-- **A user of a shared frame** gets a copy of its own. -/
theorem Inv.split (h : Inv P ref) (hv : P a v = some (f, k)) (hs : Split P ref ref' f g) :
    Inv (set P a v (some (g, .writable))) ref' := by
  have hfg : f ≠ g := by
    rintro rfl
    exact hs.unmapped a v k hv
  have hmaps : ∀ x, x ≠ f → x ≠ g → mapsTo (set P a v (some (g, .writable))) x = mapsTo P x := by
    intro x hxf hxg
    refine mapsTo_set_ne hxg fun k' hk' => hxf ?_
    exact congrArg Prod.fst (Option.some.inj (hk'.symm.trans hv))
  refine ⟨⟨fun x => ?_, fun x hx => ?_, aligned_set_fresh h.toCounted hs.unmapped⟩,
    isolated_set_fresh h.isolated hs.unmapped⟩
  · by_cases hxg : x = g
    · subst hxg; rw [mapsTo_set_fresh hs.unmapped]; exact Set.finite_singleton _
    · by_cases hxf : x = f
      · subst hxf; rw [mapsTo_set_left hv hfg]; exact (h.finite x).sdiff
      · rw [hmaps x hxf hxg]; exact h.finite x
  · by_cases hxg : x = g
    · subst hxg
      rw [mapsTo_set_fresh hs.unmapped, Set.ncard_singleton, hs.one]
      rfl
    · by_cases hxf : x = f
      · subst hxf
        rw [mapsTo_set_left hv hfg, ncard_split h.toCounted hv, hs.less]
        have := h.le x ⟨_, mem_mapsTo hv⟩
        omega
      · rw [hmaps x hxf hxg] at hx ⊢
        rw [hs.same x hxf hxg hx]
        exact h.le x hx

theorem Exact.split (h : Exact P ref) (hc : Counted P ref) (hv : P a v = some (f, k))
    (hs : Split P ref ref' f g) : Exact (set P a v (some (g, k'))) ref' := by
  have hfg : f ≠ g := by
    rintro rfl
    exact hs.unmapped a v k hv
  intro x hx
  by_cases hxg : x = g
  · subst hxg
    rw [mapsTo_set_fresh hs.unmapped, Set.ncard_singleton, hs.one]
    rfl
  · by_cases hxf : x = f
    · subst hxf
      rw [mapsTo_set_left hv hfg, ncard_split hc hv, hs.less, h x ⟨_, mem_mapsTo hv⟩]
    · have hmaps : mapsTo (set P a v (some (g, k'))) x = mapsTo P x := by
        refine mapsTo_set_ne hxg fun k₁ hk₁ => hxf ?_
        exact congrArg Prod.fst (Option.some.inj (hk₁.symm.trans hv))
      rw [hmaps] at hx ⊢
      rw [hs.same x hxf hxg hx]
      exact h x hx

/-! ### The copy of a space -/

/-- The mode of the copy of a page, by whether the page may be written. -/
def copyMode (rw : Bool) : Mode := if rw then .cow else .readOnly

/-- **The copy of one page**: `b` shares the frame with `a`, copy-on-write if `rw`. -/
def share (P : Ptes A V F) (a b : A) (v : V) (rw : Bool) (f : F) : Ptes A V F :=
  set (if rw then set P a v (some (f, .cow)) else P) b v (some (f, copyMode rw))

/-- How often a copy visited a page. -/
def visits (done : List (V × Bool)) (v : V) : ℕ := (done.map Prod.fst).count v

/-- What holds after the visits `done` of a copy of `a` to `b` that started with `P₀`, `ref₀`. -/
structure Forking (P₀ : Ptes A V F) (ref₀ : F → ℤ) (a b : A) (done : List (V × Bool))
    (P : Ptes A V F) (ref : F → ℤ) : Prop where
  /-- The mappings of the others stay. -/
  others : ∀ c, c ≠ a → c ≠ b → P c = P₀ c
  /-- Pages that were visited as writable are copy-on-write. -/
  parent : ∀ v, P a v = (P₀ a v).map fun x => (x.1, if (v, true) ∈ done then .cow else x.2)
  /-- Pages that were visited are mapped for the copy too. -/
  child : ∀ v, ∃ k : Mode, k ≠ .writable ∧
    P b v = if visits done v = 0 then none else (P₀ a v).map fun x => (x.1, k)
  /-- A page of the copy has the mode of a visit. -/
  mode : ∀ v f k, P b v = some (f, k) → ∃ rw, (v, rw) ∈ done ∧ k = copyMode rw
  /-- A frame has one more reference for each visit. -/
  shared : ∀ v f k, P₀ a v = some (f, k) → ref f = ref₀ f + visits done v
  /-- Other frames keep their counts. -/
  same : ∀ f, (∀ v k, P₀ a v ≠ some (f, k)) → (mapsTo P₀ f).Nonempty → ref f = ref₀ f

variable {done : List (V × Bool)} {rw : Bool}

theorem visits_append : visits (done ++ [(w, rw)]) v = visits done v + if v = w then 1 else 0 := by
  unfold visits
  rw [List.map_append, List.count_append, List.map_singleton, List.count_singleton]
  congr 1
  by_cases h : v = w
  · subst h; simp
  · rw [if_neg h, if_neg]
    simpa using fun h' : w = v => h h'.symm

theorem visits_append_map (l : List V) :
    visits (done ++ l.map fun v => (v, rw)) v = visits done v + l.count v := by
  unfold visits
  rw [List.map_append, List.count_append, List.map_map]
  congr 2
  exact List.map_id' _

theorem mem_append_visit {rw' : Bool} :
    (v, rw') ∈ done ++ [(w, rw)] ↔ (v, rw') ∈ done ∨ v = w ∧ rw = rw' := by
  simp [eq_comm]

theorem Forking.nil (hb : ∀ v, P₀ b v = none) : Forking P₀ ref₀ a b [] P₀ ref₀ where
  others _ _ _ := rfl
  parent v := by cases P₀ a v <;> simp
  child v := ⟨.readOnly, by simp, by simp [visits, hb v]⟩
  mode v f k h := by simp [hb v] at h
  shared v f k _ := by simp [visits]
  same _ _ _ := rfl

theorem Forking.congr (h : Forking P₀ ref₀ a b done P ref) (href : SameRef P₀ ref ref') :
    Forking P₀ ref₀ a b done P ref' where
  others := h.others
  parent := h.parent
  child := h.child
  mode := h.mode
  shared v f k hv := by rw [href f ⟨_, mem_mapsTo hv⟩]; exact h.shared v f k hv
  same f hf hm := by rw [href f hm]; exact h.same f hf hm

/-- A visit of a page that is not mapped. -/
theorem Forking.skip (h : Forking P₀ ref₀ a b done P ref) (hv : P₀ a v = none) (rw : Bool) :
    Forking P₀ ref₀ a b (done ++ [(v, rw)]) P ref where
  others := h.others
  parent w := by
    rw [h.parent w]
    by_cases hw : w = v
    · rw [hw, hv]; rfl
    · simp only [mem_append_visit, hw, false_and, or_false]
  child w := by
    obtain ⟨k, hk, hchild⟩ := h.child w
    refine ⟨k, hk, ?_⟩
    rw [hchild, visits_append]
    by_cases hw : w = v
    · rw [hw, hv]; simp
    · rw [if_neg hw, Nat.add_zero]
  mode w f k hw := by
    obtain ⟨rw', hdone, hk⟩ := h.mode w f k hw
    exact ⟨rw', mem_append_visit.2 (.inl hdone), hk⟩
  shared w f k hw := by
    have hne : w ≠ v := by
      rintro rfl
      rw [hv] at hw
      simp at hw
    rw [visits_append, if_neg hne]
    exact h.shared w f k hw
  same := h.same

/-- The parent still maps the frames it mapped. -/
theorem Forking.parent_frame (h : Forking P₀ ref₀ a b done P ref) (hv : P a v = some (f, k)) :
    ∃ k₀, P₀ a v = some (f, k₀) ∧ k = if (v, true) ∈ done then .cow else k₀ := by
  rw [h.parent v] at hv
  cases hx : P₀ a v with
  | none => rw [hx] at hv; simp at hv
  | some x =>
    rw [hx] at hv
    obtain ⟨rfl, rfl⟩ := Prod.mk.inj (Option.some.inj hv)
    exact ⟨x.2, rfl, rfl⟩

/-- The child maps what it copied, and never writable. -/
theorem Forking.child_frame (h : Forking P₀ ref₀ a b done P ref) (hv : P b v = some (f, k)) :
    visits done v ≠ 0 ∧ k ≠ .writable ∧ ∃ k₀, P₀ a v = some (f, k₀) := by
  obtain ⟨k', hk', hchild⟩ := h.child v
  rw [hchild] at hv
  split at hv
  · simp at hv
  · next hn =>
    cases hx : P₀ a v with
    | none => rw [hx] at hv; simp at hv
    | some x =>
      rw [hx] at hv
      obtain ⟨rfl, rfl⟩ := Prod.mk.inj (Option.some.inj hv)
      exact ⟨hn, hk', x.2, rfl⟩

/-- A page that is copy-on-write in the child was visited as one that may be written. -/
theorem Forking.cow (h : Forking P₀ ref₀ a b done P ref) (hv : P b v = some (f, .cow)) :
    (v, true) ∈ done := by
  obtain ⟨rw, hdone, hk⟩ := h.mode v f .cow hv
  cases rw with
  | false => simp [copyMode] at hk
  | true => exact hdone

/-- **A visit of a page that is mapped.** -/
theorem Forking.share (h : Forking P₀ ref₀ a b done P ref) (hinv : Counted P₀ ref₀) (hab : a ≠ b)
    (hv : P a v = some (f, k)) (rw : Bool) (hadd : ref' f = ref f + 1)
    (hsame : ∀ g, g ≠ f → ref' g = ref g) :
    Forking P₀ ref₀ a b (done ++ [(v, rw)]) (share P a b v rw f) ref' := by
  obtain ⟨k₀, hv₀, -⟩ := h.parent_frame hv
  have hrow : ∀ c w, c ≠ b → ¬ (c = a ∧ w = v) → Cow.share P a b v rw f c w = P c w := by
    intro c w hcb hcw
    rw [Cow.share, set_of_ne fun he => hcb he.1]
    cases rw
    · rfl
    · exact set_of_ne hcw
  have hchild : ∀ w, w ≠ v → Cow.share P a b v rw f b w = P b w := by
    intro w hw
    rw [Cow.share, set_of_ne fun he => hw he.2]
    cases rw
    · rfl
    · exact set_of_ne fun he => hw he.2
  have hself : Cow.share P a b v rw f b v = some (f, copyMode rw) := set_self _
  refine ⟨fun c hca hcb => ?_, fun w => ?_, fun w => ?_, fun w g k' hw => ?_, fun w g k' hw => ?_,
    fun g hg hm => ?_⟩
  · rw [← h.others c hca hcb]
    funext w
    exact hrow c w hcb fun he => hca he.1
  · by_cases hw : w = v
    · subst hw
      rw [hv₀, Cow.share, set_of_ne fun he => hab he.1]
      cases rw
      · simp only [Bool.false_eq_true, if_false, mem_append_visit, and_false, or_false]
        rw [h.parent w, hv₀]
      · simp
    · rw [hrow a w hab fun he => hw he.2, h.parent w]
      simp only [mem_append_visit, hw, false_and, or_false]
  · by_cases hw : w = v
    · subst hw
      refine ⟨copyMode rw, by cases rw <;> simp [copyMode], ?_⟩
      rw [hself, visits_append, if_pos rfl, if_neg (Nat.succ_ne_zero _), hv₀]
      rfl
    · obtain ⟨k', hk', hc⟩ := h.child w
      refine ⟨k', hk', ?_⟩
      rw [hchild w hw, hc, visits_append, if_neg hw, Nat.add_zero]
  · by_cases hwv : w = v
    · subst hwv
      rw [hself] at hw
      exact ⟨rw, mem_append_visit.2 (.inr ⟨rfl, rfl⟩), (congrArg Prod.snd (Option.some.inj hw)).symm⟩
    · rw [hchild w hwv] at hw
      obtain ⟨rw', hdone, hk'⟩ := h.mode w g k' hw
      exact ⟨rw', mem_append_visit.2 (.inl hdone), hk'⟩
  · rw [visits_append]
    by_cases hg : g = f
    · subst hg
      obtain rfl := hinv.aligned a a w v g k' k₀ hw hv₀
      rw [hadd, h.shared w g k' hw, if_pos rfl]
      push_cast
      omega
    · have hwv : w ≠ v := by
        rintro rfl
        exact hg (congrArg Prod.fst (Option.some.inj (hw.symm.trans hv₀)))
      rw [hsame g hg, h.shared w g k' hw, if_neg hwv, Nat.add_zero]
  · have hgf : g ≠ f := by
      rintro rfl
      exact hg v k₀ hv₀
    rw [hsame g hgf]
    exact h.same g hg hm

/-! ### The end of the copy -/

section Forked

variable (h : Forking P₀ ref₀ a b done P ref) (hab : a ≠ b) (hb : ∀ v, P₀ b v = none)

include h hab hb

/-- Apart from the child, the same spaces map the same frames. -/
theorem Forking.mapped_iff {c : A} (hc : c ≠ b) :
    (∃ k, P c v = some (f, k)) ↔ ∃ k, P₀ c v = some (f, k) := by
  by_cases hca : c = a
  · subst hca
    constructor
    · rintro ⟨k, hk⟩
      obtain ⟨k₀, hk₀, -⟩ := h.parent_frame hk
      exact ⟨k₀, hk₀⟩
    · rintro ⟨k, hk⟩
      exact ⟨_, by rw [h.parent v, hk]; rfl⟩
  · rw [h.others c hca hc]

/-- A frame the parent does not map has the mappings it had. -/
theorem Forking.mapsTo_other (hf : ∀ v k, P₀ a v ≠ some (f, k)) : mapsTo P f = mapsTo P₀ f := by
  ext ⟨c, w⟩
  by_cases hc : c = b
  · subst hc
    constructor
    · rintro ⟨k, hk⟩
      obtain ⟨-, -, k₀, hk₀⟩ := h.child_frame hk
      exact absurd hk₀ (hf w k₀)
    · rintro ⟨k, hk⟩
      have hk' : P₀ c w = some (f, k) := hk
      simp [hb w] at hk'
  · exact h.mapped_iff hab hb hc

/-- A frame of the parent is mapped once more when its page was visited. -/
theorem Forking.mapsTo_shared (hinv : Counted P₀ ref₀) (hv : P₀ a v = some (f, k)) :
    mapsTo P f = if visits done v = 0 then mapsTo P₀ f else insert (b, v) (mapsTo P₀ f) := by
  have hold : (b, v) ∉ mapsTo P₀ f := by
    rintro ⟨k', hk'⟩
    simp [hb v] at hk'
  have hchild : ∀ w, (b, w) ∈ mapsTo P f ↔ w = v ∧ visits done v ≠ 0 := by
    intro w
    constructor
    · rintro ⟨k', hk'⟩
      obtain ⟨hn, -, k₀, hk₀⟩ := h.child_frame hk'
      obtain rfl := hinv.aligned a a w v f k₀ k hk₀ hv
      exact ⟨rfl, hn⟩
    · rintro ⟨rfl, hn⟩
      obtain ⟨k', -, hc⟩ := h.child w
      refine ⟨k', ?_⟩
      rw [hc, if_neg hn, hv]
      rfl
  ext ⟨c, w⟩
  by_cases hc : c = b
  · subst hc
    rw [hchild w]
    have hnone : (c, w) ∉ mapsTo P₀ f := by
      rintro ⟨k', hk'⟩
      simp [hb w] at hk'
    split
    · next hn => simp [hn, hnone]
    · next hn => simp [hn, hnone]
  · have hiff : (c, w) ∈ mapsTo P f ↔ (c, w) ∈ mapsTo P₀ f := h.mapped_iff hab hb hc
    rw [hiff]
    split
    · rfl
    · simp [hc]

theorem Forking.ncard_shared (hinv : Counted P₀ ref₀) (hv : P₀ a v = some (f, k)) :
    (mapsTo P f).ncard = (mapsTo P₀ f).ncard + if visits done v = 0 then 0 else 1 := by
  rw [h.mapsTo_shared hab hb hinv hv]
  split
  · rfl
  · refine Set.ncard_insert_of_notMem ?_ (hinv.finite f)
    rintro ⟨k', hk'⟩
    simp [hb v] at hk'

theorem Forking.counted (hinv : Counted P₀ ref₀) : Counted P ref := by
  have hold : ∀ c w f k, P c w = some (f, k) → ∃ d k₀, P₀ d w = some (f, k₀) := by
    intro c w f k hk
    by_cases hc : c = b
    · subst hc
      obtain ⟨-, -, k₀, hk₀⟩ := h.child_frame hk
      exact ⟨a, k₀, hk₀⟩
    · obtain ⟨k₀, hk₀⟩ := (h.mapped_iff hab hb hc).1 ⟨k, hk⟩
      exact ⟨c, k₀, hk₀⟩
  refine ⟨fun f => ?_, fun f hf => ?_, fun c d v w f k k' hv hw => ?_⟩
  · by_cases hf : ∃ v k, P₀ a v = some (f, k)
    · obtain ⟨v, k, hv⟩ := hf
      rw [h.mapsTo_shared hab hb hinv hv]
      split
      · exact hinv.finite f
      · exact (hinv.finite f).insert _
    · rw [h.mapsTo_other hab hb fun v k hv => hf ⟨v, k, hv⟩]
      exact hinv.finite f
  · by_cases hf' : ∃ v k, P₀ a v = some (f, k)
    · obtain ⟨v, k, hv⟩ := hf'
      have hle := hinv.le f ⟨_, mem_mapsTo hv⟩
      rw [h.ncard_shared hab hb hinv hv, h.shared v f k hv]
      split
      · omega
      · push_cast; omega
    · have hno : ∀ v k, P₀ a v ≠ some (f, k) := fun v k hv => hf' ⟨v, k, hv⟩
      rw [h.mapsTo_other hab hb hno] at hf ⊢
      rw [h.same f hno hf]
      exact hinv.le f hf
  · obtain ⟨c', k₁, hv'⟩ := hold c v f k hv
    obtain ⟨d', k₂, hw'⟩ := hold d w f k' hw
    exact hinv.aligned c' d' v w f k₁ k₂ hv' hw'

/-- **After the copy** nothing that is shared can be written, if every page the parent may write
was visited as writable. -/
theorem Forking.inv (hinv : Inv P₀ ref₀)
    (hall : ∀ v f, P₀ a v = some (f, .writable) → (v, true) ∈ done) : Inv P ref := by
  refine ⟨h.counted hab hb hinv.toCounted, fun c v f hv d w k hw => ?_⟩
  have hcb : c ≠ b := by
    rintro rfl
    exact (h.child_frame hv).2.1 rfl
  have hca : c ≠ a := by
    rintro rfl
    obtain ⟨k₀, hk₀, hmode⟩ := h.parent_frame hv
    split at hmode
    · simp at hmode
    · next hn => exact hn (hall v f (hmode ▸ hk₀))
  rw [h.others c hca hcb] at hv
  by_cases hd : d = b
  · subst hd
    obtain ⟨-, -, k₀, hk₀⟩ := h.child_frame hw
    exact absurd (hinv.isolated c v f hv a w k₀ hk₀).1.symm hca
  · obtain ⟨k₀, hk₀⟩ := (h.mapped_iff hab hb hd).1 ⟨k, hw⟩
    exact hinv.isolated c v f hv d w k₀ hk₀

/-- **The counts stay exact** if no mapped page was visited twice. -/
theorem Forking.exact (hinv : Counted P₀ ref₀) (hex : Exact P₀ ref₀)
    (honce : ∀ v f k, P₀ a v = some (f, k) → visits done v ≤ 1) : Exact P ref := by
  intro f hf
  by_cases hf' : ∃ v k, P₀ a v = some (f, k)
  · obtain ⟨v, k, hv⟩ := hf'
    have hle := honce v f k hv
    rw [h.ncard_shared hab hb hinv hv, h.shared v f k hv, hex f ⟨_, mem_mapsTo hv⟩]
    split
    · next hn => rw [hn]; rfl
    · next hn =>
      have hone : visits done v = 1 := by omega
      rw [hone]
      rfl
  · have hno : ∀ v k, P₀ a v ≠ some (f, k) := fun v k hv => hf' ⟨v, k, hv⟩
    rw [h.mapsTo_other hab hb hno] at hf ⊢
    rw [h.same f hno hf]
    exact hex f hf

end Forked

end Cow

end PlumOs
