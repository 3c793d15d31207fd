import Mathlib.Logic.Function.Basic
import Mathlib.Data.List.Basic

/-!
# Trees of tables in memory

A memory `m : F → I → E` holds tables: the entry `m f i` of the table `f` is `null` or refers to
the table `sub (m f i)`.  A family of trees has a root for each `a : A`; a path is the list of the
indices from the root down, innermost first.  The predicate `T` says which paths lead to tables of
the trees; the entries behind the last tables are the leaves.

* `node` : the table at a path;
* `Tree` : the tables of the trees, `Separate` : no table is shared;
* `tree_congr`, `leaf_congr` : what is not a table of a tree does not matter;
* `tree_link`, `leaf_link` : a new empty table in the place of a null entry adds itself only;
* `tree_put`, `leaf_put` : an assignment to a leaf changes that leaf only;
* `tree_root`, `leaf_root` : a new tree.
-/

set_option linter.unusedSectionVars false

namespace PlumOs

namespace Radix

variable {F I E A : Type*} [DecidableEq F] [DecidableEq I] [DecidableEq E] [DecidableEq A]

section Node

variable (null : E) (sub : E → F)

/-- The table at a path from the root `r`. -/
def node (m : F → I → E) (r : F) : List I → Option F
  | [] => some r
  | i :: p => (node m r p).bind fun f => if m f i = null then none else some (sub (m f i))

/-- The entry with index `i` of the table at a path, `null` if there is no table. -/
def leaf (m : F → I → E) (r : F) (p : List I) (i : I) : E :=
  (node null sub m r p).elim null fun f => m f i

/-- Assign to one entry. -/
def write (m : F → I → E) (f : F) (i : I) (e : E) : F → I → E :=
  Function.update m f (Function.update (m f) i e)

/-- The table `f` is at the path `p` of the tree of `a`. -/
def Tree (T : List I → Prop) (m : F → I → E) (roots : A → Option F) (a : A) (p : List I) (f : F) :
    Prop :=
  T p ∧ ∃ r, roots a = some r ∧ node null sub m r p = some f

/-- No table is at two places. -/
def Separate (T : List I → Prop) (m : F → I → E) (roots : A → Option F) : Prop :=
  ∀ a b p q f, Tree null sub T m roots a p f → Tree null sub T m roots b q f → a = b ∧ p = q

end Node

variable {null : E} {sub : E → F} {T : List I → Prop} {m m' : F → I → E} {roots : A → Option F}
  {a b : A} {p q : List I} {f g r x : F} {i j : I} {e : E}

/-- A table that is at no place is put at one. -/
theorem Separate.insert {m' : F → I → E} {roots' : A → Option F} (hsep : Separate null sub T m roots)
    (hfresh : ∀ b q, ¬Tree null sub T m roots b q g)
    (htree : ∀ b q x, Tree null sub T m' roots' b q x →
      Tree null sub T m roots b q x ∨ b = a ∧ q = p ∧ x = g) : Separate null sub T m' roots' := by
  intro b c q q' x hx hx'
  rcases htree b q x hx with hx | ⟨rfl, rfl, rfl⟩ <;> rcases htree c q' x hx' with hx' | ⟨rfl, rfl, hxg⟩
  · exact hsep b c q q' x hx hx'
  · exact absurd (hxg ▸ hx) (hfresh b q)
  · exact absurd hx' (hfresh c q')
  · exact ⟨rfl, rfl⟩

theorem write_self : write m f i e f i = e := by simp [write]

theorem write_of_ne (h : ¬ (g = f ∧ j = i)) : write m f i e g j = m g j := by
  unfold write
  by_cases hg : g = f
  · subst hg
    rw [Function.update_self, Function.update_of_ne fun hj => h ⟨rfl, hj⟩]
  · rw [Function.update_of_ne hg]

/-- A loop that assigns to entries of one table. -/
theorem foldl_write (l : List I) (f : F) (c : I → E) (m : F → I → E) (g : F) (j : I) :
    (l.foldl (fun m i => write m f i (c i)) m) g j = if g = f ∧ j ∈ l then c j else m g j := by
  induction l generalizing m with
  | nil => simp
  | cons i l ih =>
    rw [List.foldl_cons, ih]
    by_cases hg : g = f ∧ j = i
    · obtain ⟨rfl, rfl⟩ := hg
      simp [write_self]
    · rw [write_of_ne hg]
      by_cases hgf : g = f
      · have hji : j ≠ i := fun hji => hg ⟨hgf, hji⟩
        simp [hgf, hji]
      · simp [hgf]

theorem foldl_of_ne {K : Type*} (l : List K) (step : (F → I → E) → K → F → I → E)
    (h : ∀ m, ∀ k ∈ l, step m k g = m g) (m : F → I → E) : (l.foldl step m) g = m g := by
  induction l generalizing m with
  | nil => rfl
  | cons k l ih =>
    rw [List.foldl_cons, ih (fun m k' hk => h m k' (List.mem_cons_of_mem _ hk)),
      h m k List.mem_cons_self]

theorem node_congr (h : ∀ i q f, (i :: q) <:+ p → node null sub m r q = some f → m' f i = m f i) :
    node null sub m' r p = node null sub m r p := by
  induction p with
  | nil => rfl
  | cons i p ih =>
    rw [node, node, ih fun j q f hq => h j q f (hq.trans (List.suffix_cons i p))]
    cases hn : node null sub m r p with
    | none => rfl
    | some f =>
      show (if m' f i = null then none else some (sub (m' f i))) = _
      rw [h i p f List.suffix_rfl hn]
      rfl

theorem node_none_of_suffix (h : node null sub m r p = none) (hq : p <:+ q) :
    node null sub m r q = none := by
  obtain ⟨l, rfl⟩ := hq
  induction l with
  | nil => exact h
  | cons i l ih => rw [List.cons_append, node, ih]; rfl

/-- Tables on the way to a table are tables. -/
theorem closed_suffix (hT : ∀ i p, T (i :: p) → T p) (h : T q) (hp : p <:+ q) : T p := by
  obtain ⟨l, rfl⟩ := hp
  induction l with
  | nil => exact h
  | cons i l ih => exact ih (hT i _ h)

/-! ### Changes outside of the tables -/

theorem node_congr_of_tree (hT : ∀ i p, T (i :: p) → T p)
    (h : ∀ b q f i, Tree null sub T m roots b q f → T (i :: q) → m' f i = m f i)
    (hr : roots a = some r) (hp : T p) : node null sub m' r p = node null sub m r p := by
  refine node_congr fun i q f hq hn => h a q f i ⟨?_, r, hr, hn⟩ (closed_suffix hT hp hq)
  exact hT i q (closed_suffix hT hp hq)

/-- Only the entries inside the trees matter for the trees. -/
theorem tree_congr (hT : ∀ i p, T (i :: p) → T p)
    (h : ∀ b q f i, Tree null sub T m roots b q f → T (i :: q) → m' f i = m f i) :
    Tree null sub T m' roots a p f ↔ Tree null sub T m roots a p f := by
  constructor
  · rintro ⟨hp, r, hr, hn⟩
    exact ⟨hp, r, hr, by rw [← node_congr_of_tree hT h hr hp]; exact hn⟩
  · rintro ⟨hp, r, hr, hn⟩
    exact ⟨hp, r, hr, by rw [node_congr_of_tree hT h hr hp]; exact hn⟩

theorem leaf_congr (hT : ∀ i p, T (i :: p) → T p)
    (h : ∀ b q f i, Tree null sub T m roots b q f → m' f i = m f i) (hr : roots a = some r)
    (hp : T p) : leaf null sub m' r p i = leaf null sub m r p i := by
  unfold leaf
  rw [node_congr_of_tree hT (fun b q f i ht _ => h b q f i ht) hr hp]
  cases hn : node null sub m r p with
  | none => rfl
  | some f => exact h a p f i ⟨hp, r, hr, hn⟩

/-! ### A new table -/

section Link

variable (hT : ∀ i p, T (i :: p) → T p) (hsep : Separate null sub T m roots)
  (hf : Tree null sub T m roots a p f)

include hT hsep hf

/-- An assignment does not matter for the paths that do not lead through it. -/
theorem node_write (hr : roots b = some r) (hq : T q) (hno : ¬ (b = a ∧ (i :: p) <:+ q)) :
    node null sub (write m f i e) r q = node null sub m r q := by
  refine node_congr fun j q' g hq' hn => write_of_ne ?_
  rintro ⟨rfl, rfl⟩
  have hT' : T q' := hT j q' (closed_suffix hT hq hq')
  obtain ⟨rfl, rfl⟩ := hsep b a q' p g ⟨hT', r, hr, hn⟩ hf
  exact hno ⟨rfl, hq'⟩

variable (hnull : m f i = null) (hi : T (i :: p)) (hfresh : ∀ b q, ¬ Tree null sub T m roots b q g)
  (hzero : ∀ j, T (j :: i :: p) → m g j = null) (he : e ≠ null) (hsub : sub e = g)

include hnull in
theorem node_link_null (hr : roots a = some r) (hq : (i :: p) <:+ q) :
    node null sub m r q = none := by
  obtain ⟨hp, r', hr', hn⟩ := hf
  obtain rfl := Option.some.inj (hr.symm.trans hr')
  refine node_none_of_suffix ?_ hq
  rw [node, hn]
  show (if m f i = null then none else some (sub (m f i))) = none
  rw [if_pos hnull]

include hfresh hzero he hsub in
theorem node_link_new (hr : roots a = some r) (hTq : T q) (hq : (i :: p) <:+ q) :
    node null sub (write m f i e) r q = if q = i :: p then some g else none := by
  have hgf : g ≠ f := by
    rintro rfl
    exact hfresh a p hf
  have hnp : node null sub (write m f i e) r p = some f := by
    rw [node_write hT hsep hf hr hf.1]
    · obtain ⟨hp, r', hr', hn⟩ := hf
      obtain rfl := Option.some.inj (hr.symm.trans hr')
      exact hn
    · rintro ⟨-, hs⟩
      exact absurd hs.length_le (by simp)
  have hnew : node null sub (write m f i e) r (i :: p) = some g := by
    rw [node, hnp]
    show (if write m f i e f i = null then none else some (sub (write m f i e f i))) = _
    rw [write_self, if_neg he, hsub]
  obtain ⟨l, rfl⟩ := hq
  rcases List.eq_nil_or_concat l with rfl | ⟨l', j, rfl⟩
  · rw [List.nil_append, if_pos rfl, hnew]
  · rw [List.concat_eq_append, List.append_assoc, List.singleton_append] at hTq ⊢
    have hsuf : (j :: i :: p) <:+ l' ++ j :: i :: p := List.suffix_append _ _
    have hne : l' ++ j :: i :: p ≠ i :: p := by
      intro heq
      have hlen := congrArg List.length heq
      simp only [List.length_append, List.length_cons] at hlen
      omega
    rw [if_neg hne, node_none_of_suffix ?_ hsuf]
    rw [node, hnew]
    show (if write m f i e g j = null then none else some (sub (write m f i e g j))) = none
    rw [write_of_ne fun h => hgf h.1, if_pos (hzero j (closed_suffix hT hTq hsuf))]

include hnull hi hfresh hzero he hsub in
/-- **A new empty table** in the place of a null entry. -/
theorem tree_link : Tree null sub T (write m f i e) roots b q x ↔
    Tree null sub T m roots b q x ∨ b = a ∧ q = i :: p ∧ x = g := by
  by_cases hthrough : b = a ∧ (i :: p) <:+ q
  · obtain ⟨rfl, hq⟩ := hthrough
    constructor
    · rintro ⟨hTq, r, hr, hn⟩
      rw [node_link_new hT hsep hf hfresh hzero he hsub hr hTq hq] at hn
      split at hn
      · next hqi => exact .inr ⟨rfl, hqi, (Option.some.inj hn).symm⟩
      · simp at hn
    · rintro (⟨hTq, r, hr, hn⟩ | ⟨-, rfl, rfl⟩)
      · rw [node_link_null hT hsep hf hnull hr hq] at hn
        simp at hn
      · obtain ⟨hp, r, hr, hn⟩ := id hf
        refine ⟨hi, r, hr, ?_⟩
        rw [node_link_new hT hsep hf hfresh hzero he hsub hr hi hq, if_pos rfl]
  · constructor
    · rintro ⟨hTq, r, hr, hn⟩
      rw [node_write hT hsep hf hr hTq hthrough] at hn
      exact .inl ⟨hTq, r, hr, hn⟩
    · rintro (⟨hTq, r, hr, hn⟩ | ⟨rfl, rfl, rfl⟩)
      · exact ⟨hTq, r, hr, by rw [node_write hT hsep hf hr hTq hthrough]; exact hn⟩
      · exact absurd ⟨rfl, List.suffix_rfl⟩ hthrough

include hnull hi hfresh hzero he hsub in
theorem separate_link : Separate null sub T (write m f i e) roots := by
  exact hsep.insert hfresh fun b q x hx =>
    (tree_link hT hsep hf hnull hi hfresh hzero he hsub).1 hx

include hnull hi hfresh he hsub in
/-- A new empty table changes no leaf. -/
theorem leaf_link (hzero' : ∀ j, m g j = null) (hr : roots b = some r) (hq : T q)
    (hj : ¬ T (j :: q)) :
    leaf null sub (write m f i e) r q j = leaf null sub m r q j := by
  have hzero : ∀ j, T (j :: i :: p) → m g j = null := fun j _ => hzero' j
  unfold leaf
  by_cases hthrough : b = a ∧ (i :: p) <:+ q
  · obtain ⟨rfl, hs⟩ := hthrough
    rw [node_link_null hT hsep hf hnull hr hs,
      node_link_new hT hsep hf hfresh hzero he hsub hr hq hs]
    split
    · have hgf : g ≠ f := by
        rintro rfl
        exact hfresh b p hf
      show write m f i e g j = null
      rw [write_of_ne fun h => hgf h.1, hzero' j]
    · rfl
  · rw [node_write hT hsep hf hr hq hthrough]
    cases hn : node null sub m r q with
    | none => rfl
    | some y =>
      refine write_of_ne ?_
      rintro ⟨rfl, rfl⟩
      obtain ⟨rfl, rfl⟩ := hsep b a q p y ⟨hq, r, hr, hn⟩ hf
      exact hj hi

/-! ### A leaf -/

variable (hleaf : ¬ T (i :: p))

include hleaf in
/-- **An assignment to a leaf** changes no tree. -/
theorem tree_put : Tree null sub T (write m f i e) roots b q x ↔ Tree null sub T m roots b q x := by
  refine tree_congr hT fun c q' y j hy hTj => write_of_ne ?_
  rintro ⟨rfl, rfl⟩
  obtain ⟨rfl, rfl⟩ := hsep c a q' p y hy hf
  exact hleaf hTj

include hleaf in
theorem leaf_put (hr : roots b = some r) (hq : T q) : leaf null sub (write m f i e) r q j =
    if b = a ∧ q = p ∧ j = i then e else leaf null sub m r q j := by
  have hnode : node null sub (write m f i e) r q = node null sub m r q := by
    refine node_congr_of_tree hT (fun c q' y j hy hTj => write_of_ne ?_) hr hq
    rintro ⟨rfl, rfl⟩
    obtain ⟨rfl, rfl⟩ := hsep c a q' p y hy hf
    exact hleaf hTj
  unfold leaf
  rw [hnode]
  split
  · next h =>
    obtain ⟨rfl, rfl, rfl⟩ := h
    obtain ⟨-, r', hr', hn⟩ := hf
    obtain rfl := Option.some.inj (hr.symm.trans hr')
    rw [hn]
    exact write_self
  · next h =>
    cases hn : node null sub m r q with
    | none => rfl
    | some y =>
      refine write_of_ne ?_
      rintro ⟨rfl, rfl⟩
      obtain ⟨rfl, rfl⟩ := hsep b a q p y ⟨hq, r, hr, hn⟩ hf
      exact h ⟨rfl, rfl, rfl⟩

end Link

/-! ### A new tree -/

section Root

variable (hT : ∀ i p, T (i :: p) → T p) (hnil : T []) (ha : roots a = none)
  (hzero : ∀ i, T [i] → m g i = null)

include hT hzero in
theorem node_root (hq : T q) : node null sub m g q = if q = [] then some g else none := by
  rcases List.eq_nil_or_concat q with rfl | ⟨l, j, rfl⟩
  · rfl
  · rw [List.concat_eq_append] at hq ⊢
    have hsuf : [j] <:+ l ++ [j] := List.suffix_append _ _
    rw [if_neg (by simp), node_none_of_suffix ?_ hsuf]
    show (if m g j = null then none else some (sub (m g j))) = none
    rw [if_pos (hzero j (closed_suffix hT hq hsuf))]

include hT hnil ha hzero in
/-- **A new tree** that has its root only. -/
theorem tree_root : Tree null sub T m (Function.update roots a (some g)) b q x ↔
    Tree null sub T m roots b q x ∨ b = a ∧ q = [] ∧ x = g := by
  by_cases hb : b = a
  · subst hb
    constructor
    · rintro ⟨hq, r, hr, hn⟩
      rw [Function.update_self, Option.some.injEq] at hr
      subst hr
      rw [node_root hT hzero hq] at hn
      split at hn
      · next hqn => exact .inr ⟨rfl, hqn, (Option.some.inj hn).symm⟩
      · simp at hn
    · rintro (⟨-, r, hr, -⟩ | ⟨-, rfl, rfl⟩)
      · rw [ha] at hr
        simp at hr
      · exact ⟨hnil, x, Function.update_self .., rfl⟩
  · constructor
    · rintro ⟨hq, r, hr, hn⟩
      rw [Function.update_of_ne hb] at hr
      exact .inl ⟨hq, r, hr, hn⟩
    · rintro (⟨hq, r, hr, hn⟩ | ⟨rfl, -, -⟩)
      · exact ⟨hq, r, by rw [Function.update_of_ne hb]; exact hr, hn⟩
      · exact absurd rfl hb

include hT hnil ha hzero in
theorem separate_root (hsep : Separate null sub T m roots)
    (hfresh : ∀ b q, ¬ Tree null sub T m roots b q g) :
    Separate null sub T m (Function.update roots a (some g)) := by
  exact hsep.insert hfresh fun b q x hx => (tree_root hT hnil ha hzero).1 hx

end Root

end Radix

end PlumOs
