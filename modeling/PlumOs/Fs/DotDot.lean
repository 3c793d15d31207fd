import Mathlib.Data.List.DropRight
import PlumOs.Fs.Chdir
import PlumOs.Lib.Traced
import PlumOs.Shell.Search

/-!
# Paths that end in `/..` (`sys/syscall.c`, `libc/shlib.c`)

`chdir` has a path in an array of 64 bytes on its stack, and rewrites one that ends in `/..` there: it
goes back over the `/`s, and then to the last `/` that is left.  The second loop ends in front of the array
at the latest, the first one has no such bound.

* `rewriteCwd` : the rewriting, with the indices of the array that it uses;
* `parentText` : what is meant, and `dotDot_eq`, that `dotDot` is this text;
* `Resolves` : the rewriting leaves this text, and keeps to the array;
* `resolves_iff` : **it does so exactly if** there is something in front of the `/..` that is not a `/`;
* `chdir_dotDot_iff` : so `cd ..` keeps to the array in each directory but the root.
-/

namespace PlumOs

/-! ### The rewriting -/

/-- The bytes of the array `cwd`, and those around it on the stack. -/
abbrev CwdArray : Type := ℤ → ℕ

/-- An access to the array; the reason to stop is the end of the fuel. -/
abbrev CwdAccess (α : Type) : Type := Traced Unit ℤ α

/-- `cwd[i]`. -/
def readCwd (cwd : CwdArray) (i : ℤ) : CwdAccess ℕ := .use i (cwd i)

/-- `cwd[i] = c`. -/
def writeCwd (cwd : CwdArray) (i : ℤ) (c : ℕ) : CwdAccess CwdArray := .use i (Function.update cwd i c)

/-- `strlen(cwd)`, from `i` on. -/
def strlenCwd (cwd : CwdArray) : ℕ → ℤ → CwdAccess ℤ
  | 0, _ => .lift (.error ())
  | fuel + 1, i => do
    let c ← readCwd cwd i
    if c = 0 then pure i else strlenCwd cwd fuel (i + 1)

/-- `cwd[len - 1] == '.' && cwd[len-2] == '.' && cwd[len-3] == '/'`. -/
def endsInDotDot (cwd : CwdArray) (len : ℤ) : CwdAccess Bool := do
  let c₁ ← readCwd cwd (len - 1)
  if c₁ = 46 then do
    let c₂ ← readCwd cwd (len - 2)
    if c₂ = 46 then do
      let c₃ ← readCwd cwd (len - 3)
      pure (c₃ == 47)
    else pure false
  else pure false

/-- `while(cwd[len] == '/') len--`. -/
def skipBack (cwd : CwdArray) : ℕ → ℤ → CwdAccess ℤ
  | 0, _ => .lift (.error ())
  | fuel + 1, len => do
    let c ← readCwd cwd len
    if c = 47 then skipBack cwd fuel (len - 1) else pure len

/-- `while(len >= 0 && cwd[len] != '/') len--`. -/
def slashBack (cwd : CwdArray) : ℕ → ℤ → CwdAccess ℤ
  | 0, _ => .lift (.error ())
  | fuel + 1, len =>
    if 0 ≤ len then do
      let c ← readCwd cwd len
      if c ≠ 47 then slashBack cwd fuel (len - 1) else pure len
    else pure len

/-- The end of the text at its last `/`, or the root. -/
def storeParent (cwd : CwdArray) (len : ℤ) : CwdAccess CwdArray :=
  if 0 ≤ len then writeCwd cwd (len + 1) 0
  else do
    let cwd ← writeCwd cwd 0 47
    writeCwd cwd 1 0

/-- The rewriting from the index of the `/` of `/..` on. -/
def goBack (fuel : ℕ) (cwd : CwdArray) (len : ℤ) : CwdAccess CwdArray := do
  let len ← skipBack cwd fuel len
  let len ← slashBack cwd fuel len
  storeParent cwd len

/-- The part of `chdir` between the copy of the path and `tarfs_open`. -/
def rewriteCwd (fuel : ℕ) (cwd : CwdArray) : CwdAccess CwdArray := do
  let len ← strlenCwd cwd fuel 0
  if 3 ≤ len then do
    let dots ← endsInDotDot cwd len
    if dots then goBack fuel cwd (len - 3) else pure cwd
  else pure cwd

/-! ### What is meant -/

/-- The text without its last name: it is cut back to just behind its last `/`, where those at its end do
not count. -/
def cutBack (q : List ℕ) : List ℕ := (q.rdropWhile (· = 47)).rdropWhile (· ≠ 47)

/-- The same, or the root if nothing is left. -/
def parentText (q : List ℕ) : List ℕ := if cutBack q = [] then [47] else cutBack q

/-- The array begins with these characters. -/
def Begins (cwd : CwdArray) (s : List ℕ) : Prop := ∀ i (h : i < s.length), cwd i = s[i]

/-- The array holds this text. -/
structure TextAt (cwd : CwdArray) (s : List ℕ) : Prop where
  begins : Begins cwd s
  nonzero : ∀ c ∈ s, c ≠ 0
  stop : cwd s.length = 0

/-- The index is one of the array. -/
def InCwd (i : ℤ) : Prop := 0 ≤ i ∧ i < nameSize

/-- The rewriting comes to an end with the text that is meant, and keeps to the array. -/
def Resolves (cwd : CwdArray) (q : List ℕ) : Prop :=
  ∃ n, ∀ fuel ≥ n, (∀ i ∈ (rewriteCwd fuel cwd).uses, InCwd i) ∧
    ∃ cwd', (rewriteCwd fuel cwd).result = .ok cwd' ∧ TextAt cwd' (parentText q)

section Loops

variable {cwd cwd' : CwdArray} {q r s : List ℕ} {fuel : ℕ} {c : ℕ}

theorem Begins.take (h : Begins cwd (r ++ s)) : Begins cwd r := by
  intro i hi
  rw [h i (by rw [List.length_append]; omega), List.getElem_append_left hi]

theorem Begins.last (h : Begins cwd (r ++ [c])) : cwd r.length = c := by
  rw [h r.length (by simp), List.getElem_concat_length rfl]

theorem length_concat_sub (r : List ℕ) (c : ℕ) : ((r ++ [c]).length : ℤ) - 1 = r.length := by
  rw [List.length_append, List.length_singleton]
  omega

/-- One access in front of the others. -/
theorem uses_readCwd_bind {α : Type} (cwd : CwdArray) (i : ℤ) (f : ℕ → CwdAccess α) :
    (readCwd cwd i >>= f).uses = i :: (f (cwd i)).uses := Traced.uses_bind_ok rfl

theorem result_readCwd_bind {α : Type} (cwd : CwdArray) (i : ℤ) (f : ℕ → CwdAccess α) :
    (readCwd cwd i >>= f).result = (f (cwd i)).result := Traced.result_bind

/-- The search for the 0. -/
theorem strlenCwd_spec (h : TextAt cwd s) {n : ℕ} (hn : n ≤ s.length) (hfuel : s.length < fuel + n) :
    (strlenCwd cwd fuel n).result = .ok s.length ∧
      ∀ i ∈ (strlenCwd cwd fuel n).uses, 0 ≤ i ∧ i ≤ s.length := by
  induction fuel generalizing n with
  | zero => omega
  | succ fuel ih =>
    rw [strlenCwd, uses_readCwd_bind, result_readCwd_bind, List.forall_mem_cons]
    by_cases hlast : n = s.length
    · rw [hlast, h.stop, if_pos rfl]
      exact ⟨rfl, ⟨by omega, by omega⟩, fun i hi => absurd hi List.not_mem_nil⟩
    · have hlt : n < s.length := by omega
      have hc : cwd n ≠ 0 := by
        rw [h.begins n hlt]
        exact h.nonzero _ (List.getElem_mem hlt)
      have hrest := ih (n := n + 1) (by omega) (by omega)
      rw [if_neg hc]
      exact ⟨hrest.1, ⟨by omega, by omega⟩, hrest.2⟩

/-- The first loop, where it ends in the array. -/
theorem skipBack_spec (h : Begins cwd r) (hne : ∃ c ∈ r, c ≠ 47) (hfuel : r.length ≤ fuel) :
    (skipBack cwd fuel (r.length - 1)).result = .ok ((r.rdropWhile (· = 47)).length - 1 : ℤ) ∧
      ∀ i ∈ (skipBack cwd fuel (r.length - 1)).uses, 0 ≤ i ∧ i < r.length := by
  induction r using List.reverseRecOn generalizing fuel with
  | nil => simp at hne
  | append_singleton r c ih =>
    obtain ⟨fuel, rfl⟩ : ∃ k, fuel = k + 1 := Nat.exists_eq_succ_of_ne_zero (by simp at hfuel; omega)
    rw [length_concat_sub, skipBack, uses_readCwd_bind, result_readCwd_bind, h.last,
      List.forall_mem_cons, List.rdropWhile_concat, List.length_append, List.length_singleton]
    rw [List.length_append, List.length_singleton] at hfuel
    by_cases hc : c = 47
    · have hlen : r.length ≤ fuel := by omega
      have hrest := ih h.take ?_ hlen
      · rw [if_pos hc, if_pos (by simpa using hc)]
        refine ⟨hrest.1, ⟨by omega, by omega⟩, fun i hi => ?_⟩
        have := hrest.2 i hi
        omega
      · obtain ⟨d, hd, hne⟩ := hne
        obtain hd | hd := List.mem_append.1 hd
        · exact ⟨d, hd, hne⟩
        · exact absurd ((List.mem_singleton.1 hd).trans hc) hne
    · rw [if_neg hc, if_neg (by simpa using hc), List.length_append, List.length_singleton]
      refine ⟨?_, ⟨by omega, by omega⟩, fun i hi => absurd hi List.not_mem_nil⟩
      rw [Traced.result_pure]
      congr 1
      omega

/-- The first loop, where it does not. -/
theorem skipBack_outside (h : Begins cwd r) (hall : ∀ c ∈ r, c = 47) (hfuel : r.length < fuel) :
    -1 ∈ (skipBack cwd fuel (r.length - 1)).uses := by
  induction r using List.reverseRecOn generalizing fuel with
  | nil =>
    obtain ⟨fuel, rfl⟩ : ∃ k, fuel = k + 1 := Nat.exists_eq_succ_of_ne_zero (Nat.ne_of_gt hfuel)
    rw [skipBack, uses_readCwd_bind]
    exact List.mem_cons_self ..
  | append_singleton r c ih =>
    obtain ⟨fuel, rfl⟩ : ∃ k, fuel = k + 1 := Nat.exists_eq_succ_of_ne_zero (by omega)
    rw [List.length_append, List.length_singleton] at hfuel
    rw [length_concat_sub, skipBack, uses_readCwd_bind, h.last, if_pos (hall c (by simp))]
    exact List.mem_cons_of_mem _ (ih h.take (fun d hd => hall d (by simp [hd])) (by omega))

/-- The second loop. -/
theorem slashBack_spec (h : Begins cwd r) (hfuel : r.length < fuel) :
    (slashBack cwd fuel (r.length - 1)).result = .ok ((r.rdropWhile (· ≠ 47)).length - 1 : ℤ) ∧
      ∀ i ∈ (slashBack cwd fuel (r.length - 1)).uses, 0 ≤ i ∧ i < r.length := by
  induction r using List.reverseRecOn generalizing fuel with
  | nil =>
    obtain ⟨fuel, rfl⟩ : ∃ k, fuel = k + 1 := Nat.exists_eq_succ_of_ne_zero (Nat.ne_of_gt hfuel)
    exact ⟨rfl, fun i hi => absurd hi List.not_mem_nil⟩
  | append_singleton r c ih =>
    obtain ⟨fuel, rfl⟩ : ∃ k, fuel = k + 1 := Nat.exists_eq_succ_of_ne_zero (by omega)
    rw [List.length_append, List.length_singleton] at hfuel
    rw [length_concat_sub, slashBack, if_pos (by omega), uses_readCwd_bind, result_readCwd_bind, h.last,
      List.forall_mem_cons, List.rdropWhile_concat, List.length_append, List.length_singleton]
    by_cases hc : c = 47
    · rw [if_neg (not_not.2 hc), if_neg (by simpa using hc), List.length_append, List.length_singleton]
      refine ⟨?_, ⟨by omega, by omega⟩, fun i hi => absurd hi List.not_mem_nil⟩
      rw [Traced.result_pure]
      congr 1
      omega
    · have hlen : r.length < fuel := by omega
      have hrest := ih h.take hlen
      rw [if_pos hc, if_pos (by simpa using hc)]
      refine ⟨hrest.1, ⟨by omega, by omega⟩, fun i hi => ?_⟩
      have := hrest.2 i hi
      omega

/-- The test for `/..` at the end. -/
theorem endsInDotDot_spec (h : Begins cwd (q ++ [47, 46, 46])) :
    (endsInDotDot cwd (q.length + 3)).result = .ok true ∧
      ∀ i ∈ (endsInDotDot cwd (q.length + 3)).uses, 0 ≤ i ∧ i < q.length + 3 := by
  have hlen : (q ++ [47, 46, 46]).length = q.length + 3 := List.length_append
  have hget : ∀ (k : ℕ) (hk : k < 3), cwd (q.length + k : ℕ) = [47, 46, 46][k] := by
    intro k hk
    rw [h (q.length + k) (by rw [hlen]; omega), List.getElem_append_right (by omega)]
    simp only [Nat.add_sub_cancel_left]
  have hidx : ∀ k : ℕ, k ≤ 3 → ((q.length : ℤ) + 3 - k) = (q.length + (3 - k) : ℕ) := by omega
  have h₁ : cwd ((q.length : ℤ) + 3 - 1) = 46 := by
    rw [show (1 : ℤ) = (1 : ℕ) from rfl, hidx 1 (by decide)]
    exact hget 2 (by decide)
  have h₂ : cwd ((q.length : ℤ) + 3 - 2) = 46 := by
    rw [show (2 : ℤ) = (2 : ℕ) from rfl, hidx 2 (by decide)]
    exact hget 1 (by decide)
  have h₃ : cwd ((q.length : ℤ) + 3 - 3) = 47 := by
    rw [show (q.length : ℤ) + 3 - 3 = (q.length + 0 : ℕ) by omega]
    exact hget 0 (by decide)
  rw [endsInDotDot, uses_readCwd_bind, result_readCwd_bind, h₁, if_pos rfl, uses_readCwd_bind,
    result_readCwd_bind, h₂, if_pos rfl, uses_readCwd_bind, result_readCwd_bind, h₃]
  refine ⟨rfl, fun i hi => ?_⟩
  simp only [List.mem_cons, Traced.uses_pure, List.not_mem_nil, or_false] at hi
  omega

/-! ### Which paths are rewritten in the array -/

theorem prefix_cutBack (q : List ℕ) : cutBack q <+: q :=
  (List.rdropWhile_prefix _ _).trans (List.rdropWhile_prefix _ _)

theorem Begins.of_prefix (h : Begins cwd s) (hr : r <+: s) : Begins cwd r := by
  obtain ⟨t, rfl⟩ := hr
  exact h.take

/-- The two loops, from the last `/` on. -/
theorem loops_spec (h : Begins cwd (q ++ [47])) (hne : ∃ c ∈ q, c ≠ 47) (hfuel : q.length + 1 < fuel) :
    ∃ len : ℤ, (skipBack cwd fuel q.length).result = .ok len ∧
      (slashBack cwd fuel len).result = .ok ((cutBack q).length - 1 : ℤ) ∧
        (∀ i ∈ (skipBack cwd fuel q.length).uses, 0 ≤ i ∧ i ≤ q.length) ∧
          ∀ i ∈ (slashBack cwd fuel len).uses, 0 ≤ i ∧ i ≤ q.length := by
  have hdrop : (q ++ [47]).rdropWhile (· = 47) = q.rdropWhile (· = 47) :=
    List.rdropWhile_concat_pos _ _ _ rfl
  have hpre : q.rdropWhile (· = 47) <+: q := List.rdropWhile_prefix _ _
  have hle := hpre.length_le
  have hlen : (q ++ [47]).length = q.length + 1 := List.length_append
  obtain ⟨c, hc, hne⟩ := hne
  have hfuel₁ : (q ++ [47]).length ≤ fuel := by rw [hlen]; exact hfuel.le
  have hfuel₂ : (q.rdropWhile (· = 47)).length < fuel := by omega
  have hskip := skipBack_spec h ⟨c, List.mem_append_left _ hc, hne⟩ hfuel₁
  rw [length_concat_sub, hdrop, hlen] at hskip
  have hback := slashBack_spec (h.take.of_prefix hpre) hfuel₂
  refine ⟨_, hskip.1, hback.1, fun i hi => ?_, fun i hi => ?_⟩
  · have := hskip.2 i hi
    omega
  · have := hback.2 i hi
    omega

/-- The stores at the end. -/
theorem storeParent_spec (h : Begins cwd q) (hnonzero : ∀ c ∈ q, c ≠ 0) :
    (∀ i ∈ (storeParent cwd ((cutBack q).length - 1)).uses, 0 ≤ i ∧ i ≤ q.length + 1) ∧
      ∃ cwd', (storeParent cwd ((cutBack q).length - 1)).result = .ok cwd' ∧
        TextAt cwd' (parentText q) := by
  have hcut := h.of_prefix (prefix_cutBack q)
  have hle := (prefix_cutBack q).length_le
  by_cases hnil : cutBack q = []
  · rw [parentText, if_pos hnil, hnil, storeParent, if_neg (by decide)]
    refine ⟨fun i hi => ?_, _, rfl, fun i hi => ?_, by decide, ?_⟩
    · obtain rfl | rfl : i = 0 ∨ i = 1 := by simpa [Traced.uses_bind_ok, writeCwd] using hi
      all_goals omega
    · obtain rfl : i = 0 := by simpa using hi
      rfl
    · exact Function.update_self ..
  · have hpos : 0 < (cutBack q).length := List.length_pos_iff.2 hnil
    rw [parentText, if_neg hnil, storeParent, if_pos (by omega), Int.sub_add_cancel]
    refine ⟨fun i hi => ?_, _, rfl, fun i hi => ?_, fun c hc => ?_, ?_⟩
    · obtain rfl := List.mem_singleton.1 hi
      omega
    · rw [Function.update_of_ne (by omega)]
      exact hcut i hi
    · exact hnonzero c ((prefix_cutBack q).subset hc)
    · exact Function.update_self ..

/-- The rewriting up to the loops. -/
theorem rewriteCwd_eq (h : TextAt cwd (q ++ [47, 46, 46])) (hfuel : q.length + 3 < fuel) :
    (rewriteCwd fuel cwd).result = (goBack fuel cwd q.length).result ∧
      ∃ pre : List ℤ, (∀ i ∈ pre, 0 ≤ i ∧ i ≤ q.length + 3) ∧
        (rewriteCwd fuel cwd).uses = pre ++ (goBack fuel cwd q.length).uses := by
  have hpath : (q ++ [47, 46, 46]).length = q.length + 3 := List.length_append
  have hlen : (q ++ [47, 46, 46]).length < fuel + 0 := by rw [hpath]; omega
  have hstr := strlenCwd_spec h (Nat.zero_le _) hlen
  rw [hpath, Nat.cast_zero, Nat.cast_add, Nat.cast_ofNat] at hstr
  have hdots := endsInDotDot_spec h.begins
  have hback : (q.length : ℤ) + 3 - 3 = q.length := by omega
  have hbody : ∀ f : ℤ → CwdAccess CwdArray, (strlenCwd cwd fuel 0 >>= f).uses =
      (strlenCwd cwd fuel 0).uses ++ (f (q.length + 3)).uses := fun f => Traced.uses_bind_ok hstr.1
  rw [rewriteCwd, hbody, Traced.result_bind, hstr.1, ok_bind, if_pos (by omega),
    Traced.uses_bind_ok hdots.1, Traced.result_bind, hdots.1, ok_bind, if_pos rfl, hback]
  refine ⟨rfl, (strlenCwd cwd fuel 0).uses ++ (endsInDotDot cwd (q.length + 3)).uses, ?_,
    (List.append_assoc ..).symm⟩
  intro i hi
  obtain hi | hi := List.mem_append.1 hi
  · exact hstr.2 i hi
  · have := hdots.2 i hi
    omega

/-- With a character other than `/` in front, the rewriting keeps to the array. -/
theorem resolves_of_name (h : TextAt cwd (q ++ [47, 46, 46])) (hlen : q.length + 3 < nameSize)
    (hne : ∃ c ∈ q, c ≠ 47) : Resolves cwd q := by
  have hslash : q ++ [47, 46, 46] = (q ++ [47]) ++ [46, 46] := by simp
  have hq : Begins cwd (q ++ [47]) := (hslash ▸ h.begins).take
  have hnonzero : ∀ c ∈ q, c ≠ 0 := fun c hc => h.nonzero c (List.mem_append_left _ hc)
  refine ⟨q.length + 4, fun fuel hfuel => ?_⟩
  have hfuel₁ : q.length + 3 < fuel := hfuel
  have hfuel₂ : q.length + 1 < fuel := by omega
  obtain ⟨hresult, pre, hpre, huses⟩ := rewriteCwd_eq h hfuel₁
  obtain ⟨len, hskip, hback, hskipUses, hbackUses⟩ := loops_spec hq hne hfuel₂
  obtain ⟨hstoreUses, cwd', hstore, htext⟩ := storeParent_spec hq.take hnonzero
  have hgo : (goBack fuel cwd q.length).uses = (skipBack cwd fuel q.length).uses ++
      ((slashBack cwd fuel len).uses ++ (storeParent cwd ((cutBack q).length - 1)).uses) := by
    rw [goBack, Traced.uses_bind_ok hskip, Traced.uses_bind_ok hback]
  rw [huses, hgo, hresult]
  constructor
  · intro i hi
    have hrange : 0 ≤ i ∧ i ≤ (q.length : ℤ) + 3 := by
      simp only [List.mem_append] at hi
      obtain hi | hi | hi | hi := hi
      · exact hpre i hi
      · have := hskipUses i hi
        omega
      · have := hbackUses i hi
        omega
      · have := hstoreUses i hi
        omega
    unfold InCwd nameSize at *
    omega
  · refine ⟨cwd', ?_, htext⟩
    rw [goBack, Traced.result_bind, hskip, ok_bind, Traced.result_bind, hback]
    exact hstore

/-- Without one, the first loop reads in front of it. -/
theorem not_resolves (h : TextAt cwd (q ++ [47, 46, 46])) (hall : ∀ c ∈ q, c = 47) (r : List ℕ) :
    ¬Resolves cwd r := by
  rintro ⟨n, hn⟩
  have hslash : q ++ [47, 46, 46] = (q ++ [47]) ++ [46, 46] := by simp
  have hq : Begins cwd (q ++ [47]) := (hslash ▸ h.begins).take
  have hall' : ∀ c ∈ q ++ [47], c = 47 := by
    intro c hc
    obtain hc | hc := List.mem_append.1 hc
    · exact hall c hc
    · exact List.mem_singleton.1 hc
  have hfuel : (q ++ [47]).length < max n (q.length + 4) := by
    rw [List.length_append, List.length_singleton]
    omega
  have hroom : q.length + 3 < max n (q.length + 4) := by omega
  obtain ⟨-, pre, -, huses⟩ := rewriteCwd_eq h hroom
  have hout := skipBack_outside hq hall' hfuel
  rw [length_concat_sub] at hout
  have hmem : (-1 : ℤ) ∈ (rewriteCwd (max n (q.length + 4)) cwd).uses := by
    rw [huses, goBack]
    exact List.mem_append_right _ (Traced.mem_uses_bind.2 (.inl hout))
  exact absurd ((hn _ (Nat.le_max_left ..)).1 _ hmem).1 (by decide)

/-- **The rewriting of a path that ends in `/..`** gives the text that is meant and keeps to the array
exactly if something else than a `/` is in front of the `/..`. -/
theorem resolves_iff (h : TextAt cwd (q ++ [47, 46, 46])) (hlen : q.length + 3 < nameSize) :
    Resolves cwd q ↔ ∃ c ∈ q, c ≠ 47 := by
  constructor
  · intro hres
    by_contra hall
    push Not at hall
    exact not_resolves h hall q hres
  · exact resolves_of_name h hlen

end Loops

/-! ### The text -/

section Text

variable {q r s : List ℕ} {c : ℕ}

theorem getD_concat (r : List ℕ) (c : ℕ) (s : List ℕ) : (r ++ [c] ++ s).getD r.length 0 = c := by
  rw [List.append_assoc, List.getD_append_right _ _ _ _ (Nat.le_refl _), Nat.sub_self]
  rfl

/-- An index from the end of a text. -/
def endIndex (r : List ℕ) : Option ℕ := if r = [] then none else some (r.length - 1)

theorem endIndex_concat (r : List ℕ) (c : ℕ) : endIndex (r ++ [c]) = some r.length := by
  rw [endIndex, if_neg (by simp), List.length_append, List.length_singleton, Nat.add_sub_cancel]

theorem skipSlashes_eq (r s : List ℕ) (c : ℕ) :
    skipSlashes (r ++ [c] ++ s) r.length = endIndex ((r ++ [c]).rdropWhile (· = 47)) := by
  induction r using List.reverseRecOn generalizing c s with
  | nil =>
    rw [List.length_nil, skipSlashes, List.nil_append, List.rdropWhile_singleton]
    by_cases hc : c = 47 <;> simp [hc, endIndex]
  | append_singleton r d ih =>
    have hget := getD_concat (r ++ [d]) c s
    rw [List.length_append, List.length_singleton] at hget ⊢
    rw [skipSlashes, hget, List.rdropWhile_concat]
    by_cases hc : c = 47
    · rw [if_pos hc, if_pos (by simpa using hc), List.append_assoc, ih]
    · rw [if_neg hc, if_neg (by simpa using hc), endIndex_concat, List.length_append,
        List.length_singleton]

theorem lastSlash_eq (r s : List ℕ) (c : ℕ) :
    lastSlash (r ++ [c] ++ s) r.length = endIndex ((r ++ [c]).rdropWhile (· ≠ 47)) := by
  induction r using List.reverseRecOn generalizing c s with
  | nil =>
    rw [List.length_nil, lastSlash, List.nil_append, List.rdropWhile_singleton]
    by_cases hc : c = 47 <;> simp [hc, endIndex]
  | append_singleton r d ih =>
    have hget := getD_concat (r ++ [d]) c s
    rw [List.length_append, List.length_singleton] at hget ⊢
    rw [lastSlash, hget, List.rdropWhile_concat]
    by_cases hc : c = 47
    · rw [if_pos hc, if_neg (by simpa using hc), endIndex_concat, List.length_append,
        List.length_singleton]
    · rw [if_neg hc, if_pos (by simpa using hc), List.append_assoc, ih]

/-- **The text that `chdir` goes on with** is the one that is meant, for all paths that end in `/..`. -/
theorem dotDot_eq (q : List ℕ) : dotDot (q ++ [47, 46, 46]) = parentText q := by
  have hlen : (q ++ [47, 46, 46]).length = q.length + 3 := List.length_append
  have hsplit : q ++ [47, 46, 46] = q ++ [47] ++ [46, 46] := by simp
  have hdrop : (q ++ [47]).rdropWhile (· = 47) = q.rdropWhile (· = 47) :=
    List.rdropWhile_concat_pos _ _ _ rfl
  have hend : 3 ≤ q.length + 3 ∧ (q ++ [47, 46, 46]).getD (q.length + 3 - 1) 0 = 46 ∧
      (q ++ [47, 46, 46]).getD (q.length + 3 - 2) 0 = 46 ∧
        (q ++ [47, 46, 46]).getD (q.length + 3 - 3) 0 = 47 := by
    have hget : ∀ k, (q ++ [47, 46, 46]).getD (q.length + k) 0 = [47, 46, 46].getD k 0 := by
      intro k
      rw [List.getD_append_right _ _ _ _ (Nat.le_add_right ..), Nat.add_sub_cancel_left]
    exact ⟨Nat.le_add_left .., hget 2, hget 1, hget 0⟩
  have hskip : skipSlashes (q ++ [47, 46, 46]) (q.length + 3 - 3) =
      endIndex (q.rdropWhile (· = 47)) := by
    rw [Nat.add_sub_cancel, hsplit, skipSlashes_eq, hdrop]
  rw [dotDot, hlen]
  simp only [if_pos hend, hskip]
  rw [parentText]
  obtain hnil | ⟨r, c, hr⟩ := List.eq_nil_or_concat (q.rdropWhile (· = 47))
  · have hcut : cutBack q = [] := by rw [cutBack, hnil, List.rdropWhile_nil]
    rw [hnil, if_pos hcut]
    rfl
  · rw [List.concat_eq_append] at hr
    have hpre : r ++ [c] <+: q ++ [47, 46, 46] := by
      rw [← hr]
      exact (List.rdropWhile_prefix _ _).trans (List.prefix_append ..)
    obtain ⟨t, ht⟩ := hpre
    have hslash : lastSlash (q ++ [47, 46, 46]) r.length = endIndex (cutBack q) := by
      rw [← ht, lastSlash_eq, cutBack, hr]
    rw [hr, endIndex_concat, Option.bind_some, hslash, endIndex]
    by_cases hcut : cutBack q = []
    · rw [if_pos hcut, if_pos hcut]
    · have hpos : 0 < (cutBack q).length := List.length_pos_iff.2 hcut
      have htake : (q ++ [47, 46, 46]).take (cutBack q).length = cutBack q :=
        List.prefix_iff_eq_take.1 ((prefix_cutBack q).trans (List.prefix_append ..)) |>.symm
      rw [if_neg hcut, if_neg hcut, ← htake]
      simp only [htake, Nat.sub_add_cancel hpos]

end Text

/-! ### `cd ..` -/

section Cd

variable {cwd : CwdArray} {q d garbage : List ℕ} {before : ℕ} {envp : List (List ℕ)}

/-- A `/` at the end does not count. -/
theorem parentText_concat (q : List ℕ) : parentText (q ++ [47]) = parentText q := by
  have hdrop : (q ++ [47]).rdropWhile (· = 47) = q.rdropWhile (· = 47) :=
    List.rdropWhile_concat_pos _ _ _ rfl
  rw [parentText, parentText, cutBack, hdrop, ← cutBack]

/-- The path of `..` in a directory. -/
theorem getFullpath_dotDot
    (h : getFullpath before garbage d envp [46, 46] = .ok (q ++ [47, 46, 46])) : d = q ∨ d = q ++ [47] := by
  rw [getFullpath, if_neg (by decide), if_neg (by decide), inDirectory, joined] at h
  split_ifs at h
  rw [Except.ok.injEq, show [47, 46, 46] = [47] ++ [46, 46] from rfl, ← List.append_assoc] at h
  have hslashed : slashed before d = q ++ [47] := List.append_cancel_right h
  rw [slashed] at hslashed
  split_ifs at hslashed
  · exact .inr hslashed
  · exact .inl (List.append_cancel_right hslashed)

/-- **`chdir` resolves a trailing `..`** in its array exactly if something else than a `/` is in front of
it; so the shell's `cd ..` does in every directory but the root. -/
theorem chdir_dotDot_iff (h : TextAt cwd (q ++ [47, 46, 46])) (hlen : q.length + 3 < nameSize) :
    (Resolves cwd q ↔ ∃ c ∈ q, c ≠ 47) ∧
      ∀ before garbage d envp,
        getFullpath before garbage d envp [46, 46] = .ok (q ++ [47, 46, 46]) →
          (Resolves cwd d ↔ ∃ c ∈ d, c ≠ 47) := by
  refine ⟨resolves_iff h hlen, fun before garbage d envp hpath => ?_⟩
  obtain rfl | rfl := getFullpath_dotDot hpath
  · exact resolves_iff h hlen
  · have hnames : (∃ c ∈ q ++ [47], c ≠ 47) ↔ ∃ c ∈ q, c ≠ 47 := by simp
    rw [Resolves, parentText_concat, hnames]
    exact resolves_iff h hlen

end Cd

/-- The array with `q/..`, and zeros around it. -/
def cwdArray (q : List ℕ) : CwdArray := fun i => if 0 ≤ i then (q ++ [47, 46, 46]).getD i.toNat 0 else 0

theorem textAt_cwdArray {q : List ℕ} (hq : ∀ c ∈ q, c ≠ 0) : TextAt (cwdArray q) (q ++ [47, 46, 46]) where
  begins i hi := by
    rw [cwdArray, if_pos (Int.natCast_nonneg i), Int.toNat_natCast, List.getD_eq_getElem _ _ hi]
  nonzero c hc := by
    obtain hc | hc := List.mem_append.1 hc
    · exact hq c hc
    · exact (by decide : ∀ c ∈ [47, 46, 46], c ≠ 0) c hc
  stop := by
    rw [cwdArray, if_pos (Int.natCast_nonneg _), Int.toNat_natCast, List.getD_eq_default _ _ (Nat.le_refl _)]

/-- The path `a/..`. -/
theorem chdir_dotDot_name : (Resolves (cwdArray [97]) [97] ↔ ∃ c ∈ [97], c ≠ 47) ∧
    ∀ before garbage d envp,
      getFullpath before garbage d envp [46, 46] = .ok ([97] ++ [47, 46, 46]) →
        (Resolves (cwdArray [97]) d ↔ ∃ c ∈ d, c ≠ 47) :=
  chdir_dotDot_iff (textAt_cwdArray (by decide)) (by decide)

/-- The path `/..`, which is that of `cd ..` in the root directory. -/
theorem chdir_dotDot_fails : ¬∀ (cwd : CwdArray) (q : List ℕ), TextAt cwd (q ++ [47, 46, 46]) →
    q.length + 3 < nameSize → Resolves cwd q := fun h =>
  not_resolves (textAt_cwdArray (q := []) (by decide)) (by decide) []
    (h (cwdArray []) [] (textAt_cwdArray (by decide)) (by decide))

end PlumOs
