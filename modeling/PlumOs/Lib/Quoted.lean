import Mathlib.Data.List.Basic

/-!
# Lines cut into pieces

A line is a list of symbols.  Some of them separate its pieces, some are quotes and some end the line; a
separator between quotes is part of a piece.

* `Quoting.front` : the piece that a line begins with, of no more than `lim` symbols, and the rest;
* `Quoting.starts`, `Quoting.pieces` : where the pieces of a line begin, and the pieces;
* `Quoting.misquoted` : a quote that closes has something else behind it than it should have;
* `front_append` : symbols that are nothing special;
* `starts_congr`, `pieces_congr` : **a limit that no piece exceeds does not matter**;
* `starts_append_stop`, `pieces_append_stop` : **what stands behind the end of the line** does not
  matter.
-/

namespace PlumOs

/-- The special symbols of a line. -/
structure Quoting (α : Type*) where
  /-- The symbol separates words. -/
  sep : α → Bool
  /-- The symbol begins and ends a part that is taken as it is. -/
  quote : α → Bool
  /-- The symbol ends the line. -/
  stop : α → Bool

namespace Quoting

variable {α : Type*} (Q : Quoting α)

/-- The piece that a line begins with, of no more than `lim` symbols, and the rest of the line.  It begins
between quotes if `quoted` says so. -/
def front : ℕ → Bool → List α → List α × List α
  | 0, _, l => ([], l)
  | _ + 1, _, [] => ([], [])
  | lim + 1, quoted, c :: l =>
    if Q.stop c || (Q.sep c && !quoted) then ([], c :: l)
    else
      let r := front lim (quoted ^^ Q.quote c) l
      (c :: r.1, r.2)

/-- A quote of the front piece closes and has something else behind it than `follows` admits. -/
def misquoted (follows : List α → Bool) : ℕ → Bool → List α → Bool
  | 0, _, _ => false
  | _ + 1, _, [] => false
  | lim + 1, quoted, c :: l =>
    if Q.stop c || (Q.sep c && !quoted) then false
    else (Q.quote c && quoted && !follows l) || misquoted follows lim (quoted ^^ Q.quote c) l

theorem length_front_snd_le (lim : ℕ) (quoted : Bool) (l : List α) :
    (Q.front lim quoted l).2.length ≤ l.length := by
  induction lim generalizing quoted l with
  | zero => exact Nat.le_refl _
  | succ lim ih =>
    cases l with
    | nil => exact Nat.le_refl _
    | cons c l =>
      rw [front]
      split
      · exact Nat.le_refl _
      · exact Nat.le_succ_of_le (ih _ l)

theorem length_front_fst_le (lim : ℕ) (quoted : Bool) (l : List α) :
    (Q.front lim quoted l).1.length ≤ lim := by
  induction lim generalizing quoted l with
  | zero => exact Nat.le_refl _
  | succ lim ih =>
    cases l with
    | nil => exact Nat.zero_le _
    | cons c l =>
      rw [front]
      split
      · exact Nat.zero_le _
      · exact Nat.succ_le_succ (ih _ l)

theorem length_dropWhile_sep_le (l : List α) : (l.dropWhile Q.sep).length ≤ l.length :=
  (List.dropWhile_suffix Q.sep).length_le

/-- The rests of a line that its pieces begin, in pieces of no more than `lim` symbols. -/
def starts (lim : ℕ) (l : List α) : List (List α) :=
  match _h : l.dropWhile Q.sep with
  | [] => []
  | c :: l' =>
    if Q.stop c then []
    -- the symbol `c` is in the piece
    else (c :: l') :: starts lim (Q.front (lim - 1) (Q.quote c) l').2
termination_by l.length
decreasing_by
  have hfront := Q.length_front_snd_le (lim - 1) (Q.quote c) l'
  have hdrop := Q.length_dropWhile_sep_le l
  rw [_h, List.length_cons] at hdrop
  omega

/-- The pieces of a line, of no more than `lim` symbols. -/
def pieces (lim : ℕ) (l : List α) : List (List α) := (Q.starts lim l).map fun s => (Q.front lim false s).1

variable {Q} {c : α} {l l' w : List α} {lim lim' : ℕ} {quoted : Bool} {follows : List α → Bool}

/-! ### The front piece -/

theorem front_of_ends (h : (Q.stop c || (Q.sep c && !quoted)) = true) :
    Q.front (lim + 1) quoted (c :: l) = ([], c :: l) := by
  rw [front, if_pos h]

theorem front_of_goes (h : (Q.stop c || (Q.sep c && !quoted)) = false) :
    Q.front (lim + 1) quoted (c :: l) =
      (c :: (Q.front lim (quoted ^^ Q.quote c) l).1, (Q.front lim (quoted ^^ Q.quote c) l).2) := by
  rw [front, if_neg (by simp [h])]

theorem misquoted_of_ends (h : (Q.stop c || (Q.sep c && !quoted)) = true) :
    Q.misquoted follows (lim + 1) quoted (c :: l) = false := by
  rw [misquoted, if_pos h]

theorem misquoted_of_goes (h : (Q.stop c || (Q.sep c && !quoted)) = false) :
    Q.misquoted follows (lim + 1) quoted (c :: l) =
      ((Q.quote c && quoted && !follows l) || Q.misquoted follows lim (quoted ^^ Q.quote c) l) := by
  rw [misquoted, if_neg (by simp [h])]

theorem front_append_snd (lim : ℕ) (quoted : Bool) (l : List α) :
    (Q.front lim quoted l).1 ++ (Q.front lim quoted l).2 = l := by
  induction lim generalizing quoted l with
  | zero => rfl
  | succ lim ih =>
    cases l with
    | nil => rfl
    | cons c l =>
      rw [front]
      split
      · rfl
      · exact congrArg (c :: ·) (ih _ l)

/-- A symbol that is nothing special where it stands. -/
def Ordinary (Q : Quoting α) (quoted : Bool) (c : α) : Prop :=
  Q.stop c = false ∧ Q.quote c = false ∧ (quoted = false → Q.sep c = false)

theorem Ordinary.goes (h : Q.Ordinary quoted c) : (Q.stop c || (Q.sep c && !quoted)) = false := by
  cases quoted with
  | false => simp [h.1, h.2.2 rfl]
  | true => simp [h.1]

theorem Ordinary.xor_quote (h : Q.Ordinary quoted c) : (quoted ^^ Q.quote c) = quoted := by
  rw [h.2.1, Bool.xor_false]

/-- **Symbols that are nothing special** are part of the piece. -/
theorem front_append (hw : ∀ c ∈ w, Q.Ordinary quoted c) (lim : ℕ) (l : List α) :
    Q.front (w.length + lim) quoted (w ++ l) =
      (w ++ (Q.front lim quoted l).1, (Q.front lim quoted l).2) := by
  induction w with
  | nil => rw [List.length_nil, Nat.zero_add, List.nil_append, List.nil_append]
  | cons c w ih =>
    obtain ⟨hc, hw⟩ := List.forall_mem_cons.1 hw
    rw [List.length_cons, Nat.add_right_comm, List.cons_append, front_of_goes hc.goes, hc.xor_quote,
      ih hw]
    rfl

theorem misquoted_append (hw : ∀ c ∈ w, Q.Ordinary quoted c) (lim : ℕ) (l : List α) :
    Q.misquoted follows (w.length + lim) quoted (w ++ l) = Q.misquoted follows lim quoted l := by
  induction w with
  | nil => rw [List.length_nil, Nat.zero_add, List.nil_append]
  | cons c w ih =>
    obtain ⟨hc, hw⟩ := List.forall_mem_cons.1 hw
    rw [List.length_cons, Nat.add_right_comm, List.cons_append, misquoted_of_goes hc.goes, hc.xor_quote,
      ih hw, hc.2.1, Bool.false_and, Bool.false_and, Bool.false_or]

/-- A limit that the piece does not exceed does not matter. -/
theorem front_congr (h : (Q.front lim quoted l).1.length ≤ lim') (hle : lim' ≤ lim) :
    Q.front lim' quoted l = Q.front lim quoted l := by
  induction lim' generalizing lim quoted l with
  | zero =>
    have hnil : (Q.front lim quoted l).1 = [] := List.length_eq_zero_iff.1 (Nat.le_zero.1 h)
    have hrest := front_append_snd (Q := Q) lim quoted l
    rw [hnil, List.nil_append] at hrest
    exact Prod.ext hnil.symm hrest.symm
  | succ lim' ih =>
    obtain ⟨lim, rfl⟩ := Nat.exists_eq_succ_of_ne_zero (Nat.ne_of_gt (Nat.lt_of_lt_of_le lim'.succ_pos hle))
    cases l with
    | nil => rfl
    | cons c l =>
      cases hc : Q.stop c || (Q.sep c && !quoted) with
      | true => rw [front_of_ends hc, front_of_ends hc]
      | false =>
        rw [front_of_goes hc, List.length_cons] at h
        rw [front_of_goes hc, front_of_goes hc, ih (Nat.le_of_succ_le_succ h) (Nat.le_of_succ_le_succ hle)]

/-! ### The pieces -/

theorem starts_of_nil (h : l.dropWhile Q.sep = []) : Q.starts lim l = [] := by
  rw [starts]
  split
  · rfl
  · rename_i h'
    rw [h] at h'
    cases h'

theorem starts_of_stop (h : l.dropWhile Q.sep = c :: l') (hstop : Q.stop c = true) :
    Q.starts lim l = [] := by
  rw [starts]
  split
  · rfl
  · rename_i h'
    rw [h] at h'
    cases h'
    exact if_pos hstop

/-- The symbol that the first piece of a line begins with. -/
theorem goes_of_piece (h : l.dropWhile Q.sep = c :: l') (hstop : Q.stop c = false) :
    (Q.stop c || (Q.sep c && !false)) = false := by
  have hhead := List.head?_dropWhile_not Q.sep l
  rw [h] at hhead
  rw [hstop, show Q.sep c = false from hhead]
  rfl

/-- The first piece of a line. -/
theorem starts_of_piece (h : l.dropWhile Q.sep = c :: l') (hstop : Q.stop c = false) :
    Q.starts (lim + 1) l = (c :: l') :: Q.starts (lim + 1) (Q.front (lim + 1) false (c :: l')).2 := by
  rw [front_of_goes (goes_of_piece h hstop), Bool.false_xor]
  conv_lhs => rw [starts]
  split
  · rename_i h'
    rw [h] at h'
    cases h'
  · rename_i h'
    rw [h] at h'
    cases h'
    rw [if_neg (by rw [hstop]; exact Bool.false_ne_true), Nat.add_sub_cancel]

theorem length_rest_lt (h : l.dropWhile Q.sep = c :: l') (hstop : Q.stop c = false) :
    (Q.front (lim + 1) false (c :: l')).2.length < l.length := by
  have hdrop := Q.length_dropWhile_sep_le l
  rw [h, List.length_cons] at hdrop
  rw [front_of_goes (goes_of_piece h hstop)]
  exact Nat.lt_of_le_of_lt (Q.length_front_snd_le _ _ _) hdrop

/-- Separators in front of a line. -/
theorem starts_append_sep (hw : ∀ c ∈ w, Q.sep c = true) :
    Q.starts (lim + 1) (w ++ l) = Q.starts (lim + 1) l := by
  have hdrop : (w ++ l).dropWhile Q.sep = l.dropWhile Q.sep := List.dropWhile_append_of_pos hw
  cases h : l.dropWhile Q.sep with
  | nil => rw [starts_of_nil h, starts_of_nil (hdrop.trans h)]
  | cons c l' =>
    cases hstop : Q.stop c with
    | true => rw [starts_of_stop h hstop, starts_of_stop (hdrop.trans h) hstop]
    | false => rw [starts_of_piece h hstop, starts_of_piece (hdrop.trans h) hstop]

/-- **A limit that no piece exceeds does not matter.** -/
theorem starts_congr (h : ∀ p ∈ Q.pieces (lim + 1) l, p.length ≤ lim' + 1) (hle : lim' ≤ lim) :
    Q.starts (lim' + 1) l = Q.starts (lim + 1) l := by
  induction hn : l.length using Nat.strongRecOn generalizing l with
  | _ n ih =>
    cases hdrop : l.dropWhile Q.sep with
    | nil => rw [starts_of_nil hdrop, starts_of_nil hdrop]
    | cons c l' =>
      cases hstop : Q.stop c with
      | true => rw [starts_of_stop hdrop hstop, starts_of_stop hdrop hstop]
      | false =>
        rw [pieces, starts_of_piece hdrop hstop, List.map_cons] at h
        obtain ⟨hfirst, hrest⟩ := List.forall_mem_cons.1 h
        have hfront := front_congr hfirst (Nat.succ_le_succ hle)
        rw [starts_of_piece hdrop hstop, starts_of_piece hdrop hstop, hfront,
          ih _ (hn ▸ length_rest_lt hdrop hstop) hrest rfl]

/-- The pieces are the same, too. -/
theorem pieces_congr (h : ∀ p ∈ Q.pieces (lim + 1) l, p.length ≤ lim' + 1) (hle : lim' ≤ lim) :
    Q.pieces (lim' + 1) l = Q.pieces (lim + 1) l := by
  rw [pieces, pieces, starts_congr h hle]
  refine List.map_congr_left fun s hs => ?_
  rw [front_congr (h _ (List.mem_map_of_mem hs)) (Nat.succ_le_succ hle)]

theorem length_start_le {s : List α} (hs : s ∈ Q.starts (lim + 1) l) : s.length ≤ l.length := by
  induction hn : l.length using Nat.strongRecOn generalizing l with
  | _ n ih =>
    cases hdrop : l.dropWhile Q.sep with
    | nil =>
      rw [starts_of_nil hdrop] at hs
      cases hs
    | cons c l' =>
      cases hstop : Q.stop c with
      | true =>
        rw [starts_of_stop hdrop hstop] at hs
        cases hs
      | false =>
        rw [starts_of_piece hdrop hstop] at hs
        rcases List.mem_cons.1 hs with rfl | hs
        · rw [← hn, ← hdrop]
          exact Q.length_dropWhile_sep_le l
        · have hlt : (Q.front (lim + 1) false (c :: l')).2.length < l.length := length_rest_lt hdrop hstop
          exact Nat.le_trans (ih _ (hn ▸ hlt) hs rfl) (hn ▸ Nat.le_of_lt hlt)

theorem length_piece_le {p : List α} (hp : p ∈ Q.pieces (lim + 1) l) : p.length ≤ l.length := by
  obtain ⟨s, hs, rfl⟩ := List.mem_map.1 hp
  have happ := congrArg List.length (front_append_snd (Q := Q) (lim + 1) false s)
  rw [List.length_append] at happ
  exact Nat.le_trans (Nat.le_of_add_right_le (Nat.le_of_eq happ)) (length_start_le hs)

/-- No piece is longer than the line. -/
theorem pieces_of_length_le (h : l.length ≤ lim' + 1) (hle : lim' ≤ lim) :
    Q.pieces (lim' + 1) l = Q.pieces (lim + 1) l :=
  pieces_congr (fun _ hp => Nat.le_trans (length_piece_le hp) h) hle

/-! ### Behind the end of the line -/

section Append

variable {d : α} {r : List α}

theorem front_append_stop (hd : Q.stop d = true) (lim : ℕ) (quoted : Bool) (l r : List α) :
    Q.front lim quoted (l ++ d :: r) =
      ((Q.front lim quoted l).1, (Q.front lim quoted l).2 ++ d :: r) := by
  induction lim generalizing quoted l with
  | zero => rfl
  | succ lim ih =>
    cases l with
    | nil => exact front_of_ends (by rw [hd, Bool.true_or])
    | cons c l =>
      rw [List.cons_append]
      cases hc : Q.stop c || (Q.sep c && !quoted) with
      | true => rw [front_of_ends hc, front_of_ends hc, List.cons_append]
      | false => rw [front_of_goes hc, front_of_goes hc, ih]

theorem misquoted_append_stop (hd : Q.stop d = true) (hfollows : ∀ l, follows (l ++ d :: r) = follows l)
    (lim : ℕ) (quoted : Bool) (l : List α) :
    Q.misquoted follows lim quoted (l ++ d :: r) = Q.misquoted follows lim quoted l := by
  induction lim generalizing quoted l with
  | zero => rfl
  | succ lim ih =>
    cases l with
    | nil => exact misquoted_of_ends (by rw [hd, Bool.true_or])
    | cons c l =>
      rw [List.cons_append]
      cases hc : Q.stop c || (Q.sep c && !quoted) with
      | true => rw [misquoted_of_ends hc, misquoted_of_ends hc]
      | false => rw [misquoted_of_goes hc, misquoted_of_goes hc, ih, hfollows]

/-- **What stands behind the end of the line** does not matter. -/
theorem starts_append_stop (hd : Q.stop d = true) (hsep : Q.sep d = false) (l r : List α) :
    Q.starts (lim + 1) (l ++ d :: r) = (Q.starts (lim + 1) l).map (· ++ d :: r) := by
  induction hn : l.length using Nat.strongRecOn generalizing l with
  | _ n ih =>
    have happ : (l ++ d :: r).dropWhile Q.sep = l.dropWhile Q.sep ++ d :: r := by
      rw [List.dropWhile_append]
      split
      · rename_i hnil
        rw [List.isEmpty_iff.1 hnil, List.dropWhile_cons_of_neg (by rw [hsep]; exact Bool.false_ne_true),
          List.nil_append]
      · rfl
    cases hdrop : l.dropWhile Q.sep with
    | nil =>
      rw [hdrop, List.nil_append] at happ
      rw [starts_of_nil hdrop, starts_of_stop happ hd, List.map_nil]
    | cons c l' =>
      rw [hdrop, List.cons_append] at happ
      cases hstop : Q.stop c with
      | true => rw [starts_of_stop hdrop hstop, starts_of_stop happ hstop, List.map_nil]
      | false =>
        rw [starts_of_piece hdrop hstop, starts_of_piece happ hstop, ← List.cons_append,
          front_append_stop hd, ih _ (hn ▸ length_rest_lt hdrop hstop) _ rfl, List.map_cons]

theorem pieces_append_stop (hd : Q.stop d = true) (hsep : Q.sep d = false) (l r : List α) :
    Q.pieces (lim + 1) (l ++ d :: r) = Q.pieces (lim + 1) l := by
  rw [pieces, starts_append_stop hd hsep, List.map_map]
  refine List.map_congr_left fun s _ => ?_
  rw [Function.comp_apply, front_append_stop hd]

end Append

end Quoting

end PlumOs
