import Mathlib.Data.List.Basic
import Mathlib.Data.List.Infix
import Mathlib.Tactic.Common

/-!
# Lib — the pieces of a list between delimiters

`l.splitOn d` is what lies before, between and behind the elements `d` of `l`: one piece more than there
are delimiters (`length_splitOn`).  No piece is empty exactly if the delimiters separate something
(`Separated`), and only then are there as many pieces that are not empty (`length_filter_splitOn`).
-/

namespace Muxomucota.Lib

variable {α : Type*} {d a : α} {l : List α}

/-- The list is not empty, and no delimiter is at its beginning, at its end, or next to another. -/
structure Separated (d : α) (l : List α) : Prop where
  ne_nil : l ≠ []
  head : l.head? ≠ some d
  last : l.getLast? ≠ some d
  apart : ¬[d, d] <:+: l

theorem infix_other (ha : a ≠ d) (l : List α) : [d, d] <:+: a :: l ↔ [d, d] <:+: l := by
  rw [List.infix_cons_iff]
  refine or_iff_right fun hp => ?_
  rw [List.cons_prefix_cons] at hp
  exact ha hp.1.symm

variable [DecidableEq α]

theorem splitOn_delim (d : α) (l : List α) : (d :: l).splitOn d = [] :: l.splitOn d := by
  rw [List.splitOn_cons_eq_if_modifyHead, if_pos (beq_self_eq_true d)]

theorem splitOn_other (ha : a ≠ d) (l : List α) :
    (a :: l).splitOn d = (l.splitOn d).modifyHead (List.cons a) := by
  rw [List.splitOn_cons_eq_if_modifyHead, if_neg (by simpa using ha)]

theorem length_splitOn (d : α) (l : List α) : (l.splitOn d).length = l.count d + 1 := by
  induction l with
  | nil => rw [List.splitOn_nil, List.count_nil, List.length_singleton]
  | cons a l ih =>
      by_cases ha : a = d
      · rw [ha, splitOn_delim, List.length_cons, ih, List.count_cons_self]
      · rw [splitOn_other ha, List.length_modifyHead, ih, List.count_cons_of_ne ha]

/-- The first piece of a list that begins with something else is not empty. -/
theorem nil_notMem_splitOn_other (ha : a ≠ d) (l : List α) :
    [] ∉ (a :: l).splitOn d ↔ [] ∉ ((a :: l).splitOn d).tail := by
  rw [splitOn_other ha]
  cases hl : l.splitOn d with
  | nil => exact absurd hl (List.splitOn_ne_nil d l)
  | cons w ws => simp

/-- The pieces behind the first are not empty: every delimiter is followed by something else. -/
theorem tail_splitOn (d : α) (l : List α) :
    [] ∉ (l.splitOn d).tail ↔ l.getLast? ≠ some d ∧ ¬[d, d] <:+: l := by
  induction l with
  | nil => simp
  | cons a l ih =>
      by_cases ha : a = d
      · subst ha
        rw [splitOn_delim, List.tail_cons]
        cases l with
        | nil => simp
        | cons b l =>
            by_cases hb : b = a
            · subst hb
              refine iff_of_false (fun h => h ?_) fun h => h.2 ⟨[], l, rfl⟩
              rw [splitOn_delim]
              exact List.mem_cons_self
            · rw [nil_notMem_splitOn_other hb, ih, List.getLast?_cons_cons]
              refine and_congr_right fun _ => not_congr ?_
              rw [List.infix_cons_iff (a := a), List.cons_prefix_cons, List.cons_prefix_cons]
              exact (or_iff_right fun hp => hb hp.2.1.symm).symm
      · rw [splitOn_other ha, List.tail_modifyHead, ih, infix_other ha]
        refine and_congr_left fun _ => ?_
        cases l with
        | nil => simpa using ha
        | cons b l => rw [List.getLast?_cons_cons]

/-- **No piece is empty** exactly if the delimiters separate something. -/
theorem separated_iff : Separated d l ↔ ∀ w ∈ l.splitOn d, w ≠ [] := by
  have hall : (∀ w ∈ l.splitOn d, w ≠ []) ↔ [] ∉ l.splitOn d :=
    ⟨fun h hm => h [] hm rfl, fun h w hw hne => h (hne ▸ hw)⟩
  rw [hall]
  cases l with
  | nil => exact iff_of_false (fun h => h.ne_nil rfl) (by simp)
  | cons a l =>
      by_cases ha : a = d
      · subst ha
        refine iff_of_false (fun h => h.head rfl) fun h => h ?_
        rw [splitOn_delim]
        exact List.mem_cons_self
      · rw [nil_notMem_splitOn_other ha, tail_splitOn]
        exact ⟨fun h => ⟨h.last, h.apart⟩,
          fun h => ⟨List.cons_ne_nil _ _, by simpa using ha, h.1, h.2⟩⟩

/-- Delimiters at the beginning make no piece that is not empty. -/
theorem filter_splitOn_delims {ds : List α} (hds : ∀ c ∈ ds, c = d) (l : List α) :
    ((ds ++ l).splitOn d).filter (· ≠ []) = (l.splitOn d).filter (· ≠ []) := by
  induction ds with
  | nil => rfl
  | cons c ds ih =>
      obtain ⟨hc, hds⟩ := List.forall_mem_cons.mp hds
      rw [List.cons_append, hc, splitOn_delim, List.filter_cons_of_neg (by simp)]
      exact ih hds

/-! ### One piece after the other -/

/-- Take the first piece off that is not empty, and leave what is behind the delimiter that ends it. -/
def takePiece (d : α) : Option (List α) → Option (List α) × Option (List α)
  | none => (none, none)
  | some l =>
      let l := l.dropWhile (· = d)
      if l = [] then (none, none)
      else
        let rest := l.dropWhile (· ≠ d)
        (some (l.takeWhile (· ≠ d)), if rest = [] then none else some rest.tail)

/-- Take at most `n` pieces off. -/
def takePieces (d : α) : (n : Nat) → Option (List α) → List (List α)
  | 0, _ => []
  | n + 1, l =>
      match takePiece d l with
      | (none, _) => []
      | (some w, rest) => w :: takePieces d n rest

/-- All pieces that are not empty are taken off. -/
theorem takePieces_eq {n : Nat} (h : l.length < n) :
    takePieces d n (some l) = (l.splitOn d).filter (· ≠ []) := by
  induction n generalizing l with
  | zero => exact absurd h (Nat.not_lt_zero _)
  | succ n ih =>
      have hds : ∀ c ∈ l.takeWhile (· = d), c = d := fun c hc =>
        of_decide_eq_true (List.all_eq_true.mp List.all_takeWhile c hc)
      have hpieces := filter_splitOn_delims hds (l.dropWhile (· = d))
      rw [List.takeWhile_append_dropWhile] at hpieces
      have hle := (List.dropWhile_suffix (· = d) (l := l)).length_le
      rw [hpieces, takePieces, takePiece]
      dsimp only
      generalize hv : l.dropWhile (· = d) = v at hle
      have hhead : ∀ a, v.head? = some a → a ≠ d := fun a ha => by
        have := List.head?_dropWhile_not (· = d) l
        rw [hv, ha] at this
        simpa using this
      cases v with
      | nil => rw [if_pos rfl]; simp
      | cons a v =>
          have ha : a ≠ d := hhead a rfl
          have hw : ∀ c ∈ (a :: v).takeWhile (· ≠ d), c ≠ d := fun c hc =>
            of_decide_eq_true (List.all_eq_true.mp List.all_takeWhile c hc)
          have hne : (a :: v).takeWhile (· ≠ d) ≠ [] := by simp [ha]
          have hcut := List.takeWhile_append_dropWhile (p := (· ≠ d)) (l := a :: v)
          rw [if_neg (List.cons_ne_nil a v)]
          generalize (a :: v).takeWhile (· ≠ d) = w at hw hne hcut
          generalize hrest : (a :: v).dropWhile (· ≠ d) = rest at hcut
          cases rest with
          | nil =>
              have hlast : takePieces d n none = [] := by cases n <;> rfl
              rw [List.append_nil] at hcut
              have hsingle : w.splitOn d = [w] :=
                List.splitOnP_eq_singleton fun c hc => beq_eq_false_iff_ne.mpr (hw c hc)
              rw [if_pos rfl, ← hcut, hsingle, List.filter_cons_of_pos (by simpa using hne)]
              exact congrArg (w :: ·) hlast
          | cons b u =>
              have hb : b = d := by
                have := List.head?_dropWhile_not (· ≠ d) (a :: v)
                rw [hrest] at this
                simpa using this
              subst hb
              rw [← hcut, List.length_append, List.length_cons] at hle
              rw [if_neg (List.cons_ne_nil b u), List.tail_cons, ← hcut,
                List.splitOn_append_cons_self_of_not_mem fun hd => hw b hd rfl,
                List.filter_cons_of_pos (by simpa using hne)]
              exact congrArg (w :: ·) (ih (by omega))

/-- There are as many pieces that are not empty as delimiters, and one, exactly if no piece is empty. -/
theorem length_filter_splitOn :
    ((l.splitOn d).filter (· ≠ [])).length = l.count d + 1 ↔ Separated d l := by
  rw [← length_splitOn, List.length_filter_eq_length_iff, separated_iff]
  simp

end Muxomucota.Lib
