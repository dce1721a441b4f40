import Mathlib.Data.List.DropRight
import Mathlib.Data.List.Nodup
import Mathlib.Tactic.Common

/-!
# Lib — the last entries of a list

What `List.rtake n` keeps when entries are appended or taken out.
-/

namespace Muxomucota.Lib

variable {κ : Type*} {n : Nat}

theorem rtake_append_of_le {xs ys : List κ} (h : n ≤ ys.length) :
    (xs ++ ys).rtake n = ys.rtake n := by
  rw [List.rtake_eq_reverse_take_reverse, List.rtake_eq_reverse_take_reverse, List.reverse_append,
    List.take_append_of_le_length (by rwa [List.length_reverse])]

theorem rtake_of_length_le {xs : List κ} (h : xs.length ≤ n) : xs.rtake n = xs := by
  rw [List.rtake, Nat.sub_eq_zero_of_le h, List.drop_zero]

theorem rtake_length (xs : List κ) (n : Nat) : (xs.rtake n).length = min n xs.length := by
  rw [List.rtake, List.length_drop]
  omega

/-- Without a key, the last `n` are those of the last `n + 1`. -/
theorem rtake_erase [DecidableEq κ] {xs : List κ} (hxs : xs.Nodup) (k : κ) (n : Nat) :
    (xs.erase k).rtake n = ((xs.rtake (n + 1)).erase k).rtake n := by
  obtain ⟨pre, hpre⟩ : ∃ pre, xs = pre ++ xs.rtake (n + 1) :=
    ⟨_, (List.take_append_drop (xs.length - (n + 1)) xs).symm⟩
  rcases le_total xs.length (n + 1) with hlen | hlen
  · rw [rtake_of_length_le hlen]
  have hsuf : (xs.rtake (n + 1)).length = n + 1 := by
    rw [rtake_length, Nat.min_eq_left hlen]
  generalize xs.rtake (n + 1) = suf at hpre hsuf ⊢
  subst hpre
  by_cases hk : k ∈ pre
  · have hnot : k ∉ suf := List.disjoint_of_nodup_append hxs hk
    rw [List.erase_append_left _ hk, List.erase_of_not_mem hnot,
      rtake_append_of_le (by omega)]
  · rw [List.erase_append_right _ hk]
    refine rtake_append_of_le ?_
    have := List.le_length_erase (a := k) (l := suf)
    omega

/-- One entry too many: the oldest one goes. -/
theorem rtake_of_length_eq {xs : List κ} (h : xs.length = n + 1) : xs.rtake n = xs.tail := by
  rw [List.rtake, h, Nat.add_sub_cancel_left, List.drop_one]

/-- What has gone once makes no difference later. -/
theorem rtake_rtake_append (xs ys : List κ) :
    (xs.rtake n ++ ys).rtake n = (xs ++ ys).rtake n := by
  rw [List.rtake, List.rtake, List.rtake, List.length_append, List.length_append, List.length_drop]
  rw [List.drop_append, List.drop_append, List.drop_drop, List.length_drop]
  congr 2 <;> omega

end Muxomucota.Lib
