import Mathlib.Data.List.Dedup
import Mathlib.Data.List.Nodup
import Mathlib.Data.List.ReduceOption
import Muxomucota.Lib.Last

/-!
# Lib — what was used last

Of the uses of some keys, in order, `latest n` are the last `n` different ones.  A cache that is to hold
them drops the key that is used now from where it was, keeps the last `n - 1` of the rest, and appends it
(`latest_snoc`); so it needs to know no more than `latest n` of the uses before.

A table of slots holds what is in them in any order; `reduceOption_set` says what a store into one slot
does.
-/

namespace Muxomucota.Lib

variable {κ : Type*}

/-! ### The latest uses -/

section latest

variable [DecidableEq κ]

/-- The last `n` keys that were used, each where it was used last. -/
def latest (n : Nat) (uses : List κ) : List κ := uses.dedup.rtake n

theorem dedup_snoc (uses : List κ) (k : κ) : (uses ++ [k]).dedup = uses.dedup.erase k ++ [k] := by
  induction uses with
  | nil => rfl
  | cons a uses ih =>
      rw [List.cons_append]
      by_cases ha : a ∈ uses
      · rw [List.dedup_cons_of_mem ha, List.dedup_cons_of_mem (List.mem_append_left _ ha), ih]
      · rw [List.dedup_cons_of_notMem ha]
        rcases eq_or_ne a k with rfl | hne
        · have hnot : a ∉ uses.dedup := fun h => ha (List.mem_dedup.mp h)
          rw [List.dedup_cons_of_mem (List.mem_append_right _ (List.mem_singleton_self a)), ih,
            List.erase_of_not_mem hnot, List.erase_cons_head]
        · have hnot : a ∉ uses ++ [k] := by
            rw [List.mem_append, List.mem_singleton]
            exact not_or.mpr ⟨ha, hne⟩
          rw [List.dedup_cons_of_notMem hnot, ih, List.erase_cons_tail (by simpa using hne),
            List.cons_append]

/-- A use moves the key to the end, and drops the oldest if there are too many. -/
theorem latest_snoc (n : Nat) (uses : List κ) (k : κ) :
    latest (n + 1) (uses ++ [k]) = ((latest (n + 1) uses).erase k).rtake n ++ [k] := by
  unfold latest
  rw [dedup_snoc, List.rtake_concat_succ, rtake_erase (List.nodup_dedup uses)]

theorem latest_nodup (n : Nat) (uses : List κ) : (latest n uses).Nodup :=
  (List.nodup_dedup uses).sublist (List.drop_sublist _ _)

theorem latest_length_le (n : Nat) (uses : List κ) : (latest n uses).length ≤ n := by
  rw [latest, rtake_length]
  exact Nat.min_le_left ..

end latest

/-! ### Slots -/

/-- What a store into a slot leaves of the others. -/
theorem reduceOption_set {slots : List (Option κ)} {i : Nat} (h : i < slots.length)
    (slot : Option κ) :
    ((slots.set i slot).reduceOption).Perm (slot.toList ++ (slots.eraseIdx i).reduceOption) := by
  rw [List.set_eq_take_append_cons_drop, if_pos h, List.eraseIdx_eq_take_drop_succ,
    List.reduceOption_append, List.reduceOption_append, ← List.singleton_append,
    List.reduceOption_append, List.reduceOption_singleton, ← List.append_assoc, ← List.append_assoc]
  exact List.Perm.append_right _ List.perm_append_comm

end Muxomucota.Lib
