import Mathlib.Data.List.Basic
import Mathlib.Tactic.Common

/-!
# Lib — where two lists first differ

`FirstDiffer xs ys a b` holds of the entries `a` and `b` at the first position where the lists differ; what
a loop over both lists finds there it finds for the lists from any entry before on (`FirstDiffer.cons`).
-/

namespace Muxomucota.Lib

variable {α : Type*} {xs ys : List α} {a b a' b' : α}

/-- After the same entries there is `a` in one list and `b` in the other. -/
def FirstDiffer (xs ys : List α) (a b : α) : Prop :=
  a ≠ b ∧ ∃ p u v, xs = p ++ a :: u ∧ ys = p ++ b :: v

namespace FirstDiffer

theorem head (h : a ≠ b) (xs ys : List α) : FirstDiffer (a :: xs) (b :: ys) a b :=
  ⟨h, [], xs, ys, rfl, rfl⟩

theorem cons (c : α) (h : FirstDiffer xs ys a b) : FirstDiffer (c :: xs) (c :: ys) a b := by
  obtain ⟨hne, p, u, v, rfl, rfl⟩ := h
  exact ⟨hne, c :: p, u, v, rfl, rfl⟩

theorem symm (h : FirstDiffer xs ys a b) : FirstDiffer ys xs b a := by
  obtain ⟨hne, p, u, v, hx, hy⟩ := h
  exact ⟨hne.symm, p, v, u, hy, hx⟩

theorem ne (h : FirstDiffer xs ys a b) : xs ≠ ys := by
  obtain ⟨hne, p, u, v, rfl, rfl⟩ := h
  exact fun heq => hne (List.cons.inj (List.append_cancel_left heq)).1

/-- There is one such position. -/
theorem unique (h : FirstDiffer xs ys a b) (h' : FirstDiffer xs ys a' b') : a = a' ∧ b = b' := by
  obtain ⟨hne, p, u, v, rfl, rfl⟩ := h
  obtain ⟨hne', p', u', v', hx, hy⟩ := h'
  induction p generalizing p' with
  | nil =>
      cases p' with
      | nil => exact ⟨(List.cons.inj hx).1, (List.cons.inj hy).1⟩
      | cons c p' => exact absurd ((List.cons.inj hx).1.trans (List.cons.inj hy).1.symm) hne
  | cons c p ih =>
      cases p' with
      | nil => exact absurd ((List.cons.inj hx).1.symm.trans (List.cons.inj hy).1) hne'
      | cons d p' => exact ih p' (List.cons.inj hx).2 (List.cons.inj hy).2

end FirstDiffer

end Muxomucota.Lib
