import Mathlib.Logic.Function.Basic
import Muxomucota.Lib.Last

/-!
# Lib — a ring of slots

`n` slots, and two of their numbers: `r`, where the next entry is read, and `w`, where the next one is
written.  As many slots are used as there are from `r` to before `w`, round the ring (`used`); one always
stays free, so that `r = w` is the empty ring.  `window slots r k` lists what `k` slots from `r` on hold.
-/

namespace Muxomucota.Lib

variable {α : Type*} {n r w k : Nat}

namespace Ring

/-- The slot behind slot `i`. -/
def next (n i : Nat) : Nat := (i + 1) % n

/-- How many slots there are from `r` to before `w`. -/
def used (n r w : Nat) : Nat := (w + n - r) % n

theorem next_lt (h : r < n) : next n r < n := Nat.mod_lt _ (by omega)

/-- There is one step from the last slot to the first. -/
theorem next_cases (h : r < n) : next n r = r + 1 ∧ r + 1 < n ∨ next n r = 0 ∧ r + 1 = n := by
  by_cases hlast : r + 1 < n
  · exact .inl ⟨Nat.mod_eq_of_lt hlast, hlast⟩
  · have hn : r + 1 = n := by omega
    exact .inr ⟨by rw [next, hn, Nat.mod_self], hn⟩

/-- Both indices are in the same round, or the writer is one ahead. -/
theorem used_cases (hr : r < n) (hw : w < n) :
    used n r w = w - r ∧ r ≤ w ∨ used n r w = w + n - r ∧ w < r := by
  rcases Nat.lt_or_ge w r with h | h
  · exact .inr ⟨Nat.mod_eq_of_lt (by omega), h⟩
  · refine .inl ⟨?_, h⟩
    have heq : w + n - r = w - r + n := by omega
    rw [used, heq, Nat.add_mod_right, Nat.mod_eq_of_lt (by omega)]

theorem used_lt (h : r < n) : used n r w < n := Nat.mod_lt _ (by omega)

theorem used_eq_zero_iff (hr : r < n) (hw : w < n) : used n r w = 0 ↔ r = w := by
  rcases used_cases hr hw with ⟨h, hle⟩ | ⟨h, hlt⟩ <;> omega

/-- One more is used when the writer moves on, if it does not meet the reader. -/
theorem used_next_write (hr : r < n) (hw : w < n) (hne : next n w ≠ r) :
    used n r (next n w) = used n r w + 1 := by
  rcases used_cases hr hw with ⟨h, hle⟩ | ⟨h, hlt⟩ <;>
    rcases used_cases hr (next_lt hw) with ⟨h', hle'⟩ | ⟨h', hlt'⟩ <;>
    rcases next_cases hw with ⟨hx, hl⟩ | ⟨hx, hl⟩ <;> omega

/-- The writer meets the reader when all but one are used. -/
theorem used_of_next_write (hr : r < n) (hw : w < n) (heq : next n w = r) :
    used n r w + 1 = n := by
  rcases used_cases hr hw with ⟨h, hle⟩ | ⟨h, hlt⟩ <;>
    rcases next_cases hw with ⟨hx, hl⟩ | ⟨hx, hl⟩ <;> omega

/-- One less is used when the reader moves on. -/
theorem used_next_read (hr : r < n) (hw : w < n) (hne : r ≠ w) :
    used n (next n r) w + 1 = used n r w := by
  rcases used_cases hr hw with ⟨h, hle⟩ | ⟨h, hlt⟩ <;>
    rcases used_cases (next_lt hr) hw with ⟨h', hle'⟩ | ⟨h', hlt'⟩ <;>
    rcases next_cases hr with ⟨hx, hl⟩ | ⟨hx, hl⟩ <;> omega

/-- The writer is as far behind the reader as slots are used. -/
theorem add_used (hr : r < n) (hw : w < n) : (r + used n r w) % n = w := by
  rcases used_cases hr hw with ⟨h, hle⟩ | ⟨h, hlt⟩
  · rw [h, Nat.add_sub_cancel' hle, Nat.mod_eq_of_lt hw]
  · have heq : r + (w + n - r) = w + n := by omega
    rw [h, heq, Nat.add_mod_right, Nat.mod_eq_of_lt hw]

/-- What the `k` slots from `r` on hold. -/
def window (slots : Fin n → α) (r k : Nat) (hr : r < n) : List α :=
  (List.range k).map fun i => slots ⟨(r + i) % n, Nat.mod_lt _ (by omega)⟩

@[simp] theorem length_window (slots : Fin n → α) (hr : r < n) :
    (window slots r k hr).length = k := by
  simp [window]

theorem window_snoc (slots : Fin n → α) (hr : r < n) :
    window slots r (k + 1) hr =
      window slots r k hr ++ [slots ⟨(r + k) % n, Nat.mod_lt _ (by omega)⟩] := by
  simp [window, List.range_succ]

theorem window_cons (slots : Fin n → α) (hr : r < n) :
    window slots r (k + 1) hr = slots ⟨r, hr⟩ :: window slots (next n r) k (next_lt hr) := by
  rw [window, List.range_succ_eq_map, List.map_cons, List.map_map]
  congr 1
  · simp [Nat.mod_eq_of_lt hr]
  · refine List.map_congr_left fun i _ => congrArg slots (Fin.ext ?_)
    show (r + (i + 1)) % n = ((r + 1) % n + i) % n
    rw [Nat.mod_add_mod, Nat.add_right_comm, Nat.add_assoc]

/-- The slots of fewer than `n` steps from `r` on are different ones. -/
theorem add_mod_ne {i j : Nat} (hij : i < j) (hj : j < n) : (r + i) % n ≠ (r + j) % n := by
  intro h
  have hsub : (r + j - (r + i)) % n = 0 := Nat.sub_mod_eq_zero_of_mod_eq h.symm
  have heq : r + j - (r + i) = j - i := by omega
  rw [heq, Nat.mod_eq_of_lt (by omega)] at hsub
  omega

/-- Writing behind the window leaves the window as it was. -/
theorem window_update (slots : Fin n → α) (hr : r < n) (hk : k < n) (hw : w < n)
    (heq : (r + k) % n = w) (x : α) :
    window (Function.update slots ⟨w, hw⟩ x) r k hr = window slots r k hr := by
  refine List.map_congr_left fun i hi => ?_
  have hne : (r + i) % n ≠ (r + k) % n := add_mod_ne (List.mem_range.mp hi) hk
  refine Function.update_of_ne (fun h => hne ?_) _ _
  rw [heq]
  exact congrArg Fin.val h

/-! ### What is in the ring -/

/-- The entries from the reader to before the writer. -/
def contents (slots : Fin n → α) (r w : Nat) (hr : r < n) : List α :=
  window slots r (used n r w) hr

theorem contents_eq_nil_iff (slots : Fin n → α) (hr : r < n) (hw : w < n) :
    contents slots r w hr = [] ↔ r = w := by
  rw [← List.length_eq_zero_iff, contents, length_window, used_eq_zero_iff hr hw]

/-- The reader takes the first entry. -/
theorem contents_read (slots : Fin n → α) (hr : r < n) (hw : w < n) (hne : r ≠ w) :
    contents slots r w hr = slots ⟨r, hr⟩ :: contents slots (next n r) w (next_lt hr) := by
  rw [contents, ← used_next_read hr hw hne, window_cons, contents]

/-- The writer puts an entry behind all others, if there is room. -/
theorem contents_write (slots : Fin n → α) (hr : r < n) (hw : w < n) (hne : next n w ≠ r) (x : α) :
    contents (Function.update slots ⟨w, hw⟩ x) r (next n w) hr = contents slots r w hr ++ [x] := by
  rw [contents, used_next_write hr hw hne, window_snoc,
    window_update slots hr (used_lt hr) hw (add_used hr hw), contents]
  simp [add_used hr hw]

/-- If there is none, the first entry makes room for the new one. -/
theorem contents_overflow (slots : Fin n → α) (hr : r < n) (hw : w < n) (h1 : 1 < n)
    (heq : next n w = r) (x : α) :
    contents (Function.update slots ⟨w, hw⟩ x) (next n r) (next n w) (next_lt hr) =
      (contents slots r w hr ++ [x]).tail := by
  have hused : used n r w + 1 = n := used_of_next_write hr hw heq
  have hpos : used n r w ≠ 0 := by omega
  have hne : r ≠ w := fun h => hpos ((used_eq_zero_iff hr hw).mpr h)
  have hadd : (next n r + used n (next n r) w) % n = w := add_used (next_lt hr) hw
  have hnext : next n w ≠ next n r := by
    rcases next_cases hr with ⟨hx, hl⟩ | ⟨hx, hl⟩ <;> omega
  rw [contents_read slots hr hw hne, List.cons_append, List.tail_cons]
  exact contents_write slots (next_lt hr) hw hnext x

end Ring

end Muxomucota.Lib
