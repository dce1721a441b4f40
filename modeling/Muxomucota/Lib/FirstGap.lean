import Mathlib.Tactic.Common

/-!
# Lib — the first gap

Places are natural numbers, and some are busy.  A first-fit search goes up from `base` and counts
the free places in a row behind it; `Search` is what it knows at place `e` with the count `size`.
When the count reaches `n`, the row begins with the first gap of `n` places (`Search.firstGap`).
-/

namespace Muxomucota.Lib

variable {busy : Nat → Prop} {base n a b e k size : Nat}

/-- No place of the `n` from `a` on is busy. -/
def Gap (busy : Nat → Prop) (a n : Nat) : Prop := ∀ v, a ≤ v → v < a + n → ¬ busy v

/-- The first gap of `n` places, from `base` on, is at `a`. -/
structure FirstGap (busy : Nat → Prop) (base n a : Nat) : Prop where
  base_le : base ≤ a
  gap : Gap busy a n
  first : ∀ b, base ≤ b → b < a → ¬ Gap busy b n

/-- The search for `n` places from `base` on has come to place `e`; the last `size` places are free,
and no gap begins before them. -/
structure Search (busy : Nat → Prop) (base n e size : Nat) : Prop where
  base_le : base + size ≤ e
  gap : Gap busy (e - size) size
  first : ∀ b, base ≤ b → b < e - size → ¬ Gap busy b n

theorem Gap.mono (h : Gap busy a n) (hle : k ≤ n) : Gap busy a k :=
  fun v hv hv' => h v hv (by omega)

theorem Gap.append (h : Gap busy a n) (h' : Gap busy (a + n) k) : Gap busy a (n + k) := by
  intro v hv hv'
  by_cases hlt : v < a + n
  · exact h v hv hlt
  · exact h' v (by omega) (by omega)

theorem FirstGap.unique (h : FirstGap busy base n a) (h' : FirstGap busy base n b) : a = b := by
  rcases Nat.lt_trichotomy a b with hlt | heq | hlt
  · exact absurd h.gap (h'.first a h.base_le hlt)
  · exact heq
  · exact absurd h'.gap (h.first b h'.base_le hlt)

namespace Search

theorem start (busy : Nat → Prop) (base n : Nat) : Search busy base n base 0 where
  base_le := Nat.le_refl _
  gap v hv hv' := by omega
  first b hb hb' := by omega

/-- The next `k` places are free. -/
theorem free (h : Search busy base n e size) (hk : Gap busy e k) :
    Search busy base n (e + k) (size + k) := by
  have hle := h.base_le
  have hstart : e + k - (size + k) = e - size := by omega
  refine ⟨by omega, ?_, fun b hb hlt => h.first b hb (by omega)⟩
  rw [hstart]
  refine h.gap.append ?_
  rwa [show e - size + size = e by omega]

/-- The next place is busy, and the row was too short. -/
theorem reset (h : Search busy base n e size) (hlt : size < n) (he : busy e) :
    Search busy base n (e + 1) 0 := by
  have hle := h.base_le
  refine ⟨by omega, fun v hv hv' => by omega, fun b hb hb' hgap => ?_⟩
  by_cases hbe : b < e - size
  · exact h.first b hb hbe hgap
  · exact hgap e (by omega) (by omega) he

/-- The row is long enough. -/
theorem firstGap (h : Search busy base n e size) (hle : n ≤ size) :
    FirstGap busy base n (e - size) where
  base_le := by have := h.base_le; omega
  gap := h.gap.mono hle
  first := h.first

end Search

end Muxomucota.Lib
