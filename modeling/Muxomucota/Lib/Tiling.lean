import Mathlib.Data.List.Basic
import Mathlib.Tactic.Common

/-!
# Lib — tilings of an interval

A list of blocks tiles `[lo, hi)` when the first begins at `lo`, every other one where the one before it
stops, and the last stops at `hi`.  Blocks are not empty, so they are in order, apart from each other,
and cover every point; a block may be replaced by blocks that tile what it covered.
-/

namespace Muxomucota.Lib

variable {β : Type*}

/-- The blocks tile `[lo, hi)`. -/
def Tiles (start stop : β → Nat) : Nat → List β → Nat → Prop
  | lo, [], hi => lo = hi
  | lo, b :: bs, hi => start b = lo ∧ lo < stop b ∧ Tiles start stop (stop b) bs hi

namespace Tiles

variable {start stop : β → Nat} {lo mid hi : Nat} {xs ys bs : List β} {b : β}

theorem append_iff : ∀ {lo : Nat} {xs : List β}, Tiles start stop lo (xs ++ ys) hi ↔
    ∃ mid, Tiles start stop lo xs mid ∧ Tiles start stop mid ys hi
  | lo, [] => ⟨fun h => ⟨lo, rfl, h⟩, fun ⟨_, h, hys⟩ => h ▸ hys⟩
  | lo, x :: xs => by
      rw [List.cons_append, Tiles, append_iff]
      constructor
      · rintro ⟨hs, hlt, mid, hxs, hys⟩
        exact ⟨mid, ⟨hs, hlt, hxs⟩, hys⟩
      · rintro ⟨mid, ⟨hs, hlt, hxs⟩, hys⟩
        exact ⟨hs, hlt, mid, hxs, hys⟩

theorem append (h₁ : Tiles start stop lo xs mid) (h₂ : Tiles start stop mid ys hi) :
    Tiles start stop lo (xs ++ ys) hi :=
  append_iff.mpr ⟨mid, h₁, h₂⟩

theorem le : ∀ {lo : Nat} {bs : List β}, Tiles start stop lo bs hi → lo ≤ hi
  | _, [], h => Nat.le_of_eq h
  | _, _ :: _, ⟨_, hlt, h⟩ => Nat.le_trans (Nat.le_of_lt hlt) h.le

/-- A block lies in the interval. -/
theorem mem : ∀ {lo : Nat} {bs : List β}, Tiles start stop lo bs hi → b ∈ bs →
    lo ≤ start b ∧ start b < stop b ∧ stop b ≤ hi
  | lo, x :: xs, ⟨hs, hlt, h⟩, hb => by
      rcases List.mem_cons.mp hb with rfl | hb
      · exact ⟨hs ▸ Nat.le_refl _, hs ▸ hlt, h.le⟩
      · obtain ⟨h₁, h₂, h₃⟩ := h.mem hb
        exact ⟨Nat.le_trans (Nat.le_of_lt hlt) h₁, h₂, h₃⟩

/-- A block stops before the next ones begin. -/
theorem pairwise : ∀ {lo : Nat} {bs : List β}, Tiles start stop lo bs hi →
    bs.Pairwise fun a b => stop a ≤ start b
  | _, [], _ => .nil
  | _, _ :: _, ⟨_, _, h⟩ => .cons (fun _ hb => (h.mem hb).1) h.pairwise

/-- The blocks are in order. -/
theorem sorted (h : Tiles start stop lo bs hi) : bs.Pairwise fun a b => start a < start b :=
  h.pairwise.imp_of_mem fun ha _ hab => Nat.lt_of_lt_of_le (h.mem ha).2.1 hab

/-- Two blocks do not share a point. -/
theorem apart {a : β} : ∀ {lo : Nat} {bs : List β}, Tiles start stop lo bs hi → a ∈ bs → b ∈ bs →
    a = b ∨ stop a ≤ start b ∨ stop b ≤ start a
  | _, _ :: _, ⟨_, _, h⟩, ha, hb => by
      rcases List.mem_cons.mp ha with ha | ha
      · rcases List.mem_cons.mp hb with hb | hb
        · exact .inl (ha.trans hb.symm)
        · exact .inr (.inl (ha ▸ (h.mem hb).1))
      · rcases List.mem_cons.mp hb with hb | hb
        · exact .inr (.inr (hb ▸ (h.mem ha).1))
        · exact h.apart ha hb

/-- Every point is in a block. -/
theorem cover {x : Nat} : ∀ {lo : Nat} {bs : List β}, Tiles start stop lo bs hi → lo ≤ x → x < hi →
    ∃ b ∈ bs, start b ≤ x ∧ x < stop b
  | _, [], h, h₁, h₂ => absurd (h ▸ h₂) (Nat.not_lt.mpr h₁)
  | _, b :: bs, ⟨hs, _, h⟩, h₁, h₂ => by
      by_cases hx : x < stop b
      · exact ⟨b, List.mem_cons_self, hs ▸ h₁, hx⟩
      · obtain ⟨c, hc, hin⟩ := h.cover (Nat.not_lt.mp hx) h₂
        exact ⟨c, List.mem_cons_of_mem _ hc, hin⟩

/-- The interval stops where a block does, unless there is none. -/
theorem last : ∀ {lo : Nat} {bs : List β}, Tiles start stop lo bs hi →
    lo = hi ∨ ∃ b ∈ bs, stop b = hi
  | _, [], h => .inl h
  | _, b :: bs, ⟨_, _, h⟩ => by
      rcases h.last with heq | ⟨c, hc, heq⟩
      · exact .inr ⟨b, List.mem_cons_self, heq⟩
      · exact .inr ⟨c, List.mem_cons_of_mem _ hc, heq⟩

/-- A block is replaced by blocks that tile what it covered. -/
theorem splice (h : Tiles start stop lo (xs ++ b :: ys) hi)
    (hb : Tiles start stop (start b) bs (stop b)) : Tiles start stop lo (xs ++ bs ++ ys) hi := by
  obtain ⟨mid, hxs, rfl, -, hys⟩ := append_iff.mp h
  exact (hxs.append hb).append hys

/-- Blocks before and behind a block. -/
theorem around (h : Tiles start stop lo (xs ++ b :: ys) hi) :
    (∀ x ∈ xs, stop x ≤ start b) ∧ ∀ y ∈ ys, stop b ≤ start y := by
  obtain ⟨mid, hxs, rfl, -, hys⟩ := append_iff.mp h
  exact ⟨fun x hx => (hxs.mem hx).2.2, fun y hy => (hys.mem hy).1⟩

end Tiles

end Muxomucota.Lib
