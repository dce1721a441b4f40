import Mathlib.Data.List.Nodup
import Mathlib.Data.Tree.Basic
import Mathlib.Tactic

/-!
# Lib — binary trees and the way to a hole in them

A tree is Mathlib's `BinaryTree`, with the height it has there.  `bin s a x y` is the node `a` with `x` on the
side `s` and `y` on the other, so that what holds on both sides is said once.

A way (`List (Frame α)`) is what is around a hole, innermost first: the node above the hole, the side the hole
is on, and the subtree on the other side.  `fill c t` puts `t` into the hole.

* `Avl`: the heights of the two children of a node differ by at most one.  `Avl.pow_height_le`: such a tree
  with `n` nodes has at most `log₂ (n + 1)²` levels.
* `AvlWay c h`: what is around the hole would be such a tree if the hole had the height `h`.
* `Toward k c`: the way is the one that a search for `k` takes.  In a sorted tree everything before the hole
  is then smaller than `k`, and everything after it greater (`Toward.between`).
-/

namespace Muxomucota.Lib

variable {α : Type*}

/-! ### Sides -/

inductive Side
  | left
  | right
  deriving DecidableEq, Repr

namespace Side

def other : Side → Side
  | left => right
  | right => left

/-- What one more level on the side adds to the height of the right child less that of the left. -/
def sign : Side → ℤ
  | left => -1
  | right => 1

@[simp] theorem other_left : left.other = right := rfl
@[simp] theorem other_right : right.other = left := rfl
@[simp] theorem sign_left : left.sign = -1 := rfl
@[simp] theorem sign_right : right.sign = 1 := rfl

theorem sign_mul_sign (s : Side) : s.sign * s.sign = 1 := by cases s <;> rfl

theorem sign_other (s : Side) : s.other.sign = -s.sign := by cases s <;> rfl

@[simp] theorem other_other (s : Side) : s.other.other = s := by cases s <;> rfl

end Side

/-- The node `a` with `x` on the side `s`. -/
def bin (s : Side) (a : α) (x y : BinaryTree α) : BinaryTree α :=
  match s with
  | .left => .node a x y
  | .right => .node a y x

@[simp] theorem bin_left (a : α) (x y : BinaryTree α) : bin .left a x y = .node a x y := rfl
@[simp] theorem bin_right (a : α) (x y : BinaryTree α) : bin .right a x y = .node a y x := rfl

theorem bin_other (s : Side) (a : α) (x y : BinaryTree α) : bin s.other a x y = bin s a y x := by cases s <;> rfl

@[simp] theorem bin_ne_nil (s : Side) (a : α) (x y : BinaryTree α) : bin s a x y ≠ .nil := by
  cases s <;> simp

@[simp] theorem height_bin (s : Side) (a : α) (x y : BinaryTree α) :
    (bin s a x y).height = max x.height y.height + 1 := by
  cases s <;> simp [max_comm]

/-! ### The nodes in order -/

def inorder : BinaryTree α → List α
  | .nil => []
  | .node a l r => inorder l ++ a :: inorder r

/-- The node at the root. -/
def rootOf : BinaryTree α → Option α
  | .nil => none
  | .node a _ _ => some a

@[simp] theorem inorder_nil : inorder (.nil : BinaryTree α) = [] := rfl
@[simp] theorem inorder_node (a : α) (l r : BinaryTree α) :
    inorder (.node a l r) = inorder l ++ a :: inorder r := rfl
@[simp] theorem rootOf_nil : rootOf (.nil : BinaryTree α) = none := rfl
@[simp] theorem rootOf_node (a : α) (l r : BinaryTree α) : rootOf (.node a l r) = some a := rfl

@[simp] theorem rootOf_bin (s : Side) (a : α) (x y : BinaryTree α) : rootOf (bin s a x y) = some a := by
  cases s <;> rfl

@[simp] theorem mem_inorder_bin (s : Side) (a b : α) (x y : BinaryTree α) :
    b ∈ inorder (bin s a x y) ↔ b = a ∨ b ∈ inorder x ∨ b ∈ inorder y := by
  cases s <;> simp <;> tauto

theorem length_inorder (t : BinaryTree α) : (inorder t).length = t.numNodes := by
  induction t with
  | nil => rfl
  | node a l r hl hr => simp [hl, hr]; omega

theorem inorder_eq_nil {t : BinaryTree α} : inorder t = [] ↔ t = .nil := by
  cases t <;> simp

theorem rootOf_mem {t : BinaryTree α} {a : α} (h : rootOf t = some a) : a ∈ inorder t := by
  cases t with
  | nil => simp at h
  | node b l r => simp at h; simp [h]

theorem rootOf_eq_none {t : BinaryTree α} : rootOf t = none ↔ t = .nil := by
  cases t <;> simp

/-- A tree with a root has it above two subtrees. -/
theorem exists_bin (s : Side) {t : BinaryTree α} {a : α} (h : rootOf t = some a) : ∃ x y, t = bin s a x y := by
  cases t with
  | nil => simp at h
  | node b l r =>
      obtain rfl : b = a := by simpa using h
      cases s
      · exact ⟨l, r, rfl⟩
      · exact ⟨r, l, rfl⟩

/-- Turning a node down on one side leaves the order as it is. -/
theorem inorder_turn (s : Side) (a b : α) (x y z : BinaryTree α) :
    inorder (bin s b (bin s a x y) z) = inorder (bin s a x (bin s b y z)) := by
  cases s <;> simp

/-! ### The way to a hole -/

/-- One level above a hole. -/
structure Frame (α : Type*) where
  side : Side
  node : α
  sibling : BinaryTree α

def fill : List (Frame α) → BinaryTree α → BinaryTree α
  | [], t => t
  | f :: c, t => fill c (bin f.side f.node t f.sibling)

/-- The node above the hole. -/
def above : List (Frame α) → Option α
  | [] => none
  | f :: _ => some f.node

/-- What comes before the hole. -/
def before : List (Frame α) → List α
  | [] => []
  | f :: c =>
    match f.side with
    | .left => before c
    | .right => before c ++ (inorder f.sibling ++ [f.node])

/-- What comes after the hole. -/
def after : List (Frame α) → List α
  | [] => []
  | f :: c =>
    match f.side with
    | .left => f.node :: inorder f.sibling ++ after c
    | .right => after c

/-- The nodes around the hole. -/
def around (c : List (Frame α)) : List α := before c ++ after c

section ways

variable {c d : List (Frame α)} {f : Frame α} {t : BinaryTree α} {a b : α} {s : Side} {x y : BinaryTree α}

@[simp] theorem fill_nil : fill [] t = t := rfl
@[simp] theorem fill_cons : fill (f :: c) t = fill c (bin f.side f.node t f.sibling) := rfl
@[simp] theorem above_nil : above ([] : List (Frame α)) = none := rfl
@[simp] theorem above_cons : above (f :: c) = some f.node := rfl

theorem fill_append : fill (d ++ c) t = fill c (fill d t) := by
  induction d generalizing t with
  | nil => rfl
  | cons f d ih => exact ih

theorem inorder_fill : inorder (fill c t) = before c ++ inorder t ++ after c := by
  induction c generalizing t with
  | nil => simp [before, after]
  | cons f c ih =>
      obtain ⟨s, a, u⟩ := f
      cases s <;> simp [ih, before, after]

@[simp] theorem mem_around_nil : b ∉ around ([] : List (Frame α)) := by simp [around, before, after]

@[simp] theorem mem_around_cons :
    b ∈ around (f :: c) ↔ b = f.node ∨ b ∈ inorder f.sibling ∨ b ∈ around c := by
  obtain ⟨s, a, u⟩ := f
  cases s <;> simp [around, before, after] <;> tauto

theorem mem_inorder_fill : b ∈ inorder (fill c t) ↔ b ∈ inorder t ∨ b ∈ around c := by
  simp only [inorder_fill, around, List.mem_append]
  tauto

theorem above_mem (h : above c = some a) : a ∈ around c := by
  cases c with
  | nil => simp at h
  | cons f c => simp at h; simp [h]

/-! ### No node twice -/

theorem nodup_bin : (inorder (bin s a x y)).Nodup ↔ (inorder x).Nodup ∧ (inorder y).Nodup ∧
    a ∉ inorder x ∧ a ∉ inorder y ∧ List.Disjoint (inorder x) (inorder y) := by
  cases s
  · simp only [bin_left, inorder_node, List.nodup_append, List.nodup_cons, List.Disjoint]
    grind
  · simp only [bin_right, inorder_node, List.nodup_append, List.nodup_cons, List.Disjoint]
    grind

theorem nodup_fill : (inorder (fill c t)).Nodup ↔
    (inorder t).Nodup ∧ (around c).Nodup ∧ List.Disjoint (inorder t) (around c) := by
  rw [inorder_fill, around]
  simp only [List.nodup_append, List.Disjoint, List.mem_append]
  grind

theorem nodup_around_cons (h : (around (f :: c)).Nodup) : (inorder f.sibling).Nodup ∧ f.node ∉ inorder f.sibling ∧
    (around c).Nodup ∧ f.node ∉ around c ∧ List.Disjoint (inorder f.sibling) (around c) := by
  have h : (inorder (fill (f :: c) .nil)).Nodup := nodup_fill.mpr ⟨List.nodup_nil, h, by simp [List.Disjoint]⟩
  rw [fill_cons, nodup_fill, nodup_bin] at h
  obtain ⟨⟨-, h₁, -, h₂, -⟩, h₃, h₄⟩ := h
  refine ⟨h₁, h₂, h₃, fun hm => h₄ (by simp) hm, fun b hb hm => h₄ (by simp [hb]) hm⟩

end ways

/-! ### The heights -/

section heights

variable {c : List (Frame α)} {f : Frame α} {t : BinaryTree α} {a : α} {s : Side} {x y : BinaryTree α} {h : ℕ}

/-- The height of the right child less that of the left. -/
def lean : BinaryTree α → ℤ
  | .nil => 0
  | .node _ l r => (r.height : ℤ) - l.height

@[simp] theorem lean_node (a : α) (l r : BinaryTree α) : lean (.node a l r) = (r.height : ℤ) - l.height := rfl

/-- At every node the heights of the children differ by at most one. -/
def Avl : BinaryTree α → Prop
  | .nil => True
  | .node _ l r => Avl l ∧ Avl r ∧ l.height ≤ r.height + 1 ∧ r.height ≤ l.height + 1

@[simp] theorem avl_nil : Avl (.nil : BinaryTree α) := trivial

@[simp] theorem avl_bin :
    Avl (bin s a x y) ↔ Avl x ∧ Avl y ∧ x.height ≤ y.height + 1 ∧ y.height ≤ x.height + 1 := by
  cases s <;> simp [Avl]; tauto

/-- The same for the nodes around a hole that has the height `h`. -/
def AvlWay : List (Frame α) → ℕ → Prop
  | [], _ => True
  | f :: c, h => Avl f.sibling ∧ h ≤ f.sibling.height + 1 ∧ f.sibling.height ≤ h + 1 ∧
      AvlWay c (max h f.sibling.height + 1)

theorem avl_fill : Avl (fill c t) ↔ Avl t ∧ AvlWay c t.height := by
  induction c generalizing t with
  | nil => simp [AvlWay]
  | cons f c ih => simp only [fill_cons, ih, avl_bin, height_bin, AvlWay]; tauto

theorem length_add_height_le : c.length + t.height ≤ (fill c t).height := by
  induction c generalizing t with
  | nil => simp
  | cons f c ih =>
      have := ih (t := bin f.side f.node t f.sibling)
      rw [height_bin] at this
      simp only [List.length_cons, fill_cons]
      omega

/-- The square of the number of nodes, one more, is at least two to the number of levels. -/
theorem Avl.pow_height_le (ht : Avl t) : 2 ^ t.height ≤ ((inorder t).length + 1) ^ 2 := by
  rw [length_inorder]
  induction t with
  | nil => simp
  | node a l r hl hr =>
      obtain ⟨al, ar, h₁, h₂⟩ := ht
      replace hl := hl al
      replace hr := hr ar
      -- one of the children may be a level lower than the other
      have key : ∀ {p q m k : ℕ}, p ≤ q → q ≤ p + 1 → 2 ^ p ≤ (m + 1) ^ 2 → 2 ^ q ≤ (k + 1) ^ 2 →
          2 ^ (q + 1) ≤ (m + k + 1 + 1) ^ 2 := by
        intro p q m k hpq hqp hm hk
        have hmk : 2 ^ p ≤ (m + 1) * (k + 1) := by
          have : (2 ^ p) ^ 2 ≤ ((m + 1) * (k + 1)) ^ 2 := by
            calc (2 ^ p) ^ 2 = 2 ^ p * 2 ^ p := sq _
              _ ≤ (m + 1) ^ 2 * (k + 1) ^ 2 :=
                  Nat.mul_le_mul hm ((Nat.pow_le_pow_right two_pos hpq).trans hk)
              _ = ((m + 1) * (k + 1)) ^ 2 := (mul_pow _ _ _).symm
          exact (Nat.pow_le_pow_iff_left two_ne_zero).mp this
        have hq : 2 ^ q ≤ 2 * 2 ^ p := by
          rw [← Nat.pow_succ']
          exact Nat.pow_le_pow_right two_pos hqp
        calc 2 ^ (q + 1) = 2 ^ q + 2 ^ q := by ring
          _ ≤ (k + 1) ^ 2 + 2 * ((m + 1) * (k + 1)) := Nat.add_le_add hk (hq.trans (Nat.mul_le_mul_left 2 hmk))
          _ ≤ (m + k + 1 + 1) ^ 2 := by nlinarith
      simp only [BinaryTree.height, BinaryTree.numNodes]
      rcases le_total l.height r.height with h | h
      · rw [max_eq_right h]
        exact key h h₂ hl hr
      · rw [max_eq_left h, Nat.add_comm l.numNodes]
        exact key h h₁ hr hl

end heights

/-! ### Searching -/

section search

variable {κ : Type*} [LinearOrder κ] {key : α → κ} {k : κ} {c : List (Frame α)} {f : Frame α}

/-- The keys of the nodes rise. -/
def Rising (key : α → κ) (l : List α) : Prop := l.Pairwise fun a b => key a < key b

theorem Rising.nodup {l : List α} (h : Rising key l) : l.Nodup :=
  List.Pairwise.imp (fun hab e => absurd (e ▸ hab) (lt_irrefl _)) h

/-- A search for `k` has taken this way. -/
def Toward (key : α → κ) (k : κ) (c : List (Frame α)) : Prop :=
  ∀ f ∈ c, match f.side with
    | .left => k < key f.node
    | .right => key f.node < k

theorem Toward.between (h : Toward key k c) (hr : Rising key (before c ++ after c)) :
    (∀ a ∈ before c, key a < k) ∧ ∀ a ∈ after c, k < key a := by
  induction c with
  | nil => simp [before, after]
  | cons f c ih =>
      have hf := h f List.mem_cons_self
      have hc : Toward key k c := fun g hg => h g (List.mem_cons_of_mem _ hg)
      obtain ⟨s, b, u⟩ := f
      cases s with
      | left =>
          simp only [before, after, Rising, List.pairwise_append, List.cons_append, List.pairwise_cons,
            List.mem_append, List.mem_cons] at hr hf ⊢
          have ih := ih hc (List.pairwise_append.mpr ⟨hr.1, hr.2.1.2.2.1, fun x hx y hy => hr.2.2 x hx y (by tauto)⟩)
          refine ⟨ih.1, fun a ha => ?_⟩
          rcases ha with rfl | ha | ha
          · exact hf
          · exact hf.trans (hr.2.1.1 a (.inl ha))
          · exact ih.2 a ha
      | right =>
          simp only [before, after, Rising, List.pairwise_append, List.mem_append, List.mem_singleton] at hr hf ⊢
          have ih := ih hc (List.pairwise_append.mpr ⟨hr.1.1, hr.2.1, fun x hx y hy => hr.2.2 x (.inl hx) y hy⟩)
          refine ⟨fun a ha => ?_, ih.2⟩
          rcases ha with ha | ha | rfl
          · exact ih.1 a ha
          · exact (hr.1.2.1.2.2 a ha b rfl).trans hf
          · exact hf

end search

end Muxomucota.Lib
