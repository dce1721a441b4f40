import Muxomucota.Cdi.Tree

/-!
# Cdi — the tree that the items form

The items of a tree hold the address of their parent, those of their children and their balance, so a shape
says what is in every item of it.

* `Holds items p u`: the items form the tree `u` below `p`, and their balances are those of the shape.
* `Around t c hole h`: the tree is around a hole in which `hole` stands, and the balances are those it has to
  have if the hole has the height `h`.

The two are kept apart because `adjust_balance` and `rebalance` work at a hole: what is in it has changed, and
what is around it has not heard of it.
-/

namespace Muxomucota.Cdi
open Lib

variable {ι : Type*}

/-- The items form the tree below the parent. -/
def Holds (items : ι → TreeItem ι) (p : Option ι) : BinaryTree ι → Prop
  | .nil => True
  | .node a l r => items a = ⟨p, rootOf l, rootOf r, lean (.node a l r)⟩ ∧ Holds items (some a) l ∧
      Holds items (some a) r

/-- An item with `x` on the side `s` and `y` on the other. -/
def sided (s : Side) (p x y : Option ι) (b : ℤ) : TreeItem ι :=
  match s with
  | .left => ⟨p, x, y, b⟩
  | .right => ⟨p, y, x, b⟩

/-- The item above a hole in which `hole` stands, if the hole has the height `h`. -/
def itemAbove (f : Frame ι) (p hole : Option ι) (h : ℕ) : TreeItem ι :=
  sided f.side p hole (rootOf f.sibling) (f.side.sign * ((h : ℤ) - f.sibling.height))

/-- The tree is around the hole. -/
def Around (t : Tree ι) : List (Frame ι) → Option ι → ℕ → Prop
  | [], hole, _ => t.root = hole
  | f :: c, hole, h => t.items f.node = itemAbove f (above c) hole h ∧
      Holds t.items (some f.node) f.sibling ∧ Around t c (some f.node) (max h f.sibling.height + 1)

/-- The place of the hole. -/
def linkOf : List (Frame ι) → Link ι
  | [] => .root
  | f :: _ => .child f.side f.node

section sided

variable {s : Side} {p x y : Option ι} {b : ℤ}

theorem sided_other : sided s.other p x y b = sided s p y x b := by cases s <;> rfl

@[simp] theorem sided_parent : (sided s p x y b).parent = p := by cases s <;> rfl

@[simp] theorem sided_child : (sided s p x y b).child s = x := by cases s <;> rfl

@[simp] theorem sided_child_other : (sided s p x y b).child s.other = y := by cases s <;> rfl

@[simp] theorem sided_balance : (sided s p x y b).balance = b := by cases s <;> rfl

@[simp] theorem sided_setChild (v : Option ι) : (sided s p x y b).setChild s v = sided s p v y b := by
  cases s <;> rfl

@[simp] theorem sided_setChild_other (v : Option ι) :
    (sided s p x y b).setChild s.other v = sided s p x v b := by cases s <;> rfl

@[simp] theorem sided_withParent (q : Option ι) : { sided s p x y b with parent := q } = sided s q x y b := by
  cases s <;> rfl

@[simp] theorem sided_withBalance (d : ℤ) : { sided s p x y b with balance := d } = sided s p x y d := by
  cases s <;> rfl

end sided

/-! ### Reading -/

section reading

variable {items items' : ι → TreeItem ι} {t t' : Tree ι} {p hole : Option ι} {c : List (Frame ι)} {h : ℕ}
  {u x y : BinaryTree ι} {a : ι} {s : Side}

theorem holds_bin : Holds items p (bin s a x y) ↔
    items a = sided s p (rootOf x) (rootOf y) (s.sign * ((x.height : ℤ) - y.height)) ∧
      Holds items (some a) x ∧ Holds items (some a) y := by
  cases s
  · simp [Holds, sided]
  · simp only [bin_right, Holds, sided, lean_node, Side.sign_right, one_mul]
    tauto

theorem Holds.congr (hu : Holds items p u) (he : ∀ a ∈ inorder u, items' a = items a) : Holds items' p u := by
  induction u generalizing p with
  | nil => trivial
  | node a l r hl hr =>
      obtain ⟨ha, hl', hr'⟩ := hu
      exact ⟨(he a (by simp)).trans ha, hl hl' fun b hb => he b (by simp [hb]),
        hr hr' fun b hb => he b (by simp [hb])⟩

theorem Around.congr (hc : Around t c hole h) (he : ∀ a ∈ around c, t'.items a = t.items a)
    (hr : t'.root = t.root) : Around t' c hole h := by
  induction c generalizing hole h with
  | nil => exact hr.trans hc
  | cons f c ih =>
      obtain ⟨hf, hs, hc⟩ := hc
      exact ⟨(he _ (by simp)).trans hf, hs.congr fun b hb => he b (by simp [hb]),
        ih hc fun b hb => he b (by simp [hb])⟩

/-- The whole tree from what is in the hole and what is around it. -/
theorem holds_fill : Around t c (rootOf u) u.height ∧ Holds t.items (above c) u ↔
    t.root = rootOf (fill c u) ∧ Holds t.items none (fill c u) := by
  induction c generalizing u with
  | nil => simp [Around]
  | cons f c ih =>
      rw [fill_cons, ← ih, holds_bin, rootOf_bin, height_bin, Around, above_cons]
      tauto

theorem Around.get_linkOf (hc : Around t c hole h) : t.get (linkOf c) = hole := by
  cases c with
  | nil => exact hc
  | cons f c => simp [linkOf, Tree.get, hc.1, itemAbove]

/-- The item in the hole is linked from the place of the hole. -/
theorem Around.linkFromParent [DecidableEq ι] (hc : Around t c (some a) h) (ha : (t.items a).parent = above c)
    (hd : a ∉ around c) : t.linkFromParent a = linkOf c := by
  unfold Tree.linkFromParent
  cases c with
  | nil => simp [ha, linkOf]
  | cons f c =>
      have hs : rootOf f.sibling ≠ some a := fun e => hd (by simp [rootOf_mem e])
      obtain ⟨s, b, y⟩ := f
      simp only [ha, above_cons, hc.1, linkOf]
      cases s
      · simp [itemAbove, sided]
      · simp [itemAbove, sided, hs]

end reading

/-! ### Writing -/

/-- Only the items of the list may differ; the keys are the same. -/
structure Tree.AgreeOff (l : List ι) (t t' : Tree ι) : Prop where
  items : ∀ b ∉ l, t'.items b = t.items b
  sortKey : t'.sortKey = t.sortKey
  keyMask : t'.keyMask = t.keyMask

namespace Tree.AgreeOff

variable {l l' : List ι} {t t' t'' : Tree ι}

theorem refl (t : Tree ι) (l : List ι) : AgreeOff l t t := ⟨fun _ _ => rfl, rfl, rfl⟩

theorem trans (h : AgreeOff l t t') (h' : AgreeOff l t' t'') : AgreeOff l t t'' :=
  ⟨fun b hb => (h'.items b hb).trans (h.items b hb), h'.sortKey.trans h.sortKey, h'.keyMask.trans h.keyMask⟩

theorem mono (h : AgreeOff l t t') (hl : ∀ b ∈ l, b ∈ l') : AgreeOff l' t t' :=
  ⟨fun b hb => h.items b fun hm => hb (hl b hm), h.sortKey, h.keyMask⟩

theorem getKey (h : AgreeOff l t t') : t'.getKey = t.getKey := by
  funext a
  rw [Tree.getKey, Tree.getKey, h.sortKey, h.keyMask]

variable [DecidableEq ι]

theorem update (t : Tree ι) {a : ι} (ha : a ∈ l) (f : TreeItem ι → TreeItem ι) : AgreeOff l t (t.update a f) :=
  ⟨fun b hb => Function.update_of_ne (fun e : b = a => hb (e ▸ ha)) _ _, rfl, rfl⟩

theorem setParent (t : Tree ι) {a : ι} (ha : a ∈ l) (p : Option ι) : AgreeOff l t (t.setParent a p) := update t ha _

theorem setBalance (t : Tree ι) {a : ι} (ha : a ∈ l) (d : ℤ) : AgreeOff l t (t.setBalance a d) := update t ha _

theorem putChild (t : Tree ι) {a : ι} (ha : a ∈ l) (s : Side) (v : Option ι) :
    AgreeOff l t (t.put (.child s a) v) :=
  update t ha (·.setChild s v)

theorem hang (t : Tree ι) {v : Option ι} (hv : ∀ a, v = some a → a ∈ l) (p : Option ι) : AgreeOff l t (t.hang v p) := by
  cases v with
  | none => exact refl t l
  | some a => exact setParent t (hv a rfl) p

theorem put (t : Tree ι) {c : List (Frame ι)} (hc : ∀ a, above c = some a → a ∈ l) (v : Option ι) :
    AgreeOff l t (t.put (linkOf c) v) := by
  cases c with
  | nil => exact ⟨fun _ _ => rfl, rfl, rfl⟩
  | cons f c => exact putChild t (hc f.node rfl) f.side v

end Tree.AgreeOff

section writing

variable [DecidableEq ι] {t : Tree ι} {p hole v : Option ι} {c : List (Frame ι)} {h : ℕ} {u : BinaryTree ι}
  {a b : ι} {f : TreeItem ι → TreeItem ι} {s : Side}

namespace Tree

@[simp] theorem update_same : (t.update a f).items a = f (t.items a) := by simp [update]

@[simp] theorem update_other (hb : b ≠ a) : (t.update a f).items b = t.items b := by simp [update, hb]

@[simp] theorem update_root : (t.update a f).root = t.root := rfl

@[simp] theorem setParent_same {q : Option ι} : (t.setParent a q).items a = { t.items a with parent := q } := by
  simp [setParent]

@[simp] theorem setParent_other {q : Option ι} (hb : b ≠ a) : (t.setParent a q).items b = t.items b := by
  simp [setParent, hb]

@[simp] theorem setBalance_same {d : ℤ} : (t.setBalance a d).items a = { t.items a with balance := d } := by
  simp [setBalance]

@[simp] theorem setBalance_other {d : ℤ} (hb : b ≠ a) : (t.setBalance a d).items b = t.items b := by
  simp [setBalance, hb]

@[simp] theorem setBalance_root {d : ℤ} : (t.setBalance a d).root = t.root := rfl

@[simp] theorem put_child_same : (t.put (.child s a) v).items a = (t.items a).setChild s v := by
  simp [put]

@[simp] theorem put_child_other (hb : b ≠ a) : (t.put (.child s a) v).items b = t.items b := by
  simp [put, hb]

@[simp] theorem put_child_root : (t.put (.child s a) v).root = t.root := rfl

@[simp] theorem put_root_items : (t.put .root v).items = t.items := rfl

@[simp] theorem hang_root : (t.hang v p).root = t.root := by cases v <;> rfl

theorem put_setBalance (d : ℤ) :
    (t.setBalance a d).put (.child s a) v = (t.put (.child s a) v).setBalance a d := by
  cases s <;> simp [put, setBalance, update, TreeItem.setChild]

theorem hang_other (hb : v ≠ some b) : (t.hang v p).items b = t.items b := by
  cases v with
  | none => rfl
  | some a =>
      have hba : b ≠ a := fun e => hb (by rw [e])
      simp [hang, setParent, hba]

@[simp] theorem hang_same : (t.hang (some a) p).items a = { t.items a with parent := p } := by
  simp [hang, setParent]

end Tree

/-- Only what is above the hole is written. -/
theorem put_linkOf_items (hb : above c ≠ some b) : (t.put (linkOf c) v).items b = t.items b := by
  cases c with
  | nil => rfl
  | cons f c => exact Tree.put_child_other fun e => hb (by rw [above_cons, e])

theorem Around.put (hc : Around t c hole h) (hn : (around c).Nodup) (v : Option ι) :
    Around (t.put (linkOf c) v) c v h := by
  cases c with
  | nil => rfl
  | cons f c =>
      obtain ⟨hf, hs, hc⟩ := hc
      obtain ⟨-, hns, -, hnc, -⟩ := nodup_around_cons hn
      refine ⟨?_, hs.congr fun b hb => ?_, hc.congr (fun b hb => ?_) rfl⟩
      · rw [linkOf, Tree.put_child_same, hf, itemAbove, sided_setChild]; rfl
      · exact Tree.put_child_other fun e => hns (e ▸ hb)
      · exact Tree.put_child_other fun e => hnc (e ▸ hb)

/-- A tree is hung below another item. -/
theorem Holds.hang (hu : Holds t.items p u) (hn : (inorder u).Nodup) (q : Option ι) :
    Holds (t.hang (rootOf u) q).items q u := by
  cases u with
  | nil => trivial
  | node a l r =>
      obtain ⟨ha, hl, hr⟩ := hu
      obtain ⟨-, -, hal, har, -⟩ := nodup_bin (s := .left).mp hn
      refine ⟨?_, hl.congr fun b hb => ?_, hr.congr fun b hb => ?_⟩
      · rw [rootOf_node, Tree.hang_same, ha]
      · exact Tree.hang_other fun e => hal (by cases e; exact hb)
      · exact Tree.hang_other fun e => har (by cases e; exact hb)

end writing

end Muxomucota.Cdi
