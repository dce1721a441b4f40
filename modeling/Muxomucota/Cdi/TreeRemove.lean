import Muxomucota.Cdi.TreeInsert

/-!
# Cdi — removing from a tree

An item with at most one child leaves its place to the child (`replaceBy_spec`).  The place of an item with
two children is taken by the last item before it, the rightmost one of its left subtree; the hole is then where
that item was.  `Within` is the part of the way to that hole that lies in the left subtree: its outermost item
gets another parent, and nothing else on it changes (`Within.hang`).
-/

namespace Muxomucota.Cdi
open Lib

variable {ι : Type*} {t : Tree ι} {c d : List (Frame ι)} {u x y : BinaryTree ι} {l : List ι} {a b : ι} {n h h' : ℕ}
  {s : Side} {v p q : Option ι} {items items' : ι → TreeItem ι} {f : Frame ι}

/-- A node has a place in its tree. -/
theorem exists_fill (ha : a ∈ inorder u) : ∃ c l r, u = fill c (.node a l r) := by
  induction u with
  | nil => simp at ha
  | node b l r hl hr =>
      simp only [inorder_node, List.mem_append, List.mem_cons] at ha
      rcases ha with ha | rfl | ha
      · obtain ⟨c, x, y, rfl⟩ := hl ha
        exact ⟨c ++ [⟨.left, b, r⟩], x, y, by rw [fill_append]; rfl⟩
      · exact ⟨[], l, r, rfl⟩
      · obtain ⟨c, x, y, rfl⟩ := hr ha
        exact ⟨c ++ [⟨.right, b, l⟩], x, y, by rw [fill_append]; rfl⟩

/-! ### The way inside a subtree -/

/-- The parent of what is in the hole, if the way ends below `p`. -/
def aboveOr (d : List (Frame ι)) (p : Option ι) : Option ι := (above d).or p

/-- The root of the tree around the hole. -/
def topOf : List (Frame ι) → Option ι → Option ι
  | [], v => v
  | f :: d, _ => topOf d (some f.node)

/-- The height of the tree around the hole. -/
def raise : List (Frame ι) → ℕ → ℕ
  | [], h => h
  | f :: d, h => raise d (max h f.sibling.height + 1)

/-- The items form the way, which ends below `p`. -/
def Within (items : ι → TreeItem ι) (p : Option ι) : List (Frame ι) → Option ι → ℕ → Prop
  | [], _, _ => True
  | f :: d, v, h => items f.node = itemAbove f (aboveOr d p) v h ∧ Holds items (some f.node) f.sibling ∧
      Within items p d (some f.node) (max h f.sibling.height + 1)

@[simp] theorem aboveOr_nil : aboveOr [] p = p := rfl
@[simp] theorem aboveOr_cons : aboveOr (f :: d) p = some f.node := rfl

theorem above_append : above (d ++ c) = aboveOr d (above c) := by
  cases d with
  | nil => rfl
  | cons f d => rfl

theorem mem_around_append : b ∈ around (d ++ c) ↔ b ∈ around d ∨ b ∈ around c := by
  induction d with
  | nil => simp
  | cons f d ih => simp only [List.cons_append, mem_around_cons, ih]; tauto

theorem topOf_cons_mem (f : Frame ι) (d : List (Frame ι)) : ∃ w, topOf (f :: d) v = some w ∧ w ∈ around (f :: d) := by
  induction d generalizing f v with
  | nil => exact ⟨f.node, rfl, by simp⟩
  | cons g d ih =>
      obtain ⟨w, hw, hm⟩ := ih (v := some f.node) g
      exact ⟨w, hw, by rw [mem_around_cons]; tauto⟩

theorem around_append : Around t (d ++ c) v h ↔
    Within t.items (above c) d v h ∧ Around t c (topOf d v) (raise d h) := by
  induction d generalizing v h with
  | nil => simp [Within, topOf, raise]
  | cons f d ih =>
      simp only [List.cons_append, Around, Within, above_append, ih, topOf, raise]
      tauto

theorem nodup_around_append : (around (d ++ c)).Nodup ↔
    (around d).Nodup ∧ (around c).Nodup ∧ List.Disjoint (around d) (around c) := by
  have h : (inorder (fill (d ++ c) .nil)).Nodup ↔ (around (d ++ c)).Nodup := by simp [nodup_fill, List.Disjoint]
  rw [← h, fill_append, nodup_fill, nodup_fill]
  simp only [List.Disjoint, mem_inorder_fill, inorder_nil, List.not_mem_nil, false_or]
  simp

theorem Within.congr (hd : Within items p d v h) (he : ∀ a ∈ around d, items' a = items a) :
    Within items' p d v h := by
  induction d generalizing v h with
  | nil => trivial
  | cons f d ih =>
      obtain ⟨hf, hs, hd⟩ := hd
      exact ⟨(he _ (by simp)).trans hf, hs.congr fun b hb => he b (by simp [hb]), ih hd fun b hb => he b (by simp [hb])⟩

variable [DecidableEq ι]

/-- What is in the hole is replaced. -/
theorem Within.put (hd : Within t.items p (f :: d) v h) (hn : (around (f :: d)).Nodup) (v' : Option ι) :
    Within (t.put (linkOf (f :: d)) v').items p (f :: d) v' h := by
  obtain ⟨hf, hs, hd⟩ := hd
  obtain ⟨-, hns, -, hnd, -⟩ := nodup_around_cons hn
  refine ⟨?_, hs.congr fun b hb => Tree.put_child_other fun e => hns (e ▸ hb),
    hd.congr fun b hb => Tree.put_child_other fun e => hnd (e ▸ hb)⟩
  rw [linkOf, Tree.put_child_same, hf, itemAbove, sided_setChild]
  rfl

/-- The whole way is hung below another item. -/
theorem Within.hang (hd : Within t.items p (f :: d) v h) (hn : (around (f :: d)).Nodup) (q : Option ι) :
    Within (t.hang (topOf (f :: d) v) q).items q (f :: d) v h := by
  induction d generalizing f v h with
  | nil =>
      obtain ⟨hf, hs, -⟩ := hd
      obtain ⟨-, hns, -⟩ := nodup_around_cons hn
      refine ⟨?_, hs.congr fun b hb => Tree.hang_other fun e => hns (by cases e; exact hb), trivial⟩
      rw [topOf, topOf, Tree.hang_same, hf, itemAbove, sided_withParent]
      rfl
  | cons g d ih =>
      obtain ⟨hf, hs, hd⟩ := hd
      obtain ⟨-, -, hng, hfg, hsg⟩ := nodup_around_cons hn
      obtain ⟨w, hw, hwm⟩ := topOf_cons_mem (v := some f.node) g d
      refine ⟨?_, hs.congr fun b hb => Tree.hang_other fun e => ?_, ih hd hng⟩
      · rw [topOf, Tree.hang_other fun e => hfg (by rw [hw] at e; cases e; exact hwm)]
        exact hf
      · rw [topOf, hw] at e
        cases e
        exact hsg hb hwm

/-! ### The ways out of a node -/

omit [DecidableEq ι] in
theorem outermost_spec (s : Side) (hu : Holds t.items p u) (ha : rootOf u = some a) (hlen : u.height ≤ n + 1) :
    ∃ d b x, u = fill d (bin s b .nil x) ∧ (∀ f ∈ d, f.side = s) ∧ t.outermost s n a = some b := by
  induction u generalizing p a n with
  | nil => simp at ha
  | node e l r hl hr =>
      obtain rfl : e = a := by simpa using ha
      obtain ⟨x, y, hxy⟩ := exists_bin s ha
      -- both children, so that one case serves both sides
      have ih : ∀ {p : Option ι} {a : ι} {n : ℕ}, Holds t.items p x → rootOf x = some a → x.height ≤ n + 1 →
          ∃ d b z, x = fill d (bin s b .nil z) ∧ (∀ f ∈ d, f.side = s) ∧ t.outermost s n a = some b := by
        cases s <;> simp only [bin_left, bin_right, BinaryTree.node.injEq] at hxy
        · rw [← hxy.2.1]; exact hl
        · rw [← hxy.2.2]; exact hr
      rw [hxy] at hu hlen ⊢
      obtain ⟨hi, hx, -⟩ := holds_bin.mp hu
      rw [Tree.outermost, hi, sided_child]
      cases x with
      | nil => exact ⟨[], e, y, rfl, by simp, rfl⟩
      | node g xl xr =>
          rw [height_bin] at hlen
          obtain ⟨n, rfl⟩ : ∃ m, n = m + 1 := ⟨n - 1, by simp at hlen; omega⟩
          obtain ⟨d, b, z, hd, hs, hb⟩ := ih (n := n) hx rfl (by omega)
          refine ⟨d ++ [⟨s, e, y⟩], b, z, by rw [fill_append, ← hd]; rfl, fun f hf => ?_, hb⟩
          rcases List.mem_append.mp hf with hf | hf
          · exact hs f hf
          · rw [List.mem_singleton.mp hf]

/-- The item above the hole learns that the hole has a level less, and where its own tree is lower now it tells
what is around it. -/
theorem lower_above {e : ℤ} (hc : Around t (f :: c) v (h' + 1)) (hn : (around (f :: c)).Nodup)
    (he : e = f.side.sign * ((h' : ℤ) - f.sibling.height)) (hlen : c.length ≤ n) :
    ∃ t', (if 0 ≤ f.side.sign * e then (t.setBalance f.node e).adjustBalance (-1) n f.node
        else some (t.setBalance f.node e)) = some t' ∧ Around t' (f :: c) v h' ∧ t.AgreeOff (around (f :: c)) t' := by
  obtain ⟨hf₁, hs₁, hc₁, ho₁⟩ := hc.setHeight hn rfl he
  obtain ⟨-, -, hcn, hfc, hsc⟩ := nodup_around_cons hn
  have hse : f.side.sign * e = (h' : ℤ) - f.sibling.height := by rw [he, ← mul_assoc, f.side.sign_mul_sign, one_mul]
  rw [hse]
  split
  case isTrue hle =>
    have hpar : ((t.setBalance f.node e).items f.node).parent = above c := by rw [hf₁]; exact sided_parent
    obtain ⟨t', ht', hc', ho'⟩ : ∃ t', (t.setBalance f.node e).adjustBalance (-1) n f.node = some t' ∧
        Around t' c (some f.node) (max h' f.sibling.height + 1) ∧ (t.setBalance f.node e).AgreeOff (around c) t' :=
      adjustBalance_spec hc₁ hpar hcn hfc (.inr ⟨rfl, by omega⟩) hlen
    refine ⟨t', ht', ⟨(ho'.items _ hfc).trans hf₁, hs₁.congr fun b hb => ho'.items b (hsc hb), hc'⟩,
      ho₁.trans (ho'.mono fun b hb => by rw [mem_around_cons]; tauto)⟩
  case isFalse hlt =>
    have hmax : max (h' + 1) f.sibling.height = max h' f.sibling.height := by omega
    rw [hmax] at hc₁
    exact ⟨_, rfl, ⟨hf₁, hs₁, hc₁⟩, ho₁⟩

/-- The tree has become one of the nodes `l'`; nothing but the items of `l` has been written. -/
def Rebuilt (t : Tree ι) (l l' : List ι) (t' : Tree ι) : Prop :=
  ∃ v, t'.root = rootOf v ∧ Holds t'.items none v ∧ Avl v ∧ inorder v = l' ∧ t.AgreeOff l t'

/-- The hole has lost a level, and `rebalance` starts above it. -/
theorem rebalance_lower (hn : (inorder (fill c u)).Nodup) (hu : Avl u) (hc : AvlWay c (u.height + 1))
    (hcu : Around t c (rootOf u) u.height) (hv : Holds t.items (above c) u) (hlen : 2 * c.length ≤ n) :
    ∃ t', t.rebalance n (above c) = some t' ∧ Rebuilt t (inorder (fill c u)) (inorder (fill c u)) t' := by
  obtain ⟨t', v, ht', hv, hi, hr, hh, ho⟩ := rebalance_spec hn hu hc (by omega) (by omega) hcu hv hlen
  exact ⟨t', ht', v, hr, hh, hv, hi, ho⟩

/-! ### Removing -/

theorem replaceBy_spec (hroot : t.root = rootOf (fill c (bin s a u .nil)))
    (hh : Holds t.items none (fill c (bin s a u .nil))) (havl : Avl (fill c (bin s a u .nil)))
    (hn : (inorder (fill c (bin s a u .nil))).Nodup) (hlen : 2 * c.length ≤ n) :
    ∃ t', t.replaceBy n a (rootOf u) = some t' ∧
      Rebuilt t (inorder (fill c (bin s a u .nil))) (inorder (fill c u)) t' := by
  obtain ⟨hcu, hu⟩ := holds_fill.mpr ⟨hroot, hh⟩
  obtain ⟨hau, hway⟩ := avl_fill.mp havl
  obtain ⟨hi, hu, -⟩ := holds_bin.mp hu
  obtain ⟨hun, hcn, hd⟩ := nodup_fill.mp hn
  obtain ⟨hun, -, hau', -, -⟩ := nodup_bin.mp hun
  have hac : a ∉ around c := hd (by simp)
  have huc : List.Disjoint (inorder u) (around c) := fun b hb hm => hd (by simp [hb]) hm
  have hpar : (t.items a).parent = above c := by rw [hi, sided_parent]
  rw [rootOf_bin, height_bin] at hcu
  have hheight : max u.height (BinaryTree.nil : BinaryTree ι).height + 1 = u.height + 1 := by simp
  rw [hheight] at hcu
  rw [height_bin, hheight] at hway
  -- what is around learns of the lower height
  obtain ⟨t₁, ht₁, hc₁, ho₁⟩ := adjustBalance_spec hcu hpar hcn hac (.inr ⟨rfl, rfl⟩) (by omega : c.length ≤ n)
  -- the child in the place of the item
  set t₂ := (t₁.put (linkOf c) (rootOf u)).hang (rootOf u) (above c) with ht₂
  have hu₁ : Holds (t₁.put (linkOf c) (rootOf u)).items (some a) u := hu.congr fun b hb => by
    rw [put_linkOf_items fun e => huc hb (above_mem e), ho₁.items b (huc hb)]
  have hu₂ : Holds t₂.items (above c) u := hu₁.hang hun _
  have hc₂ : Around t₂ c (rootOf u) u.height :=
    (hc₁.put hcn (rootOf u)).congr (fun b hb => Tree.hang_other fun e => huc (rootOf_mem e) hb) (by rw [ht₂]; simp)
  have hpar₁ : ((t₁.put (linkOf c) (rootOf u)).items a).parent = above c := by
    rw [put_linkOf_items fun e => hac (above_mem e), ho₁.items a hac, hpar]
  have hpar₂ : (t₂.items a).parent = above c := by rw [ht₂, Tree.hang_other fun e => hau' (rootOf_mem e), hpar₁]
  have hn' : (inorder (fill c u)).Nodup := nodup_fill.mpr ⟨hun, hcn, huc⟩
  obtain ⟨t', ht', v, hr, hh', hv, hiv, ho⟩ := rebalance_lower hn' (avl_bin.mp hau).1 hway hc₂ hu₂ hlen
  refine ⟨t', ?_, v, hr, hh', hv, hiv, ?_⟩
  · rw [Tree.replaceBy, hcu.linkFromParent hpar hac, ht₁]
    simp only [Option.bind_eq_bind, Option.bind_some, hpar₁, ← ht₂, hpar₂, ht']
  · have hsub : ∀ b, b ∈ inorder u ∨ b ∈ around c → b ∈ inorder (fill c (bin s a u .nil)) := fun b hb => by
      rw [mem_inorder_fill, mem_inorder_bin]
      tauto
    refine (((ho₁.mono fun b hb => hsub b (.inr hb)).trans (.put _ (fun b hb => hsub b (.inr (above_mem hb))) _)).trans
      (.hang _ (fun b hb => hsub b (.inl (rootOf_mem hb))) _)).trans (ho.mono fun b hb => hsub b ?_)
    exact mem_inorder_fill.mp hb

/-- The end of `tree_remove` when the hole below `f.node` has lost a level. -/
theorem lower_rebalance {e : ℤ} (hn : (inorder (fill (f :: c) x)).Nodup) (hx : Avl x)
    (hway : AvlWay (f :: c) (x.height + 1)) (hc : Around t (f :: c) (rootOf x) (x.height + 1))
    (hh : Holds t.items (some f.node) x) (he : e = f.side.sign * ((x.height : ℤ) - f.sibling.height))
    (hlen : 2 * (f :: c).length ≤ n) :
    ∃ t₁ t', (if 0 ≤ f.side.sign * e then (t.setBalance f.node e).adjustBalance (-1) n f.node
        else some (t.setBalance f.node e)) = some t₁ ∧ t₁.rebalance n (some f.node) = some t' ∧
      Rebuilt t (inorder (fill (f :: c) x)) (inorder (fill (f :: c) x)) t' := by
  obtain ⟨-, hcn, hd⟩ := nodup_fill.mp hn
  obtain ⟨t₁, ht₁, hc₁, ho₁⟩ := lower_above hc hcn he (by simp at hlen; omega : c.length ≤ n)
  have hh₁ : Holds t₁.items (some f.node) x := hh.congr fun b hb => ho₁.items b (hd hb)
  obtain ⟨t', ht', v, hr, hv, ha, hi, ho⟩ := rebalance_lower hn hx hway hc₁ hh₁ hlen
  exact ⟨t₁, t', ht₁, ht', v, hr, hv, ha, hi, (ho₁.mono fun b hb => mem_inorder_fill.mpr (.inr hb)).trans ho⟩

theorem takeOver_eq {w w' r : Option ι} {bal : ℤ} (hi : t.items a = sided .left p w r bal)
    (hw' : w' = if w = some b then none else w) (hb : w' ≠ some b) :
    t.takeOver a b = ((t.update b fun _ => sided .left p w' r bal).hang w' (some b)).hang r (some b) := by
  have hl : (sided .left p w r bal).left = w := rfl
  have hr : (sided .left p w r bal).right = r := rfl
  rw [Tree.takeOver, hi, hl, hr, sided_parent, sided_balance, ← hw']
  simp only [Tree.update_same, Tree.hang_other hb]
  rfl

/-- The substitute is the left child of the item. -/
theorem substitute_child (hroot : t.root = rootOf (fill c (bin .left a (bin .right b .nil x) y)))
    (hh : Holds t.items none (fill c (bin .left a (bin .right b .nil x) y)))
    (havl : Avl (fill c (bin .left a (bin .right b .nil x) y)))
    (hn : (inorder (fill c (bin .left a (bin .right b .nil x) y))).Nodup) (hlen : 2 * c.length + 2 ≤ n) :
    ∃ t', t.substitute n a b = some t' ∧ Rebuilt t (inorder (fill c (bin .left a (bin .right b .nil x) y)))
      (inorder (fill c (bin .left b x y))) t' := by
  obtain ⟨hcu, hu⟩ := holds_fill.mpr ⟨hroot, hh⟩
  obtain ⟨hau, hway⟩ := avl_fill.mp havl
  obtain ⟨hi, hb, hy⟩ := holds_bin.mp hu
  obtain ⟨hib, -, hx⟩ := holds_bin.mp hb
  obtain ⟨hun, hcn, hd⟩ := nodup_fill.mp hn
  have hd' := hun
  simp only [nodup_bin, mem_inorder_bin, List.Disjoint, inorder_nil, List.not_mem_nil, false_or] at hd'
  obtain ⟨⟨-, hxn, -, hbx, -⟩, hyn, hab, hay, hby⟩ := hd'
  have hac : a ∉ around c := hd (by simp)
  have hbc : b ∉ around c := hd (by simp)
  have hxc : ∀ e ∈ inorder x, e ∉ around c := fun e he => hd (by simp [he])
  have hyc : ∀ e ∈ inorder y, e ∉ around c := fun e he => hd (by simp [he])
  have hby' : b ∉ inorder y := hby (.inl rfl)
  have hxy : ∀ e ∈ inorder x, e ∉ inorder y := fun e he => hby (.inr he)
  have hba : b ≠ a := fun e => hab (.inl e.symm)
  have hrb : rootOf y ≠ some b := fun e => hby' (rootOf_mem e)
  rw [rootOf_bin] at hi hcu
  simp only [height_bin, BinaryTree.height, Nat.zero_max] at hi hcu
  have hpb : t.linkFromParent b = .child .left a := by
    rw [Tree.linkFromParent, hib, sided_parent]
    simp [hi, sided]
  have hpa : t.linkFromParent a = linkOf c := hcu.linkFromParent (by rw [hi, sided_parent]) hac
  -- the substitute with the parent, the right child and the balance of the item
  set bal : ℤ := Side.left.sign * (((x.height + 1 : ℕ) : ℤ) - y.height) with hbal
  set t₁ := t.update b fun _ => sided .left (above c) none (rootOf y) bal with ht₁
  set t₂ := (t₁.hang (rootOf y) (some b)).put (.child .left a) (rootOf x) with ht₂
  set t₃ := (t₂.put (linkOf c) (some b)).put (.child .left b) (rootOf x) with ht₃
  have hb₂ : t₂.items b = sided .left (above c) none (rootOf y) bal := by
    rw [ht₂, Tree.put_child_other hba, Tree.hang_other hrb, ht₁, Tree.update_same]
  have hb₃ : t₃.items b = sided .left (above c) (rootOf x) (rootOf y) bal := by
    rw [ht₃, Tree.put_child_same, put_linkOf_items fun e => hbc (above_mem e), hb₂]
    rfl
  have ho : t.AgreeOff (inorder (fill c (bin .left a (bin .right b .nil x) y))) t₃ := by
    refine ((((Tree.AgreeOff.update t ?_ _).trans (.hang _ (fun e he => ?_) _)).trans (.putChild _ ?_ _ _)).trans
      (.put _ (fun e he => ?_) _)).trans (.putChild _ ?_ _ _)
    all_goals simp only [mem_inorder_fill, mem_inorder_bin]
    · tauto
    · have := rootOf_mem he; tauto
    · tauto
    · have := above_mem he; tauto
    · tauto
  have hy₃ : Holds t₃.items (some b) y := by
    have hy₁ : Holds t₁.items (some a) y := hy.congr fun e he => Tree.update_other (ne_of_mem_of_not_mem he hby')
    refine (hy₁.hang hyn (some b)).congr fun e he => ?_
    rw [ht₃, Tree.put_child_other (ne_of_mem_of_not_mem he hby'), put_linkOf_items fun h => hyc e he (above_mem h), ht₂,
      Tree.put_child_other (ne_of_mem_of_not_mem he hay)]
  have hx₃ : Holds t₃.items (some b) x := hx.congr fun e he => by
    rw [ht₃, Tree.put_child_other (ne_of_mem_of_not_mem he hbx), put_linkOf_items fun h => hxc e he (above_mem h), ht₂,
      Tree.put_child_other (ne_of_mem_of_not_mem he fun h => hab (.inr h)), Tree.hang_other fun h => hxy e he (rootOf_mem h), ht₁,
      Tree.update_other (ne_of_mem_of_not_mem he hbx)]
  have hc₃ : Around t₃ (⟨.left, b, y⟩ :: c) (rootOf x) (x.height + 1) := by
    have hc₂ : Around t₂ c (some a) (max (x.height + 1) y.height + 1) := by
      refine hcu.congr (fun e he => ?_) (by rw [ht₂, Tree.put_child_root, Tree.hang_root, ht₁, Tree.update_root])
      rw [ht₂, Tree.put_child_other (ne_of_mem_of_not_mem he hac), Tree.hang_other fun h => hyc e (rootOf_mem h) he, ht₁,
        Tree.update_other (ne_of_mem_of_not_mem he hbc)]
    exact ⟨hb₃, hy₃, (hc₂.put hcn (some b)).congr (fun e he => Tree.put_child_other (ne_of_mem_of_not_mem he hbc)) rfl⟩
  have hx' : Avl x := (avl_bin.mp (avl_bin.mp hau).1).2.1
  have hway' : AvlWay (⟨.left, b, y⟩ :: c) (x.height + 1) := by
    obtain ⟨-, hyv, h₁, h₂⟩ := avl_bin.mp hau
    simp only [height_bin, BinaryTree.height, Nat.zero_max] at h₁ h₂ hway
    exact ⟨hyv, h₁, h₂, hway⟩
  have hn' : (inorder (fill (⟨.left, b, y⟩ :: c) x)).Nodup := by
    rw [fill_cons, nodup_fill, nodup_bin]
    refine ⟨⟨hxn, hyn, hbx, hby', fun e he => hxy e he⟩, hcn, fun e he => ?_⟩
    rcases mem_inorder_bin _ _ _ _ _ |>.mp he with rfl | he | he
    · exact hbc
    · exact hxc e he
    · exact hyc e he
  have he : bal + 1 = Side.left.sign * ((x.height : ℤ) - y.height) := by rw [hbal, Side.sign_left]; omega
  obtain ⟨t₄, t', ht₄, ht', v, hr', hv, ha', hi', ho'⟩ := lower_rebalance hn' hx' hway' hc₃ hx₃ he
    (by simp only [List.length_cons]; omega)
  refine ⟨t', ?_, v, hr', hv, ha', hi', ho.trans (ho'.mono fun e he => ?_)⟩
  · rw [Tree.substitute]
    have htake : t.takeOver a b = (t₁.hang none (some b)).hang (rootOf y) (some b) :=
      takeOver_eq hi (if_pos rfl).symm (by simp)
    have hleft : (sided .right (some a) (rootOf .nil) (rootOf x)
        (Side.right.sign * (((BinaryTree.nil : BinaryTree ι).height : ℤ) - x.height))).left = rootOf x := rfl
    have hbal₂ : ((t₂.put (linkOf c) (some b)).items b).balance = bal := by
      rw [put_linkOf_items fun e => hbc (above_mem e), hb₂, sided_balance]
    have hcond : ((t₃.setBalance b (bal + 1)).items b).balance ≤ 0 ↔ 0 ≤ Side.left.sign * (bal + 1) := by
      rw [Tree.setBalance_same, Side.sign_left]
      show bal + 1 ≤ 0 ↔ _
      omega
    simp only [hpa, hpb, hib, sided_parent, htake, hleft, Option.bind_some, if_true]
    show Tree.shrinkLeft n (t₂.put (linkOf c) (some b)) b (rootOf x) = some t'
    rw [Tree.shrinkLeft, hbal₂, Tree.put_setBalance, ← ht₃]
    simp only [hcond, ht₄, Option.bind_eq_bind, Option.bind_some, ht']
  · simp only [fill_cons, mem_inorder_fill, mem_inorder_bin] at he ⊢
    tauto

/-- No node is in two of the places that `substitute` writes to. -/
structure Apart (c d : List (Frame ι)) (x y : BinaryTree ι) (a b : ι) : Prop where
  xs : (inorder x).Nodup
  ys : (inorder y).Nodup
  cs : (around c).Nodup
  ds : (around d).Nodup
  ac : a ∉ around c
  ay : a ∉ inorder y
  ad : a ∉ around d
  bx : b ∉ inorder x
  ba : b ≠ a
  bi : b ∉ inorder y
  bc : b ∉ around c
  bd : b ∉ around d
  xy : ∀ e ∈ inorder x, e ∉ inorder y
  xc : ∀ e ∈ inorder x, e ∉ around c
  xd : ∀ e ∈ inorder x, e ∉ around d
  yc : ∀ e ∈ inorder y, e ∉ around c
  yd : ∀ e ∈ inorder y, e ∉ around d
  cd : ∀ e ∈ around c, e ∉ around d

omit [DecidableEq ι] in
theorem apart_of_nodup (hn : (inorder (fill (d ++ ⟨.left, a, y⟩ :: c) (bin .right b .nil x))).Nodup) :
    Apart c d x y a b := by
  simp only [nodup_fill, nodup_bin, nodup_around_append] at hn
  obtain ⟨⟨-, hxn, -, hbx, -⟩, ⟨hdn, hcn, hdc⟩, hd⟩ := hn
  obtain ⟨hyn, hay, hcn, hac, hyc⟩ := nodup_around_cons hcn
  have hdc : ∀ e, e = a ∨ e ∈ inorder y ∨ e ∈ around c → e ∉ around d := fun e he h =>
    hdc h (mem_around_cons.mpr he)
  have hd : ∀ e, e = b ∨ e ∈ inorder x → e ∉ around d ∧ e ≠ a ∧ e ∉ inorder y ∧ e ∉ around c := fun e he => by
    have h := hd (a := e) (by rw [mem_inorder_bin]; tauto)
    rw [mem_around_append, mem_around_cons (f := ⟨.left, a, y⟩)] at h
    tauto
  exact ⟨hxn, hyn, hcn, hdn, hac, hay, hdc a (by tauto), hbx, (hd b (by tauto)).2.1, (hd b (by tauto)).2.2.1,
    (hd b (by tauto)).2.2.2, (hd b (by tauto)).1, fun e he => (hd e (by tauto)).2.2.1,
    fun e he => (hd e (by tauto)).2.2.2, fun e he => (hd e (by tauto)).1, fun e he => hyc he,
    fun e he => hdc e (by tauto), fun e he => hdc e (by tauto)⟩

/-- The items after the substitute has taken over. -/
theorem deep_items {w : ι} {bal : ℤ} (ap : Apart c (f :: d) x y a b)
    (hD : Within t.items (some a) (f :: d) (some b) h) (hw : topOf (f :: d) (some b) = some w)
    (hi : t.items a = sided .left (above c) (some w) (rootOf y) bal) (hy : Holds t.items (some a) y) :
    ∃ t₃, t.takeOver a b = t₃ ∧ t₃.root = t.root ∧ t₃.items b = sided .left (above c) (some w) (rootOf y) bal ∧
      Within t₃.items (some b) (f :: d) (some b) h ∧ Holds t₃.items (some b) y ∧
      t.AgreeOff (b :: w :: inorder y) t₃ := by
  obtain ⟨w', hw', hwd⟩ := topOf_cons_mem (v := some b) f d
  obtain rfl : w' = w := by rw [hw'] at hw; exact Option.some.inj hw
  have hwb : w' ≠ b := ne_of_mem_of_not_mem hwd ap.bd
  have hyb : rootOf y ≠ some b := fun e => ap.bi (rootOf_mem e)
  have htake := takeOver_eq hi (if_neg (by simpa using hwb)).symm (by simpa using hwb)
  set t₁ := t.update b fun _ => sided .left (above c) (some w') (rootOf y) bal with ht₁
  set t₂ := t₁.hang (some w') (some b) with ht₂
  refine ⟨_, htake, by rw [Tree.hang_root, ht₂, Tree.hang_root, ht₁, Tree.update_root], ?_, ?_, ?_, ?_⟩
  · rw [Tree.hang_other hyb, ht₂, Tree.hang_other (by simpa using hwb), ht₁, Tree.update_same]
  · have h₁ : Within t₁.items (some a) (f :: d) (some b) h :=
      hD.congr fun e he => Tree.update_other (ne_of_mem_of_not_mem he ap.bd)
    refine (h₁.hang ap.ds (some b)).congr fun e he => ?_
    rw [Tree.hang_other fun h => ap.yd e (rootOf_mem h) he, ht₂, hw]
  · have h₂ : Holds t₂.items (some a) y := hy.congr fun e he => by
      have hwe : some w' ≠ some e := fun h => ap.yd e he (by cases h; exact hwd)
      rw [ht₂, Tree.hang_other hwe, ht₁, Tree.update_other (ne_of_mem_of_not_mem he ap.bi)]
    exact h₂.hang ap.ys _
  · refine ((Tree.AgreeOff.update t (by simp) _).trans (.hang _ (fun e he => ?_) _)).trans (.hang _ (fun e he => ?_) _)
    · simp_all
    · simp [rootOf_mem he]

/-- The tree when only the heights are not right yet: the hole has a level less than around it is known. -/
theorem deep_hole {t₃ t₆ : Tree ι} {w : ι} (ap : Apart c (f :: d) x y a b) (hw : topOf (f :: d) (some b) = some w)
    (hx : Holds t.items (some b) x) (hc : Around t c (some a) (max (raise (f :: d) h) y.height + 1))
    (hr : t₃.root = t.root) (hb : t₃.items b = itemAbove ⟨.left, b, y⟩ (above c) (some w) (raise (f :: d) h))
    (hD : Within t₃.items (some b) (f :: d) (some b) h) (hy : Holds t₃.items (some b) y)
    (ho : t.AgreeOff (b :: w :: inorder y) t₃)
    (ht₆ : t₆ = ((t₃.put (linkOf (f :: d)) (rootOf x)).put (linkOf c) (some b)).hang (rootOf x) (some f.node)) :
    Around t₆ ((f :: d) ++ ⟨.left, b, y⟩ :: c) (rootOf x) h ∧ Holds t₆.items (some f.node) x ∧
      t.AgreeOff (inorder (fill ((f :: d) ++ ⟨.left, a, y⟩ :: c) (bin .right b .nil x))) t₆ := by
  obtain ⟨w', hw', hwd⟩ := topOf_cons_mem (v := some b) f d
  obtain rfl : w' = w := by rw [hw'] at hw; exact Option.some.inj hw
  have hfd : f.node ∈ around (f :: d) := by simp
  have off : ∀ {e : ι}, e ≠ f.node → above c ≠ some e → rootOf x ≠ some e → t₆.items e = t₃.items e :=
    fun {e} h₁ h₂ h₃ => by
      rw [ht₆, Tree.hang_other h₃, put_linkOf_items h₂, put_linkOf_items (by simpa using Ne.symm h₁)]
  have hc₃ : ∀ e ∈ around c, t₃.items e = t.items e := fun e he => ho.items e <| by
    simp only [List.mem_cons, not_or]
    exact ⟨ne_of_mem_of_not_mem he ap.bc, fun h => ap.cd e he (h ▸ hwd), fun h => ap.yc e h he⟩
  have hx₃ : ∀ e ∈ inorder x, t₃.items e = t.items e := fun e he => ho.items e <| by
    simp only [List.mem_cons, not_or]
    exact ⟨ne_of_mem_of_not_mem he ap.bx, fun h => ap.xd e he (h ▸ hwd), ap.xy e he⟩
  refine ⟨around_append.mpr ⟨?_, ?_, ?_, ?_⟩, ?_, ?_⟩
  · refine (hD.put ap.ds (rootOf x)).congr fun e he => ?_
    rw [ht₆, Tree.hang_other fun h => ap.xd e (rootOf_mem h) he, put_linkOf_items fun h => ap.cd e (above_mem h) he]
  · rw [off (Ne.symm (ne_of_mem_of_not_mem hfd ap.bd)) (fun e => ap.bc (above_mem e)) fun e => ap.bx (rootOf_mem e), hb,
      ← hw']
    rfl
  · refine hy.congr fun e he => off ?_ ?_ ?_
    · exact fun h => ap.yd e he (h ▸ hfd)
    · exact fun h => ap.yc e he (above_mem h)
    · exact fun h => ap.xy e (rootOf_mem h) he
  · have h₄ : Around (t₃.put (linkOf (f :: d)) (rootOf x)) c (some a) (max (raise (f :: d) h) y.height + 1) :=
      hc.congr (fun e he => by rw [put_linkOf_items fun h => ap.cd e he (above_mem h), hc₃ e he]) hr
    refine (h₄.put ap.cs (some b)).congr (fun e he => ?_) (by rw [ht₆, Tree.hang_root])
    rw [ht₆, Tree.hang_other fun h => ap.xc e (rootOf_mem h) he]
  · have h₅ : Holds ((t₃.put (linkOf (f :: d)) (rootOf x)).put (linkOf c) (some b)).items (some b) x :=
      hx.congr fun e he => by
        rw [put_linkOf_items fun h => ap.xc e he (above_mem h), put_linkOf_items fun h => ap.xd e he (above_mem h),
          hx₃ e he]
    rw [ht₆]
    exact h₅.hang ap.xs _
  · have hsub : ∀ e, e = b ∨ e ∈ around (f :: d) ∨ e ∈ inorder x ∨ e ∈ inorder y ∨ e ∈ around c →
        e ∈ inorder (fill ((f :: d) ++ ⟨.left, a, y⟩ :: c) (bin .right b .nil x)) := fun e he => by
      rw [mem_inorder_fill, mem_inorder_bin, mem_around_append, mem_around_cons (f := ⟨.left, a, y⟩)]
      tauto
    rw [ht₆]
    refine (((ho.mono fun e he => hsub e ?_).trans (.put _ (fun e he => hsub e ?_) _)).trans
      (.put _ (fun e he => hsub e ?_) _)).trans (.hang _ (fun e he => hsub e ?_) _)
    · rcases List.mem_cons.mp he with rfl | he
      · exact .inl rfl
      · rcases List.mem_cons.mp he with rfl | he
        · exact .inr (.inl hwd)
        · exact .inr (.inr (.inr (.inl he)))
    · exact .inr (.inl (above_mem he))
    · exact .inr (.inr (.inr (.inr (above_mem he))))
    · exact .inr (.inr (.inl (rootOf_mem he)))

omit [DecidableEq ι] in
theorem Apart.nodup (ap : Apart c d x y a b) : (inorder (fill (d ++ ⟨.left, b, y⟩ :: c) x)).Nodup := by
  rw [fill_append, fill_cons, nodup_fill, nodup_bin, nodup_fill]
  refine ⟨⟨⟨ap.xs, ap.ds, fun e he => ap.xd e he⟩, ap.ys, ?_, ap.bi, fun e he hey => ?_⟩, ap.cs, fun e he hec => ?_⟩
  · exact fun h => (mem_inorder_fill.mp h).elim ap.bx ap.bd
  · exact (mem_inorder_fill.mp he).elim (fun h => ap.xy e h hey) (ap.yd e hey)
  · rcases (mem_inorder_bin _ _ _ _ _).mp he with rfl | he | he
    · exact ap.bc hec
    · exact (mem_inorder_fill.mp he).elim (fun h => ap.xc e h hec) (ap.cd e hec)
    · exact ap.yc e he hec

/-- The substitute is further down, where only right children lead. -/
theorem substitute_deep
    (hroot : t.root = rootOf (fill c (bin .left a (fill (f :: d) (bin .right b .nil x)) y)))
    (hh : Holds t.items none (fill c (bin .left a (fill (f :: d) (bin .right b .nil x)) y)))
    (havl : Avl (fill c (bin .left a (fill (f :: d) (bin .right b .nil x)) y)))
    (hn : (inorder (fill c (bin .left a (fill (f :: d) (bin .right b .nil x)) y))).Nodup) (hf : f.side = .right)
    (hlen : 2 * (c.length + (f :: d).length + 1) ≤ n) :
    ∃ t', t.substitute n a b = some t' ∧
      Rebuilt t (inorder (fill c (bin .left a (fill (f :: d) (bin .right b .nil x)) y)))
        (inorder (fill c (bin .left b (fill (f :: d) x) y))) t' := by
  have hfill : ∀ (e : ι) (u : BinaryTree ι),
      fill ((f :: d) ++ ⟨.left, e, y⟩ :: c) u = fill c (bin .left e (fill (f :: d) u) y) := fun e u => by
    rw [fill_append]
    rfl
  rw [← hfill] at hroot hh hn ⊢
  obtain ⟨hcu, hu⟩ := holds_fill.mpr ⟨hroot, hh⟩
  obtain ⟨hib, -, hx⟩ := holds_bin.mp hu
  rw [rootOf_bin] at hcu
  simp only [height_bin, BinaryTree.height, Nat.zero_max] at hcu
  obtain ⟨hD, hi, hy, hca⟩ := around_append.mp hcu
  dsimp only at hi hy hca
  have ap := apart_of_nodup hn
  obtain ⟨w, hw, hwD⟩ := topOf_cons_mem (v := some b) f d
  rw [itemAbove, hw] at hi
  obtain ⟨t₃, htake, hr₃, hb₃, hD₃, hy₃, ho₃⟩ := deep_items ap hD hw hi hy
  set t₆ := ((t₃.put (linkOf (f :: d)) (rootOf x)).put (linkOf c) (some b)).hang (rootOf x) (some f.node) with ht₆
  obtain ⟨hcu₆, hx₆, ho₆⟩ := deep_hole ap hw hx hca hr₃ hb₃ hD₃ hy₃ ho₃ ht₆
  -- the hole has lost a level
  have hbal₆ : (t₆.items f.node).balance - 1 = f.side.sign * ((x.height : ℤ) - f.sibling.height) := by
    have h : (t₆.items f.node).balance = f.side.sign * (((x.height + 1 : ℕ) : ℤ) - f.sibling.height) := by
      rw [(around_append.mp hcu₆).1.1]
      exact sided_balance
    rw [h, hf, Side.sign_right]
    omega
  have hx' : Avl x ∧ AvlWay ((f :: d) ++ ⟨.left, b, y⟩ :: c) (x.height + 1) := by
    have h : Avl (fill ((f :: d) ++ ⟨.left, b, y⟩ :: c) (bin .right b .nil x)) := by
      rw [hfill]
      rw [avl_fill, avl_bin, height_bin] at havl ⊢
      exact havl
    rw [avl_fill, avl_bin, height_bin] at h
    exact ⟨h.1.2.1, by simpa using h.2⟩
  have hlen' : 2 * ((f :: (d ++ ⟨.left, b, y⟩ :: c)).length) ≤ n := by
    simp only [List.length_cons, List.length_append] at hlen ⊢
    omega
  obtain ⟨t₇, t', ht₇, ht', v, hr', hv, ha', hi', ho'⟩ :=
    lower_rebalance (c := d ++ ⟨.left, b, y⟩ :: c) ap.nodup hx'.1 hx'.2 hcu₆ hx₆ hbal₆ hlen'
  refine ⟨t', ?_, v, hr', hv, ha', by rw [← hfill]; exact hi', ho₆.trans (ho'.mono fun e he => ?_)⟩
  · have hpa : t.linkFromParent a = linkOf c := hca.linkFromParent (by rw [hi, sided_parent]) ap.ac
    have hpb : t.linkFromParent b = linkOf (f :: d) :=
      hcu.linkFromParent (by rw [hib, sided_parent]) fun h => by
        rw [mem_around_append, mem_around_cons (f := ⟨.left, a, y⟩)] at h
        exact h.elim ap.bd fun h => h.elim ap.ba fun h => h.elim ap.bi ap.bc
    have hleft : (t.items b).left = rootOf x := by rw [hib]; rfl
    have hpar : (t.items b).parent = some f.node := by rw [hib, sided_parent]; rfl
    have hfa : f.node ≠ a := ne_of_mem_of_not_mem (by simp) ap.ad
    have hcond : 0 ≤ ((t₆.setBalance f.node ((t₆.items f.node).balance - 1)).items f.node).balance ↔
        0 ≤ f.side.sign * ((t₆.items f.node).balance - 1) := by
      rw [Tree.setBalance_same, hf, Side.sign_right, one_mul]
    rw [Tree.substitute, hpa, hpb, hleft, hpar, htake, Option.bind_some, if_neg hfa, Tree.shrinkRight, ← ht₆]
    simp only [hcond, ht₇, Option.bind_eq_bind, Option.bind_some, ht']
  · have he : e ∈ inorder x ∨ e ∈ around (f :: d) ∨ e = b ∨ e ∈ inorder y ∨ e ∈ around c := by
      have := mem_inorder_fill.mp he
      rwa [← List.cons_append, mem_around_append, mem_around_cons (f := ⟨.left, b, y⟩)] at this
    rw [mem_inorder_fill, mem_inorder_bin, mem_around_append, mem_around_cons (f := ⟨.left, a, y⟩)]
    tauto

omit [DecidableEq ι] in
theorem after_eq_nil (hd : ∀ f ∈ d, f.side = .right) : after d = [] := by
  induction d with
  | nil => rfl
  | cons f d ih =>
      rw [after, hd f List.mem_cons_self]
      exact ih fun g hg => hd g (List.mem_cons_of_mem _ hg)

omit [DecidableEq ι] in
/-- The last node of a subtree in the place of the node above it. -/
theorem inorder_substitute (hd : ∀ f ∈ d, f.side = .right) :
    inorder (fill c (bin .left b (fill d x) y)) =
      before c ++ inorder (fill d (bin .right b .nil x)) ++ (inorder y ++ after c) := by
  simp [inorder_fill, after_eq_nil hd]

theorem treeRemove_spec (h : Represents t l) (ha : a ∈ l) (hn : Enough n l) :
    ∃ t', t.treeRemove n a = some t' ∧ Represents t' (l.erase a) ∧ t.AgreeOff l t' := by
  obtain ⟨u, hroot, hh, havl, rfl, hrise⟩ := h
  have hlen := hn.height havl rfl
  obtain ⟨c, L, R, rfl⟩ := exists_fill ha
  have hnd := hrise.nodup
  have hi := (holds_fill.mpr ⟨hroot, hh⟩).2.1
  have hc := length_add_height_le (c := c) (t := .node a L R)
  rw [BinaryTree.height] at hc
  -- whatever the case, the nodes are those without `a`
  have herase : (inorder (fill c (.node a L R))).erase a = before c ++ inorder L ++ (inorder R ++ after c) := by
    have heq : inorder (fill c (.node a L R)) = (before c ++ inorder L) ++ a :: (inorder R ++ after c) := by
      simp [inorder_fill]
    rw [heq, List.nodup_append] at hnd
    rw [heq, List.erase_append_right _ fun hm => hnd.2.2 a hm a List.mem_cons_self rfl, List.erase_cons_head]
  have hrise' : Rising t.keyOf ((inorder (fill c (.node a L R))).erase a) := hrise.sublist List.erase_sublist
  have done : ∀ {r : Option (Tree ι)} {l' : List ι}, (∃ t', r = some t' ∧ Rebuilt t (inorder (fill c (.node a L R))) l' t') →
      l' = before c ++ inorder L ++ (inorder R ++ after c) →
      ∃ t', r = some t' ∧ Represents t' ((inorder (fill c (.node a L R))).erase a) ∧
        t.AgreeOff (inorder (fill c (.node a L R))) t' := fun {r l'} h hl => by
    obtain ⟨t', ht', v, hr, hv, hav, hiv, ho⟩ := h
    exact ⟨t', ht', ⟨v, hr, hv, hav, by rw [hiv, hl, herase], ho.keyOf ▸ hrise'⟩, ho⟩
  have hlr : (t.items a).left = rootOf L ∧ (t.items a).right = rootOf R := by rw [hi]; exact ⟨rfl, rfl⟩
  rw [Tree.treeRemove, hlr.1, hlr.2]
  cases hL : rootOf L with
  | none =>
      obtain rfl := rootOf_eq_none.mp hL
      have h := done (replaceBy_spec (s := .right) (u := R) (n := n) hroot hh havl hnd (by omega)) (by simp [inorder_fill])
      cases hR : rootOf R <;> rw [hR] at h <;> exact h
  | some g =>
      cases hR : rootOf R with
      | none =>
          obtain rfl := rootOf_eq_none.mp hR
          have h := done (replaceBy_spec (s := .left) (u := L) (n := n) hroot hh havl hnd (by omega)) (by simp [inorder_fill])
          rwa [hL] at h
      | some k =>
          obtain ⟨d, b, x, rfl, hd, hb⟩ := outermost_spec .right (n := n) (holds_fill.mpr ⟨hroot, hh⟩).2.2.1 hL (by omega)
          simp only [hb, Option.bind_eq_bind, Option.bind_some]
          cases d with
          | nil =>
              have hc' : (fill [] (bin .right b .nil x)).height = max (BinaryTree.nil : BinaryTree ι).height x.height + 1 :=
                height_bin _ _ _ _
              exact done (substitute_child hroot hh havl hnd (by omega)) (inorder_substitute hd)
          | cons f d =>
              have hc' := length_add_height_le (c := f :: d) (t := bin .right b .nil x)
              rw [height_bin] at hc'
              exact done (substitute_deep hroot hh havl hnd (hd f List.mem_cons_self) (by omega)) (inorder_substitute hd)

end Muxomucota.Cdi
