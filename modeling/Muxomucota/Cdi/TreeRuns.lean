import Muxomucota.Cdi.TreeRemove
import Muxomucota.Lib.Runs

/-!
# Cdi — a tree in use

`Index` is what a user of a tree has in mind: nodes in the order of their keys, one for each key.  A node is
inserted when it is not in the tree, removed when it is, and its key is changed only while it is not.  Every run
that keeps to this is a run of the tree, which holds the same nodes at its end (`tree_refines_index`); no link
leads to `NULL` where one is followed, and no loop makes more turns than four times the logarithm of the number
of nodes.

From such a tree `tree_next` and `tree_prev` lead to the next node and to the one before, so the loop that starts
with `NULL` goes through all of them in order (`tree_run_visits`).
-/

namespace Muxomucota.Cdi
open Lib

variable {ι : Type*} {t : Tree ι} {c d : List (Frame ι)} {u : BinaryTree ι} {l l₁ l₂ : List ι} {a : ι} {n h : ℕ}
  {s : Side}

/-! ### The neighbours of a node -/

/-- The first of the nodes that come after a hole on the side. -/
def beyond (s : Side) (l₁ l₂ : List ι) : Option ι :=
  match s with
  | .left => l₁.getLast?
  | .right => l₂.head?

/-- The end of the nodes on the side. -/
def endOf (s : Side) (l : List ι) : Option ι :=
  match s with
  | .left => l.head?
  | .right => l.getLast?

theorem climb_spec [DecidableEq ι] (hc : Around t c (some a) h) (ha : (t.items a).parent = above c)
    (hn : (around c).Nodup) (hac : a ∉ around c) (hlen : c.length < n) :
    t.climb s n a = some (beyond s (before c) (after c)) := by
  induction c generalizing a h n with
  | nil =>
      obtain ⟨n, rfl⟩ : ∃ m, n = m + 1 := ⟨n - 1, by omega⟩
      rw [Tree.climb, ha]
      cases s <;> rfl
  | cons f c ih =>
      obtain ⟨n, rfl⟩ : ∃ m, n = m + 1 := ⟨n - 1, by omega⟩
      obtain ⟨hf, -, hc⟩ := hc
      obtain ⟨-, -, hnc, hfc, -⟩ := nodup_around_cons hn
      have hsib : rootOf f.sibling ≠ some a := fun e => hac (by simp [rootOf_mem e])
      have hf' : (t.items f.node).parent = above c := by rw [hf, itemAbove, sided_parent]
      rw [Tree.climb, ha]
      simp only [above_cons]
      by_cases hs : f.side = s
      · -- `a` is on the side: on with the loop
        have hchild : (t.items f.node).child s = some a := by rw [hf, itemAbove, ← hs, sided_child]
        rw [if_pos hchild, ih hc hf' hnc hfc (by simpa using hlen)]
        cases s <;> simp only [beyond, before, after, hs]
      · have hs' : s = f.side.other := by revert hs; cases s <;> cases f.side <;> simp
        have hchild : (t.items f.node).child s ≠ some a := by
          rw [hf, itemAbove, hs', sided_child_other]
          exact hsib
        rw [if_neg hchild]
        cases hside : f.side <;> rw [hside] at hs' <;> simp [hs', beyond, before, after, hside]

theorem outermost_end (hu : Holds t.items (above c) u) (ha : rootOf u = some a) (hlen : u.height ≤ n + 1) :
    (t.outermost s n a).map some = some (endOf s (inorder u)) := by
  obtain ⟨d, b, x, rfl, hd, hb⟩ := outermost_spec s hu ha hlen
  rw [hb]
  have hend : ∀ d : List (Frame ι), (∀ f ∈ d, f.side = s) → ∀ v : BinaryTree ι, inorder v ≠ [] →
      endOf s (inorder (fill d v)) = endOf s (inorder v) := by
    intro d hd
    induction d with
    | nil => intros; rfl
    | cons f d ih =>
        intro v hv
        rw [fill_cons, ih (fun g hg => hd g (List.mem_cons_of_mem _ hg)) _ (by simp [inorder_eq_nil]), hd f List.mem_cons_self]
        cases s with
        | left =>
            obtain ⟨b, l, hl⟩ := List.exists_cons_of_ne_nil hv
            simp [endOf, hl]
        | right =>
            obtain ⟨l, b, hl⟩ := (List.eq_nil_or_concat (inorder v)).resolve_left hv
            rw [bin_right, inorder_node, hl, List.concat_eq_append, ← List.cons_append, ← List.append_assoc]
            simp only [endOf, List.getLast?_concat]
  rw [hend d hd _ (by simp [inorder_eq_nil])]
  cases s <;> simp [endOf]

theorem neighbour_none [DecidableEq ι] (hr : Represents t l) (hn : Enough n l) : t.neighbour s n none = some (endOf s.other l) := by
  obtain ⟨u, hroot, hu, havl, rfl, -⟩ := hr
  have := hn.height havl rfl
  rw [Tree.neighbour, hroot]
  cases ha : rootOf u with
  | none =>
      obtain rfl := rootOf_eq_none.mp ha
      cases s <;> rfl
  | some a => exact outermost_end (c := []) hu ha (by omega)

theorem neighbour_some [DecidableEq ι] (hr : Represents t (l₁ ++ a :: l₂)) (hn : Enough n (l₁ ++ a :: l₂)) :
    t.neighbour s n (some a) = some (beyond s l₁ l₂) := by
  obtain ⟨u, hroot, hu, havl, hl, hrise⟩ := hr
  have hlen := hn.height havl hl
  obtain ⟨c, L, R, rfl⟩ := exists_fill (a := a) (u := u) (by rw [hl]; simp)
  obtain ⟨hc, hi, hL, hR⟩ := holds_fill.mpr ⟨hroot, hu⟩
  have hnd := hrise.nodup
  rw [← hl] at hnd
  -- the two halves of the list are the two sides of the node
  have hl' : (before c ++ inorder L) ++ a :: (inorder R ++ after c) = l₁ ++ a :: l₂ := by
    rw [← hl, inorder_fill]
    simp
  have hac : a ∉ around c := by
    rw [nodup_fill] at hnd
    exact hnd.2.2 (by simp)
  have hcn : (around c).Nodup := (nodup_fill.mp hnd).2.1
  obtain ⟨rfl, -, rfl⟩ : before c ++ inorder L = l₁ ∧ a = a ∧ inorder R ++ after c = l₂ := by
    have h := hrise.nodup
    rw [← hl', List.nodup_append, List.nodup_cons] at h
    exact (List.append_cons_inj_of_notMem (fun hm => h.2.2 a hm a List.mem_cons_self rfl) h.2.1.1).mp hl'
  have hclimb := climb_spec (s := s) (n := n) hc (by rw [hi]) hcn hac (by
    have := length_add_height_le (c := c) (t := .node a L R)
    omega)
  have hheight : L.height ≤ n + 1 ∧ R.height ≤ n + 1 := by
    have := length_add_height_le (c := c) (t := .node a L R)
    rw [BinaryTree.height] at this
    omega
  rw [Tree.neighbour, hi]
  cases s with
  | left =>
      simp only [TreeItem.child]
      cases hroot : rootOf L with
      | none =>
          obtain rfl := rootOf_eq_none.mp hroot
          simp only [hclimb, beyond, inorder_nil, List.append_nil]
      | some g =>
          have h := outermost_end (s := .right) (c := [⟨.left, a, R⟩]) hL hroot hheight.1
          obtain ⟨l, b, hl⟩ := (List.eq_nil_or_concat (inorder L)).resolve_left fun e => by
            rw [inorder_eq_nil.mp e] at hroot
            simp at hroot
          rw [List.concat_eq_append] at hl
          simpa [beyond, endOf, hl] using h
  | right =>
      simp only [TreeItem.child]
      cases hroot : rootOf R with
      | none =>
          obtain rfl := rootOf_eq_none.mp hroot
          simp only [hclimb, beyond, inorder_nil, List.nil_append]
      | some g =>
          have h := outermost_end (s := .left) (c := [⟨.right, a, L⟩]) hR hroot hheight.2
          obtain ⟨b, l, hl⟩ := List.exists_cons_of_ne_nil fun e : inorder R = [] => by
            rw [inorder_eq_nil.mp e] at hroot
            simp at hroot
          simpa [beyond, endOf, hl] using h

/-! ### Going through all nodes -/

/-- `while ((b = tree_next(tree, b))) …` or with `tree_prev`: the nodes that `b` becomes, if there are at most
`k` of them. -/
def Tree.visits [DecidableEq ι] (s : Side) (n : ℕ) (t : Tree ι) : ℕ → Option ι → Option (List ι)
  | k, b => do
    match ← t.neighbour s n b with
    | none => some []
    | some a =>
      match k with
      | 0 => none
      | k + 1 => return a :: (← Tree.visits s n t k (some a))

theorem visits_next [DecidableEq ι] (hr : Represents t (l₁ ++ a :: l₂)) (hn : Enough n (l₁ ++ a :: l₂)) {k : ℕ}
    (hk : l₂.length ≤ k) : t.visits .right n k (some a) = some l₂ := by
  induction l₂ generalizing l₁ a k with
  | nil => rw [Tree.visits, neighbour_some hr hn]; rfl
  | cons b l₂ ih =>
      obtain ⟨k, rfl⟩ := Nat.exists_eq_add_of_le' (Nat.lt_of_lt_of_le (Nat.succ_pos _) hk)
      have hl : l₁ ++ a :: b :: l₂ = (l₁ ++ [a]) ++ b :: l₂ := by simp
      rw [Tree.visits, neighbour_some hr hn]
      rw [hl] at hr hn
      simp [beyond, ih hr hn (Nat.le_of_succ_le_succ hk)]

theorem visits_prev [DecidableEq ι] (hr : Represents t (l₁ ++ a :: l₂)) (hn : Enough n (l₁ ++ a :: l₂)) {k : ℕ}
    (hk : l₁.length ≤ k) : t.visits .left n k (some a) = some l₁.reverse := by
  induction l₁ using List.reverseRecOn generalizing a l₂ k with
  | nil => rw [Tree.visits, neighbour_some hr hn]; rfl
  | append_singleton l₁ b ih =>
      rw [List.length_append] at hk
      obtain ⟨k, rfl⟩ := Nat.exists_eq_add_of_le' (Nat.lt_of_lt_of_le (Nat.succ_pos _) hk)
      have hl : l₁ ++ [b] ++ a :: l₂ = l₁ ++ b :: (a :: l₂) := by simp
      rw [Tree.visits, neighbour_some hr hn]
      rw [hl] at hr hn
      simp [beyond, ih hr hn (Nat.le_of_succ_le_succ hk)]

theorem visits_all [DecidableEq ι] (hr : Represents t l) (hn : Enough n l) {k : ℕ} (hk : l.length ≤ k) :
    t.visits .right n k none = some l ∧ t.visits .left n k none = some l.reverse := by
  constructor
  · cases l with
    | nil => rw [Tree.visits, neighbour_none hr hn]; rfl
    | cons a l =>
        obtain ⟨k, rfl⟩ := Nat.exists_eq_add_of_le' (Nat.lt_of_lt_of_le (Nat.succ_pos _) hk)
        rw [Tree.visits, neighbour_none hr hn]
        have h := @visits_next ι t [] l a n _ hr hn k (Nat.le_of_succ_le_succ hk)
        simp [endOf, h]
  · rcases List.eq_nil_or_concat l with rfl | ⟨l, a, rfl⟩
    · rw [Tree.visits, neighbour_none hr hn]; rfl
    · rw [List.concat_eq_append] at hr hn hk ⊢
      rw [List.length_append] at hk
      obtain ⟨k, rfl⟩ := Nat.exists_eq_add_of_le' (Nat.lt_of_lt_of_le (Nat.succ_pos _) hk)
      rw [Tree.visits, neighbour_none hr hn]
      have h := @visits_prev ι t l [] a n _ hr hn k (Nat.le_of_succ_le_succ hk)
      simp [endOf, h]

/-! ### Runs -/

/-- What is done with a tree and with the objects that it is for. -/
inductive TreeOp (ι : Type*)
  | insert (node : ι)
  | remove (node : ι)
  | setKey (node : ι) (key : BitVec 64)
  | setMask (mask : BitVec 64)

/-- The keys of the objects, and the nodes in the order of their keys. -/
structure Index (ι : Type*) where
  sortKey : ι → BitVec 64
  keyMask : BitVec 64
  nodes : List ι

/-- The tree holds what the index holds. -/
def Tree.Shows (t : Tree ι) (i : Index ι) : Prop :=
  t.sortKey = i.sortKey ∧ t.keyMask = i.keyMask ∧ Represents t i.nodes

theorem treeDoInit_shows (t : Tree ι) : t.treeDoInit.Shows ⟨t.sortKey, .allOnes 64, []⟩ :=
  ⟨rfl, rfl, .nil, rfl, trivial, trivial, rfl, List.Pairwise.nil⟩

theorem Represents.congr_key {t' : Tree ι} (hr : Represents t l) (hroot : t'.root = t.root) (hi : t'.items = t.items)
    (hk : ∀ b ∈ l, t'.keyOf b = t.keyOf b) : Represents t' l := by
  obtain ⟨u, h₁, h₂, h₃, h₄, h₅⟩ := hr
  refine ⟨u, hroot.trans h₁, hi ▸ h₂, h₃, h₄, h₅.imp_of_mem fun hb hd h => ?_⟩
  rwa [hk _ hb, hk _ hd]

variable [DecidableEq ι]

/-- One operation, in which every loop may turn `n` times. -/
def Tree.step (n : ℕ) (t : Tree ι) : TreeOp ι → Option (Tree ι)
  | .insert node => t.treeInsert n node
  | .remove node => t.treeRemove n node
  | .setKey node key => some { t with sortKey := Function.update t.sortKey node key }
  | .setMask mask => some { t with keyMask := mask }

/-- What the operations are for.  A node that is in the tree is not inserted and keeps its key, only such a node
is removed, and the mask is set while there is none. -/
def Index.step (i : Index ι) : TreeOp ι → Option (Index ι)
  | .insert node =>
    if node ∈ i.nodes then none
    else some { i with nodes := inserted (fun a => (i.sortKey a &&& i.keyMask).toNat) node i.nodes }
  | .remove node => if node ∈ i.nodes then some { i with nodes := i.nodes.erase node } else none
  | .setKey node key =>
    if node ∈ i.nodes then none else some { i with sortKey := Function.update i.sortKey node key }
  | .setMask mask => if i.nodes = [] then some { i with keyMask := mask } else none

/-- Every step of the index is one of the tree. -/
theorem step_shows {i i' : Index ι} {op : TreeOp ι} (h : t.Shows i) (hn : Enough n i.nodes) (hi : i.step op = some i') :
    ∃ t', t.step n op = some t' ∧ t'.Shows i' := by
  obtain ⟨hk, hm, hr⟩ := h
  cases op with
  | insert node =>
      simp only [Index.step, Option.ite_none_left_eq_some, Option.some.injEq] at hi
      obtain ⟨hnode, rfl⟩ := hi
      obtain ⟨t', ht', hr', ho⟩ := treeInsert_spec hr hnode hn
      have hkey : t.keyOf = fun a => (i.sortKey a &&& i.keyMask).toNat := by
        funext a
        rw [Tree.keyOf, Tree.getKey, hk, hm]
      exact ⟨t', ht', ho.sortKey.trans hk, ho.keyMask.trans hm, hkey ▸ hr'⟩
  | remove node =>
      simp only [Index.step, Option.ite_none_right_eq_some, Option.some.injEq] at hi
      obtain ⟨hnode, rfl⟩ := hi
      obtain ⟨t', ht', hr', ho⟩ := treeRemove_spec hr hnode hn
      exact ⟨t', ht', ho.sortKey.trans hk, ho.keyMask.trans hm, hr'⟩
  | setKey node key =>
      simp only [Index.step, Option.ite_none_left_eq_some, Option.some.injEq] at hi
      obtain ⟨hnode, rfl⟩ := hi
      refine ⟨_, rfl, by rw [hk], hm, hr.congr_key rfl rfl fun b hb => ?_⟩
      simp [Tree.keyOf, Tree.getKey, ne_of_mem_of_not_mem hb hnode]
  | setMask mask =>
      simp only [Index.step, Option.ite_none_right_eq_some, Option.some.injEq] at hi
      obtain ⟨hnil, rfl⟩ := hi
      exact ⟨_, rfl, hk, rfl, hr.congr_key rfl rfl fun b hb => by rw [hnil] at hb; simp at hb⟩

omit [DecidableEq ι] in
theorem length_inserted_le (key : ι → ℕ) (a : ι) (l : List ι) : (inserted key a l).length ≤ l.length + 1 := by
  rw [inserted]
  split
  · omega
  · rw [List.orderedInsert_length]

theorem Index.step_length {i i' : Index ι} {op : TreeOp ι} (hi : i.step op = some i') :
    i'.nodes.length ≤ i.nodes.length + 1 := by
  cases op with
  | insert node =>
      simp only [Index.step, Option.ite_none_left_eq_some, Option.some.injEq] at hi
      obtain ⟨-, rfl⟩ := hi
      exact length_inserted_le _ _ _
  | remove node =>
      simp only [Index.step, Option.ite_none_right_eq_some, Option.some.injEq] at hi
      obtain ⟨-, rfl⟩ := hi
      exact List.length_erase_le.trans (Nat.le_succ _)
  | setKey node key =>
      simp only [Index.step, Option.ite_none_left_eq_some, Option.some.injEq] at hi
      obtain ⟨-, rfl⟩ := hi
      exact Nat.le_succ _
  | setMask mask =>
      simp only [Index.step, Option.ite_none_right_eq_some, Option.some.injEq] at hi
      obtain ⟨-, rfl⟩ := hi
      exact Nat.le_succ _

theorem run_shows {i : Index ι} {ops : List (TreeOp ι)} (t : Tree ι) (hn : (ops.length + 1) ^ 4 < 2 ^ n)
    (h : ops.foldlM Index.step ⟨t.sortKey, .allOnes 64, []⟩ = some i) :
    ∃ t', ops.foldlM (Tree.step n) t.treeDoInit = some t' ∧ t'.Shows i ∧ Enough n i.nodes := by
  have enough : ∀ {pre : List (TreeOp ι)} {i : Index ι}, pre.length ≤ ops.length → i.nodes.length ≤ pre.length →
      Enough n i.nodes := fun h₁ h₂ =>
    lt_of_le_of_lt (Nat.pow_le_pow_left (Nat.succ_le_succ (h₂.trans h₁)) 4) hn
  obtain ⟨t', ht', hs, hl⟩ := foldlM_simulates (R := fun pre (t : Tree ι) i => t.Shows i ∧ i.nodes.length ≤ pre.length) h
    ⟨treeDoInit_shows t, le_rfl⟩ fun pre op post t i i' hops hR hi => by
      obtain ⟨t', ht', hs⟩ := step_shows hR.1 (enough (by simp [hops]) hR.2) hi
      refine ⟨t', ht', hs, ?_⟩
      have := Index.step_length hi
      have := hR.2
      simp only [List.length_append, List.length_singleton]
      omega
  exact ⟨t', ht', hs, enough le_rfl hl⟩

/-! ### What a run leaves -/

section results

variable {i : Index ι} {ops : List (TreeOp ι)}

omit [DecidableEq ι] in
theorem Tree.Shows.getKey (h : t.Shows i) (a : ι) : t.getKey a = i.sortKey a &&& i.keyMask := by
  rw [Tree.getKey, h.1, h.2.1]

/-- Three objects with the keys 0, 1 and 2. -/
def threeObjects : Tree (Fin 3) := ⟨none, 0, fun _ => ⟨none, none, none, 0⟩, fun a => BitVec.ofNat 64 a⟩

/-- Whatever the index allows the tree does, and it finds what is in the index and nothing else. -/
theorem tree_refines_index (t : Tree ι) (hn : (ops.length + 1) ^ 4 < 2 ^ n)
    (h : ops.foldlM Index.step ⟨t.sortKey, .allOnes 64, []⟩ = some i) :
    ∃ t', ops.foldlM (Tree.step n) t.treeDoInit = some t' ∧
      ∀ key, t'.treeSearch n key = some (i.nodes.find? fun a => i.sortKey a &&& i.keyMask == key) := by
  obtain ⟨t', ht', hs, hn'⟩ := run_shows t hn h
  refine ⟨t', ht', fun key => ?_⟩
  rw [treeSearch_spec hs.2.2 hn'.search]
  simp only [hs.getKey]

theorem tree_refines_index_three :
    ∃ t', [TreeOp.insert 2, .insert 0, .insert 1, .remove 0].foldlM (Tree.step 12) threeObjects.treeDoInit = some t' ∧
      ∀ key, t'.treeSearch 12 key =
        some (([1, 2] : List (Fin 3)).find? fun a => threeObjects.sortKey a &&& BitVec.allOnes 64 == key) :=
  tree_refines_index (n := 12) (i := ⟨threeObjects.sortKey, .allOnes 64, [1, 2]⟩) threeObjects (by simp) rfl

/-- The loops over `tree_next` and `tree_prev` go through the nodes in the order of their keys, each of them once. -/
theorem tree_run_visits (t : Tree ι) (hn : (ops.length + 1) ^ 4 < 2 ^ n)
    (h : ops.foldlM Index.step ⟨t.sortKey, .allOnes 64, []⟩ = some i) :
    ∃ t', ops.foldlM (Tree.step n) t.treeDoInit = some t' ∧
      i.nodes.Pairwise (fun a b => i.sortKey a &&& i.keyMask < i.sortKey b &&& i.keyMask) ∧
      t'.visits .right n i.nodes.length none = some i.nodes ∧
      t'.visits .left n i.nodes.length none = some i.nodes.reverse := by
  obtain ⟨t', ht', hs, hn'⟩ := run_shows t hn h
  obtain ⟨h₁, h₂⟩ := visits_all hs.2.2 hn' le_rfl
  refine ⟨t', ht', ?_, h₁, h₂⟩
  obtain ⟨-, -, -, -, -, hrise⟩ := hs.2.2
  refine hrise.imp fun hab => ?_
  rw [← hs.getKey, ← hs.getKey]
  exact hab

theorem tree_run_visits_three :
    ∃ t', [TreeOp.insert 2, .insert 0, .insert 1].foldlM (Tree.step 11) threeObjects.treeDoInit = some t' ∧
      ([0, 1, 2] : List (Fin 3)).Pairwise (fun a b => threeObjects.sortKey a &&& BitVec.allOnes 64 <
        threeObjects.sortKey b &&& BitVec.allOnes 64) ∧
      t'.visits .right 11 3 none = some [0, 1, 2] ∧ t'.visits .left 11 3 none = some [2, 1, 0] :=
  tree_run_visits (n := 11) (i := ⟨threeObjects.sortKey, .allOnes 64, [0, 1, 2]⟩) threeObjects (by simp) rfl

/-- The balance of every node is the difference of the heights of its subtrees and at most one, so that a search
takes no more turns than the logarithm of the square of the number of nodes. -/
theorem tree_run_balanced (t : Tree ι) (hn : (ops.length + 1) ^ 4 < 2 ^ n)
    (h : ops.foldlM Index.step ⟨t.sortKey, .allOnes 64, []⟩ = some i) :
    ∃ t' u, ops.foldlM (Tree.step n) t.treeDoInit = some t' ∧ t'.root = rootOf u ∧ inorder u = i.nodes ∧
      Holds t'.items none u ∧ Avl u ∧
      ∀ k, (i.nodes.length + 1) ^ 2 < 2 ^ (k + 1) → ∀ key, (t'.treeSearch k key).isSome := by
  obtain ⟨t', ht', hs, -⟩ := run_shows t hn h
  obtain ⟨u, hroot, hu, havl, hl, -⟩ := hs.2.2
  refine ⟨t', u, ht', hroot, hl, hu, havl, fun k hk key => ?_⟩
  rw [treeSearch_spec hs.2.2 hk]
  rfl

theorem tree_run_balanced_three :
    ∃ t' u, [TreeOp.insert 2, .insert 0, .insert 1].foldlM (Tree.step 11) threeObjects.treeDoInit = some t' ∧
      t'.root = rootOf u ∧ inorder u = [0, 1, 2] ∧ Holds t'.items none u ∧ Avl u ∧
      ∀ k, (3 + 1) ^ 2 < 2 ^ (k + 1) → ∀ key, (t'.treeSearch k key).isSome :=
  tree_run_balanced (n := 11) (i := ⟨threeObjects.sortKey, .allOnes 64, [0, 1, 2]⟩) threeObjects (by simp) rfl

end results

end Muxomucota.Cdi
