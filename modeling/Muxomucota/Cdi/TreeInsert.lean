import Mathlib.Data.List.Sort
import Muxomucota.Cdi.TreeBalance

/-!
# Cdi — searching a tree and inserting into it

`Represents t l` is what a tree is for: the nodes `l`, in the order of their keys.  That they form an AVL tree
is part of it, and with it the number of turns that a loop makes (`Enough`).

`treeSearch_spec` and `treeInsert_spec` are `tree_search` and `tree_insert` as operations on `l`.
-/

namespace Muxomucota.Cdi
open Lib

variable {ι : Type*} {t : Tree ι} {c : List (Frame ι)} {u : BinaryTree ι} {key : BitVec 64} {l : List ι} {a : ι}
  {n : ℕ}

/-- The key as a number. -/
def Tree.keyOf (t : Tree ι) (a : ι) : ℕ := (t.getKey a).toNat

/-- The tree holds the nodes of the list, in the order of their keys. -/
def Represents (t : Tree ι) (l : List ι) : Prop :=
  ∃ u, t.root = rootOf u ∧ Holds t.items none u ∧ Avl u ∧ inorder u = l ∧ Rising t.keyOf l

/-- So many turns are enough for every loop over the nodes of the list: more than four times the logarithm. -/
def Enough (n : ℕ) (l : List ι) : Prop := (l.length + 1) ^ 4 < 2 ^ n

theorem Enough.height (hn : Enough n l) (hu : Avl u) (hl : inorder u = l) : 2 * u.height < n := by
  have h : (2 ^ u.height) ^ 2 ≤ ((l.length + 1) ^ 2) ^ 2 := Nat.pow_le_pow_left (hl ▸ hu.pow_height_le) 2
  rw [← pow_mul, ← pow_mul, Nat.mul_comm] at h
  exact (Nat.pow_lt_pow_iff_right Nat.one_lt_two).mp (lt_of_le_of_lt h hn)

theorem Enough.search (hn : Enough n l) : (l.length + 1) ^ 2 < 2 ^ (n + 1) :=
  calc (l.length + 1) ^ 2 ≤ (l.length + 1) ^ 4 := Nat.pow_le_pow_right (Nat.succ_pos _) (by decide)
    _ < 2 ^ n := hn
    _ ≤ 2 ^ (n + 1) := Nat.pow_le_pow_right Nat.two_pos (Nat.le_succ n)

theorem Tree.AgreeOff.keyOf {t' : Tree ι} (h : t.AgreeOff l t') : t'.keyOf = t.keyOf := by
  funext a
  rw [Tree.keyOf, Tree.keyOf, h.getKey]

theorem getKey_eq_iff : t.getKey a = key ↔ t.keyOf a = key.toNat :=
  ⟨fun h => by rw [Tree.keyOf, h], fun h => BitVec.eq_of_toNat_eq h⟩

/-! ### Searching -/

/-- The search ends at the node with the key or in the hole where it would have to be. -/
theorem searchLoop_spec {currentKey : BitVec 64} (hu : Holds t.items (above c) u)
    (hc : Toward t.keyOf key.toNat c) (hk : key ≠ currentKey) (hlen : u.height ≤ n) :
    (∃ a ∈ inorder u, t.getKey a = key ∧
      t.searchLoop key n (above c) currentKey (rootOf u) = some (some a, key)) ∨
    ∃ d k, fill d .nil = fill c u ∧ Toward t.keyOf key.toNat d ∧ key ≠ k ∧
      t.searchLoop key n (above c) currentKey (rootOf u) = some (above d, k) := by
  induction u generalizing c n currentKey with
  | nil => exact .inr ⟨c, currentKey, rfl, hc, hk, by cases n <;> rfl⟩
  | node a l r hl hr =>
      obtain ⟨n, rfl⟩ : ∃ m, n = m + 1 := ⟨n - 1, by simp at hlen; omega⟩
      have hlen : l.height ≤ n ∧ r.height ≤ n := by simp at hlen; omega
      obtain ⟨ha, hl', hr'⟩ := hu
      simp only [rootOf_node, Tree.searchLoop]
      by_cases heq : key = t.getKey a
      · exact .inl ⟨a, by simp, heq.symm, by rw [if_pos heq, heq]⟩
      rw [if_neg heq]
      by_cases hlt : key < t.getKey a
      · rw [if_pos hlt, ha]
        have hleft : Toward t.keyOf key.toNat (⟨.left, a, r⟩ :: c) := List.forall_mem_cons.mpr ⟨hlt, hc⟩
        rcases hl (c := ⟨.left, a, r⟩ :: c) hl' hleft heq hlen.1 with ⟨b, hb, h⟩ | h
        · exact .inl ⟨b, by simp [hb], h⟩
        · exact .inr h
      · rw [if_neg hlt, ha]
        have hgt : t.keyOf a < key.toNat :=
          lt_of_le_of_ne (Nat.le_of_not_lt hlt) fun e => heq (getKey_eq_iff.mpr e).symm
        have hright : Toward t.keyOf key.toNat (⟨.right, a, l⟩ :: c) := List.forall_mem_cons.mpr ⟨hgt, hc⟩
        rcases hr (c := ⟨.right, a, l⟩ :: c) hr' hright heq hlen.2 with ⟨b, hb, h⟩ | h
        · exact .inl ⟨b, by simp [hb], h⟩
        · exact .inr h

theorem doSearch_spec (key : BitVec 64) (hr : t.root = rootOf u) (hu : Holds t.items none u) (hlen : u.height ≤ n) :
    (∃ a ∈ inorder u, t.getKey a = key ∧ t.doSearch n key = some (true, some a)) ∨
    ∃ d, fill d .nil = u ∧ Toward t.keyOf key.toNat d ∧ t.doSearch n key = some (false, above d) := by
  have hk : key ≠ key - 1 := by bv_omega
  rw [Tree.doSearch, hr]
  rcases searchLoop_spec (c := []) hu (by simp [Toward]) hk hlen with ⟨a, ha, hka, h⟩ | ⟨d, k, hd, ht, hkd, h⟩
  · exact .inl ⟨a, ha, hka, by rw [← above_nil, h]; simp⟩
  · exact .inr ⟨d, hd, ht, by rw [← above_nil, h]; simp [hkd]⟩

/-- The first node with the key is the only one, and `tree_search` returns it. -/
theorem treeSearch_spec (h : Represents t l) (hn : (l.length + 1) ^ 2 < 2 ^ (n + 1)) (key : BitVec 64) :
    t.treeSearch n key = some (l.find? fun a => t.getKey a == key) := by
  obtain ⟨u, hr, hu, havl, rfl, hrise⟩ := h
  have hlen : u.height ≤ n :=
    Nat.lt_succ_iff.mp ((Nat.pow_lt_pow_iff_right Nat.one_lt_two).mp (lt_of_le_of_lt havl.pow_height_le hn))
  rw [Tree.treeSearch]
  rcases doSearch_spec key hr hu hlen with ⟨a, ha, hka, hs⟩ | ⟨d, rfl, ht, hs⟩
  · obtain ⟨l₁, l₂, hl⟩ := List.append_of_mem ha
    rw [hs, hl, List.find?_append, List.find?_eq_none.mpr, List.find?_cons_of_pos (by simpa using hka)]
    · rfl
    · intro b hb
      rw [hl, Rising, List.pairwise_append] at hrise
      have := hrise.2.2 b hb a List.mem_cons_self
      simp only [beq_iff_eq, getKey_eq_iff, ← getKey_eq_iff.mp hka]
      omega
  · rw [hs, List.find?_eq_none.mpr]
    · rfl
    · intro b hb
      simp only [inorder_fill, inorder_nil, List.append_nil] at hb hrise
      obtain ⟨h₁, h₂⟩ := ht.between hrise
      simp only [beq_iff_eq, getKey_eq_iff]
      rcases List.mem_append.mp hb with hb | hb
      · exact (h₁ b hb).ne
      · exact (h₂ b hb).ne'

/-! ### Inserting -/

/-- The nodes after `a` has been inserted: it stays out if its key is there. -/
def inserted (key : ι → ℕ) (a : ι) (l : List ι) : List ι :=
  if ∃ b ∈ l, key b = key a then l else l.orderedInsert (fun x y => key x ≤ key y) a

theorem orderedInsert_between {k : ι → ℕ} {l₁ l₂ : List ι} (h₁ : ∀ b ∈ l₁, k b < k a) (h₂ : ∀ b ∈ l₂, k a < k b) :
    (l₁ ++ l₂).orderedInsert (fun x y => k x ≤ k y) a = l₁ ++ a :: l₂ := by
  induction l₁ with
  | nil =>
      cases l₂ with
      | nil => rfl
      | cons b l₂ => exact List.orderedInsert_cons_of_le _ _ (h₂ b List.mem_cons_self).le
  | cons b l₁ ih =>
      rw [List.cons_append, List.orderedInsert_cons, if_neg (not_le.mpr (h₁ b List.mem_cons_self)),
        ih fun d hd => h₁ d (List.mem_cons_of_mem _ hd), List.cons_append]

theorem Rising.insert {k : ι → ℕ} {l₁ l₂ : List ι} (h : Rising k (l₁ ++ l₂)) (h₁ : ∀ b ∈ l₁, k b < k a)
    (h₂ : ∀ b ∈ l₂, k a < k b) : Rising k (l₁ ++ a :: l₂) := by
  obtain ⟨hl₁, hl₂, hl⟩ := List.pairwise_append.mp h
  refine List.pairwise_append.mpr ⟨hl₁, List.pairwise_cons.mpr ⟨h₂, hl₂⟩, fun b hb d hd => ?_⟩
  rcases List.mem_cons.mp hd with rfl | hd
  · exact h₁ b hb
  · exact hl b hb d hd

variable [DecidableEq ι]

/-- A leaf that has been put into a hole, and what `adjust_balance` and `rebalance` make of it. -/
theorem insert_leaf (hn : (inorder (fill c (.node a .nil .nil))).Nodup) (hc : AvlWay c 0)
    (hcu : Around t c (some a) 0) (ha : t.items a = ⟨above c, none, none, 0⟩) (hlen : 2 * c.length < n) :
    ∃ t₁ t' v, t.adjustBalance 1 n a = some t₁ ∧ t₁.rebalance n (some a) = some t' ∧ Avl v ∧
      inorder v = before c ++ a :: after c ∧ t'.root = rootOf v ∧ Holds t'.items none v ∧
      t.AgreeOff (before c ++ a :: after c) t' := by
  obtain ⟨-, hcn, hd⟩ := nodup_fill.mp hn
  have hac : a ∉ around c := hd (by simp)
  have hlen₁ : c.length ≤ n := by omega
  obtain ⟨t₁, ht₁, hc₁, ho₁⟩ := adjustBalance_spec hcu (by rw [ha]) hcn hac (.inl ⟨rfl, rfl⟩) hlen₁
  have hv₁ : Holds t₁.items (above c) (.node a .nil .nil) := ⟨by rw [ho₁.items a hac, ha]; rfl, trivial, trivial⟩
  have hleaf : Avl (.node a .nil .nil : BinaryTree ι) := by simp [Avl]
  obtain ⟨n, rfl⟩ : ∃ m, n = m + 1 := ⟨n - 1, by omega⟩
  obtain ⟨t', v, ht', hv, hi, hr, hh, ho⟩ := rebalance_spec (n := n) hn hleaf hc (by simp) (by simp) (by simpa using hc₁)
    hv₁ (by omega)
  have hio : inorder (fill c (.node a .nil .nil)) = before c ++ a :: after c := by simp [inorder_fill]
  rw [hio] at hi ho
  refine ⟨t₁, t', v, ht₁, by rw [rebalance_skip hleaf hv₁ rfl, ht'], hv, hi, hr, hh, (ho₁.mono fun b hb => ?_).trans ho⟩
  simp only [around, List.mem_append, List.mem_cons] at hb ⊢
  tauto

theorem treeInsert_spec (h : Represents t l) (ha : a ∉ l) (hn : Enough n l) :
    ∃ t', t.treeInsert n a = some t' ∧ Represents t' (inserted t.keyOf a l) ∧ t.AgreeOff (a :: l) t' := by
  obtain ⟨u, hr, hu, havl, rfl, hrise⟩ := h
  have hh := hn.height havl rfl
  set t₁ := t.update a fun i => { i with left := none, right := none, balance := 0 } with ht₁
  have ho₁ : t.AgreeOff (a :: inorder u) t₁ := .update t (by simp) _
  have hu₁ : Holds t₁.items none u := hu.congr fun b hb => Tree.update_other fun e => ha (e ▸ hb)
  rw [Tree.treeInsert, ← ht₁]
  cases hroot : rootOf u with
  | none =>
      obtain rfl := rootOf_eq_none.mp hroot
      have ho₂ := ho₁.trans (.setParent t₁ (by simp : a ∈ a :: inorder .nil) none)
      set t₂ : Tree ι := { t₁.setParent a none with root := some a } with ht₂
      have ho₂ : t.AgreeOff (a :: inorder .nil) t₂ := ⟨ho₂.items, ho₂.sortKey, ho₂.keyMask⟩
      refine ⟨t₂, if_pos (hr.trans hroot), ⟨.node a .nil .nil, rfl, ⟨?_, trivial, trivial⟩, by simp [Avl], ?_, ?_⟩, ho₂⟩
      · show (t₁.setParent a none).items a = _
        rw [Tree.setParent_same, ht₁, Tree.update_same]
        rfl
      · simp [inserted]
      · simp [inserted, Rising]
  | some r =>
      have hne : t₁.root ≠ none := by
        rw [ht₁, Tree.update_root, hr, hroot]
        simp
      rw [if_neg hne]
      have hs := doSearch_spec (t := t₁) (n := n) (t.getKey a) hr hu₁ (by omega)
      rcases hs with ⟨b, hb, hkb, hs⟩ | ⟨d, rfl, ht, hs⟩
      · -- a node with the same key
        have : ∃ b ∈ inorder u, t.keyOf b = t.keyOf a := ⟨b, hb, getKey_eq_iff.mp hkb⟩
        rw [inserted, if_pos this, hs]
        exact ⟨t₁, rfl, ⟨u, hr, hu₁, havl, rfl, ho₁.keyOf ▸ hrise⟩, ho₁⟩
      · -- the hole the node belongs in
        obtain ⟨f, c, rfl⟩ : ∃ f c, d = f :: c := by
          cases d with
          | nil => simp at hroot
          | cons f c => exact ⟨f, c, rfl⟩
        have hi : inorder (fill (f :: c) .nil) = before (f :: c) ++ after (f :: c) := by
          rw [inorder_fill, inorder_nil, List.append_nil]
        have hcu : Around t₁ (f :: c) none 0 := (holds_fill (t := t₁) (u := .nil)).mpr ⟨hr, hu₁⟩ |>.1
        have hway : AvlWay (f :: c) 0 := (avl_fill.mp havl).2
        have hlen : (f :: c).length ≤ (fill (f :: c) .nil).height := by
          have := length_add_height_le (c := f :: c) (t := .nil)
          simpa using this
        rw [hi] at hrise ha ho₁ ⊢
        obtain ⟨h₁, h₂⟩ := ht.between (ho₁.keyOf.symm ▸ hrise)
        rw [ho₁.keyOf] at h₁ h₂ ht
        have hac : a ∉ around (f :: c) := ha
        have hcn : (around (f :: c)).Nodup := hrise.nodup
        -- the new node below its parent
        set t₂ := t₁.setParent a (some f.node) with ht₂
        have hlink : Link.child (if t.getKey a < t₂.getKey f.node then Side.left else .right) f.node = linkOf (f :: c) := by
          have hf := ht f List.mem_cons_self
          have hkey : t.getKey a < t₂.getKey f.node ↔ (t.getKey a).toNat < t.keyOf f.node := Iff.rfl
          rw [linkOf]
          congr 1
          cases hside : f.side <;> rw [hside] at hf
          · exact if_pos (hkey.mpr hf)
          · exact if_neg fun h => absurd (hkey.mp h) hf.not_gt
        have hcu₂ : Around (t₂.put (linkOf (f :: c)) (some a)) (f :: c) (some a) 0 :=
          (hcu.congr (fun b hb => Tree.setParent_other fun e : b = a => hac (e ▸ hb)) rfl).put hcn _
        have hitem : (t₂.put (linkOf (f :: c)) (some a)).items a = ⟨some f.node, none, none, 0⟩ := by
          rw [put_linkOf_items fun e => hac (above_mem e), ht₂, Tree.setParent_same, ht₁, Tree.update_same]
        have hn' : (inorder (fill (f :: c) (.node a .nil .nil))).Nodup :=
          nodup_fill.mpr ⟨by simp, hcn, by simpa [List.Disjoint] using hac⟩
        obtain ⟨t₃, t', v, ht₃, ht', hv, hiv, hrv, hhv, ho⟩ := insert_leaf hn' hway hcu₂ hitem (n := n) (by omega)
        have hne : ¬ ∃ b ∈ before (f :: c) ++ after (f :: c), t.keyOf b = t.keyOf a := by
          rintro ⟨b, hb, hk⟩
          rcases List.mem_append.mp hb with hb | hb
          · exact absurd hk (h₁ b hb).ne
          · exact absurd hk (h₂ b hb).ne'
        have hot : t.AgreeOff (a :: (before (f :: c) ++ after (f :: c))) t' := by
          refine ((ho₁.trans (.setParent _ (by simp) _)).trans (.put _ (fun b hb => ?_) _)).trans (ho.mono fun b hb => ?_)
          · exact List.mem_cons_of_mem _ (above_mem hb)
          · simp only [List.mem_append, List.mem_cons] at hb ⊢
            tauto
        rw [inserted, if_neg hne, orderedInsert_between h₁ h₂, hs]
        refine ⟨t', ?_, ⟨v, hrv, hhv, hv, hiv, ?_⟩, hot⟩
        · simp only [Option.bind_eq_bind, Option.bind_some, above_cons, ← ht₂, hlink, ht₃, ht']
          rfl
        · rw [hot.keyOf]
          exact Rising.insert hrise h₁ h₂

end Muxomucota.Cdi
