import Muxomucota.Cdi.TreeShape

/-!
# Cdi — keeping a tree balanced

`adjust_balance` tells what is around a hole that the height in it is another by one (`adjustBalance_spec`).
A rotation moves two items and leaves their balances (`rotate_spec`); `straighten_spec` puts the two together.

`rebalance` starts above a hole.  The loop goes on as long as the tree in the hole is balanced, and what is
around it would be balanced for a height that differs from the actual one by at most one
(`rebalance_spec`): a rotation may lower the tree by a level, and the node above then sees one of the three
heights.
-/

namespace Muxomucota.Cdi
open Lib

variable {ι : Type*} [DecidableEq ι] {t : Tree ι} {c : List (Frame ι)} {a b : ι} {s : Side}
  {x y z u : BinaryTree ι} {h h' n : ℕ}

/-! ### The balances around a hole -/

/-- The item above the hole is told another height. -/
theorem Around.setHeight {f : Frame ι} {v : Option ι} (hc : Around t (f :: c) v h) (hn : (around (f :: c)).Nodup)
    {t₁ : Tree ι} {d : ℤ} (ht₁ : t₁ = t.setBalance f.node d) (hd : d = f.side.sign * ((h' : ℤ) - f.sibling.height)) :
    t₁.items f.node = itemAbove f (above c) v h' ∧ Holds t₁.items (some f.node) f.sibling ∧
      Around t₁ c (some f.node) (max h f.sibling.height + 1) ∧ t.AgreeOff (around (f :: c)) t₁ := by
  obtain ⟨hf, hs, hc⟩ := hc
  obtain ⟨-, hfs, -, hfc, -⟩ := nodup_around_cons hn
  subst ht₁ hd
  refine ⟨?_, hs.congr fun b hb => ?_, hc.congr (fun b hb => ?_) rfl, .setBalance t (by simp) _⟩
  · rw [Tree.setBalance_same, hf, itemAbove, sided_withBalance, itemAbove]
  · exact Tree.setBalance_other fun e => hfs (e ▸ hb)
  · exact Tree.setBalance_other fun e => hfc (e ▸ hb)

/-- A tree that is lower than its sibling may change without the node above. -/
theorem max_eq_of_lower {value : ℤ} {k : ℕ} (hv : value = 1 ∧ h' = h + 1 ∨ value = -1 ∧ h = h' + 1)
    (hlow : h < k ∨ h' < k) : max h k = max h' k := by
  omega

theorem max_step_of_higher {value : ℤ} {k : ℕ} (hv : value = 1 ∧ h' = h + 1 ∨ value = -1 ∧ h = h' + 1)
    (hhigh : ¬ (h < k ∨ h' < k)) :
    value = 1 ∧ max h' k = max h k + 1 ∨ value = -1 ∧ max h k = max h' k + 1 := by
  omega

theorem adjustBalance_spec {value : ℤ} (hc : Around t c (some a) h) (ha : (t.items a).parent = above c)
    (hn : (around c).Nodup) (hac : a ∉ around c) (hv : value = 1 ∧ h' = h + 1 ∨ value = -1 ∧ h = h' + 1)
    (hlen : c.length ≤ n) :
    ∃ t', t.adjustBalance value n a = some t' ∧ Around t' c (some a) h' ∧ t.AgreeOff (around c) t' := by
  induction c generalizing t a h h' n with
  | nil => exact ⟨t, by cases n <;> simp [Tree.adjustBalance, ha], hc, .refl _ _⟩
  | cons f c ih =>
      obtain ⟨n, rfl⟩ : ∃ m, n = m + 1 := ⟨n - 1, by simp at hlen; omega⟩
      obtain ⟨hns, hfs, hnc, hfc, hsc⟩ := nodup_around_cons hn
      have hlen : c.length ≤ n := by simpa using hlen
      have hstep : (h' : ℤ) = h + value := by omega
      -- the item above, with the balance for the new height
      set t₁ := t.setBalance f.node (f.side.sign * ((h' : ℤ) - f.sibling.height)) with ht₁
      obtain ⟨hf₁, hs₁, hc₁, ho₁⟩ := hc.setHeight hn ht₁ rfl
      have hf := hc.1
      -- where the loop stops, the height of the whole is the same
      have stop : max h f.sibling.height = max h' f.sibling.height →
          ∃ t', some t₁ = some t' ∧ Around t' (f :: c) (some a) h' ∧ t.AgreeOff (around (f :: c)) t' :=
        fun e => ⟨t₁, rfl, ⟨hf₁, hs₁, e ▸ hc₁⟩, ho₁⟩
      -- where it goes on, it is another by one as well
      have go : (value = 1 ∧ max h' f.sibling.height = max h f.sibling.height + 1 ∨
            value = -1 ∧ max h f.sibling.height = max h' f.sibling.height + 1) →
          ∃ t', t₁.adjustBalance value n f.node = some t' ∧ Around t' (f :: c) (some a) h' ∧
            t.AgreeOff (around (f :: c)) t' := fun e => by
        obtain ⟨t', ht', hc', ho'⟩ : ∃ t', t₁.adjustBalance value n f.node = some t' ∧
            Around t' c (some f.node) (max h' f.sibling.height + 1) ∧ t₁.AgreeOff (around c) t' :=
          ih hc₁ (by rw [hf₁]; exact sided_parent) hnc hfc
            (e.imp (.imp_right (congrArg (· + 1))) (.imp_right (congrArg (· + 1)))) hlen
        refine ⟨t', ht', ⟨(ho'.items _ hfc).trans hf₁, hs₁.congr fun b hb => ho'.items b (hsc hb), hc'⟩,
          ho₁.trans (ho'.mono fun b hb => mem_around_cons.mpr (.inr (.inr hb)))⟩
      rw [Tree.adjustBalance, ha, above_cons]
      obtain ⟨s, d, w⟩ := f
      dsimp only at *
      cases s with
      | left =>
          have hl : (t.items d).left = some a := by rw [hf]; rfl
          have hb : (t.items d).balance = Side.left.sign * ((h : ℤ) - w.height) := by rw [hf]; exact sided_balance
          have hb' : (t.items d).balance - value = Side.left.sign * ((h' : ℤ) - w.height) := by
            rw [hb, Side.sign_left, hstep]
            ring
          simp only [hl, if_true, hb']
          rw [hb, ← ht₁, Side.sign_left]
          split
          · rename_i hlow
            exact stop (max_eq_of_lower hv (hlow.imp (fun e => by omega) fun e => by omega))
          · rename_i hhigh
            exact go (max_step_of_higher hv fun e => hhigh (e.imp (fun e => by omega) fun e => by omega))
      | right =>
          have hl : ¬ (t.items d).left = some a := by
            rw [hf]
            exact fun e => hac (by simp [rootOf_mem (t := w) e])
          have hb : (t.items d).balance = Side.right.sign * ((h : ℤ) - w.height) := by rw [hf]; exact sided_balance
          have hb' : (t.items d).balance + value = Side.right.sign * ((h' : ℤ) - w.height) := by
            rw [hb, Side.sign_right, hstep]
            ring
          simp only [hl, if_false, hb']
          rw [hb, ← ht₁, Side.sign_right]
          split
          · rename_i hlow
            exact stop (max_eq_of_lower hv (hlow.imp (fun e => by omega) fun e => by omega))
          · rename_i hhigh
            exact go (max_step_of_higher hv fun e => hhigh (e.imp (fun e => by omega) fun e => by omega))

/-! ### Rotations -/

theorem rotate_spec {ba bb : ℤ} {rx rz : Option ι}
    (hn : (inorder (fill c (bin s a x (bin s b y z)))).Nodup)
    (ha : t.items a = sided s (above c) rx (some b) ba) (hb : t.items b = sided s (some a) (rootOf y) rz bb)
    (hy : Holds t.items (some b) y) (hc : Around t c (some a) h) :
    ∃ t', t.rotate s (linkOf c) = some t' ∧ t'.items a = sided s (some b) rx (rootOf y) ba ∧
      t'.items b = sided s (above c) (some a) rz bb ∧ Holds t'.items (some a) y ∧ Around t' c (some b) h ∧
      t.AgreeOff (a :: b :: (inorder y ++ around c)) t' := by
  rw [nodup_fill, nodup_bin, nodup_bin] at hn
  obtain ⟨⟨-, ⟨hyn, -, hby, -, -⟩, -, hab, -⟩, hcn, hd⟩ := hn
  simp only [mem_inorder_bin, not_or] at hab
  have hac : a ∉ around c := hd (by simp)
  have hbc : b ∉ around c := hd (by simp)
  have hyc : ∀ d ∈ inorder y, d ∉ around c := fun d hm => hd (by simp [hm])
  have hda : ∀ d ∈ inorder y, d ≠ a := fun d hm e => hab.2.1 (e ▸ hm)
  have hdb : ∀ d ∈ inorder y, d ≠ b := fun d hm e => hby (e ▸ hm)
  have hya : rootOf y ≠ some a := fun e => hab.2.1 (rootOf_mem e)
  have hyb : rootOf y ≠ some b := fun e => hby (rootOf_mem e)
  have hac' : above c ≠ some a := fun e => hac (above_mem e)
  have hbc' : above c ≠ some b := fun e => hbc (above_mem e)
  -- before the last assignment
  set t₁ := ((((t.setParent b (above c)).setParent a (some b)).hang (rootOf y) (some a)).put
    (.child s.other a) (rootOf y)).put (.child s b) (some a) with ht₁
  have ha₁ : t₁.items a = sided s (some b) rx (rootOf y) ba := by
    rw [ht₁, Tree.put_child_other hab.1, Tree.put_child_same, Tree.hang_other hya, Tree.setParent_same,
      Tree.setParent_other hab.1, ha, sided_withParent, sided_setChild_other]
  have hb₁ : t₁.items b = sided s (above c) (some a) rz bb := by
    rw [ht₁, Tree.put_child_same, Tree.put_child_other (Ne.symm hab.1), Tree.hang_other hyb,
      Tree.setParent_other (Ne.symm hab.1), Tree.setParent_same, hb, sided_withParent, sided_setChild]
  have hy₁ : Holds t₁.items (some a) y := by
    have hy' : Holds ((t.setParent b (above c)).setParent a (some b)).items (some b) y :=
      hy.congr fun d hm => by
        rw [Tree.setParent_other (hda d hm), Tree.setParent_other (hdb d hm)]
    refine (hy'.hang hyn (some a)).congr fun d hm => ?_
    rw [ht₁, Tree.put_child_other (hdb d hm), Tree.put_child_other (hda d hm)]
  have ho₁ : t.AgreeOff (a :: b :: inorder y) t₁ :=
    ((((Tree.AgreeOff.setParent t (by simp) _).trans (.setParent _ (by simp) _)).trans
      (.hang _ (fun d hm => by simp [rootOf_mem hm]) _)).trans (.putChild _ (by simp) _ _)).trans
      (.putChild _ (by simp) _ _)
  have hc₁ : Around t₁ c (some a) h := by
    refine hc.congr (fun d hm => ho₁.items d ?_) (by rw [ht₁]; simp [Tree.setParent])
    simp only [List.mem_cons, not_or]
    exact ⟨fun e => hac (e ▸ hm), fun e => hbc (e ▸ hm), fun hm' => hyc d hm' hm⟩
  refine ⟨t₁.put (linkOf c) (some b), ?_, ?_, ?_, ?_, hc₁.put hcn _, ?_⟩
  · rw [Tree.rotate, hc.get_linkOf]
    simp only [Option.bind_eq_bind, Option.bind_some, ha, hb, sided_child, sided_child_other, sided_parent]
    rfl
  · rw [put_linkOf_items hac', ha₁]
  · rw [put_linkOf_items hbc', hb₁]
  · exact hy₁.congr fun d hm => put_linkOf_items fun e => hyc d hm (above_mem e)
  · refine (ho₁.mono fun d hm => ?_).trans (.put _ (fun d hm => ?_) _)
    · simp only [List.mem_cons, List.mem_append] at hm ⊢
      exact hm.imp_right (.imp_right .inl)
    · simp [above_mem hm]

/-! ### A node that leans by two levels -/

section straighten

variable {w y₁ y₂ : BinaryTree ι} {m : ι}

theorem Around.setBalance {v : Option ι} (hc : Around t c v h) (hb : b ∉ around c) (d : ℤ) :
    Around (t.setBalance b d) c v h :=
  hc.congr (fun _ hm => Tree.setBalance_other fun e => hb (e ▸ hm)) rfl

theorem Holds.setBalance {p : Option ι} (hu : Holds t.items p u) (hb : b ∉ inorder u) (d : ℤ) :
    Holds (t.setBalance b d).items p u :=
  hu.congr fun _ hm => Tree.setBalance_other fun e => hb (e ▸ hm)

/-- One rotation, after which the two items get their balances. -/
theorem rotate_setBalance (hn : (inorder (fill c (bin s a x (bin s b y z)))).Nodup)
    (hc : Around t c (some a) h) (hu : Holds t.items (above c) (bin s a x (bin s b y z))) :
    ∃ t', t.rotate s (linkOf c) = some t' ∧
      Holds ((t'.setBalance a (s.sign * ((x.height : ℤ) - y.height))).setBalance b
        (s.sign * (((bin s a x y).height : ℤ) - z.height))).items (above c) (bin s b (bin s a x y) z) ∧
      ∀ da db, Around ((t'.setBalance a da).setBalance b db) c (some b) h ∧
        t.AgreeOff (inorder (fill c (bin s a x (bin s b y z)))) ((t'.setBalance a da).setBalance b db) := by
  have hl : ∀ d ∈ a :: b :: (inorder y ++ around c), d ∈ inorder (fill c (bin s a x (bin s b y z))) := fun d hd => by
    simp only [List.mem_cons, List.mem_append] at hd
    simp only [mem_inorder_fill, mem_inorder_bin]
    tauto
  obtain ⟨ha, hx, hb⟩ := holds_bin.mp hu
  obtain ⟨hb, hy, hz⟩ := holds_bin.mp hb
  rw [rootOf_bin] at ha
  obtain ⟨t', ht', ha', hb', hy', hc', ho'⟩ := rotate_spec hn ha hb hy hc
  rw [nodup_fill, nodup_bin, nodup_bin] at hn
  obtain ⟨⟨-, ⟨-, -, hby, hbz, hyz⟩, hax, hab, hxb⟩, -, hd⟩ := hn
  simp only [mem_inorder_bin, not_or] at hab
  have hac : a ∉ around c := hd (by simp)
  have hbc : b ∉ around c := hd (by simp)
  have hbx : b ∉ inorder x := fun hm => hxb hm (by simp)
  have hx' : Holds t'.items (some a) x := hx.congr fun d hm => ho'.items d <| by
    simp only [List.mem_cons, List.mem_append, not_or]
    exact ⟨fun e => hax (e ▸ hm), fun e => hbx (e ▸ hm), fun hm' => hxb hm (by simp [hm']), hd (by simp [hm])⟩
  have hz' : Holds t'.items (some b) z := hz.congr fun d hm => ho'.items d <| by
    simp only [List.mem_cons, List.mem_append, not_or]
    exact ⟨fun e => hab.2.2 (e ▸ hm), fun e => hbz (e ▸ hm), fun hm' => hyz hm' hm, hd (by simp [hm])⟩
  refine ⟨t', ht', ?_, fun da db => ⟨(hc'.setBalance hac da).setBalance hbc db, ?_⟩⟩
  · refine holds_bin.mpr ⟨?_, holds_bin.mpr ⟨?_, ?_, ?_⟩, ?_⟩
    · rw [Tree.setBalance_same, Tree.setBalance_other (Ne.symm hab.1), hb', sided_withBalance, rootOf_bin]
    · rw [Tree.setBalance_other hab.1, Tree.setBalance_same, ha', sided_withBalance]
    · exact (hx'.setBalance hax _).setBalance hbx _
    · exact (hy'.setBalance hab.2.1 _).setBalance hby _
    · exact (hz'.setBalance hab.2.2 _).setBalance hbz _
  · refine ((ho'.mono hl).trans (.setBalance _ ?_ _)).trans (.setBalance _ ?_ _)
    · simp [mem_inorder_fill]
    · simp [mem_inorder_fill]

/-- Two rotations, after which the three items get their balances. -/
theorem rotate_twice (hn : (inorder (fill c (bin s a (bin s b z (bin s m y₁ y₂)) x))).Nodup)
    (hc : Around t c (some a) (bin s a (bin s b z (bin s m y₁ y₂)) x).height)
    (hu : Holds t.items (above c) (bin s a (bin s b z (bin s m y₁ y₂)) x)) :
    ∃ t₁ t₂, t.rotate s (.child s a) = some t₁ ∧ t₁.rotate s.other (linkOf c) = some t₂ ∧
      t₂.get (linkOf c) = some m ∧ (t₂.items m).balance = s.sign * ((y₁.height : ℤ) - y₂.height) ∧
      Holds (((t₂.setBalance a (s.other.sign * ((x.height : ℤ) - y₂.height))).setBalance b
        (s.sign * ((z.height : ℤ) - y₁.height))).setBalance m (s.other.sign *
          (((bin s.other a x y₂).height : ℤ) - (bin s b z y₁).height))).items (above c)
        (bin s.other m (bin s.other a x y₂) (bin s b z y₁)) ∧
      ∀ da db dm, Around (((t₂.setBalance a da).setBalance b db).setBalance m dm) c (some m)
          (bin s a (bin s b z (bin s m y₁ y₂)) x).height ∧
        t.AgreeOff (inorder (fill c (bin s a (bin s b z (bin s m y₁ y₂)) x)))
          (((t₂.setBalance a da).setBalance b db).setBalance m dm) := by
  -- where the two rotations write
  have hl₁ : ∀ d ∈ b :: m :: (inorder y₁ ++ around (⟨s, a, x⟩ :: c)),
      d ∈ inorder (fill c (bin s a (bin s b z (bin s m y₁ y₂)) x)) := fun d hd => by
    simp only [List.mem_cons, List.mem_append, mem_around_cons] at hd
    simp only [mem_inorder_fill, mem_inorder_bin]
    tauto
  have hl₂ : ∀ d ∈ a :: m :: (inorder y₂ ++ around c),
      d ∈ inorder (fill c (bin s a (bin s b z (bin s m y₁ y₂)) x)) := fun d hd => by
    simp only [List.mem_cons, List.mem_append] at hd
    simp only [mem_inorder_fill, mem_inorder_bin]
    tauto
  obtain ⟨ha, hb, hx⟩ := holds_bin.mp hu
  obtain ⟨hb, hz, hm⟩ := holds_bin.mp hb
  obtain ⟨hm, hy₁, hy₂⟩ := holds_bin.mp hm
  rw [rootOf_bin] at ha hb
  have hcf : Around t (⟨s, a, x⟩ :: c) (some b) (bin s b z (bin s m y₁ y₂)).height :=
    ⟨ha, hx, by rwa [← height_bin s a]⟩
  obtain ⟨t₁, ht₁, hb₁, hm₁, hy₁', ⟨ha₁, hx₁, hc₁⟩, ho₁⟩ := rotate_spec (c := ⟨s, a, x⟩ :: c) hn hb hm hy₁ hcf
  -- who is not where
  have hd := hn
  simp only [nodup_fill, nodup_bin, mem_inorder_bin, List.Disjoint, not_or] at hd
  obtain ⟨⟨⟨-, ⟨-, -, hmy₁, hmy₂, hyy⟩, hbz, ⟨hbm, hby₁, hby₂⟩, hzm⟩, -, ⟨hab, haz, ham, hay₁, hay₂⟩, hax, hwx⟩,
    -, hd⟩ := hd
  have hbx : b ∉ inorder x := hwx (.inl rfl)
  have hmx : m ∉ inorder x := hwx (.inr (.inr (.inl rfl)))
  have hmz : m ∉ inorder z := fun hm => hzm hm (.inl rfl)
  have off₁ : ∀ d, d ∈ inorder z ∨ d ∈ inorder y₂ → t₁.items d = t.items d := fun d hm => ho₁.items d <| by
    simp only [List.mem_cons, List.mem_append, mem_around_cons]
    grind
  -- the second rotation sees the item that the first one has turned up
  have hn₂ : (inorder (fill c (bin s.other a x (bin s.other m y₂ (bin s b z y₁))))).Nodup := by
    rw [inorder_fill] at hn ⊢
    cases s <;> simpa using hn
  have ha₂ : t₁.items a = sided s.other (above c) (rootOf x) (some m)
      (s.sign * (((bin s b z (bin s m y₁ y₂)).height : ℤ) - x.height)) := by rw [sided_other]; exact ha₁
  have hm₂ : t₁.items m = sided s.other (some a) (rootOf y₂) (some b) (s.sign * ((y₁.height : ℤ) - y₂.height)) := by
    rw [sided_other]; exact hm₁
  have hy₂' : Holds t₁.items (some m) y₂ := hy₂.congr fun d hd => off₁ d (.inr hd)
  have hc₂ : Around t₁ c (some a) (bin s a (bin s b z (bin s m y₁ y₂)) x).height := by rwa [height_bin s a]
  obtain ⟨t₂, ht₂, ha₃, hm₃, hy₂₃, hc₃, ho₂⟩ := rotate_spec hn₂ ha₂ hm₂ hy₂' hc₂
  have off₂ : ∀ d, d = b ∨ d ∈ inorder x ∨ d ∈ inorder z ∨ d ∈ inorder y₁ → t₂.items d = t₁.items d :=
    fun d hm => ho₂.items d <| by
      simp only [List.mem_cons, List.mem_append]
      grind
  refine ⟨t₁, t₂, ht₁, ht₂, hc₃.get_linkOf, by rw [hm₃, sided_balance], ?_, fun da db dm => ⟨?_, ?_⟩⟩
  · refine holds_bin.mpr ⟨?_, holds_bin.mpr ⟨?_, ?_, ?_⟩, holds_bin.mpr ⟨?_, ?_, ?_⟩⟩
    · rw [Tree.setBalance_same, Tree.setBalance_other (Ne.symm hbm), Tree.setBalance_other (Ne.symm ham), hm₃,
        sided_withBalance, rootOf_bin, rootOf_bin]
    · rw [Tree.setBalance_other ham, Tree.setBalance_other hab, Tree.setBalance_same, ha₃, sided_withBalance]
    · exact ((hx₁.congr fun d hd => off₂ d (.inr (.inl hd))).setBalance hax _).setBalance hbx _ |>.setBalance
        hmx _
    · exact ((hy₂₃.setBalance hay₂ _).setBalance hby₂ _).setBalance hmy₂ _
    · rw [Tree.setBalance_other hbm, Tree.setBalance_same, Tree.setBalance_other (Ne.symm hab), off₂ b (.inl rfl), hb₁,
        sided_withBalance]
    · have hz₂ : Holds t₂.items (some b) z := hz.congr fun d hd => (off₂ d (.inr (.inr (.inl hd)))).trans (off₁ d (.inl hd))
      exact ((hz₂.setBalance haz _).setBalance hbz _).setBalance hmz _
    · have hy₁₃ : Holds t₂.items (some b) y₁ := hy₁'.congr fun d hd => off₂ d (.inr (.inr (.inr hd)))
      exact ((hy₁₃.setBalance hay₁ _).setBalance hby₁ _).setBalance hmy₁ _
  · exact ((hc₃.setBalance (hd (by simp)) _).setBalance (hd (by simp)) _).setBalance (hd (by simp)) _
  · exact (((((ho₁.mono hl₁).trans (ho₂.mono hl₂)).trans (.setBalance _ (by simp [mem_inorder_fill]) _)).trans
      (.setBalance _ (by simp [mem_inorder_fill]) _)).trans (.setBalance _ (by simp [mem_inorder_fill]) _))

/-- What the hole looks like when a tree of the same nodes has been put into it. -/
structure Refilled (t : Tree ι) (c : List (Frame ι)) (u : BinaryTree ι) (t' : Tree ι) (u' : BinaryTree ι) : Prop where
  avl : Avl u'
  inorder : inorder u' = inorder u
  around : Around t' c (rootOf u') u'.height
  holds : Holds t'.items (above c) u'
  off : t.AgreeOff (Lib.inorder (fill c u)) t'

/-- After the rotations the tree in the hole has one level less, which is told to what is around it. -/
theorem refilled_of_lower {t' : Tree ι} {r : ι} {v : BinaryTree ι} (hu : Avl v) (hi : inorder v = inorder u)
    (hr : rootOf v = some r) (hn : (inorder (fill c u)).Nodup) (hh : u.height = v.height + 1)
    (hv : Holds t'.items (above c) v) (hc : Around t' c (some r) u.height) (ho : t.AgreeOff (inorder (fill c u)) t')
    (hlen : c.length ≤ n) :
    ∃ t'', t'.adjustBalance (-1) n r = some t'' ∧ Refilled t c u t'' v := by
  obtain ⟨-, hcn, hd⟩ := nodup_fill.mp hn
  rw [← hi] at hd
  have hr' : (t'.items r).parent = above c := by
    obtain ⟨x, y, rfl⟩ := exists_bin .left hr
    rw [(holds_bin.mp hv).1, sided_parent]
  obtain ⟨t'', ht'', hc', ho'⟩ := adjustBalance_spec hc hr' hcn (hd (rootOf_mem hr)) (.inr ⟨rfl, hh⟩) hlen
  exact ⟨t'', ht'', hu, hi, hr ▸ hc', hv.congr fun d hm => ho'.items d (hd hm),
    ho.trans (ho'.mono fun d hm => mem_inorder_fill.mpr (.inr hm))⟩

theorem straighten_spec (hn : (inorder (fill c (bin s a w x))).Nodup) (hw : Avl w) (hx : Avl x)
    (hh : w.height = x.height + 2) (hc : Around t c (some a) (bin s a w x).height)
    (hu : Holds t.items (above c) (bin s a w x)) (hlen : c.length ≤ n) :
    ∃ t' u', t.straighten s n a (linkOf c) = some t' ∧ Refilled t c (bin s a w x) t' u' ∧
      (u'.height = x.height + 3 ∨ u'.height = x.height + 2) ∧ (t'.items a).parent = rootOf u' := by
  obtain ⟨b, hb⟩ : ∃ b, rootOf w = some b := by
    cases w with
    | nil => simp at hh
    | node b l r => exact ⟨b, rfl⟩
  obtain ⟨z, y, rfl⟩ := exists_bin s hb
  obtain ⟨hz, hy, hzy, hyz⟩ := avl_bin.mp hw
  have ha := (holds_bin.mp hu).1
  have hbb := (holds_bin.mp (holds_bin.mp hu).2.1).1
  rw [height_bin] at hh
  have hbal : s.sign * (t.items b).balance = (z.height : ℤ) - y.height := by
    rw [hbb, sided_balance, ← mul_assoc, s.sign_mul_sign, one_mul]
  have htmp : (t.items a).child s = some b := by rw [ha, sided_child, rootOf_bin]
  have hflip : bin s a (bin s b z y) x = bin s.other a x (bin s.other b y z) := by rw [bin_other, bin_other]
  rw [Tree.straighten, htmp]
  simp only [Option.bind_eq_bind, Option.bind_some, hbal]
  rcases lt_trichotomy z.height y.height with hlt | heq | hgt
  · -- the inner child is the higher one: two rotations
    obtain ⟨m, hm⟩ : ∃ m, rootOf y = some m := by
      cases y with
      | nil => simp at hlt
      | node m l r => exact ⟨m, rfl⟩
    obtain ⟨y₁, y₂, rfl⟩ := exists_bin s hm
    obtain ⟨hy₁, hy₂, hy₁₂, hy₂₁⟩ := avl_bin.mp hy
    rw [height_bin] at hh hlt hyz hzy
    have hzx : z.height = x.height := by omega
    have hyx : max y₁.height y₂.height = x.height := by omega
    have hxy₁ : x.height ≤ y₁.height + 1 := by omega
    have hxy₂ : x.height ≤ y₂.height + 1 := by omega
    have hy₁x : y₁.height ≤ x.height := hyx ▸ le_max_left ..
    have hy₂x : y₂.height ≤ x.height := hyx ▸ le_max_right ..
    have hah : (bin s.other a x y₂).height = x.height + 1 := by rw [height_bin]; omega
    have hbh : (bin s b z y₁).height = x.height + 1 := by rw [height_bin]; omega
    have hwh : (bin s a (bin s b z (bin s m y₁ y₂)) x).height = x.height + 3 := by
      rw [height_bin, height_bin, height_bin, hyx]
      omega
    clear hh hlt hyz hzy
    obtain ⟨t₁, t₂, ht₁, ht₂, hmid, hbm, hv, hc'⟩ := rotate_twice hn hc hu
    rw [if_neg (by rw [height_bin]; omega), if_neg (by rw [height_bin]; omega)]
    have hda : s.other.sign * ((x.height : ℤ) - y₂.height) =
        if s.sign * (t₂.items m).balance = 1 then -s.sign else 0 := by
      rw [hbm, ← mul_assoc, s.sign_mul_sign, s.sign_other]
      split
      · rw [show (x.height : ℤ) - y₂.height = 1 by omega, mul_one]
      · rw [show (x.height : ℤ) - y₂.height = 0 by omega, mul_zero]
    have hdb : s.sign * ((z.height : ℤ) - y₁.height) =
        if s.sign * (t₂.items m).balance = -1 then s.sign else 0 := by
      rw [hbm, ← mul_assoc, s.sign_mul_sign]
      split
      · rw [show (z.height : ℤ) - y₁.height = 1 by omega, mul_one]
      · rw [show (z.height : ℤ) - y₁.height = 0 by omega, mul_zero]
    have hdm : s.other.sign * (((bin s.other a x y₂).height : ℤ) - (bin s b z y₁).height) = 0 := by
      rw [hah, hbh, sub_self, mul_zero]
    rw [hda, hdb, hdm] at hv
    have hma : m ≠ a := by
      rintro rfl
      rw [nodup_fill, nodup_bin] at hn
      exact hn.1.2.2.1 (by simp)
    have ha' : Avl (bin s.other a x y₂) := avl_bin.mpr ⟨hx, hy₂, hxy₂, Nat.le_succ_of_le hy₂x⟩
    have hb' : Avl (bin s b z y₁) := avl_bin.mpr ⟨hz, hy₁, hzx ▸ hxy₁, hzx ▸ Nat.le_succ_of_le hy₁x⟩
    have hu' : Avl (bin s.other m (bin s.other a x y₂) (bin s b z y₁)) :=
      avl_bin.mpr ⟨ha', hb', by rw [hah, hbh]; exact Nat.le_succ _, by rw [hah, hbh]; exact Nat.le_succ _⟩
    have hi : inorder (bin s.other m (bin s.other a x y₂) (bin s b z y₁)) =
        inorder (bin s a (bin s b z (bin s m y₁ y₂)) x) := by cases s <;> simp
    obtain ⟨hc', ho'⟩ := hc' (if s.sign * (t₂.items m).balance = 1 then -s.sign else 0)
      (if s.sign * (t₂.items m).balance = -1 then s.sign else 0) 0
    obtain ⟨t', ht', hr⟩ := refilled_of_lower hu' hi (rootOf_bin _ _ _ _) hn
      (by rw [hwh, height_bin, hah, hbh]; omega) hv hc' ho' hlen
    simp only [ht₁, ht₂, hmid, Option.bind_some, Tree.setBalance_other hma]
    refine ⟨t', _, ht', hr, .inr ?_, ?_⟩
    · rw [height_bin, hah, hbh]; omega
    · rw [(holds_bin.mp (holds_bin.mp hr.holds).2.1).1, sided_parent, rootOf_bin]
  · -- both children of the higher side have the same height: one rotation, and no level is lost
    have hyx : y.height = x.height + 1 := by omega
    have hzx : z.height = x.height + 1 := by omega
    have hah : (bin s.other a x y).height = x.height + 2 := by rw [height_bin]; omega
    have hvh : (bin s.other b (bin s.other a x y) z).height = x.height + 3 := by rw [height_bin, hah]; omega
    have hwh : (bin s.other a x (bin s.other b y z)).height = x.height + 3 := by rw [height_bin, height_bin]; omega
    clear hh heq hzy hyz
    rw [hflip] at hn hu hc ⊢
    obtain ⟨t₁, ht₁, hv, hc'⟩ := rotate_setBalance hn hc hu
    have hda : s.other.sign * ((x.height : ℤ) - y.height) = s.sign := by
      rw [s.sign_other, show (x.height : ℤ) - y.height = -1 by omega]
      ring
    have hdb : s.other.sign * (((bin s.other a x y).height : ℤ) - z.height) = -s.sign := by
      rw [s.sign_other, show ((bin s.other a x y).height : ℤ) - z.height = 1 by omega]
      ring
    rw [hda, hdb] at hv
    obtain ⟨hc', ho'⟩ := hc' s.sign (-s.sign)
    rw [if_neg (by omega), if_pos (by omega)]
    simp only [ht₁, Option.bind_some]
    have ha' : Avl (bin s.other a x y) := avl_bin.mpr ⟨hx, hy, by omega, by omega⟩
    refine ⟨_, bin s.other b (bin s.other a x y) z, rfl, ⟨avl_bin.mpr ⟨ha', hz, by omega, by omega⟩,
      inorder_turn _ _ _ _ _ _, ?_, hv, ho'⟩, .inl hvh, ?_⟩
    · rw [rootOf_bin, hvh, ← hwh]
      exact hc'
    · rw [(holds_bin.mp (holds_bin.mp hv).2.1).1, sided_parent, rootOf_bin]
  · -- the outer child is the higher one: one rotation
    have hyx : y.height = x.height := by omega
    have hzx : z.height = x.height + 1 := by omega
    have hah : (bin s.other a x y).height = x.height + 1 := by rw [height_bin]; omega
    have hvh : (bin s.other b (bin s.other a x y) z).height = x.height + 2 := by rw [height_bin, hah]; omega
    have hwh : (bin s.other a x (bin s.other b y z)).height = x.height + 3 := by rw [height_bin, height_bin]; omega
    clear hh hgt hzy hyz
    rw [hflip] at hn hu hc ⊢
    obtain ⟨t₁, ht₁, hv, hc'⟩ := rotate_setBalance hn hc hu
    have hda : s.other.sign * ((x.height : ℤ) - y.height) = 0 := by rw [hyx, sub_self, mul_zero]
    have hdb : s.other.sign * (((bin s.other a x y).height : ℤ) - z.height) = 0 := by
      rw [hah, hzx, sub_self, mul_zero]
    rw [hda, hdb] at hv
    obtain ⟨hc', ho'⟩ := hc' 0 0
    have ha' : Avl (bin s.other a x y) := avl_bin.mpr ⟨hx, hy, by omega, by omega⟩
    have hu' : Avl (bin s.other b (bin s.other a x y) z) := avl_bin.mpr ⟨ha', hz, by omega, by omega⟩
    obtain ⟨t', ht', hr⟩ := refilled_of_lower hu' (inorder_turn _ _ _ _ _ _) (rootOf_bin _ _ _ _) hn
      (by rw [hwh, hvh]) hv hc' ho' hlen
    rw [if_pos (by omega)]
    simp only [ht₁, Option.bind_some]
    refine ⟨t', _, ht', hr, .inr hvh, ?_⟩
    rw [(holds_bin.mp (holds_bin.mp hr.holds).2.1).1, sided_parent, rootOf_bin]

end straighten

/-! ### The way up -/

/-- At an item that does not lean too far the loop goes on to the parent. -/
theorem rebalance_skip {p : Option ι} (hu : Avl u) (hv : Holds t.items p u) (ha : rootOf u = some a) :
    t.rebalance (n + 1) (some a) = t.rebalance n p := by
  obtain ⟨x, y, rfl⟩ := exists_bin .left ha
  obtain ⟨-, -, h₁, h₂⟩ := avl_bin.mp hu
  have hi := (holds_bin.mp hv).1
  have hb : (t.items a).balance = (y.height : ℤ) - x.height := by simp [hi]
  rw [Tree.rebalance, Tree.rebalanceItem, if_neg (by omega), if_neg (by omega)]
  simp [hi]

theorem rebalance_spec {u : BinaryTree ι} {h₀ : ℕ} (hn : (inorder (fill c u)).Nodup) (hu : Avl u) (hc : AvlWay c h₀)
    (h₁ : u.height ≤ h₀ + 1) (h₂ : h₀ ≤ u.height + 1) (hcu : Around t c (rootOf u) u.height)
    (hv : Holds t.items (above c) u) (hlen : 2 * c.length ≤ n) :
    ∃ t' v, t.rebalance n (above c) = some t' ∧ Avl v ∧ inorder v = inorder (fill c u) ∧ t'.root = rootOf v ∧
      Holds t'.items none v ∧ t.AgreeOff (inorder (fill c u)) t' := by
  induction c generalizing t u h₀ n with
  | nil => exact ⟨t, u, by cases n <;> rfl, hu, rfl, hcu, hv, .refl _ _⟩
  | cons f c ih =>
      obtain ⟨n, rfl⟩ : ∃ m, n = m + 2 := ⟨n - 2, by simp at hlen; omega⟩
      replace hlen : 2 * c.length ≤ n := by simp at hlen; omega
      obtain ⟨s, a, y⟩ := f
      obtain ⟨hy, hy₁, hy₂, hc⟩ := hc
      obtain ⟨ha, hsy, hca⟩ := hcu
      dsimp only [above_cons] at *
      rw [fill_cons] at hn ⊢
      have hva : Holds t.items (above c) (bin s a u y) := holds_bin.mpr ⟨ha, hv, hsy⟩
      -- once the tree below `a` is balanced, whatever its height
      have go : ∀ {t₁ : Tree ι} {u₁ : BinaryTree ι} {r : ι} {m : ℕ}, Refilled t c (bin s a u y) t₁ u₁ →
          u₁.height ≤ max h₀ y.height + 1 + 1 → max h₀ y.height + 1 ≤ u₁.height + 1 → rootOf u₁ = some r →
          2 * c.length ≤ m → ∃ t' v, t₁.rebalance (m + 1) (some r) = some t' ∧ Avl v ∧
            inorder v = inorder (fill c (bin s a u y)) ∧ t'.root = rootOf v ∧ Holds t'.items none v ∧
            t.AgreeOff (inorder (fill c (bin s a u y))) t' := fun {t₁ u₁ r m} hr h₃ h₄ hroot hm => by
        have hi : inorder (fill c u₁) = inorder (fill c (bin s a u y)) := by
          rw [inorder_fill, inorder_fill, hr.inorder]
        obtain ⟨t', v, ht', hv', hi', hroot', hh', ho'⟩ := ih (by rw [hi]; exact hn) hr.avl hc h₃ h₄ hr.around hr.holds hm
        rw [rebalance_skip hr.avl hr.holds hroot]
        rw [hi] at hi' ho'
        exact ⟨t', v, ht', hv', hi', hroot', hh', hr.off.trans ho'⟩
      by_cases hbal : u.height ≤ y.height + 1 ∧ y.height ≤ u.height + 1
      · -- nothing is done here
        refine go ⟨avl_bin.mpr ⟨hu, hy, hbal⟩, rfl, ?_, hva, .refl _ _⟩ ?_ ?_ (rootOf_bin _ _ _ _) (by omega)
        · rw [rootOf_bin, height_bin]
          exact hca
        · rw [height_bin]; omega
        · rw [height_bin]; omega
      · -- one side has two levels more
        have hac : a ∉ around c := by
          rw [nodup_fill] at hn
          exact hn.2.2 (by simp)
        have hpa : (t.items a).parent = above c := by rw [ha]; exact sided_parent
        have hba : (t.items a).balance = s.sign * ((u.height : ℤ) - y.height) := by rw [ha]; exact sided_balance
        have hca' : Around t c (some a) (bin s a u y).height := by rwa [height_bin]
        obtain ⟨s', x, w, hxw, hx, hw, hh, hb⟩ : ∃ s' x w, bin s a u y = bin s' a w x ∧ Avl x ∧ Avl w ∧
            w.height = x.height + 2 ∧ (t.items a).balance = s'.sign * 2 := by
          rcases Nat.lt_or_ge u.height y.height with hlt | hge
          · refine ⟨s.other, u, y, (bin_other _ _ _ _).symm, hu, hy, by omega, ?_⟩
            rw [hba, s.sign_other, show (u.height : ℤ) - y.height = -2 by omega]
            ring
          · exact ⟨s, y, u, rfl, hy, hu, by omega, by rw [hba, show (u.height : ℤ) - y.height = 2 by omega]⟩
        rw [hxw] at hn hca' hva
        obtain ⟨t₁, u₁, ht₁, hr, hh₁, hp₁⟩ := straighten_spec (n := n + 1) hn hw hx hh hca' hva (by omega)
        have hitem : t.rebalanceItem (n + 1) a = some t₁ := by
          rw [Tree.rebalanceItem, hca.linkFromParent hpa hac, hb, ← ht₁]
          cases s' <;> simp
        have hmax : max u.height y.height = x.height + 2 := by
          have := congrArg BinaryTree.height hxw
          simp only [height_bin] at this
          omega
        rw [← hxw] at hr
        obtain ⟨r, hroot⟩ : ∃ r, rootOf u₁ = some r := by
          cases u₁ with
          | nil => simp at hh₁
          | node r _ _ => exact ⟨r, rfl⟩
        rw [Tree.rebalance, hitem, Option.bind_eq_bind, Option.bind_some, hp₁, hroot]
        exact go hr (by omega) (by omega) hroot hlen

end Muxomucota.Cdi
