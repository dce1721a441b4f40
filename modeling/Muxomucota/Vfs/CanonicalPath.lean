import Muxomucota.Vfs.SimplifyPath

/-!
# Vfs — What `__simplify_path` leaves

The loop, followed component by component.  A path in front of which something stands keeps a `..` at its
root, as the loop only leaves it alone when it has read something else than a slash there.
-/

namespace Muxomucota.Vfs

open Console
open Text (strlen strchr strchrFrom strchr_at strchrFrom_append)

/-! ### Following a path -/

/-- One component that matters; `keep` is to keep a `..` at the root as if it were a name. -/
def follow (keep : Bool) (stack : List (List Byte)) (c : List Byte) : Option (List (List Byte)) :=
  if c = parent then
    if stack = [] then if keep then some [c] else none
    else some stack.dropLast
  else some (stack ++ [c])

def followAll (keep : Bool) (stack : List (List Byte)) (s : List Byte) : Option (List (List Byte)) :=
  (names s).foldlM (follow keep) stack

theorem pathText_snoc (stack : List (List Byte)) (c : List Byte) :
    pathText (stack ++ [c]) = pathText stack ++ slash :: c := by
  rw [pathText, pathText, List.flatMap_append, List.flatMap_singleton]

theorem pathText_prefix {stack stack' : List (List Byte)} (h : stack' <+: stack) :
    (pathText stack').length ≤ (pathText stack).length := by
  obtain ⟨t, rfl⟩ := h
  rw [pathText, pathText, List.flatMap_append, List.length_append]
  exact Nat.le_add_right _ _

theorem followAll_end (keep : Bool) (stack : List (List Byte)) :
    followAll keep stack parent = follow keep stack parent := by
  have hnames : names parent = [parent] := names_last (by decide) (by decide) (by decide)
  rw [followAll, hnames, List.foldlM_cons]
  rcases follow keep stack parent with _ | st <;> rfl

theorem followAll_slash (keep : Bool) (stack : List (List Byte)) (r : List Byte) :
    followAll keep stack (dot :: dot :: slash :: r) =
      (follow keep stack parent).bind fun stack => followAll keep stack r := by
  have hnames : names (dot :: dot :: slash :: r) = parent :: names r :=
    @names_first parent r (by decide) (by decide) (by decide)
  rw [followAll, hnames, List.foldlM_cons]
  rfl

theorem follow_parent {keep : Bool} {stack : List (List Byte)} (h : stack ≠ []) :
    follow keep stack parent = some stack.dropLast := by
  rw [follow, if_pos rfl, if_neg h]

/-- A string may start or consist of `..`. -/
def StartsWithParent (rest : List Byte) : Prop :=
  rest = parent ∨ ∃ r, rest = dot :: dot :: slash :: r

/-- From the names before `part` and what is behind it to where the loops have taken them. -/
structure Walks (keep : Bool) (stack : List (List Byte)) (rest junk : List Byte) (changed : Bool)
    (stack' : List (List Byte)) (rest' junk' : List Byte) (changed' : Bool) : Prop where
  back : stack' <+: stack
  suffix : rest' <:+ rest
  size : (pathText stack').length + (rest'.length + junk'.length) =
    (pathText stack).length + (rest.length + junk.length)
  follows : followAll keep stack' rest' = followAll keep stack rest
  same : changed' = false → stack' = stack ∧ rest' = rest ∧ changed = false
  less : changed' = true → changed = true ∨ rest'.length < rest.length

theorem Walks.refl (keep : Bool) (stack : List (List Byte)) (rest junk : List Byte) (changed : Bool) :
    Walks keep stack rest junk changed stack rest junk changed :=
  ⟨List.prefix_refl _, List.suffix_refl _, rfl, rfl, fun h => ⟨rfl, rfl, h⟩, fun h => Or.inl h⟩

theorem Shrinks.walks {rest junk rest' junk' : List Byte} {changed changed' : Bool}
    (h : Shrinks rest junk changed rest' junk' changed') (keep : Bool) (stack : List (List Byte)) :
    Walks keep stack rest junk changed stack rest' junk' changed' :=
  ⟨List.prefix_refl _, h.suffix, by rw [h.size], by rw [followAll, followAll, h.names],
    fun hno => ⟨rfl, h.same hno⟩, h.less⟩

theorem Walks.trans {keep : Bool} {s₁ s₂ s₃ : List (List Byte)} {r₁ j₁ r₂ j₂ r₃ j₃ : List Byte}
    {c₁ c₂ c₃ : Bool} (h : Walks keep s₁ r₁ j₁ c₁ s₂ r₂ j₂ c₂) (h' : Walks keep s₂ r₂ j₂ c₂ s₃ r₃ j₃ c₃) :
    Walks keep s₁ r₁ j₁ c₁ s₃ r₃ j₃ c₃ := by
  refine ⟨h'.back.trans h.back, h'.suffix.trans h.suffix, h'.size.trans h.size,
    h'.follows.trans h.follows, fun hno => ?_,
    less_trans h.suffix.length_le h'.suffix.length_le h.less h'.less⟩
  obtain ⟨rfl, rfl, hc⟩ := h'.same hno
  exact h.same hc

/-- A `..` takes a name off. -/
theorem Walks.pop {keep : Bool} {init stack' : List (List Byte)} {c r junk junk₁ rest' junk' : List Byte}
    {changed changed' : Bool} (hjunk : junk₁.length = c.length + 4 + junk.length)
    (h : Walks keep init r junk₁ true stack' rest' junk' changed') :
    Walks keep (init ++ [c]) (dot :: dot :: slash :: r) junk changed stack' rest' junk' changed' := by
  have hle := h.suffix.length_le
  refine ⟨h.back.trans (List.prefix_append _ _), h.suffix.trans ⟨[dot, dot, slash], rfl⟩, ?_, ?_,
    fun hno => absurd (h.same hno).2.2 (by simp), fun _ => Or.inr ?_⟩
  · rw [h.size, pathText_snoc]
    simp only [List.length_append, List.length_cons, hjunk]
    omega
  · rw [h.follows, followAll_slash, follow_parent (by simp), List.dropLast_concat]
    rfl
  · simp only [List.length_cons]
    omega

section Parents

variable {pre : List Byte} {last : Nat}

/-- The loop for the parents goes on with fewer names, or ends the path, or leaves the memory at the
root. -/
theorem dropParents_spec (hroot : pre.getLast? ≠ some slash) : ∀ {n : Nat} {stack : List (List Byte)}
    {rest junk : List Byte} {changed : Bool}, rest.length < n → (∀ c ∈ stack, slash ∉ c) → 0 ∉ rest →
    (pre ++ pathText stack).length + 1 + (rest.length + 1) ≤ last →
    last ≤ ((pre ++ pathText stack) ++ slash :: (rest ++ 0 :: junk)).length →
    (∃ stack' rest' junk' changed',
      Walks (pre ≠ []) stack rest junk changed stack' rest' junk' changed' ∧
      (StartsWithParent rest' → stack' = [] ∧ pre ≠ []) ∧
      dropParents pre.length last n ((pre ++ pathText stack) ++ slash :: (rest ++ 0 :: junk))
        (pre ++ pathText stack).length changed =
          some ((pre ++ pathText stack') ++ slash :: (rest' ++ 0 :: junk'),
            (pre ++ pathText stack').length, changed')) ∨
    (∃ stack' junk', stack' <+: stack ∧ followAll (pre ≠ []) stack rest = some stack' ∧
      (pathText stack').length + junk'.length = (pathText stack).length + 1 + (rest.length + junk.length) ∧
      dropParents pre.length last n ((pre ++ pathText stack) ++ slash :: (rest ++ 0 :: junk))
        (pre ++ pathText stack).length changed =
          some ((pre ++ pathText stack') ++ 0 :: junk', (pre ++ pathText stack').length, true)) ∨
    (followAll (pre ≠ []) stack rest = none ∧
      dropParents pre.length last n ((pre ++ pathText stack) ++ slash :: (rest ++ 0 :: junk))
        (pre ++ pathText stack).length changed = none) := by
  intro n
  induction n with
  | zero => intro stack rest junk changed hn; cases hn
  | succ n ih =>
      intro stack rest junk changed hn hstack h0 hlast hmem
      by_cases hparent : StartsWithParent rest
      · obtain ⟨g, hg, hguard⟩ : ∃ g, (g = 0 ↔ rest = parent) ∧
            parentAt ((pre ++ pathText stack) ++ slash :: (rest ++ 0 :: junk))
              (pre ++ pathText stack).length = some (some g) := by
          rcases hparent with rfl | ⟨r, rfl⟩
          · exact ⟨0, by decide, parentAt_end junk⟩
          · exact ⟨slash, iff_of_false (by decide) (by simp [parent]), parentAt_slash r junk⟩
        rcases List.eq_nil_or_concat' stack with rfl | ⟨init, c, rfl⟩
        · -- At the root there is no slash to go back to.
          have hnil : pre ++ pathText [] = pre := List.append_nil _
          rw [hnil] at hguard ⊢
          rcases pre.eq_nil_or_concat' with rfl | ⟨front, b, rfl⟩
          · refine Or.inr (Or.inr ⟨?_, ?_⟩)
            · rcases hparent with rfl | ⟨r, rfl⟩
              · rw [followAll_end]
                rfl
              · rw [followAll_slash]
                rfl
            · rw [dropParents, hguard]
              rfl
          · refine Or.inl ⟨[], rest, junk, changed, Walks.refl _ _ _ _ _, fun _ => ⟨rfl, by simp⟩, ?_⟩
            have hb : b ≠ slash := fun h => hroot (by rw [h]; simp)
            have hlen : (front ++ [b]).length = front.length + 1 := by
              rw [List.length_append, List.length_singleton]
            have hcell : ((front ++ [b]) ++ slash :: (rest ++ 0 :: junk))[front.length]? = some b := by
              rw [List.append_assoc, List.getElem?_append_right (Nat.le_refl _), Nat.sub_self]
              rfl
            rw [dropParents, hguard, Option.bind_eq_bind, Option.bind_some]
            dsimp only
            rw [hlen, if_neg (Nat.succ_ne_zero _), Nat.add_sub_cancel,
              searchBack_stop _ (Nat.le_succ _), Option.bind_eq_bind, Option.bind_some, hcell,
              Option.bind_eq_bind, Option.bind_some, if_pos hb, hnil, hlen]
        · have hc : slash ∉ c := hstack c (by simp)
          have hmemEq : (pre ++ pathText (init ++ [c])) ++ slash :: (rest ++ 0 :: junk) =
              (pre ++ pathText init) ++ slash :: (c ++ slash :: (rest ++ 0 :: junk)) := by
            rw [pathText_snoc]
            simp only [List.append_assoc, List.cons_append]
          have hpart : (pre ++ pathText (init ++ [c])).length =
              (pre ++ pathText init).length + c.length + 1 := by
            rw [pathText_snoc, ← List.append_assoc, List.length_append, List.length_cons, Nat.add_assoc]
          have hback := @searchBack_spec (pre ++ pathText init) c (slash :: (rest ++ 0 :: junk)) pre.length
            (by rw [List.length_append]; omega) hc c.length (Nat.le_refl _)
          have hcell : ((pre ++ pathText init) ++ slash :: (c ++ slash :: (rest ++ 0 :: junk)))[
              (pre ++ pathText init).length]? = some slash := by
            rw [List.getElem?_append_right (Nat.le_refl _), Nat.sub_self, List.getElem?_cons_zero]
          rw [hmemEq] at hguard hmem ⊢
          rw [hpart] at hguard hlast ⊢
          rw [dropParents, hguard, Option.bind_eq_bind, Option.bind_some]
          dsimp only
          rw [if_neg (Nat.succ_ne_zero _), Nat.add_sub_cancel, hback, Option.bind_eq_bind,
            Option.bind_some, hcell, Option.bind_eq_bind, Option.bind_some, if_neg (not_not.mpr rfl)]
          rcases hparent with rfl | ⟨r, rfl⟩
          · -- The path ends in `..`.
            rw [if_neg (not_not.mpr (hg.mpr rfl))]
            refine Or.inr (Or.inl ⟨init, c ++ slash :: (parent ++ 0 :: junk), List.prefix_append _ _, ?_,
              ?_, ?_⟩)
            · rw [followAll_end, follow_parent (by simp), List.dropLast_concat]
            · rw [pathText_snoc]
              simp only [List.length_append, List.length_cons]
              omega
            · rw [store, if_pos (by
                simp only [List.length_append, List.length_cons]
                omega),
                List.set_append_right _ _ (Nat.le_refl _), Nat.sub_self, List.set_cons_zero]
              rfl
          · -- A name and the `..` behind it go.
            have hne : g ≠ 0 := fun h => absurd (hg.mp h) (by simp [parent])
            have hb : c ++ slash :: ((dot :: dot :: slash :: r) ++ 0 :: junk) =
                ((c ++ [slash, dot, dot, slash]) ++ r) ++ 0 :: junk := by
              simp only [List.append_assoc, List.cons_append, List.nil_append]
            have hblen : (c ++ [slash, dot, dot, slash]).length = c.length + 4 := by
              rw [List.length_append]
              rfl
            have hrlen : (dot :: dot :: slash :: r).length = r.length + 3 := rfl
            rw [if_pos hne]
            rw [hb] at hmem ⊢
            obtain ⟨junk₁, hmove, hjunk⟩ := @memmove_rest (pre ++ pathText init) r junk last
              (c ++ [slash, dot, dot, slash]) (by
                rw [@List.length_append _ (c ++ _), hblen]
                omega) hmem
            have hsrc : (pre ++ pathText init).length + 1 + (c ++ [slash, dot, dot, slash]).length =
                (pre ++ pathText init).length + c.length + 1 + 4 := by
              rw [hblen]
              omega
            rw [hsrc] at hmove
            rw [hmove, Option.bind_eq_bind, Option.bind_some]
            rw [hblen] at hjunk
            have hmem₁ : last ≤ ((pre ++ pathText init) ++ slash :: (r ++ 0 :: junk₁)).length := by
              simp only [List.length_append, List.length_cons, List.length_nil, hjunk] at hmem ⊢
              omega
            have hlast₁ : (pre ++ pathText init).length + 1 + (r.length + 1) ≤ last := by omega
            have hnext := @ih init r junk₁ true (by omega)
              (fun x hx => hstack x (List.mem_append_left _ hx))
              (fun hz => h0 (List.mem_append_right [dot, dot, slash] hz)) (by omega) hmem₁
            have hfollow : followAll (pre ≠ []) (init ++ [c]) (dot :: dot :: slash :: r) =
                followAll (pre ≠ []) init r := by
              rw [followAll_slash, follow_parent (by simp), List.dropLast_concat]
              rfl
            rcases hnext with ⟨stack', rest', junk', changed', hwalks, hroot', hrun⟩ |
              ⟨stack', junk', hback', hfollows, hsize, hrun⟩ | ⟨hfollows, hrun⟩
            · exact Or.inl ⟨stack', rest', junk', changed', hwalks.pop hjunk, hroot', hrun⟩
            · refine Or.inr (Or.inl ⟨stack', junk', hback'.trans (List.prefix_append _ _),
                hfollow.trans hfollows, ?_, hrun⟩)
              rw [hsize, pathText_snoc, List.length_append, List.length_cons, hjunk]
              omega
            · exact Or.inr (Or.inr ⟨hfollow.trans hfollows, hrun⟩)
      · -- The guard fails.
        refine Or.inl ⟨stack, rest, junk, changed, Walks.refl _ _ _ _ _, fun h => absurd h hparent, ?_⟩
        have hguard := @parentAt_other (pre ++ pathText stack) rest junk h0
          (fun h => hparent (Or.inl h)) fun r h => hparent (Or.inr ⟨r, h⟩)
        rw [dropParents, hguard]
        rfl

end Parents

/-! ### The search for the next slash -/

/-- The slash after a name. -/
theorem strchr_name {A c B : List Byte} (hc : slash ∉ c) (h0 : 0 ∉ c) :
    strchr (A ++ slash :: (c ++ slash :: B)) (A.length + 1) slash = some (some (A.length + 1 + c.length)) := by
  have h := strchr_at slash (A ++ [slash]) (c ++ slash :: B)
  rw [strchrFrom_append _ hc h0, List.append_assoc, List.length_append] at h
  exact h.trans (by rw [strchrFrom, if_pos rfl]; rfl)

/-- There is none after the last name. -/
theorem strchr_last {A c B : List Byte} (hc : slash ∉ c) (h0 : 0 ∉ c) :
    strchr (A ++ slash :: (c ++ 0 :: B)) (A.length + 1) slash = some none := by
  have h := strchr_at slash (A ++ [slash]) (c ++ 0 :: B)
  rw [strchrFrom_append _ hc h0, List.append_assoc, List.length_append] at h
  exact h.trans (by rw [strchrFrom, if_neg (by decide), if_pos rfl])

/-! ### The whole loop -/

theorem stringIn_append {s : List Byte} (junk : List Byte) (h0 : 0 ∉ s) : stringIn (s ++ 0 :: junk) = s := by
  have hs : ∀ b ∈ s, decide (b ≠ 0) = true := fun b hb => decide_eq_true fun h : b = 0 => h0 (h ▸ hb)
  rw [stringIn, List.takeWhile_append_of_pos hs, List.takeWhile_cons_of_neg (by simp), List.append_nil]

/-- What the function leaves of a path that goes to `dest`; `none` is a way that leaves the memory. -/
def Leaves (pre : List Byte) (dest : Option (List (List Byte))) (result : Option (List Byte)) : Prop :=
  (∃ stack junk, dest = some stack ∧ result = some ((pre ++ pathText stack) ++ 0 :: junk)) ∨
    (dest = none ∧ result = none)

/-- The first component of a string that does not start with a slash. -/
theorem first_name (rest : List Byte) :
    ∃ c, slash ∉ c ∧ (rest = c ∨ ∃ r, rest = c ++ slash :: r) := by
  by_cases h : slash ∈ rest
  · obtain ⟨c, r, rfl, hc⟩ := List.eq_append_cons_of_mem h
    exact ⟨c, hc, Or.inr ⟨r, rfl⟩⟩
  · exact ⟨rest, h, Or.inl rfl⟩

theorem follow_name {keep : Bool} {stack : List (List Byte)} {c : List Byte}
    (h : c = parent → stack = [] ∧ keep = true) : follow keep stack c = some (stack ++ [c]) := by
  rw [follow]
  split_ifs with hc hs hk
  · rw [hs]
    rfl
  · exact absurd (h hc).2 hk
  · exact absurd (h hc).1 hs
  · rfl

section Whole

variable {pre : List Byte} {last : Nat}

theorem followAll_nil (keep : Bool) (stack : List (List Byte)) : followAll keep stack [] = some stack := by
  rw [followAll, names_nil]
  rfl

theorem followAll_dot (keep : Bool) (stack : List (List Byte)) :
    followAll keep stack [dot] = some stack := by
  rw [followAll, names_dot]
  rfl

theorem store_slash (A B : List Byte) : store (A ++ slash :: B) A.length 0 = some (A ++ 0 :: B) := by
  rw [store, if_pos (by simp), List.set_append_right _ _ (Nat.le_refl _), Nat.sub_self,
    List.set_cons_zero]

/-- Without a change the search goes on behind the component, which has become a name. -/
theorem next_name {keep : Bool} {stack : List (List Byte)} {rest junk : List Byte} (h0 : 0 ∉ rest)
    (hne : rest ≠ []) (hhead : rest.head? ≠ some slash) (hdots : ∀ r, rest ≠ dot :: slash :: r)
    (hdot : rest ≠ [dot]) (hparent : StartsWithParent rest → stack = [] ∧ keep = true) :
    (∃ c r, rest = c ++ slash :: r ∧ slash ∉ c ∧
      followAll keep stack rest = followAll keep (stack ++ [c]) r ∧
      strchr ((pre ++ pathText stack) ++ slash :: (rest ++ 0 :: junk)) ((pre ++ pathText stack).length + 1)
        slash = some (some (pre ++ pathText (stack ++ [c])).length)) ∨
    (followAll keep stack rest = some (stack ++ [rest]) ∧
      strchr ((pre ++ pathText stack) ++ slash :: (rest ++ 0 :: junk)) ((pre ++ pathText stack).length + 1)
        slash = some none) := by
  obtain ⟨c, hc, rfl | ⟨r, rfl⟩⟩ := first_name rest
  · refine Or.inr ⟨?_, strchr_last hc h0⟩
    rw [followAll, names_last hc hne hdot, List.foldlM_cons,
      follow_name fun h => hparent (Or.inl h)]
    rfl
  · have hne' : c ≠ [] := fun h => hhead (by rw [h]; rfl)
    have hdot' : c ≠ [dot] := fun h => hdots r (by rw [h]; rfl)
    refine Or.inl ⟨c, r, rfl, hc, ?_, ?_⟩
    · rw [followAll, names_first hc hne' hdot', List.foldlM_cons,
        follow_name fun h => hparent (Or.inr ⟨r, by rw [h]; rfl⟩)]
      rfl
    · rw [List.append_assoc c, List.cons_append, strchr_name hc fun h => h0 (List.mem_append_left _ h),
        pathText_snoc]
      simp only [List.length_append, List.length_cons]
      congr 2
      omega

/-- The loop takes the path where its components go. -/
theorem simplifyLoop_leaves (hroot : pre.getLast? ≠ some slash) : ∀ {n : Nat} {stack : List (List Byte)}
    {rest junk : List Byte}, rest.length + 1 < n → (∀ c ∈ stack, slash ∉ c) → 0 ∉ rest →
    (pre ++ pathText stack).length + 1 + (rest.length + 1) ≤ last →
    last ≤ ((pre ++ pathText stack) ++ slash :: (rest ++ 0 :: junk)).length →
    Leaves pre (followAll (pre ≠ []) stack rest)
      (simplifyLoop pre.length last n ((pre ++ pathText stack) ++ slash :: (rest ++ 0 :: junk))
        (some (pre ++ pathText stack).length)) := by
  intro n
  induction n with
  | zero => intro stack rest junk hn; cases hn
  | succ n ih =>
      intro stack rest junk hn hstack h0 hlast hmem
      obtain ⟨rest₁, junk₁, changed₁, hshrinks₁, hhead, hrun₁⟩ :=
        @dropSlashes_spec (pre ++ pathText stack) last n rest junk false (by omega) hlast hmem
      have hle₁ := hshrinks₁.suffix.length_le
      have hsum₁ := hshrinks₁.size
      have h0₁ : 0 ∉ rest₁ := fun h => h0 (hshrinks₁.suffix.subset h)
      have hfollows₁ : followAll (pre ≠ []) stack rest₁ = followAll (pre ≠ []) stack rest := by
        rw [followAll, followAll, hshrinks₁.names]
      rw [simplifyLoop, hrun₁, Option.bind_eq_bind, Option.bind_some]
      dsimp only
      have hcell := cell_rest (pre ++ pathText stack) (rest₁ ++ 0 :: junk₁) 0
      rw [Nat.add_zero] at hcell
      rw [hcell]
      by_cases hne : rest₁ = []
      · -- The path ends in a slash.
        rw [hne, followAll_nil] at hfollows₁
        rw [← hfollows₁, hne]
        refine Or.inl ⟨stack, 0 :: junk₁, rfl, ?_⟩
        exact store_slash _ _
      obtain ⟨b, hb, hbcell⟩ : ∃ b : Byte, b ≠ 0 ∧ (rest₁ ++ 0 :: junk₁)[0]? = some b := by
        obtain ⟨b, bs, rfl⟩ := List.exists_cons_of_ne_nil hne
        exact ⟨b, fun h => h0₁ (by rw [h]; exact List.mem_cons_self), rfl⟩
      rw [hbcell, Option.bind_eq_bind, Option.bind_some, if_neg hb]
      -- The dots.
      obtain ⟨rest₂, junk₂, changed₂, hshrinks₂, hdots, hrun₂⟩ :=
        @dropDots_spec (pre ++ pathText stack) last n rest₁ junk₁ changed₁ (by omega) (by omega) (by
          simp only [List.length_append, List.length_cons] at hmem ⊢
          omega)
      have hshrinks := hshrinks₁.trans hshrinks₂
      have hle₂ := hshrinks.suffix.length_le
      have hsum₂ := hshrinks.size
      have h0₂ : 0 ∉ rest₂ := fun h => h0 (hshrinks.suffix.subset h)
      have hwalks := hshrinks.walks (pre ≠ []) stack
      rw [hrun₂, Option.bind_some]
      dsimp only
      rw [endsInDot_eq h0₂, Option.bind_eq_bind, Option.bind_some]
      by_cases hdot : rest₂ = [dot]
      · -- The path ends in a dot.
        have hfollows := hwalks.follows
        rw [hdot, followAll_dot] at hfollows
        rw [← hfollows, if_pos (decide_eq_true hdot)]
        refine Or.inl ⟨stack, rest₂ ++ 0 :: junk₂, rfl, ?_⟩
        exact store_slash _ _
      rw [if_neg (by simpa using hdot)]
      -- The parents.
      have hmem₂ : last ≤ ((pre ++ pathText stack) ++ slash :: (rest₂ ++ 0 :: junk₂)).length := by
        simp only [List.length_append, List.length_cons] at hmem ⊢
        omega
      rcases @dropParents_spec pre last hroot n stack rest₂ junk₂ changed₂ (by omega) hstack h0₂ (by omega)
        hmem₂ with ⟨stack₃, rest₃, junk₃, changed₃, hwalks₃, hparent, hrun₃⟩ |
          ⟨stack₃, junk₃, _, hfollows, _, hrun₃⟩ | ⟨hfollows, hrun₃⟩
      · have hall := hwalks.trans hwalks₃
        have hback := hall.back
        have hle₃ := hall.suffix.length_le
        have hsum₃ := hall.size
        have hstack₃ : ∀ c ∈ stack₃, slash ∉ c := fun c hc => hstack c (hback.subset hc)
        have h0₃ : 0 ∉ rest₃ := fun h => h0 (hall.suffix.subset h)
        have hpref := pathText_prefix hback
        have hlast₃ : (pre ++ pathText stack₃).length + 1 + (rest₃.length + 1) ≤ last := by
          rw [List.length_append] at hlast ⊢
          omega
        have hmem₃ : last ≤ ((pre ++ pathText stack₃) ++ slash :: (rest₃ ++ 0 :: junk₃)).length := by
          simp only [List.length_append, List.length_cons] at hmem ⊢
          omega
        rw [hrun₃, ← hall.follows, Option.bind_eq_bind, Option.bind_some]
        dsimp only
        cases changed₃ with
        | true =>
            have hless : rest₃.length < rest.length := (hall.less rfl).resolve_left Bool.false_ne_true
            rw [if_pos rfl, strchr_at, strchrFrom, if_pos rfl, Option.bind_eq_bind, Option.bind_some]
            exact ih (by omega) hstack₃ h0₃ hlast₃ hmem₃
        | false =>
            obtain ⟨rfl, rfl, -⟩ := hwalks₃.same rfl
            obtain ⟨rfl, hchanged₁⟩ := hshrinks₂.same (hwalks₃.same rfl).2.2
            rw [if_neg Bool.false_ne_true]
            rcases @next_name pre (pre ≠ []) stack₃ rest₃ junk₃ h0₃ hne hhead hdots hdot
              (fun h => (hparent h).imp_right decide_eq_true) with
                ⟨c, r, rfl, hc, hfollows, hsearch⟩ | ⟨hfollows, hsearch⟩
            · have hmemEq : (pre ++ pathText stack₃) ++ slash :: ((c ++ slash :: r) ++ 0 :: junk₃) =
                  (pre ++ pathText (stack₃ ++ [c])) ++ slash :: (r ++ 0 :: junk₃) := by
                rw [pathText_snoc]
                simp only [List.append_assoc, List.cons_append]
              have hpart : (pre ++ pathText (stack₃ ++ [c])).length =
                  (pre ++ pathText stack₃).length + 1 + c.length := by
                rw [pathText_snoc]
                simp only [List.length_append, List.length_cons]
                omega
              have hr : (c ++ slash :: r).length = c.length + 1 + r.length := by
                simp only [List.length_append, List.length_cons]
                omega
              rw [hsearch, hfollows, Option.bind_eq_bind, Option.bind_some, hmemEq]
              refine ih (by omega) ?_ (fun h => h0₃ (List.mem_append_right c (List.mem_cons_of_mem slash h)))
                (by omega) (hmemEq ▸ hmem₃)
              intro x hx
              rcases List.mem_append.mp hx with hx | hx
              · exact hstack₃ x hx
              · rwa [List.mem_singleton.mp hx]
            · rw [hsearch, hfollows, Option.bind_eq_bind, Option.bind_some]
              obtain ⟨n, rfl⟩ : ∃ m, n = m + 1 := ⟨n - 1, by omega⟩
              refine Or.inl ⟨stack₃ ++ [rest₃], junk₃, rfl, ?_⟩
              rw [simplifyLoop, pathText_snoc]
              simp only [List.append_assoc, List.cons_append]
      · rw [← hwalks.follows, hfollows, hrun₃, Option.bind_eq_bind, Option.bind_some]
        dsimp only
        refine Or.inl ⟨stack₃, junk₃, rfl, ?_⟩
        rw [if_pos rfl, strchr_at, strchrFrom, if_neg (by decide), if_pos rfl, Option.bind_eq_bind,
          Option.bind_some]
        obtain ⟨n, rfl⟩ : ∃ m, n = m + 1 := ⟨n - 1, by omega⟩
        rw [simplifyLoop]
      · rw [← hwalks.follows, hfollows, hrun₃]
        exact Or.inr ⟨rfl, rfl⟩

/-- Where the function takes a string behind `pre`. -/
theorem simplifyPath_leaves (hroot : pre.getLast? ≠ some slash) {s junk : List Byte}
    (hs : s = [] ∨ s.head? = some slash) (h0 : 0 ∉ s) {n : Nat} (hn : s.length < n) :
    Leaves pre (followAll (pre ≠ []) [] s) (simplifyPath n (pre ++ (s ++ 0 :: junk)) pre.length) := by
  have hlen : strlen (pre ++ (s ++ 0 :: junk)) pre.length = some s.length := by
    rw [strlen, List.drop_left, ← stringIn, stringIn_append junk h0, if_pos (by simp)]
  rw [simplifyPath, hlen, Option.bind_eq_bind, Option.bind_some, strchr_at]
  obtain ⟨n, rfl⟩ : ∃ m, n = m + 1 := ⟨n - 1, by omega⟩
  rcases hs with rfl | hs
  · rw [followAll_nil]
    refine Or.inl ⟨[], junk, rfl, ?_⟩
    rw [List.nil_append, strchrFrom, if_neg (by decide), if_pos rfl]
    exact congrArg some (congrArg (· ++ 0 :: junk) (List.append_nil pre).symm)
  · obtain ⟨rest, rfl⟩ : ∃ rest, s = slash :: rest := by
      cases s with
      | nil => cases hs
      | cons b rest => exact ⟨rest, by rw [Option.some.inj hs]⟩
    have hfollow : followAll (pre ≠ []) [] (slash :: rest) = followAll (pre ≠ []) [] rest := by
      rw [followAll, followAll, names_slash]
    have h0' : 0 ∉ rest := fun h => h0 (List.mem_cons_of_mem _ h)
    have hnil : pre ++ pathText [] = pre := List.append_nil pre
    have h := @simplifyLoop_leaves pre (pre.length + ((slash :: rest).length + 1)) hroot (n + 1) [] rest junk
      hn (by simp) h0'
    rw [hnil] at h
    rw [hfollow]
    refine h ?_ ?_
    · rw [List.length_cons]
      omega
    · simp only [List.length_append, List.length_cons]
      omega

end Whole

/-! ### At the start of the memory -/

theorem foldlM_stays (cs : List (List Byte)) : ∀ (stack : List (List Byte)),
    (StaysBelow stack.length cs ∧
      (cs.filter fun c => c ≠ [] ∧ c ≠ [dot]).foldlM (follow false) stack = some (cs.foldl enter stack)) ∨
    (¬StaysBelow stack.length cs ∧
      (cs.filter fun c => c ≠ [] ∧ c ≠ [dot]).foldlM (follow false) stack = none) := by
  induction cs with
  | nil => exact fun stack => Or.inl ⟨trivial, rfl⟩
  | cons c cs ih =>
      intro stack
      rw [StaysBelow, List.foldl_cons]
      by_cases hc : c = [] ∨ c = [dot]
      · have henter : enter stack c = stack := by rw [enter, if_pos hc]
        have hno : ¬(c ≠ [] ∧ c ≠ [dot]) := fun h => hc.elim h.1 h.2
        rw [if_pos hc, henter, List.filter_cons_of_neg (by simpa using hno)]
        exact ih stack
      have hyes : c ≠ [] ∧ c ≠ [dot] := not_or.mp hc
      rw [if_neg hc, List.filter_cons_of_pos (by simpa using hyes), List.foldlM_cons, follow, enter,
        if_neg hc]
      by_cases hp : c = parent
      · rw [if_pos hp, if_pos hp, if_pos hp]
        by_cases hs : stack = []
        · rw [if_pos hs, hs]
          exact Or.inr ⟨fun h => h.1 rfl, rfl⟩
        · have hlen := ih stack.dropLast
          rw [List.length_dropLast] at hlen
          have hpos : stack.length ≠ 0 := fun h => hs (List.length_eq_zero_iff.mp h)
          rw [if_neg hs]
          exact hlen.imp (And.imp_left (And.intro hpos)) (And.imp_left fun h h' => h h'.2)
      · have hlen := ih (stack ++ [c])
        rw [List.length_append] at hlen
        rw [if_neg hp, if_neg hp, if_neg hp]
        exact hlen

theorem mem_foldl_enter (cs : List (List Byte)) : ∀ (stack : List (List Byte)) (c : List Byte),
    c ∈ cs.foldl enter stack → c ∈ stack ∨ (c ∈ cs ∧ c ≠ [] ∧ c ≠ [dot] ∧ c ≠ parent) := by
  induction cs with
  | nil => exact fun stack c h => Or.inl h
  | cons d cs ih =>
      intro stack c hc
      rcases ih (enter stack d) c hc with hc | ⟨hc, hkinds⟩
      · rw [enter] at hc
        split_ifs at hc with hd hp
        · exact Or.inl hc
        · exact Or.inl (List.dropLast_subset stack hc)
        · rcases List.mem_append.mp hc with hc | hc
          · exact Or.inl hc
          · rw [List.mem_singleton.mp hc]
            exact Or.inr ⟨List.mem_cons_self, fun h => hd (Or.inl h), fun h => hd (Or.inr h), hp⟩
      · exact Or.inr ⟨List.mem_cons_of_mem _ hc, hkinds⟩

theorem mem_splitOn (n : Nat) : ∀ {s c : List Byte}, s.length < n → c ∈ s.splitOn slash →
    slash ∉ c ∧ c ⊆ s := by
  induction n with
  | zero => intro s c hs; cases hs
  | succ n ih =>
      intro s c hs hc
      obtain ⟨d, hd, rfl | ⟨r, rfl⟩⟩ := first_name s
      · rw [List.splitOn_eq_singleton hd] at hc
        rw [List.mem_singleton.mp hc]
        exact ⟨hd, List.Subset.refl _⟩
      · rw [List.splitOn_append_cons_self_of_not_mem hd] at hc
        rw [List.length_append, List.length_cons] at hs
        rcases List.mem_cons.mp hc with rfl | hc
        · exact ⟨hd, List.subset_append_left _ _⟩
        · obtain ⟨hslash, hsub⟩ := @ih r c (by omega) hc
          exact ⟨hslash, List.Subset.trans hsub (List.subset_append_of_subset_right d
            (List.subset_cons_self slash r))⟩

/-- A name that a path comes down to is a component of it. -/
theorem mem_resolved {s c : List Byte} (h : c ∈ resolved s) :
    c ⊆ s ∧ c ≠ [] ∧ c ≠ [dot] ∧ c ≠ parent ∧ slash ∉ c := by
  obtain ⟨hc, hkinds⟩ := (mem_foldl_enter _ [] c h).resolve_left List.not_mem_nil
  have hsplit := mem_splitOn _ (Nat.lt_succ_self _) hc
  exact ⟨hsplit.2, hkinds.1, hkinds.2.1, hkinds.2.2, hsplit.1⟩

theorem zero_pathText {s : List Byte} (h0 : 0 ∉ s) : 0 ∉ pathText (resolved s) := by
  intro h
  obtain ⟨c, hc, h⟩ := List.mem_flatMap.mp h
  rcases List.mem_cons.mp h with h | h
  · exact absurd h (by decide)
  · exact h0 ((mem_resolved hc).1 h)

section Start

variable {s : List Byte} {n : Nat}

theorem simplifyPath_resolved (hs : s = [] ∨ s.head? = some slash) (h0 : 0 ∉ s) (hn : s.length < n)
    (h : StaysBelow 0 (s.splitOn slash)) :
    ∃ junk, simplifyPath n (s ++ [0]) 0 = some (pathText (resolved s) ++ 0 :: junk) := by
  have hleaves := @simplifyPath_leaves [] (by simp) s [] hs h0 n hn
  have hsome : followAll false [] s = some (resolved s) :=
    ((foldlM_stays (s.splitOn slash) []).resolve_right fun h' => h'.1 h).2
  rcases hleaves with ⟨stack, junk, hstack, hrun⟩ | ⟨hnone, -⟩
  · obtain rfl := Option.some.inj (hsome.symm.trans hstack)
    exact ⟨junk, hrun⟩
  · cases hsome.symm.trans hnone

/-- A `..` at the root takes the loop out of the path. -/
theorem simplifyPath_none (hs : s = [] ∨ s.head? = some slash) (h0 : 0 ∉ s) (hn : s.length < n)
    (h : ¬StaysBelow 0 (s.splitOn slash)) : simplifyPath n (s ++ [0]) 0 = none := by
  have hleaves := @simplifyPath_leaves [] (by simp) s [] hs h0 n hn
  have hnone : followAll false [] s = none :=
    ((foldlM_stays (s.splitOn slash) []).resolve_left fun h' => h h'.1).2
  rcases hleaves with ⟨stack, junk, hstack, -⟩ | ⟨-, hrun⟩
  · cases hnone.symm.trans hstack
  · exact hrun

/-- **The canonical form** is left exactly if no `..` is met at the root: the loop looks for the name that
is to go in front of the path there. -/
theorem simplifies_iff (hs : s = [] ∨ s.head? = some slash) (h0 : 0 ∉ s) :
    Simplifies s ↔ StaysBelow 0 (s.splitOn slash) := by
  constructor
  · rintro ⟨N, hN⟩
    obtain ⟨mem, hmem, -⟩ := hN (max N (s.length + 1)) (Nat.le_max_left _ _)
    by_contra h
    have hnone := simplifyPath_none hs h0 (Nat.le_max_right N (s.length + 1)) h
    cases hnone.symm.trans hmem
  · intro h
    refine ⟨s.length + 1, fun n hn => ?_⟩
    obtain ⟨junk, hrun⟩ := simplifyPath_resolved hs h0 hn h
    have hstring := stringIn_append junk (zero_pathText h0)
    exact ⟨_, hrun, ⟨resolved s, hstring, fun c hc => (mem_resolved hc).2⟩, hstring⟩

end Start

/-- `/a/../b`. -/
theorem up_from_a : Simplifies [slash, 0x61, slash, dot, dot, slash, 0x62] := by
  have hsplit : [slash, 0x61, slash, dot, dot, slash, 0x62].splitOn slash = [[], [0x61], parent, [0x62]] := by
    decide
  refine (simplifies_iff (Or.inr rfl) (by decide)).mpr ?_
  rw [hsplit]
  simp [StaysBelow, parent, dot]

/-- `/..` reads the byte in front of it. -/
theorem up_from_root : ¬Simplifies [slash, dot, dot] := by
  have hsplit : [slash, dot, dot].splitOn slash = [[], parent] := by decide
  rintro ⟨N, hN⟩
  obtain ⟨mem, hmem, -⟩ := hN (max N 4) (Nat.le_max_left _ _)
  have hnone := @simplifyPath_none [slash, dot, dot] (max N 4) (Or.inr rfl) (by decide)
    (Nat.le_max_right _ _) (by
      rw [hsplit]
      simp [StaysBelow, parent])
  cases hnone.symm.trans hmem

end Muxomucota.Vfs
