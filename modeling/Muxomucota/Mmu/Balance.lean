import Muxomucota.Mmu.Teardown

/-!
# Mmu — a clone and its destruction

`fork` followed by the child's exit should leave no trace in the user counts.  The clone takes a
reference for every page of the parent; the destruction gives one back for every page outside the
mapping area, whose frames `vmmc_clear_user` takes to be somebody else's.  So what stays behind is
one reference for each page of the mapping area (`clone_destroy_users`).
-/

namespace Muxomucota.Mmu
open Memory Pmm Lib

variable {ρ : Type} {P : Nat → Option Nat} {R : ρ → Option Nat} {m m' m₁ m₂ : Mem}
  {c e pd ps f : Nat} {kpd : KernelDirectory}

/-- A fresh context, `vmmc_clone` into it, and its destruction. -/
def cloneAndDestroy (kpd : KernelDirectory) (m : Mem) (source : Nat) : Option Mem :=
  (createVmmContextArch kpd m).bind fun (dest, m) =>
    (vmmcClone m dest source).bind fun m => destroyVmmContext m dest

/-- How many pages of the mapping area of context `c` are mapped to `f`. -/
def mapAreaSum (P : Nat → Option Nat) (m : Mem) (c f : Nat) : Nat :=
  ∑ i ∈ Finset.range userPdes, if inMapArea i then pageCount P m c i f else 0

theorem mapAreaSum_pos :
    0 < mapAreaSum P m c f ↔ ∃ v, inMapArea (v / 1024) ∧ maps P m c v = some f := by
  rw [mapAreaSum, Finset.sum_pos_iff]
  constructor
  · rintro ⟨i, -, hpos⟩
    split at hpos
    · rename_i hi
      obtain ⟨v, rfl, hv⟩ := pageCount_pos.mp hpos
      exact ⟨v, hi, hv⟩
    · exact absurd hpos (lt_irrefl 0)
  · rintro ⟨v, hi, hv⟩
    refine ⟨v / 1024, Finset.mem_range.mpr (page_lt hv), ?_⟩
    rw [if_pos hi]
    exact pageCount_pos.mpr ⟨v, rfl, hv⟩

/-- The pages that are freed and those of the mapping area are all pages. -/
theorem freedSum_add_mapAreaSum :
    freedSum P m c false userPdes f + mapAreaSum P m c f = pageSum P m c userPdes f := by
  rw [freedSum, mapAreaSum, pageSum, ← Finset.sum_add_distrib]
  refine Finset.sum_congr rfl fun i _ => ?_
  have hp : ¬ Preserved false i := fun h => by cases h.1
  by_cases hm : inMapArea i <;> simp [hp, hm]

/-- **What a clone and its destruction leave behind**: a reference for each page of the mapping
area. -/
theorem clone_destroy_users (h : Owned P R 0 m) (hc : P c = some ps) (he : P e = none)
    (hm : cloneAndDestroy kpd m ps = some m') :
    (∀ f, m'.pmm.users f = m.pmm.users f + mapAreaSum P m c f) ∧
      ∀ f v, maps P m c v = some f → m.pmm.users f + pageSum P m c userPdes f ≤ 127 := by
  unfold cloneAndDestroy at hm
  rw [Option.bind_eq_some_iff] at hm
  obtain ⟨⟨pd, m₁⟩, hcreate, hm⟩ := hm
  rw [Option.bind_eq_some_iff] at hm
  obtain ⟨m₂, hclone, hdestroy⟩ := hm
  have hce : c ≠ e := by rintro rfl; rw [hc] at he; cases he
  obtain ⟨h₁, hts₁, hps₁, hu₀, hu₁, hsame, -, -⟩ := create_spec h he hcreate
  have hc₁ : Function.update P e (some pd) c = some ps := by rw [Function.update_of_ne hce]; exact hc
  have he₁ : Function.update P e (some pd) e = some pd := Function.update_self ..
  have hno : ∀ i, tables (Function.update P e (some pd)) m₁ e i = none := by
    intro i; rw [hts₁]; simp [tables, he]
  obtain ⟨h₂, hcl⟩ := clone_spec h₁ hc₁ he₁ hce hno hclone
  obtain ⟨-, -, -, hus, hzero, -⟩ := destroy_spec h₂ he₁ hdestroy
  set P' := Function.update P e (some pd) with hP'
  have hmaps₁ : maps P' m₁ c = maps P m c := by funext v; rw [maps, maps, hps₁]
  have hsum : ∀ f, pageSum P' m₁ c userPdes f = pageSum P m c userPdes f := fun f =>
    Finset.sum_congr rfl fun i _ => pageCount_congr (fun v _ => by rw [hmaps₁]) f
  have hfreed : ∀ f, freedSum P' m₂ e false userPdes f = freedSum P m c false userPdes f := by
    refine fun f => Finset.sum_congr rfl fun i _ => ?_
    rw [pageCount_congr (fun v _ => ?_) f]
    rw [maps, hcl.child, map_cloned_frame, hps₁]
    rfl
  have hfree₀ : ∀ f, m.pmm.users f = 0 → mapAreaSum P m c f = 0 := by
    intro f hf
    refine Nat.eq_zero_of_not_pos fun hpos => ?_
    obtain ⟨v, -, hv⟩ := mapAreaSum_pos.mp hpos
    exact h.not_held hf (.page c v) hv
  have hfresh : ∀ i f, tables P' m₂ e i = some f → f ≠ pd ∧ m.pmm.users f = 0 := by
    intro i f ht
    have hne := h₂.table_ne_dir ht he₁
    have := hcl.fresh i f ht
    rw [(hsame f hne).1] at this
    exact ⟨hne, this⟩
  refine ⟨fun f => ?_, fun f v hv => ?_⟩
  · by_cases hpd : f = pd
    · subst hpd
      rw [hzero f (.inl rfl), hu₀, hfree₀ f hu₀]
    · by_cases ht : ∃ i, tables P' m₂ e i = some f
      · obtain ⟨i, hi⟩ := ht
        have hf := (hfresh i f hi).2
        rw [hzero f (.inr ⟨i, hi⟩), hf, hfree₀ f hf]
      · have h₃ := hus f hpd ht
        have h₄ := hcl.users f ht
        have h₅ := freedSum_add_mapAreaSum (P := P) (m := m) (c := c) (f := f)
        rw [hfreed] at h₃
        rw [hsum, (hsame f hpd).1] at h₄
        omega
  · have hpos := h.users_pos (s := .page c v) hv
    have hpd : f ≠ pd := by rintro rfl; omega
    have h₄ := hcl.users f (by rintro ⟨i, hi⟩; have := (hfresh i f hi).2; omega)
    rw [hsum, (hsame f hpd).1] at h₄
    rw [← h₄]
    exact users_le _ _

/-- The three calls end if there are frames for the directory and the page tables and the user
counts stay in their seven bits. -/
theorem cloneAndDestroy_isSome (kpd : KernelDirectory) (h : Owned P R 0 m) (hlook : LookOk m.pmm) (hc : P c = some ps)
    (he : P e = none) (hroom : tableSum P m c userPdes < freeFrames m.pmm)
    (hmax : ∀ f v, maps P m c v = some f → m.pmm.users f + pageSum P m c userPdes f ≤ 127) :
    ∃ m', cloneAndDestroy kpd m ps = some m' := by
  have hce : c ≠ e := by rintro rfl; rw [hc] at he; cases he
  obtain ⟨pd, m₁, hcreate, hlook₁, hfree₁⟩ := create_isSome kpd hlook (by omega)
  obtain ⟨h₁, hts₁, hps₁, hu₀, -, hsame, -, -⟩ := create_spec h he hcreate
  have hc₁ : Function.update P e (some pd) c = some ps := by rw [Function.update_of_ne hce]; exact hc
  have he₁ : Function.update P e (some pd) e = some pd := Function.update_self ..
  have hmaps₁ : maps (Function.update P e (some pd)) m₁ c = maps P m c := by
    funext v; rw [maps, maps, hps₁]
  obtain ⟨m₂, hclone⟩ := clone_isSome h₁ hc₁ he₁ hce (fun i => by rw [hts₁]; simp [tables, he]) hlook₁
    (by rw [tableSum, hts₁, ← tableSum]; omega) fun f v hv => by
      rw [hmaps₁] at hv
      have hpd : f ≠ pd := by
        rintro rfl
        exact h.not_held hu₀ (.page c v) hv
      have hsum : pageSum (Function.update P e (some pd)) m₁ c userPdes f
          = pageSum P m c userPdes f :=
        Finset.sum_congr rfl fun i _ => pageCount_congr (fun v _ => by rw [hmaps₁]) f
      rw [hsum, (hsame f hpd).1]
      exact hmax f v hv
  obtain ⟨h₂, -⟩ := clone_spec h₁ hc₁ he₁ hce (fun i => by rw [hts₁]; simp [tables, he]) hclone
  obtain ⟨m', hm'⟩ := destroy_isSome h₂ he₁
  refine ⟨m', ?_⟩
  rw [cloneAndDestroy, hcreate, Option.bind_some]
  simp only [hclone, Option.bind_some, hm']

/-- **Clone and destruction balance** exactly if no page of the mapping area is mapped (and the user
counts stay in their seven bits). -/
theorem clone_destroy_balanced_iff (h : Owned P R 0 m) (hlook : LookOk m.pmm) (hc : P c = some ps)
    (he : P e = none) (hroom : tableSum P m c userPdes < freeFrames m.pmm) :
    (∃ m', cloneAndDestroy kpd m ps = some m' ∧ ∀ f, m'.pmm.users f = m.pmm.users f) ↔
      (∀ v, inMapArea (v / 1024) → maps P m c v = none) ∧
        ∀ f v, maps P m c v = some f → m.pmm.users f + pageSum P m c userPdes f ≤ 127 := by
  constructor
  · rintro ⟨m', hm, hsame⟩
    obtain ⟨hus, hmax⟩ := clone_destroy_users h hc he hm
    refine ⟨fun v hv => ?_, hmax⟩
    cases hf : maps P m c v with
    | none => rfl
    | some f =>
        have hpos := mapAreaSum_pos.mpr ⟨v, hv, hf⟩
        have h₁ := hus f
        rw [hsame] at h₁
        omega
  · rintro ⟨hnone, hmax⟩
    obtain ⟨m', hm⟩ := cloneAndDestroy_isSome kpd h hlook hc he hroom hmax
    refine ⟨m', hm, fun f => ?_⟩
    rw [(clone_destroy_users h hc he hm).1, Nat.add_eq_left]
    refine Nat.eq_zero_of_not_pos fun hpos => ?_
    obtain ⟨v, hv, hf⟩ := mapAreaSum_pos.mp hpos
    rw [hnone v hv] at hf
    cases hf

/-- A new context in which one frame is mapped at `virt`, in a memory of sixteen frames. -/
theorem one_page {virt : Nat} (hvirt : virt < physBase) : ∃ pd m₁ f m₂ m P,
    (createVmmContextArch .empty (.boot 16) = some (pd, m₁) ∧ m₁.alloc = some (f, m₂) ∧
      vmmcMapUserPage m₂ pd virt f (vmmUr ||| vmmUw) = some m) ∧
    Owned P (fun _ : Unit => none) 0 m ∧ LookOk m.pmm ∧ (P 0 = some pd ∧ P 1 = none) ∧
    m.pmm.users f = 1 ∧ (∀ v, maps P m 0 v = if v = virt / 4096 then some f else none) ∧
    tableSum P m 0 userPdes < freeFrames m.pmm := by
  have hboot : Owned (fun _ => none) (fun _ : Unit => none) 0 (.boot 16) := .init _ (by decide)
  have hsixteen : freeFrames (Mem.boot 16).pmm = 16 := by decide
  obtain ⟨pd, m₁, hcreate, hlook₁, hfree₁⟩ := create_isSome .empty (lookOk_boot 16) (by decide)
  obtain ⟨h₁, hts₁, hps₁, hu₀, -, hsame, -⟩ := create_spec (c := 0) hboot rfl hcreate
  set P : Nat → Option Nat := Function.update (fun _ => none) 0 (some pd) with hP
  have hc : P 0 = some pd := Function.update_self ..
  obtain ⟨f, m₂, ha⟩ := alloc_isSome hlook₁ (by omega)
  have hfree₂ := alloc_freeFrames ha
  obtain ⟨-, -, -, hfu, -, hus₂, -⟩ := alloc_spec ha
  obtain ⟨h₂, hlt⟩ := h₁.alloc ha
  have hone : m₂.pmm.users f = 1 := by rw [hus₂, if_pos rfl]
  have hnot : ¬ Structural P m₂ f := by
    rw [Owned.structural_of_ram (alloc_spec ha).1]
    exact h₁.free_not_structural hfu
  obtain ⟨m₃, hmap, hlook₃, hfree₃⟩ := mapUserPage_isSome pd virt f (vmmUr ||| vmmUw)
    (alloc_lookOk hlook₁ ha) (by omega)
  obtain ⟨h₃, hk, hps, hto⟩ := mapUserPage_spec h₂ hc hmap hlt hnot (by omega)
  rw [sub_add_cancel] at h₃
  refine ⟨pd, m₁, f, m₂, m₃, P, ⟨hcreate, ha, hmap⟩, h₃, hlook₃, ⟨hc, rfl⟩,
    by rw [hk.users f (by omega), hone], fun v => ?_, ?_⟩
  · have hnone : pages P m₂ 0 v = none := by
      rw [(views_of_ram (alloc_spec ha).1).2, hps₁]; rfl
    rw [maps, hps, hnone]
    by_cases hv : v = virt / 4096
    · simp [hv, hvirt, frameOf_entry hlt (isFlags_pageFlags _)]
    · simp [hv]
  · have := tableSum_le_one (P := P) (m := m₃) (c := 0) (k := pdIndex virt) (fun i hi => by
      rw [hto 0 i fun h' => hi h'.2, (views_of_ram (alloc_spec ha).1).1, hts₁]
      rfl) userPdes
    omega

/-- A frame that is mapped once and has one user is far from its limit. -/
theorem users_of_one_page {virt : Nat} (h : Owned P R 0 m) (hone : m.pmm.users f = 1)
    (hmaps : ∀ v, maps P m c v = if v = virt / 4096 then some f else none) {g v : Nat}
    (hg : maps P m c v = some g) : m.pmm.users g + pageSum P m c userPdes g ≤ 127 := by
  rw [hmaps] at hg
  split at hg
  · cases hg
    have := pageSum_le (c := c) h userPdes f
    omega
  · cases hg

/-- A page of a program. -/
theorem clone_destroy_balanced_program :
    ∃ pd m₁ f m₂ m₃ m', createVmmContextArch .empty (.boot 16) = some (pd, m₁) ∧
      m₁.alloc = some (f, m₂) ∧
      vmmcMapUserPage m₂ pd 0x8048000 f (vmmUr ||| vmmUw) = some m₃ ∧ m₃.pmm.users f = 1 ∧
      cloneAndDestroy .empty m₃ pd = some m' ∧ ∀ g, m'.pmm.users g = m₃.pmm.users g := by
  obtain ⟨pd, m₁, f, m₂, m₃, P, ⟨hcreate, ha, hmap⟩, h, hlook, ⟨hc, he⟩, hone, hmaps, hroom⟩ :=
    one_page (by decide : 0x8048000 < physBase)
  have hnone : ∀ v, inMapArea (v / 1024) → maps P m₃ 0 v = none := by
    intro v hv
    rw [hmaps, if_neg]
    rintro rfl
    exact absurd hv (by decide)
  obtain ⟨m', hm', hsame⟩ : ∃ m', cloneAndDestroy .empty m₃ pd = some m' ∧
      ∀ g, m'.pmm.users g = m₃.pmm.users g :=
    (clone_destroy_balanced_iff h hlook hc he hroom).mpr
      ⟨hnone, fun g v => users_of_one_page h hone hmaps⟩
  exact ⟨pd, m₁, f, m₂, m₃, m', hcreate, ha, hmap, hone, hm', hsame⟩

/-- A page of the mapping area, here one frame at its beginning, keeps a reference for good. -/
theorem clone_destroy_leaks :
    ∃ pd m₁ f m₂ m₃ m', createVmmContextArch .empty (.boot 16) = some (pd, m₁) ∧
      m₁.alloc = some (f, m₂) ∧
      vmmcMapUserPage m₂ pd userMapBase f (vmmUr ||| vmmUw) = some m₃ ∧
      cloneAndDestroy .empty m₃ pd = some m' ∧ m₃.pmm.users f = 1 ∧ m'.pmm.users f = 2 := by
  obtain ⟨pd, m₁, f, m₂, m₃, P, ⟨hcreate, ha, hmap⟩, h, hlook, ⟨hc, he⟩, hone, hmaps, hroom⟩ :=
    one_page (by decide : userMapBase < physBase)
  obtain ⟨m', hm'⟩ := cloneAndDestroy_isSome .empty h hlook hc he hroom
    fun g v => users_of_one_page h hone hmaps
  refine ⟨pd, m₁, f, m₂, m₃, m', hcreate, ha, hmap, hm', hone, ?_⟩
  have hsum : 0 < mapAreaSum P m₃ 0 f :=
    mapAreaSum_pos.mpr ⟨userMapBase / 4096, by decide, by rw [hmaps, if_pos rfl]⟩
  have h₄ := (clone_destroy_users h hc he hm').1 f
  have h₅ := freedSum_add_mapAreaSum (P := P) (m := m₃) (c := 0) (f := f)
  have h₆ := pageSum_le (c := 0) h userPdes f
  omega

end Muxomucota.Mmu
