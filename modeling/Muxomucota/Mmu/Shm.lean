import Muxomucota.Mmu.Heap

/-!
# Mmu — shared memory

What the shared-memory functions do to the ownership invariant.  The frames of an object are a
list, so a loop over them moves `fs.count g` references to frame `g`.  A live object may hold
references of its own: those `vmmc_make_shm` took, and those of the last mapping of an object that
is kept alive.
-/

namespace Muxomucota.Mmu
open Memory Pmm Lib

variable {ρ : Type} {P : Nat → Option Nat} {R : ρ → Option Nat} {d d' : Nat → Int} {m m' m₁ : Mem}
  {c c' pd v t f virt start : Nat} {e : BitVec 32} {fs : List Nat}

/-- How many references to each frame are in a list. -/
def counts (fs : List Nat) : Nat → Int := fun g => fs.count g

@[simp] theorem counts_nil : counts [] = 0 := rfl

theorem counts_append (fs gs : List Nat) : counts (fs ++ gs) = counts fs + counts gs := by
  funext g
  simp [counts, List.count_append]

theorem counts_singleton (f : Nat) : counts [f] = one f := by
  funext g
  simp only [counts, List.count_singleton, beq_iff_eq, one_apply, eq_comm (a := f)]
  split <;> rfl

theorem counts_nonneg (fs : List Nat) (g : Nat) : 0 ≤ counts fs g := Int.natCast_nonneg _

theorem counts_pos (h : f ∈ fs) : 0 < counts fs f := by
  have := List.count_pos_iff.mpr h
  simp only [counts]
  omega

theorem counts_eq_zero (h : f ∉ fs) : counts fs f = 0 := by
  simp [counts, List.count_eq_zero_of_not_mem h]

/-! ### Loops over frames -/

/-- A reference to every frame of the list. -/
theorem useAll_spec (h : Owned P R d m) (hfs : ∀ f ∈ fs, ¬ Structural P m f)
    (hm : useAll m fs = some m') :
    Owned P R (d - counts fs) m' ∧ m'.ram = m.ram ∧ (∀ g, m.pmm.users g ≤ m'.pmm.users g) ∧
      (∀ g, g ∉ fs → m'.pmm.users g = m.pmm.users g) := by
  refine foldlM_rule (P := fun pre b => Owned P R (d - counts pre) b ∧ b.ram = m.ram ∧
    (∀ g, m.pmm.users g ≤ b.pmm.users g) ∧ ∀ g, g ∉ pre → b.pmm.users g = m.pmm.users g) hm
    ⟨by simpa using h, rfl, fun _ => le_rfl, fun _ _ => rfl⟩ ?_
  rintro pre f post b b' rfl ⟨hb, hram, hle, heq⟩ hstep
  have hf : ¬ Structural P b f := fun hs =>
    hfs f (by simp) ((Owned.structural_of_ram hram f).mp hs)
  obtain ⟨hram', -, -, -, hu, -⟩ := use_spec hstep
  have hb' := hb.use hf hstep
  rw [sub_sub, ← counts_singleton, ← counts_append] at hb'
  refine ⟨hb', hram'.trans hram, fun g => ?_, fun g hg => ?_⟩
  · rw [hu]
    have := hle g
    split
    · rename_i hgf; subst hgf; omega
    · exact this
  · simp only [List.mem_append, List.mem_singleton, not_or] at hg
    rw [hu, if_neg hg.2, heq g hg.1]

/-- Giving back references that are not stored. -/
theorem freeAll_spec (h : Owned P R d m) (hd : ∀ g ∈ fs, d g + counts fs g ≤ 0)
    (hm : freeAll m fs = some m') :
    Owned P R (d + counts fs) m' ∧ m'.ram = m.ram ∧ ∀ g, m'.pmm.users g ≤ m.pmm.users g := by
  refine foldlM_rule (P := fun pre b => Owned P R (d + counts pre) b ∧ b.ram = m.ram ∧
    ∀ g, b.pmm.users g ≤ m.pmm.users g) hm ⟨by simpa using h, rfl, fun _ => le_rfl⟩ ?_
  rintro pre f post b b' rfl ⟨hb, hram, hle⟩ hstep
  obtain ⟨hram', -, -, hu, -⟩ := free_spec hstep
  have hlast : (d + counts pre) f < 0 := by
    have h₁ := hd f (by simp)
    have h₂ : 0 < counts [f] f := counts_pos (by simp)
    have h₃ := counts_nonneg post f
    rw [← List.singleton_append, counts_append, counts_append] at h₁
    simp only [Pi.add_apply] at h₁ ⊢
    omega
  have hb' := hb.free (fun _ => hlast) hstep
  rw [add_assoc, ← counts_singleton, ← counts_append] at hb'
  refine ⟨hb', hram'.trans hram, fun g => ?_⟩
  have := hle g
  rw [hu]
  split
  · rename_i hgf; subst hgf; omega
  · exact this

/-- No other count changes. -/
theorem freeAll_users (hm : freeAll m fs = some m') (g : Nat) (hg : g ∉ fs) :
    m'.pmm.users g = m.pmm.users g := by
  refine foldlM_invariant (P := fun b => b.pmm.users g = m.pmm.users g) hm rfl ?_
  intro f hf b b' hb hstep
  obtain ⟨-, -, -, hu, -⟩ := free_spec hstep
  rw [hu, if_neg (by rintro rfl; exact hg hf), hb]

theorem useAll_ram {fs : List Nat} (hm : useAll m fs = some m') : m'.ram = m.ram :=
  foldlM_invariant (P := fun b => b.ram = m.ram) hm rfl fun _ _ _ _ hb hstep =>
    (use_spec hstep).1.trans hb

theorem freeAll_ram {fs : List Nat} (hm : freeAll m fs = some m') : m'.ram = m.ram :=
  foldlM_invariant (P := fun b => b.ram = m.ram) hm rfl fun _ _ _ _ hb hstep =>
    (free_spec hstep).1.trans hb

/-- Frames that nobody had. -/
theorem allocAll_spec {n : Nat} (h : Owned P R d m) (hm : allocAll m n = some (fs, m')) :
    Owned P R (d - counts fs) m' ∧ m'.ram = m.ram ∧ Keeps P m m' ∧ fs.length = n ∧
      ∀ f ∈ fs, m.pmm.users f = 0 ∧ m'.pmm.users f ≠ 0 ∧ ¬ Structural P m f ∧ f < 2 ^ 20 := by
  refine foldlM_range_rule (P := fun i (b : List Nat × Mem) => Owned P R (d - counts b.1) b.2 ∧
    b.2.ram = m.ram ∧ Keeps P m b.2 ∧ b.1.length = i ∧ ∀ f ∈ b.1, m.pmm.users f = 0 ∧
      b.2.pmm.users f ≠ 0 ∧ ¬ Structural P m f ∧ f < 2 ^ 20) hm
    ⟨by simpa using h, rfl, .refl _ _, rfl, by simp⟩ ?_
  rintro i ⟨gs, b⟩ r' - ⟨hb, hram, hk, hlen, hgs⟩ hstep
  obtain ⟨⟨f, b'⟩, ha, rfl⟩ := Option.map_eq_some_iff.mp hstep
  obtain ⟨hram', -, -, hu₀, -, hu, -⟩ := alloc_spec ha
  obtain ⟨hb', hlt⟩ := hb.alloc ha
  rw [sub_sub, ← counts_singleton, ← counts_append] at hb'
  have hfree : m.pmm.users f = 0 := by
    by_contra hne
    rw [hk.users f hne] at hu₀
    exact hne hu₀
  refine ⟨hb', hram'.trans hram, hk.trans (keeps_alloc ha), by simp [hlen], fun g hg => ?_⟩
  rcases List.mem_append.mp hg with hg | hg
  · obtain ⟨h₁, h₂, h₃, h₄⟩ := hgs g hg
    refine ⟨h₁, ?_, h₃, h₄⟩
    rw [hu]
    split
    · decide
    · exact h₂
  · obtain rfl := List.mem_singleton.mp hg
    exact ⟨hfree, by rw [hu, if_pos rfl]; decide, h.free_not_structural hfree, hlt⟩

/-- The pages of one context get the frames of a list; no other page changes. -/
structure FramesMapped (P : Nat → Option Nat) (m : Mem) (c : Nat) (fs : List Nat) (m' : Mem) :
    Prop where
  keeps : Keeps P m m'
  other : ∀ c', c' ≠ c → ∀ v, pages P m' c' v = pages P m c' v
  own : ∀ v f, maps P m' c v = some f → maps P m c v = some f ∨ f ∈ fs

theorem FramesMapped.refl (P : Nat → Option Nat) (m : Mem) (c : Nat) (fs : List Nat) :
    FramesMapped P m c fs m :=
  ⟨.refl _ _, fun _ _ _ => rfl, fun _ _ => .inl⟩

/-- The only new pages are pages of `c`, and their entries are new ones. -/
structure NewPages (P : Nat → Option Nat) (m : Mem) (c : Nat) (new : BitVec 32 → Prop) (m' : Mem) :
    Prop where
  other : ∀ c', c' ≠ c → ∀ v, pages P m' c' v = pages P m c' v
  own : ∀ v e, pages P m' c v = some e → pages P m c v = some e ∨ new e

theorem NewPages.of_pages {new : BitVec 32 → Prop} (h : pages P m' = pages P m) :
    NewPages P m c new m' :=
  ⟨fun _ _ _ => by rw [h], fun _ _ he => .inl (h ▸ he)⟩

theorem NewPages.mono {new new' : BitVec 32 → Prop} (h : NewPages P m c new m')
    (hn : ∀ e, new e → new' e) : NewPages P m c new' m' :=
  ⟨h.other, fun v e he => (h.own v e he).imp id (hn e)⟩

theorem NewPages.trans {new : BitVec 32 → Prop} (h₁ : NewPages P m c new m₁)
    (h₂ : NewPages P m₁ c new m') : NewPages P m c new m' where
  other c' hcc v := (h₂.other c' hcc v).trans (h₁.other c' hcc v)
  own v e he := (h₂.own v e he).elim (h₁.own v e) .inr

theorem mapFrames_pages {flags : BitVec 32} (h : Owned P R d m) (hc : P c = some pd)
    (hfs : ∀ f ∈ fs, m.pmm.users f ≠ 0 ∧ ¬ Structural P m f ∧ f < 2 ^ 20)
    (hm : mapFrames m pd start fs flags = some m') :
    Owned P R (d + counts fs) m' ∧ Keeps P m m' ∧
      NewPages P m c (fun e => ∃ f ∈ fs, e = entry f (pageFlags flags)) m' := by
  suffices Owned P R (d + counts (fs.zipIdx.map Prod.fst)) m' ∧ Keeps P m m' ∧
      NewPages P m c (fun e => ∃ f ∈ fs, e = entry f (pageFlags flags)) m' by simpa using this
  refine foldlM_rule (P := fun pre b => Owned P R (d + counts (pre.map Prod.fst)) b ∧ Keeps P m b ∧
    NewPages P m c (fun e => ∃ f ∈ fs, e = entry f (pageFlags flags)) b) hm
    ⟨by simpa using h, .refl _ _, .of_pages rfl⟩ ?_
  rintro pre ⟨f, i⟩ post b b' hsplit ⟨hb, hk, hnew⟩ hstep
  have hmem : f ∈ fs := by
    have hmem : (f, i) ∈ fs.zipIdx := by rw [hsplit]; simp
    exact List.fst_mem_of_mem_zipIdx hmem
  obtain ⟨hu, hst, hlt⟩ := hfs f hmem
  obtain ⟨hb', hk', hp, -⟩ := mapUserPage_spec hb hc hstep hlt (hk.data f hu hst).1
    (by rw [hk.users f hu]; exact hu)
  rw [add_assoc, ← counts_singleton, ← counts_append] at hb'
  refine ⟨by simpa using hb', hk.trans hk', hnew.trans ⟨fun c' hcc v => ?_, fun v e he => ?_⟩⟩
  · rw [hp, if_neg fun h' => hcc h'.1.1]
  · rw [hp] at he
    split at he
    · cases he
      exact .inr ⟨f, hmem, rfl⟩
    · exact .inl he

theorem mapFrames_spec {flags : BitVec 32} (h : Owned P R d m) (hc : P c = some pd)
    (hfs : ∀ f ∈ fs, m.pmm.users f ≠ 0 ∧ ¬ Structural P m f ∧ f < 2 ^ 20)
    (hm : mapFrames m pd start fs flags = some m') :
    Owned P R (d + counts fs) m' ∧ FramesMapped P m c fs m' := by
  obtain ⟨ho, hk, hnew⟩ := mapFrames_pages h hc hfs hm
  refine ⟨ho, hk, hnew.other, fun v g hg => ?_⟩
  obtain ⟨e, he, rfl⟩ := Option.map_eq_some_iff.mp hg
  rcases hnew.own v e he with hold | ⟨f, hf, rfl⟩
  · exact .inl (by rw [maps, hold]; rfl)
  · rw [frameOf_entry (hfs f hf).2.2 (isFlags_pageFlags flags)]
    exact .inr hf

/-! ### Where a list of frames is mapped -/

theorem scanTable_le (m : Mem) (pt pages : Nat) : ∀ n pti size,
    pti ≤ (scanTable m pt pages n pti size).1 ∧ (scanTable m pt pages n pti size).1 ≤ pti + n ∧
      (scanTable m pt pages n pti size).2 + pti ≤ size + (scanTable m pt pages n pti size).1 := by
  intro n
  induction n with
  | zero => intro pti size; simp [scanTable]
  | succ n ih =>
      intro pti size
      rw [scanTable]
      split
      · obtain ⟨h₁, h₂, h₃⟩ := ih (pti + 1) (if isPr (m.entry pt pti) then 0 else size + 1)
        have h₄ : (if isPr (m.entry pt pti) then 0 else size + 1) ≤ size + 1 := by
          split <;> omega
        omega
      · simp

/-- The block found ends in the directory entry where the search stopped, and it does not begin
before the area that was searched. -/
theorem scanDir_le (m : Mem) (pd pages b : Nat) : ∀ n pdi pti size, b ≤ pdi → pti ≤ 1024 →
    size ≤ (pdi - b) * 1024 →
    pdi ≤ (scanDir m pd pages n pdi pti size).1 ∧ (scanDir m pd pages n pdi pti size).1 ≤ pdi + n ∧
      (scanDir m pd pages n pdi pti size).2.1 ≤ 1024 ∧
      (scanDir m pd pages n pdi pti size).2.2 ≤
        ((scanDir m pd pages n pdi pti size).1 - b + 1) * 1024 := by
  intro n
  induction n with
  | zero => intro pdi pti size hb hpti hsize; simp only [scanDir]; omega
  | succ n ih =>
      intro pdi pti size hb hpti hsize
      obtain ⟨r, hpti', hsize', hr⟩ : ∃ r : Nat × Nat, r.1 ≤ 1024 ∧ r.2 ≤ size + 1024 ∧
          scanDir m pd pages (n + 1) pdi pti size =
            if pages ≤ r.2 then (pdi, r.1, r.2) else scanDir m pd pages n (pdi + 1) r.1 r.2 := by
        refine ⟨_, ?_, ?_, rfl⟩ <;> have := scanTable_le m (frameOf (m.entry pd pdi)) pages 1024 0 size
          <;> split <;> omega
      rw [hr]
      split
      · simp only [le_refl, true_and]
        omega
      · have := ih (pdi + 1) r.1 r.2 (by omega) hpti' (by omega)
        omega

theorem mapSgStart_spec {n : Nat} (h : mapSgStart m pd n = some start) :
    start ≠ 0 ∧ start % 4096 = 0 ∧ start < 2 ^ 32 := by
  unfold mapSgStart at h
  obtain ⟨h₁, h₂, h₃, h₄⟩ := scanDir_le m pd n (userMapBase / 0x400000)
    ((physBase - userMapBase) / 0x400000) (userMapBase / 0x400000) 0 0 le_rfl (by omega) (by omega)
  generalize scanDir m pd n ((physBase - userMapBase) / 0x400000) (userMapBase / 0x400000) 0 0 = r
    at h h₁ h₂ h₃ h₄
  obtain ⟨pdi, pti, size⟩ := r
  dsimp only at h h₁ h₂ h₃ h₄
  split at h
  · cases h
  · cases h
    have hlo : pdi * 0x400000 ≤ pdi * 0x400000 ||| pti * 0x1000 := Nat.left_le_or
    have hmod : (pdi * 0x400000 ||| pti * 0x1000) % 2 ^ 12 = 0 := by
      rw [Nat.or_mod_two_pow, show pdi * 0x400000 % 2 ^ 12 = 0 by omega,
        show pti * 0x1000 % 2 ^ 12 = 0 by omega]
      rfl
    simp only [physBase, userMapBase] at h₁ h₂ h₄
    have hhi : pdi * 0x400000 ||| pti * 0x1000 < 2 ^ 32 :=
      Nat.or_lt_two_pow (by omega) (by omega)
    generalize pdi * 0x400000 ||| pti * 0x1000 = blockEnd at *
    refine ⟨by omega, by omega, by omega⟩

theorem userMapSg_spec {flags : BitVec 32} (h : Owned P R d m) (hc : P c = some pd)
    (hfs : ∀ f ∈ fs, m.pmm.users f ≠ 0 ∧ ¬ Structural P m f ∧ f < 2 ^ 20)
    (hm : vmmcUserMapSg m pd fs flags = some (start, m')) :
    (start = 0 ∧ m' = m) ∨ ((∀ offset < 4096, (start + offset) % 2 ^ 32 ≠ 0) ∧
      Owned P R (d + counts fs) m' ∧ FramesMapped P m c fs m') := by
  unfold vmmcUserMapSg at hm
  split at hm
  · cases hm
    exact .inl ⟨rfl, rfl⟩
  · rename_i s hs
    obtain ⟨b, hb, hm⟩ := Option.map_eq_some_iff.mp hm
    cases hm
    obtain ⟨h₁, h₂, h₃⟩ := mapSgStart_spec hs
    exact .inr ⟨fun offset hoff => by omega, mapFrames_spec h hc hfs hb⟩

/-! ### Taking pages of a process -/

/-- The page is present, and nothing but the reference count of its frame changes. -/
theorem takeShmPage_spec (h : Owned P R d m) (hc : P c = some pd)
    (hm : takeShmPage m pd virt = some (f, m')) :
    virt < physBase ∧ Owned P R (d - one f) m' ∧ Extended P m m' ∧ pages P m' = pages P m ∧
      maps P m c (virt / 4096) = some f := by
  simp only [takeShmPage] at hm
  split at hm
  · cases hm
  · rename_i hflags
    split at hm
    · cases hm
    · rename_i ha
      have ha : virt < physBase := not_not.mp ha
      split at hm
      · cases hm
      · obtain ⟨b, hu, hm⟩ := Option.map_eq_some_iff.mp hm
        cases hm
        cases hp : pages P m c (virt / 4096) with
        | none =>
            rw [addressMapped_none hc ha hp] at hflags
            exact absurd (by decide) hflags
        | some e =>
            obtain ⟨-, hfr⟩ := addressMapped_some hc hp
            have hmaps : maps P m c (virt / 4096) = some (vmmcAddressMapped m pd virt).2 := by
              rw [maps, hp, hfr]; rfl
            obtain ⟨hram, -, hpos, -, hus, -⟩ := use_spec hu
            have hpages := (views_of_ram (P := P) hram).2
            refine ⟨ha, h.use (h.not_structural hmaps) hu, .of_pages hpages fun g hg => ?_,
              hpages, hmaps⟩
            rw [hus]
            split <;> omega

/-- One page of `vmmc_make_shm`. -/
theorem makeShmPage_spec (h : Owned P R d m) (hc : P c = some pd)
    (hm : makeShmPage m pd virt = some (f, m')) :
    Owned P R (d - one f) m' ∧ Extended P m m' ∧
      (∀ c' v g, maps P m c' v = some g → maps P m' c' v = some g) ∧
      maps P m' c (virt / 4096) = some f := by
  unfold makeShmPage at hm
  split at hm
  · rw [Option.bind_eq_some_iff] at hm
    obtain ⟨⟨done, b⟩, hb, hm⟩ := hm
    dsimp only at hm
    split at hm
    · have ha : virt < physBase := by
        by_contra ha
        simp [takeShmPage, ha] at hm
      obtain ⟨hob, hl⟩ := lazyMap_spec h hc ha hb
      obtain ⟨-, ho, hx, hpg, hf⟩ := takeShmPage_spec hob hc hm
      have hext : Extended P m b ∧ ∀ c' v g, maps P m c' v = some g → maps P b c' v = some g := by
        rcases hl with ⟨-, hpages, hk⟩ | ⟨-, g, w, hl⟩
        · refine ⟨.of_pages hpages hk.inUse, fun c' v g hg => ?_⟩
          rwa [maps, hpages]
        · refine ⟨.of_page hl.keeps hl.free hl.names fun c' v' => ?_, fun c' v g' hg => ?_⟩
          · rw [hl.mapped]
            split
            · exact .inl rfl
            · exact .inr rfl
          · rw [maps, hl.mapped, if_neg]
            · exact hg
            · rintro ⟨rfl, rfl⟩
              rw [maps, hl.absent] at hg
              cases hg
      refine ⟨ho, hext.1.trans hx, fun c' v g hg => ?_, ?_⟩
      · rw [maps, hpg]
        exact hext.2 c' v g hg
      · rwa [maps, hpg]
    · cases hm
  · obtain ⟨-, ho, hx, hpg, hf⟩ := takeShmPage_spec h hc hm
    refine ⟨ho, hx, fun c' v g hg => ?_, ?_⟩
    · rwa [maps, hpg]
    · rwa [maps, hpg]

/-- `vmmc_make_shm` takes one reference to every frame of the object. -/
theorem makeShm_spec {areas : List (Nat × Int)} {offset : Nat} {sg : ShmSg} (h : Owned P R d m)
    (hc : P c = some pd) (hm : vmmcMakeShm m pd areas offset = some (sg, m')) :
    Owned P R (d - counts sg.phys) m' ∧ Extended P m m' ∧
      sg.phys.length = (makeShmPages areas).length ∧
      ∀ f ∈ sg.phys, ∃ v, maps P m' c v = some f := by
  obtain ⟨r, hr, hm⟩ := Option.map_eq_some_iff.mp hm
  cases hm
  refine foldlM_rule (P := fun pre (b : List Nat × Mem) => Owned P R (d - counts b.1) b.2 ∧
    Extended P m b.2 ∧ b.1.length = pre.length ∧ ∀ f ∈ b.1, ∃ v, maps P b.2 c v = some f) hr
    ⟨by simpa using h, .refl _ _, rfl, by simp⟩ ?_
  rintro pre virt post ⟨gs, b⟩ b' - ⟨hb, hx, hlen, hgs⟩ hstep
  obtain ⟨⟨f, b₁⟩, hb₁, rfl⟩ := Option.map_eq_some_iff.mp hstep
  obtain ⟨ho, hx', hold, hf⟩ := makeShmPage_spec hb hc hb₁
  rw [sub_sub, ← counts_singleton, ← counts_append] at ho
  refine ⟨ho, hx.trans hx', by simp [hlen], fun g hg => ?_⟩
  rcases List.mem_append.mp hg with hg | hg
  · obtain ⟨v, hv⟩ := hgs g hg
    exact ⟨v, hold c v g hv⟩
  · obtain rfl := List.mem_singleton.mp hg
    exact ⟨_, hf⟩

/-! ### Opening -/

theorem frames_eq {sg : ShmSg} (h : sg.phys.length = sg.pages) : sg.frames = sg.phys := by
  rw [ShmSg.frames, List.take_of_length_le (by omega)]

/-- Opening an object that has users or is kept alive maps its frames; unless it was kept alive,
the mapping has references of its own. -/
theorem openShm_live {sg sg' : ShmSg} {flags : BitVec 32} {ret : Nat} (h : Owned P R 0 m)
    (hc : P c = some pd) (hlive : sg.keptAlive = true ∨ sg.users ≠ 0) (hoff : sg.offset < 4096)
    (hfs : ∀ f ∈ sg.frames, m.pmm.users f ≠ 0 ∧ ¬ Structural P m f ∧ f < 2 ^ 20)
    (hm : vmmcOpenShm m pd sg flags = some (ret, sg', m')) :
    (∀ g, m.pmm.users g ≠ 0 → m'.pmm.users g ≠ 0) ∧
    ((ret = 0 ∧ sg' = sg ∧ m' = m) ∨
      (ret ≠ 0 ∧ sg' = { sg with keptAlive := false, users := sg.users + 1 } ∧
        (∃ d, Owned P R d m' ∧ ∀ g, d g ≤ if sg.keptAlive then counts sg.frames g else 0) ∧
        (∀ c', c' ≠ c → ∀ v, maps P m' c' v = maps P m c' v) ∧
        ∀ v f, maps P m' c v = some f → maps P m c v = some f ∨ f ∈ sg.frames)) := by
  unfold vmmcOpenShm at hm
  rw [if_pos hlive, Option.bind_eq_some_iff] at hm
  obtain ⟨⟨start, m₁⟩, hmap, hm⟩ := hm
  -- the mapping, with its references still to be taken
  obtain ⟨d₁, h₁, hd₁, hk, hzero⟩ : ∃ d₁, Owned P R d₁ m₁ ∧ (∀ g, d₁ g ≤ counts sg.frames g) ∧
      FramesMapped P m c sg.frames m₁ ∧ ((start + sg.offset) % 2 ^ 32 = 0 → m₁ = m) := by
    rcases userMapSg_spec h hc hfs hmap with ⟨rfl, rfl⟩ | ⟨hne, h₁, hk⟩
    · exact ⟨0, h, counts_nonneg _, .refl _ _ _ _, fun _ => rfl⟩
    · exact ⟨_, h₁, fun g => by simp, hk, fun h₀ => absurd h₀ (hne _ hoff)⟩
  have hmaps : ∀ b : Mem, b.ram = m₁.ram → (∀ c', c' ≠ c → ∀ v, maps P b c' v = maps P m c' v) ∧
      ∀ v f, maps P b c v = some f → maps P m c v = some f ∨ f ∈ sg.frames := by
    intro b hb
    have hp := (views_of_ram (P := P) hb).2
    refine ⟨fun c' hcc v => by rw [maps, hp, hk.other c' hcc, maps], fun v f hf => ?_⟩
    rw [maps, hp] at hf
    exact hk.own v f hf
  dsimp only at hm
  split at hm
  · rename_i h₀
    cases hm
    exact ⟨hk.keeps.inUse, .inl ⟨rfl, rfl, hzero h₀⟩⟩
  · rename_i hne
    split at hm
    · rename_i hkept
      cases hm
      exact ⟨hk.keeps.inUse, .inr ⟨hne, rfl, ⟨d₁, h₁, by simpa [hkept] using hd₁⟩, hmaps m' rfl⟩⟩
    · rename_i hkept
      obtain ⟨b, hb, hm⟩ := Option.map_eq_some_iff.mp hm
      cases hm
      have hst : ∀ f ∈ sg.frames, ¬ Structural P m₁ f := fun f hf =>
        (hk.keeps.data f (hfs f hf).1 (hfs f hf).2.1).1
      obtain ⟨h₂, hram, hle, -⟩ := useAll_spec h₁ hst hb
      refine ⟨fun g hg => ?_, .inr ⟨hne, ?_, ⟨_, h₂, fun g => ?_⟩, hmaps m' hram⟩⟩
      · have h₃ := hk.keeps.inUse g hg
        have h₄ := hle g
        omega
      · cases sg; simp_all
      · have := hd₁ g
        rw [if_neg hkept, Pi.sub_apply]
        omega

/-- Opening an object without users gives it frames that nobody had. -/
theorem openShm_fresh {sg sg' : ShmSg} {flags : BitVec 32} {ret : Nat} (h : Owned P R 0 m)
    (hc : P c = some pd) (hlive : ¬ (sg.keptAlive = true ∨ sg.users ≠ 0)) (hoff : sg.offset < 4096)
    (hm : vmmcOpenShm m pd sg flags = some (ret, sg', m')) :
    Extended P m m' ∧ (∃ d, Owned P R d m' ∧ ∀ g, d g ≤ 0) ∧ sg'.phys.length = sg.pages ∧
      (∀ f ∈ sg'.phys, m.pmm.users f = 0 ∧ f < 2 ^ 20) ∧
      (sg' = { sg with phys := sg'.phys } ∧ ret = 0 ∨
        sg' = { sg with phys := sg'.phys, users := sg.users + 1 } ∧ ret ≠ 0) := by
  unfold vmmcOpenShm at hm
  rw [if_neg hlive, Option.bind_eq_some_iff] at hm
  obtain ⟨⟨fs, m₀⟩, halloc, hm⟩ := hm
  obtain ⟨h₀, hram₀, hk₀, hlen, hfs⟩ := allocAll_spec h halloc
  dsimp only at hm
  rw [Option.bind_eq_some_iff] at hm
  obtain ⟨⟨start, m₁⟩, hmap, hm⟩ := hm
  have hpages₀ := (views_of_ram (P := P) hram₀).2
  obtain ⟨d₁, h₁, hd₁, hx, hzero⟩ : ∃ d₁, Owned P R d₁ m₁ ∧ (∀ g, d₁ g ≤ 0) ∧ Extended P m m₁ ∧
      ((start + sg.offset) % 2 ^ 32 = 0 → m₁ = m₀ ∧ d₁ = 0 - counts fs) := by
    have hfs₀ : ∀ f ∈ fs, m₀.pmm.users f ≠ 0 ∧ ¬ Structural P m₀ f ∧ f < 2 ^ 20 := fun f hf =>
      ⟨(hfs f hf).2.1, fun hs => (hfs f hf).2.2.1 ((Owned.structural_of_ram hram₀ f).mp hs),
        (hfs f hf).2.2.2⟩
    rcases userMapSg_spec h₀ hc hfs₀ hmap with ⟨rfl, rfl⟩ | ⟨hne, h₁, hk⟩
    · refine ⟨_, h₀, fun g => ?_, .of_pages hpages₀ hk₀.inUse, fun _ => ⟨rfl, rfl⟩⟩
      have := counts_nonneg fs g
      simp
      omega
    · rw [sub_add_cancel] at h₁
      refine ⟨_, h₁, fun _ => le_rfl, ⟨(hk₀.trans hk.keeps).inUse, fun c' v f hf => ?_⟩,
        fun hz => absurd hz (hne _ hoff)⟩
      by_cases hcc : c' = c
      · subst hcc
        rcases hk.own v f hf with hf | hf
        · rw [maps, hpages₀] at hf
          exact .inl hf
        · exact .inr (hfs f hf).1
      · rw [maps, hk.other c' hcc, hpages₀] at hf
        exact .inl hf
  have hnew : ∀ f ∈ fs, m.pmm.users f = 0 ∧ f < 2 ^ 20 := fun f hf =>
    ⟨(hfs f hf).1, (hfs f hf).2.2.2⟩
  split at hm
  · rename_i hz
    obtain ⟨b, hb, hm⟩ := Option.map_eq_some_iff.mp hm
    cases hm
    obtain ⟨rfl, rfl⟩ := hzero hz
    obtain ⟨h₂, hram, hle⟩ := freeAll_spec h₁ (fun g _ => by simp) hb
    rw [sub_add_cancel] at h₂
    refine ⟨.of_pages (by rw [(views_of_ram hram).2, hpages₀]) fun g hg => ?_,
      ⟨_, h₂, fun _ => le_rfl⟩, hlen, hnew, .inl ⟨rfl, rfl⟩⟩
    have hnot : g ∉ fs := fun hmem => hg (hnew g hmem).1
    rw [freeAll_users hb g hnot]
    exact hk₀.inUse g hg
  · rename_i hne
    cases hm
    exact ⟨hx, ⟨_, h₁, hd₁⟩, hlen, hnew, .inr ⟨rfl, hne⟩⟩

/-! ### One page -/

/-- Where the mapping area is empty, a single page comes first. -/
theorem mapSgStart_base (hc : P c = some pd) (hno : pages P m c (userMapBase / 4096) = none) :
    mapSgStart m pd 1 = some userMapBase := by
  have hscan : ∀ n, scanDir m pd 1 (n + 1) (userMapBase / 0x400000) 0 0 =
      if isPr (m.entry pd (userMapBase / 0x400000)) then (userMapBase / 0x400000, 1, 1)
      else (userMapBase / 0x400000, 1024, 1024) := by
    intro n
    rw [scanDir]
    split
    · rename_i hpr
      have hpte : isPr (m.entry (frameOf (m.entry pd (userMapBase / 0x400000))) 0) = false := by
        by_contra hpte
        have hpte := Bool.eq_true_of_not_eq_false hpte
        rw [pages_eq_bind, tables_eq hc, show m.table pd (userMapBase / 4096 / 1024) =
          some (frameOf (m.entry pd (userMapBase / 0x400000))) from
            table_eq_some.mpr ⟨by decide, hpr, rfl⟩, Option.bind_some, present_eq_none] at hno
        rw [show userMapBase / 4096 % 1024 = 0 by decide, hpte] at hno
        cases hno
      have htab : scanTable m (frameOf (m.entry pd (userMapBase / 0x400000))) 1 1024 0 0 = (1, 1) := by
        rw [show (1024 : Nat) = 1022 + 1 + 1 from rfl]
        simp [scanTable, hpte]
      rw [htab]
      rfl
    · rfl
  unfold mapSgStart
  rw [show (physBase - userMapBase) / 0x400000 = 191 + 1 by decide, hscan]
  by_cases hpr : isPr (m.entry pd (userMapBase / 0x400000)) = true
  · rw [if_pos hpr]; decide
  · rw [if_neg hpr]; decide

/-- `vmmc_user_map_sg` of a single frame into an empty mapping area. -/
theorem userMapSg_one {f : Nat} (flags : BitVec 32) (hc : P c = some pd)
    (hno : pages P m c (userMapBase / 4096) = none) (hlook : LookOk m.pmm)
    (hroom : 0 < freeFrames m.pmm) :
    ∃ m', vmmcMapUserPageUnlocked m pd userMapBase f flags = some m' ∧
      vmmcUserMapSg m pd [f] flags = some (userMapBase, m') ∧ LookOk m'.pmm ∧
      freeFrames m.pmm ≤ freeFrames m'.pmm + 1 := by
  obtain ⟨m', hm', hlook', hfree'⟩ := mapUserPage_isSome pd userMapBase f flags hlook hroom
  refine ⟨m', hm', ?_, hlook', hfree'⟩
  have hloop : mapFrames m pd userMapBase [f] flags = some m' := by
    unfold mapFrames
    simp only [List.zipIdx_cons, List.zipIdx_nil, List.foldlM_cons, List.foldlM_nil]
    rw [show (userMapBase + 0 * 4096) % 2 ^ 32 = userMapBase by decide, hm']
    rfl
  unfold vmmcUserMapSg
  rw [List.length_singleton, mapSgStart_base hc hno]
  simp only [hloop, Option.map_some]

/-- `vmmc_make_shm` of a single page that is there. -/
theorem makeShm_one (hc : P c = some pd) (hp : pages P m c (virt / 4096) = some e)
    (hus : isUs e = true) (ha : virt < physBase) (hvirt : virt % 4096 = 0)
    (hu : 0 < m.pmm.users (frameOf e)) (hmax : m.pmm.users (frameOf e) < 127) :
    ∃ m', m.use (frameOf e) = some m' ∧ vmmcMakeShm m pd [(virt, 1)] 0 =
      some (⟨4096, 1, 0, false, [frameOf e]⟩, m') := by
  obtain ⟨hne, hfr⟩ := addressMapped_some hc hp
  obtain ⟨m', hm'⟩ := use_isSome (f := frameOf e) hu hmax
  have halloced : pmmAlloced m.pmm (frameOf e) ≠ false := by
    have hlt : m.pmm.users (frameOf e) < bitmapUsers.toNat := hmax
    simp [pmmAlloced, pmmUserCount, hlt]
    omega
  have hpage : makeShmPage m pd virt = some (frameOf e, m') := by
    rw [makeShmPage, if_neg hne, takeShmPage]
    simp only [hfr]
    rw [if_neg (addressMapped_user hc hp hus), if_neg (not_not.mpr ha), if_neg halloced, hm']
    rfl
  have hpages : makeShmPages [(virt, 1)] = [virt] := by
    have hdiv : (virt / 4096 * 4096 + 0 * 4096) % 2 ^ 32 = virt := by
      simp only [physBase] at ha
      omega
    simp only [makeShmPages, List.flatMap_cons, List.flatMap_nil, List.append_nil, Int.toNat_one,
      List.range_one, List.map_cons, List.map_nil, hdiv]
  refine ⟨m', hm', ?_⟩
  rw [vmmcMakeShm, hpages, List.foldlM_cons, hpage]
  rfl

/-- `vmmc_open_shm` of an object with a single frame, into an empty mapping area. -/
theorem openShm_one {f : Nat} (flags : BitVec 32) (h : Owned P R d m) (hc : P c = some pd)
    (hno : pages P m c (userMapBase / 4096) = none) (hlook : LookOk m.pmm)
    (hroom : 0 < freeFrames m.pmm) (hlt : f < 2 ^ 20) (hf : ¬ Structural P m f)
    (hu : 0 < m.pmm.users f) (hmax : m.pmm.users f < 127) :
    ∃ m₁ m', vmmcMapUserPageUnlocked m pd userMapBase f flags = some m₁ ∧ m₁.use f = some m' ∧
      vmmcOpenShm m pd ⟨4096, 1, 0, false, [f]⟩ flags =
        some (userMapBase, ⟨4096, 2, 0, false, [f]⟩, m') := by
  obtain ⟨m₁, hm₁, hsg, -, -⟩ := userMapSg_one (f := f) flags hc hno hlook hroom
  obtain ⟨-, hk, -⟩ := mapUserPage_spec h hc hm₁ hlt hf (by omega)
  have hu₁ := hk.users f (by omega)
  obtain ⟨m', hm'⟩ := use_isSome (m := m₁) (f := f) (by omega) (by omega)
  refine ⟨m₁, m', hm₁, hm', ?_⟩
  have hlive : (⟨4096, 1, 0, false, [f]⟩ : ShmSg).keptAlive = true ∨
      (⟨4096, 1, 0, false, [f]⟩ : ShmSg).users ≠ 0 := .inr one_ne_zero
  have hframes : (⟨4096, 1, 0, false, [f]⟩ : ShmSg).frames = [f] :=
    frames_eq (by simp [ShmSg.pages, pagesOf])
  have hall : useAll m₁ [f] = some m' := by
    rw [useAll, List.foldlM_cons, hm']
    rfl
  unfold vmmcOpenShm
  rw [if_pos hlive, hframes, hsg, Option.bind_some]
  simp only [hall]
  rw [if_neg (by decide)]
  rfl

end Muxomucota.Mmu
