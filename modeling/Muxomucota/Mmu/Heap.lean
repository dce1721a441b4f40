import Muxomucota.Mmu.Contexts
import Muxomucota.Mmu.Unmap

/-!
# Mmu — the heap of a process

What `context_sbrk` does to the ownership invariant.  Growing takes a frame for every page that has
none.  Shrinking gives the frame of a page back *before* it unmaps the page; that is the same as the
other order as long as `vmmc_user_unmap` really unmaps, which it does not do for the last page of a
page table (`userUnmap_last`).
-/

namespace Muxomucota.Mmu
open Memory Pmm Lib

variable {ρ : Type} {P : Nat → Option Nat} {R : ρ → Option Nat} {d : Nat → Int} {m m' m₁ : Mem}
  {c c' pd pdi pti v t f virt page : Nat} {e : BitVec 32}

/-! ### Queries -/

theorem addressMapped_none (hc : P c = some pd) (ha : virt < physBase)
    (h : pages P m c (virt / 4096) = none) : vmmcAddressMapped m pd virt = (0, 0) := by
  rw [pages_eq hc, Mem.pte, page_div, page_mod, Mem.table, if_pos (pdIndex_lt ha)] at h
  unfold vmmcAddressMapped
  by_cases hpr : isPr (m.entry pd (pdIndex virt)) = true
  · have hno : isPr (m.entry (frameOf (m.entry pd (pdIndex virt))) (ptIndex virt)) = false := by
      simpa [present, hpr] using h
    simp [hno]
  · simp [hpr]

theorem addressMapped_some (hc : P c = some pd) (h : pages P m c (virt / 4096) = some e) :
    (vmmcAddressMapped m pd virt).1 ≠ 0 ∧ (vmmcAddressMapped m pd virt).2 = frameOf e := by
  obtain ⟨t, ht, hpr, he⟩ := pages_eq_some.mp h
  rw [page_div, tables_eq hc] at ht
  rw [page_mod] at he
  obtain ⟨-, hpde, rfl⟩ := table_eq_some.mp ht
  unfold vmmcAddressMapped
  simp only [hpde, he, hpr, not_true_eq_false, if_false, and_true]
  split <;> decide

theorem addressMapped_user (hc : P c = some pd) (h : pages P m c (virt / 4096) = some e)
    (hus : isUs e = true) : (vmmcAddressMapped m pd virt).1 &&& (vmmUr ||| vmmUw) ≠ 0 := by
  obtain ⟨t, ht, hpr, he⟩ := pages_eq_some.mp h
  rw [page_div, tables_eq hc] at ht
  rw [page_mod] at he
  obtain ⟨-, hpde, rfl⟩ := table_eq_some.mp ht
  unfold vmmcAddressMapped
  simp only [hpde, he, hpr, hus, not_true_eq_false, if_false]
  cases isRw e <;> decide

/-! ### Growing -/

/-- A page keeps its frame, or gets one that nobody had; no frame in use is given back. -/
structure Extended (P : Nat → Option Nat) (m m' : Mem) : Prop where
  inUse : ∀ g, m.pmm.users g ≠ 0 → m'.pmm.users g ≠ 0
  fresh : ∀ c v f, maps P m' c v = some f → maps P m c v = some f ∨ m.pmm.users f = 0

theorem Extended.of_pages (h : pages P m' = pages P m)
    (hu : ∀ g, m.pmm.users g ≠ 0 → m'.pmm.users g ≠ 0) : Extended P m m' where
  inUse := hu
  fresh c v f hf := by
    rw [maps, h] at hf
    exact .inl hf

theorem Extended.refl (P : Nat → Option Nat) (m : Mem) : Extended P m m := .of_pages rfl fun _ => id

theorem Extended.trans (h₁ : Extended P m m₁) (h₂ : Extended P m₁ m') : Extended P m m' where
  inUse g hg := h₂.inUse g (h₁.inUse g hg)
  fresh c v f hf := by
    rcases h₂.fresh c v f hf with hf | hf
    · exact h₁.fresh c v f hf
    · exact .inr (by_contra fun hu => h₁.inUse f hu hf)

theorem Keeps.inUse (h : Keeps P m m') (g : Nat) (hg : m.pmm.users g ≠ 0) :
    m'.pmm.users g ≠ 0 := by
  rwa [h.users g hg]

/-- One page gets a frame that nobody had. -/
theorem Extended.of_page {w : BitVec 32} (hk : Keeps P m m') (hu₀ : m.pmm.users f = 0)
    (hw : frameOf w = f)
    (hp : ∀ c' v', pages P m' c' v' = some w ∨ pages P m' c' v' = pages P m c' v') :
    Extended P m m' where
  inUse := hk.inUse
  fresh c' v' g hg := by
    rcases hp c' v' with h | h
    · rw [maps, h, Option.map_some, hw] at hg
      cases hg
      exact .inr hu₀
    · rw [maps, h] at hg
      exact .inl hg

/-- A page fault moves a page to a new frame at most. -/
theorem Faulted.extended {address : Nat} {write : Bool} (h : Faulted P m m' c address write) :
    Extended P m m' := by
  cases h with
  | nothing same keeps => exact .of_pages same keeps.inUse
  | fresh f w h =>
      refine .of_page h.keeps h.free h.names fun c' v' => ?_
      rw [h.mapped]
      split
      · exact .inl rfl
      · exact .inr rfl
  | sole e _ page _ _ h =>
      refine ⟨fun g hg => by rwa [h.users], fun c' v' g hg => .inl ?_⟩
      rw [maps, h.mapped] at hg
      split at hg
      · rename_i hcv
        obtain ⟨rfl, rfl⟩ := hcv
        rw [maps, page]
        simpa using hg
      · exact hg
  | copied e f _ _ _ _ h =>
      have hsh := h.shared
      refine ⟨fun g hg => ?_, fun c' v' g hg => ?_⟩
      · rw [h.users]
        split
        · decide
        · split
          · rename_i hge
            rw [hge]
            omega
          · exact hg
      · rw [maps, h.mapped] at hg
        split at hg
        · rw [Option.map_some, frameOf_entry h.small (by decide)] at hg
          cases hg
          exact .inr h.free
        · exact .inl hg

/-- The page of `virt` in context `c` gets the new frame `f`, if it is below the kernel. -/
structure NewPage (P : Nat → Option Nat) (m m' : Mem) (c virt f : Nat) (w : BitVec 32) : Prop where
  free : m.pmm.users f = 0
  names : frameOf w = f
  users : m'.pmm.users f = 1
  cow : m'.pmm.cow f = false
  mapped : ∀ c' v, pages P m' c' v =
    if (c' = c ∧ v = virt / 4096) ∧ virt < physBase then some w else pages P m c' v
  keeps : Keeps P m m'

theorem NewPage.extended {w : BitVec 32} (h : NewPage P m m' c virt f w) : Extended P m m' :=
  .of_page h.keeps h.free h.names fun c' v' => by
    rw [h.mapped]
    split
    · exact .inl rfl
    · exact .inr rfl

/-- A new frame, with any contents `m₂` gives it, in a page. -/
theorem freshPage_spec {m₂ : Mem} {flags : BitVec 32} (h : Owned P R d m) (hc : P c = some pd)
    (ha : m.alloc = some (f, m₁)) (hp₂ : m₂.pmm = m₁.pmm) (hr₂ : ∀ g, g ≠ f → m₂.ram g = m₁.ram g)
    (hm : vmmcMapUserPageUnlocked m₂ pd virt f flags = some m') :
    Owned P R d m' ∧ NewPage P m m' c virt f (entry f (pageFlags flags)) := by
  obtain ⟨hram, -, -, hu₀, hcow₀, hu, hcow⟩ := alloc_spec ha
  obtain ⟨h₁, hlt⟩ := h.alloc ha
  have hf : ¬ Structural P m₁ f := fun hs =>
    h.free_not_structural hu₀ ((Owned.structural_of_ram hram f).mp hs)
  have hdata : ∀ g, Structural P m₁ g → m₂.ram g = m₁.ram g := fun g hg =>
    hr₂ g (by rintro rfl; exact hf hg)
  obtain ⟨hts₂, hps₂⟩ := views_of_data hdata
  have hf₂ : ¬ Structural P m₂ f := fun hs => hf ((structural_congr hts₂ f).mp hs)
  have hk₁ := keeps_alloc (P := P) ha
  have hk₂ : Keeps P m m₂ := by
    refine ⟨fun g hg => by rw [hp₂, hk₁.users g hg], fun g => by rw [hp₂, hk₁.cow],
      fun g hg hs => ⟨fun hs' => ?_, ?_⟩, by rw [hp₂]; exact hk₁.frames⟩
    · exact (hk₁.data g hg hs).1 ((structural_congr hts₂ g).mp hs')
    · rw [hr₂ g (by rintro rfl; exact hg hu₀), hram]
  have hu₂ : m₂.pmm.users f = 1 := by rw [hp₂, hu, if_pos rfl]
  obtain ⟨h₃, hk, hp, -⟩ := mapUserPage_spec (h₁.data hp₂ hdata) hc hm hlt hf₂ (by rw [hu₂]; decide)
  rw [sub_add_cancel] at h₃
  rw [hps₂, (views_of_ram hram).2] at hp
  exact ⟨h₃, hu₀, frameOf_entry hlt (isFlags_pageFlags flags),
    by rw [hk.users f (by rw [hu₂]; decide), hu₂], by rw [hk.cow, hp₂, hcow, hcow₀], hp, hk₂.trans hk⟩

/-- One page of a growing heap. -/
theorem growPage_spec (h : Owned P R d m) (hc : P c = some pd)
    (hm : growPage m pd page = some m') : Owned P R d m' ∧ Extended P m m' := by
  unfold growPage at hm
  split at hm
  · rw [Option.bind_eq_some_iff] at hm
    obtain ⟨⟨f, m₁⟩, ha, hm⟩ := hm
    obtain ⟨h₁, hn⟩ := freshPage_spec h hc ha rfl (fun _ _ => rfl) hm
    exact ⟨h₁, hn.extended⟩
  · cases hm
    exact ⟨h, .refl _ _⟩

theorem growRange_spec {l : List Nat} (h : Owned P R d m) (hc : P c = some pd)
    (hm : l.foldlM (fun m page => growPage m pd page) m = some m') :
    Owned P R d m' ∧ Extended P m m' := by
  refine foldlM_invariant (P := fun b => Owned P R d b ∧ Extended P m b) hm ⟨h, .refl _ _⟩ ?_
  rintro page - b b' ⟨hb, hx⟩ hstep
  obtain ⟨hb', hx'⟩ := growPage_spec hb hc hstep
  exact ⟨hb', hx.trans hx'⟩

/-! ### Shrinking -/

/-- What giving back the pages in `l` of context `c` leaves. -/
structure Shrunk (P : Nat → Option Nat) (m : Mem) (c : Nat) (l : List Nat) (m' : Mem) : Prop where
  tables : tables P m' = tables P m
  pages : ∀ c' v, pages P m' c' v = if c' = c ∧ v ∈ l then none else pages P m c' v
  le : ∀ g, m'.pmm.users g ≤ m.pmm.users g

/-- One page of a shrinking heap, not the last page of a page table. -/
theorem shrinkPage_spec (h : Owned P R 0 m) (hc : P c = some pd) (hv : v < userPdes * 1024)
    (hlast : maps P m c v ≠ none → v % 1024 ≠ 1023) (hm : shrinkPage m pd v = some m') :
    Owned P R 0 m' ∧ Shrunk P m c [v] m' := by
  have hvirt : v * 4096 < physBase := by
    simp only [userPdes] at hv
    simp only [physBase]
    omega
  have hdiv : v * 4096 / 4096 = v := by omega
  unfold shrinkPage at hm
  cases hp : pages P m c v with
  | none =>
      rw [addressMapped_none hc hvirt (by rw [hdiv, hp]), if_neg (by simp)] at hm
      cases hm
      refine ⟨h, rfl, fun c' v' => ?_, fun _ => le_rfl⟩
      split
      · rename_i hcv
        obtain ⟨rfl, hv'⟩ := hcv
        rw [List.mem_singleton.mp hv', hp]
      · rfl
  | some e =>
      have hp' : pages P m c (v * 4096 / 4096) = some e := by rw [hdiv, hp]
      obtain ⟨hne, hfr⟩ := addressMapped_some hc hp'
      rw [if_pos hne, hfr, Option.bind_eq_some_iff] at hm
      obtain ⟨m₁, hf, hm⟩ := hm
      have hmaps : maps P m c v = some (frameOf e) := by rw [maps, hp]; rfl
      obtain ⟨t, ht, -, -⟩ := pages_eq_some.mp hp
      obtain ⟨-, hpde, htf⟩ := table_eq_some.mp (tables_eq hc _ ▸ ht)
      have hsplit : v / 1024 * 1024 + v % 1024 = v := by omega
      have hmod : v % 1024 < 1024 := by omega
      obtain ⟨hram, -, -, hu, -⟩ := free_spec hf
      have hentry : m₁.entry pd (v / 1024) = m.entry pd (v / 1024) := entry_congr (by rw [hram]) _
      rw [userUnmap_one hv (hlast (by simp [hmaps])), hentry, if_pos hpde, htf] at hm
      cases hm
      -- the frame is given back first; the reference counts do not see the difference
      have hswap : (m.setEntry t (v % 1024) mapNp).free (frameOf e) =
          some (m₁.setEntry t (v % 1024) mapNp) := by
        obtain ⟨p, hp', hm₁⟩ := Option.map_eq_some_iff.mp hf
        subst hm₁
        exact Option.map_eq_some_iff.mpr ⟨p, hp', rfl⟩
      have hun := h.unmap (w := mapNp) ht hmod (by decide) (by rw [hsplit, hmaps])
      have hfree := hun.free (fun _ => by simp) hswap
      rw [sub_add_cancel] at hfree
      obtain ⟨hts, hps⟩ := views_setEntry (w := mapNp) h ht hmod
      have hram' : (m₁.setEntry t (v % 1024) mapNp).ram = (m.setEntry t (v % 1024) mapNp).ram :=
        (free_spec hswap).1
      refine ⟨hfree, by rw [(views_of_ram hram').1, hts], fun c' v' => ?_, fun g => ?_⟩
      · rw [(views_of_ram hram').2, hps, hsplit]
        simp [present, isPr, mapNp]
      · rw [setEntry_pmm, hu]
        split
        · rename_i hg; subst hg; omega
        · exact le_rfl

theorem shrinkRange_spec {l : List Nat} (h : Owned P R 0 m) (hc : P c = some pd)
    (hl : ∀ v ∈ l, v < userPdes * 1024 ∧ (maps P m c v ≠ none → v % 1024 ≠ 1023))
    (hm : l.foldlM (fun m page => shrinkPage m pd page) m = some m') :
    Owned P R 0 m' ∧ Shrunk P m c l m' := by
  refine foldlM_rule (P := fun pre b => Owned P R 0 b ∧ Shrunk P m c pre b) hm
    ⟨h, rfl, fun c' v => by simp, fun _ => le_rfl⟩ ?_
  rintro pre v post b b' rfl ⟨hb, hs⟩ hstep
  obtain ⟨hv, hlast⟩ := hl v (by simp)
  have hlast' : maps P b c v ≠ none → v % 1024 ≠ 1023 := by
    intro hmaps
    refine hlast fun hno => hmaps ?_
    rw [maps, hs.pages]
    split
    · rfl
    · exact hno
  obtain ⟨hb', hs'⟩ := shrinkPage_spec hb hc hv hlast' hstep
  refine ⟨hb', hs'.tables.trans hs.tables, fun c' v' => ?_, fun g => (hs'.le g).trans (hs.le g)⟩
  rw [hs'.pages, hs.pages]
  simp only [List.mem_append, List.mem_singleton]
  grind

end Muxomucota.Mmu
