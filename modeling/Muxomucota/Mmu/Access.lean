import Muxomucota.Mmu.Kernel
import Muxomucota.Mmu.LazyArea
import Muxomucota.Mmu.Heap
import Muxomucota.Mmu.Teardown

/-!
# Mmu — accesses of user programs, and loading them

A user program reads and writes through the present user pages of its context, and a write needs
the read/write bit too.  Loading an image, the lazy mappings of a new process and the clearing
before an `exec` are here as well.
-/

namespace Muxomucota.Mmu
open Memory Pmm Lib

variable {ρ : Type} {P : Nat → Option Nat} {R : ρ → Option Nat} {d : Nat → Int} {m m' : Mem}
  {c pd f address base offset : Nat} {e : BitVec 32} {byte : BitVec 8}

/-! ### Reading and writing -/

/-- A user program can read the present user pages below the kernel. -/
theorem userReadable_pages (hc : P c = some pd) (h : m.userReadable pd address = some e) :
    pages P m c (address / 4096) = some e ∧ isUs e = true ∧ address < physBase := by
  unfold Mem.userReadable at h
  split at h
  · rename_i hpde
    dsimp only at h
    split at h
    · rename_i hpte
      cases h
      have ha : address < physBase := by simpa [isKernel] using hpde.1
      refine ⟨?_, hpte.2, ha⟩
      rw [pages_eq_some, page_div, page_mod, tables_eq hc]
      exact ⟨_, table_eq_some.mpr ⟨pdIndex_lt ha, hpde.2.1, rfl⟩, hpte.1, rfl⟩
    · cases h
  · cases h

/-- A user page is readable where its directory entry is for user programs too. -/
theorem readable_of_page (hc : P c = some pd) (hp : pages P m c (address / 4096) = some e)
    (hpde : isUs (m.entry pd (pdIndex address)) = true) (hus : isUs e = true) :
    m.userReadable pd address = some e := by
  obtain ⟨t, ht, hpr, he⟩ := pages_eq_some.mp hp
  rw [page_div, tables_eq hc] at ht
  rw [page_mod] at he
  obtain ⟨hlt, hpde', rfl⟩ := table_eq_some.mp ht
  have ha : address < physBase := by
    simp only [pdIndex, userPdes] at hlt
    simp only [physBase]
    omega
  unfold Mem.userReadable
  rw [if_pos ⟨by simpa [isKernel] using ha, hpde', hpde⟩, he, if_pos ⟨hpr, hus⟩]

/-- A write changes one byte of the frame of one page. -/
theorem userStore_spec (h : Owned P R d m) (hc : P c = some pd)
    (hm : m.userStore pd address byte = some m') :
    ∃ e, pages P m c (address / 4096) = some e ∧ isRw e = true ∧
      m.userReadable pd address = some e ∧ Owned P R d m' ∧ pages P m' = pages P m ∧
      tables P m' = tables P m ∧ m'.pmm = m.pmm ∧
      ∀ g off, m'.ram g off =
        if g = frameOf e ∧ off = address % 4096 then byte else m.ram g off := by
  obtain ⟨e, he, hm⟩ := Option.bind_eq_some_iff.mp hm
  obtain ⟨hpage, -, -⟩ := userReadable_pages hc he
  split at hm
  · rename_i hrw
    cases hm
    have hmaps : maps P m c (address / 4096) = some (frameOf e) := by rw [maps, hpage]; rfl
    have hdata : ∀ g, Structural P m g →
        (m.ram.setByte (frameOf e) (address % 4096) byte) g = m.ram g := by
      intro g hg
      refine Ram.setByte_frame _ _ _ ?_
      rintro rfl
      exact h.not_structural hmaps hg
    have hviews : tables P { m with ram := m.ram.setByte (frameOf e) (address % 4096) byte } =
        tables P m ∧ pages P { m with ram := m.ram.setByte (frameOf e) (address % 4096) byte } =
        pages P m := views_of_data hdata
    exact ⟨e, hpage, hrw.2, he, h.data rfl hdata, hviews.2, hviews.1, rfl,
      fun g off => Ram.setByte_apply _ _ _ _ _ _⟩
  · cases hm

/-! ### Loading -/

theorem copyIn_pmm (m : Mem) (f offset : Nat) (bytes : List (BitVec 8)) :
    (m.copyIn f offset bytes).pmm = m.pmm := rfl

theorem copyIn_ram (m : Mem) {f g : Nat} (offset : Nat) (bytes : List (BitVec 8)) (h : g ≠ f) :
    (m.copyIn f offset bytes).ram g = m.ram g := by
  unfold Mem.copyIn
  dsimp only
  generalize bytes.zipIdx = l
  induction l generalizing m with
  | nil => rfl
  | cons b l ih =>
      rw [List.foldl_cons]
      exact (ih { m with ram := m.ram.setByte f (offset + b.2) b.1 }).trans
        (Ram.setByte_frame _ _ _ h)

/-- A page of the image gets a new frame. -/
theorem loadImagePage_spec {bytes : List (BitVec 8)} (h : Owned P R d m) (hc : P c = some pd)
    (hm : loadImagePage m pd base offset bytes = some m') :
    Owned P R d m' ∧ ∃ f w, NewPage P m m' c base f w := by
  unfold loadImagePage at hm
  rw [Option.bind_eq_some_iff] at hm
  obtain ⟨⟨f, m₁⟩, ha, hm⟩ := hm
  obtain ⟨h₁, hn⟩ := freshPage_spec h hc ha (copyIn_pmm m₁ f offset bytes)
    (fun g hg => copyIn_ram m₁ offset bytes hg) hm
  exact ⟨h₁, f, _, hn⟩

/-- The lazy mappings of a new process take no frames. -/
theorem processCreateBasicMappings_spec (h : Owned P R d m) (hc : P c = some pd) :
    ∃ m', processCreateBasicMappings m pd = some m' ∧ Untouched P R d m m' := by
  obtain ⟨m₁, hm₁, hu₁⟩ := lazyMapArea_spec (vmmUr ||| vmmUw) userStackBase
    (userStackTop - userStackBase) h hc (by decide) (by decide) (by decide)
  obtain ⟨m₂, hm₂, hu₂⟩ := lazyMapArea_spec (vmmUr ||| vmmUw) userHeritageBase
    (userHeritageTop - userHeritageBase) hu₁.owned hc (by decide) (by decide) (by decide)
  exact ⟨m₂, by rw [processCreateBasicMappings, hm₁]; exact hm₂, hu₁.trans hu₂⟩

/-- Before an `exec` everything but the heritage is cleared. -/
theorem execClear_spec (h : Owned P R 0 m) (hc : P c = some pd) (hm : execClear m pd = some m') :
    ∃ m₁, Cleared P m m₁ c true ∧ Untouched P R 0 m₁ m' := by
  obtain ⟨m₁, hm₁, hm⟩ := Option.bind_eq_some_iff.mp hm
  obtain ⟨h₁, hcl⟩ := clear_spec h hc hm₁
  obtain ⟨m₂, hm₂, hu⟩ := lazyMapArea_spec (vmmUr ||| vmmUw) userStackBase
    (userStackTop - userStackBase) h₁ hc (by decide) (by decide) (by decide)
  rw [hm₂] at hm
  cases hm
  exact ⟨m₁, hcl, hu⟩

end Muxomucota.Mmu
