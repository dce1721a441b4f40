import Muxomucota.Mmu.Access
import Muxomucota.Mmu.UserMap

/-!
# Mmu — the contents of one address space

What is in the pages of one directory while pages are added to it.  A frame that is neither the
directory nor one of its page tables (`IsData`) keeps what is in it when another page is mapped, and a
frame that nobody uses keeps it too (`Mapped`).

Which frames are taken on the way depends on the directory and on `pmm.c`, and not on what is in the
frames (`SameDir`).
-/

namespace Muxomucota.Mmu
open Memory Pmm Lib

variable {m m' m₂ : Mem} {pd n f virt base offset : Nat} {flags : BitVec 32} {bytes : List (BitVec 8)}

/-- A frame in use that the address space does not read its entries from. -/
structure IsData (m : Mem) (pd n f : Nat) : Prop where
  used : m.pmm.users f ≠ 0
  notDir : f ≠ pd
  notTable : ∀ i < n, isPr (m.entry pd i) = true → frameOf (m.entry pd i) ≠ f

/-- Mapping a page leaves the data frames and the free frames alone. -/
structure Mapped (m m' : Mem) (pd n : Nat) : Prop where
  data : ∀ g, IsData m pd n g → IsData m' pd n g ∧ m'.ram g = m.ram g
  used : ∀ g, m.pmm.users g ≠ 0 → m'.pmm.users g ≠ 0
  free : ∀ g, m'.pmm.users g = 0 → m'.ram g = m.ram g

theorem Mapped.trans {m₃ : Mem} (h : Mapped m m₂ pd n) (h' : Mapped m₂ m₃ pd n) : Mapped m m₃ pd n where
  data g hg := ⟨(h'.data g (h.data g hg).1).1, (h'.data g (h.data g hg).1).2.trans (h.data g hg).2⟩
  used g hg := h'.used g (h.used g hg)
  free g hg := (h'.free g hg).trans (h.free g (not_not.mp fun hne => h'.used g hne hg))

/-- User programs may use the page tables. -/
def UserDir (m : Mem) (pd n : Nat) : Prop :=
  ∀ i < n, isPr (m.entry pd i) = true → isUs (m.entry pd i) = true

/-! ### Mapping a page -/

/-- Only the directory, a page table and a new page table are written. -/
theorem mapUserPage_mapped (h : Held m pd n) (hn : userPdes ≤ n) (hv : virt < physBase)
    (hm : vmmcMapUserPageUnlocked m pd virt f flags = some m') :
    Mapped m m' pd n ∧ (UserDir m pd n → UserDir m' pd n) := by
  have hk : isKernel virt = false := by simpa [isKernel] using hv
  simp only [physBase] at hv
  simp only [userPdes] at hn
  have hpdi : pdIndex virt < n := by unfold pdIndex; omega
  unfold vmmcMapUserPageUnlocked at hm
  rw [hk] at hm
  simp only [Bool.false_eq_true, if_false] at hm
  split at hm
  · rename_i hpr
    cases hm
    have hdir : ∀ i w, (m.setEntry (frameOf (m.entry pd (pdIndex virt))) (ptIndex virt) w).entry pd i =
        m.entry pd i := fun i w => by
      rw [entry_setEntry, if_neg fun hc => h.notDir _ hpdi hpr hc.1.symm]
    refine ⟨⟨fun g hg => ⟨⟨hg.used, hg.notDir, fun i hi => ?_⟩, ?_⟩, fun g hg => hg, fun g hg => ?_⟩,
      fun hus i hi => ?_⟩
    · rw [hdir]
      exact hg.notTable i hi
    · exact setEntry_ram _ _ _ fun heq => hg.notTable _ hpdi hpr heq.symm
    · refine setEntry_ram _ _ _ fun heq => h.tables _ hpdi hpr ?_
      rwa [← heq]
    · rw [hdir]
      exact hus i hi
  · rename_i hpr
    obtain ⟨⟨pt, m₁⟩, ha, rfl⟩ := Option.map_eq_some_iff.mp hm
    obtain ⟨hram, hs, htr, hu₀, -, hu, -⟩ := alloc_spec ha
    have hne : pd ≠ pt := h.dir_ne hu₀
    have hlt : pt < 2 ^ 20 := tracked_lt h.small htr
    dsimp only
    generalize hfl : (mapPr ||| if lazyFlags (m.entry pd (pdIndex virt)) ≠ 0 then
      lazyFlags (m.entry pd (pdIndex virt)) else mapRw ||| mapUs) = fl
    have hflags : IsFlags fl := hfl ▸
      isFlags_mapPr.or (.ite (isFlags_lazyFlags _) (isFlags_mapRw.or isFlags_mapUs))
    have huser : isUs (entry pt fl) = true := by
      rw [isUs_entry, ← hfl]
      unfold lazyFlags
      split <;> simp_all
    have hf := frameOf_entry hlt hflags
    generalize hw : entry pt fl = w at huser hf
    generalize lazyFlags (m.entry pd (pdIndex virt)) = lazy
    generalize entry f (pageFlags flags) = e
    have hkeep : ∀ g, g ≠ pd → g ≠ pt →
        (((m₁.setEntry pd (pdIndex virt) w).fillWords pt lazy).setEntry pt (ptIndex virt) e).ram g =
          m.ram g := by
      intro g hgd hgt
      rw [setEntry_ram _ _ _ hgt, fillWords_ram _ _ hgt, setEntry_ram _ _ _ hgd, hram]
    have hdir : ∀ i,
        (((m₁.setEntry pd (pdIndex virt) w).fillWords pt lazy).setEntry pt (ptIndex virt) e).entry pd i =
          if i = pdIndex virt then w else m.entry pd i := by
      intro i
      rw [entry_setEntry, if_neg fun hc => hne hc.1, entry_congr (fillWords_ram _ _ hne), entry_setEntry,
        entry_congr (congrFun hram pd)]
      simp only [true_and]
    have husers : ∀ g,
        (((m₁.setEntry pd (pdIndex virt) w).fillWords pt lazy).setEntry pt (ptIndex virt) e).pmm.users g =
          if g = pt then 1 else m.pmm.users g := hu
    refine ⟨⟨fun g hg => ⟨⟨?_, hg.notDir, fun i hi => ?_⟩, ?_⟩, fun g hg => ?_, fun g hg => ?_⟩,
      fun hus i hi => ?_⟩
    · rw [husers]
      split
      · exact Nat.one_ne_zero
      · exact hg.used
    · rw [hdir]
      split
      · intro _
        rw [hf]
        rintro rfl
        exact hg.used hu₀
      · exact hg.notTable i hi
    · refine hkeep g hg.notDir ?_
      rintro rfl
      exact hg.used hu₀
    · rw [husers]
      split
      · exact Nat.one_ne_zero
      · exact hg
    · rw [husers] at hg
      split at hg
      · cases hg
      · rename_i hgt
        refine hkeep g ?_ hgt
        rintro rfl
        exact h.dir hg
    · rw [hdir]
      split
      · exact fun _ => huser
      · exact hus i hi

/-! ### `memcpy` -/

theorem copyIn_apply (m : Mem) (f offset : Nat) (bytes : List (BitVec 8)) (o : Nat) :
    (m.copyIn f offset bytes).ram f o =
      if offset ≤ o ∧ o < offset + bytes.length then bytes.getD (o - offset) 0 else m.ram f o := by
  suffices ∀ (bytes : List (BitVec 8)) (r : Ram) (k : Nat),
      (bytes.zipIdx k).foldl (fun r b => r.setByte f (offset + b.2) b.1) r f o =
        if offset + k ≤ o ∧ o < offset + k + bytes.length then bytes.getD (o - offset - k) 0 else r f o by
    exact this bytes m.ram 0
  intro bytes
  induction bytes with
  | nil => exact fun r k => (if_neg (by simp)).symm
  | cons b bytes ih =>
      intro r k
      rw [List.zipIdx_cons, List.foldl_cons, ih, Ram.setByte_apply, List.length_cons]
      dsimp only
      by_cases heq : o = offset + k
      · rw [if_neg (by omega), if_pos ⟨rfl, heq⟩, if_pos (by omega),
          show o - offset - k = 0 by omega, List.getD_cons_zero]
      · by_cases hin : offset + (k + 1) ≤ o ∧ o < offset + (k + 1) + bytes.length
        · rw [if_pos hin, if_pos (by omega), show o - offset - k = o - offset - (k + 1) + 1 by omega,
            List.getD_cons_succ]
        · rw [if_neg hin, if_neg (fun hc => heq hc.2), if_neg (by omega)]

/-! ### A page of an image -/

/-- A page of an image is in a frame that was free, with the bytes of the image and, around them, with
what was in the frame before. -/
theorem loadImagePage_contents (h : Held m pd n) (hn : userPdes ≤ n) (hv : base < physBase)
    (hm : loadImagePage m pd base offset bytes = some m') :
    Held m' pd n ∧ Mapped m m' pd n ∧ (UserDir m pd n → UserDir m' pd n) ∧
      ∃ f, m.pmm.users f = 0 ∧ f < 2 ^ 20 ∧ IsData m' pd n f ∧
        (∀ v < n * 1024, m'.page pd v = if v = base / 4096 then
          some (entry f (pageFlags (vmmUr ||| vmmUw ||| vmmUx))) else m.page pd v) ∧
        ∀ o, m'.ram f o = if offset ≤ o ∧ o < offset + bytes.length then bytes.getD (o - offset) 0
          else m.ram f o := by
  obtain ⟨⟨f, m₁⟩, ha, hm⟩ := Option.bind_eq_some_iff.mp hm
  obtain ⟨hram, hs, htr, hu₀, -, hu, -⟩ := alloc_spec ha
  dsimp only at hm
  have hlt : f < 2 ^ 20 := tracked_lt h.small htr
  have hfd : pd ≠ f := h.dir_ne hu₀
  have hft : ∀ i < n, isPr (m.entry pd i) = true → frameOf (m.entry pd i) ≠ f :=
    h.table_ne hu₀
  have hkeep : ∀ g, g ≠ f → (m₁.copyIn f offset bytes).ram g = m.ram g := fun g hg => by
    rw [copyIn_ram _ _ _ hg, hram]
  have hdir : ∀ i, (m₁.copyIn f offset bytes).entry pd i = m.entry pd i := fun i =>
    entry_congr (hkeep pd hfd) i
  have husers : ∀ g, (m₁.copyIn f offset bytes).pmm.users g = if g = f then 1 else m.pmm.users g := hu
  have hused : ∀ g, m.pmm.users g ≠ 0 → (m₁.copyIn f offset bytes).pmm.users g ≠ 0 := by
    intro g hg
    rw [husers]
    split
    · exact Nat.one_ne_zero
    · exact hg
  have h₁ : Held (m₁.copyIn f offset bytes) pd n := by
    refine ⟨h.toSpace.of_dir fun i _ => hdir i, hused pd h.dir, fun i hi => ?_, ?_⟩
    · rw [hdir]
      exact fun hpr => hused _ (h.tables i hi hpr)
    · show m₁.pmm.memBase + m₁.pmm.memEntries ≤ 2 ^ 20
      rw [hs.1, hs.2]
      exact h.small
  have hmapped : Mapped m (m₁.copyIn f offset bytes) pd n := by
    refine ⟨fun g hg => ⟨⟨hused g hg.used, hg.notDir, fun i hi => ?_⟩, hkeep g ?_⟩, hused, fun g hg => ?_⟩
    · rw [hdir]
      exact hg.notTable i hi
    · rintro rfl
      exact hg.used hu₀
    · rw [husers] at hg
      split at hg
      · cases hg
      · exact hkeep g ‹_›
  have hdata : IsData (m₁.copyIn f offset bytes) pd n f := by
    refine ⟨?_, hfd.symm, fun i hi => ?_⟩
    · rw [husers, if_pos rfl]
      exact Nat.one_ne_zero
    · rw [hdir]
      exact hft i hi
  obtain ⟨h₂, hpage⟩ := mapUserPage_page h₁ hn hv hm
  obtain ⟨hmapped₂, huser⟩ := mapUserPage_mapped h₁ hn hv hm
  refine ⟨h₂, hmapped.trans hmapped₂, fun hus => huser fun i hi => ?_, f, hu₀, hlt,
    (hmapped₂.data f hdata).1, fun v hv => ?_, fun o => ?_⟩
  · rw [hdir]
    exact hus i hi
  · rw [hpage v hv]
    split
    · rfl
    · refine page_congr (hdir _) fun hpr => entry_congr (hkeep _ ?_) _
      exact hft _ (by omega) hpr
  · rw [(hmapped₂.data f hdata).2, copyIn_apply, hram]

/-! ### What the frames hold does not matter -/

/-- The same frames are in use, and the directory is the same. -/
structure SameDir (m m₂ : Mem) (pd : Nat) : Prop where
  pmm : m₂.pmm = m.pmm
  dir : ∀ i, m₂.entry pd i = m.entry pd i

theorem SameDir.held (h : SameDir m m₂ pd) (hm : Held m pd n) : Held m₂ pd n := by
  refine ⟨hm.toSpace.of_dir fun i _ => h.dir i, ?_, fun i hi => ?_, ?_⟩
  · rw [h.pmm]
    exact hm.dir
  · rw [h.pmm, h.dir]
    exact hm.tables i hi
  · rw [h.pmm]
    exact hm.small

theorem SameDir.alloc {m₁ : Mem} (h : SameDir m m₂ pd) (ha : m.alloc = some (f, m₁)) :
    ∃ m₃, m₂.alloc = some (f, m₃) ∧ SameDir m₁ m₃ pd := by
  obtain ⟨⟨g, q⟩, hq, heq⟩ := Option.map_eq_some_iff.mp ha
  cases heq
  refine ⟨{ m₂ with pmm := q }, ?_, rfl, h.dir⟩
  rw [Mem.alloc, h.pmm, hq]
  rfl

/-- An entry is written in a page table, or the same entry in both directories. -/
theorem SameDir.setEntry (h : SameDir m m₂ pd) (g i : Nat) (w : BitVec 32) :
    SameDir (m.setEntry g i w) (m₂.setEntry g i w) pd := by
  refine ⟨h.pmm, fun j => ?_⟩
  rw [entry_setEntry, entry_setEntry, h.dir]

theorem SameDir.fillWords (h : SameDir m m₂ pd) {g : Nat} (w : BitVec 32) (hg : pd ≠ g) :
    SameDir (m.fillWords g w) (m₂.fillWords g w) pd := by
  refine ⟨h.pmm, fun j => ?_⟩
  rw [entry_congr (fillWords_ram _ _ hg), entry_congr (fillWords_ram _ _ hg), h.dir]

theorem SameDir.mapUserPage (h : SameDir m m₂ pd) (hd : m.pmm.users pd ≠ 0)
    (hm : vmmcMapUserPageUnlocked m pd virt f flags = some m') :
    ∃ m₂', vmmcMapUserPageUnlocked m₂ pd virt f flags = some m₂' ∧ SameDir m' m₂' pd := by
  unfold vmmcMapUserPageUnlocked at hm ⊢
  split at hm
  · rename_i hk
    cases hm
    exact ⟨m₂, if_pos hk, h⟩
  · rename_i hk
    rw [if_neg hk]
    dsimp only at hm ⊢
    rw [h.dir]
    split at hm
    · rename_i hpr
      cases hm
      exact ⟨_, if_pos hpr, h.setEntry _ _ _⟩
    · rename_i hpr
      rw [if_neg hpr]
      obtain ⟨⟨pt, m₁⟩, ha, rfl⟩ := Option.map_eq_some_iff.mp hm
      obtain ⟨m₃, ha₂, h₃⟩ := h.alloc ha
      have hne : pd ≠ pt := by
        rintro rfl
        exact hd (alloc_spec ha).2.2.2.1
      rw [ha₂]
      exact ⟨_, rfl, ((h₃.setEntry _ _ _).fillWords _ hne).setEntry _ _ _⟩

/-- The pages of an image take the same frames, whatever is in the frames. -/
theorem SameDir.loadImagePage (h : SameDir m m₂ pd) (hd : m.pmm.users pd ≠ 0)
    (hm : loadImagePage m pd base offset bytes = some m') :
    ∃ m₂', Mmu.loadImagePage m₂ pd base offset bytes = some m₂' ∧ SameDir m' m₂' pd := by
  obtain ⟨⟨f, m₁⟩, ha, hm⟩ := Option.bind_eq_some_iff.mp hm
  obtain ⟨m₃, ha₂, h₃⟩ := h.alloc ha
  obtain ⟨-, -, -, hu₀, -, hu, -⟩ := alloc_spec ha
  have hfd : pd ≠ f := by
    rintro rfl
    exact hd hu₀
  have hcopy : SameDir (m₁.copyIn f offset bytes) (m₃.copyIn f offset bytes) pd := by
    refine ⟨h₃.pmm, fun i => ?_⟩
    rw [entry_congr (copyIn_ram _ _ _ hfd), entry_congr (copyIn_ram _ _ _ hfd), h₃.dir]
  have hused : (m₁.copyIn f offset bytes).pmm.users pd ≠ 0 := by
    show m₁.pmm.users pd ≠ 0
    rw [hu, if_neg hfd]
    exact hd
  obtain ⟨m₂', hm₂, h₂⟩ := hcopy.mapUserPage hused hm
  refine ⟨m₂', ?_, h₂⟩
  rw [Mmu.loadImagePage, ha₂]
  exact hm₂

end Muxomucota.Mmu
