import Muxomucota.Mmu.Isolation

/-!
# Mmu — the first access to a page that is mapped on demand

The stack of a new process has no page tables, and a fork copies the directory entries that say so.
At the first access a page gets a frame that was free, with what is in it: parent and child get two,
and find two different things there.
-/

namespace Muxomucota.Mmu
open Memory Pmm Lib

variable {m m' : Mem} {pd i j k f t : Nat} {flags : BitVec 32}

/-- What changes only one frame, and no user counts. -/
structure OnlyFrame (pd : Nat) (m m' : Mem) : Prop where
  pmm : m'.pmm = m.pmm
  ram : ∀ g, g ≠ pd → m'.ram g = m.ram g

theorem lazyMapLoop_dirs (flags : BitVec 32) : ∀ {n fuel k : Nat} {m : Mem}, 1024 * n ≤ fuel →
    (∀ i, k ≤ i → i < k + n → isPr (m.entry pd i) = false) →
    ∃ m', lazyMapLoop pd flags fuel k 0 (1024 * n) m = some m' ∧ OnlyFrame pd m m' ∧
      ∀ i, m'.entry pd i = if k ≤ i ∧ i < k + n then lazyEntry flags else m.entry pd i := by
  intro n
  induction n with
  | zero =>
      intro fuel k m _ _
      refine ⟨m, by cases fuel <;> rfl, ⟨rfl, fun _ _ => rfl⟩, fun i => ?_⟩
      rw [if_neg (by omega)]
  | succ n ih =>
      intro fuel k m hfuel hno
      obtain ⟨fuel, rfl⟩ : ∃ r, fuel = r + 1 := ⟨fuel - 1, by omega⟩
      have hk : isPr (m.entry pd k) = false := hno k le_rfl (by omega)
      have hset : ∀ i, (m.setEntry pd k (lazyEntry flags)).entry pd i =
          if i = k then lazyEntry flags else m.entry pd i := by
        intro i
        rw [entry_setEntry]
        simp
      have hno' : ∀ i, k + 1 ≤ i → i < k + 1 + n →
          isPr ((m.setEntry pd k (lazyEntry flags)).entry pd i) = false := by
        intro i h₁ h₂
        rw [hset, if_neg (by omega)]
        exact hno i (by omega) (by omega)
      have hrest : 1024 * (n + 1) - 1024 = 1024 * n := by omega
      have hwhole : ¬ isPr (m.entry pd k) = true ∧ 1024 ≤ 1024 * (n + 1) ∧ 0 = 0 :=
        ⟨by rw [hk]; simp, by omega, rfl⟩
      obtain ⟨m', hm', hof, hent⟩ := @ih fuel _ _ (by omega) hno'
      refine ⟨m', ?_, ⟨hof.pmm, fun g hg => ?_⟩, fun i => ?_⟩
      · rw [lazyMapLoop, if_neg (by omega), if_pos hwhole, hrest]
        exact hm'
      · rw [hof.ram g hg, setEntry_ram _ _ _ hg]
      · rw [hent, hset]
        grind

/-- An area of whole directory entries, none of them in use. -/
theorem lazyMapArea_dirs (m : Mem) (pd i j : Nat) (flags : BitVec 32) {virt sz : Nat}
    (hvirt : virt = 0x400000 * i)
    (hsz : sz = 0x400000 * j) (hno : ∀ k, i ≤ k → k < i + j → isPr (m.entry pd k) = false) :
    ∃ m', vmmcLazyMapArea m pd virt sz flags = some m' ∧ OnlyFrame pd m m' ∧
      ∀ k, m'.entry pd k = if i ≤ k ∧ k < i + j then lazyEntry flags else m.entry pd k := by
  subst hvirt hsz
  have hpages : (if 0x400000 * j % pageSize ≠ 0 then 0x400000 * j / pageSize + 1
      else 0x400000 * j / pageSize) = 1024 * j := by
    rw [if_neg (by simp only [pageSize]; omega)]
    simp only [pageSize]; omega
  have hpdi : pdIndex (0x400000 * i) = i := by simp only [pdIndex]; omega
  have hpti : ptIndex (0x400000 * i) = 0 := by simp only [ptIndex]; omega
  unfold vmmcLazyMapArea
  rw [hpages, hpdi, hpti]
  exact lazyMapLoop_dirs flags le_rfl hno

/-- The directory of a new process: no page tables, and the stack is mapped on demand. -/
structure NewDirectory (m : Mem) (pd : Nat) : Prop where
  absent : ∀ i, i < userPdes → isPr (m.entry pd i) = false
  stack : ∀ i, userStackBase / 0x400000 ≤ i → i < userPdes →
    m.entry pd i = lazyEntry (vmmUr ||| vmmUw)

/-- The entries of the stack and of the heritage are mapped on demand, and the others stay. -/
theorem basicMappings_entries (hno : ∀ i, i < userPdes → isPr (m.entry pd i) = false) :
    ∃ m', processCreateBasicMappings m pd = some m' ∧ OnlyFrame pd m m' ∧ ∀ i, m'.entry pd i =
      if 764 ≤ i ∧ i < 768 ∨ 896 ≤ i ∧ i < 960 then lazyEntry (vmmUr ||| vmmUw) else m.entry pd i := by
  obtain ⟨m₁, hm₁, hof₁, hent₁⟩ := lazyMapArea_dirs m pd 896 64 (vmmUr ||| vmmUw)
    (rfl : userStackBase = _) (rfl : userStackTop - userStackBase = _)
    fun k _ hk => hno k (by unfold userPdes; omega)
  obtain ⟨m₂, hm₂, hof₂, hent₂⟩ := lazyMapArea_dirs m₁ pd 764 4 (vmmUr ||| vmmUw)
    (rfl : userHeritageBase = _) (rfl : userHeritageTop - userHeritageBase = _)
    fun k hk hk' => by
      rw [hent₁, if_neg (by omega)]
      exact hno k (by unfold userPdes; omega)
  refine ⟨m₂, by rw [processCreateBasicMappings, hm₁]; exact hm₂,
    ⟨hof₂.pmm.trans hof₁.pmm, fun g hg => (hof₂.ram g hg).trans (hof₁.ram g hg)⟩, fun i => ?_⟩
  rw [hent₂, hent₁]
  split_ifs <;> first | rfl | omega

theorem basicMappings_dirs (hno : ∀ i, i < userPdes → isPr (m.entry pd i) = false)
    (hent : ∀ i, m'.entry pd i = if 764 ≤ i ∧ i < 768 ∨ 896 ≤ i ∧ i < 960 then
      lazyEntry (vmmUr ||| vmmUw) else m.entry pd i) : NewDirectory m' pd := by
  refine ⟨fun i hi => ?_, fun i hlo hi => ?_⟩
  · rw [hent]
    split
    · exact isPr_lazyEntry _
    · exact hno i hi
  · have hlo : 896 ≤ i := hlo
    unfold userPdes at hi
    rw [hent, if_pos (by omega)]

/-- The clone of a directory without page tables is a copy. -/
theorem clone_dirs {dest source : Nat} (hne : dest ≠ source)
    (hno : ∀ i, i < userPdes → isPr (m.entry source i) = false) :
    ∃ m', vmmcClone m dest source = some m' ∧ OnlyFrame dest m m' ∧
      ∀ i, i < userPdes → m'.entry dest i = m.entry source i := by
  obtain ⟨m', hm', hof, hent⟩ := foldlM_range_total (f := cloneDirEntry dest source) (b := m)
    (n := userPdes)
    (P := fun n b => OnlyFrame dest m b ∧ ∀ i, i < n → b.entry dest i = m.entry source i)
    ⟨⟨rfl, fun _ _ => rfl⟩, fun i hi => absurd hi (by omega)⟩ fun i b hi ⟨hof, hent⟩ => by
      have hsrc : b.entry source i = m.entry source i := entry_congr (hof.ram _ hne.symm) i
      refine ⟨b.setEntry dest i (b.entry source i), ?_, ⟨hof.pmm, fun g hg => ?_⟩, fun k hk => ?_⟩
      · unfold cloneDirEntry
        rw [if_pos]
        rw [hsrc, hno i hi]
        simp
      · rw [setEntry_ram _ _ _ hg, hof.ram g hg]
      · rw [entry_setEntry]
        by_cases hki : k = i
        · rw [if_pos ⟨rfl, hki⟩, hsrc, hki]
        · rw [if_neg fun h => hki h.2]
          exact hent k (by omega)
  exact ⟨m', hm', hof, hent⟩

/-- Frames in use stay in use, and free ones keep what is in them. -/
structure Takes (m m' : Mem) : Prop where
  used : ∀ g, m.pmm.users g ≠ 0 → m'.pmm.users g ≠ 0
  free : ∀ g, m'.pmm.users g = 0 → m'.ram g = m.ram g

theorem Takes.trans {m₁ : Mem} (h₁ : Takes m m₁) (h₂ : Takes m₁ m') : Takes m m' where
  used g hg := h₂.used g (h₁.used g hg)
  free g hg := by
    rw [h₂.free g hg]
    refine h₁.free g ?_
    by_contra hne
    exact h₂.used g hne hg

theorem OnlyFrame.takes (h : OnlyFrame pd m m') (hpd : m.pmm.users pd ≠ 0) : Takes m m' where
  used g hg := by rwa [h.pmm]
  free g hg := h.ram g (by rintro rfl; rw [h.pmm] at hg; exact hpd hg)

theorem takes_alloc (h : m.alloc = some (f, m')) : Takes m m' := by
  obtain ⟨hram, -, -, -, -, hu, -⟩ := alloc_spec h
  refine ⟨fun g hg => ?_, fun g _ => by rw [hram]⟩
  rw [hu]
  split
  · decide
  · exact hg

/-- **The first access** to a page of the stack: the frame was free, and what the process reads is
what was in it. -/
structure FirstTouch (m m' : Mem) (pd address f : Nat) : Prop where
  was_free : m.pmm.users f = 0
  tracked : m.pmm.Tracked f
  taken : m'.pmm.users f ≠ 0
  load : m'.userLoad pd address = some (m.ram f (address % 4096))
  takes : Takes m m'
  kept : ∀ g, m.pmm.users g ≠ 0 → g ≠ pd → m'.ram g = m.ram g
  frames : SameFrames m.pmm m'.pmm
  look : LookOk m'.pmm
  room : freeFrames m'.pmm + 2 = freeFrames m.pmm

theorem firstTouch {address : Nat} (hsmall : m.pmm.memBase + m.pmm.memEntries ≤ 2 ^ 20)
    (hstack : m.entry pd (pdIndex address) = lazyEntry (vmmUr ||| vmmUw))
    (hpd : m.pmm.users pd ≠ 0) (hlo : userStackBase ≤ address) (hhi : address < physBase)
    (hlook : LookOk m.pmm) (hroom : 2 ≤ freeFrames m.pmm) :
    ∃ m' f, vmmcDoLazyMap m pd address = some (true, m') ∧ FirstTouch m m' pd address f := by
  have hlazy : lazyEntry (vmmUr ||| vmmUw) = mapRw ||| mapUs := by decide
  rw [hlazy] at hstack
  obtain ⟨t, m₁, ht⟩ := alloc_isSome hlook (by omega)
  obtain ⟨hram₁, hs₁, htr₁, hfree₁, -, hu₁, -⟩ := alloc_spec ht
  have hroom₁ := alloc_freeFrames ht
  have hpdt : pd ≠ t := by rintro rfl; exact hpd hfree₁
  -- the page table
  set ma := (m₁.setEntry pd (pdIndex address) (entry t (((mapRw ||| mapUs) &&& mapRw) ||| mapUs |||
    mapPr))).fillWords t (((mapRw ||| mapUs) &&& mapRw) ||| mapUs) with hma
  have htable : lazyTable m pd (pdIndex address) = some (t, ma) := by
    unfold lazyTable
    rw [hstack, if_neg (by decide), if_neg (by decide), ht]
    rfl
  have hpmm : ma.pmm = m₁.pmm := by rw [hma, fillWords_pmm, setEntry_pmm]
  have hram : ∀ g, g ≠ pd → g ≠ t → ma.ram g = m.ram g := by
    intro g h₁ h₂
    rw [hma, fillWords_ram _ _ h₂, setEntry_ram _ _ _ h₁, hram₁]
  have hpde : ma.entry pd (pdIndex address) =
      entry t (((mapRw ||| mapUs) &&& mapRw) ||| mapUs ||| mapPr) := by
    rw [hma, entry_congr (fillWords_ram _ _ hpdt), entry_setEntry, if_pos ⟨rfl, rfl⟩]
  have hpte : ma.entry t (ptIndex address) = ((mapRw ||| mapUs) &&& mapRw) ||| mapUs := by
    rw [hma, entry_fillWords]
  -- the page
  have hlookₐ : LookOk ma.pmm := by rw [hpmm]; exact alloc_lookOk hlook ht
  obtain ⟨f, m₂, hf⟩ := alloc_isSome hlookₐ (by rw [hpmm]; omega)
  obtain ⟨hram₂, hs₂, htr₂, hfree₂, -, hu₂, -⟩ := alloc_spec hf
  have hroom₂ := alloc_freeFrames hf
  rw [hpmm] at hs₂ htr₂ hfree₂ hroom₂
  have hft : f ≠ t := by
    rintro rfl
    rw [hu₁, if_pos rfl] at hfree₂
    cases hfree₂
  have hff : m.pmm.users f = 0 := by rwa [hu₁, if_neg hft] at hfree₂
  have hfpd : f ≠ pd := by rintro rfl; exact hpd hff
  have hent₂ : ∀ g i, m₂.entry g i = ma.entry g i := fun g i => entry_congr (by rw [hram₂]) i
  have hflags : (m₂.entry t (ptIndex address) &&& mapRw) ||| mapUs ||| mapPr =
      mapRw ||| mapUs ||| mapPr := by
    rw [hent₂, hpte]; decide
  set m' := m₂.setEntry t (ptIndex address) (entry f (mapRw ||| mapUs ||| mapPr)) with hm'
  have hdone : vmmcDoLazyMap m pd address = some (true, m') := by
    have hus : ¬ ¬ isUs (m.entry pd (pdIndex address)) = true := by rw [hstack]; decide
    have habs : ¬ (isPr (ma.entry t (ptIndex address)) = true ∨
        ¬ isUs (ma.entry t (ptIndex address)) = true) := by rw [hpte]; decide
    have hnoth : ¬ (userHeritageBase ≤ address ∧ address < userHeritageTop) := by
      unfold userHeritageTop
      unfold userStackBase at hlo
      omega
    unfold vmmcDoLazyMap
    simp only
    rw [if_neg hus, htable, Option.bind_some]
    simp only
    rw [if_neg habs, hf, Option.map_some]
    simp only
    rw [if_neg hnoth, hflags]
  have hsmall₁ : m₁.pmm.memBase + m₁.pmm.memEntries ≤ 2 ^ 20 := by rw [hs₁.1, hs₁.2]; exact hsmall
  have hflt : f < 2 ^ 20 := tracked_lt hsmall₁ htr₂
  have htlt : t < 2 ^ 20 := tracked_lt hsmall htr₁
  have hram' : ∀ g, g ≠ pd → g ≠ t → m'.ram g = m.ram g := by
    intro g h₁ h₂
    rw [hm', setEntry_ram _ _ _ h₂, hram₂, hram g h₁ h₂]
  have husers : ∀ g, m'.pmm.users g = if g = f then 1 else if g = t then 1 else m.pmm.users g := by
    intro g
    show m₂.pmm.users g = _
    rw [hu₂, hpmm, hu₁]
  refine ⟨m', f, hdone, hff, ?_, ?_, ?_, ⟨fun g hg => ?_, fun g hg => ?_⟩, fun g hg hne => ?_,
    hs₁.trans hs₂, (alloc_lookOk hlookₐ hf : LookOk m₂.pmm), ?_⟩
  · unfold Tracked at htr₂ ⊢
    rw [hs₁.1, hs₁.2] at htr₂
    exact htr₂
  · rw [husers, if_pos rfl]; decide
  · have hpde' : m'.entry pd (pdIndex address) =
        entry t (((mapRw ||| mapUs) &&& mapRw) ||| mapUs ||| mapPr) := by
      rw [hm', entry_setEntry, if_neg fun h => hpdt h.1, hent₂, hpde]
    have hfrt : frameOf (entry t (((mapRw ||| mapUs) &&& mapRw) ||| mapUs ||| mapPr)) = t :=
      frameOf_entry htlt (by decide)
    have hpte' : m'.entry t (ptIndex address) = entry f (mapRw ||| mapUs ||| mapPr) := by
      rw [hm', entry_setEntry, if_pos ⟨rfl, rfl⟩]
    have hread : m'.userReadable pd address = some (entry f (mapRw ||| mapUs ||| mapPr)) := by
      unfold Mem.userReadable
      rw [hpde', if_pos ⟨by simpa [isKernel] using hhi, by simp, by simp⟩, hfrt, hpte']
      simp
    rw [Mem.userLoad, hread, Option.map_some, frameOf_entry hflt (by decide), hram' f hfpd hft]
  · rw [husers]
    split_ifs <;> first | decide | exact hg
  · rw [husers] at hg
    split_ifs at hg with h₁ h₂
    exact hram' g (by rintro rfl; exact hpd hg) h₂
  · exact hram' g hne (by rintro rfl; exact hg hfree₁)
  · have : freeFrames m'.pmm + 1 = freeFrames m₁.pmm := hroom₂
    omega

namespace World

variable {w w' : World} {c address : Nat}

/-- **What the start of a process does** where the kernel's directory is empty below `PHYS_BASE`. -/
structure Created (w w' : World) (pd : Nat) : Prop where
  contexts : w'.contexts = Function.update w.contexts w.nextContext (some ⟨pd, 0⟩)
  next : w'.nextContext = w.nextContext + 1
  kpd : w'.kpd = w.kpd
  shm : w'.shm = w.shm
  pages : pages w'.spaces w'.mem = pages w.spaces w.mem
  tables : tables w'.spaces w'.mem = tables w.spaces w.mem
  free : w.mem.pmm.users pd = 0
  users : ∀ g, w'.mem.pmm.users g = if g = pd then 1 else w.mem.pmm.users g
  ram : ∀ g, g ≠ pd → w'.mem.ram g = w.mem.ram g
  dir : NewDirectory w'.mem pd
  empty : ∀ i, i < 764 ∨ 768 ≤ i ∧ i < 896 → w'.mem.entry pd i = 0
  frames : SameFrames w.mem.pmm w'.mem.pmm
  look : LookOk w'.mem.pmm
  room : freeFrames w'.mem.pmm + 1 = freeFrames w.mem.pmm

theorem create_happens (h : w.Inv) (hkpd : w.kpd = .empty) (hlook : LookOk w.mem.pmm)
    (hroom : 0 < freeFrames w.mem.pmm) :
    ∃ w' pd, w.step .create = some w' ∧ w.Created w' pd := by
  obtain ⟨pd, m₁, hm₁, hlook₁, hroom₁⟩ := create_isSome w.kpd hlook hroom
  obtain ⟨h₁, ht₁, hp₁, hfree, hone, hsame, -, hframes⟩ :=
    create_spec h.owned (spaces_none (h.unborn _ le_rfl)) hm₁
  obtain ⟨m₂, hm₂, hu⟩ := processCreateBasicMappings_spec h₁ (Function.update_self ..)
  have hzero : ∀ i, m₁.entry pd i = 0 := by
    intro i
    obtain ⟨⟨f, m₀⟩, -, heq⟩ := Option.map_eq_some_iff.mp hm₁
    obtain ⟨rfl, rfl⟩ := Prod.mk.inj heq
    have hdir : Function.update m₀.ram f w.kpd.bytes f = KernelDirectory.empty.bytes := by
      rw [Function.update_self, hkpd]
    unfold Mem.entry Ram.word
    dsimp only
    rw [hdir]
    simp [Ram.wordAt, KernelDirectory.empty]
  have hno : ∀ i, i < userPdes → isPr (m₁.entry pd i) = false := fun i _ => by rw [hzero]; rfl
  obtain ⟨m₃, hm₃, hof, hent⟩ := basicMappings_entries hno
  rw [hm₂] at hm₃
  cases hm₃
  have hsp : (w.addContext pd 0 m₂).spaces = _ := spaces_addContext w.toKernel pd 0 m₂
  have hs : w.toKernel.step .create = some (0, w.addContext pd 0 m₂) := by
    simp [Kernel.step, hm₁, hm₂]
  refine ⟨w.after .create 0 (w.addContext pd 0 m₂), pd, by rw [step, hs]; rfl, rfl, rfl, rfl, rfl,
    ?_, ?_, hfree, fun g => ?_, fun g hg => ?_, basicMappings_dirs hno hent, fun i hi => ?_, ?_, ?_, ?_⟩
  · show pages (w.addContext pd 0 m₂).spaces m₂ = _
    rw [hsp, hu.pages, hp₁]
  · show tables (w.addContext pd 0 m₂).spaces m₂ = _
    rw [hsp, hu.tables, ht₁]
  · show m₂.pmm.users g = _
    rw [hu.pmm]
    split
    · rename_i hg
      rw [hg, hone]
    · rename_i hg
      exact (hsame g hg).1
  · show m₂.ram g = _
    rw [hof.ram g hg, (hsame g hg).2]
  · show m₂.entry pd i = 0
    rw [hent, if_neg (by omega), hzero]
  · show SameFrames w.mem.pmm m₂.pmm
    rw [hu.pmm]
    exact hframes
  · show LookOk m₂.pmm
    rw [hu.pmm]
    exact hlook₁
  · show freeFrames m₂.pmm + 1 = _
    rw [hu.pmm]
    exact hroom₁

/-- A process and its child, both with a stack that nobody has touched. -/
structure Untouched (w : World) (n : Nat) (x y : VmmContext) : Prop where
  parent : w.contexts 0 = some x
  child : w.contexts 1 = some y
  apart : x.cr3 ≠ y.cr3
  used : w.mem.pmm.users x.cr3 ≠ 0 ∧ w.mem.pmm.users y.cr3 ≠ 0
  stack : w.mem.entry x.cr3 (pdIndex userStackBase) = lazyEntry (vmmUr ||| vmmUw) ∧
    w.mem.entry y.cr3 (pdIndex userStackBase) = lazyEntry (vmmUr ||| vmmUw)
  frames : w.mem.pmm.memBase = 0 ∧ w.mem.pmm.memEntries = 16
  contents : ∀ g, w.mem.pmm.users g = 0 → ∀ off, w.mem.ram g off = BitVec.ofNat 8 g
  look : LookOk w.mem.pmm
  room : freeFrames w.mem.pmm = n

/-- Before the first process: every frame is filled with its number. -/
def numbered : World :=
  { boot 16 with mem := { Mem.boot 16 with ram := fun f _ => BitVec.ofNat 8 f } }

theorem boot_numbered : numbered.Boot where
  noContexts _ := rfl
  noShm _ := rfl
  notMade _ := rfl
  addressable := by decide

theorem numbered_create : ∃ w x, numbered.step .create = some w ∧ w.contexts 0 = some x ∧
    w.nextContext = 1 ∧ w.kpd = .empty ∧ NewDirectory w.mem x.cr3 ∧ w.mem.pmm.users x.cr3 ≠ 0 ∧
    (w.mem.pmm.memBase = 0 ∧ w.mem.pmm.memEntries = 16) ∧
    (∀ g, w.mem.pmm.users g = 0 → ∀ off, w.mem.ram g off = BitVec.ofNat 8 g) ∧
    LookOk w.mem.pmm ∧ freeFrames w.mem.pmm = 15 := by
  have hfree : freeFrames numbered.mem.pmm = 16 := by decide
  have hlook : LookOk numbered.mem.pmm := lookOk_boot 16
  obtain ⟨w, pd, hs, hcr⟩ := create_happens (inv_boot boot_numbered) rfl hlook (by rw [hfree]; decide)
  have hroom := hcr.room
  refine ⟨w, ⟨pd, 0⟩, hs, by rw [hcr.contexts]; exact Function.update_self .., hcr.next, hcr.kpd, hcr.dir,
    by rw [hcr.users, if_pos rfl]; decide, hcr.frames, fun g hg off => ?_, hcr.look, by omega⟩
  have hne : g ≠ pd := by
    rintro rfl
    rw [hcr.users, if_pos rfl] at hg
    cases hg
  rw [hcr.ram g hne]
  rfl

/-- The process forks before it has touched its stack. -/
theorem untouched_fork : ∃ w w₁ x y, Run step WithoutShm numbered [.create] w ∧
    w.step (.fork 0) = some w₁ ∧ w.nextContext = 1 ∧ w₁.Untouched 14 x y := by
  obtain ⟨w, x, hcreate, hx, hnext, hkpd, hnew, hused, hframes, hcontents, hlook, hroom⟩ :=
    numbered_create
  obtain ⟨pd, m₀, ha⟩ := alloc_isSome hlook (by omega)
  obtain ⟨hram, hs, -, hu₀, -, hu, -⟩ := alloc_spec ha
  have hroom₀ := alloc_freeFrames ha
  have htakes := takes_alloc ha
  have hne : pd ≠ x.cr3 := by rintro rfl; exact hused hu₀
  set m₁ : Mem := { m₀ with ram := Function.update m₀.ram pd KernelDirectory.empty.bytes } with hm₁
  have hent₁ : ∀ i, m₁.entry x.cr3 i = w.mem.entry x.cr3 i := fun i =>
    entry_congr (by rw [hm₁]; exact (Function.update_of_ne hne.symm ..).trans (by rw [hram])) i
  obtain ⟨m₂, hm₂, hof, hent₂⟩ := clone_dirs (m := m₁) hne fun i hi => by
    rw [hent₁]; exact hnew.absent i hi
  have hent : ∀ i, m₂.entry x.cr3 i = w.mem.entry x.cr3 i := fun i =>
    (entry_congr (hof.ram _ hne.symm) i).trans (hent₁ i)
  have hstack : w.mem.entry x.cr3 (pdIndex userStackBase) = lazyEntry (vmmUr ||| vmmUw) :=
    hnew.stack _ (by decide) (by decide)
  have hpmm : m₂.pmm = m₀.pmm := hof.pmm
  have hfork : w.toKernel.step (.fork 0) = some (0, w.addContext pd x.heapEnd m₂) := by
    have halloc : createVmmContextArch w.kpd w.mem = some (pd, m₁) := by
      unfold createVmmContextArch
      rw [ha, hkpd]
      rfl
    simp [Kernel.step, hx, halloc, hm₂]
  have hold : (0 : Nat) ≠ w.nextContext := by omega
  refine ⟨w, w.after (.fork 0) 0 (w.addContext pd x.heapEnd m₂), x, ⟨pd, x.heapEnd⟩,
    .one trivial hcreate, by rw [step, hfork]; rfl, hnext, ?_⟩
  have hdata : ∀ g, m₂.pmm.users g = 0 → m₂.ram g = w.mem.ram g := by
    intro g hg
    rw [hpmm] at hg
    have hgpd : g ≠ pd := by
      rintro rfl
      rw [hu, if_pos rfl] at hg
      cases hg
    rw [hof.ram g hgpd, hm₁]
    exact (Function.update_of_ne hgpd ..).trans (htakes.free g hg)
  refine ⟨(Function.update_of_ne hold ..).trans hx, ?_, hne.symm, ⟨?_, ?_⟩, ⟨?_, ?_⟩, ?_,
    fun g hg off => ?_, ?_, ?_⟩
  · have hchild := w.addContext_contexts pd x.heapEnd m₂
    rw [hnext] at hchild
    exact hchild
  · show m₂.pmm.users x.cr3 ≠ 0
    rw [hpmm]
    exact htakes.used _ hused
  · show m₂.pmm.users pd ≠ 0
    rw [hpmm, hu, if_pos rfl]
    decide
  · exact (hent _).trans hstack
  · exact (hent₂ _ (by decide)).trans ((hent₁ _).trans hstack)
  · show m₂.pmm.memBase = 0 ∧ m₂.pmm.memEntries = 16
    rw [hpmm, hs.1, hs.2]
    exact hframes
  · show m₂.ram g off = _
    have hg : m₂.pmm.users g = 0 := hg
    rw [hdata g hg]
    refine hcontents g ?_ off
    by_contra hgu
    rw [hpmm] at hg
    exact htakes.used g hgu hg
  · show LookOk m₂.pmm
    rw [hpmm]
    exact alloc_lookOk hlook ha
  · show freeFrames m₂.pmm = 14
    rw [hpmm]
    omega

/-- The first access of a process to its stack is one step of the world. -/
theorem fault_touches {x : VmmContext} (hx : w.contexts c = some x)
    (hstack : w.mem.entry x.cr3 (pdIndex userStackBase) = lazyEntry (vmmUr ||| vmmUw))
    (hpd : w.mem.pmm.users x.cr3 ≠ 0)
    (hframes : w.mem.pmm.memBase = 0 ∧ w.mem.pmm.memEntries = 16) (hlook : LookOk w.mem.pmm)
    (hroom : 2 ≤ freeFrames w.mem.pmm) :
    ∃ m' f, w.step (.fault c userStackBase false) = some { w with mem := m' } ∧
      FirstTouch w.mem m' x.cr3 userStackBase f ∧ f < 16 := by
  obtain ⟨m', f, hm', ht⟩ := firstTouch (by omega) hstack hpd le_rfl (by decide) hlook hroom
  have hf := ht.tracked
  unfold Tracked at hf
  refine ⟨m', f, ?_, ht, by omega⟩
  simp only [step, Kernel.step, hx, handlePagefault, hm', Option.bind_some, Option.map_some,
    Bool.false_eq_true, if_false]
  rfl

theorem reads_of_load {x : VmmContext} {b : BitVec 8} (hx : w.contexts c = some x)
    (h : w.mem.userLoad x.cr3 address = some b) : w.reads c address = some b := by
  rw [reads, hx]
  exact h

/-- Nobody writes after the fork, and still parent and child find two different things at an address
of the stack that neither had accessed before. -/
theorem untouched_page_differs :
    ¬ ∀ (w₀ w w₁ w₂ w₃ : World) (ops₀ ops ops' : List Op) (c a : Nat) (b b' : BitVec 8),
      w₀.Boot → Run step WithoutShm w₀ ops₀ w → w.step (.fork c) = some w₁ →
      Run step (fun u op => Elsewhere c a u op ∧ Elsewhere w.nextContext a u op) w₁ ops w₂ →
      w₂.reads c a = some b →
      Run step (fun u op => Elsewhere c a u op ∧ Elsewhere w.nextContext a u op) w₂ ops' w₃ →
      w₃.reads w.nextContext a = some b' → b' = b := by
  intro hall
  obtain ⟨w, w₁, x, y, hrun, hfork, hnext, hu⟩ := untouched_fork
  obtain ⟨m, f, hs, ht, hf⟩ := fault_touches hu.parent hu.stack.1 hu.used.1 hu.frames hu.look
    (by rw [hu.room]; decide)
  have hy : m.pmm.users y.cr3 ≠ 0 := ht.takes.used _ hu.used.2
  have hstack : m.entry y.cr3 (pdIndex userStackBase) = lazyEntry (vmmUr ||| vmmUw) :=
    (entry_congr (ht.kept _ hu.used.2 hu.apart.symm) _).trans hu.stack.2
  have hroom := ht.room
  rw [hu.room] at hroom
  obtain ⟨m', g, hs', ht', hg⟩ := fault_touches (w := { w₁ with mem := m }) hu.child hstack hy
    ⟨ht.frames.1.trans hu.frames.1, ht.frames.2.trans hu.frames.2⟩ ht.look
    (by show 2 ≤ freeFrames m.pmm; omega)
  have hgf : g ≠ f := by
    rintro rfl
    exact ht.taken ht'.was_free
  have hg₀ : w₁.mem.pmm.users g = 0 := by
    by_contra hne
    exact ht.takes.used g hne ht'.was_free
  have hb := reads_of_load (w := { w₁ with mem := m }) hu.parent ht.load
  have hb' := reads_of_load (w := { w₁ with mem := m' }) hu.child ht'.load
  have hquiet : ∀ (u : World) c', Elsewhere 0 userStackBase u (.fault c' userStackBase false) ∧
      Elsewhere w.nextContext userStackBase u (.fault c' userStackBase false) := fun u c' =>
    have hlow : userStackBase < physBase := by decide
    ⟨⟨hlow, trivial⟩, hlow, trivial⟩
  rw [← hnext] at hb' hs'
  have heq := hall _ w w₁ _ _ _ _ _ 0 userStackBase _ _ boot_numbered hrun hfork
    (.one (hquiet _ 0) hs) hb (.one (hquiet _ _) hs') hb'
  rw [hu.contents f ht.was_free] at heq
  have hsame : m.ram g = w₁.mem.ram g := ht.takes.free g ht'.was_free
  have heq : BitVec.ofNat 8 g = BitVec.ofNat 8 f := by
    rw [← heq, ← hu.contents g hg₀ (userStackBase % 4096), ← hsame]
  have := congrArg BitVec.toNat heq
  simp only [BitVec.toNat_ofNat] at this
  omega

end World

end Muxomucota.Mmu
