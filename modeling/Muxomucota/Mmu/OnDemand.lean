import Muxomucota.Mmu.PageContents

/-!
# Mmu — pages that are mapped at the first access

What one `vmmc_do_lazy_map` does to an address space, counted in frames: a page on demand takes a
frame, and another one where its page table is not there yet (`framesFor`).  The call succeeds exactly
if these frames are there, and it changes no other page and no byte of one (`Touch`).
-/

namespace Muxomucota.Mmu
open Memory Pmm Lib

variable {m m' m₁ : Mem} {pd v w i f t a : Nat} {e : BitVec 32}

/-- The next access to the page maps it. -/
def OnDemand (m : Mem) (pd v : Nat) : Prop :=
  isUs (m.entry pd (v / 1024)) = true ∧ (isPr (m.entry pd (v / 1024)) = true →
    isPr (m.entry (frameOf (m.entry pd (v / 1024))) (v % 1024)) = false ∧
      isUs (m.entry (frameOf (m.entry pd (v / 1024))) (v % 1024)) = true)

instance (m : Mem) (pd v : Nat) : Decidable (OnDemand m pd v) := by
  unfold OnDemand
  infer_instance

/-- The next access to a page of the directory entry makes a page table. -/
def NoTable (m : Mem) (pd i : Nat) : Prop :=
  isUs (m.entry pd i) = true ∧ isPr (m.entry pd i) = false

instance (m : Mem) (pd i : Nat) : Decidable (NoTable m pd i) := by
  unfold NoTable
  infer_instance

/-- The frames that an access to each of these pages takes. -/
def framesFor (m : Mem) (pd : Nat) (s : Finset Nat) : Nat :=
  (s.filter (OnDemand m pd)).card + ((s.image (· / 1024)).filter (NoTable m pd)).card

/-- A page that user programs may read. -/
structure UserPage (m : Mem) (pd v : Nat) (e : BitVec 32) : Prop where
  page : m.page pd v = some e
  user : isUs e = true
  table : isUs (m.entry pd (v / 1024)) = true

/-- The directory of a process: its page tables are its own, user programs may not use the entries of the
kernel, and what is on demand is made of small pages. -/
structure OwnDirectory (m : Mem) (pd : Nat) : Prop where
  held : Held m pd userPdes
  kernel : ∀ i, userPdes ≤ i → i < 1024 → isUs (m.entry pd i) = false
  small : ∀ i < 1024, NoTable m pd i → m.entry pd i &&& map4M = 0
  look : LookOk m.pmm

/-- What an access to page `v` does. -/
structure Touch (m m' : Mem) (pd v : Nat) : Prop where
  dir : OwnDirectory m' pd
  data : Mapped m m' pd userPdes
  onDemand : ∀ w < 2 ^ 20, OnDemand m' pd w ↔ OnDemand m pd w ∧ w ≠ v
  noTable : ∀ i < 1024, NoTable m' pd i ↔ NoTable m pd i ∧ i ≠ v / 1024
  old : ∀ w < 2 ^ 20, ∀ e, UserPage m pd w e → UserPage m' pd w e
  new : ∀ w < 2 ^ 20, ∀ e, UserPage m' pd w e → UserPage m pd w e ∨
    w = v ∧ OnDemand m pd v ∧ m.pmm.users (frameOf e) = 0 ∧ IsData m' pd userPdes (frameOf e)
  mapped : OnDemand m pd v → ∃ e, UserPage m' pd v e
  room : freeFrames m'.pmm + framesFor m pd {v} = freeFrames m.pmm

/-! ### One page -/

theorem NoTable.onDemand (h : NoTable m pd (v / 1024)) : OnDemand m pd v :=
  ⟨h.1, fun hpr => by rw [h.2] at hpr; cases hpr⟩

theorem OnDemand.page (h : OnDemand m pd v) : m.page pd v = none := by
  cases hpr : isPr (m.entry pd (v / 1024)) with
  | false => exact page_absent hpr
  | true => rw [page_present hpr, present_eq_none.mpr (h.2 hpr).1]

theorem UserPage.not_onDemand (h : UserPage m pd v e) : ¬OnDemand m pd v := by
  intro hod
  have hpage := h.page
  rw [hod.page] at hpage
  cases hpage

theorem OwnDirectory.onDemand_lt (h : OwnDirectory m pd) (hv : v < 2 ^ 20) (hod : OnDemand m pd v) :
    v / 1024 < userPdes := by
  by_contra hge
  have hus := hod.1
  rw [h.kernel _ (Nat.not_lt.mp hge) (by omega)] at hus
  cases hus

theorem OwnDirectory.userPage_lt (h : OwnDirectory m pd) (hv : v < 2 ^ 20) (hp : UserPage m pd v e) :
    v / 1024 < userPdes := by
  by_contra hge
  have hus := hp.table
  rw [h.kernel _ (Nat.not_lt.mp hge) (by omega)] at hus
  cases hus

theorem framesFor_one (h : OnDemand m pd v) :
    framesFor m pd {v} = 1 + if NoTable m pd (v / 1024) then 1 else 0 := by
  rw [framesFor, Finset.filter_singleton, if_pos h, Finset.image_singleton, Finset.filter_singleton]
  split <;> rfl

theorem framesFor_none (h : ¬OnDemand m pd v) : framesFor m pd {v} = 0 := by
  rw [framesFor, Finset.filter_singleton, if_neg h, Finset.image_singleton, Finset.filter_singleton,
    if_neg fun hno => h hno.onDemand]
  rfl

/-- What user programs read at an address of the page. -/
theorem UserPage.load (h : UserPage m pd (a / 4096) e) (ha : a < physBase) :
    m.userLoad pd a = some (m.ram (frameOf e) (a % 4096)) := by
  obtain ⟨hpage, huser, htable⟩ := h
  have hdir : a / 4096 / 1024 = pdIndex a := by
    unfold pdIndex
    omega
  have hpti : a / 4096 % 1024 = ptIndex a := rfl
  unfold Mem.page at hpage
  rw [hdir] at htable
  rw [hdir, hpti] at hpage
  split at hpage
  · rename_i hpr
    obtain ⟨hpre, rfl⟩ := present_eq_some.mp hpage
    have hk : isKernel a = false := by simpa [isKernel] using ha
    rw [Mem.userLoad, Mem.userReadable, if_pos ⟨hk, hpr, htable⟩]
    dsimp only
    rw [if_pos ⟨hpre, huser⟩, Option.map_some]
  · cases hpage

theorem userPage_of_load {b : BitVec 8} (h : m.userLoad pd a = some b) :
    ∃ e, UserPage m pd (a / 4096) e ∧ m.ram (frameOf e) (a % 4096) = b := by
  obtain ⟨e, hread, hb⟩ := Option.map_eq_some_iff.mp h
  have hdir : a / 4096 / 1024 = pdIndex a := by
    unfold pdIndex
    omega
  have hpti : a / 4096 % 1024 = ptIndex a := rfl
  unfold Mem.userReadable at hread
  split at hread
  · rename_i hdirok
    dsimp only at hread
    split at hread
    · rename_i hpte
      cases hread
      refine ⟨_, ⟨?_, hpte.2, by rw [hdir]; exact hdirok.2.2⟩, hb⟩
      unfold Mem.page
      rw [hdir, hpti, if_pos hdirok.2.1]
      exact present_eq_some.mpr ⟨hpte.1, rfl⟩
    · cases hread
  · cases hread

/-- What `vmmc_address_mapped` says of the page. -/
theorem UserPage.addressMapped (h : UserPage m pd (a / 4096) e) :
    vmmcAddressMapped m pd a = (accessOf e, frameOf e) := by
  rw [addressMapped_page, h.page]
  rfl

theorem OnDemand.addressMapped (h : OnDemand m pd (a / 4096)) : vmmcAddressMapped m pd a = (0, 0) := by
  rw [addressMapped_page, h.page]
  rfl

/-- The entries for the page are as before. -/
structure SameEntries (m m' : Mem) (pd w : Nat) : Prop where
  dir : m'.entry pd (w / 1024) = m.entry pd (w / 1024)
  table : isPr (m.entry pd (w / 1024)) = true →
    m'.entry (frameOf (m.entry pd (w / 1024))) (w % 1024) =
      m.entry (frameOf (m.entry pd (w / 1024))) (w % 1024)

theorem SameEntries.userPage (h : SameEntries m m' pd w) : UserPage m' pd w e ↔ UserPage m pd w e := by
  refine ⟨fun hp => ⟨?_, hp.user, h.dir ▸ hp.table⟩, fun hp => ⟨?_, hp.user, h.dir.symm ▸ hp.table⟩⟩
  · rw [← page_congr h.dir h.table]
    exact hp.page
  · rw [page_congr h.dir h.table]
    exact hp.page

theorem SameEntries.onDemand (h : SameEntries m m' pd w) : OnDemand m' pd w ↔ OnDemand m pd w := by
  unfold OnDemand
  rw [h.dir]
  refine and_congr_right fun _ => forall_congr' fun hpr => ?_
  rw [h.table hpr]

/-- A frame is taken, and besides it only the directory and the page tables change. -/
theorem OwnDirectory.mapped (h : OwnDirectory m pd) (ha : m.alloc = some (f, m₁))
    (hpmm : m'.pmm = m₁.pmm)
    (htables : ∀ k < userPdes, isPr (m'.entry pd k) = true → frameOf (m'.entry pd k) = f ∨
      isPr (m.entry pd k) = true ∧ frameOf (m.entry pd k) = frameOf (m'.entry pd k))
    (hkeep : ∀ g, g ≠ f → g ≠ pd →
      (∀ k < userPdes, isPr (m.entry pd k) = true → frameOf (m.entry pd k) ≠ g) →
      m'.ram g = m.ram g) :
    Mapped m m' pd userPdes := by
  obtain ⟨-, -, -, hu₀, -, hu, -⟩ := alloc_spec ha
  refine ⟨fun g hg => ?_, fun g hg => ?_, fun g hg => ?_⟩
  · have hgf : g ≠ f := by
      rintro rfl
      exact hg.used hu₀
    refine ⟨⟨?_, hg.notDir, fun k hk hpr' => ?_⟩, hkeep g hgf hg.notDir hg.notTable⟩
    · rw [hpmm, hu, if_neg hgf]
      exact hg.used
    · rcases htables k hk hpr' with heq | ⟨hpr, heq⟩
      · rw [heq]
        exact hgf.symm
      · rw [← heq]
        exact hg.notTable k hk hpr
  · rw [hpmm, hu]
    split
    · exact Nat.one_ne_zero
    · exact hg
  · rw [hpmm, hu] at hg
    split at hg
    · cases hg
    · rename_i hgf
      refine hkeep g hgf ?_ fun k hk hpr heq => h.held.tables k hk hpr (heq ▸ hg)
      rintro rfl
      exact h.held.dir hg

/-! ### A page table -/

/-- The flags of a page table that is made on demand, without the present bit. -/
def demandFlags (pde : BitVec 32) : BitVec 32 := (pde &&& mapRw) ||| mapUs

theorem isFlags_demandFlags (pde : BitVec 32) : IsFlags (demandFlags pde) :=
  (IsFlags.and_right isFlags_mapRw).or isFlags_mapUs

theorem isUs_demandFlags (pde : BitVec 32) : isUs (demandFlags pde) = true := by simp [demandFlags]

theorem isPr_demandFlags (pde : BitVec 32) : isPr (demandFlags pde) = false := by simp [demandFlags]

/-- A page table made on demand: its pages still are. -/
theorem OwnDirectory.newTable (h : OwnDirectory m pd) (hno : NoTable m pd i) (hi : i < userPdes)
    (ha : m.alloc = some (t, m₁))
    (hm : m' = (m₁.setEntry pd i (entry t (demandFlags (m.entry pd i) ||| mapPr))).fillWords t
      (demandFlags (m.entry pd i))) :
    OwnDirectory m' pd ∧ Mapped m m' pd userPdes ∧
      (isPr (m'.entry pd i) = true ∧ frameOf (m'.entry pd i) = t) ∧
      (∀ w < 2 ^ 20, OnDemand m' pd w ↔ OnDemand m pd w) ∧
      (∀ k < 1024, NoTable m' pd k ↔ NoTable m pd k ∧ k ≠ i) ∧
      (∀ w < 2 ^ 20, ∀ e, UserPage m' pd w e ↔ UserPage m pd w e) ∧
      freeFrames m'.pmm + 1 = freeFrames m.pmm := by
  obtain ⟨hram, hs, htr, hu₀, -, hu, -⟩ := alloc_spec ha
  have hlt : t < 2 ^ 20 := tracked_lt h.held.small htr
  have hne : pd ≠ t := h.held.dir_ne hu₀
  have hfl : IsFlags (demandFlags (m.entry pd i) ||| mapPr) := (isFlags_demandFlags _).or isFlags_mapPr
  generalize hw : entry t (demandFlags (m.entry pd i) ||| mapPr) = w at hm
  have hwpr : isPr w = true := by rw [← hw, isPr_entry]; simp
  have hwus : isUs w = true := by rw [← hw, isUs_entry, isUs_or, isUs_demandFlags]; rfl
  have hwf : frameOf w = t := hw ▸ frameOf_entry hlt hfl
  generalize hfill : demandFlags (m.entry pd i) = fill at hm
  have hfpr : isPr fill = false := hfill ▸ isPr_demandFlags _
  have hfus : isUs fill = true := hfill ▸ isUs_demandFlags _
  obtain ⟨hheld, hself, hpage⟩ := h.held.newTable hno.2 ha hwpr hwf hfpr
  rw [← hm] at hheld hself hpage
  have hkeep : ∀ g, g ≠ pd → g ≠ t → m'.ram g = m.ram g := by
    intro g hgd hgt
    rw [hm, fillWords_ram _ _ hgt, setEntry_ram _ _ _ hgd, hram]
  have hdir : ∀ k, m'.entry pd k = if k = i then w else m.entry pd k := by
    intro k
    rw [hm, entry_congr (fillWords_ram _ _ hne), entry_setEntry, entry_congr (congrFun hram pd)]
    simp only [true_and]
  have hpmm : m'.pmm = m₁.pmm := by rw [hm, fillWords_pmm, setEntry_pmm]
  have hnew : ∀ k < userPdes, isPr (m.entry pd k) = true → frameOf (m.entry pd k) ≠ t :=
    h.held.table_ne hu₀
  have hsame : ∀ x, x / 1024 ≠ i → x / 1024 < userPdes → SameEntries m m' pd x := by
    refine fun x hx hlt' => ⟨by rw [hdir, if_neg hx], fun hpr => ?_⟩
    exact entry_congr (hkeep _ (h.held.notDir _ hlt' hpr) (hnew _ hlt' hpr)) _
  have hnt : ∀ k < 1024, NoTable m' pd k ↔ NoTable m pd k ∧ k ≠ i := by
    intro k _
    unfold NoTable
    rw [hdir]
    split
    · rename_i hki
      refine iff_of_false (fun h' => ?_) fun h' => h'.2 hki
      rw [hwpr] at h'
      cases h'.2
    · rename_i hki
      exact (and_iff_left hki).symm
  have hown : OwnDirectory m' pd := by
    refine ⟨hheld, fun k hlo hhi => ?_, fun k hk hnt' => ?_, ?_⟩
    · rw [hdir, if_neg (by omega)]
      exact h.kernel k hlo hhi
    · obtain ⟨hno', hki⟩ := (hnt k hk).mp hnt'
      rw [hdir, if_neg hki]
      exact h.small k hk hno'
    · rw [hpmm]
      exact alloc_lookOk h.look ha
  have htables : ∀ k < userPdes, isPr (m'.entry pd k) = true → frameOf (m'.entry pd k) = t ∨
      isPr (m.entry pd k) = true ∧ frameOf (m.entry pd k) = frameOf (m'.entry pd k) := by
    intro k _
    rw [hdir]
    split
    · exact fun _ => .inl hwf
    · exact fun hpr => .inr ⟨hpr, rfl⟩
  refine ⟨hown, h.mapped ha hpmm htables fun g hgt hgd _ => hkeep g hgd hgt,
    ⟨by rw [hself, hwpr], by rw [hself, hwf]⟩, fun x hx => ?_, hnt, fun x hx e => ?_, ?_⟩
  · by_cases hlow : x / 1024 < userPdes
    · by_cases hxi : x / 1024 = i
      · refine iff_of_true ⟨by rw [hdir, if_pos hxi]; exact hwus, fun _ => ?_⟩
          (NoTable.onDemand (by rw [hxi]; exact hno))
        have hent : m'.entry t (x % 1024) = fill := by
          rw [hm]
          exact entry_fillWords ..
        rw [hdir, if_pos hxi, hwf, hent]
        exact ⟨hfpr, hfus⟩
      · exact (hsame x hxi hlow).onDemand
    · exact iff_of_false (fun h' => hlow (hown.onDemand_lt hx h')) fun h' => hlow (h.onDemand_lt hx h')
  · by_cases hlow : x / 1024 < userPdes
    · have hpg := hpage x ((Nat.div_lt_iff_lt_mul (by decide : 0 < 1024)).mp hlow)
      refine ⟨fun hp => ⟨hpg ▸ hp.page, hp.user, ?_⟩, fun hp => ⟨hpg ▸ hp.page, hp.user, ?_⟩⟩
      · have hus := hp.table
        rw [hdir] at hus
        split at hus
        · rename_i hxi
          rw [hxi]
          exact hno.1
        · exact hus
      · rw [hdir]
        split
        · exact hwus
        · exact hp.table
    · exact iff_of_false (fun h' => hlow (hown.userPage_lt hx h')) fun h' => hlow (h.userPage_lt hx h')
  · rw [hpmm]
    exact alloc_freeFrames ha

/-! ### A page -/

/-- A page on demand whose page table is there gets a frame. -/
theorem OwnDirectory.newPage {fl : BitVec 32} (h : OwnDirectory m pd) (hod : OnDemand m pd v)
    (hv : v < 2 ^ 20) (hpr : isPr (m.entry pd (v / 1024)) = true) (ha : m.alloc = some (f, m₁))
    (hfl : IsFlags fl) (hflp : isPr fl = true) (hflu : isUs fl = true) (hpmm : m'.pmm = m₁.pmm)
    (hram : ∀ g, g ≠ f →
      m'.ram g = (m₁.setEntry (frameOf (m.entry pd (v / 1024))) (v % 1024) (entry f fl)).ram g) :
    Touch m m' pd v := by
  have hlow := h.onDemand_lt hv hod
  obtain ⟨hram₁, hs, htr, hu₀, -, hu, -⟩ := alloc_spec ha
  have hlt : f < 2 ^ 20 := tracked_lt h.held.small htr
  have hfd : f ≠ pd := (h.held.dir_ne hu₀).symm
  have hft : ∀ k < userPdes, isPr (m.entry pd k) = true → frameOf (m.entry pd k) ≠ f :=
    h.held.table_ne hu₀
  generalize hw : entry f fl = w at hram
  have hwpr : isPr w = true := by rw [← hw, isPr_entry]; exact hflp
  have hwus : isUs w = true := by rw [← hw, isUs_entry]; exact hflu
  have hwf : frameOf w = f := hw ▸ frameOf_entry hlt hfl
  generalize ht : frameOf (m.entry pd (v / 1024)) = t at hram
  have htd : t ≠ pd := ht ▸ h.held.notDir _ hlow hpr
  have htf : t ≠ f := ht ▸ hft _ hlow hpr
  have hent : ∀ g, g ≠ f → ∀ i, m'.entry g i = if g = t ∧ i = v % 1024 then w else m.entry g i := by
    intro g hg i
    rw [entry_congr (hram g hg), entry_setEntry, entry_congr (congrFun hram₁ g)]
  have hdir : ∀ i, m'.entry pd i = m.entry pd i := fun i => by
    rw [hent pd hfd.symm, if_neg fun hc => htd hc.1.symm]
  have hsame : ∀ x < 2 ^ 20, x ≠ v → x / 1024 < userPdes → SameEntries m m' pd x := by
    refine fun x _ hx hlt' => ⟨hdir _, fun hpr' => ?_⟩
    rw [hent _ (hft _ hlt' hpr'), if_neg]
    rintro ⟨heq, hmod⟩
    have hdiv := h.held.apart _ hlt' _ hlow hpr' hpr (heq.trans ht.symm)
    omega
  have hself : m'.page pd v = some w := by
    rw [page_present (by rw [hdir]; exact hpr), hdir, ht, hent t htf, if_pos ⟨rfl, rfl⟩]
    exact present_eq_some.mpr ⟨hwpr, rfl⟩
  have hown : OwnDirectory m' pd := by
    refine ⟨⟨h.held.toSpace.of_dir fun i _ => hdir i, ?_, fun i hi => ?_, ?_⟩, fun i hlo hhi => ?_,
      fun i hi hno => ?_, ?_⟩
    · rw [hpmm, hu, if_neg hfd.symm]
      exact h.held.dir
    · rw [hdir, hpmm, hu]
      intro hpr'
      rw [if_neg (hft i hi hpr')]
      exact h.held.tables i hi hpr'
    · rw [hpmm, hs.1, hs.2]
      exact h.held.small
    · rw [hdir]
      exact h.kernel i hlo hhi
    · rw [NoTable, hdir] at hno
      rw [hdir]
      exact h.small i hi hno
    · rw [hpmm]
      exact alloc_lookOk h.look ha
  have hdata : IsData m' pd userPdes f := by
    refine ⟨?_, hfd, fun i hi => ?_⟩
    · rw [hpmm, hu, if_pos rfl]
      exact Nat.one_ne_zero
    · rw [hdir]
      exact hft i hi
  have hnt : ¬NoTable m pd (v / 1024) := fun hno => by
    rw [hno.2] at hpr
    cases hpr
  have hmapped : Mapped m m' pd userPdes := by
    refine h.mapped ha hpmm (fun k _ hpr' => .inr ?_) fun g hgf _ hno => ?_
    · rw [hdir] at hpr' ⊢
      exact ⟨hpr', rfl⟩
    · rw [hram g hgf, setEntry_ram _ _ _ fun heq => hno _ hlow hpr (ht.trans heq.symm), hram₁]
  refine ⟨hown, hmapped, fun x hx => ?_, fun i hi => ?_,
    fun x hx e hp => ?_, fun x hx e hp => ?_, fun _ => ⟨w, hself, hwus, ?_⟩, ?_⟩
  · by_cases hxv : x = v
    · subst hxv
      exact iff_of_false (fun hod' => (UserPage.not_onDemand ⟨hself, hwus, by rw [hdir]; exact hod.1⟩) hod')
        fun h' => h'.2 rfl
    · rw [and_iff_left hxv]
      by_cases hlow' : x / 1024 < userPdes
      · exact (hsame x hx hxv hlow').onDemand
      · exact iff_of_false (fun h' => hlow' (hown.onDemand_lt hx h')) fun h' => hlow' (h.onDemand_lt hx h')
  · unfold NoTable
    rw [hdir]
    refine (and_iff_left_of_imp ?_).symm
    rintro hno rfl
    exact hnt hno
  · have hxv : x ≠ v := by
      rintro rfl
      exact hp.not_onDemand hod
    exact (hsame x hx hxv (h.userPage_lt hx hp)).userPage.mpr hp
  · by_cases hxv : x = v
    · subst hxv
      have he := hp.page
      rw [hself] at he
      cases he
      rw [hwf]
      exact .inr ⟨rfl, hod, hu₀, hdata⟩
    · exact .inl ((hsame x hx hxv (hown.userPage_lt hx hp)).userPage.mp hp)
  · rw [hdir]
    exact hod.1
  · rw [framesFor_one hod, if_neg hnt, hpmm]
    exact alloc_freeFrames ha

/-- Nothing is on demand there. -/
theorem Touch.nothing (h : OwnDirectory m pd) (hod : ¬OnDemand m pd v) : Touch m m pd v where
  dir := h
  data := ⟨fun _ hg => ⟨hg, rfl⟩, fun _ hg => hg, fun _ _ => rfl⟩
  onDemand w _ := (and_iff_left_of_imp fun hw => by rintro rfl; exact hod hw).symm
  noTable i _ := (and_iff_left_of_imp fun hi => by rintro rfl; exact hod hi.onDemand).symm
  old _ _ _ hp := hp
  new _ _ _ hp := .inl hp
  mapped hod' := absurd hod' hod
  room := by rw [framesFor_none hod, Nat.add_zero]

/-- `vmmc_do_lazy_map` where the page table is there. -/
theorem doLazyMap_table (h : OwnDirectory m pd) (hv : v < 2 ^ 20) (hod : OnDemand m pd v)
    (hpr : isPr (m.entry pd (v / 1024)) = true) :
    (freeFrames m.pmm = 0 → vmmcDoLazyMap m pd (v * 4096) = none) ∧
      (0 < freeFrames m.pmm → ∃ m', vmmcDoLazyMap m pd (v * 4096) = some (true, m') ∧ Touch m m' pd v) := by
  have hpdi : pdIndex (v * 4096) = v / 1024 := by
    unfold pdIndex
    omega
  have hpti : ptIndex (v * 4096) = v % 1024 := by
    unfold ptIndex
    omega
  obtain ⟨hpte, hpteus⟩ := hod.2 hpr
  have hgo : ∀ r : Option (Bool × Mem), (m.alloc.map fun a =>
      let m₂ := a.2.setEntry (frameOf (m.entry pd (v / 1024))) (v % 1024)
        (entry a.1 ((a.2.entry (frameOf (m.entry pd (v / 1024))) (v % 1024) &&& mapRw) ||| mapUs ||| mapPr))
      if userHeritageBase ≤ v * 4096 ∧ v * 4096 < userHeritageTop then (true, m₂.fillFrame a.1 0)
      else (true, m₂)) = r → vmmcDoLazyMap m pd (v * 4096) = r := by
    rintro r rfl
    unfold vmmcDoLazyMap lazyTable
    simp only [hpdi, hpti]
    rw [if_neg (not_not.mpr hod.1), if_pos hpr, Option.bind_some]
    dsimp only
    rw [if_neg (by rw [hpte, hpteus]; decide)]
  refine ⟨fun hzero => hgo none ?_, fun hpos => ?_⟩
  · cases ha : m.alloc with
    | none => rfl
    | some r =>
        have hroom := alloc_freeFrames (show m.alloc = some (r.1, r.2) from ha)
        omega
  · obtain ⟨f, m₁, ha⟩ := alloc_isSome h.look hpos
    have hfl : IsFlags ((m₁.entry (frameOf (m.entry pd (v / 1024))) (v % 1024) &&& mapRw) ||| mapUs |||
        mapPr) := ((IsFlags.and_right isFlags_mapRw).or isFlags_mapUs).or isFlags_mapPr
    rw [ha, Option.map_some] at hgo
    dsimp only at hgo
    split at hgo
    · exact ⟨_, hgo _ rfl, h.newPage hod hv hpr ha hfl (by simp) (by simp) rfl
        fun g hg => fillFrame_ram _ _ hg⟩
    · exact ⟨_, hgo _ rfl, h.newPage hod hv hpr ha hfl (by simp) (by simp) rfl fun _ _ => rfl⟩

/-- Where it is not, it is made first. -/
theorem doLazyMap_newTable (h : OwnDirectory m pd) (hno : NoTable m pd (v / 1024)) (hv : v < 2 ^ 20)
    (ha : m.alloc = some (t, m₁))
    (hm : m' = (m₁.setEntry pd (v / 1024) (entry t (demandFlags (m.entry pd (v / 1024)) ||| mapPr))).fillWords
      t (demandFlags (m.entry pd (v / 1024)))) (hus : isUs (m'.entry pd (v / 1024)) = true)
    (hpr : isPr (m'.entry pd (v / 1024)) = true) (hf : frameOf (m'.entry pd (v / 1024)) = t) :
    vmmcDoLazyMap m pd (v * 4096) = vmmcDoLazyMap m' pd (v * 4096) := by
  have hpdi : pdIndex (v * 4096) = v / 1024 := by
    unfold pdIndex
    omega
  have hsmall := h.small _ (by omega) hno
  have htable : lazyTable m pd (v / 1024) = some (t, m') := by
    rw [hm, lazyTable, if_neg (by rw [hno.2]; decide), if_neg (not_not.mpr hsmall), ha]
    rfl
  have htable' : lazyTable m' pd (v / 1024) = some (t, m') := by rw [lazyTable, if_pos hpr, hf]
  unfold vmmcDoLazyMap
  simp only [hpdi]
  rw [if_neg (not_not.mpr hno.1), if_neg (not_not.mpr hus), htable, htable']

/-- **One access**: it succeeds exactly if there are the frames it takes. -/
theorem doLazyMap_touch (h : OwnDirectory m pd) (hv : v < 2 ^ 20) :
    (freeFrames m.pmm < framesFor m pd {v} → vmmcDoLazyMap m pd (v * 4096) = none) ∧
      (framesFor m pd {v} ≤ freeFrames m.pmm →
        ∃ b m', vmmcDoLazyMap m pd (v * 4096) = some (b, m') ∧ Touch m m' pd v) := by
  have hpdi : pdIndex (v * 4096) = v / 1024 := by
    unfold pdIndex
    omega
  have hpti : ptIndex (v * 4096) = v % 1024 := by
    unfold ptIndex
    omega
  by_cases hod : OnDemand m pd v
  · cases hpr : isPr (m.entry pd (v / 1024)) with
    | true =>
        have hnt : ¬NoTable m pd (v / 1024) := fun hno => by
          rw [hno.2] at hpr
          cases hpr
        obtain ⟨hnone, hsome⟩ := doLazyMap_table h hv hod hpr
        rw [framesFor_one hod, if_neg hnt]
        refine ⟨fun hlt => hnone (by omega), fun hle => ?_⟩
        obtain ⟨m', hm', ht⟩ := hsome (by omega)
        exact ⟨true, m', hm', ht⟩
    | false =>
        have hno : NoTable m pd (v / 1024) := ⟨hod.1, hpr⟩
        have hlow := h.onDemand_lt hv hod
        rw [framesFor_one hod, if_pos hno]
        cases ha : m.alloc with
        | none =>
            have hnone : vmmcDoLazyMap m pd (v * 4096) = none := by
              unfold vmmcDoLazyMap
              simp only [hpdi]
              rw [if_neg (not_not.mpr hod.1), lazyTable, if_neg (by rw [hpr]; decide),
                if_neg (not_not.mpr (h.small _ (by omega) hno)), ha]
              rfl
            refine ⟨fun _ => hnone, fun hle => ?_⟩
            obtain ⟨f, m₁, hf⟩ := alloc_isSome h.look (by omega)
            rw [ha] at hf
            cases hf
        | some r =>
            obtain ⟨t, m₁⟩ := r
            generalize hm : (m₁.setEntry pd (v / 1024) (entry t (demandFlags (m.entry pd (v / 1024)) |||
              mapPr))).fillWords t (demandFlags (m.entry pd (v / 1024))) = m₂
            obtain ⟨hown, hdata, ⟨hpr₂, hf₂⟩, hod₂, hnt₂, hpages, hroom⟩ :=
              h.newTable hno hlow ha hm.symm
            have hodv := (hod₂ v hv).mpr hod
            rw [doLazyMap_newTable h hno hv ha hm.symm hodv.1 hpr₂ hf₂]
            obtain ⟨hnone, hsome⟩ := doLazyMap_table hown hv hodv hpr₂
            refine ⟨fun hlt => hnone (by omega), fun hle => ?_⟩
            obtain ⟨m', hm', ht⟩ := hsome (by omega)
            refine ⟨true, m', hm', ht.dir, hdata.trans ht.data, fun w hw => ?_, fun i hi => ?_,
              fun w hw e hp => ht.old w hw e ((hpages w hw e).mpr hp), fun w hw e hp => ?_,
              fun _ => ht.mapped hodv, ?_⟩
            · rw [ht.onDemand w hw, hod₂ w hw]
            · rw [ht.noTable i hi, hnt₂ i hi, and_assoc, and_self]
            · rcases ht.new w hw e hp with hp | ⟨hwv, -, hfree, hd⟩
              · exact .inl ((hpages w hw e).mp hp)
              · refine .inr ⟨hwv, hod, ?_, hd⟩
                by_contra hne
                exact hdata.used _ hne hfree
            · have hroom' := ht.room
              rw [framesFor_one hodv, if_neg fun hno' => ((hnt₂ _ (by omega)).mp hno').2 rfl] at hroom'
              rw [framesFor_one hod, if_pos hno]
              omega
  · rw [framesFor_none hod]
    refine ⟨fun hlt => absurd hlt (Nat.not_lt_zero _), fun _ => ⟨false, m, ?_, .nothing h hod⟩⟩
    unfold vmmcDoLazyMap
    simp only [hpdi, hpti]
    by_cases hus : isUs (m.entry pd (v / 1024)) = true
    · -- user programs may use the directory entry, so that its page table must be there
      have hpr : isPr (m.entry pd (v / 1024)) = true := by
        by_contra hpr
        exact hod ⟨hus, fun h' => absurd h' hpr⟩
      rw [if_neg (not_not.mpr hus), lazyTable, if_pos hpr, Option.bind_some]
      dsimp only
      rw [if_pos]
      by_contra hno
      rw [not_or, not_not, Bool.not_eq_true] at hno
      exact hod ⟨hus, fun _ => hno⟩
    · rw [if_pos hus]

end Muxomucota.Mmu
