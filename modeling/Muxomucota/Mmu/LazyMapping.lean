import Muxomucota.Mmu.PageStatus

/-!
# Mmu — what `vmmc_lazy_map_area` leaves behind

A round of the loop covers the pages of the area under one directory entry.  It writes the entries of
the page table there, or the directory entry alone where there is none and the area has all of its
pages.  Where there is none and the area has some of its pages, the round makes a page table and writes
the entries of these pages only (`Outcome.made`).  The other entries are what was in the frame before, and
what the directory entry said about them is lost.
-/

namespace Muxomucota.Mmu
open Memory Pmm Lib

variable {m m' m₀ m₁ m₂ : Mem} {pd n i v t k first mid last virt sz : Nat} {w : BitVec 32}
  {flags : BitVec 32}

/-- The flags ask for a page that user programs may write. -/
def wantsWrite (flags : BitVec 32) : Bool := decide (flags &&& (vmmUw ||| vmmPw) ≠ 0)

theorem isRw_lazyEntry (flags : BitVec 32) : isRw (lazyEntry flags) = wantsWrite flags := by
  unfold lazyEntry wantsWrite
  split <;> simp_all

theorem isUs_lazyEntry (flags : BitVec 32) : isUs (lazyEntry flags) = true := by
  simp [lazyEntry]

/-! ### Page tables -/

theorem Held.absentDir (h : Held m pd n) (hw : isPr w = false) : Held (m.setEntry pd k w) pd n := by
  refine ⟨h.toSpace.absentDir hw, h.dir, fun i hi hpi => ?_, h.small⟩
  have heq := Space.entry_absentDir hw hpi
  rw [heq]
  exact h.tables i hi (heq ▸ hpi)

/-- The loops over the entries of one page table; `p` says which ones they leave alone. -/
theorem fillEntries_spec (t : Nat) (w : BitVec 32) (p : BitVec 32 → Bool) (lo : Nat) :
    ∀ (n : Nat) (m : Mem),
      let m' := (List.range' lo n).foldl
        (fun m i => if p (m.entry t i) = true then m else m.setEntry t i w) m
      m'.pmm = m.pmm ∧ (∀ g, g ≠ t → m'.ram g = m.ram g) ∧
        ∀ j, m'.entry t j = if (lo ≤ j ∧ j < lo + n) ∧ p (m.entry t j) = false then w else m.entry t j := by
  intro n
  induction n with
  | zero =>
      intro m
      refine ⟨rfl, fun _ _ => rfl, fun j => (if_neg ?_).symm⟩
      rintro ⟨⟨hlo, hhi⟩, -⟩
      omega
  | succ n ih =>
      intro m
      obtain ⟨hpmm, hram, hent⟩ := ih m
      rw [List.range'_concat, List.foldl_append, List.foldl_cons, List.foldl_nil, Nat.one_mul]
      generalize (List.range' lo n).foldl
        (fun m i => if p (m.entry t i) = true then m else m.setEntry t i w) m = m₁ at hpmm hram hent
      have hold : m₁.entry t (lo + n) = m.entry t (lo + n) := by
        rw [hent, if_neg]
        rintro ⟨⟨-, hlt⟩, -⟩
        omega
      dsimp only
      rw [hold]
      cases hp : p (m.entry t (lo + n)) with
      | true =>
          refine ⟨hpmm, hram, fun j => ?_⟩
          rw [if_pos rfl, hent]
          by_cases hj : j = lo + n
          · rw [hj, if_neg (by simp), if_neg (by rw [hp]; simp)]
          · have hiff : (lo ≤ j ∧ j < lo + (n + 1)) ↔ (lo ≤ j ∧ j < lo + n) := by omega
            simp only [hiff]
      | false =>
          rw [if_neg Bool.false_ne_true]
          refine ⟨hpmm, fun g hg => (setEntry_ram _ _ _ hg).trans (hram g hg), fun j => ?_⟩
          rw [entry_setEntry, hent]
          by_cases hj : j = lo + n
          · rw [if_pos ⟨rfl, hj⟩, hj, if_pos ⟨by omega, hp⟩]
          · have hiff : (lo ≤ j ∧ j < lo + (n + 1)) ↔ (lo ≤ j ∧ j < lo + n) := by omega
            rw [if_neg fun hc => hj hc.2]
            simp only [hiff]

/-! ### One round -/

/-- Some page from `first` to `last` is under directory entry `i`. -/
def Touches (first last i : Nat) : Prop := first < last ∧ first / 1024 ≤ i ∧ i ≤ (last - 1) / 1024

/-- What becomes of page `v` when its directory entry is reached. -/
inductive Outcome (flags : BitVec 32) (m m' : Mem) (pd first last v : Nat) : Prop where
  | table (hpr : isPr (m.entry pd (v / 1024)) = true)
      (hdir : m'.entry pd (v / 1024) = m.entry pd (v / 1024))
      (hpte : m'.entry (frameOf (m.entry pd (v / 1024))) (v % 1024) =
        if (first ≤ v ∧ v < last) ∧ isPr (m.entry (frameOf (m.entry pd (v / 1024))) (v % 1024)) = false
        then lazyEntry flags else m.entry (frameOf (m.entry pd (v / 1024))) (v % 1024))
  | dir (hno : isPr (m.entry pd (v / 1024)) = false) (hin : first ≤ v ∧ v < last)
      (hdir : m'.entry pd (v / 1024) = lazyEntry flags)
  | made (t : Nat) (hno : isPr (m.entry pd (v / 1024)) = false)
      (hdir : m'.entry pd (v / 1024) = entry t (mapPr ||| mapRw ||| mapUs))
      (hf : frameOf (m'.entry pd (v / 1024)) = t) (hfree : m.pmm.users t = 0)
      (hpte : m'.entry t (v % 1024) =
        if first ≤ v ∧ v < last then lazyEntry flags else m.entry t (v % 1024))

/-- What the loop does from page `first` to page `last`. -/
structure Filled (flags : BitVec 32) (m m' : Mem) (pd n first last : Nat) : Prop where
  held : Held m' pd n
  used : ∀ g, m.pmm.users g ≠ 0 → m'.pmm.users g ≠ 0
  free : ∀ g, m'.pmm.users g = 0 → m'.ram g = m.ram g
  reached : ∀ v < n * 1024, Touches first last (v / 1024) → Outcome flags m m' pd first last v
  others : ∀ v < n * 1024, ¬Touches first last (v / 1024) → SameEntries m m' pd v

/-- The pages of a round are under one directory entry. -/
theorem touches_round (hfirst : first / 1024 = k) (hlt : first < last) (hlast : last ≤ (k + 1) * 1024) :
    Touches first last i ↔ i = k := by
  unfold Touches
  omega

theorem Filled.refl (h : Held m pd n) : Filled flags m m pd n first first where
  held := h
  used _ hg := hg
  free _ _ := rfl
  reached _ _ ht := absurd ht.1 (Nat.lt_irrefl _)
  others _ _ _ := ⟨rfl, fun _ => rfl⟩

/-- There is no page table, and the area has all the pages. -/
theorem filled_dir (h : Held m pd n) (hno : isPr (m.entry pd k) = false) :
    Filled flags m (m.setEntry pd k (lazyEntry flags)) pd n (k * 1024) (k * 1024 + 1024) := by
  have hround : ∀ i, Touches (k * 1024) (k * 1024 + 1024) i ↔ i = k := fun i => by
    unfold Touches
    omega
  refine ⟨h.absentDir (isPr_lazyEntry flags), fun g hg => hg, fun g hg => ?_, fun v _ ht => ?_,
    fun v hv ht => ⟨?_, fun hpr => ?_⟩⟩
  · refine setEntry_ram _ _ _ ?_
    rintro rfl
    exact h.dir hg
  · have hk := (hround _).mp ht
    have hin : k * 1024 ≤ v ∧ v < k * 1024 + 1024 := by omega
    refine .dir (by rw [hk]; exact hno) hin ?_
    rw [entry_setEntry, if_pos ⟨rfl, hk⟩]
  · rw [entry_setEntry, if_neg fun hc => ht ((hround _).mpr hc.2)]
  · rw [entry_setEntry, if_neg fun hc => h.notDir _ (by omega) hpr hc.1]

/-- The page table is there. -/
theorem filled_table {c pti : Nat} (h : Held m pd n) (hk : k < n) (hpr : isPr (m.entry pd k) = true)
    (hf : frameOf (m.entry pd k) = t) (hc : 0 < c) (hpti : pti + c ≤ 1024) :
    Filled flags m ((List.range' pti c).foldl
      (fun m i => if isPr (m.entry t i) then m else m.setEntry t i (lazyEntry flags)) m)
      pd n (k * 1024 + pti) (k * 1024 + pti + c) := by
  obtain ⟨hpmm, hram, hent⟩ := fillEntries_spec t (lazyEntry flags) isPr pti c m
  generalize (List.range' pti c).foldl (fun m i => if isPr (m.entry t i) then m
    else m.setEntry t i (lazyEntry flags)) m = m' at hpmm hram hent ⊢
  have hround : ∀ i, Touches (k * 1024 + pti) (k * 1024 + pti + c) i ↔ i = k := fun i =>
    touches_round (by omega) (by omega) (by omega)
  have hdir : ∀ i, m'.entry pd i = m.entry pd i := fun i =>
    entry_congr (hram _ fun heq => h.notDir k hk hpr (hf.trans heq.symm)) i
  have hsame : SameDir m m' pd := ⟨hpmm, hdir⟩
  refine ⟨hsame.held h, fun g hg => by rwa [hpmm], fun g hg => ?_, fun v hv ht => ?_,
    fun v hv ht => ⟨hdir _, fun hpr' => ?_⟩⟩
  · rw [hpmm] at hg
    exact hram g fun heq => h.tables k hk hpr (by rwa [hf, ← heq])
  · have hvk := (hround _).mp ht
    refine .table (by rw [hvk]; exact hpr) (hdir _) ?_
    have hin : (pti ≤ v % 1024 ∧ v % 1024 < pti + c) ↔
        (k * 1024 + pti ≤ v ∧ v < k * 1024 + pti + c) := by omega
    rw [hvk, hf, hent]
    simp only [hin]
  · refine entry_congr (hram _ fun heq => ht ((hround _).mpr ?_)) _
    exact h.apart _ (by omega) k hk hpr' hpr (heq.trans hf.symm)

/-- There is no page table, and the area has some of the pages: a new one is made. -/
theorem filled_made {c pti : Nat} (h : Held m pd n) (hno : isPr (m.entry pd k) = false)
    (ha : m.alloc = some (t, m₁)) (hc : 0 < c) (hpti : pti + c ≤ 1024) :
    Filled flags m ((List.range' pti c).foldl (fun m i => m.setEntry t i (lazyEntry flags))
      (m₁.setEntry pd k (entry t (mapPr ||| mapRw ||| mapUs))))
      pd n (k * 1024 + pti) (k * 1024 + pti + c) := by
  obtain ⟨hram₁, -, -, hu₀, -, hu, -⟩ := alloc_spec ha
  have hf : frameOf (entry t (mapPr ||| mapRw ||| mapUs)) = t := frameOf_entry (alloc_lt h.small ha)
    ((isFlags_mapPr.or isFlags_mapRw).or isFlags_mapUs)
  have hne : pd ≠ t := h.dir_ne hu₀
  obtain ⟨hpmm, hram, hent⟩ := fillEntries_spec t (lazyEntry flags) (fun _ => false) pti c
    (m₁.setEntry pd k (entry t (mapPr ||| mapRw ||| mapUs)))
  simp only [Bool.false_eq_true, if_false, and_true] at hpmm hram hent
  generalize hw : entry t (mapPr ||| mapRw ||| mapUs) = w at hf hpmm hram hent ⊢
  generalize (List.range' pti c).foldl (fun m i => m.setEntry t i (lazyEntry flags))
    (m₁.setEntry pd k w) = m' at hpmm hram hent ⊢
  have hround : ∀ i, Touches (k * 1024 + pti) (k * 1024 + pti + c) i ↔ i = k := fun i =>
    touches_round (by omega) (by omega) (by omega)
  have hdir : ∀ i, m'.entry pd i = if i = k then w else m.entry pd i := by
    intro i
    rw [entry_congr (hram pd hne), entry_setEntry, entry_congr (congrFun hram₁ pd)]
    simp only [true_and]
  have hnew : ∀ j, (m₁.setEntry pd k w).entry t j = m.entry t j := by
    intro j
    rw [entry_setEntry, if_neg fun hc => hne hc.1.symm, entry_congr (congrFun hram₁ t)]
  have husers : ∀ g, m'.pmm.users g = if g = t then 1 else m.pmm.users g := by
    intro g
    rw [hpmm, setEntry_pmm, hu]
  have hkeep : ∀ g, g ≠ pd → g ≠ t → m'.ram g = m.ram g := by
    intro g hgd hgt
    rw [hram g hgt, setEntry_ram _ _ _ hgd, hram₁]
  refine ⟨h.addTable ha (hpmm.trans (setEntry_pmm ..)) hdir hf, fun g hg => ?_, fun g hg => ?_,
    fun v hv ht => ?_, fun v hv ht => ⟨?_, fun hpr => ?_⟩⟩
  · rw [husers]
    split
    · exact Nat.one_ne_zero
    · exact hg
  · rw [husers] at hg
    split at hg
    · cases hg
    · refine hkeep g ?_ ‹_›
      rintro rfl
      exact h.dir hg
  · have hvk := (hround _).mp ht
    have hin : (pti ≤ v % 1024 ∧ v % 1024 < pti + c) ↔
        (k * 1024 + pti ≤ v ∧ v < k * 1024 + pti + c) := by omega
    have hpde : m'.entry pd (v / 1024) = w := by rw [hdir, if_pos hvk]
    refine .made t (by rw [hvk]; exact hno) ?_ (by rw [hpde, hf]) hu₀ ?_
    · exact hpde.trans hw.symm
    · rw [hent, hnew]
      simp only [hin]
  · rw [hdir, if_neg fun hc => ht ((hround _).mpr hc)]
  · have hlt : v / 1024 < n := by omega
    exact entry_congr (hkeep _ (h.notDir _ hlt hpr) (h.table_ne hu₀ _ hlt hpr)) _

/-! ### The loop -/

/-- The entries stay as they are afterwards. -/
theorem Outcome.thenSame {last' : Nat} (h : Outcome flags m m₁ pd first last v)
    (hs : SameEntries m₁ m' pd v) (hin : (first ≤ v ∧ v < last) ↔ (first ≤ v ∧ v < last')) :
    Outcome flags m m' pd first last' v := by
  cases h with
  | table hpr hdir hpte =>
      have htab := hs.table (by rw [hdir]; exact hpr)
      rw [hdir] at htab
      refine .table hpr (hs.dir.trans hdir) (htab.trans (hpte.trans ?_))
      simp only [hin]
  | dir hno hmem hdir => exact .dir hno (hin.mp hmem) (hs.dir.trans hdir)
  | made t hno hdir hf hfree hpte =>
      have htab := hs.table (by rw [hdir]; simp)
      rw [hf] at htab
      refine .made t hno (hs.dir.trans hdir) (by rw [hs.dir, hf]) hfree (htab.trans (hpte.trans ?_))
      simp only [hin]

/-- The entries were the same before, and the free frames too. -/
theorem Outcome.afterSame {first' : Nat} (hs : SameEntries m m₁ pd v)
    (h : Outcome flags m₁ m' pd first last v)
    (hfree : ∀ g, m₁.pmm.users g = 0 → m.pmm.users g = 0 ∧ m₁.ram g = m.ram g)
    (hin : (first ≤ v ∧ v < last) ↔ (first' ≤ v ∧ v < last)) :
    Outcome flags m m' pd first' last v := by
  cases h with
  | table hpr hdir hpte =>
      rw [hs.dir] at hpr hdir hpte
      rw [hs.table hpr] at hpte
      refine .table hpr hdir (hpte.trans ?_)
      simp only [hin]
  | dir hno hmem hdir => exact .dir (hs.dir ▸ hno) (hin.mp hmem) hdir
  | made t hno hdir hf hfree₁ hpte =>
      obtain ⟨hfree₀, hram⟩ := hfree t hfree₁
      refine .made t (hs.dir ▸ hno) hdir hf hfree₀ (hpte.trans ?_)
      rw [entry_congr hram]
      simp only [hin]

/-- A round that ends the area or ends with the pages of its directory entry, and the rounds after it. -/
theorem Filled.trans (h : Filled flags m m₁ pd n first mid) (h' : Filled flags m₁ m' pd n mid last)
    (hlt : first < mid) (hle : mid ≤ last) (hdir : mid ≤ (first / 1024 + 1) * 1024)
    (hend : mid = last ∨ mid = (first / 1024 + 1) * 1024) : Filled flags m m' pd n first last := by
  have hround : ∀ i, Touches first mid i ↔ i = first / 1024 := fun i => touches_round rfl hlt hdir
  refine ⟨h'.held, fun g hg => h'.used g (h.used g hg), fun g hg => ?_, fun v hv ht => ?_, fun v hv ht => ?_⟩
  · exact (h'.free g hg).trans (h.free g (not_not.mp fun hne => h'.used g hne hg))
  · by_cases hv₀ : v / 1024 = first / 1024
    · -- the later rounds are about other directory entries
      have hrest : ¬Touches mid last (v / 1024) := by
        unfold Touches
        omega
      have hin : (first ≤ v ∧ v < mid) ↔ (first ≤ v ∧ v < last) := by omega
      exact (h.reached v hv ((hround _).mpr hv₀)).thenSame (h'.others v hv hrest) hin
    · have hrest : Touches mid last (v / 1024) := by
        unfold Touches at ht ⊢
        omega
      have hin : (mid ≤ v ∧ v < last) ↔ (first ≤ v ∧ v < last) := by omega
      refine .afterSame (h.others v hv fun hc => hv₀ ((hround _).mp hc)) (h'.reached v hv hrest)
        (fun g hg => ⟨?_, h.free g hg⟩) hin
      exact not_not.mp fun hne => h.used g hne hg
  · have hfirst : ¬Touches first mid (v / 1024) := fun hc => ht (by unfold Touches at hc ⊢; omega)
    have hrest : ¬Touches mid last (v / 1024) := fun hc => ht (by unfold Touches at hc ⊢; omega)
    exact (h.others v hv hfirst).trans (h'.others v hv hrest)

theorem lazyMapLoop_nothing (pd : Nat) (flags : BitVec 32) (fuel k pti : Nat) (m : Mem) :
    lazyMapLoop pd flags fuel k pti 0 m = some m := by
  cases fuel <;> rfl

theorem lazyMapLoop_filled :
    ∀ {fuel k pti sz : Nat} {m m' : Mem}, Held m pd n → sz ≤ fuel → pti < 1024 →
      k * 1024 + pti + sz ≤ n * 1024 → lazyMapLoop pd flags fuel k pti sz m = some m' →
      Filled flags m m' pd n (k * 1024 + pti) (k * 1024 + pti + sz) := by
  intro fuel
  induction fuel with
  | zero =>
      intro k pti sz m m' h hsz _ _ hm
      cases hm
      rw [Nat.le_zero.mp hsz, Nat.add_zero]
      exact .refl h
  | succ fuel ih =>
      intro k pti sz m m' h hsz hpti hn hm
      by_cases hzero : sz = 0
      · rw [lazyMapLoop, if_pos hzero] at hm
        cases hm
        rw [hzero, Nat.add_zero]
        exact .refl h
      rw [lazyMapLoop, if_neg hzero] at hm
      have hk : k < n := by omega
      -- what is left begins at the next directory entry, or is nothing
      have hnext : ∀ (m₂ : Mem) (c : Nat), 0 < c → c ≤ sz → pti + c ≤ 1024 → c = sz ∨ pti + c = 1024 →
          Filled flags m m₂ pd n (k * 1024 + pti) (k * 1024 + pti + c) →
          lazyMapLoop pd flags fuel (k + 1) 0 (sz - c) m₂ = some m' →
          Filled flags m m' pd n (k * 1024 + pti) (k * 1024 + pti + sz) := by
        intro m₂ c hc hcsz hcpti hend h₂ hm₂
        rcases hend with rfl | hend
        · rw [Nat.sub_self, lazyMapLoop_nothing] at hm₂
          cases hm₂
          exact h₂
        · have hleft : sz - c ≤ fuel := by omega
          have hfits : (k + 1) * 1024 + (sz - c) ≤ n * 1024 := by omega
          have hrest := ih h₂.held hleft (Nat.succ_pos 1023) (by rwa [Nat.add_zero]) hm₂
          rw [Nat.add_zero, show (k + 1) * 1024 = k * 1024 + pti + c by omega,
            show k * 1024 + pti + c + (sz - c) = k * 1024 + pti + sz by omega] at hrest
          exact h₂.trans hrest (by omega) (by omega) (by omega) (.inr (by omega))
      split at hm
      · rename_i hwhole
        obtain ⟨hno, hfull, rfl⟩ := hwhole
        have hno : isPr (m.entry pd k) = false := by simpa using hno
        refine hnext _ 1024 (Nat.succ_pos 1023) hfull (by omega) (.inr (Nat.zero_add 1024)) ?_ hm
        rw [Nat.add_zero]
        exact filled_dir h hno
      · rename_i hwhole
        have hend : min sz (1024 - pti) = sz ∨ pti + min sz (1024 - pti) = 1024 := by omega
        split at hm
        · rename_i hpr
          exact hnext _ (min sz (1024 - pti)) (by omega) (by omega) (by omega) hend
            (filled_table h hk hpr rfl (by omega) (by omega)) hm
        · rename_i hpr
          have hno : isPr (m.entry pd k) = false := by simpa using hpr
          obtain ⟨⟨t, m₁⟩, ha, hm⟩ := Option.bind_eq_some_iff.mp hm
          exact hnext _ (min sz (1024 - pti)) (by omega) (by omega) (by omega) hend
            (filled_made h hno ha (by omega) (by omega)) hm

end Muxomucota.Mmu
