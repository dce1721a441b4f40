import Muxomucota.Lib.RefCount
import Muxomucota.Mmu.Tables

/-!
# Mmu — address spaces and the frames they hold

`spaces c = some pd` says that the context `c` lives and its page directory is in frame `pd`.
`tables` and `pages` read physical memory the way the processor does: the page table of a
directory entry, and the present entry of a page, named by its page number `address >> 12`.

A frame is held by *slots*: the directory of a context, a page table, a present page, or a
reference of another kind `ρ` (a shared-memory object keeps some).  `Owned` is the invariant of the
whole kernel: no frame has more holders than its user count, up to the references `d` that the
running function has taken and not yet stored (`d < 0`) or stored and not yet taken (`0 < d`); and
a directory or page table is held by nobody else.  From it follow the frame conditions: a write to
one page table changes one page of one address space.
-/

namespace Muxomucota.Mmu
open Memory Pmm Lib

variable {ρ : Type} {P : Nat → Option Nat} {R : ρ → Option Nat} {d d' : Nat → Int} {m m' : Mem}
  {c c' pd pdi pti v t f : Nat} {w : BitVec 32}

/-! ### What the processor sees -/

/-- The word, if it is present. -/
def present (w : BitVec 32) : Option (BitVec 32) := if isPr w then some w else none

@[simp] theorem present_eq_some {w e : BitVec 32} : present w = some e ↔ isPr w = true ∧ w = e := by
  unfold present; split <;> simp_all

@[simp] theorem present_eq_none {w : BitVec 32} : present w = none ↔ isPr w = false := by
  unfold present; split <;> simp_all

/-- The page table of entry `pdi` of the directory in `pd`. -/
def Mem.table (m : Mem) (pd pdi : Nat) : Option Nat :=
  if pdi < userPdes then (present (m.entry pd pdi)).map frameOf else none

/-- The present entry of page `v` under the directory in `pd`. -/
def Mem.pte (m : Mem) (pd v : Nat) : Option (BitVec 32) :=
  (m.table pd (v / 1024)).bind fun t => present (m.entry t (v % 1024))

/-- The page table of entry `pdi` of context `c`. -/
def tables (P : Nat → Option Nat) (m : Mem) (c pdi : Nat) : Option Nat :=
  (P c).bind fun pd => m.table pd pdi

/-- The present entry of page `v` of context `c`. -/
def pages (P : Nat → Option Nat) (m : Mem) (c v : Nat) : Option (BitVec 32) :=
  (P c).bind fun pd => m.pte pd v

theorem tables_eq (hc : P c = some pd) (pdi : Nat) : tables P m c pdi = m.table pd pdi := by
  simp [tables, hc]

theorem pages_eq (hc : P c = some pd) (v : Nat) : pages P m c v = m.pte pd v := by
  simp [pages, hc]

theorem table_eq_some : m.table pd pdi = some t ↔
    pdi < userPdes ∧ isPr (m.entry pd pdi) = true ∧ frameOf (m.entry pd pdi) = t := by
  unfold Mem.table
  split <;> simp_all [and_assoc]

theorem pages_eq_bind : pages P m c v =
    (tables P m c (v / 1024)).bind fun t => present (m.entry t (v % 1024)) := by
  unfold pages tables Mem.pte
  cases P c <;> rfl

/-- A page that is mapped has a page table. -/
theorem pages_eq_some {e : BitVec 32} : pages P m c v = some e ↔
    ∃ t, tables P m c (v / 1024) = some t ∧ isPr e = true ∧ m.entry t (v % 1024) = e := by
  rw [pages_eq_bind]
  simp only [Option.bind_eq_some_iff, present_eq_some]
  grind

/-- The frame of page `v` of context `c`. -/
def maps (P : Nat → Option Nat) (m : Mem) (c v : Nat) : Option Nat := (pages P m c v).map frameOf

/-! ### Slots -/

/-- The places that hold a reference to a frame. -/
inductive Slot (ρ : Type) where
  | dir (c : Nat)
  | table (c pdi : Nat)
  | page (c v : Nat)
  | ref (r : ρ)

/-- What the slots hold. -/
def slots (P : Nat → Option Nat) (R : ρ → Option Nat) (m : Mem) : Slot ρ → Option Nat
  | .dir c => P c
  | .table c pdi => tables P m c pdi
  | .page c v => maps P m c v
  | .ref r => R r

/-- A page directory or page table is in `f`. -/
def Structural (P : Nat → Option Nat) (m : Mem) (f : Nat) : Prop :=
  (∃ c, P c = some f) ∨ ∃ c pdi, tables P m c pdi = some f

/-- One reference to `f`. -/
def one (f : Nat) : Nat → Int := fun g => if g = f then 1 else 0

/-- **The ownership invariant.** -/
structure Owned (P : Nat → Option Nat) (R : ρ → Option Nat) (d : Nat → Int) (m : Mem) : Prop where
  covered : Covered (slots P R m) fun f => (m.pmm.users f + d f).toNat
  nonneg : ∀ f, 0 ≤ m.pmm.users f + d f
  idle : ∀ f, m.pmm.users f = 0 → d f ≤ 0
  solo : ∀ f, Structural P m f → m.pmm.users f = 1 ∧ d f = 0
  small : m.pmm.memBase + m.pmm.memEntries ≤ 2 ^ 20

namespace Owned

variable {s q : Slot ρ}

theorem users_pos (h : Owned P R d m) (hs : slots P R m s = some f) : 0 < m.pmm.users f := by
  have hn := h.covered.pos hs
  refine Nat.pos_of_ne_zero fun h₀ => ?_
  have := h.idle f h₀
  omega

/-- A frame with one reference has one holder. -/
theorem sole (h : Owned P R d m) (hf : m.pmm.users f = 1 ∧ d f = 0) (hs : slots P R m s = some f)
    (hq : slots P R m q = some f) : s = q :=
  h.covered.sole (by simp [hf.1, hf.2]) hs hq

theorem solo_dir (h : Owned P R d m) (hc : P c = some pd) : m.pmm.users pd = 1 ∧ d pd = 0 :=
  h.solo pd (.inl ⟨c, hc⟩)

theorem solo_table (h : Owned P R d m) (ht : tables P m c pdi = some t) :
    m.pmm.users t = 1 ∧ d t = 0 :=
  h.solo t (.inr ⟨c, pdi, ht⟩)

theorem dir_inj (h : Owned P R d m) (hc : P c = some pd) (hc' : P c' = some pd) : c = c' := by
  have := h.sole (s := .dir c) (q := .dir c') (h.solo_dir hc) hc hc'
  simpa using this

theorem table_inj {pdi' : Nat} (h : Owned P R d m) (ht : tables P m c pdi = some t)
    (ht' : tables P m c' pdi' = some t) : c = c' ∧ pdi = pdi' := by
  have := h.sole (s := .table c pdi) (q := .table c' pdi') (h.solo_table ht) ht ht'
  simpa using this

theorem table_ne_dir (h : Owned P R d m) (ht : tables P m c pdi = some t) (hc : P c' = some pd) :
    t ≠ pd := by
  rintro rfl
  simpa using h.sole (s := .table c pdi) (q := .dir c') (h.solo_dir hc) ht hc

theorem not_structural (h : Owned P R d m) (hs : maps P m c v = some f) : ¬ Structural P m f := by
  rintro (⟨c', hc'⟩ | ⟨c', pdi, ht⟩)
  · simpa using h.sole (s := .page c v) (q := .dir c') (h.solo_dir hc') hs hc'
  · simpa using h.sole (s := .page c v) (q := .table c' pdi) (h.solo_table ht) hs ht

end Owned

/-! ### Frame conditions -/

/-- The views depend on the directories and page tables only. -/
theorem views_congr (hdir : ∀ c pd, P c = some pd → m'.ram pd = m.ram pd)
    (htab : ∀ c pdi t, tables P m c pdi = some t → m'.ram t = m.ram t) :
    tables P m' = tables P m ∧ pages P m' = pages P m := by
  have ht : tables P m' = tables P m := by
    funext c pdi
    cases hc : P c with
    | none => simp [tables, hc]
    | some pd => rw [tables_eq hc, tables_eq hc, Mem.table, Mem.table, entry_congr (hdir c pd hc)]
  refine ⟨ht, ?_⟩
  funext c v
  rw [pages_eq_bind, pages_eq_bind, ht]
  cases htv : tables P m c (v / 1024) with
  | none => rfl
  | some t => rw [Option.bind_some, Option.bind_some, entry_congr (htab _ _ _ htv)]

theorem views_of_ram (h : m'.ram = m.ram) : tables P m' = tables P m ∧ pages P m' = pages P m :=
  views_congr (fun _ _ _ => by rw [h]) fun _ _ _ _ => by rw [h]

/-- Writing outside the directories and page tables changes no view. -/
theorem views_of_data (h : ∀ g, Structural P m g → m'.ram g = m.ram g) :
    tables P m' = tables P m ∧ pages P m' = pages P m :=
  views_congr (fun c _ hc => h _ (.inl ⟨c, hc⟩)) fun c pdi _ ht => h _ (.inr ⟨c, pdi, ht⟩)

/-- Rewriting a page table changes the pages of its directory entry. -/
theorem views_table (h : Owned P R d m) (ht : tables P m c pdi = some t)
    (hram : ∀ g, g ≠ t → m'.ram g = m.ram g) :
    tables P m' = tables P m ∧ ∀ c' v, pages P m' c' v =
      if c' = c ∧ v / 1024 = pdi then present (m'.entry t (v % 1024)) else pages P m c' v := by
  have htab : tables P m' = tables P m := by
    funext c' i
    cases hc : P c' with
    | none => simp [tables, hc]
    | some pd =>
        rw [tables_eq hc, tables_eq hc, Mem.table, Mem.table,
          entry_congr (hram pd (h.table_ne_dir ht hc).symm)]
  refine ⟨htab, fun c' v => ?_⟩
  rw [pages_eq_bind, pages_eq_bind, htab]
  split
  · rename_i hv
    rw [hv.1, hv.2, ht, Option.bind_some]
  · rename_i hv
    cases htv : tables P m c' (v / 1024) with
    | none => rfl
    | some t' =>
        rw [Option.bind_some, Option.bind_some, entry_congr (hram t' _)]
        rintro rfl
        obtain ⟨rfl, hdiv⟩ := h.table_inj ht htv
        exact hv ⟨rfl, hdiv.symm⟩

/-- A write to a page table changes one page of one address space. -/
theorem views_setEntry (h : Owned P R d m) (ht : tables P m c pdi = some t) (hpti : pti < 1024) :
    tables P (m.setEntry t pti w) = tables P m ∧
      ∀ c' v, pages P (m.setEntry t pti w) c' v =
        if c' = c ∧ v = pdi * 1024 + pti then present w else pages P m c' v := by
  obtain ⟨hts, hps⟩ := views_table h ht fun g hg => setEntry_ram m pti w hg
  refine ⟨hts, fun c' v => ?_⟩
  rw [hps, entry_setEntry]
  by_cases hv : c' = c ∧ v / 1024 = pdi
  · rw [if_pos hv]
    obtain ⟨rfl, rfl⟩ := hv
    by_cases hmod : v % 1024 = pti
    · rw [if_pos ⟨rfl, hmod⟩, if_pos ⟨rfl, by omega⟩]
    · rw [if_neg fun h' => hmod h'.2, if_neg (by rintro ⟨-, hv⟩; omega), pages_eq_bind, ht]
      rfl
  · rw [if_neg hv, if_neg]
    rintro ⟨rfl, rfl⟩
    exact hv ⟨rfl, by omega⟩

/-- A new directory entry `pdi` of `c`, and a page table `pt` that nobody held, change the pages of
that entry. -/
theorem views_dirEntry {pt : Nat} (h : Owned P R d m) (hc : P c = some pd)
    (hpt : ¬ Structural P m pt ∨ pt = pd) (hram : ∀ g, g ≠ pd → g ≠ pt → m'.ram g = m.ram g)
    (hoff : ∀ j, j ≠ pdi → m'.entry pd j = m.entry pd j) :
    (∀ c' i, tables P m' c' i =
        if c' = c ∧ i = pdi then m'.table pd pdi else tables P m c' i) ∧
      ∀ c' v, pages P m' c' v =
        if c' = c ∧ v / 1024 = pdi then m'.pte pd v else pages P m c' v := by
  have hother : ∀ g, Structural P m g → g ≠ pd → m'.ram g = m.ram g := by
    intro g hg hne
    refine hram g hne ?_
    rintro rfl
    exact hpt.elim (fun h' => h' hg) hne
  have htab : ∀ c' i, tables P m' c' i =
      if c' = c ∧ i = pdi then m'.table pd pdi else tables P m c' i := by
    intro c' i
    by_cases hcc : c' = c
    · subst hcc
      rw [tables_eq hc, tables_eq hc]
      by_cases hi : i = pdi
      · simp [hi]
      · rw [if_neg fun h' => hi h'.2, Mem.table, Mem.table, hoff i hi]
    · rw [if_neg fun h' => hcc h'.1]
      cases hc' : P c' with
      | none => simp [tables, hc']
      | some pd' =>
          have hne : pd' ≠ pd := fun he => hcc (h.dir_inj (he ▸ hc') hc)
          rw [tables_eq hc', tables_eq hc', Mem.table, Mem.table,
            entry_congr (hother pd' (.inl ⟨c', hc'⟩) hne)]
  refine ⟨htab, fun c' v => ?_⟩
  by_cases hv : c' = c ∧ v / 1024 = pdi
  · rw [if_pos hv, hv.1, pages_eq hc]
  · rw [if_neg hv, pages_eq_bind, pages_eq_bind, htab, if_neg hv]
    cases htv : tables P m c' (v / 1024) with
    | none => rfl
    | some t =>
        rw [Option.bind_some, Option.bind_some,
          entry_congr (hother t (.inr ⟨c', _, htv⟩) (h.table_ne_dir htv hc))]

/-- Only the new page table is one now. -/
theorem structural_dirEntry {pt g : Nat}
    (hts : ∀ c' i, tables P m' c' i =
      if c' = c ∧ i = pdi then m'.table pd pdi else tables P m c' i)
    (htab : m'.table pd pdi = some pt) (hg : Structural P m' g) : g = pt ∨ Structural P m g := by
  rcases hg with ⟨c', hc'⟩ | ⟨c', i, ht⟩
  · exact .inr (.inl ⟨c', hc'⟩)
  · rw [hts] at ht
    split at ht
    · rw [htab] at ht
      exact .inl (Option.some.inj ht).symm
    · exact .inr (.inr ⟨c', i, ht⟩)

/-- Directory entry `pdi` of `c` is emptied, and the rest of the memory is as it was. -/
structure DirEntryEmptied (P : Nat → Option Nat) (m m' : Mem) (c pd pdi : Nat) : Prop where
  ram : ∀ g, g ≠ pd → m'.ram g = m.ram g
  entry : ∀ j, j ≠ pdi → m'.entry pd j = m.entry pd j
  table : m'.table pd pdi = none
  tables : ∀ c' i, tables P m' c' i = if c' = c ∧ i = pdi then none else tables P m c' i
  pages : ∀ c' v, pages P m' c' v = if c' = c ∧ v / 1024 = pdi then none else pages P m c' v

theorem dirEntry_emptied {m₂ : Mem} (h : Owned P R d m) (hc : P c = some pd) (hram₂ : m₂.ram = m.ram) :
    DirEntryEmptied P m (m₂.setEntry pd pdi mapNp) c pd pdi := by
  have hram : ∀ g, g ≠ pd → (m₂.setEntry pd pdi mapNp).ram g = m.ram g := by
    intro g hg
    rw [setEntry_ram _ _ _ hg, hram₂]
  have hoff : ∀ j, j ≠ pdi → (m₂.setEntry pd pdi mapNp).entry pd j = m.entry pd j := by
    intro j hj
    rw [entry_setEntry, if_neg fun h' => hj h'.2, entry_congr (congrFun hram₂ pd)]
  have htab : (m₂.setEntry pd pdi mapNp).table pd pdi = none := by
    have he : (m₂.setEntry pd pdi mapNp).entry pd pdi = mapNp := by
      rw [entry_setEntry, if_pos ⟨rfl, rfl⟩]
    rw [Mem.table, he]
    simp [present, mapNp]
  obtain ⟨hts, hps⟩ := views_dirEntry h hc (.inr rfl) (fun g hg _ => hram g hg) hoff
  refine ⟨hram, hoff, htab, fun c' i => by rw [hts, htab], fun c' v => ?_⟩
  rw [hps]
  split
  · rename_i hv
    rw [Mem.pte, hv.2, htab, Option.bind_none]
  · rfl

/-- The page table that it named is one no more. -/
theorem DirEntryEmptied.structural {g : Nat} (he : DirEntryEmptied P m m' c pd pdi) (h : Owned P R d m)
    (ht : Mmu.tables P m c pdi = some t) (hg : Structural P m' g) : Structural P m g ∧ g ≠ t := by
  rcases hg with ⟨c', hc'⟩ | ⟨c', i, htg⟩
  · exact ⟨.inl ⟨c', hc'⟩, fun heq => h.table_ne_dir ht hc' heq.symm⟩
  · rw [he.tables] at htg
    split at htg
    · cases htg
    · rename_i hne
      refine ⟨.inr ⟨c', i, htg⟩, ?_⟩
      rintro rfl
      obtain ⟨rfl, rfl⟩ := h.table_inj ht htg
      exact hne ⟨rfl, rfl⟩

end Muxomucota.Mmu
