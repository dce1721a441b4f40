import Muxomucota.Lib.FirstGap
import Muxomucota.Lib.Returns
import Muxomucota.Mmu.Vmem

/-!
# Mmu — the kernel window

`kernel_map`, `kernel_map_nc` and `kernel_unmap` over `kpt`, the page tables of the addresses from
`HMEM_BASE` to `UNMP_BASE`.  An access outside the table is an error that names the index.

To find `pages` free entries the search wants one more behind them, and looks for it also behind
the last entry of the table.  It goes from one row of free entries to the next (`scan_cases`): the
call stays inside the table if and only if the last entry is in use, or the table has a row of
`pages + 1` free ones.
-/

namespace Muxomucota.Mmu

open Lib

def hmemBase : Nat := 0xF0400000
def unmpBase : Nat := 0xFFC00000
def mapGb : BitVec 32 := 1 <<< 8

/-- `(UNMP_BASE - HMEM_BASE) >> 12`. -/
def kptEntries : Nat := (unmpBase - hmemBase) / 4096

/-- The flags of an entry; `MAP_OS` and `MAP_CC` are `0`. -/
def kernelFlags : BitVec 32 := mapPr ||| mapRw ||| mapGb

/-- The entries of `kpt`. -/
abbrev Kpt := Nat → BitVec 32

namespace Kpt

/-- `kpt[i]`. -/
def read (k : Kpt) (i : Nat) : Except Nat (BitVec 32) :=
  if i < kptEntries then .ok (k i) else .error i

/-- `kpt[i] = w`. -/
def write (k : Kpt) (i : Nat) (w : BitVec 32) : Except Nat Kpt :=
  if i < kptEntries then .ok (Function.update k i w) else .error i

/-- The loop `for (j = 0; j < pages; j++) if (kpt[i + j] != MAP_NP) break;`, with `pages - j` rounds
left. -/
def countFree (k : Kpt) (i : Nat) : Nat → Nat → Except Nat Nat
  | 0,     j => .ok j
  | n + 1, j => do if (← k.read (i + j)) ≠ mapNp then return j else k.countFree i n (j + 1)

/-- The loop `for (j = 0; j < pages; j++) kpt[i + j] = …;`. -/
def setRow (k : Kpt) (i pages : Nat) (entries : Nat → BitVec 32) : Except Nat Kpt :=
  (List.range pages).foldlM (fun k j => k.write (i + j) (entries j)) k

/-- The search of `kernel_map` and `kernel_map_nc` from entry `i` on, which ends with the entries
set: the first of them, and the table. -/
def scan (k : Kpt) (pages : Nat) (entries : Nat → BitVec 32) (i : Nat) :
    Except Nat (Option Nat × Kpt) :=
  if _h : i < kptEntries then do
    if (← k.read i) ≠ mapNp then k.scan pages entries (i + 1)
    else
      let j ← k.countFree i pages 0
      if (← k.read (i + j)) ≠ mapNp then k.scan pages entries (i + j + 1)
      else
        let k' ← k.setRow i pages entries
        return (some i, k')
  else return (none, k)
termination_by kptEntries - i

/-- The search of `kernel_map_nc` for a single frame, with `__sync_bool_compare_and_swap`. -/
def scanOne (k : Kpt) (w : BitVec 32) (i : Nat) : Except Nat (Option Nat × Kpt) :=
  if _h : i < kptEntries then do
    if (← k.read i) ≠ mapNp then k.scanOne w (i + 1)
    else if (← k.read i) ≠ mapNp then k.scanOne w (i + 1)
    else
      let k' ← k.write i w
      return (some i, k')
  else return (none, k)
termination_by kptEntries - i

end Kpt

/-- The page count of `kernel_map`. -/
def kernelPages (phys length : Nat) : Nat := (length + phys % 4096 + 4095) % 2 ^ 32 / 4096

/-- The entries that `kernel_map` writes. -/
def kernelEntries (phys j : Nat) : BitVec 32 :=
  .ofNat 32 (phys / 4096 * 4096 + j * 4096) ||| kernelFlags

/-- The entries that `kernel_map_nc` writes. -/
def listEntries (pageframes : List (BitVec 32)) (j : Nat) : BitVec 32 :=
  pageframes.getD j 0 ||| kernelFlags

/-- `kernel_map`. -/
def kernelMap (k : Kpt) (phys length : Nat) : Except Nat (Nat × Kpt) :=
  if (phys + length) % 2 ^ 32 ≤ hmemBase - physBase then .ok (phys ||| physBase, k)
  else do
    let r ← k.scan (kernelPages phys length) (kernelEntries phys) 0
    return (r.1.elim 0 fun i => hmemBase + i * 4096 + phys % 4096, r.2)

/-- `kernel_map_nc`. -/
def kernelMapNc (k : Kpt) (pageframes : List (BitVec 32)) : Except Nat (Nat × Kpt) := do
  let r ← if pageframes.length = 1 then k.scanOne (listEntries pageframes 0) 0
    else k.scan pageframes.length (listEntries pageframes) 0
  return (r.1.elim 0 fun i => hmemBase + i * 4096, r.2)

/-- `kernel_unmap`: the physical address, and the table. -/
def kernelUnmap (k : Kpt) (virt length : Nat) : Except Nat (Nat × Kpt) :=
  if virt < hmemBase then .ok (virt, k)
  else do
    let w ← k.read ((virt - hmemBase) / 4096)
    let k' ← k.setRow ((virt - hmemBase) / 4096) (kernelPages virt length) fun _ => mapNp
    return (frameOf w * 4096 + virt % 4096, k')

/-! ### Rows of free entries -/

variable {k k' : Kpt} {pages i j n e a v phys length virt : Nat} {entries : Nat → BitVec 32}
  {pageframes : List (BitVec 32)}

def InUse (k : Kpt) (v : Nat) : Prop := k v ≠ mapNp

/-- The table with a row of entries set. -/
def Kpt.fill (k : Kpt) (i pages : Nat) (entries : Nat → BitVec 32) : Kpt :=
  fun v => if i ≤ v ∧ v < i + pages then entries (v - i) else k v

namespace Kpt

/-- Emptying the entries again. -/
theorem fill_undone (hfree : ∀ j < pages, k (a + j) = mapNp) :
    (k.fill a pages entries).fill a pages (fun _ => mapNp) = k := by
  funext v
  unfold fill
  by_cases hv : a ≤ v ∧ v < a + pages
  · rw [if_pos hv, ← hfree (v - a) (by omega), show a + (v - a) = v by omega]
  · rw [if_neg hv, if_neg hv]

theorem fill_one (k : Kpt) (a : Nat) (entries : Nat → BitVec 32) :
    (k.fill a 1 fun _ => entries 0) = k.fill a 1 entries := by
  funext v
  unfold fill
  split
  · rw [show v - a = 0 by omega]
  · rfl

theorem read_lt (h : i < kptEntries) : k.read i = .ok (k i) := if_pos h

theorem read_end : k.read kptEntries = .error kptEntries := if_neg (lt_irrefl _)

theorem setRow_eq (h : i + pages ≤ kptEntries) :
    k.setRow i pages entries = .ok (k.fill i pages entries) := by
  induction pages with
  | zero =>
      have hfill : k.fill i 0 entries = k := by
        funext v
        rw [fill, if_neg (by omega)]
      rw [hfill]
      rfl
  | succ n ih =>
      have ih := ih (by omega)
      unfold setRow at ih ⊢
      rw [List.range_succ, List.foldlM_append, ih, ok_bind, List.foldlM_cons, write,
        if_pos (by omega), ok_bind, List.foldlM_nil]
      refine congrArg Except.ok ?_
      funext v
      simp only [Function.update_apply, fill]
      by_cases hv : v = i + n
      · subst hv
        rw [if_pos rfl, if_pos (by omega), Nat.add_sub_cancel_left]
      · rw [if_neg hv]
        by_cases hin : i ≤ v ∧ v < i + n
        · rw [if_pos hin, if_pos (by omega)]
        · rw [if_neg hin, if_neg (by omega)]

/-- The free entries from `i` on end at `e`: there is an entry in use, or the end of the table. -/
structure RowEnd (k : Kpt) (i e : Nat) : Prop where
  le : i ≤ e
  le_end : e ≤ kptEntries
  free : ∀ v, i ≤ v → v < e → k v = mapNp
  stop : e < kptEntries → InUse k e

theorem exists_rowEnd (k : Kpt) (hi : i ≤ kptEntries) : ∃ e, RowEnd k i e := by
  induction h : kptEntries - i generalizing i with
  | zero => exact ⟨i, le_rfl, hi, fun v hv hlt => by omega, fun hlt => by omega⟩
  | succ n ih =>
      by_cases hfree : k i = mapNp
      · obtain ⟨e, he⟩ := ih (i := i + 1) (by omega) (by omega)
        refine ⟨e, by have := he.le; omega, he.le_end, fun v hv hlt => ?_, he.stop⟩
        rcases Nat.eq_or_lt_of_le hv with rfl | hlt'
        · exact hfree
        · exact he.free v hlt' hlt
      · exact ⟨i, le_rfl, hi, fun v hv hlt => by omega, fun _ => hfree⟩

/-- The run check goes to the end of the row at most. -/
theorem countFree_eq (he : RowEnd k i e) (hj : i + j ≤ e) : k.countFree i n j =
    if i + j + n ≤ e then .ok (j + n) else if e < kptEntries then .ok (e - i)
    else .error kptEntries := by
  have hend := he.le_end
  induction n generalizing j with
  | zero => rw [countFree, Nat.add_zero, if_pos hj]; rfl
  | succ n ih =>
      rw [countFree]
      rcases Nat.eq_or_lt_of_le hj with heq | hlt
      · rw [heq, if_neg (by omega)]
        by_cases hin : e < kptEntries
        · have huse : k e ≠ mapNp := he.stop hin
          rw [read_lt hin, ok_bind, if_pos huse, if_pos hin, show e - i = j by omega]
          rfl
        · obtain rfl : e = kptEntries := by omega
          rw [read_end, if_neg hin]
          rfl
      · have hfree := he.free (i + j) (by omega) hlt
        rw [read_lt (by omega), ok_bind, if_neg (not_not.mpr hfree), ih (by omega),
          show i + (j + 1) + n = i + j + (n + 1) by omega, show j + 1 + n = j + (n + 1) by omega]

theorem RowEnd.gap (he : RowEnd k i e) (hle : i + n ≤ e) : Gap (InUse k) i n :=
  fun v hv hlt huse => huse (he.free v hv (by omega))

/-- A gap that begins in the row lies in it. -/
theorem RowEnd.no_gap (he : RowEnd k i e) (hin : e < kptEntries) (hlt : e < i + n) (ha : i ≤ a)
    (hae : a ≤ e) : ¬ Gap (InUse k) a n :=
  fun hgap => hgap e hae (by omega) (he.stop hin)

/-- No row of `n` free entries begins at entry `i` or behind it. -/
def NoRow (k : Kpt) (i n : Nat) : Prop :=
  ∀ a, i ≤ a → a + n ≤ kptEntries → ¬ Gap (InUse k) a n

/-- What a search from entry `i` on comes to: the first row that has an entry to spare; where there
is none, the end of the table if the last entry is in use, and the place behind it otherwise. -/
inductive Scanned (k : Kpt) (pages : Nat) (entries : Nat → BitVec 32) (i : Nat) :
    Except Nat (Option Nat × Kpt) → Prop where
  | found (a : Nat) (ha : FirstGap (InUse k) i (pages + 1) a) (hfit : a + pages < kptEntries) :
      Scanned k pages entries i (.ok (some a, k.fill a pages entries))
  | full (hno : NoRow k i (pages + 1)) (hlast : i < kptEntries → InUse k (kptEntries - 1)) :
      Scanned k pages entries i (.ok (none, k))
  | outside (hno : NoRow k i (pages + 1)) (hi : i < kptEntries)
      (hlast : ¬ InUse k (kptEntries - 1)) : Scanned k pages entries i (.error kptEntries)

/-- The search goes on behind a row that is too short. -/
theorem Scanned.skip {r : Except Nat (Option Nat × Kpt)} (he : RowEnd k i e)
    (hin : e < kptEntries) (hshort : e ≤ i + pages) (h : Scanned k pages entries (e + 1) r) :
    Scanned k pages entries i r := by
  have hle := he.le
  have hskip : ∀ b, i ≤ b → b < e + 1 → ¬ Gap (InUse k) b (pages + 1) :=
    fun b hb hbe => he.no_gap hin (by omega) hb (by omega)
  have hnoRow : NoRow k (e + 1) (pages + 1) → NoRow k i (pages + 1) := fun hno b hb hfit => by
    by_cases hbe : b < e + 1
    · exact hskip b hb hbe
    · exact hno b (by omega) hfit
  cases h with
  | found a ha hfit =>
      refine .found a ⟨by have := ha.base_le; omega, ha.gap, fun b hb hba => ?_⟩ hfit
      by_cases hbe : b < e + 1
      · exact hskip b hb hbe
      · exact ha.first b (by omega) hba
  | full hno hlast =>
      refine .full (hnoRow hno) fun _ => ?_
      by_cases hi : e + 1 < kptEntries
      · exact hlast hi
      · rw [show kptEntries - 1 = e by omega]
        exact he.stop hin
  | outside hno hi hlast => exact .outside (hnoRow hno) (by omega) hlast

theorem scan_spec (k : Kpt) (pages : Nat) (entries : Nat → BitVec 32) (hi : i ≤ kptEntries) :
    Scanned k pages entries i (k.scan pages entries i) := by
  induction h : kptEntries - i using Nat.strong_induction_on generalizing i with
  | _ n ih =>
  by_cases hlt : i < kptEntries
  · obtain ⟨e, he⟩ := exists_rowEnd k hi
    have hle := he.le
    have hend := he.le_end
    have hnext : e < kptEntries → e ≤ i + pages →
        Scanned k pages entries i (k.scan pages entries (e + 1)) := fun hin hshort =>
      .skip he hin hshort (ih (kptEntries - (e + 1)) (by omega) (by omega) rfl)
    rw [scan, dif_pos hlt, read_lt hlt, ok_bind]
    by_cases hfree : k i = mapNp
    · rw [if_neg (not_not.mpr hfree), countFree_eq (j := 0) he hle]
      simp only [Nat.add_zero, Nat.zero_add]
      by_cases hfit : i + pages < e
      · have hlast := he.free (i + pages) (by omega) hfit
        rw [if_pos (by omega), ok_bind, read_lt (by omega), ok_bind,
          if_neg (not_not.mpr hlast), setRow_eq (by omega)]
        exact .found i ⟨le_rfl, he.gap (by omega), fun b hb hbi => by omega⟩ (by omega)
      · by_cases hin : e < kptEntries
        · have huse : k e ≠ mapNp := he.stop hin
          have hj : (if i + pages ≤ e then Except.ok pages else if e < kptEntries
              then Except.ok (e - i) else Except.error kptEntries : Except Nat Nat) =
              .ok (e - i) := by
            split
            · rw [show pages = e - i by omega]
            · rfl
          rw [hj, ok_bind, show i + (e - i) = e by omega, read_lt hin, ok_bind, if_pos huse]
          exact hnext hin (by omega)
        · -- the row goes to the end of the table
          obtain rfl : e = kptEntries := by omega
          have hout : Scanned k pages entries i (.error kptEntries) :=
            .outside (fun b hb hfit' hgap => by omega) hlt
              (not_not.mpr (he.free (kptEntries - 1) (by omega) (by omega)))
          split
          · rw [ok_bind, show i + pages = kptEntries by omega, read_end]
            exact hout
          · exact hout
    · rw [if_pos hfree]
      obtain rfl : e = i := by
        by_contra hne
        exact hfree (he.free i le_rfl (by omega))
      exact hnext hlt (by omega)
  · rw [scan, dif_neg hlt]
    exact .full (fun a ha hfit hgap => by omega) fun hlt' => absurd hlt' hlt

/-- The search for a single frame ends at a free entry. -/
theorem scanOne_free (w : BitVec 32) (hi : i < kptEntries) (hfree : k i = mapNp) :
    k.scanOne w i = .ok (some i, k.fill i 1 fun _ => w) := by
  have hset : k.setRow i 1 (fun _ => w) = .ok (k.fill i 1 fun _ => w) := setRow_eq (by omega)
  rw [setRow, List.range_one, List.foldlM_cons, Nat.add_zero, write, if_pos hi, ok_bind,
    List.foldlM_nil] at hset
  rw [scanOne, dif_pos hi, read_lt hi, ok_bind, if_neg (not_not.mpr hfree), ok_bind,
    if_neg (not_not.mpr hfree), write, if_pos hi, ok_bind, ← Except.ok.inj hset]
  rfl

/-- It takes the first free entry. -/
theorem scanOne_spec (k : Kpt) (w : BitVec 32) (hi : i ≤ kptEntries) :
    (∃ a, i ≤ a ∧ a < kptEntries ∧ k a = mapNp ∧
      k.scanOne w i = .ok (some a, k.fill a 1 fun _ => w)) ∨ k.scanOne w i = .ok (none, k) := by
  induction h : kptEntries - i generalizing i with
  | zero =>
      rw [scanOne, dif_neg (by omega)]
      exact .inr rfl
  | succ n ih =>
      have hlt : i < kptEntries := by omega
      by_cases hfree : k i = mapNp
      · exact .inl ⟨i, le_rfl, hlt, hfree, scanOne_free w hlt hfree⟩
      · rw [scanOne, dif_pos hlt, read_lt hlt, ok_bind, if_pos hfree]
        rcases ih (i := i + 1) (by omega) (by omega) with ⟨a, ha, hrest⟩ | hnone
        · exact .inl ⟨a, by omega, hrest⟩
        · exact .inr hnone

end Kpt

/-! ### What the calls do -/

/-- A call gave the range of `length` bytes at `addr`: the range lies in the window, the entries of
its pages were free and are the ones asked for now, and `kernel_unmap` undoes that. -/
structure GivenRange (k : Kpt) (entries : Nat → BitVec 32) (pages length addr : Nat) (k' : Kpt) :
    Prop where
  base_le : hmemBase ≤ addr
  le_top : addr + length ≤ unmpBase
  free : ∀ j < pages, k ((addr - hmemBase) / 4096 + j) = mapNp
  set : k' = k.fill ((addr - hmemBase) / 4096) pages entries
  undone : Returns (kernelUnmap k' addr length) fun r => r.2 = k

/-- What is asked of a call: it stays inside the table, and it gives the range or `NULL` and leaves
the table as it was. -/
def Answers (k : Kpt) (entries : Nat → BitVec 32) (pages length : Nat)
    (e : Except Nat (Nat × Kpt)) : Prop :=
  Returns e fun r => (r.1 = 0 ∧ r.2 = k) ∨ GivenRange k entries pages length r.1 r.2

/-- The last entry is in use, or there is a row of `pages` entries and one to spare. -/
def Stops (k : Kpt) (pages : Nat) : Prop :=
  InUse k (kptEntries - 1) ∨ ¬ k.NoRow 0 (pages + 1)

theorem kernelPages_eq (h : length + phys % 4096 + 4095 < 2 ^ 32) :
    kernelPages phys length = (length + phys % 4096 + 4095) / 4096 := by
  rw [kernelPages, Nat.mod_eq_of_lt h]

/-- `kernel_unmap` empties the entries of the range. -/
theorem kernelUnmap_eq (hbase : hmemBase ≤ virt) (hpos : (virt - hmemBase) / 4096 < kptEntries)
    (hfit : (virt - hmemBase) / 4096 + kernelPages virt length ≤ kptEntries) :
    kernelUnmap k virt length =
      .ok (frameOf (k ((virt - hmemBase) / 4096)) * 4096 + virt % 4096,
        k.fill ((virt - hmemBase) / 4096) (kernelPages virt length) fun _ => mapNp) := by
  rw [kernelUnmap, if_neg (by omega), Kpt.read_lt hpos, ok_bind, Kpt.setRow_eq hfit]
  rfl

/-- A row that was found is a range as it should be. -/
theorem givenRange_row {off : Nat} (hoff : off < 4096) (hle : off + length ≤ pages * 4096)
    (hlow : pages * 4096 < length + off + 4096) (hfree : ∀ j < pages, k (a + j) = mapNp)
    (hin : a < kptEntries) (hfit : a + pages ≤ kptEntries) :
    GivenRange k entries pages length (hmemBase + a * 4096 + off) (k.fill a pages entries) := by
  have hsize : kptEntries * 4096 = unmpBase - hmemBase := by decide
  have hn : kptEntries = 63488 := by decide
  have hidx : (hmemBase + a * 4096 + off - hmemBase) / 4096 = a := by omega
  have hmod : (hmemBase + a * 4096 + off) % 4096 = off := by
    unfold hmemBase
    omega
  have hpages : kernelPages (hmemBase + a * 4096 + off) length = pages := by
    rw [kernelPages_eq (by rw [hmod]; omega), hmod]
    omega
  refine ⟨by omega, by unfold unmpBase hmemBase at *; omega, by rwa [hidx], by rw [hidx], ?_⟩
  rw [kernelUnmap_eq (by omega) (by rwa [hidx]) (by rwa [hidx, hpages]), hidx, hpages]
  exact returns_ok.mpr (Kpt.fill_undone hfree)

/-- What comes of a search for `pages` entries, where the call wants a range of `length` bytes from
offset `off` of its first page on. -/
theorem answers_scan {off : Nat} (entries : Nat → BitVec 32) (hoff : off < 4096) (hle : off + length ≤ pages * 4096)
    (hlow : pages * 4096 < length + off + 4096) :
    Answers k entries pages length (do
      let r ← k.scan pages entries 0
      return (r.1.elim 0 fun i => hmemBase + i * 4096 + off, r.2)) ↔ Stops k pages := by
  have hscan := Kpt.scan_spec k pages entries (Nat.zero_le kptEntries)
  unfold Answers
  rw [returns_bind]
  cases hr : k.scan pages entries 0 with
  | error x =>
      rw [hr] at hscan
      cases hscan with
      | outside hno _ hlast =>
          exact iff_of_false (fun h => returns_error.mp h)
            fun hs => hs.elim hlast fun hrow => hrow hno
  | ok r =>
      rw [hr] at hscan
      cases hscan with
      | found a ha hfit =>
          refine iff_of_true (returns_ok.mpr (returns_ok.mpr (.inr ?_)))
            (.inr fun hno => hno a (Nat.zero_le a) (by omega) ha.gap)
          exact givenRange_row hoff hle hlow
            (fun j hj => not_not.mp (ha.gap (a + j) (by omega) (by omega))) (by omega) (by omega)
      | full hno hlast =>
          exact iff_of_true (returns_ok.mpr (returns_ok.mpr (.inl ⟨rfl, rfl⟩)))
            (.inl (hlast (by decide)))

/-- The pages that a range of `length` bytes at `phys` needs. -/
def neededPages (phys length : Nat) : Nat := (length + phys % 4096 + 4095) / 4096

/-- `kernel_map` of a range outside the direct map: the sums in its two first lines do not wrap, and
the search stops; or the second one wraps, and nothing is found. -/
structure MapStops (k : Kpt) (phys length : Nat) : Prop where
  indirect : hmemBase - physBase < (phys + length) % 2 ^ 32
  stops : Stops k (kernelPages phys length)
  wrapped : 2 ^ 32 ≤ length + phys % 4096 + 4095 → k.NoRow 0 (kernelPages phys length + 1)

theorem or_base_pos (phys : Nat) : phys ||| physBase ≠ 0 := by
  have hle : physBase ≤ phys ||| physBase := Nat.right_le_or
  unfold physBase at hle ⊢
  omega

theorem kernelEntries_ne (phys j : Nat) : kernelEntries phys j ≠ mapNp := by
  intro h
  have hpr := congrArg isPr h
  rw [kernelEntries, isPr_or] at hpr
  exact absurd hpr (by rw [show isPr kernelFlags = true from rfl, Bool.or_true]; decide)

/-- Entries that are set and were free change the table. -/
theorem GivenRange.changes (h : GivenRange k entries pages length v k') (hpos : 0 < pages)
    (hne : entries 0 ≠ mapNp) : k' ≠ k := by
  rintro rfl
  have hset := congrFun h.set ((v - hmemBase) / 4096)
  have hfree := h.free 0 hpos
  rw [Nat.add_zero] at hfree
  rw [Kpt.fill, if_pos ⟨le_rfl, by omega⟩, Nat.sub_self, hfree] at hset
  exact hne hset.symm

theorem kernelMap_iff (hphys : phys < 2 ^ 32) (hlen : length < 2 ^ 32)
    (hout : hmemBase - physBase < phys + length) :
    Answers k (kernelEntries phys) (neededPages phys length) length (kernelMap k phys length) ↔
      MapStops k phys length := by
  have hdirect : hmemBase - physBase = 0x400000 := by decide
  by_cases hwrap : (phys + length) % 2 ^ 32 ≤ hmemBase - physBase
  · -- the range ends at or behind 4 GiB and is taken for a part of the direct map
    rw [kernelMap, if_pos hwrap, Answers, returns_ok]
    refine iff_of_false ?_ fun hs => absurd hs.indirect (by omega)
    rintro (⟨hnull, -⟩ | hgiven)
    · exact or_base_pos phys hnull
    · have hpos : 0 < neededPages phys length := by
        unfold neededPages
        omega
      exact hgiven.changes hpos (kernelEntries_ne phys 0) rfl
  · rw [kernelMap, if_neg hwrap]
    by_cases hlong : 2 ^ 32 ≤ length + phys % 4096 + 4095
    · -- the page count wraps, and what is found is too short
      have hscan := Kpt.scan_spec k (kernelPages phys length) (kernelEntries phys)
        (Nat.zero_le kptEntries)
      rw [Answers, returns_bind]
      cases hr : k.scan (kernelPages phys length) (kernelEntries phys) 0 with
      | error x =>
          rw [hr] at hscan
          cases hscan with
          | outside hno _ hlast =>
              exact iff_of_false (fun h => returns_error.mp h)
                fun hs => hs.stops.elim hlast fun hrow => hrow hno
      | ok r =>
          rw [hr] at hscan
          cases hscan with
          | found a ha hfit =>
              refine iff_of_false (fun h => ?_)
                fun hs => hs.wrapped hlong a (Nat.zero_le a) (by omega) ha.gap
              have h := returns_ok.mp h
              rcases returns_ok.mp h with ⟨hnull, -⟩ | hgiven
              · have hbase : hmemBase + a * 4096 + phys % 4096 = 0 := hnull
                unfold hmemBase at hbase
                omega
              · have htop : hmemBase + a * 4096 + phys % 4096 + length ≤ unmpBase := hgiven.le_top
                unfold unmpBase at htop
                omega
          | full hno hlast =>
              exact iff_of_true (returns_ok.mpr (returns_ok.mpr (.inl ⟨rfl, rfl⟩)))
                ⟨by omega, .inl (hlast (by decide)), fun _ => hno⟩
    · have hpages : kernelPages phys length = neededPages phys length := kernelPages_eq (by omega)
      rw [hpages, answers_scan _ (Nat.mod_lt _ (by decide)) (by unfold neededPages; omega)
        (by unfold neededPages; omega)]
      refine ⟨fun hs => ⟨by omega, by rwa [hpages], fun h => absurd h hlong⟩, fun hs => ?_⟩
      rw [← hpages]
      exact hs.stops

theorem kernelMapNc_iff : Answers k (listEntries pageframes) pageframes.length
    (pageframes.length * 4096) (kernelMapNc k pageframes) ↔
      pageframes.length = 1 ∨ Stops k pageframes.length := by
  unfold kernelMapNc
  by_cases hone : pageframes.length = 1
  · refine iff_of_true ?_ (.inl hone)
    rw [if_pos hone, hone, Answers, returns_bind]
    rcases Kpt.scanOne_spec k (listEntries pageframes 0) (Nat.zero_le kptEntries) with
      ⟨a, -, hin, hfree, hr⟩ | hr
    · rw [hr]
      refine returns_ok.mpr (returns_ok.mpr (.inr ?_))
      have hgiven : GivenRange k (listEntries pageframes) 1 4096 (hmemBase + a * 4096 + 0)
          (k.fill a 1 (listEntries pageframes)) :=
        givenRange_row (by decide) (by decide) (by decide)
          (fun j hj => by rwa [show a + j = a by omega]) hin (by omega)
      rw [Kpt.fill_one k a (listEntries pageframes)]
      exact hgiven
    · rw [hr]
      exact returns_ok.mpr (returns_ok.mpr (.inl ⟨rfl, rfl⟩))
  · rw [if_neg hone]
    have hle : 0 + pageframes.length * 4096 ≤ pageframes.length * 4096 := by omega
    have hscan := answers_scan (k := k) (listEntries pageframes) (by decide) hle (by omega)
    simp only [Nat.add_zero] at hscan
    rw [hscan]
    exact ⟨.inr, fun h => h.resolve_left hone⟩

/-- What `kernel_map_nc` returns. -/
theorem kernelMapNc_ok (h : kernelMapNc k pageframes = .ok (virt, k')) :
    (virt = 0 ∧ k' = k) ∨ ∃ a, virt = hmemBase + a * 4096 ∧ a < kptEntries ∧
      a + pageframes.length ≤ kptEntries ∧ k a = mapNp ∧
      (∀ j < pageframes.length, k (a + j) = mapNp) ∧
      k' = k.fill a pageframes.length (listEntries pageframes) := by
  unfold kernelMapNc at h
  by_cases hone : pageframes.length = 1
  · rw [if_pos hone] at h
    rcases Kpt.scanOne_spec k (listEntries pageframes 0) (Nat.zero_le kptEntries) with
      ⟨a, -, hin, hfree, hr⟩ | hr
    · rw [hr] at h
      cases h
      refine .inr ⟨a, rfl, hin, by omega, hfree,
        fun j hj => by rwa [show a + j = a by omega], ?_⟩
      rw [hone]
      exact Kpt.fill_one k a (listEntries pageframes)
    · rw [hr] at h
      cases h
      exact .inl ⟨rfl, rfl⟩
  · rw [if_neg hone] at h
    have hscan := Kpt.scan_spec k pageframes.length (listEntries pageframes) (Nat.zero_le kptEntries)
    cases hr : k.scan pageframes.length (listEntries pageframes) 0 with
    | error x =>
        rw [hr] at h
        cases h
    | ok r =>
        rw [hr] at h hscan
        cases hscan with
        | found a ha hfit =>
            cases h
            exact .inr ⟨a, rfl, by omega, by omega,
              not_not.mp (ha.gap a le_rfl (by omega)), fun j hj => not_not.mp (ha.gap (a + j) (by omega) (by omega)), rfl⟩
        | full hno hlast =>
            cases h
            exact .inl ⟨rfl, rfl⟩

/-- **Kernel window allocation**: the calls stay inside the table and answer as they should if and
only if the search stops in it; a single frame by `kernel_map_nc` is no problem. -/
theorem kernel_window_iff (k : Kpt) :
    (∀ phys length, phys < 2 ^ 32 → length < 2 ^ 32 → hmemBase - physBase < phys + length →
      (Answers k (kernelEntries phys) (neededPages phys length) length (kernelMap k phys length) ↔
        MapStops k phys length)) ∧
    ∀ pageframes, (Answers k (listEntries pageframes) pageframes.length (pageframes.length * 4096)
      (kernelMapNc k pageframes) ↔ pageframes.length = 1 ∨ Stops k pageframes.length) :=
  ⟨fun _ _ => kernelMap_iff, fun _ => kernelMapNc_iff⟩

/-- One page above the direct map, and an empty table. -/
theorem kernel_window_empty : Answers (fun _ => mapNp) (kernelEntries 0x500000) 1 4096
    (kernelMap (fun _ => mapNp) 0x500000 4096) :=
  ((kernel_window_iff fun _ => mapNp).1 0x500000 4096 (by decide) (by decide) (by decide)).mpr
    ⟨by decide, .inr fun hno => hno 0 le_rfl (by decide) fun _ _ _ huse => huse rfl,
      fun h => absurd h (by decide)⟩

/-- One page above the direct map, and only the last entry free. -/
theorem kernel_map_behind_table : ¬ Answers (fun v => if v = kptEntries - 1 then mapNp else mapPr)
    (kernelEntries 0x500000) 1 4096
    (kernelMap (fun v => if v = kptEntries - 1 then mapNp else mapPr) 0x500000 4096) := by
  intro h
  have hs := (kernelMap_iff (by decide) (by decide) (by decide)).mp h
  rcases hs.stops with hlast | hrow
  · exact hlast (if_pos rfl)
  · refine hrow fun a _ hfit hgap => hgap a le_rfl (by omega) ?_
    have hpages : kernelPages 0x500000 4096 = 1 := by decide
    rw [hpages] at hfit
    rw [InUse, if_neg (by omega)]
    decide

end Muxomucota.Mmu
