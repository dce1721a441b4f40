import Muxomucota.Memory.Pmm

/-!
# Memory — contiguous frames

`pmm_alloc_advanced`: a row of free frames at an aligned address below a limit.  Beside the address and
the bitmap the model gives the indices of all entries that are accessed.

The search looks for the first aligned free entry that begins such a row.  It does not stop where the
row would reach beyond the bitmap, and it compares indices with `max_addr` as if `mem_base` were `0`
(`allocAdvanced_done_iff`).
-/

namespace Muxomucota.Memory
open Pmm

/-- The entry with this index. -/
def Pmm.at (p : Pmm) (i : Nat) : BitVec 8 := p.bitmap (p.memBase + i)

/-- The entry becomes `b`. -/
def Pmm.setAt (p : Pmm) (i : Nat) (b : BitVec 8) : Pmm := p.setEntry (p.memBase + i) b

/-- `for (int j = 1; j < frames; j++)`: whether the entries are free, and the ones that were looked at;
the first argument is the number of entries that are left. -/
def scanRow (p : Pmm) : Nat → Nat → Bool × List Nat
  | 0, _ => (true, [])
  | n + 1, k =>
      if p.at k ≠ 0 then (false, [k])
      else
        let r := scanRow p n (k + 1)
        (r.1, k :: r.2)

/-- `for (int k = 0; k <= j; k++) bitmap[i + k]--;` -/
def rollBack (p : Pmm) (i : Nat) (n : Nat) : Pmm :=
  (List.range n).foldl (fun p k => p.setAt (i + k) (p.at (i + k) - 1)) p

/-- `for (int j = 0; j < frames; j++)`: the entries are claimed one by one, and given back where one was
not free; the first number is how many entries are left. -/
def claimRow (i : Nat) : Nat → Nat → Pmm → Bool × Pmm
  | 0, _, p => (true, p)
  | n + 1, j, p =>
      let old := p.at (i + j)
      let p := p.setAt (i + j) (old + 1)
      if old ≠ 0 then (false, rollBack p i (j + 1)) else claimRow i n (j + 1) p

/-- The address of an entry. -/
def Pmm.address (p : Pmm) (i : Nat) : Nat := (p.memBase * 4096 + i * 4096) % 2 ^ 32

/-- The loop of `pmm_alloc_advanced` over the indices. -/
def searchRow (frames mask : Nat) : List Nat → Pmm → Nat × Pmm × List Nat
  | [], p => (0, p, [])
  | i :: is, p =>
      if p.address i &&& mask ≠ 0 then searchRow frames mask is p
      else if p.at i ≠ 0 then
        let r := searchRow frames mask is p
        (r.1, r.2.1, i :: r.2.2)
      else
        let s := scanRow p (frames - 1) (i + 1)
        if ¬ s.1 then
          let r := searchRow frames mask is p
          (r.1, r.2.1, i :: s.2 ++ r.2.2)
        else
          let c := claimRow i frames 0 p
          if ¬ c.1 then
            let r := searchRow frames mask is c.2
            (r.1, r.2.1, i :: s.2 ++ r.2.2)
          else (p.address i, c.2, i :: s.2)

/-- `end`: a signed number. -/
def searchEnd (p : Pmm) (frames maxAddr : Nat) : Int :=
  let stop : Int := (maxAddr / 4096 : Nat) - frames
  if p.memEntries < stop then p.memEntries else stop

/-- `frames`. -/
def rowFrames (length : Nat) : Nat := (length + 4095) % 2 ^ 32 / 4096

/-- `pmm_alloc_advanced`: the address, the bitmap, and the entries that were accessed. -/
def pmmAllocAdvanced (p : Pmm) (length maxAddr alignment : Nat) : Nat × Pmm × List Nat :=
  if length = 0 then (0, p, [])
  else
    let stop := searchEnd p (rowFrames length) maxAddr
    searchRow (rowFrames length) (2 ^ alignment - 1)
      (List.range' p.lookFromHere (stop.toNat - p.lookFromHere)) p

/-! ### Rows -/

variable {p q : Pmm} {i n length maxAddr alignment : Nat}

/-- The `n` entries from `i` on are free. -/
def FreeRow (p : Pmm) (i n : Nat) : Prop := ∀ k, i ≤ k → k < i + n → p.at k = 0

instance (p : Pmm) (i n : Nat) : Decidable (FreeRow p i n) :=
  decidable_of_iff (∀ j < n, p.at (i + j) = 0)
    ⟨fun h k hlo hhi => by
      have := h (k - i) (by omega)
      rwa [show i + (k - i) = k by omega] at this, fun h j hj => h _ (by omega) (by omega)⟩

theorem scanRow_free (h : FreeRow p i n) : scanRow p n i = (true, List.range' i n) := by
  induction n generalizing i with
  | zero => rfl
  | succ n ih =>
      have hzero : p.at i = 0 := h i le_rfl (by omega)
      rw [scanRow, if_neg (not_not.mpr hzero), ih fun k hlo hhi => h k (by omega) (by omega)]
      rfl

/-- A row that is not free is looked at up to its first entry that is not. -/
theorem scanRow_used (h : ¬ FreeRow p i n) :
    ∃ j < n, FreeRow p i j ∧ p.at (i + j) ≠ 0 ∧ scanRow p n i = (false, List.range' i (j + 1)) := by
  induction n generalizing i with
  | zero => exact absurd (fun k hlo hhi => by omega) h
  | succ n ih =>
      rw [scanRow]
      by_cases hzero : p.at i = 0
      · rw [if_neg (not_not.mpr hzero)]
        obtain ⟨j, hj, hfree, hused, hscan⟩ := ih (i := i + 1) fun hrow => h fun k hlo hhi => by
          by_cases hki : k = i
          · rw [hki]
            exact hzero
          · exact hrow k (by omega) (by omega)
        refine ⟨j + 1, by omega, fun k hlo hhi => ?_, ?_, ?_⟩
        · by_cases hki : k = i
          · rw [hki]
            exact hzero
          · exact hfree k (by omega) (by omega)
        · rwa [show i + (j + 1) = i + 1 + j by omega]
        · rw [hscan]
          rfl
      · rw [if_pos hzero]
        exact ⟨0, by omega, fun k hlo hhi => by omega, hzero, rfl⟩

@[simp] theorem setAt_memBase (p : Pmm) (i : Nat) (b : BitVec 8) : (p.setAt i b).memBase = p.memBase := rfl

theorem at_setAt (p : Pmm) (i k : Nat) (b : BitVec 8) :
    (p.setAt i b).at k = if k = i then b else p.at k := by
  unfold Pmm.at Pmm.setAt Pmm.setEntry
  by_cases hk : k = i
  · rw [if_pos hk, hk]
    exact Function.update_self ..
  · rw [if_neg hk]
    exact Function.update_of_ne (by dsimp only; omega) ..

/-- The bitmap with the `n` entries from `i` on set to `1`. -/
def claimed (p : Pmm) (i n : Nat) : Pmm :=
  { p with bitmap := fun f => if p.memBase + i ≤ f ∧ f < p.memBase + i + n then 1 else p.bitmap f }

/-- A free row is claimed; nothing has to be given back. -/
theorem claimRow_free {j : Nat} (h : FreeRow p (i + j) n) :
    claimRow i n j p = (true, claimed p (i + j) n) := by
  induction n generalizing p j with
  | zero =>
      rw [claimRow, claimed]
      refine congrArg (Prod.mk true) ?_
      refine congrArg (Pmm.mk _ _ · _) (funext fun f => ?_)
      rw [if_neg (by omega)]
  | succ n ih =>
      have hzero : p.at (i + j) = 0 := h _ le_rfl (by omega)
      rw [claimRow, if_neg (not_not.mpr hzero), hzero, ih]
      · refine congrArg (Prod.mk true) ?_
        refine congrArg (Pmm.mk _ _ · _) (funext fun f => ?_)
        unfold Pmm.setAt Pmm.setEntry
        dsimp only
        by_cases hf : f = p.memBase + (i + j)
        · rw [if_neg (by omega), if_pos (by omega), hf, Function.update_self]
          rfl
        · rw [Function.update_of_ne hf]
          by_cases hin : p.memBase + (i + (j + 1)) ≤ f ∧ f < p.memBase + (i + (j + 1)) + n
          · rw [if_pos hin, if_pos (by omega)]
          · rw [if_neg hin, if_neg (by omega)]
      · intro k hlo hhi
        rw [at_setAt, if_neg (by omega)]
        exact h k (by omega) (by omega)

/-! ### The search -/

/-- An aligned entry that begins such a row. -/
def Fits (p : Pmm) (frames mask i : Nat) : Prop :=
  p.address i &&& mask = 0 ∧ FreeRow p i (max frames 1)

/-- No entry from `start` on and before `i` does. -/
def NoneBefore (p : Pmm) (frames mask start i : Nat) : Prop :=
  ∀ k, start ≤ k → k < i → ¬ Fits p frames mask k

/-- What the loop does from `start` on. -/
structure Searched (p : Pmm) (frames mask start n : Nat) (r : Nat × Pmm × List Nat) : Prop where
  absent : NoneBefore p frames mask start (start + n) → r.1 = 0 ∧ r.2.1 = p
  found : ∀ i, start ≤ i → i < start + n → NoneBefore p frames mask start i → Fits p frames mask i →
    r.1 = p.address i ∧ r.2.1 = claimed p i frames
  inside : ∀ e, (∀ k ∈ r.2.2, k < e) ↔
    ∀ i, start ≤ i → i < start + n → NoneBefore p frames mask start i → p.address i &&& mask = 0 →
      ∀ j, FreeRow p i j → j < max frames 1 → i + j < e

/-- The first index does not fit, and the loop goes on. -/
theorem Searched.next {frames mask start : Nat} {r : Nat × Pmm × List Nat}
    (h : Searched p frames mask (start + 1) n r) (ks : List Nat) (hno : ¬ Fits p frames mask start)
    (hks : ∀ e, (∀ k ∈ ks, k < e) ↔
      (p.address start &&& mask = 0 → ∀ j, FreeRow p start j → j < max frames 1 → start + j < e)) :
    Searched p frames mask start (n + 1) (r.1, r.2.1, ks ++ r.2.2) := by
  have hnone : ∀ i, start < i →
      (NoneBefore p frames mask start i ↔ NoneBefore p frames mask (start + 1) i) := by
    intro i hi
    refine ⟨fun hb k hlo hhi => hb k (by omega) hhi, fun hb k hlo hhi => ?_⟩
    by_cases hk : k = start
    · rw [hk]
      exact hno
    · exact hb k (by omega) hhi
  refine ⟨fun hb => h.absent ?_, fun i hlo hhi hb hfits => ?_, fun e => ?_⟩
  · rw [show start + 1 + n = start + (n + 1) by omega, ← hnone _ (by omega)]
    exact hb
  · have hne : i ≠ start := by
      rintro rfl
      exact hno hfits
    exact h.found i (by omega) (by omega) ((hnone i (by omega)).mp hb) hfits
  · simp only [List.mem_append, or_imp, forall_and]
    rw [hks, h.inside]
    constructor
    · rintro ⟨hfirst, hrest⟩ i hlo hhi hb
      by_cases hi : i = start
      · rw [hi]
        exact hfirst
      · exact hrest i (by omega) (by omega) ((hnone i (by omega)).mp hb)
    · intro hall
      exact ⟨hall start le_rfl (by omega) fun k hlo hhi => by omega, fun i hlo hhi hb =>
        hall i (by omega) (by omega) ((hnone i (by omega)).mpr hb)⟩

theorem searchRow_spec (frames mask start n : Nat) (p : Pmm) :
    Searched p frames mask start n (searchRow frames mask (List.range' start n) p) := by
  induction n generalizing start with
  | zero =>
      exact ⟨fun _ => ⟨rfl, rfl⟩, fun i hlo hhi => by omega,
        fun e => iff_of_true (fun k hk => absurd hk List.not_mem_nil) fun i hlo hhi => by omega⟩
  | succ n ih =>
      rw [List.range'_succ, searchRow]
      by_cases halign : p.address start &&& mask = 0
      · rw [if_neg (not_not.mpr halign)]
        by_cases hzero : p.at start = 0
        · rw [if_neg (not_not.mpr hzero)]
          dsimp only
          by_cases hrow : FreeRow p (start + 1) (frames - 1)
          · -- the row begins here
            have hfits : Fits p frames mask start := by
              refine ⟨halign, fun k hlo hhi => ?_⟩
              by_cases hk : k = start
              · rw [hk]
                exact hzero
              · exact hrow k (by omega) (by omega)
            have hclaim := @claimRow_free p start frames 0 fun k hlo hhi =>
              hfits.2 k (by omega) (by omega)
            rw [Nat.add_zero] at hclaim
            rw [scanRow_free hrow, if_neg (not_not.mpr rfl), hclaim, if_neg (not_not.mpr rfl)]
            refine ⟨fun hb => absurd hfits (hb start le_rfl (by omega)), fun i hlo hhi hb _ => ?_,
              fun e => ?_⟩
            · have hi : i = start := not_not.mp fun hne => hb start le_rfl (by omega) hfits
              rw [hi]
              exact ⟨rfl, rfl⟩
            · simp only [List.mem_cons, List.mem_range'_1, forall_eq_or_imp]
              constructor
              · rintro ⟨hfirst, hrest⟩ i hlo hhi hb _ j _ hj
                have hi : i = start := not_not.mp fun hne => hb start le_rfl (by omega) hfits
                by_cases hj0 : j = 0
                · omega
                · exact hrest _ ⟨by omega, by omega⟩
              · intro hall
                have hin := hall start le_rfl (by omega) (fun k hlo hhi => by omega) halign
                refine ⟨hin 0 (fun k hlo hhi => by omega) (by omega), fun k hk => ?_⟩
                have := hin (k - start) (fun l hlo hhi => hfits.2 l hlo (by omega)) (by omega)
                omega
          · -- another row begins in it
            obtain ⟨j, hj, hfree, hused, hscan⟩ := scanRow_used hrow
            have hno : ¬ Fits p frames mask start := fun hfits =>
              hrow fun k hlo hhi => hfits.2 k (by omega) (by omega)
            rw [hscan, if_pos (by simp)]
            refine (ih (start + 1)).next (start :: List.range' (start + 1) (j + 1)) hno fun e => ?_
            simp only [List.mem_cons, List.mem_range'_1, forall_eq_or_imp]
            constructor
            · rintro ⟨hfirst, hrest⟩ _ l hl hlt
              by_cases hl0 : l = 0
              · omega
              · refine hrest _ ⟨by omega, ?_⟩
                by_contra hfar
                exact hused (hl _ (by omega) (by omega))
            · intro hall
              have hin := hall halign
              refine ⟨hin 0 (fun k hlo hhi => by omega) (by omega), fun k hk => ?_⟩
              have := hin (k - start) (fun l hlo hhi => ?_) (by omega)
              · omega
              · by_cases hl : l = start
                · rw [hl]
                  exact hzero
                · exact hfree l (by omega) (by omega)
        · rw [if_pos hzero]
          have hno : ¬ Fits p frames mask start := fun hfits =>
            hzero (hfits.2 start le_rfl (by omega))
          refine (ih (start + 1)).next [start] hno fun e => ?_
          simp only [List.mem_singleton, forall_eq]
          constructor
          · intro hlt _ j hfree _
            have hj : j = 0 := not_not.mp fun hne => hzero (hfree start le_rfl (by omega))
            omega
          · exact fun hall => hall halign 0 (fun k hlo hhi => by omega) (by omega)
      · rw [if_pos halign]
        have hno : ¬ Fits p frames mask start := fun hfits => halign hfits.1
        exact (ih (start + 1)).next [] hno fun e =>
          iff_of_true (fun k hk => absurd hk List.not_mem_nil) fun h => absurd h halign

/-- There is a first row, or there is none. -/
theorem first_fit (p : Pmm) (frames mask start stop : Nat) :
    (∃ i, start ≤ i ∧ i < stop ∧ NoneBefore p frames mask start i ∧ Fits p frames mask i) ∨
      NoneBefore p frames mask start stop := by
  induction stop with
  | zero => exact .inr fun k _ hk => absurd hk (Nat.not_lt_zero k)
  | succ stop ih =>
      rcases ih with ⟨i, hlo, hhi, hi⟩ | hnone
      · exact .inl ⟨i, hlo, by omega, hi⟩
      · by_cases hfits : start ≤ stop ∧ Fits p frames mask stop
        · exact .inl ⟨stop, hfits.1, by omega, hnone, hfits.2⟩
        · refine .inr fun k hlo hhi hk => ?_
          by_cases hks : k = stop
          · exact hfits ⟨hks ▸ hlo, hks ▸ hk⟩
          · exact hnone k hlo (by omega) hk

/-! ### The whole function -/

/-- The number of frames of a block. -/
def blockFrames (length : Nat) : Nat := (length + 4095) / 4096

/-- What `pmm_alloc_advanced` should do. -/
structure AdvancedDone (p : Pmm) (length maxAddr alignment : Nat) (r : Nat × Pmm × List Nat) : Prop where
  /-- the block is aligned, below the limit and in the managed range -/
  placed : r.1 ≠ 0 → r.1 % 2 ^ alignment = 0 ∧ r.1 + blockFrames length * 4096 ≤ maxAddr ∧
    p.memBase * 4096 ≤ r.1 ∧ r.1 + blockFrames length * 4096 ≤ (p.memBase + p.memEntries) * 4096
  /-- its frames were free and have one user now -/
  taken : r.1 ≠ 0 → ∀ f, r.1 / 4096 ≤ f → f < r.1 / 4096 + blockFrames length →
    p.bitmap f = 0 ∧ r.2.1.users f = 1
  /-- the others are as they were -/
  others : r.1 ≠ 0 → ∀ f, ¬ (r.1 / 4096 ≤ f ∧ f < r.1 / 4096 + blockFrames length) →
    r.2.1.bitmap f = p.bitmap f
  /-- where there is no block nothing changes -/
  failed : r.1 = 0 → r.2.1 = p
  /-- only entries of the bitmap are accessed -/
  inside : ∀ k ∈ r.2.2, k < p.memEntries

/-- An aligned entry that the search gets to: no earlier one begins a row. -/
structure Reached (p : Pmm) (length maxAddr alignment i : Nat) : Prop where
  look : p.lookFromHere ≤ i
  stop : (i : Int) < searchEnd p (rowFrames length) maxAddr
  aligned : p.address i % 2 ^ alignment = 0
  first : ∀ k, p.lookFromHere ≤ k → k < i →
    ¬ (p.address k % 2 ^ alignment = 0 ∧ FreeRow p k (max (rowFrames length) 1))

/-- Where the search does no harm. -/
structure AdvancedSafe (p : Pmm) (length maxAddr alignment : Nat) : Prop where
  /-- a row that is free up to the end of the bitmap is long enough -/
  tail : ∀ i, Reached p length maxAddr alignment i → FreeRow p i (p.memEntries - i) →
    i + rowFrames length ≤ p.memEntries
  /-- the row that is found lies below the limit, and its address is not `0` -/
  found : ∀ i, Reached p length maxAddr alignment i → FreeRow p i (max (rowFrames length) 1) →
    if p.address i = 0 then rowFrames length = 0
    else rowFrames length = blockFrames length ∧
      (p.memBase + i + blockFrames length) * 4096 ≤ maxAddr

theorem and_mask (a alignment : Nat) : a &&& (2 ^ alignment - 1) = a % 2 ^ alignment :=
  Nat.and_two_pow_sub_one_eq_mod a alignment

/-- What the search does, from `look_from_here` to `end`. -/
theorem allocAdvanced_searched (hpos : 0 < length) :
    Searched p (rowFrames length) (2 ^ alignment - 1) p.lookFromHere
      ((searchEnd p (rowFrames length) maxAddr).toNat - p.lookFromHere)
      (pmmAllocAdvanced p length maxAddr alignment) := by
  rw [pmmAllocAdvanced, if_neg (by omega)]
  exact searchRow_spec _ _ _ _ p

theorem searchEnd_le (p : Pmm) (frames maxAddr : Nat) : searchEnd p frames maxAddr ≤ p.memEntries := by
  unfold searchEnd
  dsimp only
  split <;> omega

theorem reached_iff : Reached p length maxAddr alignment i ↔
    p.lookFromHere ≤ i ∧ i < p.lookFromHere +
        ((searchEnd p (rowFrames length) maxAddr).toNat - p.lookFromHere) ∧
      NoneBefore p (rowFrames length) (2 ^ alignment - 1) p.lookFromHere i ∧
      p.address i &&& (2 ^ alignment - 1) = 0 := by
  unfold NoneBefore Fits
  simp only [and_mask]
  constructor
  · rintro ⟨hlook, hstop, halign, hfirst⟩
    exact ⟨hlook, by omega, hfirst, halign⟩
  · rintro ⟨hlook, hstop, hfirst, halign⟩
    exact ⟨hlook, by omega, halign, hfirst⟩

/-- All accesses are in the bitmap if no free row is cut off by its end. -/
theorem inside_iff (hpos : 0 < length) :
    (∀ k ∈ (pmmAllocAdvanced p length maxAddr alignment).2.2, k < p.memEntries) ↔
      ∀ i, Reached p length maxAddr alignment i → FreeRow p i (p.memEntries - i) →
        i + rowFrames length ≤ p.memEntries := by
  have hle := searchEnd_le p (rowFrames length) maxAddr
  rw [(allocAdvanced_searched hpos).inside]
  constructor
  · intro hall i hi htail
    obtain ⟨hlook, hstop, hfirst, halign⟩ := reached_iff.mp hi
    by_contra hlong
    have := hall i hlook hstop hfirst halign (p.memEntries - i) htail (by omega)
    omega
  · intro hall i hlook hstop hfirst halign j hfree hj
    have hi := reached_iff.mpr ⟨hlook, hstop, hfirst, halign⟩
    by_contra hout
    have := hall i hi fun k hlo hhi => hfree k hlo (by omega)
    omega

/-- A row that is found ends in the bitmap. -/
theorem found_inside (hi : Reached p length maxAddr alignment i)
    (hrow : FreeRow p i (max (rowFrames length) 1))
    (htail : ∀ i, Reached p length maxAddr alignment i → FreeRow p i (p.memEntries - i) →
      i + rowFrames length ≤ p.memEntries) : i + rowFrames length ≤ p.memEntries := by
  by_contra hlong
  exact hlong (htail i hi fun k hlo hhi => hrow k hlo (by omega))

/-- Below the limit addresses do not wrap around. -/
theorem address_placed (hmax : maxAddr < 2 ^ 32) (hlimit : (p.memBase + i + n) * 4096 ≤ maxAddr)
    (hend : i + n ≤ p.memEntries) :
    p.address i / 4096 = p.memBase + i ∧ p.address i + n * 4096 ≤ maxAddr ∧
      p.memBase * 4096 ≤ p.address i ∧
      p.address i + n * 4096 ≤ (p.memBase + p.memEntries) * 4096 := by
  have hplain : p.address i = (p.memBase + i) * 4096 := by
    unfold Pmm.address
    omega
  rw [hplain, ← Nat.add_mul]
  exact ⟨Nat.mul_div_cancel _ (by decide), hlimit, Nat.mul_le_mul_right _ (Nat.le_add_right _ _),
    Nat.mul_le_mul_right _ (by omega)⟩

/-- **Contiguous frames**: `pmm_alloc_advanced` does what it should if and only if no free row that it
gets to is cut off by the end of the bitmap, and the row that it finds lies below the limit. -/
theorem allocAdvanced_done_iff (hbase : p.memBase < 2 ^ 20) (hentries : p.memEntries ≤ 2 ^ 20)
    (hpos : 0 < length) (hlength : length < 2 ^ 32) (hmax : maxAddr < 2 ^ 32) :
    AdvancedDone p length maxAddr alignment (pmmAllocAdvanced p length maxAddr alignment) ↔
      AdvancedSafe p length maxAddr alignment := by
  have hs := @allocAdvanced_searched p length maxAddr alignment hpos
  have hle := searchEnd_le p (rowFrames length) maxAddr
  have hfr : rowFrames length = blockFrames length ∨
      rowFrames length = 0 ∧ blockFrames length = 2 ^ 20 := by
    unfold rowFrames blockFrames
    omega
  constructor
  · intro h
    refine ⟨(inside_iff hpos).mp h.inside, fun i hi hrow => ?_⟩
    obtain ⟨hlook, hstop, hfirst, halign⟩ := reached_iff.mp hi
    obtain ⟨hret, hbm⟩ := hs.found i hlook hstop hfirst ⟨halign, hrow⟩
    by_cases haddr : p.address i = 0
    · rw [if_pos haddr]
      by_contra hne
      have hsame := h.failed (hret.trans haddr)
      rw [hbm] at hsame
      have hzero : p.bitmap (p.memBase + i) = 0 := hrow i le_rfl (by omega)
      rw [← hsame, claimed] at hzero
      dsimp only at hzero
      rw [if_pos ⟨le_rfl, by omega⟩] at hzero
      exact absurd hzero (by decide)
    · rw [if_neg haddr]
      obtain ⟨-, hend, hlow, -⟩ := h.placed (by rwa [hret])
      rw [hret] at hend hlow
      have hlt := hi.stop
      unfold Pmm.address at hend hlow haddr
      omega
  · intro h
    have hin := (inside_iff hpos).mpr h.tail
    by_cases hex : ∃ i, Reached p length maxAddr alignment i ∧ FreeRow p i (max (rowFrames length) 1)
    · obtain ⟨i, hi, hrow⟩ := hex
      obtain ⟨hlook, hstop, hfirst, halign⟩ := reached_iff.mp hi
      obtain ⟨hret, hbm⟩ := hs.found i hlook hstop hfirst ⟨halign, hrow⟩
      have hfound := h.found i hi hrow
      have hend := found_inside hi hrow h.tail
      by_cases haddr : p.address i = 0
      · rw [if_pos haddr] at hfound
        refine ⟨fun hne => absurd (hret.trans haddr) hne, fun hne => absurd (hret.trans haddr) hne,
          fun hne => absurd (hret.trans haddr) hne, fun _ => ?_, hin⟩
        rw [hbm, claimed, hfound]
        refine congrArg (Pmm.mk _ _ · _) (funext fun f => ?_)
        rw [if_neg (by omega)]
      · rw [if_neg haddr] at hfound
        obtain ⟨hframes, hlimit⟩ := hfound
        obtain ⟨hdiv, hplaced⟩ := address_placed hmax hlimit (by rwa [← hframes])
        refine ⟨fun _ => ?_, fun _ f hlo hhi => ?_, fun _ f hout => ?_, fun hz => ?_, hin⟩
        · rw [hret]
          exact ⟨hi.aligned, hplaced⟩
        · rw [hret, hdiv] at hlo hhi
          refine ⟨?_, ?_⟩
          · have hzero := hrow (f - p.memBase) (by omega) (by omega)
            unfold Pmm.at at hzero
            rwa [show p.memBase + (f - p.memBase) = f by omega] at hzero
          · rw [hbm, users, claimed]
            dsimp only
            rw [if_pos (by omega)]
            rfl
        · rw [hret, hdiv] at hout
          rw [hbm, claimed]
          dsimp only
          rw [if_neg (by omega)]
        · rw [hret] at hz
          exact absurd hz haddr
    · rcases first_fit p (rowFrames length) (2 ^ alignment - 1) p.lookFromHere (p.lookFromHere +
          ((searchEnd p (rowFrames length) maxAddr).toNat - p.lookFromHere)) with
        ⟨i, hlook, hstop, hfirst, hfits⟩ | hnone
      · exact absurd ⟨i, reached_iff.mpr ⟨hlook, hstop, hfirst, hfits.1⟩, hfits.2⟩ hex
      obtain ⟨hret, hbm⟩ := hs.absent hnone
      exact ⟨fun hne => absurd hret hne, fun hne => absurd hret hne, fun hne => absurd hret hne,
        fun _ => hbm, hin⟩

/-- Eight free frames from 1 MiB on. -/
def eightFree : Pmm := ⟨256, 8, fun _ => 0, 0⟩

/-- Two of them are found. -/
theorem two_frames_found :
    AdvancedDone eightFree 8192 0xFFFFFFFF 12 (pmmAllocAdvanced eightFree 8192 0xFFFFFFFF 12) := by
  refine (allocAdvanced_done_iff (by decide) (by decide) (by decide) (by decide) (by decide)).mpr ?_
  have hzero : ∀ i, Reached eightFree 8192 0xFFFFFFFF 12 i → i = 0 := by
    intro i hi
    by_contra hne
    exact hi.first 0 (by decide) (by omega) ⟨by decide, fun k _ _ => rfl⟩
  refine ⟨fun i hi _ => ?_, fun i hi _ => ?_⟩
  · rw [hzero i hi]
    decide
  · rw [hzero i hi]
    decide

/-- A frame below 20 KiB is asked for, and one at 1 MiB is given. -/
theorem frame_above_limit : (pmmAllocAdvanced eightFree 4096 0x5000 12).1 = 0x100000 ∧
    ¬ AdvancedDone eightFree 4096 0x5000 12 (pmmAllocAdvanced eightFree 4096 0x5000 12) := by
  have hret : (pmmAllocAdvanced eightFree 4096 0x5000 12).1 = 0x100000 := by decide
  refine ⟨hret, fun h => ?_⟩
  have hplaced := (h.placed (by rw [hret]; decide)).2.1
  rw [hret] at hplaced
  exact absurd hplaced (by decide)

end Muxomucota.Memory
