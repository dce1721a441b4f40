import Muxomucota.Mmu.Vmem

/-!
# Memory — the memory map at boot

`init_pmm`, with `get_memmap_info` and `get_kernel_dim` of the boot loader's side (`grub.c`).  The
lowest and the highest address of the usable regions give the managed range; its base is then moved
behind the kernel, its length is not.  Every frame that a usable region meets is freed, and the kernel
with the bitmap is taken again.

What is freed has a closed form (`initPmm_free`).  From it follows for which maps the free frames are
those that may be used (`initPmm_good_iff`).
-/

namespace Muxomucota.Memory
open Mmu

/-! ### What the boot loader says -/

/-- `struct memory_map`. -/
structure MemoryMap where
  base : Nat
  length : Nat
  type : Nat

/-- `struct multiboot_module`. -/
structure BootModule where
  modStart : Nat
  modEnd : Nat

/-- The memory map, the modules, and the virtual addresses where the kernel begins and ends and where
the two tables end. -/
structure BootInfo where
  mmap : List MemoryMap
  modules : List BootModule
  elfStart : Nat
  elfEnd : Nat
  mmapEnd : Nat
  modulesEnd : Nat
  elfStart_ge : physBase ≤ elfStart
  elfEnd_gt : elfStart < elfEnd
  elfEnd_lt : elfEnd < 2 ^ 32
  modules_lt : ∀ m ∈ modules, m.modEnd < 2 ^ 32
  mmapEnd_lt : mmapEnd < 2 ^ 32
  modulesEnd_lt : modulesEnd < 2 ^ 32

/-- What `get_memmap_info` gives: 32-bit numbers. -/
structure Region where
  usable : Bool
  base : Nat
  length : Nat
  base_lt : base < 2 ^ 32
  length_lt : length < 2 ^ 32

/-- `get_memmap_info`. -/
def getMemmapInfo (mmap : List MemoryMap) (index : Nat) : Region :=
  match mmap[index]? with
  | none => ⟨false, 0, 0, by decide, by decide⟩
  | some entry =>
      if h : entry.base < 2 ^ 32 then
        ⟨entry.type = 1, entry.base, if entry.length < 2 ^ 32 then entry.length else 0xFFFFFFFF, h, by
          split <;> omega⟩
      else ⟨false, 0, 0, by decide, by decide⟩

/-- The regions in the order of the two loops. -/
def BootInfo.regions (b : BootInfo) : List Region :=
  (List.range b.mmap.length).map (getMemmapInfo b.mmap)

/-- `get_kernel_dim`. -/
def BootInfo.getKernelDim (b : BootInfo) : Nat × Nat :=
  let e := b.modules.foldl (fun e m =>
    if e < (m.modEnd + physBase) % 2 ^ 32 then (m.modEnd + physBase) % 2 ^ 32 else e) b.elfEnd
  let e := if e < b.mmapEnd then b.mmapEnd else e
  let e := if e < b.modulesEnd then b.modulesEnd else e
  (physBase, e)

/-! ### `init_pmm` -/

/-- The first loop: `memsize` and `mem_base`. -/
def noteRegion (s : Nat × Nat) (r : Region) : Nat × Nat :=
  let length := if (r.base + r.length) % 2 ^ 32 < r.base then 0xFFFFFFFF - r.base else r.length
  let memsize :=
    if r.usable ∧ s.1 < (r.base + length) % 2 ^ 32 then (r.base + length) % 2 ^ 32 else s.1
  let memBase := if r.usable ∧ r.base < s.2 then r.base else s.2
  (memsize, memBase)

/-- `bitmap[bi] = v` for `start <= bi < stop`. -/
def fillEntries (bitmap : Nat → BitVec 8) (start stop : Nat) (v : BitVec 8) : Nat → BitVec 8 :=
  fun i => if start ≤ i ∧ i < stop then v else bitmap i

/-- The second loop: the entries of a usable region are freed. -/
def freeRegion (memsize memBase memEntries : Nat) (bitmap : Nat → BitVec 8) (r : Region) :
    Nat → BitVec 8 :=
  if r.usable ∧ r.base < memsize ∧ memBase < (r.base + r.length) % 2 ^ 32 then
    let top :=
      if (r.base + r.length + 4095) % 2 ^ 32 < r.base then memEntries
      else (r.base + r.length + 4095 + 2 ^ 32 - memBase) % 2 ^ 32 / 4096
    let top := if memEntries < top then memEntries else top
    let paddr := if memBase < r.base then (r.base - memBase) / 4096 else 0
    if memEntries < paddr then bitmap else fillEntries bitmap paddr top 0
  else bitmap

/-- `kernel_paddr` after it was made a frame number. -/
def BootInfo.kernelPaddr (b : BootInfo) : Nat := (b.getKernelDim.1 - physBase) / 4096

/-- `kernel_end` after it was made a frame number; the bitmap begins there. -/
def BootInfo.kernelEnd (b : BootInfo) : Nat := (b.getKernelDim.2 - physBase + 4095) / 4096

/-- `init_pmm`. -/
def initPmm (b : BootInfo) : Pmm :=
  let s := b.regions.foldl noteRegion (0, 0xFFFFFFFF)
  let memsize := s.1
  let memBase := s.2
  let memEntries := (memsize + 2 ^ 32 - memBase) % 2 ^ 32 / 4096
  let memBase :=
    if b.kernelPaddr * 4096 ≤ memBase ∧ memBase < b.kernelEnd * 4096 then b.kernelEnd * 4096
    else memBase
  let memBase := (memBase + 4095) % 2 ^ 32 / 4096 * 4096
  let bmpSize := (memEntries + 4095) / 4096
  let kernelEnd := b.kernelEnd + bmpSize
  let bitmap := b.regions.foldl (freeRegion memsize memBase memEntries) fun _ => 0xff
  let bitmap :=
    if memBase / 4096 < kernelEnd ∧ b.kernelPaddr < memEntries + memBase / 4096 then
      let e := if memEntries < kernelEnd - memBase / 4096 then memEntries
        else kernelEnd - memBase / 4096
      fillEntries bitmap (b.kernelPaddr - memBase / 4096) e bitmapUsers
    else bitmap
  { memBase := memBase / 4096, memEntries, bitmap := fun f => bitmap (f - memBase / 4096),
    lookFromHere := 0 }

/-! ### How many frames are managed -/

/-- The end of a region, where it does not reach 4 GiB. -/
def Region.stop (r : Region) : Nat := min (r.base + r.length) 0xFFFFFFFF

namespace BootInfo

variable (b : BootInfo)

/-- The usable regions. -/
def usableRegions : List Region := b.regions.filter (·.usable)

/-- The lowest address of a usable region. -/
def lowest : Nat := (b.usableRegions.map Region.base).foldl min 0xFFFFFFFF

/-- The highest end of a usable region. -/
def highest : Nat := (b.usableRegions.map Region.stop).foldl max 0

/-- How many frames are managed. -/
def count : Nat := (b.highest - b.lowest) / 4096

end BootInfo

/-! ### What a free frame should be -/

/-- The byte belongs to a usable region of the map. -/
def BootInfo.UsableByte (b : BootInfo) (a : Nat) : Prop :=
  ∃ e ∈ b.mmap, e.type = 1 ∧ e.base ≤ a ∧ a < e.base + e.length

/-- The byte belongs to an unusable region of the map. -/
def BootInfo.UnusableByte (b : BootInfo) (a : Nat) : Prop :=
  ∃ e ∈ b.mmap, e.type ≠ 1 ∧ e.base ≤ a ∧ a < e.base + e.length

/-- The byte belongs to a module. -/
def BootModule.HasByte (m : BootModule) (a : Nat) : Prop := m.modStart ≤ a ∧ a < m.modEnd

/-- A frame that may be given out: wholly usable, nowhere unusable, and without a byte of the kernel, the
modules and the bitmap, which has a byte for each managed frame. -/
structure BootInfo.Good (b : BootInfo) (frame : Nat) : Prop where
  usable : ∀ a, a / 4096 = frame → b.UsableByte a
  apart : ∀ a, a / 4096 = frame → ¬ b.UnusableByte a
  image : ∀ a, a / 4096 = frame → ¬ (b.elfStart - physBase ≤ a ∧ a < b.elfEnd - physBase)
  modules : ∀ m ∈ b.modules, ∀ a, a / 4096 = frame → ¬ m.HasByte a
  bitmap : ∀ a, a / 4096 = frame →
    ¬ (b.kernelEnd * 4096 ≤ a ∧ a < b.kernelEnd * 4096 + b.count)

/-! ### Which frames are offered -/

/-- The end of a region, modulo 4 GiB. -/
def Region.stop32 (r : Region) : Nat := (r.base + r.length) % 2 ^ 32

namespace BootInfo

variable (b : BootInfo)

/-- The first managed frame: whole, and behind the kernel. -/
def first : Nat := max ((b.lowest + 4095) / 4096) b.kernelEnd

/-- The first frame behind the bitmap. -/
def behind : Nat := b.kernelEnd + (b.count + 4095) / 4096

/-- A region that counts: its end, modulo 4 GiB, lies above the first managed frame. -/
def Seen (r : Region) : Prop :=
  r ∈ b.usableRegions ∧ r.base < b.highest ∧ b.first * 4096 < r.stop32

/-- The frame is managed, lies behind the kernel and the bitmap, and is met by a usable region. -/
def Offered (f : Nat) : Prop :=
  f < 2 ^ 20 ∧ b.first ≤ f ∧ b.behind ≤ f ∧ f < b.first + b.count ∧
    ∃ r, b.Seen r ∧ r.base / 4096 ≤ f ∧ (f * 4096 < r.stop32 ∨ r.stop32 + 4095 < r.base)

/-- A region that counts is taken for one that reaches the end of the managed range. -/
def Overflows : Prop := ∃ r, b.Seen r ∧ (r.stop32 + 4095) % 2 ^ 32 < r.base

/-- A map that does no harm. -/
structure Harmless : Prop where
  /-- an offered frame is wholly usable -/
  usable : ∀ f, b.Offered f → ∀ a, a / 4096 = f → b.UsableByte a
  /-- and not met by an unusable region -/
  apart : ∀ f, b.Offered f → ∀ a, a / 4096 = f → ¬ b.UnusableByte a
  /-- nor by a module that ends at 256 MiB or above -/
  modules : ∀ f, b.Offered f → ∀ m ∈ b.modules, 2 ^ 28 ≤ m.modEnd →
    ∀ a, a / 4096 = f → ¬ m.HasByte a
  /-- where the managed range goes beyond 4 GiB, the frames at its end may be given out -/
  wrap : b.Overflows → ∀ f, f + 2 ^ 20 < b.first + b.count → b.Good f

end BootInfo

variable {b : BootInfo} {r : Region}

/-! ### The kernel -/

theorem kernelPaddr_eq : b.kernelPaddr = 0 := by
  show (physBase - physBase) / 4096 = 0
  rw [Nat.sub_self]

/-- What `get_kernel_dim` finds is the highest of the ends, modulo 4 GiB. -/
theorem modulesEnd_spec (ms : List BootModule) {e : Nat} (he : e < 2 ^ 32) :
    e ≤ ms.foldl (fun e m =>
        if e < (m.modEnd + physBase) % 2 ^ 32 then (m.modEnd + physBase) % 2 ^ 32 else e) e ∧
      ms.foldl (fun e m =>
        if e < (m.modEnd + physBase) % 2 ^ 32 then (m.modEnd + physBase) % 2 ^ 32 else e) e < 2 ^ 32 ∧
      ∀ m ∈ ms, (m.modEnd + physBase) % 2 ^ 32 ≤ ms.foldl (fun e m =>
        if e < (m.modEnd + physBase) % 2 ^ 32 then (m.modEnd + physBase) % 2 ^ 32 else e) e := by
  induction ms generalizing e with
  | nil => exact ⟨le_rfl, he, fun m hm => absurd hm List.not_mem_nil⟩
  | cons m ms ih =>
      rw [List.foldl_cons, List.forall_mem_cons]
      have hnext : e ≤ (if e < (m.modEnd + physBase) % 2 ^ 32 then (m.modEnd + physBase) % 2 ^ 32
            else e) ∧
          (m.modEnd + physBase) % 2 ^ 32 ≤ (if e < (m.modEnd + physBase) % 2 ^ 32 then
            (m.modEnd + physBase) % 2 ^ 32 else e) := by
        split <;> omega
      obtain ⟨hle, hlt, hms⟩ := ih (e := if e < (m.modEnd + physBase) % 2 ^ 32 then
        (m.modEnd + physBase) % 2 ^ 32 else e) (by split <;> omega)
      exact ⟨hnext.1.trans hle, hlt, hnext.2.trans hle, hms⟩

/-- The kernel and the modules that end below 256 MiB lie below `kernel_end`. -/
theorem kernelEnd_spec (b : BootInfo) :
    b.elfEnd - physBase ≤ b.kernelEnd * 4096 ∧ 0 < b.kernelEnd ∧ b.kernelEnd ≤ 2 ^ 16 ∧
      ∀ m ∈ b.modules, m.modEnd < 2 ^ 28 → m.modEnd ≤ b.kernelEnd * 4096 := by
  obtain ⟨hle, hlt, hms⟩ := modulesEnd_spec b.modules b.elfEnd_lt
  have hstart := b.elfStart_ge
  have hend := b.elfEnd_gt
  have hmmap := b.mmapEnd_lt
  have hmodules := b.modulesEnd_lt
  unfold BootInfo.kernelEnd BootInfo.getKernelDim
  unfold physBase at *
  generalize b.modules.foldl _ b.elfEnd = e at hle hlt hms
  dsimp only
  refine ⟨by split <;> split <;> omega, by split <;> split <;> omega, by split <;> split <;> omega, ?_⟩
  intro m hm hlow
  have := hms m hm
  split <;> split <;> omega

/-! ### The first loop -/

theorem noteRegion_eq (s : Nat × Nat) (r : Region) : noteRegion s r =
    if r.usable then (max s.1 r.stop, min s.2 r.base) else s := by
  have hbase := r.base_lt
  have hlength := r.length_lt
  unfold noteRegion Region.stop
  cases r.usable with
  | false => simp
  | true =>
      simp only [true_and, if_true, Prod.mk.injEq]
      constructor
      · split <;> split <;> omega
      · split <;> omega

theorem noteRegions (rs : List Region) (s : Nat × Nat) : rs.foldl noteRegion s =
    (((rs.filter (·.usable)).map Region.stop).foldl max s.1,
      ((rs.filter (·.usable)).map Region.base).foldl min s.2) := by
  induction rs generalizing s with
  | nil => rfl
  | cons r rs ih =>
      rw [List.foldl_cons, noteRegion_eq, ih]
      by_cases hr : r.usable
      · rw [if_pos hr, List.filter_cons_of_pos hr]
        rfl
      · rw [if_neg hr, List.filter_cons_of_neg hr]

/-- The first loop finds the lowest and the highest address. -/
theorem bounds_eq (b : BootInfo) :
    b.regions.foldl noteRegion (0, 0xFFFFFFFF) = (b.highest, b.lowest) := noteRegions _ _

/-! ### The second loop -/

namespace BootInfo

/-- A region that counts frees the entry of this frame; beyond 4 GiB a frame is counted on. -/
def Takes (b : BootInfo) (r : Region) (f : Nat) : Prop :=
  r.usable ∧ r.base < b.highest ∧ b.first * 4096 < r.stop32 ∧ r.base / 4096 ≤ f ∧
    (f * 4096 < r.stop32 ∨ (r.stop32 + 4095) % 2 ^ 32 < r.base)

end BootInfo

theorem fillEntries_zero {bitmap : Nat → BitVec 8} {start stop i : Nat} :
    fillEntries bitmap start stop 0 i = 0 ↔ (start ≤ i ∧ i < stop) ∨ bitmap i = 0 := by
  unfold fillEntries
  split
  · rename_i h
    exact iff_of_true rfl (.inl h)
  · rename_i h
    exact (or_iff_right h).symm

theorem first_pos (b : BootInfo) : 0 < b.first :=
  lt_of_lt_of_le (kernelEnd_spec b).2.1 (le_max_right _ _)

theorem freeRegion_zero {bitmap : Nat → BitVec 8} {i : Nat} (hi : i < b.count) (r : Region) :
    freeRegion b.highest (b.first * 4096) b.count bitmap r i = 0 ↔
      b.Takes r (b.first + i) ∨ bitmap i = 0 := by
  have hbase := r.base_lt
  have hlength := r.length_lt
  have hfirst := first_pos b
  have hlt : r.stop32 < 2 ^ 32 := Nat.mod_lt _ (by decide)
  have hstop : (r.base + r.length + 4095) % 2 ^ 32 = (r.stop32 + 4095) % 2 ^ 32 := by
    unfold Region.stop32
    omega
  unfold freeRegion BootInfo.Takes
  rw [show (r.base + r.length) % 2 ^ 32 = r.stop32 from rfl, hstop]
  by_cases hseen : r.usable = true ∧ r.base < b.highest ∧ b.first * 4096 < r.stop32
  · obtain ⟨husable, hhigh, hlow⟩ := hseen
    have hpaddr : (if b.first * 4096 < r.base then (r.base - b.first * 4096) / 4096 else 0) =
        r.base / 4096 - b.first := by
      split <;> omega
    have htop : (r.base + r.length + 4095 + 2 ^ 32 - b.first * 4096) % 2 ^ 32 / 4096 =
        (r.stop32 + 4095) / 4096 - b.first := by
      unfold Region.stop32 at *
      omega
    rw [if_pos ⟨husable, hhigh, hlow⟩]
    rw [hpaddr, htop, and_iff_right husable, and_iff_right hhigh, and_iff_right hlow]
    by_cases hout : b.count < r.base / 4096 - b.first
    · rw [if_pos hout]
      exact (or_iff_right (by omega)).symm
    · rw [if_neg hout, fillEntries_zero]
      refine or_congr_left ?_
      by_cases hlast : (r.stop32 + 4095) % 2 ^ 32 < r.base
      · rw [if_pos hlast]
        split <;> omega
      · rw [if_neg hlast]
        split <;> omega
  · rw [if_neg hseen]
    exact (or_iff_right fun ht => hseen ⟨ht.1, ht.2.1, ht.2.2.1⟩).symm

theorem freeRegions_zero {bitmap : Nat → BitVec 8} {i : Nat} (hi : i < b.count) (rs : List Region) :
    rs.foldl (freeRegion b.highest (b.first * 4096) b.count) bitmap i = 0 ↔
      (∃ r ∈ rs, b.Takes r (b.first + i)) ∨ bitmap i = 0 := by
  induction rs generalizing bitmap with
  | nil =>
      exact (or_iff_right fun h => by
        obtain ⟨r, hr, -⟩ := h
        exact absurd hr List.not_mem_nil).symm
  | cons r rs ih =>
      rw [List.foldl_cons, ih, freeRegion_zero hi, List.exists_mem_cons_iff, or_left_comm, or_assoc]

/-! ### The whole of it -/

theorem bounds_lt (b : BootInfo) : b.highest < 2 ^ 32 ∧ b.lowest < 2 ^ 32 := by
  unfold BootInfo.highest BootInfo.lowest
  suffices ∀ (rs : List Region) (n k : Nat), n < 2 ^ 32 → k < 2 ^ 32 →
      (rs.map Region.stop).foldl max n < 2 ^ 32 ∧ (rs.map Region.base).foldl min k < 2 ^ 32 from
    this _ _ _ (by decide) (by decide)
  intro rs
  induction rs with
  | nil => exact fun n k hn hk => ⟨hn, hk⟩
  | cons r rs ih =>
      intro n k hn hk
      exact ih _ _ (max_lt hn (lt_of_le_of_lt (min_le_right _ _) (by decide)))
        (lt_of_le_of_lt (min_le_left _ _) hk)

/-- The bounds are those of a usable region, or there is none. -/
theorem bounds_le (b : BootInfo) :
    b.lowest ≤ b.highest ∨ b.highest = 0 ∧ b.lowest = 0xFFFFFFFF := by
  have hmono : ∀ (rs : List Region) (n k : Nat), k ≤ n →
      (rs.map Region.base).foldl min k ≤ (rs.map Region.stop).foldl max n := by
    intro rs
    induction rs with
    | nil => exact fun n k h => h
    | cons r rs ih => exact fun n k h => ih _ _ ((min_le_left _ _).trans (h.trans (le_max_left _ _)))
  unfold BootInfo.highest BootInfo.lowest
  cases b.usableRegions with
  | nil => exact .inr ⟨rfl, rfl⟩
  | cons r rs =>
      have hbase := r.base_lt
      refine .inl (hmono rs _ _ ?_)
      unfold Region.stop
      omega

theorem initPmm_memEntries (b : BootInfo) : (initPmm b).memEntries = b.count := by
  show ((b.regions.foldl noteRegion (0, 0xFFFFFFFF)).1 + 2 ^ 32 -
    (b.regions.foldl noteRegion (0, 0xFFFFFFFF)).2) % 2 ^ 32 / 4096 = b.count
  rw [bounds_eq]
  have hlt := bounds_lt b
  unfold BootInfo.count
  dsimp only
  rcases bounds_le b with hle | ⟨hhigh, hlow⟩
  · omega
  · omega

/-- Where anything is managed, the first frame is the first whole one behind the kernel. -/
theorem initPmm_base (h : 0 < b.count) :
    ((if b.kernelPaddr * 4096 ≤ b.lowest ∧ b.lowest < b.kernelEnd * 4096 then b.kernelEnd * 4096
      else b.lowest) + 4095) % 2 ^ 32 / 4096 = b.first := by
  have hlt := bounds_lt b
  obtain ⟨-, -, hkernel, -⟩ := kernelEnd_spec b
  unfold BootInfo.count at h
  unfold BootInfo.first
  rw [kernelPaddr_eq]
  split <;> omega

theorem initPmm_memBase (h : 0 < b.count) : (initPmm b).memBase = b.first := by
  rw [← initPmm_base h]
  unfold initPmm
  rw [bounds_eq]
  dsimp only
  omega

/-- **The free frames**: of the managed frames those behind the bitmap that a region takes. -/
theorem initPmm_free {f : Nat} (hlo : b.first ≤ f) (hhi : f < b.first + b.count) :
    (initPmm b).bitmap f = 0 ↔ b.behind ≤ f ∧ ∃ r ∈ b.regions, b.Takes r f := by
  have hcount : 0 < b.count := by omega
  have hentries : (b.highest + 2 ^ 32 - b.lowest) % 2 ^ 32 / 4096 = b.count := by
    have h := initPmm_memEntries b
    unfold initPmm at h
    rwa [bounds_eq] at h
  unfold initPmm
  rw [bounds_eq]
  dsimp only
  rw [hentries, initPmm_base hcount, kernelPaddr_eq, Nat.mul_div_cancel _ (by decide)]
  have hzero := @freeRegions_zero b (fun _ => 0xff) (f - b.first) (by omega)
    b.regions
  rw [show b.first + (f - b.first) = f by omega, or_iff_left (by decide)] at hzero
  unfold BootInfo.behind
  by_cases hin : b.first < b.kernelEnd + (b.count + 4095) / 4096 ∧ 0 < b.count + b.first
  · rw [if_pos hin]
    unfold fillEntries
    by_cases hres : f < b.kernelEnd + (b.count + 4095) / 4096
    · rw [if_pos (by split <;> omega)]
      exact iff_of_false (by decide) fun h => by omega
    · rw [if_neg (by split <;> omega), hzero, and_iff_right (by omega)]
  · rw [if_neg hin, hzero, and_iff_right (by omega)]

/-! ### What is free may be given out -/

theorem first_le (b : BootInfo) : b.first ≤ 2 ^ 20 ∧ b.count < 2 ^ 20 ∧ b.behind < 2 ^ 20 := by
  have hlt := bounds_lt b
  obtain ⟨-, -, hkernel, -⟩ := kernelEnd_spec b
  unfold BootInfo.behind BootInfo.first BootInfo.count
  omega

theorem tracked_iff {f : Nat} :
    (initPmm b).Tracked f ↔ b.first ≤ f ∧ f < b.first + b.count := by
  unfold Pmm.Tracked
  rw [initPmm_memEntries]
  by_cases h : 0 < b.count
  · rw [initPmm_memBase h]
  · exact iff_of_false (by omega) (by omega)

/-- Below 4 GiB what is free is what is offered. -/
theorem offered_iff {f : Nat} (hf : f < 2 ^ 20) :
    b.Offered f ↔ (initPmm b).Tracked f ∧ (initPmm b).bitmap f = 0 := by
  rw [tracked_iff]
  have hmem : ∀ r, r ∈ b.usableRegions ↔ r ∈ b.regions ∧ r.usable := fun r => List.mem_filter
  constructor
  · rintro ⟨-, hlo, hbehind, hhi, r, ⟨hr, hhigh, hlow⟩, hbase, hend⟩
    refine ⟨⟨hlo, hhi⟩, (initPmm_free hlo hhi).mpr ⟨hbehind, r, ((hmem r).mp hr).1, ((hmem r).mp hr).2,
      hhigh, hlow, hbase, ?_⟩⟩
    have := r.base_lt
    omega
  · rintro ⟨⟨hlo, hhi⟩, hfree⟩
    obtain ⟨hbehind, r, hr, husable, hhigh, hlow, hbase, hend⟩ := (initPmm_free hlo hhi).mp hfree
    refine ⟨hf, hlo, hbehind, hhi, r, ⟨(hmem r).mpr ⟨hr, husable⟩, hhigh, hlow⟩, hbase, ?_⟩
    have hlt : r.stop32 < 2 ^ 32 := Nat.mod_lt _ (by decide)
    omega

/-- Beyond 4 GiB everything is free, if a region is taken for one that reaches there. -/
theorem overflows_iff {f : Nat} (hf : 2 ^ 20 ≤ f) (hhi : f < b.first + b.count) :
    b.Overflows ↔ (initPmm b).bitmap f = 0 := by
  have hle := first_le b
  rw [initPmm_free (by omega) hhi]
  constructor
  · rintro ⟨r, ⟨hr, hhigh, hlow⟩, hlast⟩
    obtain ⟨hr, husable⟩ := List.mem_filter.mp hr
    have := r.base_lt
    exact ⟨by omega, r, hr, husable, hhigh, hlow, by omega, .inr hlast⟩
  · rintro ⟨-, r, hr, husable, hhigh, hlow, -, hend⟩
    have hlt : r.stop32 < 2 ^ 32 := Nat.mod_lt _ (by decide)
    exact ⟨r, ⟨List.mem_filter.mpr ⟨hr, husable⟩, hhigh, hlow⟩, by omega⟩

/-- An offered frame lies behind the kernel, the modules below 256 MiB, and the bitmap. -/
theorem offered_good {f : Nat} (h : b.Offered f) (husable : ∀ a, a / 4096 = f → b.UsableByte a)
    (hapart : ∀ a, a / 4096 = f → ¬ b.UnusableByte a)
    (hmodules : ∀ m ∈ b.modules, 2 ^ 28 ≤ m.modEnd → ∀ a, a / 4096 = f → ¬ m.HasByte a) :
    b.Good f := by
  obtain ⟨-, -, hbehind, -⟩ := h
  obtain ⟨hend, -, -, hms⟩ := kernelEnd_spec b
  unfold BootInfo.behind at hbehind
  refine ⟨husable, hapart, fun a ha => by omega, fun m hm a ha hbyte => ?_, fun a ha => ?_⟩
  · by_cases hlow : m.modEnd < 2 ^ 28
    · have := hms m hm hlow
      unfold BootModule.HasByte at hbyte
      omega
    · exact hmodules m hm (by omega) a ha hbyte
  · omega

/-- **Boot memory map**: every free frame may be given out if and only if the map does no harm. -/
theorem initPmm_good_iff (b : BootInfo) :
    (∀ f, (initPmm b).Tracked f → (initPmm b).bitmap f = 0 → b.Good (f % 2 ^ 20)) ↔ b.Harmless := by
  have hle := first_le b
  constructor
  · intro h
    have hoffered : ∀ f, b.Offered f → b.Good f := by
      intro f hf
      have hfree := (offered_iff hf.1).mp hf
      have := h f hfree.1 hfree.2
      rwa [Nat.mod_eq_of_lt hf.1] at this
    refine ⟨fun f hf => (hoffered f hf).usable, fun f hf => (hoffered f hf).apart,
      fun f hf m hm _ => (hoffered f hf).modules m hm, fun hover f hf => ?_⟩
    have hgood := h (f + 2 ^ 20) (tracked_iff.mpr ⟨by omega, hf⟩)
      ((overflows_iff (by omega) hf).mp hover)
    rwa [show (f + 2 ^ 20) % 2 ^ 20 = f by omega] at hgood
  · intro h f htracked hfree
    obtain ⟨hlo, hhi⟩ := tracked_iff.mp htracked
    by_cases hf : f < 2 ^ 20
    · have hoffered := (offered_iff hf).mpr ⟨htracked, hfree⟩
      rw [Nat.mod_eq_of_lt hf]
      exact offered_good hoffered (h.usable f hoffered) (h.apart f hoffered) (h.modules f hoffered)
    · have hover := (overflows_iff (by omega) hhi).mpr hfree
      exact h.wrap hover (f % 2 ^ 20) (by omega)

/-- A usable region that ends in the middle of a page, and an unusable one behind it. -/
def halfPage : BootInfo where
  mmap := [⟨0x100000, 0x300800, 1⟩, ⟨0x400800, 0x100000, 2⟩]
  modules := []
  elfStart := 0xF0100000
  elfEnd := 0xF0200000
  mmapEnd := 0
  modulesEnd := 0
  elfStart_ge := by decide
  elfEnd_gt := by decide
  elfEnd_lt := by decide
  modules_lt := fun m hm => absurd hm List.not_mem_nil
  mmapEnd_lt := by decide
  modulesEnd_lt := by decide

/-- The page in the middle is free. -/
theorem half_page_free : (initPmm halfPage).Tracked 0x400 ∧ (initPmm halfPage).bitmap 0x400 = 0 ∧
    ¬ halfPage.Good (0x400 % 2 ^ 20) := by
  refine ⟨by decide, by decide, fun h => ?_⟩
  exact h.apart 0x400800 (by decide) ⟨⟨0x400800, 0x100000, 2⟩,
    List.mem_cons_of_mem _ List.mem_cons_self, by decide, by decide, by decide⟩

end Muxomucota.Memory
