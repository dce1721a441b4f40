import Muxomucota.Memory.Pmm
import Muxomucota.Mmu.Ram

/-!
# Mmu — address spaces

The functions of `mmu/vmem.c` that change a process's address space.  An address space is named by
the frame of its page directory (`context->arch.pd`, mapped from `cr3`); page directories and page
tables are read from and written to physical memory.  `kernel_map` and `kernel_unmap` only make a
frame addressable for the kernel and do not appear; neither do the locks, since each function runs
as one step.  Addresses are below `2 ^ 32`, and arithmetic on them wraps.

A function is `none` when an assertion fails on the way, which halts the kernel.
-/

namespace Muxomucota.Mmu
open Memory

/-! ### Constants -/

def physBase : Nat := 0xF0000000
def userHeritageBase : Nat := 0xBF000000
def userHeritageTop : Nat := 0xC0000000
def userMapBase : Nat := 0xC0000000
def userMapTop : Nat := 0xE0000000
def userStackBase : Nat := 0xE0000000
def userStackTop : Nat := 0xF0000000

/-- `IS_KERNEL`. -/
def isKernel (x : Nat) : Bool := decide (physBase ≤ x)

def pageSize : Nat := 4096

/-- The number of page-directory entries below `PHYS_BASE`. -/
def userPdes : Nat := 960

/-- The access flags of `vmem.h`. -/
def vmmUr : BitVec 32 := 1 <<< 0
def vmmUw : BitVec 32 := 1 <<< 1
def vmmUx : BitVec 32 := 1 <<< 2
def vmmPr : BitVec 32 := 1 <<< 3
def vmmPw : BitVec 32 := 1 <<< 4
def vmmPx : BitVec 32 := 1 <<< 5
def vmmCd : BitVec 32 := 1 <<< 6

/-- `address >> 22`. -/
def pdIndex (address : Nat) : Nat := address / 0x400000

/-- `(address >> 12) & 0x3FF`. -/
def ptIndex (address : Nat) : Nat := address / 0x1000 % 0x400

/-! ### Memory -/

/-- Physical memory and the bitmap over its frames. -/
structure Mem where
  pmm : Pmm
  ram : Ram

namespace Mem

/-- Entry `i` of the directory or table in frame `f`. -/
def entry (m : Mem) (f i : Nat) : BitVec 32 := m.ram.word f (4 * i)

def setEntry (m : Mem) (f i : Nat) (w : BitVec 32) : Mem :=
  { m with ram := m.ram.setWord f (4 * i) w }

def alloc (m : Mem) : Option (Nat × Mem) :=
  (pmmAlloc m.pmm).map fun r => (r.1, { m with pmm := r.2 })

def free (m : Mem) (f : Nat) : Option Mem := (pmmFree m.pmm f).map fun p => { m with pmm := p }

def use (m : Mem) (f : Nat) : Option Mem := (pmmUse m.pmm f).map fun p => { m with pmm := p }

def markCow (m : Mem) (f : Nat) (flag : Bool) : Option Mem :=
  (pmmMarkCow m.pmm f flag).map fun p => { m with pmm := p }

def fillWords (m : Mem) (f : Nat) (w : BitVec 32) : Mem := { m with ram := m.ram.fillWords f w }

def copyFrame (m : Mem) (dst src : Nat) : Mem := { m with ram := m.ram.copyFrame dst src }

def fillFrame (m : Mem) (f : Nat) (b : BitVec 8) : Mem := { m with ram := m.ram.fillFrame f b }

end Mem

/-- `n` free frames, all zero. -/
def Mem.boot (n : Nat) : Mem := { pmm := ⟨0, n, fun _ => 0, 0⟩, ram := fun _ _ => 0 }

/-! ### Mapping pages -/

/-- The flags of a present entry that `vmmc_map_user_page_unlocked` writes. -/
def pageFlags (flags : BitVec 32) : BitVec 32 :=
  mapPr ||| (if flags &&& (vmmUw ||| vmmPw) ≠ 0 then mapRw else 0)
    ||| (if flags &&& (vmmUr ||| vmmUw ||| vmmUx) ≠ 0 then mapUs else 0)
    ||| (if flags &&& vmmCd ≠ 0 then mapNc else 0)

/-- The `lazy_flags` of `vmmc_map_user_page_unlocked`: what a directory entry without a page table
says about its pages. -/
def lazyFlags (pde : BitVec 32) : BitVec 32 := if isUs pde then (pde &&& mapRw) ||| mapUs else 0

/-- `vmmc_map_user_page_unlocked`. -/
def vmmcMapUserPageUnlocked (m : Mem) (pd virt phys : Nat) (flags : BitVec 32) : Option Mem :=
  if isKernel virt then some m
  else
    let pdi := pdIndex virt
    let pti := ptIndex virt
    let pde := m.entry pd pdi
    if isPr pde then some (m.setEntry (frameOf pde) pti (entry phys (pageFlags flags)))
    else
      m.alloc.map fun (pt, m) =>
        let m := m.setEntry pd pdi
          (entry pt (mapPr ||| (if lazyFlags pde ≠ 0 then lazyFlags pde else mapRw ||| mapUs)))
        let m := m.fillWords pt (lazyFlags pde)
        m.setEntry pt pti (entry phys (pageFlags flags))

/-- `vmmc_map_user_page`. -/
def vmmcMapUserPage (m : Mem) (pd virt phys : Nat) (flags : BitVec 32) : Option Mem :=
  vmmcMapUserPageUnlocked m pd virt phys flags

/-- The entry of a page that is mapped on first use. -/
def lazyEntry (flags : BitVec 32) : BitVec 32 :=
  (if flags &&& (vmmUw ||| vmmPw) ≠ 0 then mapRw else 0) ||| mapUs

/-- The loop of `vmmc_lazy_map_area`; each round covers at least one of the `sz` pages left, so
`sz` rounds are enough. -/
def lazyMapLoop (pd : Nat) (flags : BitVec 32) : Nat → Nat → Nat → Nat → Mem → Option Mem
  | 0, _, _, _, m => some m
  | fuel + 1, pdi, pti, sz, m =>
      if sz = 0 then some m
      else if ¬ isPr (m.entry pd pdi) ∧ 1024 ≤ sz ∧ pti = 0 then
        lazyMapLoop pd flags fuel (pdi + 1) pti (sz - 1024) (m.setEntry pd pdi (lazyEntry flags))
      else if isPr (m.entry pd pdi) then
        let pt := frameOf (m.entry pd pdi)
        let n := min sz (1024 - pti)
        let m := (List.range' pti n).foldl
          (fun m i => if isPr (m.entry pt i) then m else m.setEntry pt i (lazyEntry flags)) m
        lazyMapLoop pd flags fuel (pdi + 1) 0 (sz - n) m
      else
        m.alloc.bind fun (pt, m) =>
          let m := m.setEntry pd pdi (Mmu.entry pt (mapPr ||| mapRw ||| mapUs))
          let n := min sz (1024 - pti)
          let m := (List.range' pti n).foldl (fun m i => m.setEntry pt i (lazyEntry flags)) m
          lazyMapLoop pd flags fuel (pdi + 1) 0 (sz - n) m

/-- `vmmc_lazy_map_area`; `sz` is a size in bytes. -/
def vmmcLazyMapArea (m : Mem) (pd virt sz : Nat) (flags : BitVec 32) : Option Mem :=
  let pages := if sz % pageSize ≠ 0 then sz / pageSize + 1 else sz / pageSize
  lazyMapLoop pd flags pages (pdIndex virt) (ptIndex virt) pages m

/-! ### Page faults -/

/-- `vmmc_do_cow`. -/
def vmmcDoCow (m : Mem) (pd address : Nat) : Option (Bool × Mem) :=
  let pdi := pdIndex address
  let pti := ptIndex address
  if ¬ isPr (m.entry pd pdi) then some (false, m)
  else
    let pt := frameOf (m.entry pd pdi)
    let e := m.entry pt pti
    if ¬ isPr e ∨ isRw e then some (false, m)
    else
      (pmmIsCow m.pmm (frameOf e)).bind fun isCow =>
        if ¬ isCow then some (false, m)
        else match pmmUserCount m.pmm (frameOf e) with
          | 0 => some (false, m)
          | 1 => ((m.setEntry pt pti (e ||| mapRw)).markCow (frameOf e) false).map fun m => (true, m)
          | _ =>
              m.alloc.bind fun (npf, m) =>
                let m := m.copyFrame npf (frameOf e)
                (m.free (frameOf (m.entry pt pti))).map fun m =>
                  (true, m.setEntry pt pti (entry npf (mapPr ||| mapRw ||| mapUs)))

/-- The page-table part of `vmmc_do_lazy_map`: the table of a directory entry, made on first use. -/
def lazyTable (m : Mem) (pd pdi : Nat) : Option (Nat × Mem) :=
  let pde := m.entry pd pdi
  if isPr pde then some (frameOf pde, m)
  else if pde &&& map4M ≠ 0 then none
  else
    m.alloc.map fun (pt, m) =>
      let m := m.setEntry pd pdi (entry pt ((pde &&& mapRw) ||| mapUs ||| mapPr))
      (pt, m.fillWords pt ((pde &&& mapRw) ||| mapUs))

/-- `vmmc_do_lazy_map`. -/
def vmmcDoLazyMap (m : Mem) (pd address : Nat) : Option (Bool × Mem) :=
  let pdi := pdIndex address
  let pti := ptIndex address
  if ¬ isUs (m.entry pd pdi) then some (false, m)
  else
    (lazyTable m pd pdi).bind fun (pt, m) =>
      let e := m.entry pt pti
      if isPr e ∨ ¬ isUs e then some (false, m)
      else
        m.alloc.map fun (phys, m) =>
          let m := m.setEntry pt pti (entry phys ((m.entry pt pti &&& mapRw) ||| mapUs ||| mapPr))
          -- the heritage area is shared between processes, so its first user gets zeros
          if userHeritageBase ≤ address ∧ address < userHeritageTop then
            (true, m.fillFrame phys 0)
          else (true, m)

/-- `handle_pagefault`, at the faulting address (`cr2`); the second error bit says whether the
access was a write. -/
def handlePagefault (m : Mem) (pd address : Nat) (write : Bool) : Option (Bool × Mem) :=
  if write then
    (vmmcDoCow m pd address).bind fun (done, m) =>
      if done then some (true, m) else vmmcDoLazyMap m pd address
  else vmmcDoLazyMap m pd address

/-! ### Teardown and clone -/

/-- The inner loop of `vmmc_clear_user`: the frames of one page table. -/
def clearTable (m : Mem) (pt : Nat) : Option Mem :=
  (List.range 1024).foldlM
    (fun m pti => if isPr (m.entry pt pti) then m.free (frameOf (m.entry pt pti)) else some m) m

/-- The directory entries of the mapping area. -/
def inMapArea (pdi : Nat) : Prop := userMapBase / 0x400000 ≤ pdi ∧ pdi < userMapTop / 0x400000

instance (pdi : Nat) : Decidable (inMapArea pdi) := by unfold inMapArea; infer_instance

/-- The directory entries of the heritage area. -/
def inHeritage (pdi : Nat) : Prop :=
  userHeritageBase / 0x400000 ≤ pdi ∧ pdi < userHeritageTop / 0x400000

instance (pdi : Nat) : Decidable (inHeritage pdi) := by unfold inHeritage; infer_instance

/-- One round of `vmmc_clear_user`. -/
def clearDirEntry (pd : Nat) (preserveHeritage : Bool) (m : Mem) (pdi : Nat) : Option Mem :=
  if preserveHeritage ∧ inHeritage pdi then some m
  else if ¬ isPr (m.entry pd pdi) then some (m.setEntry pd pdi mapNp)
  else
    -- the frames mapped in the mapping area were not allocated by the process
    (if ¬ inMapArea pdi then clearTable m (frameOf (m.entry pd pdi)) else some m).bind fun m =>
      (m.free (frameOf (m.entry pd pdi))).map fun m => m.setEntry pd pdi mapNp

/-- `vmmc_clear_user`. -/
def vmmcClearUser (m : Mem) (pd : Nat) (preserveHeritage : Bool) : Option Mem :=
  (List.range userPdes).foldlM (clearDirEntry pd preserveHeritage) m

/-- One round of the inner loop of `vmmc_clone`. -/
def cloneEntry (spt npt : Nat) (m : Mem) (pti : Nat) : Option Mem :=
  let e := m.entry spt pti
  if ¬ isPr e then some (m.setEntry npt pti e)
  else
    (m.use (frameOf e)).bind fun m =>
      (m.markCow (frameOf e) true).map fun m =>
        let m := m.setEntry spt pti (m.entry spt pti &&& ~~~mapRw)
        m.setEntry npt pti (entry (frameOf (m.entry spt pti)) (mapPr ||| mapUs))

/-- One round of the outer loop of `vmmc_clone`. -/
def cloneDirEntry (dest source : Nat) (m : Mem) (pdi : Nat) : Option Mem :=
  if ¬ isPr (m.entry source pdi) then some (m.setEntry dest pdi (m.entry source pdi))
  else
    m.alloc.bind fun (nppt, m) =>
      let m := m.setEntry dest pdi (entry nppt (mapPr ||| mapRw ||| mapUs))
      (List.range 1024).foldlM (cloneEntry (frameOf (m.entry source pdi)) nppt) m

/-- `vmmc_clone`, the page tables (`heap_end` is copied by the caller). -/
def vmmcClone (m : Mem) (dest source : Nat) : Option Mem :=
  (List.range userPdes).foldlM (cloneDirEntry dest source) m

/-! ### Contexts -/

/-- The kernel's own page directory, `kpd`; its user part is empty (`arch_init_virtual_memory` fills
it with `MAP_NP`, and nothing writes to it later). -/
structure KernelDirectory where
  bytes : Nat → BitVec 8
  user_empty : ∀ i, i < userPdes → isPr (Ram.wordAt bytes (4 * i)) = false

/-- A directory without any entries. -/
def KernelDirectory.empty : KernelDirectory where
  bytes _ := 0
  user_empty i _ := by simp [isPr, Ram.wordAt]

/-- `create_vmm_context_arch`. -/
def createVmmContextArch (kpd : KernelDirectory) (m : Mem) : Option (Nat × Mem) :=
  m.alloc.map fun (pd, m) => (pd, { m with ram := Function.update m.ram pd kpd.bytes })

/-- `destroy_vmm_context`. -/
def destroyVmmContext (m : Mem) (pd : Nat) : Option Mem :=
  (vmmcClearUser m pd false).bind fun m => m.free pd

/-! ### Unmapping and queries -/

/-- One round of `vmmc_user_unmap`, over the entries `ptiStart` to `ptiEnd`. -/
def unmapDirEntry (pd pdi ptiStart ptiEnd : Nat) (m : Mem) : Option Mem :=
  if ¬ isPr (m.entry pd pdi) then some m
  else
    let pt := frameOf (m.entry pd pdi)
    let m := (List.range' ptiStart (ptiEnd - ptiStart)).foldl (fun m pti => m.setEntry pt pti mapNp) m
    if ptiStart = 0 ∧ ptiEnd = 1024 then
      (m.free (frameOf (m.entry pd pdi))).map fun m => m.setEntry pd pdi mapNp
    else some m

/-- `vmmc_user_unmap`. -/
def vmmcUserUnmap (m : Mem) (pd virt length : Nat) : Option Mem :=
  let pdiStart := virt / 0x400000
  let pdiEnd := (virt + length + 0x3FFFFF) % 2 ^ 32 / 0x400000
  (List.range' pdiStart (pdiEnd - pdiStart)).foldlM
    (fun m pdi =>
      let ptiStart := if pdiStart < pdi then 0 else virt / 0x1000 % 0x400
      let ptiEnd :=
        if pdi < pdiEnd - 1 then 1024 else (virt + length + 0xFFF) % 2 ^ 32 / 0x1000 % 0x400
      unmapDirEntry pd pdi ptiStart ptiEnd m) m

/-- `vmmc_address_mapped`: the access flags and the frame, `0` flags if there is no page. -/
def vmmcAddressMapped (m : Mem) (pd virt : Nat) : BitVec 32 × Nat :=
  if ¬ isPr (m.entry pd (pdIndex virt)) then (0, 0)
  else
    let e := m.entry (frameOf (m.entry pd (pdIndex virt))) (ptIndex virt)
    if ¬ isPr e then (0, 0)
    else
      let flags := match isRw e, isUs e with
        | false, false => vmmPr ||| vmmPx
        | true,  false => vmmPr ||| vmmPw ||| vmmPx
        | false, true  => vmmPr ||| vmmPx ||| vmmUr ||| vmmUx
        | true,  true  => vmmPr ||| vmmPw ||| vmmPx ||| vmmUr ||| vmmUw ||| vmmUx
      (flags, frameOf e)

end Muxomucota.Mmu
