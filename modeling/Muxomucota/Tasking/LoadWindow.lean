import Muxomucota.Memory.Kmalloc
import Muxomucota.Mmu.Access
import Muxomucota.Tasking.Load

/-!
# Tasking — loading through the kernel window

`load_image_to_process` with the kernel's view of memory: every frame and every page table is mapped
with `kernel_map` before it is written, and unmapped afterwards.  Leaving the window out gives
`Load` back (`loadInWindow_mem`).

Between mapping a frame and unmapping it the loader cuts the length down to the part that is in the
file.  For a part of a page that begins at a page boundary and has no bytes in the file the length
is `0`, and `kernel_unmap` takes nothing back.
-/

namespace Muxomucota.Memory
open Mmu

/-- The frame behind a kernel address, in the direct map or in the window. -/
def KernelMem.kernelFrame (s : KernelMem) (virt : Nat) : Option Nat :=
  if physBase ≤ virt ∧ virt < hmemBase then some ((virt - physBase) / 4096) else s.frameAt virt

/-- `kernel_map(phys, length)`, something done to the frame at the address, and
`kernel_unmap(address, used)`. -/
def KernelMem.withPage (s : KernelMem) (phys length used : Nat) (use : Nat → Nat → Mem → Mem) :
    Option KernelMem :=
  (kernelMap s.kpt phys length).toOption.bind fun (virt, k) =>
    (KernelMem.mk s.mem k).kernelFrame virt |>.bind fun f =>
      (kernelUnmap k virt used).toOption.map fun (_, k) => ⟨use f (virt % 4096) s.mem, k⟩

/-- `vmmc_map_user_page`. -/
def KernelMem.mapUserPage (s : KernelMem) (pd virt phys : Nat) (flags : BitVec 32) :
    Option KernelMem :=
  if isKernel virt then some s
  else if isPr (s.mem.entry pd (pdIndex virt)) then
    s.withPage (frameOf (s.mem.entry pd (pdIndex virt)) * 4096) 4096 4096 fun pt _ m =>
      m.setEntry pt (ptIndex virt) (entry phys (pageFlags flags))
  else
    s.mem.alloc.bind fun (pt, m) =>
      let pde := s.mem.entry pd (pdIndex virt)
      let m := m.setEntry pd (pdIndex virt)
        (entry pt (mapPr ||| (if lazyFlags pde ≠ 0 then lazyFlags pde else mapRw ||| mapUs)))
      (KernelMem.mk m s.kpt).withPage (pt * 4096) 4096 4096 fun pt _ m =>
        (m.fillWords pt (lazyFlags pde)).setEntry pt (ptIndex virt) (entry phys (pageFlags flags))

end Muxomucota.Memory

namespace Muxomucota.Tasking
open Mmu Memory Lib

/-! ### The loader -/

/-- The part of a segment that lies in one page: the address of the page, the offset in it, the
length, how much of it is in the file, and where. -/
structure LoadBlock where
  base : Nat
  ofs : Nat
  length : Nat
  copied : Nat
  source : Nat

/-- The rounds of the loop over a segment; the first argument is at least the number of bytes that
are left. -/
def blocksFrom : Nat → Nat → Nat → Nat → Nat → Nat → List LoadBlock
  | 0, _, _, _, _, _ => []
  | n + 1, base, blockOfs, remMsz, remFsz, source =>
      if remMsz = 0 then []
      else
        let blockLength := min (4096 - blockOfs) remMsz
        let copied := min blockLength remFsz
        ⟨base, blockOfs, blockLength, copied, source⟩ ::
          blocksFrom n ((base + 4096) % 2 ^ 32) 0 (remMsz - blockLength) (remFsz - copied)
            (source + copied)

/-- The blocks of a segment. -/
def ProgramHeader.blocks (p : ProgramHeader) : List LoadBlock :=
  blocksFrom p.pMemsz (p.pVaddr / 4096 * 4096) (p.pVaddr % 4096) p.pMemsz (min p.pFilesz p.pMemsz)
    p.pOffset

/-- What is loaded, block by block. -/
def Image.blocks (image : Image) : List LoadBlock := image.segments.flatMap ProgramHeader.blocks

/-- The bytes of a block. -/
def LoadBlock.bytes (image : Image) (b : LoadBlock) : List (BitVec 8) :=
  (List.range b.length).map fun i => if i < b.copied then image (b.source + i) else 0

/-- One round: the frame is mapped for the block, and unmapped for the part that was copied. -/
def loadBlock (image : Image) (pd : Nat) (s : KernelMem) (b : LoadBlock) : Option KernelMem :=
  s.mem.alloc.bind fun (ppf, m) =>
    ((KernelMem.mk m s.kpt).withPage (ppf * 4096 + b.ofs) b.length b.copied fun f o m =>
      m.copyIn f o (b.bytes image)).bind fun s =>
        s.mapUserPage pd b.base ppf (vmmUr ||| vmmUw ||| vmmUx)

/-- `load_image_to_process`. -/
def loadInWindow (image : Image) (pd : Nat) (s : KernelMem) :
    Option (Option (Nat × Nat) × KernelMem) :=
  if ¬ image.checkProcessFileImage then some (none, s)
  else (image.blocks.foldlM (loadBlock image pd) s).map fun s => (some (image.top, image.eEntry), s)

/-! ### Mapping a page and unmapping it -/

variable {s s' : KernelMem} {image : Image} {pd phys length used virt ppf : Nat} {b : LoadBlock}
  {use : Nat → Nat → Mem → Mem} {flags : BitVec 32}

/-- The entries of the window that are in use. -/
def inUse (s : KernelMem) : Set Nat := {v | InUse s.kpt v}

theorem frameOf_kernelEntries (h : phys < 2 ^ 32) : frameOf (kernelEntries phys 0) = phys / 4096 := by
  have hent : kernelEntries phys 0 = entry (phys / 4096) kernelFlags := by
    rw [kernelEntries, entry, Nat.zero_mul, Nat.add_zero]
    refine congrArg (· ||| kernelFlags) (BitVec.eq_of_toNat_eq ?_)
    rw [BitVec.toNat_shiftLeft, BitVec.toNat_ofNat, BitVec.toNat_ofNat, Nat.shiftLeft_eq]
    omega
  rw [hent, frameOf_entry (by omega) isFlags_kernelFlags]

theorem or_physBase (h : phys < 2 ^ 22) : phys ||| physBase = physBase + phys := by
  rw [Nat.or_comm, show physBase = 2 ^ 22 * 960 by decide]
  exact (Nat.two_pow_add_eq_or_of_lt h 960).symm

theorem toOption_some {ε α : Type*} {e : Except ε α} {a : α} (h : e.toOption = some a) :
    e = .ok a := by
  cases e with
  | error x => cases h
  | ok b => exact congrArg _ (Option.some.inj h)

/-- A range in one page that can be accessed after `kernel_map`: it lies in the direct map, or an
entry of the window was set for it. -/
theorem kernelMap_page {f : Nat} {k : Kpt} (hlt : phys < 2 ^ 32) (hpos : 0 < length)
    (hpage : phys % 4096 + length ≤ 4096) (hmap : kernelMap s.kpt phys length = .ok (virt, k))
    (hf : (KernelMem.mk s.mem k).kernelFrame virt = some f) :
    f = phys / 4096 ∧ virt % 4096 = phys % 4096 ∧
      (phys + length ≤ hmemBase - physBase ∧ virt < hmemBase ∧ k = s.kpt ∨
        hmemBase - physBase < phys + length ∧ ∃ a < kptEntries, s.kpt a = mapNp ∧
          virt = hmemBase + a * 4096 + phys % 4096 ∧ k = s.kpt.fill a 1 (kernelEntries phys)) := by
  have hdirect : hmemBase - physBase = 0x400000 := by decide
  have hn : kptEntries = 63488 := by decide
  by_cases hin : (phys + length) % 2 ^ 32 ≤ hmemBase - physBase
  · rw [kernelMap, if_pos hin] at hmap
    cases hmap
    by_cases hwrap : phys + length < 2 ^ 32
    · rw [or_physBase (by omega)] at hf ⊢
      rw [KernelMem.kernelFrame, if_pos ⟨by omega, by unfold physBase hmemBase; omega⟩] at hf
      cases hf
      refine ⟨by omega, by unfold physBase; omega, .inl ⟨by omega, ?_, rfl⟩⟩
      unfold physBase hmemBase
      omega
    · -- the last page below 4 GiB is not in the direct map
      have hle : phys ≤ phys ||| physBase := Nat.left_le_or
      rw [KernelMem.kernelFrame, if_neg (by unfold hmemBase; omega), KernelMem.frameAt,
        if_neg (by unfold unmpBase; omega)] at hf
      cases hf
  · rw [kernelMap, if_neg hin] at hmap
    have hone : kernelPages phys length = 1 := by
      rw [kernelPages_eq (by omega)]
      omega
    have hscan := Kpt.scan_spec s.kpt 1 (kernelEntries phys) (Nat.zero_le kptEntries)
    rw [hone] at hmap
    cases hr : s.kpt.scan 1 (kernelEntries phys) 0 with
    | error x =>
        rw [hr] at hmap
        cases hmap
    | ok r =>
        rw [hr] at hmap hscan
        cases hscan with
        | found a ha hfit =>
            cases hmap
            have hfree : s.kpt a = mapNp := not_not.mp (ha.gap a le_rfl (by omega))
            have hidx : (hmemBase + a * 4096 + phys % 4096 - hmemBase) / 4096 = a := by omega
            have hset : s.kpt.fill a 1 (kernelEntries phys) a = kernelEntries phys 0 := by
              rw [Kpt.fill, if_pos ⟨le_rfl, by omega⟩, Nat.sub_self]
            dsimp only [Option.elim_some] at hf ⊢
            rw [KernelMem.kernelFrame, if_neg (by omega), KernelMem.frameAt] at hf
            have hfr := (Option.ite_none_right_eq_some.mp hf).2
            dsimp only at hfr
            rw [hidx, hset, frameOf_kernelEntries hlt] at hfr
            refine ⟨(Option.some.inj hfr).symm, by unfold hmemBase; omega,
              .inr ⟨by omega, a, by omega, hfree, rfl, rfl⟩⟩
        | full hno hlast =>
            cases hmap
            dsimp only [Option.elim_none] at hf
            rw [KernelMem.kernelFrame, if_neg (by unfold physBase; omega), KernelMem.frameAt,
              if_neg (by unfold hmemBase; omega)] at hf
            cases hf

/-- A page that is written through the window: what was done to it was done to its frame, and
unmapping takes its entry back unless it is told that there are no bytes. -/
theorem withPage_spec (hlt : phys < 2 ^ 32) (hpos : 0 < length) (hpage : phys % 4096 + length ≤ 4096)
    (hused : used ≤ length) (h : s.withPage phys length used use = some s') :
    s'.mem = use (phys / 4096) (phys % 4096) s.mem ∧ inUse s ≤ inUse s' ∧
      (inUse s' = inUse s ↔
        (phys % 4096 = 0 → used = 0 → phys + length ≤ hmemBase - physBase)) := by
  obtain ⟨⟨virt, k⟩, hmap, h⟩ := Option.bind_eq_some_iff.mp h
  obtain ⟨f, hf, h⟩ := Option.bind_eq_some_iff.mp h
  obtain ⟨⟨x, k'⟩, hunmap, rfl⟩ := Option.map_eq_some_iff.mp h
  have hunmap := toOption_some hunmap
  obtain ⟨rfl, hofs, hcase⟩ := kernelMap_page hlt hpos hpage (toOption_some hmap) hf
  refine ⟨by rw [hofs], ?_⟩
  rcases hcase with ⟨hdir, hlow, rfl⟩ | ⟨hdir, a, ha, hfree, rfl, rfl⟩
  · rw [kernelUnmap, if_pos hlow] at hunmap
    cases hunmap
    exact ⟨le_rfl, iff_of_true rfl fun _ _ => hdir⟩
  · have hidx : (hmemBase + a * 4096 + phys % 4096 - hmemBase) / 4096 = a := by omega
    have hmod : (hmemBase + a * 4096 + phys % 4096) % 4096 = phys % 4096 := hofs
    have hcount : kernelPages (hmemBase + a * 4096 + phys % 4096) used =
        (used + phys % 4096 + 4095) / 4096 := by
      rw [kernelPages_eq (by rw [hmod]; omega), hmod]
    rw [kernelUnmap_eq (by omega) (by rwa [hidx]) (by rw [hidx, hcount]; omega), hidx,
      hcount] at hunmap
    cases hunmap
    by_cases hnone : phys % 4096 = 0 ∧ used = 0
    · -- nothing is unmapped
      have hzero : (used + phys % 4096 + 4095) / 4096 = 0 := by omega
      have hkpt : (s.kpt.fill a 1 (kernelEntries phys)).fill a ((used + phys % 4096 + 4095) / 4096)
          (fun _ => mapNp) = s.kpt.fill a 1 (kernelEntries phys) := by
        rw [hzero]
        funext v
        rw [Kpt.fill, if_neg (by omega)]
      have hin : ∀ v, InUse s.kpt v → InUse (s.kpt.fill a 1 (kernelEntries phys)) v := by
        intro v hv
        unfold InUse Kpt.fill
        split
        · rename_i hva
          obtain rfl : v = a := by omega
          exact absurd hfree hv
        · exact hv
      rw [inUse, inUse]
      dsimp only
      rw [hkpt]
      refine ⟨hin, iff_of_false (fun heq => ?_) fun hok => ?_⟩
      · have hset : InUse (s.kpt.fill a 1 (kernelEntries phys)) a := by
          rw [InUse, Kpt.fill, if_pos ⟨le_rfl, by omega⟩, Nat.sub_self]
          exact kernelEntries_ne phys 0
        have hold : a ∈ {v | InUse s.kpt v} := heq ▸ (show a ∈ {v | InUse _ v} from hset)
        exact hold hfree
      · have := hok hnone.1 hnone.2
        omega
    · have hone : (used + phys % 4096 + 4095) / 4096 = 1 := by omega
      have hkpt : (s.kpt.fill a 1 (kernelEntries phys)).fill a ((used + phys % 4096 + 4095) / 4096)
          (fun _ => mapNp) = s.kpt := by
        rw [hone]
        exact Kpt.fill_undone fun j hj => by rwa [show a + j = a by omega]
      rw [inUse, inUse]
      dsimp only
      rw [hkpt]
      exact ⟨le_rfl, iff_of_true rfl fun hz hu => absurd ⟨hz, hu⟩ hnone⟩

/-- `vmmc_map_user_page` takes its own entry of the window back. -/
theorem mapUserPage_window (hsmall : s.mem.pmm.memBase + s.mem.pmm.memEntries ≤ 2 ^ 20)
    (h : s.mapUserPage pd virt ppf flags = some s') :
    vmmcMapUserPage s.mem pd virt ppf flags = some s'.mem ∧ inUse s' = inUse s := by
  unfold KernelMem.mapUserPage at h
  unfold vmmcMapUserPage vmmcMapUserPageUnlocked
  split at h
  · rename_i hk
    cases h
    exact ⟨if_pos hk, rfl⟩
  · rename_i hk
    rw [if_neg hk]
    split at h
    · rename_i hpr
      have hlt := frameOf_lt (s.mem.entry pd (pdIndex virt))
      obtain ⟨hmem, -, hiff⟩ := withPage_spec (by omega) (by decide) (by omega) le_rfl h
      rw [show frameOf (s.mem.entry pd (pdIndex virt)) * 4096 / 4096 =
        frameOf (s.mem.entry pd (pdIndex virt)) by omega] at hmem
      refine ⟨?_, hiff.mpr fun _ hu => absurd hu (by decide)⟩
      dsimp only
      rw [if_pos hpr, hmem]
    · rename_i hpr
      obtain ⟨⟨pt, m⟩, ha, h⟩ := Option.bind_eq_some_iff.mp h
      have hlt : pt < 2 ^ 20 := by
        have htr := (alloc_spec ha).2.2.1
        unfold Pmm.Tracked at htr
        omega
      obtain ⟨hmem, -, hiff⟩ := withPage_spec (by omega) (by decide) (by omega) le_rfl h
      rw [show pt * 4096 / 4096 = pt by omega] at hmem
      refine ⟨?_, hiff.mpr fun _ hu => absurd hu (by decide)⟩
      dsimp only
      rw [if_neg hpr, ha, Option.map_some, hmem]

/-! ### One block -/

/-- A block lies in its page, and what is copied in the block. -/
structure LoadBlock.Fits (b : LoadBlock) : Prop where
  pos : 0 < b.length
  page : b.ofs + b.length ≤ 4096
  copied : b.copied ≤ b.length

theorem blocksFrom_fits {n base ofs remMsz remFsz source : Nat} (hofs : ofs < 4096) :
    ∀ b ∈ blocksFrom n base ofs remMsz remFsz source, b.Fits := by
  induction n generalizing base ofs remMsz remFsz source with
  | zero => exact fun b hb => absurd hb (List.not_mem_nil)
  | succ n ih =>
      intro b hb
      rw [blocksFrom] at hb
      split at hb
      · exact absurd hb (List.not_mem_nil)
      · rcases List.mem_cons.mp hb with rfl | hb
        · exact ⟨by dsimp only; omega, by dsimp only; omega, by dsimp only; omega⟩
        · exact ih (by decide) b hb

theorem Image.blocks_fit (image : Image) : ∀ b ∈ image.blocks, b.Fits := by
  intro b hb
  obtain ⟨p, -, hb⟩ := List.mem_flatMap.mp hb
  exact blocksFrom_fits (Nat.mod_lt _ (by decide)) b hb

/-- The frame that `pmm_alloc` finds next. -/
def nextFrame (p : Pmm) : Option Nat := p.firstFree.map (p.memBase + ·)

theorem alloc_nextFrame {m m' : Mem} (h : m.alloc = some (ppf, m')) :
    nextFrame m.pmm = some ppf := by
  obtain ⟨⟨f, q⟩, hq, heq⟩ := Option.map_eq_some_iff.mp h
  cases heq
  unfold pmmAlloc at hq
  cases hi : m.pmm.firstFree with
  | none =>
      rw [hi] at hq
      cases hq
  | some i =>
      rw [hi] at hq
      cases hq
      rw [nextFrame, hi]
      rfl

/-- A block that begins a page and has no bytes in the file finds a frame in the direct map. -/
def KeepsWindow (s : KernelMem) (b : LoadBlock) : Prop :=
  b.ofs = 0 → b.copied = 0 → ∀ ppf, nextFrame s.mem.pmm = some ppf →
    ppf * 4096 + b.length ≤ hmemBase - physBase

/-- An entry can name every frame. -/
def Small (s : KernelMem) : Prop := s.mem.pmm.memBase + s.mem.pmm.memEntries ≤ 2 ^ 20

theorem Small.of_same (h : Small s) (hs : SameFrames s.mem.pmm s'.mem.pmm) : Small s' := by
  rw [Small, hs.1, hs.2]
  exact h

theorem mapUserPage_same {m m' : Mem} (h : vmmcMapUserPage m pd virt ppf flags = some m') :
    SameFrames m.pmm m'.pmm := by
  unfold vmmcMapUserPage vmmcMapUserPageUnlocked at h
  split at h
  · cases h
    exact .refl _
  · dsimp only at h
    split at h
    · cases h
      exact .refl _
    · obtain ⟨⟨pt, m₁⟩, ha, rfl⟩ := Option.map_eq_some_iff.mp h
      exact (alloc_spec ha).2.1

/-- One round does what the loader without the window does, and leaves the window as it was unless
the block is such a one. -/
theorem loadBlock_spec (hsmall : Small s) (hb : b.Fits) (h : loadBlock image pd s b = some s') :
    loadImagePage s.mem pd b.base b.ofs (b.bytes image) = some s'.mem ∧
      Small s' ∧ inUse s ≤ inUse s' ∧ (inUse s' = inUse s ↔ KeepsWindow s b) := by
  obtain ⟨⟨ppf, m⟩, ha, h⟩ := Option.bind_eq_some_iff.mp h
  obtain ⟨s₁, hs₁, h⟩ := Option.bind_eq_some_iff.mp h
  obtain ⟨hram, hsame, htr, -⟩ := alloc_spec ha
  have hpos := hb.pos
  have hpage := hb.page
  have hlt : ppf < 2 ^ 20 := by
    unfold Small at hsmall
    unfold Pmm.Tracked at htr
    omega
  obtain ⟨hmem, hle, hiff⟩ := withPage_spec (by omega) hpos (by omega) hb.copied hs₁
  rw [show (ppf * 4096 + b.ofs) / 4096 = ppf by omega,
    show (ppf * 4096 + b.ofs) % 4096 = b.ofs by omega] at hmem
  have hsmall₁ : Small s₁ := by
    rw [Small, hmem]
    show m.pmm.memBase + m.pmm.memEntries ≤ 2 ^ 20
    rw [hsame.1, hsame.2]
    exact hsmall
  obtain ⟨hmap, hwin⟩ := mapUserPage_window hsmall₁ h
  have hmap' := hmap
  rw [hmem] at hmap
  refine ⟨by rw [loadImagePage, ha]; exact hmap, hsmall₁.of_same (mapUserPage_same hmap'), ?_, ?_⟩
  · rw [hwin]
    exact hle
  · rw [hwin]
    refine hiff.trans ?_
    rw [KeepsWindow, alloc_nextFrame ha]
    constructor
    · intro hk hofs hcopied x hx
      cases hx
      have hin := hk (by omega) hcopied
      rwa [hofs, Nat.add_zero] at hin
    · intro hk hofs hcopied
      have hzero : b.ofs = 0 := by omega
      rw [hzero, Nat.add_zero]
      exact hk hzero hcopied ppf rfl

/-! ### The whole image -/

/-- One round without the window. -/
def plainBlock (image : Image) (pd : Nat) (m : Mem) (b : LoadBlock) : Option Mem :=
  loadImagePage m pd b.base b.ofs (b.bytes image)

theorem loadPages_blocks (image : Image) (pd n base ofs remMsz remFsz source : Nat) (m : Mem) :
    loadPages image pd n base ofs remMsz remFsz source m =
      (blocksFrom n base ofs remMsz remFsz source).foldlM (plainBlock image pd) m := by
  induction n generalizing base ofs remMsz remFsz source m with
  | zero => rfl
  | succ n ih =>
      rw [loadPages, blocksFrom]
      split
      · rfl
      · rw [List.foldlM_cons, plainBlock, LoadBlock.bytes]
        dsimp only
        cases loadImagePage m pd base ofs _ with
        | none => rfl
        | some m₁ => exact ih _ _ _ _ _ m₁

theorem loadSegments_blocks (image : Image) (pd : Nat) (ps : List ProgramHeader) (e : Nat) (m : Mem) :
    ps.foldlM (loadSegment image pd) (e, m) =
      (((ps.filter (·.pType = 1)).flatMap ProgramHeader.blocks).foldlM (plainBlock image pd) m).map
        fun m => (((ps.filter (·.pType = 1)).map ProgramHeader.stop).foldl max e, m) := by
  induction ps generalizing e m with
  | nil => rfl
  | cons p ps ih =>
      rw [List.foldlM_cons, loadSegment]
      by_cases hp : p.pType = 1
      · rw [if_neg (not_not.mpr hp), loadPages_blocks, List.filter_cons_of_pos (by simpa using hp),
          List.flatMap_cons, List.foldlM_append, List.map_cons, List.foldl_cons]
        rw [← ProgramHeader.blocks]
        dsimp only
        have hmax : (if e < p.stop then p.stop else e) = max e p.stop := by
          split <;> omega
        rw [hmax]
        cases p.blocks.foldlM (plainBlock image pd) m with
        | none => rfl
        | some m₁ => exact ih _ m₁
      · rw [if_pos hp, List.filter_cons_of_neg (by simpa using hp)]
        exact ih e m

/-- The loader without the window, block by block. -/
theorem loadImageToProcess_blocks (image : Image) (pd : Nat) (m : Mem)
    (hcheck : image.checkProcessFileImage) :
    loadImageToProcess image pd m = (image.blocks.foldlM (plainBlock image pd) m).map
      fun m => (some (image.top, image.eEntry), m) := by
  rw [loadImageToProcess, if_neg (not_not.mpr hcheck), loadSegments_blocks, Option.map_map]
  rfl

theorem blocks_mem {bs : List LoadBlock} (hsmall : Small s) (hbs : ∀ b ∈ bs, b.Fits)
    (h : bs.foldlM (loadBlock image pd) s = some s') :
    bs.foldlM (plainBlock image pd) s.mem = some s'.mem := by
  induction bs generalizing s with
  | nil =>
      cases h
      rfl
  | cons b bs ih =>
      rw [List.foldlM_cons] at h
      obtain ⟨s₁, hs₁, h⟩ := Option.bind_eq_some_iff.mp h
      obtain ⟨hmem, hsmall₁, -⟩ := loadBlock_spec hsmall (hbs b (List.mem_cons_self ..)) hs₁
      rw [List.foldlM_cons, plainBlock, hmem]
      exact ih hsmall₁ (fun c hc => hbs c (List.mem_cons_of_mem b hc)) h

/-- What the loader does to memory through the window is what it does without it. -/
theorem loadInWindow_mem {r : Option (Nat × Nat)} (hsmall : Small s)
    (h : loadInWindow image pd s = some (r, s')) :
    loadImageToProcess image pd s.mem = some (r, s'.mem) := by
  unfold loadInWindow at h
  split at h
  · rename_i hcheck
    cases h
    exact if_pos hcheck
  · rename_i hcheck
    obtain ⟨s₁, hs₁, heq⟩ := Option.map_eq_some_iff.mp h
    cases heq
    rw [loadImageToProcess_blocks image pd s.mem (not_not.mp hcheck),
      blocks_mem hsmall image.blocks_fit hs₁]
    rfl

/-- **Kernel mapping balance in the loader**: the entries of the window that are in use are the same
as before if and only if every block that begins a page and has no bytes in the file found a frame
in the direct map. -/
theorem loader_balanced_iff {r : Nat × Nat} (hsmall : Small s)
    (h : loadInWindow image pd s = some (some r, s')) :
    inUse s' = inUse s ↔ Run (loadBlock image pd) KeepsWindow s image.blocks s' := by
  unfold loadInWindow at h
  split at h
  · cases h
  · obtain ⟨s₁, hs₁, heq⟩ := Option.map_eq_some_iff.mp h
    cases heq
    exact (foldlM_conserves_iff (fun b hb t t' ht hstep =>
      (loadBlock_spec ht (image.blocks_fit b hb) hstep).2) hs₁ hsmall).2

/-! ### A segment of one byte -/

/-- A page directory with a table for the first 4 MiB. -/
def highTables (f i : Nat) : BitVec 32 := if f = 5 ∧ i = 0 then entry 6 mapPr else 0

/-- Memory above the direct map, and an empty window. -/
def highMem : KernelMem := ⟨⟨⟨2048, 8, fun _ => 0, 0⟩, .ofWords highTables⟩, fun _ => mapNp⟩

/-- One segment of one byte at `0x1000`, with `filesz` bytes in the file. -/
def oneByteImage (filesz : BitVec 8) : Image := fun off =>
  [0x7f, 0x45, 0x4c, 0x46, 1, 1, 1, 0, 0, 0, 0, 0, 0, 0, 0, 0, 2, 0, 3, 0, 1, 0, 0, 0, 0, 0x10, 0, 0,
    52, 0, 0, 0, 0, 0, 0, 0, 0, 0, 0, 0, 52, 0, 32, 0, 1, 0, 0, 0, 0, 0, 0, 0,
    1, 0, 0, 0, 84, 0, 0, 0, 0, 0x10, 0, 0, 0, 0, 0, 0, filesz, 0, 0, 0, 1, 0, 0, 0,
    0, 0, 0, 0, 0, 0, 0, 0, 0x90].getD off 0

theorem withPage_eq {k k' : Kpt} {f x : Nat} (hmap : kernelMap s.kpt phys length = .ok (virt, k))
    (hf : (KernelMem.mk s.mem k).kernelFrame virt = some f)
    (hunmap : kernelUnmap k virt used = .ok (x, k')) :
    s.withPage phys length used use = some ⟨use f (virt % 4096) s.mem, k'⟩ := by
  unfold KernelMem.withPage
  rw [hmap, Except.toOption, Option.bind_some]
  dsimp only
  rw [hf, Option.bind_some, hunmap]
  rfl

/-- A page above the direct map is found in an empty window. -/
theorem withPage_empty (s : KernelMem) (phys length : Nat) (hempty : ∀ v, s.kpt v = mapNp)
    (hlt : phys + length < 2 ^ 32) (habove : hmemBase - physBase < phys + length)
    (hpos : 0 < length) (hpage : phys % 4096 + length ≤ 4096) (hused : used ≤ length)
    (use : Nat → Nat → Mem → Mem) :
    ∃ s', s.withPage phys length used use = some s' := by
  have hdirect : hmemBase - physBase = 0x400000 := by decide
  have hn : kptEntries = 63488 := by decide
  have hone : kernelPages phys length = 1 := by
    rw [kernelPages_eq (by omega)]
    omega
  have hscan := Kpt.scan_spec s.kpt 1 (kernelEntries phys) (Nat.zero_le kptEntries)
  have hrow : ¬ s.kpt.NoRow 0 2 := fun hno =>
    hno 0 le_rfl (by omega) fun v _ _ huse => huse (hempty v)
  obtain ⟨a, ha, hr⟩ : ∃ a, a + 1 < kptEntries ∧ s.kpt.scan 1 (kernelEntries phys) 0 =
      .ok (some a, s.kpt.fill a 1 (kernelEntries phys)) := by
    generalize s.kpt.scan 1 (kernelEntries phys) 0 = r at hscan
    cases hscan with
    | found a _ hfit => exact ⟨a, hfit, rfl⟩
    | full hno _ => exact absurd hno hrow
    | outside hno _ _ => exact absurd hno hrow
  have hidx : (hmemBase + a * 4096 + phys % 4096 - hmemBase) / 4096 = a := by omega
  have hmod : (hmemBase + a * 4096 + phys % 4096) % 4096 = phys % 4096 := by
    unfold hmemBase
    omega
  have hcount : kernelPages (hmemBase + a * 4096 + phys % 4096) used ≤ 1 := by
    rw [kernelPages_eq (by rw [hmod]; omega), hmod]
    omega
  have hpr : isPr (s.kpt.fill a 1 (kernelEntries phys) a) = true := by
    rw [Kpt.fill, if_pos ⟨le_rfl, by omega⟩, kernelEntries, isPr_or,
      show isPr kernelFlags = true from rfl, Bool.or_true]
  have hmap : kernelMap s.kpt phys length = .ok (hmemBase + a * 4096 + phys % 4096,
      s.kpt.fill a 1 (kernelEntries phys)) := by
    rw [kernelMap, if_neg (by omega), hone, hr]
    rfl
  have hf : (KernelMem.mk s.mem (s.kpt.fill a 1 (kernelEntries phys))).kernelFrame
      (hmemBase + a * 4096 + phys % 4096) =
        some (frameOf (s.kpt.fill a 1 (kernelEntries phys) a)) := by
    rw [KernelMem.kernelFrame, if_neg (by omega), KernelMem.frameAt]
    dsimp only
    rw [hidx, if_pos ⟨by omega, by unfold hmemBase unmpBase; omega, hpr⟩]
  exact ⟨_, withPage_eq hmap hf (kernelUnmap_eq (by omega) (by omega) (by omega))⟩

/-- A page table in the direct map is written without the window. -/
theorem mapUserPage_direct (s : KernelMem) (pd virt f : Nat) (flags : BitVec 32) (hk : ¬ isKernel virt)
    (hpr : isPr (s.mem.entry pd (pdIndex virt)) = true)
    (hf : frameOf (s.mem.entry pd (pdIndex virt)) = 6) :
    ∃ s', s.mapUserPage pd virt f flags = some s' := by
  have hmap : kernelMap s.kpt (6 * 4096) 4096 = .ok (6 * 4096 ||| physBase, s.kpt) :=
    if_pos (by decide)
  have hunmap : kernelUnmap s.kpt (6 * 4096 ||| physBase) 4096 =
      .ok (6 * 4096 ||| physBase, s.kpt) := if_pos (by decide)
  have hfr : (KernelMem.mk s.mem s.kpt).kernelFrame (6 * 4096 ||| physBase) = some 6 :=
    if_pos (by decide)
  unfold KernelMem.mapUserPage
  rw [if_neg hk, if_pos hpr, hf]
  exact ⟨_, withPage_eq hmap hfr hunmap⟩

/-- The only block. -/
def oneByte (filesz : BitVec 8) : LoadBlock := ⟨0x1000, 0, 1, filesz.toNat, 84⟩

theorem oneByte_blocks {filesz : BitVec 8} (h : filesz = 0 ∨ filesz = 1) :
    (oneByteImage filesz).blocks = [oneByte filesz] := by
  rcases h with rfl | rfl <;> rfl

theorem loadBlock_oneByte {filesz : BitVec 8} (h : filesz = 0 ∨ filesz = 1) :
    ∃ s', loadBlock (oneByteImage filesz) 5 highMem (oneByte filesz) = some s' := by
  have halloc : highMem.mem.alloc = some (2048,
    { highMem.mem with pmm := ⟨2048, 8, Function.update (fun _ => 0) 2048 1, 0⟩ }) := rfl
  have hused : filesz.toNat ≤ 1 := by
    rcases h with rfl | rfl <;> decide
  obtain ⟨s₁, hs₁⟩ := withPage_empty
    ⟨{ highMem.mem with pmm := ⟨2048, 8, Function.update (fun _ => 0) 2048 1, 0⟩ }, highMem.kpt⟩
    0x800000 1 (fun _ => rfl) (by decide) (by decide) (by decide) (by decide) hused
    (fun f o m => m.copyIn f o ((oneByte filesz).bytes (oneByteImage filesz)))
  obtain ⟨hmem, -⟩ := withPage_spec (by decide) (by decide) (by decide) hused hs₁
  have hpd : s₁.mem.entry 5 0 = entry 6 mapPr := by
    have hword : highMem.mem.entry 5 0 = entry 6 mapPr := Ram.entry_ofWords highTables 5 0
    rw [hmem, Mem.entry, Ram.word_congr (copyIn_ram _ _ _ (by decide)), ← hword]
    rfl
  have hidx : pdIndex 0x1000 = 0 := rfl
  obtain ⟨s₂, hs₂⟩ := mapUserPage_direct s₁ 5 0x1000 2048 (vmmUr ||| vmmUw ||| vmmUx) (by decide)
    (by rw [hidx, hpd]; decide) (by rw [hidx, hpd]; decide)
  refine ⟨s₂, ?_⟩
  rw [loadBlock, halloc, Option.bind_some]
  exact (congrArg (Option.bind · _) hs₁).trans hs₂

theorem loadInWindow_oneByte {filesz : BitVec 8} (h : filesz = 0 ∨ filesz = 1) :
    ∃ r s', loadInWindow (oneByteImage filesz) 5 highMem = some (some r, s') ∧
      loadBlock (oneByteImage filesz) 5 highMem (oneByte filesz) = some s' := by
  have hcheck : (oneByteImage filesz).checkProcessFileImage = true := by
    rcases h with rfl | rfl <;> decide
  obtain ⟨s', hs'⟩ := loadBlock_oneByte h
  refine ⟨((oneByteImage filesz).top, (oneByteImage filesz).eEntry), s', ?_, hs'⟩
  rw [loadInWindow, if_neg (not_not.mpr hcheck), oneByte_blocks h, List.foldlM_cons, hs']
  rfl

/-- A byte from the file leaves the window as it was. -/
theorem loader_balanced_byte : ∃ r s', loadInWindow (oneByteImage 1) 5 highMem = some (some r, s') ∧
    inUse s' = inUse highMem := by
  obtain ⟨r, s', h, hstep⟩ := loadInWindow_oneByte (.inr rfl)
  have hsmall : Small highMem := by unfold Small; decide
  refine ⟨r, s', h, (loader_balanced_iff hsmall h).mpr ?_⟩
  rw [oneByte_blocks (.inr rfl)]
  exact .one (fun _ hcopied => absurd hcopied (by decide)) hstep

/-- A byte of zeroes above the direct map keeps its entry. -/
theorem zero_byte_leaks : ∃ r s', loadInWindow (oneByteImage 0) 5 highMem = some (some r, s') ∧
    inUse s' ≠ inUse highMem := by
  obtain ⟨r, s', h, hstep⟩ := loadInWindow_oneByte (.inl rfl)
  have hsmall : Small highMem := by unfold Small; decide
  have hfits : (oneByte 0).Fits := ⟨by decide, by decide, by decide⟩
  refine ⟨r, s', h, fun heq => ?_⟩
  have hkeeps := (loadBlock_spec hsmall hfits hstep).2.2.2.mp heq
  exact absurd (hkeeps rfl rfl 2048 rfl) (by decide)

end Muxomucota.Tasking
