import Muxomucota.Lib.Runs
import Muxomucota.Mmu.Kernel

/-!
# Tasking — loading an image

`load_image_to_process` of `kernel/common/tasking/load.c`.  The image is what lies in memory from
`address` on.  Every segment is copied page by page, and the heap begins at the highest end of a segment.
-/

namespace Muxomucota.Tasking
open Mmu Lib

/-- The bytes from `address` on. -/
abbrev Image := Nat → BitVec 8

/-- `Elf32_Phdr`. -/
structure ProgramHeader where
  pType : Nat
  pOffset : Nat
  pVaddr : Nat
  pFilesz : Nat
  pMemsz : Nat
  deriving DecidableEq

/-- The end of a segment. -/
def ProgramHeader.stop (p : ProgramHeader) : Nat := (p.pVaddr + p.pMemsz) % 2 ^ 32

namespace Image

def half (image : Image) (off : Nat) : Nat := (image (off + 1) ++ image off : BitVec 16).toNat

def word (image : Image) (off : Nat) : Nat := (Ram.wordAt image off).toNat

def ePhoff (image : Image) : Nat := image.word 28
def ePhnum (image : Image) : Nat := image.half 44
def eEntry (image : Image) : Nat := image.word 24

/-- `phdr[i]`. -/
def phdr (image : Image) (i : Nat) : ProgramHeader :=
  let at' := (image.ePhoff + 32 * i) % 2 ^ 32
  { pType := image.word at', pOffset := image.word (at' + 4), pVaddr := image.word (at' + 8),
    pFilesz := image.word (at' + 16), pMemsz := image.word (at' + 20) }

/-- `check_process_file_image`: a 32-bit ELF executable for the i386. -/
def checkProcessFileImage (image : Image) : Bool :=
  image 0 = 0x7f ∧ image 1 = 0x45 ∧ image 2 = 0x4c ∧ image 3 = 0x46 ∧ image 4 = 1 ∧ image 6 = 1 ∧
    image 5 = 1 ∧ image.half 16 = 2 ∧ image.half 18 = 3

/-- The segments that are loaded. -/
def segments (image : Image) : List ProgramHeader :=
  ((List.range image.ePhnum).map image.phdr).filter (·.pType = 1)

/-- The highest end of a segment. -/
def top (image : Image) : Nat := (image.segments.map ProgramHeader.stop).foldl max 0

theorem top_lt (image : Image) : image.top < 2 ^ 32 := by
  unfold top
  suffices ∀ (l : List Nat) (n : Nat), n < 2 ^ 32 → (∀ x ∈ l, x < 2 ^ 32) → l.foldl max n < 2 ^ 32 by
    refine this _ _ (by decide) fun x hx => ?_
    obtain ⟨p, -, rfl⟩ := List.mem_map.mp hx
    exact Nat.mod_lt _ (by decide)
  intro l
  induction l with
  | nil => exact fun n hn _ => hn
  | cons x l ih =>
      intro n hn hl
      exact ih _ (max_lt hn (hl x List.mem_cons_self)) fun y hy => hl y (List.mem_cons_of_mem _ hy)

end Image

/-- The pages of a segment; the first argument is at least the number of bytes that are left. -/
def loadPages (image : Image) (pd : Nat) : Nat → Nat → Nat → Nat → Nat → Nat → Mem → Option Mem
  | 0, _, _, _, _, _, m => some m
  | n + 1, base, blockOfs, remMsz, remFsz, source, m =>
      if remMsz = 0 then some m
      else
        let blockLength := min (4096 - blockOfs) remMsz
        let copied := min blockLength remFsz
        let bytes := (List.range blockLength).map fun i => if i < copied then image (source + i) else 0
        (loadImagePage m pd base blockOfs bytes).bind fun m =>
          loadPages image pd n ((base + 4096) % 2 ^ 32) 0 (remMsz - blockLength) (remFsz - copied)
            (source + copied) m

/-- One program header: the end of the image so far, and the memory. -/
def loadSegment (image : Image) (pd : Nat) (r : Nat × Mem) (p : ProgramHeader) : Option (Nat × Mem) :=
  if p.pType ≠ 1 then some r
  else
    let imageEnd := if r.1 < p.stop then p.stop else r.1
    (loadPages image pd p.pMemsz (p.pVaddr / 4096 * 4096) (p.pVaddr % 4096) p.pMemsz
      (min p.pFilesz p.pMemsz) p.pOffset r.2).map fun m => (imageEnd, m)

/-- `load_image_to_process`: the start of the heap and the entry point, if the image is accepted. -/
def loadImageToProcess (image : Image) (pd : Nat) (m : Mem) : Option (Option (Nat × Nat) × Mem) :=
  if ¬ image.checkProcessFileImage then some (none, m)
  else
    (((List.range image.ePhnum).map image.phdr).foldlM (loadSegment image pd) (0, m)).map fun r =>
      (some (r.1, image.eEntry), r.2)

/-- The heap starts at the highest end of a segment. -/
theorem loadImageToProcess_top {image : Image} {pd heapStart entry : Nat} {m m' : Mem}
    (h : loadImageToProcess image pd m = some (some (heapStart, entry), m')) :
    heapStart = image.top := by
  unfold loadImageToProcess at h
  split at h
  · cases h
  obtain ⟨⟨imageEnd, m₁⟩, hfold, heq⟩ := Option.map_eq_some_iff.mp h
  obtain ⟨rfl, -⟩ : imageEnd = heapStart ∧ m₁ = m' := by
    cases heq
    exact ⟨rfl, rfl⟩
  refine foldlM_rule (P := fun done r =>
    r.1 = ((done.filter (·.pType = 1)).map ProgramHeader.stop).foldl max 0) hfold rfl ?_
  rintro pre p post ⟨e, m₂⟩ r' - hP hstep
  dsimp only at hP
  unfold loadSegment at hstep
  by_cases hp : p.pType = 1
  · rw [if_neg (not_not.mpr hp)] at hstep
    obtain ⟨m₃, -, rfl⟩ := Option.map_eq_some_iff.mp hstep
    simp only [List.filter_append, List.filter_cons, hp, decide_true, if_true, List.filter_nil,
      List.map_append, List.map_cons, List.map_nil, List.foldl_append, List.foldl_cons, List.foldl_nil,
      ← hP]
    split <;> omega
  · rw [if_pos hp] at hstep
    cases hstep
    simp only [List.filter_append, List.filter_cons, hp, decide_false, Bool.false_eq_true, if_false,
      List.filter_nil, List.append_nil, ← hP]

end Muxomucota.Tasking
