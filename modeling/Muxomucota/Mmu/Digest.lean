import Muxomucota.Mmu.ShmReferences

/-!
# Mmu — digests

`_calculate_checksum` and `_check_integrity` of `digest.c` over any bytes.  What is sealed passes its
check, and no longer does when bits in four bytes of it change, whether of the data or of the digest.
-/

namespace Muxomucota.Mmu.Digest
open Lib

variable {buffer changed : List (BitVec 8)} {k : Nat}

/-- `_calculate_checksum`. -/
def calculateChecksum (buffer : List (BitVec 8)) : BitVec 32 := ShmReferences.crc32 buffer

/-- `_check_integrity`. -/
def checkIntegrity (buffer : List (BitVec 8)) : Bool := ShmReferences.crc32 buffer = 0x2144df1c

/-- The bytes with their digest. -/
def sealedBytes (buffer : List (BitVec 8)) : List (BitVec 8) :=
  buffer ++ Crc.bytes (calculateChecksum buffer)

theorem checkIntegrity_changed (h : Crc.Burst k (sealedBytes buffer) changed) :
    checkIntegrity changed = false := by
  have hlen : 4 ≤ (sealedBytes buffer).length := by
    rw [sealedBytes, List.length_append]
    exact Nat.le_add_left ..
  have hne := Crc.crc_burst (p := 0xedb88320) (by decide) h hlen
  refine decide_eq_false fun heq => hne ?_
  exact heq.trans (ShmReferences.crc32_residue buffer).symm

/-- **Seal and verify**: a digest passes its check, and its data or itself with some bits changed in four
bytes in a row does not. -/
theorem seal_and_verify (buffer : List (BitVec 8)) : checkIntegrity (sealedBytes buffer) = true ∧
    ∀ k changed, Crc.Burst k (sealedBytes buffer) changed → checkIntegrity changed = false :=
  ⟨decide_eq_true (ShmReferences.crc32_residue buffer), fun _ _ => checkIntegrity_changed⟩

end Muxomucota.Mmu.Digest
