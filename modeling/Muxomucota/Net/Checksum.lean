import Muxomucota.Net.Udp
import Mathlib.Algebra.Group.Nat.Defs

/-!
# Net — checksums

The one's-complement sum is a number modulo 65535 that is zero for nothing but zeros.  A sender writes
its complement into a header in which the field was zero, and a receiver finds the sum of everything.
-/

namespace Muxomucota.Net

/-! ### Byte order -/

theorem half_be16 (w : Half) : half (w.extractLsb' 8 8) (w.extractLsb' 0 8) = w := by
  unfold half
  ext i hi
  simp only [BitVec.getElem_append, BitVec.getElem_extractLsb']
  split
  · simp [BitVec.getLsbD_eq_getElem hi]
  · have : 8 + (i - 8) = i := by omega
    simp [this, BitVec.getLsbD_eq_getElem hi]

theorem word_be32 (w : Word) :
    word (w.extractLsb' 24 8) (w.extractLsb' 16 8) (w.extractLsb' 8 8) (w.extractLsb' 0 8) = w := by
  have h : ∀ b : Byte, b.toNat < 256 := fun b => b.isLt
  have := w.isLt
  refine BitVec.eq_of_toNat_eq ?_
  unfold word
  simp only [BitVec.toNat_append, BitVec.extractLsb'_toNat, Nat.shiftRight_eq_div_pow]
  rw [← Nat.shiftLeft_add_eq_or_of_lt (by omega), ← Nat.shiftLeft_add_eq_or_of_lt (by omega),
    ← Nat.shiftLeft_add_eq_or_of_lt (by omega)]
  simp only [Nat.shiftLeft_eq]
  omega

/-! ### The sum -/

theorem rawChecksumCalc_add (hiByte : Bool) (bs : List Byte) (sum d : Word) :
    rawChecksumCalc hiByte bs (sum + d) = rawChecksumCalc hiByte bs sum + d := by
  induction bs generalizing hiByte sum with
  | nil => rfl
  | cons b bs ih =>
      rw [rawChecksumCalc, rawChecksumCalc, BitVec.add_assoc, BitVec.add_comm d, ← BitVec.add_assoc, ih]

/-- A number in network order counts as itself. -/
theorem rawChecksumCalc_be16 (w : Half) (bs : List Byte) (sum : Word) :
    rawChecksumCalc true (be16 w ++ bs) sum = rawChecksumCalc true bs (sum + w.setWidth 32) := by
  have hw : (w.extractLsb' 8 8).setWidth 32 <<< 8 + (w.extractLsb' 0 8).setWidth 32 =
      w.setWidth 32 := by
    have := w.isLt
    refine BitVec.eq_of_toNat_eq ?_
    simp only [BitVec.toNat_add, BitVec.toNat_shiftLeft, BitVec.toNat_setWidth,
      BitVec.extractLsb'_toNat, Nat.shiftRight_eq_div_pow, Nat.shiftLeft_eq]
    omega
  simp only [be16, List.cons_append, List.nil_append, rawChecksumCalc, Bool.not_true, Bool.not_false,
    if_true, Bool.false_eq_true, if_false]
  rw [BitVec.add_assoc, hw]

theorem rawChecksumCalc_le (hiByte : Bool) (bs : List Byte) (sum : Word) :
    (rawChecksumCalc hiByte bs sum).toNat ≤ sum.toNat + 65280 * bs.length := by
  induction bs generalizing hiByte sum with
  | nil => exact Nat.le_refl _
  | cons b bs ih =>
      rw [rawChecksumCalc, List.length_cons]
      refine Nat.le_trans (ih _ _) ?_
      have hb := b.isLt
      have : (if hiByte then b.setWidth 32 <<< 8 else b.setWidth 32 : Word).toNat ≤ 65280 := by
        split
        · rw [BitVec.toNat_shiftLeft, BitVec.toNat_setWidth, Nat.shiftLeft_eq]
          omega
        · rw [BitVec.toNat_setWidth]
          omega
      rw [BitVec.toNat_add]
      omega

/-- The carries change nothing modulo 65535, and do not make a zero. -/
theorem foldCarries_toNat (sum : Word) :
    (foldCarries 2 sum).toNat < 65536 ∧
      (foldCarries 2 sum).toNat % 65535 = sum.toNat % 65535 ∧
      ((foldCarries 2 sum).toNat = 0 ↔ sum.toNat = 0) := by
  have hlt := sum.isLt
  refine ⟨(shift_eq_zero_iff _).mp (foldCarries_done sum), ?_⟩
  simp only [foldCarries]
  split
  · exact ⟨rfl, .rfl⟩
  · split
    · rw [round_toNat]
      omega
    · rw [round_toNat, round_toNat]
      omega

theorem complement_toNat (sum : Word) :
    ((~~~ foldCarries 2 sum).setWidth 16 : Half).toNat = 65535 - (foldCarries 2 sum).toNat := by
  have := (foldCarries_toNat sum).1
  rw [BitVec.toNat_setWidth, BitVec.toNat_not]
  omega

/-- With the complement of a sum in it the sum is all ones, and its complement zero. -/
theorem complement_of_complement {sum : Word} (h : sum.toNat + 65535 < 2 ^ 32) :
    (~~~ foldCarries 2 (sum + ((~~~ foldCarries 2 sum).setWidth 16 : Half).setWidth 32)).setWidth 16 =
      (0 : Half) := by
  refine BitVec.eq_of_toNat_eq ?_
  have hc := complement_toNat sum
  obtain ⟨hlt, hmod, hzero⟩ := foldCarries_toNat sum
  rw [complement_toNat]
  generalize hs : sum + ((~~~ foldCarries 2 sum).setWidth 16 : Half).setWidth 32 = sum'
  obtain ⟨hlt', hmod', hzero'⟩ := foldCarries_toNat sum'
  have hsum' : sum'.toNat = sum.toNat + (65535 - (foldCarries 2 sum).toNat) := by
    rw [← hs, BitVec.toNat_add, BitVec.toNat_setWidth, hc]
    omega
  change _ = 0
  omega

/-! ### The IP header -/

namespace IpPacket

/-- A received buffer as a packet, if it is long enough for a header. -/
def ofBytes? : List Byte → Option IpPacket
  | hv :: priority :: l₀ :: l₁ :: i₀ :: i₁ :: f₀ :: f₁ :: ttl :: protoType :: c₀ :: c₁ ::
      s₀ :: s₁ :: s₂ :: s₃ :: d₀ :: d₁ :: d₂ :: d₃ :: rest =>
      some
        { hdrlenVersion := hv, priority, length := half l₀ l₁, id := half i₀ i₁,
          fragOfsFlags := half f₀ f₁, ttl, protoType, checksum := half c₀ c₁,
          srcIp := word s₀ s₁ s₂ s₃, destIp := word d₀ d₁ d₂ d₃, rest }
  | _ => none

theorem ofBytes?_bytes (p : IpPacket) : ofBytes? p.bytes = some p := by
  simp only [bytes, IpHeader.bytes, be16, be32, List.cons_append, List.nil_append, ofBytes?,
    half_be16, word_be32]

end IpPacket

theorem UdpDatagram.ofBytes?_bytes (d : UdpDatagram) : ofBytes? d.bytes = some d := by
  simp only [bytes, UdpHeader.bytes, be16, List.cons_append, List.nil_append, ofBytes?, half_be16]

end Muxomucota.Net
