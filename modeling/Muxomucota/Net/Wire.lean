import Mathlib.Data.List.Basic
import Mathlib.Tactic.Common

/-!
# Net — bytes on the wire

What `tcp.c`, `udp.c` and `ip.c` share: big-endian numbers, the one's-complement sum and the TCP
segment.  A header is kept in host order, `bytes` is what `htons` and `htonl` make of it; a segment
is a header and the bytes behind it, so its `bytes` are what is received or sent.
-/

namespace Muxomucota.Net

abbrev Byte := BitVec 8
/-- `uint16_t`. -/
abbrev Half := BitVec 16
/-- `uint32_t`, and `size_t` on the 32-bit target. -/
abbrev Word := BitVec 32

/-- A `uint16_t` in network order. -/
def be16 (w : Half) : List Byte := [w.extractLsb' 8 8, w.extractLsb' 0 8]

/-- A `uint32_t` in network order. -/
def be32 (w : Word) : List Byte :=
  [w.extractLsb' 24 8, w.extractLsb' 16 8, w.extractLsb' 8 8, w.extractLsb' 0 8]

/-- `ntohs` of two received bytes. -/
def half (a b : Byte) : Half := a ++ b

/-- `ntohl` of four received bytes. -/
def word (a b c d : Byte) : Word := a ++ b ++ c ++ d

/-- `raw_checksum_calc`, from byte to byte. -/
def rawChecksumCalc : Bool → List Byte → Word → Word
  | _, [], sum => sum
  | hiByte, b :: bs, sum =>
      rawChecksumCalc (!hiByte) bs (sum + if hiByte then b.setWidth 32 <<< 8 else b.setWidth 32)

/-- `while (sum >> 16) sum = (sum & 0xffff) + (sum >> 16)`, at most `n` times. -/
def foldCarries : Nat → Word → Word
  | 0, sum => sum
  | n + 1, sum => if sum >>> 16 = 0#32 then sum else foldCarries n ((sum &&& 65535#32) + (sum >>> 16))

theorem shift_eq_zero_iff (w : Word) : w >>> 16 = 0#32 ↔ w.toNat < 65536 := by
  rw [← BitVec.toNat_inj, BitVec.toNat_ushiftRight, Nat.shiftRight_eq_div_pow]
  simp

/-- One round. -/
theorem round_toNat (w : Word) :
    ((w &&& 65535#32) + (w >>> 16)).toNat = w.toNat % 65536 + w.toNat / 65536 := by
  have hlow : w.toNat &&& 65535 = w.toNat % 65536 := Nat.and_two_pow_sub_one_eq_mod _ 16
  have := w.isLt
  rw [BitVec.toNat_add, BitVec.toNat_and, BitVec.toNat_ushiftRight, Nat.shiftRight_eq_div_pow,
    BitVec.toNat_ofNat, Nat.mod_eq_of_lt (by decide : 65535 < 2 ^ 32), hlow]
  omega

/-- Two rounds are enough. -/
theorem foldCarries_done (sum : Word) : foldCarries 2 sum >>> 16 = 0#32 := by
  have hlt := sum.isLt
  simp only [foldCarries]
  split
  · assumption
  · split
    · assumption
    · rename_i h₁ h₂
      rw [shift_eq_zero_iff, round_toNat] at h₂
      rw [shift_eq_zero_iff, round_toNat, round_toNat]
      omega

/-- `struct tcp_header`. -/
structure TcpHeader where
  srcPort : Half
  destPort : Half
  seq : Word
  ack : Word
  hdrlen : Byte
  flags : Byte
  window : Half
  checksum : Half
  urgentptr : Half
  deriving DecidableEq

def TcpHeader.bytes (h : TcpHeader) : List Byte :=
  be16 h.srcPort ++ be16 h.destPort ++ be32 h.seq ++ be32 h.ack ++ [h.hdrlen, h.flags] ++
    be16 h.window ++ be16 h.checksum ++ be16 h.urgentptr

/-- A TCP segment: `struct tcp_header` and the bytes behind it. -/
structure Segment extends TcpHeader where
  rest : List Byte
  deriving DecidableEq

def tcpFin : Byte := 1
def tcpSyn : Byte := 2
def tcpRst : Byte := 4
def tcpPsh : Byte := 8
def tcpAck : Byte := 16

namespace Segment

/-- A received buffer as a segment, if it is long enough for a header. -/
def ofBytes? : List Byte → Option Segment
  | s₀ :: s₁ :: d₀ :: d₁ :: q₀ :: q₁ :: q₂ :: q₃ :: a₀ :: a₁ :: a₂ :: a₃ :: hdrlen :: flags ::
      w₀ :: w₁ :: c₀ :: c₁ :: u₀ :: u₁ :: rest =>
      some
        { srcPort := half s₀ s₁, destPort := half d₀ d₁, seq := word q₀ q₁ q₂ q₃,
          ack := word a₀ a₁ a₂ a₃, hdrlen, flags, window := half w₀ w₁, checksum := half c₀ c₁,
          urgentptr := half u₀ u₁, rest }
  | _ => none

def bytes (s : Segment) : List Byte := s.toTcpHeader.bytes ++ s.rest

/-- `flags & flag`. -/
def has (s : Segment) (flag : Byte) : Bool := s.flags &&& flag != 0

/-- `total_length`, also `p->size`. -/
def size (s : Segment) : Word := .ofNat 32 (20 + s.rest.length)

/-- `(hdrlen >> 4) * 4`. -/
def hdrBytes (s : Segment) : Word := (s.hdrlen >>> 4).setWidth 32 * 4

/-- `data_sz`; it wraps where the header claims to be longer than the segment. -/
def dataSz (s : Segment) : Word := s.size - s.hdrBytes

/-- `seq_size`. -/
def seqSize (s : Segment) : Word :=
  if s.dataSz = 0 ∧ s.has (tcpSyn ||| tcpFin) then 1 else s.dataSz

/-- `seq_end`. -/
def seqEnd (s : Segment) : Word := s.seq + s.seqSize

end Segment

/-- `struct pseudo_ip_header`. -/
def pseudoIpHeader (srcIp destIp : Word) (protoType : Byte) (length : Word) : List Byte :=
  be32 srcIp ++ be32 destIp ++ [0, protoType] ++ be16 (length.setWidth 16)

/-- `calculate_network_checksum`. -/
def calculateNetworkChecksum (psip bytes : List Byte) : Half :=
  (~~~ foldCarries 2 (rawChecksumCalc true bytes (rawChecksumCalc true psip 0))).setWidth 16

end Muxomucota.Net
