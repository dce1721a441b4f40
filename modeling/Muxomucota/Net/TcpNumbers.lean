import Mathlib.Data.List.TakeWhile
import Mathlib.Tactic
import Muxomucota.Net.TcpIncoming

/-!
# Net — the sequence numbers of the queued packets

A packet is given its sequence numbers in two places: `send_tcp_packet` and `incoming` compute how
many it takes, and put it in a queue behind the packets with smaller ones.  Both count either the
payload or a single control flag, never both (`seq_accounting_iff`), and both compare the numbers as
they are, while the rest of the service compares them modulo `2 ^ 32` (`insertion_sorted_iff`).
-/

namespace Muxomucota.Net

variable {base : Word} {p q : Packet} {queue : List Packet} {c : TcpConnection} {s : Segment}

/-- The packet that `send_tcp_packet` puts in the output queue. -/
def sentPacket (c : TcpConnection) (flags : Byte) (data : List Byte) : Packet where
  lastTimeSent := 0
  seqEnd := c.seq +
    if data = [] ∧ flags &&& (tcpSyn ||| tcpFin) ≠ 0 then 1 else .ofNat 32 data.length
  readOffset := 0
  packet := makeSegment c flags data

/-- The packet that `incoming` puts in the input queue. -/
def receivedPacket (s : Segment) : Packet where
  lastTimeSent := 0
  seqEnd := s.seqEnd
  readOffset := 0
  packet := s

/-- `send_tcp_packet` queues the packet and goes on behind it. -/
theorem sendTcpPacket_queues (now : Int) (c : TcpConnection) (flags : Byte) (data : List Byte) :
    (sendTcpPacket now c flags data).1.outqueue =
        insertPacket (sentPacket c flags data) c.outqueue ∧
      (sendTcpPacket now c flags data).1.seq = (sentPacket c flags data).seqEnd := ⟨rfl, rfl⟩

/-- `incoming` queues the packet of a segment with a payload or a SYN or FIN, and then handles the
queue. -/
theorem incomingAt_queues {now : Int} (hport : s.destPort = c.port) (hrst : s.has tcpRst = false)
    (hnews : ¬ (s.dataSz = 0 ∧ ¬ s.has (tcpFin ||| tcpSyn ||| tcpRst))) :
    incomingAt now s c =
      (handleInqueue now { noteSegment s c with
        inqueue := insertPacket (receivedPacket s) (noteSegment s c).inqueue }).bind
        fun r => some (r.1, if r.1.signal then r.2 ++ [.signal r.1.owner r.1.id] else r.2) := by
  rw [incomingAt, if_neg (not_not.mpr hport)]
  simp only [hrst, Bool.false_eq_true, if_false]
  rw [if_neg hnews]
  rfl

/-! ### How many numbers a packet takes -/

/-- One for SYN and one for FIN. -/
def controlCount (flags : Byte) : Word :=
  (if flags &&& tcpSyn ≠ 0 then 1 else 0) + if flags &&& tcpFin ≠ 0 then 1 else 0

theorem controlCount_zero {flags : Byte} :
    controlCount flags = 0 ↔ flags &&& (tcpSyn ||| tcpFin) = 0 := by
  revert flags
  decide

theorem controlCount_le (flags : Byte) :
    controlCount flags = 0 ∨ controlCount flags = 1 ∨ controlCount flags = 2 := by
  unfold controlCount
  split_ifs <;> decide

/-- The size that both functions compute, against the size that it should be; `bare` says that there
is no payload. -/
theorem seqSize_iff {n : Word} {bare : Prop} [Decidable bare] (hbare : bare → n = 0#32) (flags : Byte) :
    (if bare ∧ flags &&& (tcpSyn ||| tcpFin) ≠ 0 then 1 else n) = n + controlCount flags ↔
      controlCount flags = 0 ∨ (controlCount flags = 1 ∧ bare) := by
  have hflags : flags &&& (tcpSyn ||| tcpFin) ≠ 0 ↔ controlCount flags ≠ 0 := controlCount_zero.not.symm
  simp only [hflags]
  by_cases hb : bare
  · rcases controlCount_le flags with h | h | h <;> simp [h, hb, hbare hb]
  · rcases controlCount_le flags with h | h | h <;> simp [h, hb]

/-- What a packet should take: its payload, and one number for each of SYN and FIN. -/
def Packet.Accounted (p : Packet) : Prop :=
  p.seqEnd - p.seq = p.packet.dataSz + controlCount p.packet.flags

theorem has_control : s.has (tcpSyn ||| tcpFin) = true ↔ s.flags &&& (tcpSyn ||| tcpFin) ≠ 0 := by
  simp [Segment.has]

theorem received_accounted : (receivedPacket s).Accounted ↔
    controlCount s.flags = 0 ∨ (controlCount s.flags = 1 ∧ s.dataSz = 0) := by
  have hsub : (receivedPacket s).seqEnd - (receivedPacket s).seq = s.seqSize := by
    show s.seq + s.seqSize - s.seq = s.seqSize
    rw [BitVec.add_comm, BitVec.add_sub_cancel]
  have hsize : s.seqSize = if s.dataSz = 0 ∧ s.flags &&& (tcpSyn ||| tcpFin) ≠ 0 then 1
      else s.dataSz := by
    unfold Segment.seqSize
    simp only [has_control]
  rw [Packet.Accounted, hsub, hsize]
  exact seqSize_iff (fun h => h) s.flags

/-- The payload of a segment that is sent. -/
theorem makeSegment_dataSz (c : TcpConnection) (flags : Byte) (data : List Byte) :
    (makeSegment c flags data).dataSz = .ofNat 32 data.length := by
  have hhdr : (makeSegment c flags data).hdrBytes = 20 :=
    (by decide : (0x50#8 >>> 4).setWidth 32 * 4 = (20 : Word))
  have hsize : (makeSegment c flags data).size = .ofNat 32 (20 + data.length) := rfl
  rw [Segment.dataSz, hhdr, hsize, BitVec.ofNat_add, BitVec.add_comm]
  exact BitVec.add_sub_cancel _ _

theorem sent_accounted {flags : Byte} {data : List Byte} : (sentPacket c flags data).Accounted ↔
    controlCount flags = 0 ∨ (controlCount flags = 1 ∧ data = []) := by
  have hsub : (sentPacket c flags data).seqEnd - (sentPacket c flags data).seq =
      if data = [] ∧ flags &&& (tcpSyn ||| tcpFin) ≠ 0 then 1 else .ofNat 32 data.length := by
    show c.seq + _ - c.seq = _
    rw [BitVec.add_comm, BitVec.add_sub_cancel]
  have hnil : data = [] → BitVec.ofNat 32 data.length = 0#32 := by
    rintro rfl
    rfl
  rw [Packet.Accounted, hsub, show (sentPacket c flags data).packet.dataSz = _ from
    makeSegment_dataSz c flags data]
  exact seqSize_iff hnil flags

/-- **Sequence numbers**: a packet takes one number for each byte of payload, for SYN and for FIN if
and only if it has neither flag, or one of them and no payload. -/
theorem seq_accounting_iff (s : Segment) (c : TcpConnection) (flags : Byte) (data : List Byte) :
    ((receivedPacket s).Accounted ↔
      controlCount s.flags = 0 ∨ (controlCount s.flags = 1 ∧ s.dataSz = 0)) ∧
    ((sentPacket c flags data).Accounted ↔
      controlCount flags = 0 ∨ (controlCount flags = 1 ∧ data = [])) :=
  ⟨received_accounted, sent_accounted⟩

/-- A FIN together with a byte of payload. -/
def lastByte : Segment where
  srcPort := 80
  destPort := 1024
  seq := 5
  ack := 1
  hdrlen := 0x50
  flags := tcpAck ||| tcpFin
  window := 16384
  checksum := 0
  urgentptr := 0
  rest := [7]

/-- The FIN is not counted. -/
theorem fin_with_data_uncounted : ¬ (receivedPacket lastByte).Accounted := by
  rw [received_accounted]
  decide

/-! ### The order of the queues -/

/-- How far a sequence number is behind `base`, modulo `2 ^ 32`. -/
def distance (base seq : Word) : Nat := (seq - base).toNat

/-- The packets are in the order of their distances from `base`, the first unacknowledged number. -/
def Sorted (base : Word) (queue : List Packet) : Prop :=
  queue.Pairwise fun p q => distance base p.seq ≤ distance base q.seq

/-- The packets that the insertion loops compare a new sequence number with: all up to the first that
is larger. -/
def compared (seq : Word) : List Packet → List Packet
  | [] => []
  | q :: queue => if q.seq ≤ seq then q :: compared seq queue else [q]

/-- The numbers are on the same side of `2 ^ 32`, when one counts on from `base`. -/
def SameSide (base a b : Word) : Prop := a < base ↔ b < base

instance (base a b : Word) : Decidable (SameSide base a b) := inferInstanceAs (Decidable (_ ↔ _))

/-- Comparing the numbers as they are is right for two numbers on the same side, and only there. -/
theorem distance_le_iff {a b : Word} (h : a ≤ b) :
    distance base a ≤ distance base b ↔ SameSide base a b := by
  have ha := a.isLt
  have hb := b.isLt
  have hbase := base.isLt
  rw [BitVec.le_def] at h
  simp only [SameSide, distance, BitVec.lt_def, BitVec.toNat_sub]
  omega

/-- What the insertion loops compare decides whether the queue stays sorted. -/
theorem insertPacket_sorted_iff (p : Packet) : ∀ {queue : List Packet}, Sorted base queue →
    (Sorted base (insertPacket p queue) ↔ ∀ q ∈ compared p.seq queue, SameSide base q.seq p.seq)
  | [], _ => by simp [insertPacket, compared, Sorted]
  | q :: queue, h => by
      obtain ⟨hfirst, hrest⟩ := List.pairwise_cons.mp h
      rw [insertPacket, compared]
      split
      · rename_i hle
        unfold Sorted
        rw [List.pairwise_cons, List.forall_mem_cons, ← distance_le_iff hle]
        refine and_congr ?_ (insertPacket_sorted_iff p hrest)
        constructor
        · exact fun hall => hall p (mem_insertPacket.mpr (.inl rfl))
        · intro hqp r hr
          rcases mem_insertPacket.mp hr with rfl | hr
          · exact hqp
          · exact hfirst r hr
      · rename_i hle
        have hlt : p.seq ≤ q.seq := BitVec.le_of_lt (BitVec.not_le.mp hle)
        have hside : SameSide base q.seq p.seq ↔ SameSide base p.seq q.seq := Iff.comm
        unfold Sorted at h ⊢
        rw [List.pairwise_cons, and_iff_left h, List.forall_mem_singleton, hside, ← distance_le_iff hlt]
        constructor
        · exact fun hall => hall q List.mem_cons_self
        · intro hpq r hr
          rcases List.mem_cons.mp hr with rfl | hr
          · exact hpq
          · exact hpq.trans (hfirst r hr)

/-- **The queues at the wrap of the sequence numbers**: a packet that is sent or received leaves its
queue sorted if and only if all numbers that the insertion loop compares with its own are on the
same side of `2 ^ 32`. -/
theorem insertion_sorted_iff (now : Int) (flags : Byte) (data : List Byte) (s : Segment)
    (hout : Sorted base c.outqueue) (hin : Sorted base c.inqueue) :
    (Sorted base (sendTcpPacket now c flags data).1.outqueue ↔
      ∀ q ∈ compared c.seq c.outqueue, SameSide base q.seq c.seq) ∧
    (Sorted base (insertPacket (receivedPacket s) c.inqueue) ↔
      ∀ q ∈ compared s.seq c.inqueue, SameSide base q.seq s.seq) :=
  ⟨insertPacket_sorted_iff (sentPacket c flags data) hout,
    insertPacket_sorted_iff (receivedPacket s) hin⟩

/-- A connection with two bytes under way from `seq` on. -/
def twoUnderWay (seq : Word) : TcpConnection :=
  (sendTcpPacket 0 { openToTen with seq } tcpAck [1, 2]).1

theorem twoUnderWay_sorted (seq : Word) : Sorted seq (twoUnderWay seq).outqueue :=
  List.pairwise_singleton _ _

/-- A packet sent behind the one that waits. -/
theorem insertion_sorted_second :
    Sorted 1 (sendTcpPacket 0 (twoUnderWay 1) tcpAck [3]).1.outqueue :=
  (insertion_sorted_iff 0 tcpAck [3] lastByte (twoUnderWay_sorted 1) List.Pairwise.nil).1.mpr
    (by decide)

/-- Two bytes up to the wrap and a third one behind it: the third is queued in front. -/
theorem wrapped_packet_in_front : Sorted 0xFFFFFFFE (twoUnderWay 0xFFFFFFFE).outqueue ∧
    (∀ q ∈ (sendTcpPacket 0 (twoUnderWay 0xFFFFFFFE) tcpAck [3]).1.outqueue,
      distance 0xFFFFFFFE q.seq < 2 ^ 30) ∧
    ¬ Sorted 0xFFFFFFFE (sendTcpPacket 0 (twoUnderWay 0xFFFFFFFE) tcpAck [3]).1.outqueue := by
  refine ⟨twoUnderWay_sorted _, by decide, ?_⟩
  rw [(sendTcpPacket_queues ..).1, insertPacket_sorted_iff _ (twoUnderWay_sorted _)]
  decide

end Muxomucota.Net
