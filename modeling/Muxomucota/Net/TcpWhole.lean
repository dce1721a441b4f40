import Muxomucota.Net.Checksum
import Muxomucota.Net.TcpNumbers
import Muxomucota.Net.TcpRaw
import Muxomucota.Net.TcpStream

/-!
# Net — segments with a whole header

Where every segment has its twenty bytes of header, the service over received bytes (`Net.Raw`) is
the service over segments (`Net`): `tcp_receive` does the same, and so does `incoming` unless a header
claims to be longer than its segment.
-/

namespace Muxomucota.Net.Raw
open Lib

variable {s : Segment} {p : Net.Packet} {queue : List Net.Packet} {c : TcpConnection} {now : Int}

/-- The packet of a segment, in bytes. -/
def Packet.of (p : Net.Packet) : Packet where
  lastTimeSent := p.lastTimeSent
  seqEnd := p.seqEnd
  readOffset := p.readOffset
  bytes := p.packet.bytes

/-- A connection without its input queue. -/
def strip (c : TcpConnection) : TcpConnection := { c with inqueue := [] }

/-- The connection, its input queue in bytes. -/
def Connection.of (c : TcpConnection) : Connection where
  conn := strip c
  inqueue := c.inqueue.map .of

/-! ### A segment through its header -/

theorem length_bytes (s : Segment) : s.bytes.length = 20 + s.rest.length := by
  simp [Segment.bytes, TcpHeader.bytes, be16, be32]
  omega

@[simp] theorem segment_bytes (s : Segment) : segment s.bytes = s := by
  obtain ⟨⟨srcPort, destPort, seq, ack, hdrlen, flags, window, checksum, urgentptr⟩, rest⟩ := s
  simp only [segment, header, Segment.bytes, TcpHeader.bytes, be16, be32, List.cons_append,
    List.nil_append, List.getD_cons_zero, List.getD_cons_succ, half_be16, word_be32]
  rfl

@[simp] theorem size_bytes (s : Segment) : size s.bytes = s.size := by
  rw [size, length_bytes, Segment.size]

@[simp] theorem hdrBytes_bytes (s : Segment) : hdrBytes s.bytes = s.hdrBytes := by
  rw [hdrBytes, segment_bytes]

@[simp] theorem dataSz_bytes (s : Segment) : dataSz s.bytes = s.dataSz := by
  rw [dataSz, size_bytes, hdrBytes_bytes, Segment.dataSz]

@[simp] theorem seqSize_bytes (s : Segment) : seqSize s.bytes = s.seqSize := by
  rw [seqSize, dataSz_bytes, segment_bytes, Segment.seqSize]

@[simp] theorem view_of (p : Net.Packet) : (Packet.of p).view = p := by
  rw [Packet.view, show segment (Packet.of p).bytes = p.packet from segment_bytes p.packet]
  rfl

@[simp] theorem bare_of (p : Net.Packet) : (Packet.of p).bare = p.bare := by
  rw [Packet.bare, Net.Packet.bare, show (Packet.of p).bytes = p.packet.bytes from rfl, size_bytes,
    hdrBytes_bytes]

theorem reads_bytes {n : Nat} (s : Segment) (h : n ≤ 20) : reads s.bytes n = .ok () :=
  if_pos (by rw [length_bytes]; omega)

theorem reads_of {n : Nat} (p : Net.Packet) (h : n ≤ 20) : reads (Packet.of p).bytes n = .ok () :=
  reads_bytes p.packet h

/-! ### The functions -/

theorem insertPacket_of (p : Net.Packet) (queue : List Net.Packet) :
    insertPacket (.of p) (queue.map .of) = .ok ((Net.insertPacket p queue).map .of) := by
  induction queue with
  | nil => rfl
  | cons q queue ih =>
      rw [List.map_cons, insertPacket, reads_of q (by omega), Net.insertPacket, view_of, view_of]
      split
      · rw [ih]
        rfl
      · rfl

theorem continues_strip (c : TcpConnection) (p : Net.Packet) :
    continues (strip c) p = continues c p := rfl

/-- What happens to a packet that continues the stream does not depend on the queue. -/
theorem takePacket_strip (now : Int) (c : TcpConnection) (p : Net.Packet) :
    takePacket now (strip c) p =
      (takePacket now c p).map fun r => (strip r.1, r.2.1, r.2.2) := by
  unfold takePacket
  dsimp only
  split
  · rfl
  split
  · rw [show (strip c).status = c.status from rfl]
    split <;> rfl
  split
  · rw [show (strip c).status = c.status from rfl]
    split <;> rfl
  · rfl

theorem once_map {α β : Type} (f : α → β) (o : Option α) :
    Agrees f (once (o.map f)) o := by
  cases o <;> rfl

/-- What the loop of `handle_inqueue` gives back, in bytes. -/
def loopOf (r : TcpConnection × List Net.Packet × List Out × Bool) :
    TcpConnection × List Packet × List Out × Bool := (strip r.1, r.2.1.map .of, r.2.2.1, r.2.2.2)

theorem inqueueLoop_of : ∀ (queue : List Net.Packet) (c : TcpConnection),
    Agrees loopOf (inqueueLoop now (queue.map .of) (strip c)) (Net.inqueueLoop now queue c)
  | [], c => agrees_ok rfl
  | p :: queue, c => by
      rw [List.map_cons, inqueueLoop, reads_of p (by omega), Net.inqueueLoop, view_of,
        continues_strip, ok_bind]
      split
      · rw [reads_of p (by omega), takePacket_strip, ok_bind]
        refine Agrees.bind (once_map _ _) ?_
        rintro ⟨c₁, out, fin⟩
        rw [bare_of]
        dsimp only
        split
        · cases queue with
          | nil => exact agrees_ok rfl
          | cons q queue =>
              refine (inqueueLoop_of queue c₁).bind ?_
              exact fun _ => agrees_ok rfl
        · refine (inqueueLoop_of queue c₁).bind ?_
          exact fun _ => agrees_ok rfl
      · rw [show (strip c).ack = c.ack from rfl]
        split
        · exact agrees_ok rfl
        · refine (inqueueLoop_of queue c).bind ?_
          exact fun _ => agrees_ok rfl

/-- A connection and what is sent, in bytes. -/
def answerOf {α : Type} (r : TcpConnection × α) : Connection × α := (.of r.1, r.2)

theorem handleInqueue_of (now : Int) (c : TcpConnection) :
    Agrees answerOf (handleInqueue now (.of c)) (Net.handleInqueue now c) := by
  refine (inqueueLoop_of c.inqueue c).bind ?_
  rintro ⟨c₁, queue, out, fin⟩
  show Agrees answerOf (if c₁.status = .opened ∨ c₁.status = .synSent ∨ c₁.status = .synRcvd ∨
    c₁.status = .finRcvd ∨ fin then _ else _) _
  dsimp only
  split
  · exact agrees_ok rfl
  · exact agrees_ok rfl

theorem noteSegment_strip (s : Segment) (c : TcpConnection) :
    noteSegment s (strip c) = strip (noteSegment s c) := by
  unfold noteSegment
  dsimp only
  rw [show (strip c).status = c.status from rfl]
  split <;> split <;> rfl

/-- A segment for one connection. -/
theorem incomingAt_of (now : Int) (s : Segment) (c : TcpConnection) :
    Agrees answerOf (incomingAt now s.bytes (.of c)) (Net.incomingAt now s c) := by
  rw [incomingAt, segment_bytes, reads_bytes s (by omega), Net.incomingAt]
  rw [ok_bind, show (Connection.of c).conn.port = c.port from rfl]
  split
  · exact agrees_ok rfl
  rw [reads_bytes s (by omega), ok_bind, dataSz_bytes, seqSize_bytes]
  rw [show (Connection.of c).conn = strip c from rfl, noteSegment_strip]
  split
  · exact agrees_ok rfl
  split
  · refine agrees_ok ?_
    rw [show (Connection.of c).inqueue = (noteSegment s c).inqueue.map .of by
      rw [(noteSegment_spec s c).inqueue]
      rfl]
    rfl
  · have hqueue : (Connection.of c).inqueue = (noteSegment s c).inqueue.map .of := by
      rw [(noteSegment_spec s c).inqueue]
      rfl
    have hput := insertPacket_of (receivedPacket s) (noteSegment s c).inqueue
    rw [hqueue]
    show Agrees answerOf (insertPacket (.of (receivedPacket s)) _ >>= _) _
    rw [hput]
    refine (handleInqueue_of now { noteSegment s c with inqueue := _ }).bind ?_
    exact fun r => agrees_ok rfl

/-- The connections and what is sent, in bytes. -/
def answersOf (r : List TcpConnection × List Out) : List Connection × List Out :=
  (r.1.map .of, r.2)

theorem incomingLoop_of (now : Int) (s : Segment) (cs : List TcpConnection) :
    Agrees answersOf (incomingLoop now s.bytes (cs.map .of)) (Net.incomingLoop now s cs) := by
  induction cs with
  | nil => exact agrees_ok rfl
  | cons c cs ih =>
      refine (incomingAt_of now s c).bind fun r => ?_
      refine ih.bind fun r' => ?_
      exact agrees_ok rfl

/-- `incoming` does the same unless a header claims to be longer than its segment. -/
theorem incoming_of (now : Int) (d : Datagram) (s : Segment) (cs : List TcpConnection)
    (hs : d.contents = s.bytes) (hhdr : s.hdrBytes ≤ s.size) :
    Agrees answersOf (incoming now d (cs.map .of))
      (Net.incoming now ⟨d.src, d.dest, d.protocol, s⟩ cs) := by
  have hintact : d.intact = (⟨d.src, d.dest, d.protocol, s⟩ : Net.Datagram).intact := by
    rw [Datagram.intact, hs, size_bytes]
    rfl
  rw [incoming, Net.incoming, hintact]
  split
  · exact agrees_ok rfl
  split
  · exact agrees_ok rfl
  rw [hs, reads_bytes s (by omega), reads_bytes s (by omega), size_bytes, hdrBytes_bytes,
    if_neg (BitVec.not_lt.mpr hhdr), reads_bytes s (by split <;> omega)]
  exact incomingLoop_of now s cs

/-! ### A read -/

theorem copySz_of (p : Net.Packet) (lastSeqEnd n : Word) :
    copySz (.of p) lastSeqEnd n = Net.copySz p lastSeqEnd n := by
  rw [copySz, view_of, show (Packet.of p).bytes = p.packet.bytes from rfl, dataSz_bytes]
  rfl

theorem copied_of (p : Net.Packet) (n : Word) : copied (.of p) n = Net.copied p n := by
  rw [copied, show (Packet.of p).bytes = p.packet.bytes from rfl, hdrBytes_bytes]
  rfl

theorem drained_of (p : Net.Packet) (lastSeqEnd : Word) :
    (Packet.of p).drained lastSeqEnd = p.drained lastSeqEnd := by
  rw [Packet.drained, view_of, show (Packet.of p).bytes = p.packet.bytes from rfl, dataSz_bytes]
  rfl

/-- A copy is short where it would read outside. -/
theorem copied_short {p : Net.Packet} {n : Word} (h : p.packet.hdrBytes ≤ p.packet.size) :
    (Net.copied p n).length < n.toNat ↔
      ¬ p.packet.hdrBytes.toNat + n.toNat ≤ p.packet.bytes.length := by
  have hlen := length_bytes p.packet
  have hsize : p.packet.size.toNat ≤ p.packet.bytes.length := by
    rw [Segment.size, BitVec.toNat_ofNat, hlen]
    exact Nat.mod_le _ _
  rw [BitVec.le_def] at h
  rw [Net.copied, List.length_take, List.length_drop]
  omega

/-- The queue and the bytes that are copied. -/
def readOf (r : List Net.Packet × List Byte) : List Packet × List Byte := (r.1.map .of, r.2)

theorem receiveLoop_of (ack : Word) : ∀ (queue : List Net.Packet) (lastSeqEnd n : Word),
    Agrees readOf (receiveLoop ack (queue.map .of) lastSeqEnd n)
      (Net.receiveLoop ack queue lastSeqEnd n)
  | [], lastSeqEnd, n => agrees_ok rfl
  | p :: queue, lastSeqEnd, n => by
      rw [List.map_cons, receiveLoop, Net.receiveLoop, view_of, reads_of p (by omega),
        show (Packet.of p).bytes = p.packet.bytes from rfl, size_bytes, hdrBytes_bytes, dataSz_bytes]
      split
      · exact agrees_ok rfl
      rw [ok_bind]
      split
      · exact agrees_error _
      split
      · refine (receiveLoop_of ack queue p.seqEnd n).bind ?_
        exact fun _ => agrees_ok rfl
      rename_i hhdr _
      rw [reads_bytes p.packet (by omega), ok_bind, copySz_of]
      simp only [copied_of, copied_short (BitVec.not_lt.mp hhdr)]
      by_cases hfits : p.packet.hdrBytes.toNat + (Net.copySz p lastSeqEnd n).toNat ≤
          p.packet.bytes.length
      · rw [if_neg (not_not.mpr hfits), reads, if_pos hfits, ok_bind]
        have hdrained := drained_of
          { p with readOffset := p.readOffset + Net.copySz p lastSeqEnd n } lastSeqEnd
        show Agrees readOf (if (Packet.of { p with
          readOffset := p.readOffset + Net.copySz p lastSeqEnd n }).drained lastSeqEnd then _ else _) _
        rw [hdrained]
        split
        · cases queue with
          | nil => exact agrees_ok rfl
          | cons q queue =>
              refine (receiveLoop_of ack queue p.seqEnd _).bind ?_
              exact fun _ => agrees_ok rfl
        · refine (receiveLoop_of ack queue p.seqEnd _).bind ?_
          exact fun _ => agrees_ok rfl
      · rw [if_pos hfits, reads, if_neg hfits]
        exact agrees_error _

theorem firstSeq_of (queue : List Net.Packet) :
    firstSeq (queue.map .of) = .ok (Net.firstSeq queue) := by
  cases queue with
  | nil => rfl
  | cons p queue =>
      rw [List.map_cons, firstSeq, reads_of p (by omega), view_of]
      rfl

/-- `tcp_receive` does the same. -/
theorem tcpReceive_of (c : TcpConnection) (n : Word) :
    Agrees answerOf (tcpReceive (.of c) n) (Net.tcpReceive c n) := by
  rw [tcpReceive, show (Connection.of c).inqueue = c.inqueue.map .of from rfl, firstSeq_of, ok_bind]
  show Agrees answerOf _ (Net.receiveLoop c.ack c.inqueue (Net.firstSeq c.inqueue) n >>= _)
  refine (receiveLoop_of c.ack c.inqueue _ n).bind ?_
  exact fun _ => agrees_ok rfl

end Muxomucota.Net.Raw
