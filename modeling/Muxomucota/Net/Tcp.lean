import Muxomucota.Net.Wire

/-!
# Net — the TCP service

`progs/common/tcp/tcp.c`.  Every function works on one connection and gives back what it sends to
the IP pipe; `incoming` runs a segment against all connections.  `none` is an aborted service: a
failed assertion, a lock taken twice by one thread, or a read behind the end of a packet.
-/

namespace Muxomucota.Net

/-- `enum tcp_status`. -/
inductive TcpStatus where
  | closed | listen | synRcvd | synSent | opened | finRcvd | finSent
  deriving DecidableEq

/-- `struct packet`; its `size` is the segment's. -/
structure Packet where
  lastTimeSent : Int
  seqEnd : Word
  readOffset : Word
  packet : Segment
  deriving DecidableEq

/-- `ntohl(p->packet->seq)`. -/
def Packet.seq (p : Packet) : Word := p.packet.seq

/-- `struct tcp_connection`, with its address as its name. -/
structure TcpConnection where
  id : Nat
  ip : Word
  destIp : Word
  port : Half
  destPort : Half
  status : TcpStatus
  seq : Word
  ack : Word
  owner : Int
  signal : Bool
  window : Word
  inqueue : List Packet
  outqueue : List Packet
  deriving DecidableEq

/-- What leaves the service: a segment for the IP pipe with the destination set before it, or the
signal that a connection has got something. -/
inductive Out where
  | segment (destIp : Word) (s : Segment)
  | signal (owner : Int) (id : Nat)
  deriving DecidableEq

def rtt : Int := 1000
def mss : Nat := 1300
def defaultWindow : Word := 16384

/-- `throw_tcp_packet`. -/
def throwTcpPacket (c : TcpConnection) (p : Packet) : Out := .segment c.destIp p.packet

/-- `handle_outqueue` at the time `now`. -/
def handleOutqueue (now : Int) (c : TcpConnection) : List Out :=
  let seqStart := match c.outqueue with | p :: _ => p.seq | [] => 0
  let fits := c.outqueue.takeWhile fun p => p.seqEnd - seqStart ≤ c.window
  (fits.filter fun p => rtt < now - p.lastTimeSent).map (throwTcpPacket c)

/-- `tcp_acked`: `ack - p->seq_end < 0x40000000U` stands for `p->seq_end <= ack`. -/
def tcpAcked (c : TcpConnection) (ack : Word) : TcpConnection :=
  { c with outqueue := c.outqueue.dropWhile fun p => ack - p.seqEnd < 0x40000000#32 }

/-- `flush_all_queues`. -/
def flushAllQueues (c : TcpConnection) : TcpConnection := { c with inqueue := [], outqueue := [] }

/-- Where a packet goes in a queue: the sequence numbers are compared as they are. -/
def insertPacket (p : Packet) : List Packet → List Packet
  | [] => [p]
  | q :: queue => if q.seq ≤ p.seq then q :: insertPacket p queue else p :: q :: queue

/-- The segment `send_tcp_packet` builds. -/
def makeSegment (c : TcpConnection) (flags : Byte) (data : List Byte) : Segment :=
  let s : Segment :=
    { srcPort := c.port, destPort := c.destPort, seq := c.seq, ack := c.ack, hdrlen := 0x50,
      flags, window := defaultWindow.setWidth 16, checksum := 0, urgentptr := 0, rest := data }
  let psip := pseudoIpHeader c.ip c.destIp 6 s.size
  { s with checksum := calculateNetworkChecksum psip s.bytes }

/-- `send_tcp_packet`. -/
def sendTcpPacket (now : Int) (c : TcpConnection) (flags : Byte) (data : List Byte) :
    TcpConnection × List Out :=
  let seqSize : Word :=
    if data = [] ∧ flags &&& (tcpSyn ||| tcpFin) ≠ 0 then 1 else .ofNat 32 data.length
  let p : Packet :=
    { lastTimeSent := 0, seqEnd := c.seq + seqSize, readOffset := 0,
      packet := makeSegment c flags data }
  let c := { c with seq := c.seq + seqSize, outqueue := insertPacket p c.outqueue }
  (c, handleOutqueue now c)

/-- What `handle_inqueue` does with a packet that continues the stream; the flag says that a FIN
came in.  A queued RST would flush the queue whose lock is held. -/
def takePacket (now : Int) (c : TcpConnection) (p : Packet) :
    Option (TcpConnection × List Out × Bool) :=
  let c := { c with ack := p.seqEnd }
  if p.packet.has tcpRst then none
  else if p.packet.has tcpSyn then
    match c.status with
    | .listen =>
        let r := sendTcpPacket now { c with status := .synRcvd } (tcpSyn ||| tcpAck) []
        some (r.1, r.2, false)
    | .closed =>
        let r := sendTcpPacket now c tcpRst []
        some (r.1, r.2, false)
    | _ => some ({ c with status := .opened }, [], false)
  else if p.packet.has tcpFin then
    match c.status with
    | .finSent | .closed => some ({ c with status := .closed }, [], true)
    | _ => some ({ c with status := .finRcvd }, [], true)
  else some (c, [], false)

/-- `seq <= ack`, `ack != seq_end` and `seq_end > ack`. -/
def continues (c : TcpConnection) (p : Packet) : Bool :=
  c.ack - p.seq < 0x40000000#32 ∧ c.ack ≠ p.seqEnd ∧ p.seqEnd - c.ack < 0x40000000#32

/-- A packet that is all header. -/
def Packet.bare (p : Packet) : Bool := p.packet.size = p.packet.hdrBytes

/-- The loop of `handle_inqueue`: the queue as the loop leaves it, what is sent, and whether a FIN
came in.  After a bare packet is unlinked the loop's increment passes over the next one. -/
def inqueueLoop (now : Int) :
    List Packet → TcpConnection → Option (TcpConnection × List Packet × List Out × Bool)
  | [], c => some (c, [], [], false)
  | p :: queue, c =>
      if continues c p then do
        let (c, out, fin) ← takePacket now c p
        if p.bare then
          match queue with
          | [] => some (c, [], out, fin)
          | q :: queue => do
              let (c, queue, out', fin') ← inqueueLoop now queue c
              some (c, q :: queue, out ++ out', fin || fin')
        else do
          let (c, queue, out', fin') ← inqueueLoop now queue c
          some (c, p :: queue, out ++ out', fin || fin')
      else if p.seq - c.ack < 0x40000000#32 then some (c, p :: queue, [], false)
      else do
        let (c, queue, out, fin) ← inqueueLoop now queue c
        some (c, p :: queue, out, fin)

/-- `handle_inqueue`. -/
def handleInqueue (now : Int) (c : TcpConnection) : Option (TcpConnection × List Out) := do
  let (c, queue, out, fin) ← inqueueLoop now c.inqueue c
  let c := { c with inqueue := queue }
  if c.status = .opened ∨ c.status = .synSent ∨ c.status = .synRcvd ∨ c.status = .finRcvd ∨ fin then
    let r := sendTcpPacket now c tcpAck []
    some (r.1, out ++ r.2)
  else some (c, out)

/-- `tcp_connect`, up to the loop that waits for an answer; `ip` is what the IP pipe says. -/
def tcpConnect (now : Int) (ip : Word) (c : TcpConnection) : TcpConnection × List Out :=
  sendTcpPacket now { flushAllQueues { c with ip } with seq := 0, status := .synSent } tcpSyn []

/-- `incoming`, what it notes of every segment for the connection: the window, where the peer's
numbers start, and the acknowledgement. -/
def noteSegment (s : Segment) (c : TcpConnection) : TcpConnection :=
  let c := { c with window := s.window.setWidth 32 }
  let c := if s.has tcpSyn ∧ (c.status = .listen ∨ c.status = .synSent) then
    { c with ack := s.seq } else c
  if s.has tcpAck then tcpAcked c s.ack else c

/-- `incoming` for one connection. -/
def incomingAt (now : Int) (s : Segment) (c : TcpConnection) :
    Option (TcpConnection × List Out) :=
  if s.destPort ≠ c.port then some (c, [])
  else
    let c := noteSegment s c
    if s.has tcpRst then some (flushAllQueues { c with status := .closed }, [])
    else if s.dataSz = 0 ∧ ¬ s.has (tcpFin ||| tcpSyn ||| tcpRst) then some (c, [])
    else do
      let p : Packet := { lastTimeSent := 0, seqEnd := s.seqEnd, readOffset := 0, packet := s }
      let (c, out) ← handleInqueue now { c with inqueue := insertPacket p c.inqueue }
      some (c, if c.signal then out ++ [.signal c.owner c.id] else out)

/-- The loop of `incoming` over the connections. -/
def incomingLoop (now : Int) (s : Segment) :
    List TcpConnection → Option (List TcpConnection × List Out)
  | [] => some ([], [])
  | c :: cs => do
      let (c, out) ← incomingAt now s c
      let (cs, out') ← incomingLoop now s cs
      some (c :: cs, out ++ out')

/-- A packet as the IP pipe hands it over: `F_SRC_IP`, `F_DEST_IP`, `F_IP_PROTO_TYPE`, contents. -/
structure Datagram where
  src : Word
  dest : Word
  protocol : Int
  contents : Segment
  deriving DecidableEq

/-- `!calculate_network_checksum(&psip, tcph, total_length)`. -/
def Datagram.intact (d : Datagram) : Bool :=
  calculateNetworkChecksum (pseudoIpHeader d.src d.dest 6 d.contents.size) d.contents.bytes = 0

/-- One round of the loop of `incoming`. -/
def incoming (now : Int) (d : Datagram) (cs : List TcpConnection) :
    Option (List TcpConnection × List Out) :=
  if d.protocol ≠ 6 then some (cs, [])
  else if ¬ d.intact then some (cs, [])
  else incomingLoop now d.contents cs

/-- `service_stream_send`, for a connection. -/
def streamSend (now : Int) (c : TcpConnection) (data : List Byte) : TcpConnection × List Out :=
  if c.status ≠ .opened ∧ c.status ≠ .finRcvd then (c, [])
  else
    (List.range ((data.length + mss - 1) / mss)).foldl (fun r k =>
      let flags := if data.length ≤ k * mss + mss then tcpAck ||| tcpPsh else tcpAck
      let r' := sendTcpPacket now r.1 flags ((data.drop (k * mss)).take mss)
      (r'.1, r.2 ++ r'.2)) (c, [])

/-- `p->seq_end > c->ack`. -/
def Packet.ahead (p : Packet) (ack : Word) : Bool :=
  p.seqEnd ≠ ack ∧ p.seqEnd - ack < 0x40000000#32

/-- `remaining` and `copy_sz`. -/
def copySz (p : Packet) (lastSeqEnd size : Word) : Word :=
  let remaining := p.packet.dataSz - p.readOffset - (lastSeqEnd - p.seq)
  if size < remaining then size else remaining

/-- What `memcpy` copies out of a packet, always from the start of its data. -/
def copied (p : Packet) (n : Word) : List Byte :=
  (p.packet.bytes.drop p.packet.hdrBytes.toNat).take n.toNat

/-- All of a packet has been read. -/
def Packet.drained (p : Packet) (lastSeqEnd : Word) : Bool :=
  p.packet.dataSz = p.readOffset + lastSeqEnd - p.seq

/-- The loop of `tcp_receive`: the queue as the loop leaves it and the bytes it copies.  After a
drained packet is unlinked the loop's increment passes over the next one. -/
def receiveLoop (ack : Word) : List Packet → Word → Word → Option (List Packet × List Byte)
  | [], _, _ => some ([], [])
  | p :: queue, lastSeqEnd, size =>
      if p.ahead ack then some (p :: queue, [])
      else if p.packet.size < p.packet.hdrBytes then none
      else if p.packet.dataSz = 0 then do
        let (queue, bytes) ← receiveLoop ack queue p.seqEnd size
        some (p :: queue, bytes)
      else
        let n := copySz p lastSeqEnd size
        let p' := { p with readOffset := p.readOffset + n }
        if (copied p n).length < n.toNat then none
        else if p'.drained lastSeqEnd then
          match queue with
          | [] => some ([], copied p n)
          | q :: queue => do
              let (queue, bytes) ← receiveLoop ack queue p.seqEnd (size - n)
              some (q :: queue, copied p n ++ bytes)
        else do
          let (queue, bytes) ← receiveLoop ack queue p.seqEnd (size - n)
          some (p' :: queue, copied p n ++ bytes)

/-- `tcp_receive`. -/
def tcpReceive (c : TcpConnection) (size : Word) : Option (TcpConnection × List Byte) := do
  let lastSeqEnd := match c.inqueue with | p :: _ => p.seq | [] => 0
  let (queue, bytes) ← receiveLoop c.ack c.inqueue lastSeqEnd size
  some ({ c with inqueue := queue }, bytes)

end Muxomucota.Net
