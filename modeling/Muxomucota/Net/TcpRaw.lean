import Mathlib.Tactic
import Muxomucota.Lib.Returns
import Muxomucota.Net.TcpIncoming

/-!
# Net — received bytes

The receiving half of `tcp.c` over blocks of any length, as the IP pipe hands them over.  A
`struct tcp_header` is laid over the block, and every access to it says how far it reads (`reads`).
The service stops at the first thing that must not happen: a read behind the end of a block, a
payload of negative size, a failed assertion, a lock taken twice.
-/

namespace Muxomucota.Net.Raw
open Lib

/-- What must not happen. -/
inductive Fault where
  | readOutside | negativeSize | failedAssertion | lockedTwice
  deriving DecidableEq

/-- `*tcph`; what is missing of it counts as zero, and is never looked at. -/
def header (bytes : List Byte) : TcpHeader :=
  let b := fun i => bytes.getD i 0
  { srcPort := half (b 0) (b 1)
    destPort := half (b 2) (b 3)
    seq := word (b 4) (b 5) (b 6) (b 7)
    ack := word (b 8) (b 9) (b 10) (b 11)
    hdrlen := b 12
    flags := b 13
    window := half (b 14) (b 15)
    checksum := half (b 16) (b 17)
    urgentptr := half (b 18) (b 19) }

/-- A block seen through a `struct tcp_header *`. -/
def segment (bytes : List Byte) : Segment := { header bytes with rest := bytes.drop 20 }

/-- A read that ends with byte `n` of the block. -/
def reads (bytes : List Byte) (n : Nat) : Except Fault Unit :=
  if n ≤ bytes.length then .ok () else .error .readOutside

/-- The lock is free. -/
def once {α : Type} : Option α → Except Fault α
  | some a => .ok a
  | none => .error .lockedTwice

/-- `total_length`, also `p->size`. -/
def size (bytes : List Byte) : Word := .ofNat 32 bytes.length

/-- `(hdrlen >> 4) * 4`. -/
def hdrBytes (bytes : List Byte) : Word := (segment bytes).hdrBytes

/-- `data_sz`. -/
def dataSz (bytes : List Byte) : Word := size bytes - hdrBytes bytes

/-- `seq_size`. -/
def seqSize (bytes : List Byte) : Word :=
  if dataSz bytes = 0 ∧ (segment bytes).has (tcpSyn ||| tcpFin) then 1 else dataSz bytes

/-- `struct packet`, with the bytes that `packet` points to. -/
structure Packet where
  lastTimeSent : Int
  seqEnd : Word
  readOffset : Word
  bytes : List Byte
  deriving DecidableEq

/-- The packet seen through its header. -/
def Packet.view (p : Packet) : Net.Packet where
  lastTimeSent := p.lastTimeSent
  seqEnd := p.seqEnd
  readOffset := p.readOffset
  packet := segment p.bytes

/-- A packet that is all header. -/
def Packet.bare (p : Packet) : Bool := size p.bytes = hdrBytes p.bytes

/-- A connection; its input queue is the one here, that of `conn` is not used. -/
structure Connection where
  conn : TcpConnection
  inqueue : List Packet
  deriving DecidableEq

/-- Where `incoming` puts a packet. -/
def insertPacket (p : Packet) : List Packet → Except Fault (List Packet)
  | [] => .ok [p]
  | q :: queue => do
      reads q.bytes 8
      if q.view.seq ≤ p.view.seq then do
        let queue ← insertPacket p queue
        .ok (q :: queue)
      else .ok (p :: q :: queue)

/-- The loop of `handle_inqueue`. -/
def inqueueLoop (now : Int) :
    List Packet → TcpConnection → Except Fault (TcpConnection × List Packet × List Out × Bool)
  | [], c => .ok (c, [], [], false)
  | p :: queue, c => do
      reads p.bytes 8
      if continues c p.view then do
        reads p.bytes 14
        let (c, out, fin) ← once (takePacket now c p.view)
        if p.bare then
          match queue with
          | [] => .ok (c, [], out, fin)
          | q :: queue => do
              let (c, queue, out', fin') ← inqueueLoop now queue c
              .ok (c, q :: queue, out ++ out', fin || fin')
        else do
          let (c, queue, out', fin') ← inqueueLoop now queue c
          .ok (c, p :: queue, out ++ out', fin || fin')
      else if p.view.seq - c.ack < 0x40000000#32 then .ok (c, p :: queue, [], false)
      else do
        let (c, queue, out, fin) ← inqueueLoop now queue c
        .ok (c, p :: queue, out, fin)

/-- `handle_inqueue`. -/
def handleInqueue (now : Int) (c : Connection) : Except Fault (Connection × List Out) := do
  let (conn, inqueue, out, fin) ← inqueueLoop now c.inqueue c.conn
  if conn.status = .opened ∨ conn.status = .synSent ∨ conn.status = .synRcvd ∨
      conn.status = .finRcvd ∨ fin then
    let r := sendTcpPacket now conn tcpAck []
    .ok ({ conn := r.1, inqueue }, out ++ r.2)
  else .ok ({ conn, inqueue }, out)

/-- `incoming` for one connection. -/
def incomingAt (now : Int) (bytes : List Byte) (c : Connection) :
    Except Fault (Connection × List Out) := do
  let s := segment bytes
  reads bytes 4
  if s.destPort ≠ c.conn.port then .ok (c, [])
  else do
    reads bytes 16
    let conn := noteSegment s c.conn
    if s.has tcpRst then
      .ok ({ conn := flushAllQueues { conn with status := .closed }, inqueue := [] }, [])
    else if dataSz bytes = 0 ∧ ¬ s.has (tcpFin ||| tcpSyn ||| tcpRst) then
      .ok ({ c with conn }, [])
    else do
      let p : Packet := { lastTimeSent := 0, seqEnd := s.seq + seqSize bytes, readOffset := 0, bytes }
      let inqueue ← insertPacket p c.inqueue
      let (c, out) ← handleInqueue now { conn, inqueue }
      .ok (c, if c.conn.signal then out ++ [.signal c.conn.owner c.conn.id] else out)

/-- The loop of `incoming` over the connections. -/
def incomingLoop (now : Int) (bytes : List Byte) :
    List Connection → Except Fault (List Connection × List Out)
  | [] => .ok ([], [])
  | c :: cs => do
      let (c, out) ← incomingAt now bytes c
      let (cs, out') ← incomingLoop now bytes cs
      .ok (c :: cs, out ++ out')

/-- What the IP pipe hands over; `F_PRESSURE` gives the length as a `size_t`. -/
structure Datagram where
  src : Word
  dest : Word
  protocol : Int
  contents : List Byte
  fits : contents.length < 2 ^ 32

/-- `!calculate_network_checksum(&psip, tcph, total_length)`. -/
def Datagram.intact (d : Datagram) : Bool :=
  calculateNetworkChecksum (pseudoIpHeader d.src d.dest 6 (size d.contents)) d.contents = 0

/-- One round of the loop of `incoming`. -/
def incoming (now : Int) (d : Datagram) (cs : List Connection) :
    Except Fault (List Connection × List Out) :=
  if d.protocol ≠ 6 then .ok (cs, [])
  else if ¬ d.intact then .ok (cs, [])
  else do
    reads d.contents 8
    reads d.contents 13
    if size d.contents < hdrBytes d.contents then .error .negativeSize
    else do
      -- the flags are asked for where there is no payload
      reads d.contents (if dataSz d.contents = 0 then 14 else 13)
      incomingLoop now d.contents cs

/-- `remaining` and `copy_sz`. -/
def copySz (p : Packet) (lastSeqEnd n : Word) : Word :=
  let remaining := dataSz p.bytes - p.readOffset - (lastSeqEnd - p.view.seq)
  if n < remaining then n else remaining

/-- What `memcpy` copies out of a packet. -/
def copied (p : Packet) (n : Word) : List Byte := (p.bytes.drop (hdrBytes p.bytes).toNat).take n.toNat

/-- All of a packet has been read. -/
def Packet.drained (p : Packet) (lastSeqEnd : Word) : Bool :=
  dataSz p.bytes = p.readOffset + lastSeqEnd - p.view.seq

/-- The loop of `tcp_receive`. -/
def receiveLoop (ack : Word) :
    List Packet → Word → Word → Except Fault (List Packet × List Byte)
  | [], _, _ => .ok ([], [])
  | p :: queue, lastSeqEnd, n =>
      if p.view.ahead ack then .ok (p :: queue, [])
      else do
        reads p.bytes 13
        if size p.bytes < hdrBytes p.bytes then .error .failedAssertion
        else if dataSz p.bytes = 0 then do
          let (queue, bytes) ← receiveLoop ack queue p.seqEnd n
          .ok (p :: queue, bytes)
        else do
          reads p.bytes 8
          let m := copySz p lastSeqEnd n
          let p' := { p with readOffset := p.readOffset + m }
          reads p.bytes ((hdrBytes p.bytes).toNat + m.toNat)
          if p'.drained lastSeqEnd then
            match queue with
            | [] => .ok ([], copied p m)
            | q :: queue => do
                let (queue, bytes) ← receiveLoop ack queue p.seqEnd (n - m)
                .ok (q :: queue, copied p m ++ bytes)
          else do
            let (queue, bytes) ← receiveLoop ack queue p.seqEnd (n - m)
            .ok (p' :: queue, copied p m ++ bytes)

/-- The `last_seq_end` that `tcp_receive` and `F_PRESSURE` begin with. -/
def firstSeq : List Packet → Except Fault Word
  | p :: _ => do
      reads p.bytes 8
      .ok p.view.seq
  | [] => .ok 0

/-- `tcp_receive`. -/
def tcpReceive (c : Connection) (n : Word) : Except Fault (Connection × List Byte) := do
  let lastSeqEnd ← firstSeq c.inqueue
  let (inqueue, bytes) ← receiveLoop c.conn.ack c.inqueue lastSeqEnd n
  .ok ({ c with inqueue }, bytes)

/-- The loop of `F_PRESSURE`. -/
def pressureLoop (ack : Word) : List Packet → Word → Except Fault Word
  | [], _ => .ok 0
  | p :: queue, lastSeqEnd =>
      if p.view.ahead ack then .ok 0
      else do
        reads p.bytes 13
        let press ← pressureLoop ack queue p.seqEnd
        .ok (if hdrBytes p.bytes < size p.bytes then p.seqEnd - lastSeqEnd + press else press)

/-- `service_pipe_get_flag` with `F_PRESSURE`. -/
def pressure (c : Connection) : Except Fault Word := do
  let lastSeqEnd ← firstSeq c.inqueue
  pressureLoop c.conn.ack c.inqueue lastSeqEnd

/-! ### What is read -/

section reads

variable {bytes : List Byte} {n : Nat} {α : Type}

@[simp] theorem returns_reads {P : Unit → Prop} :
    Returns (reads bytes n) P ↔ n ≤ bytes.length ∧ P () := by
  unfold reads
  split <;> simp_all

@[simp] theorem returns_once {x : Option α} {P : α → Prop} :
    Returns (once x) P ↔ ∃ a, x = some a ∧ P a := by
  cases x <;> simp [once]

theorem hdrBytes_toNat (bytes : List Byte) :
    (hdrBytes bytes).toNat = (header bytes).hdrlen.toNat / 16 * 4 := by
  have hlt := (header bytes).hdrlen.isLt
  show (((header bytes).hdrlen >>> 4).setWidth 32 * 4#32).toNat = _
  rw [BitVec.toNat_mul, BitVec.toNat_setWidth, BitVec.toNat_ushiftRight, Nat.shiftRight_eq_div_pow,
    BitVec.toNat_ofNat]
  omega

theorem size_toNat (h : bytes.length < 2 ^ 32) : (size bytes).toNat = bytes.length := by
  rw [size, BitVec.toNat_ofNat, Nat.mod_eq_of_lt h]

theorem hdrBytes_le (h : bytes.length < 2 ^ 32) :
    hdrBytes bytes ≤ size bytes ↔ (hdrBytes bytes).toNat ≤ bytes.length := by
  rw [BitVec.le_def, size_toNat h]

theorem dataSz_toNat (h : bytes.length < 2 ^ 32) (hle : hdrBytes bytes ≤ size bytes) :
    (dataSz bytes).toNat = bytes.length - (hdrBytes bytes).toNat := by
  rw [dataSz, BitVec.toNat_sub_of_le hle, size_toNat h]

end reads

end Muxomucota.Net.Raw
