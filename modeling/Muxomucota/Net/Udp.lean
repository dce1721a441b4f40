import Muxomucota.Net.Ip

/-!
# Net — the UDP service

`progs/common/udp/udp.c`.  All connections share the service's one IP pipe: every send sets the
destination of that pipe, and `incoming` runs what the pipe hands over against all connections.
-/

namespace Muxomucota.Net

/-- `struct udp_header`. -/
structure UdpHeader where
  srcPort : Half
  destPort : Half
  length : Half
  checksum : Half
  deriving DecidableEq

def UdpHeader.bytes (h : UdpHeader) : List Byte :=
  be16 h.srcPort ++ be16 h.destPort ++ be16 h.length ++ be16 h.checksum

/-- A UDP datagram: `struct udp_header` and the bytes behind it. -/
structure UdpDatagram extends UdpHeader where
  rest : List Byte
  deriving DecidableEq

namespace UdpDatagram

def bytes (d : UdpDatagram) : List Byte := d.toUdpHeader.bytes ++ d.rest

/-- A received buffer as a datagram, if it is long enough for a header. -/
def ofBytes? : List Byte → Option UdpDatagram
  | s₀ :: s₁ :: d₀ :: d₁ :: l₀ :: l₁ :: c₀ :: c₁ :: rest =>
      some
        { srcPort := half s₀ s₁, destPort := half d₀ d₁, length := half l₀ l₁,
          checksum := half c₀ c₁, rest }
  | _ => none

/-- `sizeof(*udph)` and the data. -/
def size (d : UdpDatagram) : Word := .ofNat 32 (8 + d.rest.length)

/-- What `raw_checksum_calc` reads of the datagram: it counts in an `int`. -/
def counted (d : UdpDatagram) : List Byte := d.bytes.take d.size.toInt.toNat

/-- The test of `incoming`: no checksum, the one that stands for zero, or the right one. -/
def intact (d : UdpDatagram) (src dest : Word) : Bool :=
  d.checksum = 0 ∨ d.checksum = 0xffff ∨
    calculateNetworkChecksum (pseudoIpHeader src dest 0x11 d.size) d.counted = 0

/-- `p->data`, of the length the header says; `none` reads behind the datagram. -/
def payload (d : UdpDatagram) : Option (List Byte) :=
  let length : Word := d.length.setWidth 32 - 8
  let data := d.rest.take length.toNat
  if data.length < length.toNat then none else some data

end UdpDatagram

/-- `struct packet` of the UDP service. -/
structure UdpPacket where
  srcIp : Word
  srcPort : Half
  data : List Byte
  deriving DecidableEq

/-- `struct vfs_file` of the UDP service. -/
structure UdpConnection where
  destIp : Word
  port : Half
  destPort : Half
  inqueue : List UdpPacket
  deriving DecidableEq

/-- The datagram `service_stream_send` builds. -/
def makeUdpDatagram (c : UdpConnection) (myIp : Word) (data : List Byte) : UdpDatagram :=
  let d : UdpDatagram :=
    { srcPort := c.port, destPort := c.destPort, length := .ofNat 16 (8 + data.length),
      checksum := 0, rest := data }
  { d with checksum := calculateNetworkChecksum (pseudoIpHeader myIp c.destIp 0x11 d.size) d.bytes }

/-- `service_stream_send`: the IP pipe afterwards and what leaves through it. -/
def udpStreamSend (route : Routing) (f : IpPipe) (c : UdpConnection) (data : List Byte) :
    IpPipe × Option (Interface × BitVec 64 × IpPacket) :=
  let f := (setDestIp route f c.destIp).1
  let d := makeUdpDatagram c (myIp f) data
  let f := (setDestIp route f c.destIp).1
  (f, ipStreamSend f d.bytes)

/-- `incoming` for one connection. -/
def udpIncomingAt (src : Word) (d : UdpDatagram) (c : UdpConnection) : Option UdpConnection :=
  if d.destPort ≠ c.port then some c
  else do
    let data ← d.payload
    some { c with inqueue := c.inqueue ++ [{ srcIp := src, srcPort := d.srcPort, data }] }

/-- One round of the loop of `incoming`: what is first in the IP pipe is flushed, discarded or run
against all connections. -/
def udpRound (q : IpQueued) (cs : List UdpConnection) : Option (List UdpConnection) :=
  if q.protocol ≠ 0x11 then some cs
  else do
    let d ← UdpDatagram.ofBytes? q.data
    if ¬ d.intact q.src q.dest then some cs
    else cs.mapM (udpIncomingAt q.src d)

/-- `service_stream_recv`: the first packet leaves the queue; `none` waits for one. -/
def udpStreamRecv (c : UdpConnection) (size : Nat) : Option (UdpConnection × List Byte) :=
  match c.inqueue with
  | [] => none
  | p :: queue => some ({ c with inqueue := queue }, p.data.take size)

end Muxomucota.Net
