import Muxomucota.Net.Wire

/-!
# Net — the IP service

The receiving and sending half of `progs/common/ip/ip.c`.  A pipe has one destination: `F_DEST_IP`
sets where the next packet goes, and `incoming` hands a pipe only what comes from there.  Routing is
a parameter: `route dest ifc` is what `find_route` writes and gives back.  The signal that wakes the
reader of a pipe is left out: it may come at any time.
-/

namespace Muxomucota.Net

/-- `struct interface`, as far as IP reads it. -/
structure Interface where
  name : Nat
  ip : Word
  deriving DecidableEq

/-- `struct ip_header`. -/
structure IpHeader where
  hdrlenVersion : Byte
  priority : Byte
  length : Half
  id : Half
  fragOfsFlags : Half
  ttl : Byte
  protoType : Byte
  checksum : Half
  srcIp : Word
  destIp : Word
  deriving DecidableEq

def IpHeader.bytes (h : IpHeader) : List Byte :=
  [h.hdrlenVersion, h.priority] ++ be16 h.length ++ be16 h.id ++ be16 h.fragOfsFlags ++
    [h.ttl, h.protoType] ++ be16 h.checksum ++ be32 h.srcIp ++ be32 h.destIp

/-- An IP packet: `struct ip_header` and the bytes behind it. -/
structure IpPacket extends IpHeader where
  rest : List Byte
  deriving DecidableEq

namespace IpPacket

def bytes (p : IpPacket) : List Byte := p.toIpHeader.bytes ++ p.rest

/-- `(hdrlen_version & 0xf) * 4`. -/
def hdrBytes (p : IpPacket) : Word := (p.hdrlenVersion &&& 0xf).setWidth 32 * 4

/-- `ip.c`'s `calculate_network_checksum` over the first `size` bytes; `none` reads behind the
packet. -/
def checksumOver (p : IpPacket) (size : Word) : Option Half :=
  if size < 2 then some 0
  else if p.bytes.length < size.toNat then none
  else some ((~~~ foldCarries 2 (rawChecksumCalc true (p.bytes.take size.toNat) 0)).setWidth 16)

/-- `p->data`: what `memcpy` takes from behind the header; `none` reads behind the packet. -/
def payload (p : IpPacket) : Option (List Byte) :=
  let length := p.length.setWidth 32 - p.hdrBytes
  let data := (p.bytes.drop p.hdrBytes.toNat).take length.toNat
  if data.length < length.toNat then none else some data

end IpPacket

/-- `struct packet` of the IP service; its `length` is that of `data`. -/
structure IpQueued where
  src : Word
  dest : Word
  protocol : Int
  ttl : Int
  data : List Byte
  deriving DecidableEq

/-- `struct vfs_file` of the IP service. -/
structure IpPipe where
  ifcFixed : Bool
  ifc : Option Interface
  mac : BitVec 64
  dest : Word
  protocol : Int
  ttl : Int
  inqueue : List IpQueued
  deriving DecidableEq

/-- What `find_route` writes through its pointers; it succeeds when the MAC is not zero. -/
abbrev Routing := Word → Option Interface → Option (Interface × BitVec 64)

/-- `service_pipe_set_flag`, `F_DEST_IP`. -/
def setDestIp (route : Routing) (f : IpPipe) (value : Word) : IpPipe × Bool :=
  match route value (if f.ifcFixed then f.ifc else none) with
  | none => ({ f with dest := value }, false)
  | some (ifc, mac) => ({ f with dest := value, ifc := some ifc, mac }, mac ≠ 0)

@[simp] theorem setDestIp_dest (route : Routing) (f : IpPipe) (value : Word) :
    (setDestIp route f value).1.dest = value := by
  unfold setDestIp
  split <;> rfl

@[simp] theorem setDestIp_inqueue (route : Routing) (f : IpPipe) (value : Word) :
    (setDestIp route f value).1.inqueue = f.inqueue := by
  unfold setDestIp
  split <;> rfl

/-- `F_MY_IP`. -/
def myIp (f : IpPipe) : Word := match f.ifc with | some ifc => ifc.ip | none => 0

/-- The packet `service_stream_send` builds on the interface `ifc`. -/
def makeIpPacket (f : IpPipe) (ifc : Interface) (data : List Byte) : IpPacket :=
  let p : IpPacket :=
    { hdrlenVersion := 0x45, priority := 0, length := .ofNat 16 (20 + data.length), id := 0,
      fragOfsFlags := 0x4000, ttl := .ofInt 8 f.ttl, protoType := .ofInt 8 f.protocol,
      checksum := 0, srcIp := ifc.ip, destIp := f.dest, rest := data }
  { p with checksum := (p.checksumOver 20).getD 0 }

/-- `service_stream_send`: what goes to the interface's pipe, and to which MAC. -/
def ipStreamSend (f : IpPipe) (data : List Byte) : Option (Interface × BitVec 64 × IpPacket) :=
  f.ifc.map fun ifc => (ifc, f.mac, makeIpPacket f ifc data)

/-- The filter of `incoming`. -/
def IpPipe.accepts (f : IpPipe) (src : Word) : Bool := f.dest = src ∨ f.dest = 0xffffffff

/-- The `struct packet` that `incoming` fills in. -/
def IpPacket.queued (p : IpPacket) (data : List Byte) : IpQueued :=
  { src := p.srcIp, dest := p.destIp, protocol := p.protoType.toNat, ttl := p.ttl.toNat, data }

/-- `incoming` for one pipe. -/
def ipIncomingAt (p : IpPacket) (f : IpPipe) : Option IpPipe :=
  if ¬ f.accepts p.srcIp then some f
  else do
    let data ← p.payload
    some { f with inqueue := f.inqueue ++ [p.queued data] }

/-- `incoming` keeps a packet: it is for the interface or for everybody, and its header is
intact. -/
def IpPacket.arrives (p : IpPacket) (i : Interface) : Option Bool :=
  if p.destIp ≠ 0xffffffff ∧ p.destIp ≠ i.ip then some false
  else (p.checksumOver p.hdrBytes).map fun sum => sum = 0

/-- One round of the loop of `incoming` on the interface `i`, for one pipe. -/
def ipIncoming (i : Interface) (p : IpPacket) (f : IpPipe) : Option IpPipe := do
  if ← p.arrives i then ipIncomingAt p f else some f

end Muxomucota.Net
