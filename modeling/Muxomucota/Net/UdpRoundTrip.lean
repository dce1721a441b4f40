import Muxomucota.Net.Reception

/-!
# Net — a datagram from end to end

A UDP send on one host, the IP and Ethernet services below it, and the same services on the other host.
The Ethernet service fills a short frame up with zeros, which the other side takes for data of the IP
packet.
-/

namespace Muxomucota.Net

/-- The Ethernet service's `service_stream_send` for a card: the data of the frame. -/
def ethStreamSend (data : List Byte) : Option (List Byte) :=
  if 1500 < data.length then none
  else
    let frameLen := if data.length < 46 then 46 else data.length
    some (data ++ List.replicate (frameLen - data.length) 0)

/-- The UDP service's IP pipe as `main` sets it up: made without a path, and with its protocol set. -/
structure IpPipe.OfUdp (f : IpPipe) : Prop where
  ifcFixed : f.ifcFixed = false
  protocol : f.protocol = 0x11

/-- A connection of the port is given the packet. -/
def UdpConnection.given (port : Half) (x : UdpPacket) (c : UdpConnection) : UdpConnection :=
  if c.port = port then { c with inqueue := c.inqueue ++ [x] } else c

/-! ### The IP packet -/

section ip

variable {f : IpPipe} {ifc i : Interface} {data pad : List Byte}

theorem IpHeader.bytes_length (h : IpHeader) : h.bytes.length = 20 := rfl

/-- The checksum counts as itself. -/
theorem IpHeader.sum_checksum (h : IpHeader) (c : Half) :
    rawChecksumCalc true { h with checksum := c }.bytes 0 =
      rawChecksumCalc true { h with checksum := 0 }.bytes 0 + c.setWidth 32 := by
  have hz : (0 : Half).setWidth 32 = 0#32 := rfl
  simp only [IpHeader.bytes, List.append_assoc, List.cons_append, List.nil_append, rawChecksumCalc,
    Bool.not_true, Bool.not_false, rawChecksumCalc_be16]
  rw [rawChecksumCalc_add, hz, BitVec.add_zero]

theorem IpPacket.checksumOver_header (p : IpPacket) :
    p.checksumOver 20 =
      some ((~~~ foldCarries 2 (rawChecksumCalc true p.toIpHeader.bytes 0)).setWidth 16) := by
  have hlen : ¬ p.bytes.length < (20 : Word).toNat := by
    rw [IpPacket.bytes, List.length_append, IpHeader.bytes_length]
    exact Nat.not_lt.mpr (Nat.le_add_right 20 _)
  have htake : p.bytes.take (20 : Word).toNat = p.toIpHeader.bytes :=
    List.take_left' p.toIpHeader.bytes_length
  rw [checksumOver, if_neg (by decide), if_neg hlen, htake]

/-- What is behind the header of the packet that arrives. -/
def IpPacket.padded (p : IpPacket) (pad : List Byte) : IpPacket := { p with rest := p.rest ++ pad }

@[simp] theorem IpPacket.padded_bytes (p : IpPacket) (pad : List Byte) :
    (p.padded pad).bytes = p.bytes ++ pad :=
  (List.append_assoc ..).symm

theorem makeIpPacket_hdrBytes : ((makeIpPacket f ifc data).padded pad).hdrBytes = 20 := by
  unfold IpPacket.hdrBytes
  change ((0x45 : Byte) &&& 0xf).setWidth 32 * 4 = (20 : Word)
  decide

theorem makeIpPacket_checksum :
    (makeIpPacket f ifc data).checksum =
      (~~~ foldCarries 2 (rawChecksumCalc true
        { (makeIpPacket f ifc data).toIpHeader with checksum := 0 }.bytes 0)).setWidth 16 := by
  unfold makeIpPacket
  dsimp only
  rw [IpPacket.checksumOver_header]
  rfl

/-- The packet passes the tests of the interface it is for. -/
theorem makeIpPacket_arrives (h : i.ip = f.dest) :
    ((makeIpPacket f ifc data).padded pad).arrives i = some true := by
  have hsum := rawChecksumCalc_le true
    { (makeIpPacket f ifc data).toIpHeader with checksum := 0 }.bytes 0
  have hall := (makeIpPacket f ifc data).toIpHeader.sum_checksum (makeIpPacket f ifc data).checksum
  have hbound := complement_of_complement (Nat.lt_of_le_of_lt (Nat.add_le_add_right hsum 65535)
    (by rw [IpHeader.bytes_length]; decide))
  rw [← makeIpPacket_checksum, ← hall] at hbound
  unfold IpPacket.arrives
  rw [if_neg fun hd => hd.2 h.symm, makeIpPacket_hdrBytes, IpPacket.checksumOver_header,
    Option.map_some]
  exact congrArg some (decide_eq_true hbound)

/-- The data of the packet are what was sent, without the padding. -/
theorem makeIpPacket_payload (h : 20 + data.length < 65536) :
    ((makeIpPacket f ifc data).padded pad).payload = some data := by
  have hlength : ((makeIpPacket f ifc data).padded pad).length.setWidth 32 -
      ((makeIpPacket f ifc data).padded pad).hdrBytes = BitVec.ofNat 32 data.length := by
    rw [makeIpPacket_hdrBytes]
    change (BitVec.ofNat 16 (20 + data.length)).setWidth 32 - 20#32 = _
    refine BitVec.eq_of_toNat_eq ?_
    rw [BitVec.toNat_sub, BitVec.toNat_setWidth, BitVec.toNat_ofNat, BitVec.toNat_ofNat,
      BitVec.toNat_ofNat]
    omega
  have hdrop : ((makeIpPacket f ifc data).padded pad).bytes.drop (20 : Word).toNat = data ++ pad :=
    List.drop_left' (IpHeader.bytes_length _)
  unfold IpPacket.payload
  dsimp only
  rw [hlength, makeIpPacket_hdrBytes, hdrop, BitVec.toNat_ofNat,
    Nat.mod_eq_of_lt (by omega : data.length < 2 ^ 32), List.take_left' rfl,
    if_neg (Nat.lt_irrefl _)]

end ip

/-! ### The UDP datagram -/

section udp

variable {c : UdpConnection} {myIp : Word} {data : List Byte}

/-- The checksum counts as itself. -/
theorem UdpDatagram.sum_checksum (d : UdpDatagram) (checksum : Half) (sum : Word) :
    rawChecksumCalc true { d with checksum }.bytes sum =
      rawChecksumCalc true { d with checksum := 0 }.bytes sum + checksum.setWidth 32 := by
  have hz : (0 : Half).setWidth 32 = 0#32 := rfl
  simp only [UdpDatagram.bytes, UdpHeader.bytes, List.append_assoc, rawChecksumCalc_be16]
  rw [rawChecksumCalc_add, hz, BitVec.add_zero]

theorem UdpDatagram.bytes_length (d : UdpDatagram) : d.bytes.length = 8 + d.rest.length := by
  rw [UdpDatagram.bytes, List.length_append]
  rfl

/-- Up to 2³¹ bytes the `int` reaches. -/
theorem UdpDatagram.counted_eq {d : UdpDatagram} (h : d.bytes.length < 2 ^ 31) :
    d.counted = d.bytes := by
  have hlen := d.bytes_length
  have hsize : d.size.toNat = d.bytes.length := by
    rw [UdpDatagram.size, BitVec.toNat_ofNat, hlen]
    exact Nat.mod_eq_of_lt (by omega)
  have hint : d.size.toInt.toNat = d.bytes.length := by
    rw [BitVec.toInt_eq_toNat_of_lt (by omega), hsize, Int.toNat_natCast]
  rw [counted, hint, List.take_length]

/-- The datagram passes the test of the receiver. -/
theorem makeUdpDatagram_intact (h : data.length ≤ 1472) :
    (makeUdpDatagram c myIp data).intact myIp c.destIp = true := by
  refine decide_eq_true (.inr (.inr ?_))
  generalize hd : (
    { srcPort := c.port, destPort := c.destPort, length := .ofNat 16 (8 + data.length),
      checksum := 0, rest := data } : UdpDatagram) = d
  have hrest : d.rest = data := hd ▸ rfl
  have hzero : ({ d with checksum := 0 } : UdpDatagram) = d := hd ▸ rfl
  have hmake : makeUdpDatagram c myIp data =
      { d with
        checksum := calculateNetworkChecksum (pseudoIpHeader myIp c.destIp 0x11 d.size) d.bytes } :=
    hd ▸ rfl
  rw [hmake]
  have hshort : ∀ checksum, ({ d with checksum } : UdpDatagram).bytes.length < 2 ^ 31 := by
    intro checksum
    rw [UdpDatagram.bytes_length, hrest]
    omega
  rw [UdpDatagram.counted_eq (hshort _)]
  change calculateNetworkChecksum (pseudoIpHeader myIp c.destIp 0x11 d.size) _ = 0
  unfold calculateNetworkChecksum
  rw [UdpDatagram.sum_checksum, hzero]
  refine complement_of_complement ?_
  have hpsip := rawChecksumCalc_le true (pseudoIpHeader myIp c.destIp 0x11 d.size) 0
  have hpsip' : (pseudoIpHeader myIp c.destIp 0x11 d.size).length = 12 := rfl
  have hsum := rawChecksumCalc_le true d.bytes
    (rawChecksumCalc true (pseudoIpHeader myIp c.destIp 0x11 d.size) 0)
  rw [UdpDatagram.bytes_length, hrest] at hsum
  rw [hpsip'] at hpsip
  have hz : (0 : Word).toNat = 0 := rfl
  omega

theorem makeUdpDatagram_payload (h : 8 + data.length < 65536) :
    (makeUdpDatagram c myIp data).payload = some data := by
  have hlength : (makeUdpDatagram c myIp data).length.setWidth 32 - 8 =
      BitVec.ofNat 32 data.length := by
    change (BitVec.ofNat 16 (8 + data.length)).setWidth 32 - 8#32 = _
    refine BitVec.eq_of_toNat_eq ?_
    rw [BitVec.toNat_sub, BitVec.toNat_setWidth, BitVec.toNat_ofNat, BitVec.toNat_ofNat,
      BitVec.toNat_ofNat]
    omega
  have hrest : (makeUdpDatagram c myIp data).rest = data := rfl
  unfold UdpDatagram.payload
  dsimp only
  rw [hlength, hrest, BitVec.toNat_ofNat, Nat.mod_eq_of_lt (by omega : data.length < 2 ^ 32),
    List.take_length, if_neg (Nat.lt_irrefl _)]

/-- A round of `incoming` with an intact datagram gives it to the connections of its port. -/
theorem udpRound_intact {q : IpQueued} {d : UdpDatagram} (hproto : q.protocol = 0x11)
    (hd : UdpDatagram.ofBytes? q.data = some d) (hintact : d.intact q.src q.dest = true)
    (hdata : d.payload = some data) (cs : List UdpConnection) :
    udpRound q cs =
      some (cs.map (UdpConnection.given d.destPort ⟨q.src, d.srcPort, data⟩)) := by
  have hgiven : (fun c : UdpConnection =>
      if decide (c.port = d.destPort) then d.enqueue q.src data c else c) =
        UdpConnection.given d.destPort ⟨q.src, d.srcPort, data⟩ := by
    funext c
    rw [UdpConnection.given]
    simp only [decide_eq_true_eq]
    rfl
  rw [udpRound_eq hproto hd, if_pos hintact, hdata, mapM_handOut_some, handedOut, hgiven]

end udp

/-! ### From end to end -/

theorem ethStreamSend_bytes {data : List Byte} (h : data.length ≤ 1500) :
    ∃ pad, ethStreamSend data = some (data ++ pad) := by
  unfold ethStreamSend
  rw [if_neg (by omega)]
  exact ⟨_, rfl⟩

/-- The IP pipe of the UDP service finds the same way twice. -/
theorem setDestIp_twice {f : IpPipe} (hf : f.OfUdp) (route : Routing) (value : Word) :
    (setDestIp route (setDestIp route f value).1 value).1 = (setDestIp route f value).1 := by
  unfold setDestIp
  cases h : route value (if f.ifcFixed then f.ifc else none) with
  | none =>
      dsimp only
      rw [h]
  | some way =>
      rw [hf.ifcFixed, if_neg (by decide)] at h
      dsimp only
      rw [hf.ifcFixed, if_neg (by decide), h]

theorem setDestIp_protocol (route : Routing) (f : IpPipe) (value : Word) :
    (setDestIp route f value).1.protocol = f.protocol := by
  unfold setDestIp
  split <;> rfl

/-- What a UDP send makes: a packet from the interface's address to the connection's destination. -/
theorem udpStreamSend_eq {route : Routing} {f f' : IpPipe} {c : UdpConnection} {data : List Byte}
    {ifc : Interface} {mac : BitVec 64} {p : IpPacket} (hf : f.OfUdp)
    (h : udpStreamSend route f c data = (f', some (ifc, mac, p))) :
    f'.dest = c.destIp ∧ f'.protocol = 0x11 ∧
      p = makeIpPacket f' ifc (makeUdpDatagram c ifc.ip data).bytes := by
  unfold udpStreamSend at h
  dsimp only at h
  rw [setDestIp_twice hf] at h
  obtain ⟨hf', hsend⟩ := Prod.mk.inj h
  rw [hf'] at hsend
  obtain ⟨ifc', hifc, heq⟩ := Option.map_eq_some_iff.mp hsend
  obtain ⟨hi, heq⟩ := Prod.mk.inj heq
  obtain ⟨-, hp⟩ := Prod.mk.inj heq
  have hmy : myIp f' = ifc.ip := by rw [myIp, hifc, hi]
  refine ⟨hf' ▸ setDestIp_dest .., ?_, ?_⟩
  · rw [← hf', setDestIp_protocol, hf.protocol]
  · rw [← hp, hmy, hi]

/-- **A datagram arrives as it was sent.**  The packet of a UDP send goes through the Ethernet service,
passes the tests of the interface with the destination's address and of a pipe whose filter lets it in,
and passes the test of the UDP service, which gives the payload, the sender's address and its port to
the connections of the destination port. -/
theorem udp_round_trip {route : Routing} {f f' : IpPipe} {c : UdpConnection} {data : List Byte}
    {ifc : Interface} {mac : BitVec 64} {p : IpPacket} (hf : f.OfUdp) (hlen : data.length ≤ 1472)
    (hsend : udpStreamSend route f c data = (f', some (ifc, mac, p))) :
    ∃ frame p', ethStreamSend p.bytes = some frame ∧ IpPacket.ofBytes? frame = some p' ∧
      ∀ (i : Interface) (g : IpPipe), i.ip = c.destIp → g.accepts ifc.ip = true →
        p'.arrives i = some true ∧
        ∃ q d, ipIncoming i p' g = some { g with inqueue := g.inqueue ++ [q] } ∧
          UdpDatagram.ofBytes? q.data = some d ∧ d.intact q.src q.dest = true ∧
          ∀ cs, udpRound q cs =
            some (cs.map (UdpConnection.given c.destPort ⟨ifc.ip, c.port, data⟩)) := by
  obtain ⟨hdest, hproto, rfl⟩ := udpStreamSend_eq hf hsend
  have hsize : (makeUdpDatagram c ifc.ip data).bytes.length = 8 + data.length :=
    UdpDatagram.bytes_length _
  generalize hbytes : (makeUdpDatagram c ifc.ip data).bytes = bytes at hsize
  obtain ⟨pad, hframe⟩ : ∃ pad, ethStreamSend (makeIpPacket f' ifc bytes).bytes =
      some ((makeIpPacket f' ifc bytes).bytes ++ pad) := by
    refine ethStreamSend_bytes ?_
    rw [IpPacket.bytes, List.length_append, IpHeader.bytes_length]
    change 20 + bytes.length ≤ 1500
    omega
  refine ⟨_, (makeIpPacket f' ifc bytes).padded pad, hframe, ?_, ?_⟩
  · rw [← IpPacket.padded_bytes]
    exact IpPacket.ofBytes?_bytes _
  intro i g hi hg
  have harr : ((makeIpPacket f' ifc bytes).padded pad).arrives i = some true :=
    makeIpPacket_arrives (hi.trans hdest.symm)
  have hpay : ((makeIpPacket f' ifc bytes).padded pad).payload = some bytes :=
    makeIpPacket_payload (by omega)
  -- what the IP service hands over
  have hsrc : (((makeIpPacket f' ifc bytes).padded pad).queued bytes).src = ifc.ip := rfl
  have hdst : (((makeIpPacket f' ifc bytes).padded pad).queued bytes).dest = c.destIp := hdest
  have hprotocol : (((makeIpPacket f' ifc bytes).padded pad).queued bytes).protocol = 0x11 := by
    change ((BitVec.ofInt 8 f'.protocol).toNat : Int) = 0x11
    rw [hproto]
    rfl
  have hd : UdpDatagram.ofBytes? (((makeIpPacket f' ifc bytes).padded pad).queued bytes).data =
      some (makeUdpDatagram c ifc.ip data) := by
    change UdpDatagram.ofBytes? bytes = _
    rw [← hbytes]
    exact UdpDatagram.ofBytes?_bytes _
  have hint : (makeUdpDatagram c ifc.ip data).intact
      (((makeIpPacket f' ifc bytes).padded pad).queued bytes).src
      (((makeIpPacket f' ifc bytes).padded pad).queued bytes).dest = true := by
    rw [hsrc, hdst]
    exact makeUdpDatagram_intact hlen
  refine ⟨harr, ((makeIpPacket f' ifc bytes).padded pad).queued bytes, makeUdpDatagram c ifc.ip data,
    ?_, hd, hint, fun cs => ?_⟩
  · have hacc : g.accepts ((makeIpPacket f' ifc bytes).padded pad).srcIp = true := hg
    unfold ipIncoming ipIncomingAt
    rw [harr, Option.bind_eq_bind, Option.bind_some, if_pos rfl, if_neg (not_not.mpr hacc), hpay]
    rfl
  · rw [udpRound_intact hprotocol hd hint (makeUdpDatagram_payload (by omega)), hsrc]
    rfl

/-- Three bytes, in a frame that is filled up, from port 1024 of the host 20 to port 53 of the host
10. -/
theorem udp_round_trip_three :
    ∃ f' ifc mac p, ∃ frame p' g' q,
      udpStreamSend (fun _ _ => some (⟨0, 20⟩, 1)) ⟨false, none, 0, 0, 0x11, 128, []⟩
        ⟨10, 1024, 53, []⟩ [1, 2, 3] = (f', some (ifc, mac, p)) ∧
      ethStreamSend p.bytes = some frame ∧ IpPacket.ofBytes? frame = some p' ∧
      ipIncoming ⟨0, 10⟩ p' ⟨false, none, 0, 20, 0x11, 128, []⟩ = some g' ∧ g'.inqueue = [q] ∧
      udpRound q [⟨20, 53, 1024, []⟩] = some [⟨20, 53, 1024, [⟨20, 1024, [1, 2, 3]⟩]⟩] := by
  have hsend : udpStreamSend (fun _ _ => some (⟨0, 20⟩, 1)) ⟨false, none, 0, 0, 0x11, 128, []⟩
      ⟨10, 1024, 53, []⟩ [1, 2, 3] = (_, some (_, _, _)) := rfl
  obtain ⟨frame, p', hframe, hp', h⟩ := udp_round_trip ⟨rfl, rfl⟩ (by decide) hsend
  obtain ⟨-, q, d, hq, -, -, hround⟩ :=
    h ⟨0, 10⟩ ⟨false, none, 0, 20, 0x11, 128, []⟩ rfl (by decide)
  exact ⟨_, _, _, _, frame, p', _, q, hsend, hframe, hp', hq, rfl, hround [⟨20, 53, 1024, []⟩]⟩

end Muxomucota.Net
