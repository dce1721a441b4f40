import Muxomucota.Net.Checksum

/-!
# Net — what an untrusted packet makes the handlers read

The `incoming` of the IP and of the UDP service on a buffer of any bytes.  Each checks a checksum, then
cuts the payload out by a length the packet announces, and neither compares that length with what was
received: `none` is a read behind the received bytes, or a copy of nearly 2³² bytes after the announced
length wrapped.
-/

namespace Muxomucota.Net

/-! ### Handing out -/

section handOut

variable {α β : Type*} {wants : α → Bool} {put : β → α → α} {b? : Option β} {xs : List α}

/-- Somebody who wants the message is given it, if its contents can be read. -/
def handOut (wants : α → Bool) (put : β → α → α) (b? : Option β) (x : α) : Option α :=
  if wants x then b?.map fun b => put b x else some x

/-- Everybody who wants the message has it. -/
def handedOut (wants : α → Bool) (put : β → α → α) (b : β) (xs : List α) : List α :=
  xs.map fun x => if wants x then put b x else x

theorem mapM_handOut_of_not (h : ∀ x ∈ xs, wants x = false) :
    xs.mapM (handOut wants put b?) = some xs := by
  induction xs with
  | nil => rfl
  | cons x xs ih =>
      have hx : handOut wants put b? x = some x := by
        rw [handOut, h x (List.mem_cons_self ..), if_neg Bool.false_ne_true]
      rw [List.mapM_cons, hx, ih fun y hy => h y (List.mem_cons_of_mem x hy)]
      rfl

theorem mapM_handOut_none (h : ∃ x ∈ xs, wants x = true) :
    xs.mapM (handOut wants put none) = none := by
  induction xs with
  | nil =>
      obtain ⟨x, hx, -⟩ := h
      exact absurd hx List.not_mem_nil
  | cons x xs ih =>
      rw [List.mapM_cons]
      by_cases hx : wants x = true
      · rw [handOut, if_pos hx]
        rfl
      · have hxs : ∃ y ∈ xs, wants y = true := by
          obtain ⟨y, hy, hw⟩ := h
          rcases List.mem_cons.mp hy with rfl | hy
          · exact absurd hw hx
          · exact ⟨y, hy, hw⟩
        rw [handOut, if_neg hx, ih hxs]
        rfl

theorem mapM_handOut_some (b : β) (xs : List α) :
    xs.mapM (handOut wants put (some b)) = some (handedOut wants put b xs) := by
  have h : handOut wants put (some b) = fun x => pure (if wants x then put b x else x) := by
    funext x
    unfold handOut
    split <;> rfl
  rw [h, List.mapM_pure]
  rfl

theorem handedOut_ne (hput : ∀ b x, put b x ≠ x) {b : β} (h : ∃ x ∈ xs, wants x = true) :
    handedOut wants put b xs ≠ xs := by
  obtain ⟨x, hx, hw⟩ := h
  intro heq
  have hfix : (if wants x then put b x else x) = x :=
    List.map_inj_left.mp (heq.trans (List.map_id xs).symm) x hx
  rw [if_pos hw] at hfix
  exact hput b x hfix

/-- **The contents are handed out or nothing is**, and only `Sound` contents, exactly when they are
`Sound` or nobody wants them. -/
theorem mapM_handOut_iff (hput : ∀ b x, put b x ≠ x) {Sound : Prop} {b : β}
    (hsound : Sound → b? = some b) :
    (∃ ys, xs.mapM (handOut wants put b?) = some ys ∧
      (ys = xs ∨ Sound ∧ ys = handedOut wants put b xs)) ↔
      ((∃ x ∈ xs, wants x = true) → Sound) := by
  constructor
  · rintro ⟨ys, hys, rfl | ⟨h, -⟩⟩ hwants
    · cases hb? : b? with
      | none =>
          rw [hb?, mapM_handOut_none hwants] at hys
          exact absurd hys (Option.some_ne_none _).symm
      | some b =>
          rw [hb?, mapM_handOut_some] at hys
          exact absurd (Option.some.inj hys) (handedOut_ne hput hwants)
    · exact h
  · intro h
    by_cases hwants : ∃ x ∈ xs, wants x = true
    · rw [hsound (h hwants)]
      exact ⟨_, mapM_handOut_some b xs, .inr ⟨h hwants, rfl⟩⟩
    · refine ⟨xs, mapM_handOut_of_not fun x hx => ?_, .inl rfl⟩
      exact Bool.eq_false_iff.mpr fun hw => hwants ⟨x, hx, hw⟩

end handOut

/-! ### Headers in a buffer -/

/-- A length without its header, where the header is not longer. -/
theorem toNat_length_sub {length : Half} {header : Word} (h : header.toNat ≤ length.toNat) :
    (length.setWidth 32 - header).toNat = length.toNat - header.toNat := by
  have hlength : (length.setWidth 32).toNat = length.toNat := by
    rw [BitVec.toNat_setWidth]
    exact Nat.mod_eq_of_lt (Nat.lt_trans length.isLt (by decide))
  rw [BitVec.toNat_sub_of_le (by rwa [BitVec.le_def, hlength]), hlength]

theorem be16_half (a b : Byte) : be16 (half a b) = [a, b] := by
  have ha : (half a b).extractLsb' 8 8 = a := BitVec.extractLsb'_append_eq_left
  have hb : (half a b).extractLsb' 0 8 = b := BitVec.extractLsb'_append_eq_right
  rw [be16, ha, hb]

theorem be32_word (a b c d : Byte) : be32 (word a b c d) = [a, b, c, d] := by
  have ha : (word a b c d).extractLsb' 24 8 = a := by
    rw [word, BitVec.extractLsb'_append_eq_of_le (by decide),
      BitVec.extractLsb'_append_eq_of_le (by decide)]
    exact BitVec.extractLsb'_append_eq_left
  have hb : (word a b c d).extractLsb' 16 8 = b := by
    rw [word, BitVec.extractLsb'_append_eq_of_le (by decide),
      BitVec.extractLsb'_append_eq_of_le (by decide)]
    exact BitVec.extractLsb'_append_eq_right
  have hc : (word a b c d).extractLsb' 8 8 = c := by
    rw [word, BitVec.extractLsb'_append_eq_of_le (by decide)]
    exact BitVec.extractLsb'_append_eq_right
  have hd : (word a b c d).extractLsb' 0 8 = d := BitVec.extractLsb'_append_eq_right
  rw [be32, ha, hb, hc, hd]

namespace IpPacket

theorem bytes_of_ofBytes? {bytes : List Byte} {p : IpPacket} (h : ofBytes? bytes = some p) :
    p.bytes = bytes := by
  unfold ofBytes? at h
  split at h
  · obtain rfl := Option.some.inj h
    simp only [IpPacket.bytes, IpHeader.bytes, be16_half, be32_word, List.cons_append,
      List.nil_append]
  · exact absurd h (Option.some_ne_none _).symm

/-- The header is read inside a buffer that is long enough, and only there. -/
theorem ofBytes?_isSome {bytes : List Byte} : (ofBytes? bytes).isSome = true ↔ 20 ≤ bytes.length := by
  constructor
  · unfold ofBytes?
    split
    · exact fun _ => Nat.le_add_left 20 _
    · exact fun h => absurd h Bool.false_ne_true
  · intro h
    iterate 20
      obtain - | ⟨_, bytes⟩ := bytes
      · exact absurd h (by simp)
    rfl

end IpPacket

namespace UdpDatagram

theorem bytes_of_ofBytes? {bytes : List Byte} {d : UdpDatagram} (h : ofBytes? bytes = some d) :
    d.bytes = bytes := by
  unfold ofBytes? at h
  split at h
  · obtain rfl := Option.some.inj h
    simp only [UdpDatagram.bytes, UdpHeader.bytes, be16_half, List.cons_append, List.nil_append]
  · exact absurd h (Option.some_ne_none _).symm

theorem ofBytes?_isSome {bytes : List Byte} : (ofBytes? bytes).isSome = true ↔ 8 ≤ bytes.length := by
  constructor
  · unfold ofBytes?
    split
    · exact fun _ => Nat.le_add_left 8 _
    · exact fun h => absurd h Bool.false_ne_true
  · intro h
    iterate 8
      obtain - | ⟨_, bytes⟩ := bytes
      · exact absurd h (by simp)
    rfl

end UdpDatagram

/-! ### The IP service -/

/-- The packet is for the interface or for everybody. -/
def IpPacket.IsFor (p : IpPacket) (i : Interface) : Prop := p.destIp = 0xffffffff ∨ p.destIp = i.ip

/-- The header is complete, and it announces what is behind it and was received. -/
structure IpPacket.WellSized (p : IpPacket) (received : Nat) : Prop where
  header : 20 ≤ p.hdrBytes.toNat
  behind : p.hdrBytes.toNat ≤ p.length.toNat
  inside : p.length.toNat ≤ received

/-- `incoming` appends the packet to the queue of a pipe. -/
def IpPacket.enqueue (p : IpPacket) (data : List Byte) (f : IpPipe) : IpPipe :=
  { f with inqueue := f.inqueue ++ [p.queued data] }

/-- One round of the loop of `incoming` on the interface `i`: what was received, for all pipes. -/
def ipReceive (i : Interface) (bytes : List Byte) (cs : List IpPipe) : Option (List IpPipe) := do
  let p ← IpPacket.ofBytes? bytes
  if ← p.arrives i then cs.mapM (ipIncomingAt p) else some cs

/-- What is received is read inside its bounds, and either dropped or given to every pipe whose filter
matches: the bytes from the header length to the total length, in a packet of sound lengths. -/
def IpReception (i : Interface) (bytes : List Byte) (cs : List IpPipe) : Prop :=
  ∃ cs', ipReceive i bytes cs = some cs' ∧
    (cs' = cs ∨ ∃ p, IpPacket.ofBytes? bytes = some p ∧ p.WellSized bytes.length ∧
      cs' = handedOut (fun f => f.accepts p.srcIp) p.enqueue
        ((bytes.drop p.hdrBytes.toNat).take (p.length.toNat - p.hdrBytes.toNat)) cs)

section ip

variable {i : Interface} {bytes : List Byte} {cs : List IpPipe} {p : IpPacket}

theorem IpPacket.enqueue_ne (p : IpPacket) (data : List Byte) (f : IpPipe) : p.enqueue data f ≠ f := by
  intro h
  have hqueue : f.inqueue ++ [p.queued data] = f.inqueue := congrArg IpPipe.inqueue h
  exact absurd (List.append_right_eq_self.mp hqueue) (List.cons_ne_nil _ _)

theorem ipIncomingAt_eq (p : IpPacket) :
    ipIncomingAt p = handOut (fun f => f.accepts p.srcIp) p.enqueue p.payload := by
  funext f
  unfold ipIncomingAt handOut
  by_cases h : f.accepts p.srcIp = true
  · rw [if_neg (not_not.mpr h), if_pos h]
    cases p.payload <;> rfl
  · rw [if_pos h, if_neg h]

/-- With sound lengths the subtraction does not wrap, and the copy stays inside. -/
theorem IpPacket.WellSized.payload (h : p.WellSized p.bytes.length) :
    p.payload =
      some ((p.bytes.drop p.hdrBytes.toNat).take (p.length.toNat - p.hdrBytes.toNat)) := by
  have hlen : ((p.bytes.drop p.hdrBytes.toNat).take (p.length.toNat - p.hdrBytes.toNat)).length =
      p.length.toNat - p.hdrBytes.toNat := by
    rw [List.length_take, List.length_drop]
    exact Nat.min_eq_left (Nat.sub_le_sub_right h.inside _)
  unfold IpPacket.payload
  dsimp only
  rw [toNat_length_sub h.behind, hlen, if_neg (Nat.lt_irrefl _)]

/-- The header checksum is taken over what was received, unless the header length is beyond it. -/
theorem IpPacket.checksumOver_eq_none (hlen : 20 ≤ p.bytes.length) :
    p.checksumOver p.hdrBytes = none ↔ p.bytes.length < p.hdrBytes.toNat := by
  unfold checksumOver
  split
  · rename_i h
    have h2 : p.hdrBytes.toNat < 2 := h
    exact ⟨fun h => absurd h (Option.some_ne_none _), fun h => by omega⟩
  · split
    · rename_i h
      exact ⟨fun _ => h, fun _ => rfl⟩
    · rename_i h
      exact ⟨fun h => absurd h (Option.some_ne_none _), fun h' => absurd h' h⟩

theorem IpPacket.arrives_of_not (h : ¬ p.IsFor i) : p.arrives i = some false :=
  if_pos (not_or.mp h)

theorem IpPacket.arrives_of_isFor (h : p.IsFor i) :
    p.arrives i = (p.checksumOver p.hdrBytes).map fun sum => decide (sum = 0) :=
  if_neg fun hnot : p.destIp ≠ 0xffffffff ∧ p.destIp ≠ i.ip => h.elim hnot.1 hnot.2

/-- A buffer that holds a header goes to all pipes, if the packet arrives. -/
theorem ipReceive_eq {b : Bool} (hp : IpPacket.ofBytes? bytes = some p) (harr : p.arrives i = some b) :
    ipReceive i bytes cs =
      if b then cs.mapM (handOut (fun f => f.accepts p.srcIp) p.enqueue p.payload) else some cs := by
  rw [ipReceive, hp, Option.bind_eq_bind, Option.bind_some, harr, Option.bind_eq_bind,
    Option.bind_some, ipIncomingAt_eq]

/-- For one pipe, this is the round on the packet in the buffer. -/
theorem ipReceive_one (hp : IpPacket.ofBytes? bytes = some p) (f : IpPipe) :
    ipReceive i bytes [f] = (ipIncoming i p f).map fun f => [f] := by
  rw [ipReceive, ipIncoming, hp, Option.bind_eq_bind, Option.bind_some]
  cases p.arrives i with
  | none => rfl
  | some b =>
      cases b with
      | false => rfl
      | true =>
          change List.mapM (ipIncomingAt p) [f] = (ipIncomingAt p f).map fun f => [f]
          rw [List.mapM_cons]
          cases ipIncomingAt p f <;> rfl

/-- A packet that arrives is handled soundly if nobody wants it or its lengths are sound. -/
theorem ipReception_of_arrives (hp : IpPacket.ofBytes? bytes = some p)
    (harr : p.arrives i = some true) :
    IpReception i bytes cs ↔
      ((∃ f ∈ cs, f.accepts p.srcIp = true) → p.WellSized bytes.length) := by
  have hbytes := IpPacket.bytes_of_ofBytes? hp
  have hsound : p.WellSized bytes.length → p.payload =
      some ((bytes.drop p.hdrBytes.toNat).take (p.length.toNat - p.hdrBytes.toNat)) := by
    rw [← hbytes]
    exact IpPacket.WellSized.payload
  unfold IpReception
  rw [ipReceive_eq hp harr, if_pos rfl, ← mapM_handOut_iff p.enqueue_ne hsound]
  simp only [hp, Option.some.injEq, exists_eq_left']

/-- **When IP reception is sound.**  The handler stays inside what was received and delivers only data
announced soundly exactly when the buffer holds a header, and, if the packet is for the interface, the
header length does not lead out of the buffer, and, if besides the checksum over that length is right
and the filter of a pipe matches, the two lengths of the header are sound. -/
theorem ip_reception_iff (i : Interface) (bytes : List Byte) (cs : List IpPipe) :
    IpReception i bytes cs ↔
      20 ≤ bytes.length ∧ ∀ p, IpPacket.ofBytes? bytes = some p → p.IsFor i →
        p.hdrBytes.toNat ≤ bytes.length ∧
          (p.checksumOver p.hdrBytes = some 0 → (∃ f ∈ cs, f.accepts p.srcIp = true) →
            p.WellSized bytes.length) := by
  constructor
  · intro h
    obtain ⟨cs', hcs, -⟩ := id h
    obtain ⟨p, hp, hrun⟩ := Option.bind_eq_some_iff.mp hcs
    obtain ⟨b, harr, -⟩ := Option.bind_eq_some_iff.mp hrun
    have hlen := IpPacket.ofBytes?_isSome.mp (Option.isSome_iff_exists.mpr ⟨p, hp⟩)
    refine ⟨hlen, fun p' hp' hfor => ?_⟩
    obtain rfl := Option.some.inj (hp.symm.trans hp')
    have hbytes := IpPacket.bytes_of_ofBytes? hp
    rw [← hbytes] at hlen ⊢
    rw [IpPacket.arrives_of_isFor hfor] at harr
    refine ⟨Nat.le_of_not_lt fun hlong => ?_, fun hzero => ?_⟩
    · rw [(IpPacket.checksumOver_eq_none hlen).mpr hlong] at harr
      exact absurd harr (Option.some_ne_none _).symm
    · rw [hbytes]
      refine (ipReception_of_arrives hp ?_).mp h
      rw [IpPacket.arrives_of_isFor hfor, hzero]
      rfl
  · rintro ⟨hlen, h⟩
    obtain ⟨p, hp⟩ := Option.isSome_iff_exists.mp (IpPacket.ofBytes?_isSome.mpr hlen)
    have hdrop : p.arrives i = some false → IpReception i bytes cs := fun harr =>
      ⟨cs, (ipReceive_eq hp harr).trans (if_neg Bool.false_ne_true), .inl rfl⟩
    by_cases hfor : p.IsFor i
    · obtain ⟨hhdr, hsound⟩ := h p hp hfor
      rw [← IpPacket.bytes_of_ofBytes? hp] at hlen hhdr
      cases hsum : p.checksumOver p.hdrBytes with
      | none => exact absurd hhdr (Nat.not_le.mpr ((IpPacket.checksumOver_eq_none hlen).mp hsum))
      | some sum =>
          have harr := IpPacket.arrives_of_isFor hfor
          rw [hsum] at harr
          by_cases hzero : sum = 0
          · subst hzero
            exact (ipReception_of_arrives hp harr).mpr (hsound hsum)
          · exact hdrop (harr.trans (congrArg some (decide_eq_false hzero)))
    · exact hdrop (IpPacket.arrives_of_not hfor)

/-- A packet for everybody of 46 bytes that says it has 65535: the copy for a pipe that takes
everything leads out of the buffer. -/
def longPacket : List Byte :=
  [0x45, 0, 0xff, 0xff, 0, 0, 0, 0, 64, 17, 0x7a, 0xee, 0, 0, 0, 0, 0xff, 0xff, 0xff, 0xff] ++
    List.replicate 26 0

theorem longPacket_unsound :
    ¬ IpReception ⟨0, 10⟩ longPacket [⟨false, none, 0, 0xffffffff, 0x11, 64, []⟩] := by
  rintro ⟨cs', hcs, -⟩
  have hnone : ipReceive ⟨0, 10⟩ longPacket [⟨false, none, 0, 0xffffffff, 0x11, 64, []⟩] = none := by
    decide
  exact absurd (hcs.symm.trans hnone) (Option.some_ne_none _)

end ip

/-! ### The UDP service -/

/-- The announced length covers the header and was received. -/
structure UdpDatagram.WellSized (d : UdpDatagram) (received : Nat) : Prop where
  header : 8 ≤ d.length.toNat
  inside : d.length.toNat ≤ received

/-- `incoming` appends the datagram to the queue of a connection. -/
def UdpDatagram.enqueue (src : Word) (d : UdpDatagram) (data : List Byte) (c : UdpConnection) :
    UdpConnection :=
  { c with inqueue := c.inqueue ++ [{ srcIp := src, srcPort := d.srcPort, data }] }

/-- What the IP service hands over is read inside its bounds, and either dropped or given to every
connection of the destination port: the bytes the length field announces behind the header. -/
def UdpReception (q : IpQueued) (cs : List UdpConnection) : Prop :=
  ∃ cs', udpRound q cs = some cs' ∧
    (cs' = cs ∨ ∃ d, UdpDatagram.ofBytes? q.data = some d ∧ d.WellSized q.data.length ∧
      cs' = handedOut (fun c => c.port = d.destPort) (d.enqueue q.src)
        ((q.data.drop 8).take (d.length.toNat - 8)) cs)

section udp

variable {q : IpQueued} {cs : List UdpConnection} {d : UdpDatagram}

theorem UdpDatagram.enqueue_ne (src : Word) (d : UdpDatagram) (data : List Byte)
    (c : UdpConnection) : d.enqueue src data c ≠ c := by
  intro h
  have hqueue := congrArg UdpConnection.inqueue h
  exact absurd (List.append_right_eq_self.mp hqueue) (List.cons_ne_nil _ _)

theorem udpIncomingAt_eq (src : Word) (d : UdpDatagram) :
    udpIncomingAt src d =
      handOut (fun c => c.port = d.destPort) (d.enqueue src) d.payload := by
  funext c
  unfold udpIncomingAt handOut
  by_cases h : c.port = d.destPort
  · rw [if_neg (not_not.mpr h.symm), if_pos (decide_eq_true h)]
    cases d.payload <;> rfl
  · rw [if_pos (Ne.symm h), if_neg (fun hd => h (of_decide_eq_true hd))]

theorem UdpDatagram.bytes_drop (d : UdpDatagram) : d.bytes.drop 8 = d.rest := rfl

/-- With a sound length the subtraction does not wrap, and the copy stays inside. -/
theorem UdpDatagram.WellSized.payload (h : d.WellSized d.bytes.length) :
    d.payload = some ((d.bytes.drop 8).take (d.length.toNat - 8)) := by
  have hsub : (d.length.setWidth 32 - 8).toNat = d.length.toNat - 8 := toNat_length_sub h.header
  have hlen : (d.rest.take (d.length.toNat - 8)).length = d.length.toNat - 8 := by
    rw [List.length_take, ← d.bytes_drop, List.length_drop]
    exact Nat.min_eq_left (Nat.sub_le_sub_right h.inside _)
  unfold UdpDatagram.payload
  dsimp only
  rw [hsub, hlen, if_neg (Nat.lt_irrefl _), d.bytes_drop]

theorem udpRound_eq (hproto : q.protocol = 0x11) (hd : UdpDatagram.ofBytes? q.data = some d) :
    udpRound q cs =
      if d.intact q.src q.dest then
        cs.mapM (handOut (fun c => c.port = d.destPort) (d.enqueue q.src) d.payload)
      else some cs := by
  rw [udpRound, if_neg (not_not.mpr hproto), hd, Option.bind_eq_bind, Option.bind_some, ite_not,
    udpIncomingAt_eq]

/-- A datagram that passes the test is handled soundly if no connection has its port or its length is
sound. -/
theorem udpReception_of_intact (hproto : q.protocol = 0x11)
    (hd : UdpDatagram.ofBytes? q.data = some d) (hintact : d.intact q.src q.dest = true) :
    UdpReception q cs ↔
      ((∃ c ∈ cs, c.port = d.destPort) → d.WellSized q.data.length) := by
  have hbytes := UdpDatagram.bytes_of_ofBytes? hd
  have hsound : d.WellSized q.data.length →
      d.payload = some ((q.data.drop 8).take (d.length.toNat - 8)) := by
    rw [← hbytes]
    exact UdpDatagram.WellSized.payload
  have hport : (∃ c ∈ cs, c.port = d.destPort) ↔
      ∃ c ∈ cs, decide (c.port = d.destPort) = true := by
    simp only [decide_eq_true_eq]
  unfold UdpReception
  rw [udpRound_eq hproto hd, if_pos hintact, hport, ← mapM_handOut_iff (d.enqueue_ne q.src) hsound]
  simp only [hd, Option.some.injEq, exists_eq_left']

/-- **When UDP reception is sound.**  The handler stays inside what was received and delivers only data
announced soundly exactly when the packet is of another protocol, or the buffer holds a header and, if
the datagram passes the test of its checksum and a connection has its port, the announced length is
sound. -/
theorem udp_reception_iff (q : IpQueued) (cs : List UdpConnection) :
    UdpReception q cs ↔
      q.protocol = 0x11 → 8 ≤ q.data.length ∧
        ∀ d, UdpDatagram.ofBytes? q.data = some d → d.intact q.src q.dest = true →
          (∃ c ∈ cs, c.port = d.destPort) → d.WellSized q.data.length := by
  by_cases hproto : q.protocol = 0x11
  · rw [imp_iff_right hproto]
    constructor
    · intro h
      obtain ⟨cs', hcs, -⟩ := id h
      rw [udpRound, if_neg (not_not.mpr hproto)] at hcs
      obtain ⟨d, hd, -⟩ := Option.bind_eq_some_iff.mp hcs
      refine ⟨UdpDatagram.ofBytes?_isSome.mp (Option.isSome_iff_exists.mpr ⟨d, hd⟩), ?_⟩
      intro d' hd' hintact
      exact (udpReception_of_intact hproto hd' hintact).mp h
    · rintro ⟨hlen, h⟩
      obtain ⟨d, hd⟩ := Option.isSome_iff_exists.mp (UdpDatagram.ofBytes?_isSome.mpr hlen)
      by_cases hintact : d.intact q.src q.dest = true
      · exact (udpReception_of_intact hproto hd hintact).mpr (h d hd hintact)
      · exact ⟨cs, (udpRound_eq hproto hd).trans (if_neg hintact), .inl rfl⟩
  · refine ⟨fun _ h => absurd h hproto, fun _ => ⟨cs, if_pos hproto, .inl rfl⟩⟩

/-- A datagram without a checksum that says it has 4 bytes: the copy for a connection of its port is of
nearly 2³² bytes. -/
theorem shortLength_unsound :
    ¬ UdpReception ⟨20, 10, 0x11, 64, [4, 0, 0, 53, 0, 4, 0, 0]⟩ [⟨0xffffffff, 53, 0, []⟩] := by
  rintro ⟨cs', hcs, -⟩
  have hnone : udpRound ⟨20, 10, 0x11, 64, [4, 0, 0, 53, 0, 4, 0, 0]⟩ [⟨0xffffffff, 53, 0, []⟩] =
      none := by
    decide
  exact absurd (hcs.symm.trans hnone) (Option.some_ne_none _)

end udp

end Muxomucota.Net
