import Muxomucota.Lib.Runs
import Muxomucota.Net.TcpOpen
import Muxomucota.Net.Udp

/-!
# Net — one IP pipe for all connections

The UDP service and the TCP service have one IP pipe each.  A send by any connection sets the pipe's
destination, and the destination is also the filter for what comes in: so whether a connection is
given a datagram depends on which connection was the last to send.
-/

namespace Muxomucota.Net
open Lib

/-! ### The UDP service -/

/-- The UDP service: its IP pipe and its connections. -/
structure UdpService where
  pipe : IpPipe
  connections : List UdpConnection

/-- What happens to the UDP service. -/
inductive UdpOp where
  | streamSend (i : Nat) (data : List Byte)
  | streamRecv (i : Nat) (size : Nat)
  | arrives (ifc : Interface) (p : IpPacket)
  | incoming

/-- One step of the UDP service; `arrives` is the IP service's `incoming`. -/
def udpStep (route : Routing) (s : UdpService) : UdpOp → Option UdpService
  | .streamSend i data => do
      let c ← s.connections[i]?
      some { s with pipe := (udpStreamSend route s.pipe c data).1 }
  | .streamRecv i size => do
      let c ← s.connections[i]?
      let (c, _) ← udpStreamRecv c size
      some { s with connections := s.connections.set i c }
  | .arrives ifc p => do
      let pipe ← ipIncoming ifc p s.pipe
      some { s with pipe }
  | .incoming => do
      let connections ← s.pipe.inqueue.foldlM (fun cs q => udpRound q cs) s.connections
      some { pipe := { s.pipe with inqueue := [] }, connections }

/-! ### The TCP service -/

/-- The TCP service: its IP pipe and its connections. -/
structure TcpService where
  pipe : IpPipe
  connections : List TcpConnection

/-- What happens to the TCP service. -/
inductive TcpEvent where
  | streamSend (now : Int) (i : Nat) (data : List Byte)
  | streamRecv (i : Nat) (size : Word)
  | arrives (ifc : Interface) (p : IpPacket)
  | incoming (now : Int)

/-- Every segment that is sent sets the destination of the IP pipe first. -/
def throwAll (route : Routing) (f : IpPipe) (out : List Out) : IpPipe :=
  out.foldl (fun f o => match o with
    | .segment destIp _ => (setDestIp route f destIp).1
    | .signal _ _ => f) f

/-- What the IP pipe hands over: the first packet of its queue as a datagram. -/
def IpQueued.datagram (q : IpQueued) : Option Datagram :=
  (Segment.ofBytes? q.data).map fun contents =>
    { src := q.src, dest := q.dest, protocol := q.protocol, contents }

/-- One round of the loop of `incoming`. -/
def tcpRound (route : Routing) (now : Int) (s : TcpService) (q : IpQueued) : Option TcpService :=
  if q.protocol ≠ 6 then some s
  else do
    let d ← q.datagram
    let (connections, out) ← incoming now d s.connections
    some { pipe := throwAll route s.pipe out, connections }

/-- One step of the TCP service. -/
def tcpEvent (route : Routing) (s : TcpService) : TcpEvent → Option TcpService
  | .streamSend now i data => do
      let c ← s.connections[i]?
      let (c, out) := streamSend now c data
      some { pipe := throwAll route s.pipe out, connections := s.connections.set i c }
  | .streamRecv i size => do
      let c ← s.connections[i]?
      let (c, _) ← tcpReceive c size
      some { s with connections := s.connections.set i c }
  | .arrives ifc p => do
      let pipe ← ipIncoming ifc p s.pipe
      some { s with pipe }
  | .incoming now =>
      s.pipe.inqueue.foldlM (tcpRound route now) { s with pipe := { s.pipe with inqueue := [] } }

/-! ### Ports stay -/

/-- Putting back an element with the same image. -/
theorem map_set_same {α β : Type*} {f : α → β} : ∀ {xs : List α} {i : Nat} {x y : α},
    xs[i]? = some x → f y = f x → (xs.set i y).map f = xs.map f
  | [], _, _, _, hx, _ => by simp at hx
  | a :: xs, 0, x, y, hx, hf => by
      obtain rfl : a = x := by simpa using hx
      simp [hf]
  | a :: xs, i + 1, x, y, hx, hf => by
      rw [List.set_cons_succ, List.map_cons, List.map_cons, map_set_same (by simpa using hx) hf]

theorem mapM_ports {f : UdpConnection → Option UdpConnection}
    (hf : ∀ c c', f c = some c' → c'.port = c.port) : ∀ {cs cs' : List UdpConnection},
      cs.mapM f = some cs' → cs'.map UdpConnection.port = cs.map UdpConnection.port
  | [], cs', h => by
      obtain rfl : [] = cs' := by simpa using h
      rfl
  | c :: cs, cs', h => by
      rw [List.mapM_cons] at h
      obtain ⟨c₁, hc, h⟩ := Option.bind_eq_some_iff.mp h
      obtain ⟨cs₁, hcs, h⟩ := Option.bind_eq_some_iff.mp h
      obtain rfl := Option.some.inj h
      rw [List.map_cons, List.map_cons, hf c c₁ hc, mapM_ports hf hcs]

theorem udpRound_ports {q : IpQueued} {cs cs' : List UdpConnection} (h : udpRound q cs = some cs') :
    cs'.map UdpConnection.port = cs.map UdpConnection.port := by
  unfold udpRound at h
  split at h
  · rw [Option.some.inj h]
  obtain ⟨d, -, h⟩ := Option.bind_eq_some_iff.mp h
  split at h
  · rw [Option.some.inj h]
  refine mapM_ports (fun c c' hc => ?_) h
  unfold udpIncomingAt at hc
  split at hc
  · rw [Option.some.inj hc]
  · obtain ⟨data, -, hc⟩ := Option.bind_eq_some_iff.mp hc
    rw [← Option.some.inj hc]

theorem udpStep_ports {route : Routing} {s s' : UdpService} {op : UdpOp}
    (h : udpStep route s op = some s') :
    s'.connections.map UdpConnection.port = s.connections.map UdpConnection.port := by
  cases op with
  | streamSend i data =>
      obtain ⟨c, -, h⟩ := Option.bind_eq_some_iff.mp h
      rw [← Option.some.inj h]
  | streamRecv i size =>
      obtain ⟨c, hc, h⟩ := Option.bind_eq_some_iff.mp h
      obtain ⟨⟨c', bytes⟩, hrecv, h⟩ := Option.bind_eq_some_iff.mp h
      obtain rfl := Option.some.inj h
      have hport : c'.port = c.port := by
        unfold udpStreamRecv at hrecv
        split at hrecv
        · cases hrecv
        · obtain ⟨rfl, -⟩ := Prod.mk.inj (Option.some.inj hrecv)
          rfl
      exact map_set_same hc hport
  | arrives ifc p =>
      obtain ⟨pipe, -, h⟩ := Option.bind_eq_some_iff.mp h
      rw [← Option.some.inj h]
  | incoming =>
      obtain ⟨cs, hcs, h⟩ := Option.bind_eq_some_iff.mp h
      obtain rfl := Option.some.inj h
      exact foldlM_invariant (P := fun cs => cs.map UdpConnection.port =
        s.connections.map UdpConnection.port) hcs rfl
        fun q _ cs₁ cs₂ hP hround => (udpRound_ports hround).trans hP

theorem forall₂_ports {cs cs' : List TcpConnection}
    (h : List.Forall₂ (fun c c' : TcpConnection => c'.port = c.port) cs cs') :
    cs'.map TcpConnection.port = cs.map TcpConnection.port := by
  induction h with
  | nil => rfl
  | cons hport _ ih => rw [List.map_cons, List.map_cons, hport, ih]

theorem tcpRound_ports {route : Routing} {now : Int} {s s' : TcpService} {q : IpQueued}
    (h : tcpRound route now s q = some s') :
    s'.connections.map TcpConnection.port = s.connections.map TcpConnection.port := by
  unfold tcpRound at h
  split at h
  · rw [Option.some.inj h]
  obtain ⟨d, -, h⟩ := Option.bind_eq_some_iff.mp h
  obtain ⟨⟨cs, out⟩, hin, h⟩ := Option.bind_eq_some_iff.mp h
  obtain rfl := Option.some.inj h
  rcases incoming_spec hin with rfl | ⟨-, -, hall⟩
  · rfl
  · refine forall₂_ports (List.Forall₂.imp ?_ hall)
    rintro c c' ⟨out', hat⟩
    by_cases hport : d.contents.destPort = c.port
    · exact (incomingAt_spec hat hport).port
    · rw [incomingAt_other hport] at hat
      rw [(Prod.mk.inj (Option.some.inj hat)).1]

theorem tcpEvent_ports {route : Routing} {s s' : TcpService} {e : TcpEvent}
    (h : tcpEvent route s e = some s') :
    s'.connections.map TcpConnection.port = s.connections.map TcpConnection.port := by
  cases e with
  | streamSend now i data =>
      obtain ⟨c, hc, h⟩ := Option.bind_eq_some_iff.mp h
      obtain rfl := Option.some.inj h
      exact map_set_same hc (streamSend_spec now c data).1.port
  | streamRecv i size =>
      obtain ⟨c, hc, h⟩ := Option.bind_eq_some_iff.mp h
      obtain ⟨⟨c', bytes⟩, hrecv, h⟩ := Option.bind_eq_some_iff.mp h
      obtain rfl := Option.some.inj h
      obtain ⟨⟨queue, bytes'⟩, -, hrecv⟩ := Option.bind_eq_some_iff.mp hrecv
      obtain ⟨rfl, -⟩ := Prod.mk.inj (Option.some.inj hrecv)
      exact map_set_same hc rfl
  | arrives ifc p =>
      obtain ⟨pipe, -, h⟩ := Option.bind_eq_some_iff.mp h
      rw [← Option.some.inj h]
  | incoming now =>
      exact foldlM_invariant (P := fun s₁ => s₁.connections.map TcpConnection.port =
        s.connections.map TcpConnection.port) h rfl
        fun q _ s₁ s₂ hP hround => (tcpRound_ports hround).trans hP

/-! ### Delivery -/

/-- A datagram for the connection `i` of the UDP service, as it comes in: the IP service hands it to
the pipe, and the round of `incoming` that reads it gives it to the connection. -/
def UdpService.Delivers (route : Routing) (s : UdpService) (ifc : Interface) (p : IpPacket)
    (i : Nat) : Prop :=
  ∃ s' q c c' x, udpStep route s (.arrives ifc p) = some s' ∧
    s'.pipe.inqueue = s.pipe.inqueue ++ [q] ∧ s.connections[i]? = some c ∧
    udpRound q [c] = some [c'] ∧ c'.inqueue = c.inqueue ++ [x]

/-- The same for the TCP service: the round of `incoming` runs the segment against the
connection. -/
def TcpService.Delivers (route : Routing) (s : TcpService) (ifc : Interface) (p : IpPacket)
    (i : Nat) : Prop :=
  ∃ s' q c d, tcpEvent route s (.arrives ifc p) = some s' ∧
    s'.pipe.inqueue = s.pipe.inqueue ++ [q] ∧ s.connections[i]? = some c ∧
    q.protocol = 6 ∧ q.datagram = some d ∧ d.intact = true ∧ d.contents.destPort = c.port

/-- A valid UDP datagram in a valid IP packet, for the port `port`. -/
structure UdpValid (ifc : Interface) (p : IpPacket) (port : Half) : Prop where
  arrives : p.arrives ifc = some true
  proto : p.protoType = 0x11
  datagram : ∃ data d bytes, p.payload = some data ∧ UdpDatagram.ofBytes? data = some d ∧
    d.intact p.srcIp p.destIp = true ∧ d.payload = some bytes ∧ d.destPort = port

/-- A valid TCP segment in a valid IP packet, for the port `port`. -/
structure TcpValid (ifc : Interface) (p : IpPacket) (port : Half) : Prop where
  arrives : p.arrives ifc = some true
  proto : p.protoType = 6
  segment : ∃ data contents, p.payload = some data ∧ Segment.ofBytes? data = some contents ∧
    ({ src := p.srcIp, dest := p.destIp, protocol := 6, contents } : Datagram).intact = true ∧
    contents.destPort = port

section delivery

variable {route : Routing} {ifc : Interface} {p : IpPacket} {i : Nat}

/-- What the pipe does with a packet that is kept. -/
theorem ipIncoming_kept {f : IpPipe} {data : List Byte} (harr : p.arrives ifc = some true)
    (hdata : p.payload = some data) :
    ipIncoming ifc p f = some (if f.accepts p.srcIp then
      { f with inqueue := f.inqueue ++ [p.queued data] } else f) := by
  rw [ipIncoming, harr, Option.bind_eq_bind, Option.bind_some, if_pos rfl, ipIncomingAt]
  by_cases hacc : f.accepts p.srcIp = true
  · simp [hacc, hdata]
  · simp [hacc]

/-- The UDP service delivers exactly what its pipe accepts. -/
theorem udp_delivers_iff {s : UdpService} {c : UdpConnection} (hv : UdpValid ifc p c.port)
    (hi : s.connections[i]? = some c) :
    s.Delivers route ifc p i ↔ s.pipe.accepts p.srcIp = true := by
  obtain ⟨data, d, bytes, hdata, hd, hintact, hbytes, hport⟩ := hv.datagram
  have hkept := ipIncoming_kept (f := s.pipe) hv.arrives hdata
  constructor
  · rintro ⟨s', q, c₁, c', x, hstep, hqueue, -⟩
    by_contra hacc
    rw [if_neg hacc] at hkept
    obtain ⟨pipe, hpipe, hstep⟩ := Option.bind_eq_some_iff.mp hstep
    obtain rfl := Option.some.inj hstep
    obtain rfl := Option.some.inj (hkept.symm.trans hpipe)
    simp at hqueue
  · intro hacc
    rw [if_pos hacc] at hkept
    let x : UdpPacket := { srcIp := p.srcIp, srcPort := d.srcPort, data := bytes }
    refine ⟨{ s with pipe := { s.pipe with inqueue := s.pipe.inqueue ++ [p.queued data] } },
      p.queued data, c, { c with inqueue := c.inqueue ++ [x] }, x, ?_, rfl, hi, ?_, rfl⟩
    · rw [udpStep, hkept]
      rfl
    · have hproto : ((p.protoType.toNat : Nat) : Int) = 0x11 := by rw [hv.proto]; rfl
      simp [udpRound, IpPacket.queued, hproto, hd, hintact, udpIncomingAt, hport, hbytes, x]

/-- The TCP service delivers exactly what its pipe accepts. -/
theorem tcp_delivers_iff {s : TcpService} {c : TcpConnection} (hv : TcpValid ifc p c.port)
    (hi : s.connections[i]? = some c) :
    s.Delivers route ifc p i ↔ s.pipe.accepts p.srcIp = true := by
  obtain ⟨data, contents, hdata, hcontents, hintact, hport⟩ := hv.segment
  have hkept := ipIncoming_kept (f := s.pipe) hv.arrives hdata
  constructor
  · rintro ⟨s', q, c₁, d, hstep, hqueue, -⟩
    by_contra hacc
    rw [if_neg hacc] at hkept
    obtain ⟨pipe, hpipe, hstep⟩ := Option.bind_eq_some_iff.mp hstep
    obtain rfl := Option.some.inj hstep
    obtain rfl := Option.some.inj (hkept.symm.trans hpipe)
    simp at hqueue
  · intro hacc
    rw [if_pos hacc] at hkept
    have hproto : ((p.protoType.toNat : Nat) : Int) = 6 := by rw [hv.proto]; rfl
    refine ⟨{ s with pipe := { s.pipe with inqueue := s.pipe.inqueue ++ [p.queued data] } },
      p.queued data, c, { src := p.srcIp, dest := p.destIp, protocol := 6, contents }, ?_, rfl, hi,
      hproto, ?_, hintact, hport⟩
    · rw [tcpEvent, hkept]
      rfl
    · simp only [IpQueued.datagram, IpPacket.queued, hcontents, Option.map_some, hproto]

end delivery

theorem udp_ports_run {route : Routing} {s s' : UdpService} {ops : List UdpOp}
    (h : Run (udpStep route) anyStep s ops s') :
    s'.connections.map UdpConnection.port = s.connections.map UdpConnection.port :=
  h.invariant (I := fun s₁ => s₁.connections.map UdpConnection.port =
    s.connections.map UdpConnection.port) (fun _ _ _ hI _ hs => (udpStep_ports hs).trans hI) rfl

theorem tcp_ports_run {route : Routing} {s s' : TcpService} {events : List TcpEvent}
    (h : Run (tcpEvent route) anyStep s events s') :
    s'.connections.map TcpConnection.port = s.connections.map TcpConnection.port :=
  h.invariant (I := fun s₁ => s₁.connections.map TcpConnection.port =
    s.connections.map TcpConnection.port) (fun _ _ _ hI _ hs => (tcpEvent_ports hs).trans hI) rfl

theorem getElem?_of_map {α β : Type*} {f : α → β} {xs ys : List α} {i : Nat} {x : α}
    (h : ys.map f = xs.map f) (hi : xs[i]? = some x) : ∃ y, ys[i]? = some y ∧ f y = f x := by
  have hmap : (ys.map f)[i]? = (xs.map f)[i]? := by rw [h]
  rw [List.getElem?_map, List.getElem?_map, hi] at hmap
  exact Option.map_eq_some_iff.mp hmap

/-- **Delivery follows the pipe**: after any two runs from one state, whatever was sent in them, a
valid datagram for a connection is delivered in both or in neither exactly when the pipe, with the
destination that was set last, accepts its source in both or in neither. -/
theorem delivery_follows_pipe (route : Routing) (ifc : Interface) (p : IpPacket) (i : Nat) :
    (∀ (s s₁ s₂ : UdpService) (ops₁ ops₂ : List UdpOp) (c : UdpConnection),
      Run (udpStep route) anyStep s ops₁ s₁ → Run (udpStep route) anyStep s ops₂ s₂ →
      s.connections[i]? = some c → UdpValid ifc p c.port →
      ((s₁.Delivers route ifc p i ↔ s₂.Delivers route ifc p i) ↔
        s₁.pipe.accepts p.srcIp = s₂.pipe.accepts p.srcIp)) ∧
    (∀ (s s₁ s₂ : TcpService) (events₁ events₂ : List TcpEvent) (c : TcpConnection),
      Run (tcpEvent route) anyStep s events₁ s₁ → Run (tcpEvent route) anyStep s events₂ s₂ →
      s.connections[i]? = some c → TcpValid ifc p c.port →
      ((s₁.Delivers route ifc p i ↔ s₂.Delivers route ifc p i) ↔
        s₁.pipe.accepts p.srcIp = s₂.pipe.accepts p.srcIp)) := by
  constructor
  · intro s s₁ s₂ ops₁ ops₂ c h₁ h₂ hi hv
    obtain ⟨c₁, hi₁, hport₁⟩ := getElem?_of_map (udp_ports_run h₁) hi
    obtain ⟨c₂, hi₂, hport₂⟩ := getElem?_of_map (udp_ports_run h₂) hi
    rw [udp_delivers_iff (by rwa [hport₁]) hi₁, udp_delivers_iff (by rwa [hport₂]) hi₂]
    exact Bool.eq_iff_iff.symm
  · intro s s₁ s₂ events₁ events₂ c h₁ h₂ hi hv
    obtain ⟨c₁, hi₁, hport₁⟩ := getElem?_of_map (tcp_ports_run h₁) hi
    obtain ⟨c₂, hi₂, hport₂⟩ := getElem?_of_map (tcp_ports_run h₂) hi
    rw [tcp_delivers_iff (by rwa [hport₁]) hi₁, tcp_delivers_iff (by rwa [hport₂]) hi₂]
    exact Bool.eq_iff_iff.symm

/-! ### Two peers -/

/-- Every address is reached through one interface. -/
def oneRoute : Routing := fun _ _ => some (⟨0, 20⟩, 1)

/-- Two UDP connections, to the hosts 10 and 11. -/
def twoPeers : UdpService where
  pipe :=
    { ifcFixed := false, ifc := none, mac := 0, dest := 0, protocol := 0x11, ttl := 128,
      inqueue := [] }
  connections :=
    [{ destIp := 10, port := 1024, destPort := 53, inqueue := [] },
      { destIp := 11, port := 1025, destPort := 53, inqueue := [] }]

/-- What the host 10 sends to port 1024 of the host 20. -/
def answerOfTen : IpPacket :=
  let d := makeUdpDatagram { destIp := 20, port := 53, destPort := 1024, inqueue := [] } 10 [1, 2, 3]
  makeIpPacket { twoPeers.pipe with dest := 20 } ⟨0, 10⟩ d.bytes

theorem answerOfTen_valid : UdpValid ⟨0, 20⟩ answerOfTen 1024 where
  arrives := by decide
  proto := by decide
  datagram := ⟨_, _, _, rfl, rfl, by decide, rfl, by decide⟩

/-- The send of the second connection does no harm when the first one sends after it. -/
theorem delivery_follows_pipe_answer : ∃ s₁ s₂,
    Run (udpStep oneRoute) anyStep twoPeers [.streamSend 0 []] s₁ ∧
    Run (udpStep oneRoute) anyStep twoPeers [.streamSend 1 [], .streamSend 0 []] s₂ ∧
    (s₁.Delivers oneRoute ⟨0, 20⟩ answerOfTen 0 ↔ s₂.Delivers oneRoute ⟨0, 20⟩ answerOfTen 0) := by
  obtain ⟨s₁, s₂, h₁, h₂, hsame⟩ : ∃ s₁ s₂,
      Run (udpStep oneRoute) anyStep twoPeers [.streamSend 0 []] s₁ ∧
      Run (udpStep oneRoute) anyStep twoPeers [.streamSend 1 [], .streamSend 0 []] s₂ ∧
      s₁.pipe.accepts answerOfTen.srcIp = s₂.pipe.accepts answerOfTen.srcIp :=
    ⟨_, _, .one trivial rfl, .more trivial rfl (.one trivial rfl), by decide⟩
  exact ⟨s₁, s₂, h₁, h₂, ((delivery_follows_pipe oneRoute ⟨0, 20⟩ answerOfTen 0).1 _ _ _ _ _ _
    h₁ h₂ rfl answerOfTen_valid).mpr hsame⟩

/-- The second connection sends to the host 11, and the answer of the host 10 to the first one is
not delivered; without that send it is. -/
theorem send_hides_answer : ∃ s₁ s₂,
    Run (udpStep oneRoute) anyStep twoPeers [.streamSend 0 []] s₁ ∧
    Run (udpStep oneRoute) anyStep twoPeers [.streamSend 0 [], .streamSend 1 []] s₂ ∧
    s₁.Delivers oneRoute ⟨0, 20⟩ answerOfTen 0 ∧ ¬ s₂.Delivers oneRoute ⟨0, 20⟩ answerOfTen 0 := by
  refine ⟨_, _, .one trivial rfl, .more trivial rfl (.one trivial rfl), ?_, ?_⟩
  · exact (udp_delivers_iff answerOfTen_valid rfl).mpr (by decide)
  · rw [udp_delivers_iff answerOfTen_valid rfl]
    decide

end Muxomucota.Net
