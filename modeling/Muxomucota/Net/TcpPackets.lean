import Mathlib.Tactic
import Muxomucota.Net.Tcp

/-!
# Net — the packets of a TCP connection

The queues of a connection with the addresses of their packets, and what has been freed.  Leaving the
addresses out gives `Tcp` back (`incomingAt_view`).  What happens to a packet that is there already
is a count: how often it is queued and freed (`Session.count`) stays as it is, unless it is lost.

`flush_all_queues` takes the locks of the two queues one after the other.  Its second half goes
through the input queue again, and then drops the output queue.
-/

namespace Muxomucota.Net

/-- A `struct packet` and its address; an address is given once. -/
structure AllocPacket where
  addr : Nat
  packet : Packet
  deriving DecidableEq

/-- The addresses of a queue. -/
def addrs (queue : List AllocPacket) : List Nat := queue.map AllocPacket.addr

/-- The packets of a queue. -/
def contents (queue : List AllocPacket) : List Packet := queue.map AllocPacket.packet

/-- A connection with its packets; the queues are the ones here, those of `conn` are not used. -/
structure Session where
  conn : TcpConnection
  inqueue : List AllocPacket
  outqueue : List AllocPacket
  next : Nat
  freed : List Nat

/-- Where a packet goes in a queue. -/
def insertAlloc (p : AllocPacket) : List AllocPacket → List AllocPacket
  | [] => [p]
  | q :: queue => if q.packet.seq ≤ p.packet.seq then q :: insertAlloc p queue else p :: q :: queue

namespace Session

/-- The connection without the addresses. -/
def view (s : Session) : TcpConnection :=
  { s.conn with inqueue := contents s.inqueue, outqueue := contents s.outqueue }

def setStatus (s : Session) (status : TcpStatus) : Session :=
  { s with conn := { s.conn with status } }

/-- `free(p->packet); free(p);`. -/
def free (s : Session) (p : AllocPacket) : Session := { s with freed := s.freed ++ [p.addr] }

/-- `tcp_acked`. -/
def tcpAcked (s : Session) (ack : Word) : Session :=
  { s with
    outqueue := s.outqueue.dropWhile fun p => ack - p.packet.seqEnd < 0x40000000#32
    freed := s.freed ++
      addrs (s.outqueue.takeWhile fun p => ack - p.packet.seqEnd < 0x40000000#32) }

/-- The first half of `flush_all_queues`. -/
def flushInqueue (s : Session) : Session :=
  { s with inqueue := [], freed := s.freed ++ addrs s.inqueue }

/-- The second half, which starts with `p = c->inqueue`. -/
def flushOutqueue (s : Session) : Session :=
  { s with outqueue := [], freed := s.freed ++ addrs s.inqueue }

/-- `send_tcp_packet`. -/
def sendTcpPacket (now : Int) (s : Session) (flags : Byte) (data : List Byte) : Session × List Out :=
  let seqSize : Word :=
    if data = [] ∧ flags &&& (tcpSyn ||| tcpFin) ≠ 0 then 1 else .ofNat 32 data.length
  let p : Packet :=
    { lastTimeSent := 0, seqEnd := s.conn.seq + seqSize, readOffset := 0,
      packet := makeSegment s.conn flags data }
  let s := { s with
    conn := { s.conn with seq := s.conn.seq + seqSize }
    outqueue := insertAlloc ⟨s.next, p⟩ s.outqueue
    next := s.next + 1 }
  (s, handleOutqueue now s.view)

/-- What `handle_inqueue` does with a packet that continues the stream. -/
def takePacket (now : Int) (s : Session) (p : Packet) : Option (Session × List Out × Bool) :=
  let s := { s with conn := { s.conn with ack := p.seqEnd } }
  if p.packet.has tcpRst then none
  else if p.packet.has tcpSyn then
    match s.conn.status with
    | .listen =>
        let r := (s.setStatus .synRcvd).sendTcpPacket now (tcpSyn ||| tcpAck) []
        some (r.1, r.2, false)
    | .closed =>
        let r := s.sendTcpPacket now tcpRst []
        some (r.1, r.2, false)
    | _ => some (s.setStatus .opened, [], false)
  else if p.packet.has tcpFin then
    match s.conn.status with
    | .finSent | .closed => some (s.setStatus .closed, [], true)
    | _ => some (s.setStatus .finRcvd, [], true)
  else some (s, [], false)

/-- The loop of `handle_inqueue`. -/
def inqueueLoop (now : Int) :
    List AllocPacket → Session → Option (Session × List AllocPacket × List Out × Bool)
  | [], s => some (s, [], [], false)
  | p :: queue, s =>
      if continues s.conn p.packet then do
        let (s, out, fin) ← s.takePacket now p.packet
        if p.packet.bare then
          match queue with
          | [] => some (s.free p, [], out, fin)
          | q :: queue => do
              let (s, queue, out', fin') ← inqueueLoop now queue (s.free p)
              some (s, q :: queue, out ++ out', fin || fin')
        else do
          let (s, queue, out', fin') ← inqueueLoop now queue s
          some (s, p :: queue, out ++ out', fin || fin')
      else if p.packet.seq - s.conn.ack < 0x40000000#32 then some (s, p :: queue, [], false)
      else do
        let (s, queue, out, fin) ← inqueueLoop now queue s
        some (s, p :: queue, out, fin)

/-- `handle_inqueue`. -/
def handleInqueue (now : Int) (s : Session) : Option (Session × List Out) := do
  let (s, queue, out, fin) ← inqueueLoop now s.inqueue s
  let s := { s with inqueue := queue }
  if s.conn.status = .opened ∨ s.conn.status = .synSent ∨ s.conn.status = .synRcvd ∨
      s.conn.status = .finRcvd ∨ fin then
    let r := s.sendTcpPacket now tcpAck []
    some (r.1, out ++ r.2)
  else some (s, out)

/-- What `incoming` notes of every segment. -/
def noteSegment (seg : Segment) (s : Session) : Session :=
  let s := { s with conn := { s.conn with window := seg.window.setWidth 32 } }
  let s := if seg.has tcpSyn ∧ (s.conn.status = .listen ∨ s.conn.status = .synSent) then
    { s with conn := { s.conn with ack := seg.seq } } else s
  if seg.has tcpAck then s.tcpAcked seg.ack else s

/-- No packet of the input queue has been freed. -/
def Intact (s : Session) : Prop := ∀ p ∈ s.inqueue, p.addr ∉ s.freed

instance (s : Session) : Decidable s.Intact := by unfold Intact; infer_instance

/-- `incoming`; `none` also where a packet that has been freed is read or freed again. -/
def incomingAt (now : Int) (seg : Segment) (s : Session) : Option (Session × List Out) :=
  if seg.destPort ≠ s.conn.port then some (s, [])
  else
    let s := s.noteSegment seg
    if seg.has tcpRst then
      if s.Intact then some ((s.setStatus .closed).flushInqueue.flushOutqueue, []) else none
    else if seg.dataSz = 0 ∧ ¬ seg.has (tcpFin ||| tcpSyn ||| tcpRst) then some (s, [])
    else if ¬ s.Intact then none
    else do
      let p : Packet := { lastTimeSent := 0, seqEnd := seg.seqEnd, readOffset := 0, packet := seg }
      let (s, out) ← { s with inqueue := insertAlloc ⟨s.next, p⟩ s.inqueue, next := s.next + 1 }.handleInqueue now
      some (s, if s.conn.signal then out ++ [.signal s.conn.owner s.conn.id] else out)

/-! ### Without the addresses -/

variable {now : Int} {seg : Segment} {s s' : Session} {flags : Byte} {data : List Byte}

/-- A session without its addresses, and the rest of an answer. -/
def seen {α : Type} (r : Session × α) : TcpConnection × α := (r.1.view, r.2)

theorem map_bind {α β γ δ : Type} {o : Option α} {o' : Option β} {f : α → β} {g : α → Option γ}
    {g' : β → Option δ} {k : γ → δ} (h : o.map f = o') (hg : ∀ a, (g a).map k = g' (f a)) :
    (o.bind g).map k = o'.bind g' := by
  subst h
  cases o with
  | none => rfl
  | some a => exact hg a

theorem insertAlloc_contents (p : AllocPacket) (queue : List AllocPacket) :
    contents (insertAlloc p queue) = insertPacket p.packet (contents queue) := by
  induction queue with
  | nil => rfl
  | cons q queue ih =>
      show contents (insertAlloc p (q :: queue)) = insertPacket p.packet (q.packet :: contents queue)
      rw [insertAlloc, insertPacket]
      split
      · exact congrArg (q.packet :: ·) ih
      · rfl

theorem tcpAcked_view (s : Session) (ack : Word) :
    (s.tcpAcked ack).view = Net.tcpAcked s.view ack := by
  have hqueue : contents (s.outqueue.dropWhile fun p => ack - p.packet.seqEnd < 0x40000000#32) =
      (contents s.outqueue).dropWhile fun p => ack - p.seqEnd < 0x40000000#32 := by
    rw [contents, contents, List.dropWhile_map]
    rfl
  exact congrArg (fun queue => { s.view with outqueue := queue }) hqueue

theorem sendTcpPacket_view (now : Int) (s : Session) (flags : Byte) (data : List Byte) :
    seen (s.sendTcpPacket now flags data) = Net.sendTcpPacket now s.view flags data := by
  rw [seen, sendTcpPacket, Net.sendTcpPacket]
  dsimp only [view]
  rw [insertAlloc_contents]
  rfl

theorem sent_view {α : Type} (f : List Out → α) {r : Session × List Out}
    {r' : TcpConnection × List Out} (h : seen r = r') :
    (some (r.1, f r.2)).map seen = some (r'.1, f r'.2) := by
  subst h
  rfl

theorem takePacket_view (now : Int) (s : Session) (p : Packet) :
    (s.takePacket now p).map seen = Net.takePacket now s.view p := by
  rw [takePacket, Net.takePacket]
  dsimp only
  split
  · rfl
  split
  · rw [show s.view.status = s.conn.status from rfl]
    cases s.conn.status with
    | listen => exact sent_view (·, false) (sendTcpPacket_view _ _ _ _)
    | closed => exact sent_view (·, false) (sendTcpPacket_view _ _ _ _)
    | _ => rfl
  split
  · rw [show s.view.status = s.conn.status from rfl]
    cases s.conn.status <;> rfl
  · rfl

/-- What the loop of `handle_inqueue` gives back, without the addresses. -/
def seenLoop (r : Session × List AllocPacket × List Out × Bool) :
    TcpConnection × List Packet × List Out × Bool := (r.1.view, contents r.2.1, r.2.2.1, r.2.2.2)

theorem inqueueLoop_view : ∀ (queue : List AllocPacket) (s : Session),
    (inqueueLoop now queue s).map seenLoop = Net.inqueueLoop now (contents queue) s.view
  | [], s => rfl
  | p :: queue, s => by
      rw [inqueueLoop, contents, List.map_cons, Net.inqueueLoop]
      rw [show continues s.view p.packet = continues s.conn p.packet from rfl]
      split
      · refine map_bind (takePacket_view now s p.packet) ?_
        rintro ⟨s₁, out, fin⟩
        dsimp only [seen]
        split
        · cases queue with
          | nil => rfl
          | cons q queue =>
              refine map_bind (inqueueLoop_view queue (s₁.free p)) ?_
              exact fun _ => rfl
        · refine map_bind (inqueueLoop_view queue s₁) ?_
          exact fun _ => rfl
      · rw [show s.view.ack = s.conn.ack from rfl]
        split
        · rfl
        · refine map_bind (inqueueLoop_view queue s) ?_
          exact fun _ => rfl

theorem handleInqueue_view (now : Int) (s : Session) :
    (s.handleInqueue now).map seen = Net.handleInqueue now s.view := by
  refine map_bind (inqueueLoop_view s.inqueue s) ?_
  rintro ⟨s₁, queue, out, fin⟩
  dsimp only [seenLoop]
  rw [show s₁.view.status = s₁.conn.status from rfl]
  split
  · exact sent_view (out ++ ·) (sendTcpPacket_view now { s₁ with inqueue := queue } tcpAck [])
  · rfl

theorem noteSegment_view (seg : Segment) (s : Session) :
    (s.noteSegment seg).view = Net.noteSegment seg s.view := by
  rw [noteSegment, Net.noteSegment]
  dsimp only
  rw [show s.view.status = s.conn.status from rfl]
  by_cases hack : seg.has tcpAck = true
  · rw [if_pos hack, if_pos hack, tcpAcked_view]
    split <;> rfl
  · rw [if_neg hack, if_neg hack]
    split <;> rfl

/-- A segment does to the queues what it does without the addresses, as long as no packet that has been
freed is left in the input queue. -/
theorem incomingAt_view (h : (s.noteSegment seg).Intact) :
    (s.incomingAt now seg).map seen = Net.incomingAt now seg s.view := by
  rw [incomingAt, Net.incomingAt, show s.view.port = s.conn.port from rfl]
  split
  · rfl
  dsimp only
  rw [if_pos h, if_neg (not_not.mpr h), ← noteSegment_view]
  split
  · rfl
  split
  · rfl
  · have hput := insertAlloc_contents
      ⟨(s.noteSegment seg).next,
        { lastTimeSent := 0, seqEnd := seg.seqEnd, readOffset := 0, packet := seg }⟩
      (s.noteSegment seg).inqueue
    dsimp only at hput
    rw [show (s.noteSegment seg).view.inqueue = contents (s.noteSegment seg).inqueue from rfl, ← hput]
    refine map_bind (handleInqueue_view now { s.noteSegment seg with
      inqueue := _, next := (s.noteSegment seg).next + 1 }) ?_
    exact fun _ => rfl

/-! ### Where a packet goes -/

/-- How often address `a` is queued and freed. -/
def count (s : Session) (a : Nat) : Nat :=
  (addrs s.inqueue).count a + (addrs s.outqueue).count a + s.freed.count a

/-- What becomes of address `a`: it is dropped `lost` times, and it turns up in no queue. -/
structure Moved (a lost : Nat) (s s' : Session) : Prop where
  next : s.next ≤ s'.next
  count : s'.count a + lost = s.count a
  inq : a ∈ addrs s'.inqueue → a ∈ addrs s.inqueue
  outq : a ∈ addrs s'.outqueue → a ∈ addrs s.outqueue

variable {a b lost : Nat} {s₁ : Session} {queue queue' : List AllocPacket} {out : List Out} {fin : Bool}

theorem Moved.refl (a : Nat) (s : Session) : Moved a 0 s s := ⟨le_rfl, rfl, id, id⟩

theorem Moved.trans (h₁ : Moved a lost s s₁) (h₂ : Moved a b s₁ s') : Moved a (b + lost) s s' where
  next := h₁.next.trans h₂.next
  count := by
    have hc₁ := h₁.count
    have hc₂ := h₂.count
    omega
  inq := fun h => h₁.inq (h₂.inq h)
  outq := fun h => h₁.outq (h₂.outq h)

theorem Moved.of_conn (a : Nat) (s : Session) (c : TcpConnection) : Moved a 0 s { s with conn := c } :=
  ⟨le_rfl, rfl, id, id⟩

/-- A packet in front of the queue changes nothing. -/
theorem Moved.cons (p : AllocPacket)
    (h : Moved a lost { s with inqueue := queue } { s' with inqueue := queue' }) :
    Moved a lost { s with inqueue := p :: queue } { s' with inqueue := p :: queue' } where
  next := h.next
  count := by
    have hc := h.count
    simp only [Session.count, addrs, List.map_cons, List.count_cons] at hc ⊢
    omega
  inq := fun hm => by
    rcases List.mem_cons.mp hm with heq | hm
    · exact heq ▸ List.mem_cons_self ..
    · exact List.mem_cons_of_mem _ (h.inq hm)
  outq := h.outq

theorem insertAlloc_perm (p : AllocPacket) (queue : List AllocPacket) :
    (addrs (insertAlloc p queue)).Perm (p.addr :: addrs queue) := by
  induction queue with
  | nil => exact .refl _
  | cons q queue ih =>
      rw [insertAlloc]
      split
      · exact (ih.cons q.addr).trans (.swap ..)
      · exact .refl _

/-- A packet at a new address. -/
theorem count_insert {p : AllocPacket} (h : a ≠ p.addr) :
    (addrs (insertAlloc p queue)).count a = (addrs queue).count a := by
  rw [(insertAlloc_perm p queue).count_eq, List.count_cons_of_ne h.symm]

theorem mem_insert {p : AllocPacket} (h : a ≠ p.addr) (hm : a ∈ addrs (insertAlloc p queue)) :
    a ∈ addrs queue := by
  rcases List.mem_cons.mp ((insertAlloc_perm p queue).mem_iff.mp hm) with heq | hm
  · exact absurd heq h
  · exact hm

theorem sendTcpPacket_moved (now : Int) (flags : Byte) (data : List Byte) (ha : a < s.next) :
    Moved a 0 s (s.sendTcpPacket now flags data).1 := by
  have hne : a ≠ s.next := ha.ne
  refine ⟨Nat.le_succ _, ?_, id, mem_insert hne⟩
  rw [count, count, sendTcpPacket]
  dsimp only
  rw [count_insert hne, Nat.add_zero]

theorem tcpAcked_moved (a : Nat) (s : Session) (ack : Word) : Moved a 0 s (s.tcpAcked ack) := by
  refine ⟨le_rfl, ?_, id, fun hm => ?_⟩
  · have hsplit := congrArg (fun l => (addrs l).count a)
      (List.takeWhile_append_dropWhile (p := fun p : AllocPacket => ack - p.packet.seqEnd < 0x40000000#32)
        (l := s.outqueue))
    simp only [addrs, List.map_append, List.count_append] at hsplit
    simp only [count, tcpAcked, addrs, List.count_append]
    omega
  · exact ((List.dropWhile_sublist _).map AllocPacket.addr).subset hm

theorem takePacket_moved {p : Packet} (ha : a < s.next) (queue : List AllocPacket)
    (h : s.takePacket now p = some (s', out, fin)) :
    Moved a 0 { s with inqueue := queue } { s' with inqueue := queue } := by
  have hsend : ∀ (c : TcpConnection) (flags : Byte), Moved a 0 { s with inqueue := queue }
      { (({ s with conn := c } : Session).sendTcpPacket now flags []).1 with inqueue := queue } :=
    fun c flags => (Moved.of_conn a { s with inqueue := queue } c).trans
      (sendTcpPacket_moved now flags [] (s := { s with conn := c, inqueue := queue }) ha)
  rw [takePacket] at h
  dsimp only at h
  split at h
  · cases h
  split at h
  · split at h
    · cases h
      exact hsend _ _
    · cases h
      exact hsend _ _
    · cases h
      exact .of_conn a { s with inqueue := queue } _
  split at h
  · split at h
    · cases h
      exact .of_conn a { s with inqueue := queue } _
    · cases h
      exact .of_conn a { s with inqueue := queue } _
    · cases h
      exact .of_conn a { s with inqueue := queue } _
  · cases h
    exact .of_conn a { s with inqueue := queue } _

/-- Unlinking a packet and freeing it. -/
theorem free_moved (a : Nat) (s : Session) (p : AllocPacket) (queue : List AllocPacket) :
    Moved a 0 { s with inqueue := p :: queue } { s.free p with inqueue := queue } where
  next := le_rfl
  count := by
    simp only [count, free, addrs, List.map_cons, List.count_cons, List.count_append, List.count_nil]
    omega
  inq := List.mem_cons_of_mem _
  outq := id

theorem inqueueLoop_moved : ∀ {queue : List AllocPacket} {s s' : Session} {queue' out fin},
    a < s.next → inqueueLoop now queue s = some (s', queue', out, fin) →
      Moved a 0 { s with inqueue := queue } { s' with inqueue := queue' }
  | [], s, s', queue', out, fin, ha, h => by
      cases h
      exact .refl _ _
  | p :: queue, s, s', queue', out, fin, ha, h => by
      rw [inqueueLoop] at h
      split at h
      · obtain ⟨⟨s₁, out₁, fin₁⟩, htake, h⟩ := Option.bind_eq_some_iff.mp h
        have hmoved := takePacket_moved ha (p :: queue) htake
        have ha₁ : a < s₁.next := ha.trans_le hmoved.next
        dsimp only at h
        split at h
        · have hfree := free_moved a s₁ p queue
          cases queue with
          | nil =>
              cases h
              exact hmoved.trans hfree
          | cons q queue =>
              obtain ⟨⟨s₂, queue₂, out₂, fin₂⟩, hloop, h⟩ := Option.bind_eq_some_iff.mp h
              cases h
              have hrest := inqueueLoop_moved (s := s₁.free p) ha₁ hloop
              exact (hmoved.trans hfree).trans (hrest.cons q)
        · obtain ⟨⟨s₂, queue₂, out₂, fin₂⟩, hloop, h⟩ := Option.bind_eq_some_iff.mp h
          cases h
          exact hmoved.trans ((inqueueLoop_moved ha₁ hloop).cons p)
      · split at h
        · cases h
          exact .refl _ _
        · obtain ⟨⟨s₂, queue₂, out₂, fin₂⟩, hloop, h⟩ := Option.bind_eq_some_iff.mp h
          cases h
          exact (inqueueLoop_moved ha hloop).cons p

theorem handleInqueue_moved (ha : a < s.next) (h : s.handleInqueue now = some (s', out)) :
    Moved a 0 s s' := by
  obtain ⟨⟨s₁, queue, out₁, fin⟩, hloop, h⟩ := Option.bind_eq_some_iff.mp h
  have hmoved : Moved a 0 s { s₁ with inqueue := queue } := inqueueLoop_moved ha hloop
  dsimp only at h
  split at h
  · cases h
    exact hmoved.trans (sendTcpPacket_moved now tcpAck []
      (s := { s₁ with inqueue := queue }) (ha.trans_le hmoved.next))
  · cases h
    exact hmoved

theorem noteSegment_moved (a : Nat) (s : Session) (seg : Segment) :
    Moved a 0 s (s.noteSegment seg) := by
  rw [noteSegment]
  dsimp only
  by_cases hack : seg.has tcpAck = true
  · rw [if_pos hack]
    split
    · exact (Moved.of_conn a s _).trans (tcpAcked_moved a _ _)
    · exact (Moved.of_conn a s _).trans (tcpAcked_moved a _ _)
  · rw [if_neg hack]
    split
    · exact .of_conn a s _
    · exact .of_conn a s _

theorem flushInqueue_moved (a : Nat) (s : Session) : Moved a 0 s s.flushInqueue := by
  refine ⟨le_rfl, ?_, fun hm => absurd hm List.not_mem_nil, id⟩
  simp only [count, flushInqueue, addrs, List.map_nil, List.count_nil, List.count_append]
  omega

/-- The output queue is dropped. -/
theorem flushOutqueue_moved (h : a ∉ addrs s.inqueue) :
    Moved a ((addrs s.outqueue).count a) s s.flushOutqueue := by
  refine ⟨le_rfl, ?_, id, fun hm => absurd hm List.not_mem_nil⟩
  have hno : (addrs s.inqueue).count a = 0 := List.count_eq_zero.mpr h
  simp only [count, flushOutqueue, List.count_append, show addrs [] = [] from rfl, List.count_nil]
  omega

/-- The packets that a segment drops: those in the output queue, when it is a RST. -/
def dropped (s : Session) (seg : Segment) : List Nat :=
  if seg.destPort = s.conn.port ∧ seg.has tcpRst then addrs (s.noteSegment seg).outqueue else []

/-- A segment that comes in. -/
theorem incomingAt_moved (ha : a < s.next) (h : s.incomingAt now seg = some (s', out)) :
    Moved a ((s.dropped seg).count a) s s' := by
  have hnote := noteSegment_moved a s seg
  rw [incomingAt] at h
  rw [dropped]
  split at h
  · rename_i hport
    cases h
    rw [if_neg fun hc => hport hc.1]
    exact .refl a s
  rename_i hport
  dsimp only at h
  split at h
  · rename_i hrst
    split at h
    · cases h
      rw [if_pos ⟨not_not.mp hport, hrst⟩]
      have hflush := (hnote.trans (.of_conn a _ _)).trans
        (flushInqueue_moved a ((s.noteSegment seg).setStatus .closed))
      exact hflush.trans (flushOutqueue_moved
        (s := ((s.noteSegment seg).setStatus .closed).flushInqueue) List.not_mem_nil)
    · cases h
  rename_i hrst
  rw [if_neg fun hc => hrst hc.2]
  split at h
  · cases h
    exact hnote
  split at h
  · cases h
  obtain ⟨⟨s₂, out₂⟩, hhandle, h⟩ := Option.bind_eq_some_iff.mp h
  cases h
  have hlt : a < (s.noteSegment seg).next := ha.trans_le hnote.next
  have hhandled := handleInqueue_moved (Nat.lt_succ_of_lt hlt) hhandle
  show Moved a (0 + (0 + 0)) s s₂
  refine (hnote.trans ?_).trans hhandled
  refine ⟨Nat.le_succ _, ?_, mem_insert hlt.ne, id⟩
  rw [count, count]
  dsimp only
  rw [count_insert hlt.ne, Nat.add_zero]

end Session

end Muxomucota.Net
