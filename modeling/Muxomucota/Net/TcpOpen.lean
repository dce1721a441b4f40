import Muxomucota.Lib.Runs
import Muxomucota.Net.TcpIncoming

/-!
# Net — opening a TCP connection

Runs of the TCP service: segments come in, the connections are sent to and read from.  A connection
that waits in `STATUS_SYN_SENT` opens only after a SYN; whether that SYN acknowledges the one that
was sent is not looked at.
-/

namespace Muxomucota.Net
open Lib

/-- What happens to the connections; they are named by their place in the list. -/
inductive TcpOp where
  | incoming (now : Int) (d : Datagram)
  | streamSend (now : Int) (i : Nat) (data : List Byte)
  | streamRecv (i : Nat) (size : Word)

/-- One call of the service. -/
def tcpStep (cs : List TcpConnection) : TcpOp → Option (List TcpConnection)
  | .incoming now d => (incoming now d cs).map Prod.fst
  | .streamSend now i data => do
      let c ← cs[i]?
      some (cs.set i (streamSend now c data).1)
  | .streamRecv i size => do
      let c ← cs[i]?
      let (c, _) ← tcpReceive c size
      some (cs.set i c)

/-- A segment that reaches the connections on `port`. -/
def TcpOp.Delivers (op : TcpOp) (port : Half) (s : Segment) : Prop :=
  ∃ now d, op = .incoming now d ∧ d.protocol = 6 ∧ d.intact = true ∧ d.contents = s ∧
    s.destPort = port

/-! ### One step -/

/-- What a step of the service leaves of a connection. -/
structure Stepped (op : TcpOp) (c c' : TcpConnection) : Prop where
  port : c'.port = c.port
  acked : ∃ removed kept, c.outqueue = removed ++ kept ∧ kept.Sublist c'.outqueue ∧
    ∀ p ∈ removed, ∃ s, op.Delivers c.port s ∧ (s.has tcpRst = true ∨
      (s.has tcpAck = true ∧ s.ack - p.seqEnd < 0x40000000#32))
  opens : c'.status = .opened → c.status = .opened ∨
    (∃ p ∈ c.inqueue, p.packet.has tcpSyn = true) ∨ ∃ s, op.Delivers c.port s ∧ s.has tcpSyn = true
  queued : ∀ p ∈ c'.inqueue, p.packet ∈ c.inqueue.map Packet.packet ∨ op.Delivers c.port p.packet

namespace Stepped

variable {op : TcpOp} {c c' : TcpConnection}

theorem refl (op : TcpOp) (c : TcpConnection) : Stepped op c c where
  port := rfl
  acked := ⟨[], c.outqueue, rfl, .refl _, by simp⟩
  opens := .inl
  queued p hp := .inl (List.mem_map_of_mem hp)

theorem of_received {now : Int} {d : Datagram} (hproto : d.protocol = 6)
    (hintact : d.intact = true) (hport : d.contents.destPort = c.port)
    (h : Received d.contents c c') : Stepped (.incoming now d) c c' where
  port := h.port
  acked := by
    obtain ⟨removed, kept, heq, hsub, hall⟩ := h.acked
    exact ⟨removed, kept, heq, hsub, fun p hp =>
      ⟨d.contents, ⟨now, d, rfl, hproto, hintact, rfl, hport⟩, hall p hp⟩⟩
  opens hopen := by
    rcases h.opens hopen with h₁ | h₁ | h₁
    · exact .inl h₁
    · exact .inr (.inr ⟨d.contents, ⟨now, d, rfl, hproto, hintact, rfl, hport⟩, h₁⟩)
    · exact .inr (.inl h₁)
  queued p hp := by
    rcases h.queued p hp with h₁ | h₁
    · exact .inl (List.mem_map_of_mem h₁)
    · exact .inr ⟨now, d, rfl, hproto, hintact, h₁.symm, h₁ ▸ hport⟩

end Stepped

/-- Sending keeps the status and the input queue. -/
theorem streamSend_spec (now : Int) (c : TcpConnection) (data : List Byte) :
    Kept c (streamSend now c data).1 ∧ (streamSend now c data).1.status = c.status ∧
      (streamSend now c data).1.inqueue = c.inqueue := by
  rw [streamSend]
  split
  · exact ⟨.refl _, rfl, rfl⟩
  · refine List.foldlRecOn (motive := fun r : TcpConnection × List Out =>
      Kept c r.1 ∧ r.1.status = c.status ∧ r.1.inqueue = c.inqueue) _ _ ⟨.refl _, rfl, rfl⟩ ?_
    rintro r ⟨hkept, hstatus, hqueue⟩ k -
    exact ⟨hkept.send now _ _, hstatus, hqueue⟩

/-- Receiving copies out of the packets and unlinks some. -/
theorem receiveLoop_spec (ack : Word) : ∀ {queue lastSeqEnd size queue' bytes},
    receiveLoop ack queue lastSeqEnd size = some (queue', bytes) →
      (queue'.map Packet.packet).Sublist (queue.map Packet.packet)
  | [], lastSeqEnd, size, queue', bytes, h => by
      obtain ⟨rfl, -⟩ := Prod.mk.inj (Option.some.inj h)
      exact .refl _
  | p :: queue, lastSeqEnd, size, queue', bytes, h => by
      rw [receiveLoop] at h
      split at h
      · obtain ⟨rfl, -⟩ := Prod.mk.inj (Option.some.inj h)
        exact .refl _
      split at h
      · cases h
      dsimp only at h
      split at h
      · obtain ⟨⟨queue₁, bytes₁⟩, hloop, h⟩ := Option.bind_eq_some_iff.mp h
        obtain ⟨rfl, -⟩ := Prod.mk.inj (Option.some.inj h)
        exact (receiveLoop_spec ack hloop).cons_cons _
      split at h
      · cases h
      split at h
      · match queue, h with
        | [], h =>
            obtain ⟨rfl, -⟩ := Prod.mk.inj (Option.some.inj h)
            exact List.nil_sublist _
        | q :: queue, h =>
            obtain ⟨⟨queue₁, bytes₁⟩, hloop, h⟩ := Option.bind_eq_some_iff.mp h
            obtain ⟨rfl, -⟩ := Prod.mk.inj (Option.some.inj h)
            exact .cons _ ((receiveLoop_spec ack hloop).cons_cons _)
      · obtain ⟨⟨queue₁, bytes₁⟩, hloop, h⟩ := Option.bind_eq_some_iff.mp h
        obtain ⟨rfl, -⟩ := Prod.mk.inj (Option.some.inj h)
        exact (receiveLoop_spec ack hloop).cons_cons _

theorem forall₂_getElem? {α β : Type*} {R : α → β → Prop} {xs : List α} {ys : List β} {x : α} {i : Nat}
    (h : List.Forall₂ R xs ys) (hi : xs[i]? = some x) : ∃ y, ys[i]? = some y ∧ R x y := by
  induction h generalizing i with
  | nil => simp at hi
  | cons hxy _ ih =>
      cases i with
      | zero =>
          obtain rfl := by simpa using hi
          exact ⟨_, rfl, hxy⟩
      | succ i => exact ih (by simpa using hi)

/-- What a step does to the connection at a place of the list. -/
theorem tcpStep_spec {op : TcpOp} {cs cs' : List TcpConnection} {i : Nat} {c : TcpConnection}
    (h : tcpStep cs op = some cs') (hi : cs[i]? = some c) :
    ∃ c', cs'[i]? = some c' ∧ Stepped op c c' := by
  -- a step that puts a new connection at one place
  have hset : ∀ {j c₁ c₁'}, cs[j]? = some c₁ → Stepped op c₁ c₁' →
      ∃ c', (cs.set j c₁')[i]? = some c' ∧ Stepped op c c' := by
    intro j c₁ c₁' hj hstepped
    by_cases hij : j = i
    · subst hij
      obtain rfl : c₁ = c := Option.some.inj (hj.symm.trans hi)
      exact ⟨c₁', by rw [List.getElem?_set_self' , hi]; rfl, hstepped⟩
    · exact ⟨c, by rw [List.getElem?_set_ne hij, hi], .refl op c⟩
  cases op with
  | incoming now d =>
      obtain ⟨⟨cs₁, out⟩, hin, rfl⟩ := Option.map_eq_some_iff.mp h
      rcases incoming_spec hin with rfl | ⟨hproto, hintact, hall⟩
      · exact ⟨c, hi, .refl _ c⟩
      · obtain ⟨c', hc', out', hat⟩ := forall₂_getElem? hall hi
        refine ⟨c', hc', ?_⟩
        by_cases hport : d.contents.destPort = c.port
        · exact .of_received hproto hintact hport (incomingAt_spec hat hport)
        · rw [incomingAt_other hport] at hat
          obtain ⟨rfl, -⟩ := Prod.mk.inj (Option.some.inj hat)
          exact .refl _ c
  | streamSend now j data =>
      obtain ⟨c₁, hj, h⟩ := Option.bind_eq_some_iff.mp h
      obtain rfl := Option.some.inj h
      obtain ⟨hkept, hstatus, hqueue⟩ := streamSend_spec now c₁ data
      exact hset hj
        { port := hkept.port
          acked := ⟨[], c₁.outqueue, rfl, hkept.waits, by simp⟩
          opens := fun hopen => .inl (hstatus ▸ hopen)
          queued := fun p hp => .inl (List.mem_map_of_mem (hqueue ▸ hp)) }
  | streamRecv j size =>
      obtain ⟨c₁, hj, h⟩ := Option.bind_eq_some_iff.mp h
      obtain ⟨⟨c₂, bytes⟩, hrecv, h⟩ := Option.bind_eq_some_iff.mp h
      obtain rfl := Option.some.inj h
      obtain ⟨⟨queue, bytes'⟩, hloop, hrecv⟩ := Option.bind_eq_some_iff.mp hrecv
      obtain ⟨rfl, -⟩ := Prod.mk.inj (Option.some.inj hrecv)
      exact hset hj
        { port := rfl
          acked := ⟨[], c₁.outqueue, rfl, .refl _, by simp⟩
          opens := .inl
          queued := fun p hp =>
            .inl ((receiveLoop_spec c₁.ack hloop).subset (List.mem_map_of_mem hp)) }

/-! ### Runs -/

section runs

variable {i : Nat} {c : TcpConnection} {ops : List TcpOp} {cs cs' : List TcpConnection}

/-- A SYN for the port has come in, or the connection is not open and no SYN waits in its queue. -/
def NotYetOpened (port : Half) (ops : List TcpOp) (c : TcpConnection) : Prop :=
  (∃ op ∈ ops, ∃ s, op.Delivers port s ∧ s.has tcpSyn = true) ∨
    (c.status ≠ .opened ∧ ∀ p ∈ c.inqueue, p.packet.has tcpSyn = false)

theorem NotYetOpened.step {op : TcpOp} {c₁ c₂ : TcpConnection} (h : NotYetOpened c₁.port ops c₁)
    (hs : Stepped op c₁ c₂) : NotYetOpened c₁.port (ops ++ [op]) c₂ := by
  rcases h with ⟨op', hop, hsyn⟩ | ⟨hstatus, hqueue⟩
  · exact .inl ⟨op', List.mem_append_left _ hop, hsyn⟩
  · by_cases hnow : ∃ s, op.Delivers c₁.port s ∧ s.has tcpSyn = true
    · exact .inl ⟨op, by simp, hnow⟩
    · refine .inr ⟨fun hopen => ?_, fun p hp => ?_⟩
      · rcases hs.opens hopen with h₁ | ⟨p, hp, hsyn⟩ | h₁
        · exact hstatus h₁
        · rw [hqueue p hp] at hsyn
          cases hsyn
        · exact hnow h₁
      · rcases hs.queued p hp with hold | hnew
        · obtain ⟨q, hq, heq⟩ := List.mem_map.mp hold
          rw [← heq]
          exact hqueue q hq
        · rw [← Bool.not_eq_true]
          exact fun hsyn => hnow ⟨p.packet, hnew, hsyn⟩

/-- **Active open**: a connection that `tcp_connect` has put into `STATUS_SYN_SENT` is open only
after a SYN for its port came in, and what leaves a retransmission queue in a step has been
acknowledged by a number less than `0x40000000` after its end, or the segment was a reset. -/
theorem opened_after_syn {now : Int} {ip : Word}
    (hstart : cs[i]? = some (tcpConnect now ip c).1) (hrun : Run tcpStep anyStep cs ops cs') :
    (∀ c', cs'[i]? = some c' → c'.status = .opened →
      ∃ op ∈ ops, ∃ s, op.Delivers c.port s ∧ s.has tcpSyn = true) ∧
    ∀ (op : TcpOp) (cs'' : List TcpConnection) (j : Nat) (c₁ : TcpConnection),
      tcpStep cs' op = some cs'' → cs'[j]? = some c₁ →
      ∃ c₂ removed kept, cs''[j]? = some c₂ ∧ c₁.outqueue = removed ++ kept ∧
        kept.Sublist c₂.outqueue ∧ ∀ p ∈ removed, ∃ s, op.Delivers c₁.port s ∧
          (s.has tcpRst = true ∨ (s.has tcpAck = true ∧ s.ack - p.seqEnd < 0x40000000#32)) := by
  constructor
  · intro c' hc' hopen
    have hinv := hrun.history (I := fun ops cs => ∃ c₁, cs[i]? = some c₁ ∧ c₁.port = c.port ∧
        NotYetOpened c.port ops c₁) (fun ops cs op cs₁ hI _ hs => by
      obtain ⟨c₁, hc₁, hport, hnot⟩ := hI
      obtain ⟨c₂, hc₂, hstepped⟩ := tcpStep_spec hs hc₁
      rw [← hport] at hnot ⊢
      exact ⟨c₂, hc₂, hstepped.port, hnot.step hstepped⟩)
      ⟨_, hstart, rfl, .inr ⟨nofun, nofun⟩⟩
    obtain ⟨c₁, hc₁, -, hnot⟩ := hinv
    obtain rfl : c₁ = c' := Option.some.inj (hc₁.symm.trans hc')
    exact hnot.resolve_right fun h => h.1 hopen
  · intro op cs'' j c₁ hs hj
    obtain ⟨c₂, hc₂, hstepped⟩ := tcpStep_spec hs hj
    obtain ⟨removed, kept, hacked⟩ := hstepped.acked
    exact ⟨c₂, removed, kept, hc₂, hacked⟩

end runs

/-- The host 10 answers a SYN and acknowledges 1000, which was never sent. -/
def wildAnswer : Datagram :=
  { src := 10, dest := 20, protocol := 6,
    contents :=
      { srcPort := 80, destPort := 1024, seq := 7, ack := 1000, hdrlen := 0x50,
        flags := tcpSyn ||| tcpAck, window := 0, checksum := 42870, urgentptr := 0, rest := [] } }

theorem opened_after_syn_answer : ∃ op ∈ [TcpOp.incoming 0 wildAnswer],
    ∃ s, op.Delivers openToTen.port s ∧ s.has tcpSyn = true := by
  obtain ⟨cs', hrun, c', hc', hopen⟩ : ∃ cs', Run tcpStep anyStep
      [(tcpConnect 0 20 openToTen).1] [.incoming 0 wildAnswer] cs' ∧
      ∃ c', cs'[0]? = some c' ∧ c'.status = .opened :=
    ⟨_, .one trivial rfl, _, rfl, by decide⟩
  exact (opened_after_syn (i := 0) (c := openToTen) rfl hrun).1 c' hc' hopen

/-- The answer opens the connection and empties the retransmission queue, whose only segment, the
SYN, ends at 1: the number 1000 acknowledges nothing that was sent. -/
theorem wild_answer_opens : wildAnswer.contents.ack = 1000 ∧
    (tcpConnect 0 20 openToTen).1.seq = 1 ∧
    (tcpConnect 0 20 openToTen).1.outqueue.map Packet.seqEnd = [1] ∧
    ∃ c', tcpStep [(tcpConnect 0 20 openToTen).1] (.incoming 0 wildAnswer) = some [c'] ∧
      c'.status = .opened ∧ ∀ p ∈ (tcpConnect 0 20 openToTen).1.outqueue, p ∉ c'.outqueue :=
  ⟨by decide, by decide, by decide, _, rfl, by decide, by decide⟩

end Muxomucota.Net
