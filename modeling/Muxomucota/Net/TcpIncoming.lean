import Mathlib.Data.List.Forall2
import Mathlib.Data.List.TakeWhile
import Muxomucota.Net.Tcp

/-!
# Net — what a segment does to a connection

One lemma for each function on the way from `incoming` to the queues.  Handling the input queue
changes the acknowledgement, the status and the queues of the connection, and the retransmission
queue only grows (`Kept`); it opens a connection only for a queued SYN (`Opens`).
-/

namespace Muxomucota.Net

/-- What handling a queue leaves as it is: all but the acknowledgement, the status, the sequence
number and the queues, and whatever waits for its acknowledgement goes on waiting. -/
structure Kept (c c' : TcpConnection) : Prop where
  id : c'.id = c.id
  port : c'.port = c.port
  window : c'.window = c.window
  waits : c.outqueue.Sublist c'.outqueue

namespace Kept

variable {c c₁ c' : TcpConnection}

theorem refl (c : TcpConnection) : Kept c c := ⟨rfl, rfl, rfl, .refl _⟩

theorem trans (h : Kept c c₁) (h' : Kept c₁ c') : Kept c c' :=
  ⟨h'.id.trans h.id, h'.port.trans h.port, h'.window.trans h.window, h.waits.trans h'.waits⟩

end Kept

/-! ### Queues -/

theorem insertPacket_sublist (p : Packet) : ∀ queue, List.Sublist queue (insertPacket p queue)
  | [] => List.nil_sublist _
  | q :: queue => by
      rw [insertPacket]
      split
      · exact (insertPacket_sublist p queue).cons_cons q
      · exact List.sublist_cons_self p _

theorem mem_insertPacket {p q : Packet} : ∀ {queue}, q ∈ insertPacket p queue ↔ q = p ∨ q ∈ queue
  | [] => by simp [insertPacket]
  | q' :: queue => by
      rw [insertPacket]
      split
      · rw [List.mem_cons, mem_insertPacket, List.mem_cons]
        tauto
      · rw [List.mem_cons]

/-- Sending changes nothing but the sequence number and the retransmission queue. -/
theorem Kept.send {c c₁ : TcpConnection} (h : Kept c c₁) (now : Int) (flags : Byte)
    (data : List Byte) : Kept c (sendTcpPacket now c₁ flags data).1 :=
  h.trans ⟨rfl, rfl, rfl, insertPacket_sublist _ _⟩

/-- An acknowledgement takes packets from the front of the retransmission queue. -/
theorem tcpAcked_spec (c : TcpConnection) (ack : Word) :
    ∃ removed, c.outqueue = removed ++ (tcpAcked c ack).outqueue ∧
      ∀ p ∈ removed, ack - p.seqEnd < 0x40000000#32 := by
  refine ⟨c.outqueue.takeWhile fun p => ack - p.seqEnd < 0x40000000#32, ?_, fun p hp => ?_⟩
  · exact List.takeWhile_append_dropWhile.symm
  · simpa using List.mem_takeWhile_imp hp

/-! ### The input queue -/

/-- A connection that is open now was open before, or a SYN was there. -/
def Opens (queue : List Packet) (c c' : TcpConnection) : Prop :=
  c'.status = .opened → c.status = .opened ∨ ∃ p ∈ queue, p.packet.has tcpSyn = true

section inqueue

variable {now : Int} {c c' : TcpConnection} {p : Packet} {queue queue' : List Packet}
  {out : List Out} {fin : Bool}

theorem takePacket_spec (h : takePacket now c p = some (c', out, fin)) :
    Kept c c' ∧ Opens [p] c c' := by
  have hack : ∀ status, Kept c { c with ack := p.seqEnd, status } := fun _ => ⟨rfl, rfl, rfl, .refl _⟩
  simp only [takePacket] at h
  split at h
  · cases h
  split at h
  · rename_i hsyn
    refine ⟨?_, fun _ => .inr ⟨p, by simp, hsyn⟩⟩
    split at h <;> obtain ⟨rfl, -⟩ := Prod.mk.inj (Option.some.inj h)
    · exact (hack _).send ..
    · exact (hack _).send ..
    · exact hack _
  split at h
  · split at h <;> obtain ⟨rfl, -⟩ := Prod.mk.inj (Option.some.inj h)
    · exact ⟨hack _, nofun⟩
    · exact ⟨hack _, nofun⟩
    · exact ⟨hack _, nofun⟩
  · obtain ⟨rfl, -⟩ := Prod.mk.inj (Option.some.inj h)
    exact ⟨hack _, .inl⟩

theorem Opens.trans {queue₁ : List Packet} {c₁ : TcpConnection} (h : Opens queue c c₁)
    (h' : Opens queue₁ c₁ c') : Opens (queue ++ queue₁) c c' := by
  intro hopen
  rcases h' hopen with h₁ | ⟨q, hq, hsyn⟩
  · exact (h h₁).imp id fun ⟨q, hq, hsyn⟩ => ⟨q, List.mem_append_left _ hq, hsyn⟩
  · exact .inr ⟨q, List.mem_append_right _ hq, hsyn⟩

theorem Opens.mono (h : Opens queue c c') (hsub : ∀ q ∈ queue, q ∈ queue') : Opens queue' c c' :=
  fun hopen => (h hopen).imp id fun ⟨q, hq, hsyn⟩ => ⟨q, hsub q hq, hsyn⟩

/-- The loop keeps the order of the queue and unlinks some of its packets. -/
theorem inqueueLoop_spec : ∀ {queue : List Packet} {c c' queue' out fin},
    inqueueLoop now queue c = some (c', queue', out, fin) →
      Kept c c' ∧ Opens queue c c' ∧ queue'.Sublist queue
  | [], c, c', queue', out, fin, h => by
      obtain ⟨rfl, rfl, -⟩ := by simpa only [inqueueLoop, Option.some.injEq, Prod.mk.injEq] using h
      exact ⟨.refl _, .inl, .refl _⟩
  | p :: queue, c, c', queue', out, fin, h => by
      rw [inqueueLoop] at h
      split at h
      · obtain ⟨⟨c₁, out₁, fin₁⟩, hp, h⟩ := Option.bind_eq_some_iff.mp h
        obtain ⟨hkept, hopens⟩ := takePacket_spec hp
        dsimp only at h
        split at h
        · -- the packet is unlinked and the one behind it passed over
          match queue, h with
          | [], h =>
              obtain ⟨rfl, rfl, -⟩ := by simpa only [Option.some.injEq, Prod.mk.injEq] using h
              exact ⟨hkept, hopens, List.nil_sublist _⟩
          | q :: queue, h =>
              obtain ⟨⟨c₂, queue₂, out₂, fin₂⟩, hq, h⟩ := Option.bind_eq_some_iff.mp h
              obtain ⟨hkept', hopens', hsub⟩ := inqueueLoop_spec hq
              obtain ⟨rfl, rfl, -⟩ := by simpa only [Option.some.injEq, Prod.mk.injEq] using h
              exact ⟨hkept.trans hkept', (hopens.trans hopens').mono (by simp; tauto),
                .cons _ (hsub.cons_cons q)⟩
        · obtain ⟨⟨c₂, queue₂, out₂, fin₂⟩, hq, h⟩ := Option.bind_eq_some_iff.mp h
          obtain ⟨hkept', hopens', hsub⟩ := inqueueLoop_spec hq
          obtain ⟨rfl, rfl, -⟩ := by simpa only [Option.some.injEq, Prod.mk.injEq] using h
          exact ⟨hkept.trans hkept', hopens.trans hopens', hsub.cons_cons p⟩
      · split at h
        · obtain ⟨rfl, rfl, -⟩ := by simpa only [Option.some.injEq, Prod.mk.injEq] using h
          exact ⟨.refl _, .inl, .refl _⟩
        · obtain ⟨⟨c₂, queue₂, out₂, fin₂⟩, hq, h⟩ := Option.bind_eq_some_iff.mp h
          obtain ⟨hkept', hopens', hsub⟩ := inqueueLoop_spec hq
          obtain ⟨rfl, rfl, -⟩ := by simpa only [Option.some.injEq, Prod.mk.injEq] using h
          exact ⟨hkept', hopens'.mono (by simp; tauto), hsub.cons_cons p⟩

theorem handleInqueue_spec (h : handleInqueue now c = some (c', out)) :
    Kept c c' ∧ Opens c.inqueue c c' ∧ c'.inqueue.Sublist c.inqueue := by
  obtain ⟨⟨c₁, queue₁, out₁, fin₁⟩, hloop, h⟩ := Option.bind_eq_some_iff.mp h
  obtain ⟨hkept, hopens, hsub⟩ := inqueueLoop_spec hloop
  have hkept' : Kept c { c₁ with inqueue := queue₁ } := hkept.trans ⟨rfl, rfl, rfl, .refl _⟩
  dsimp only at h
  split at h <;> obtain ⟨rfl, -⟩ := by simpa only [Option.some.injEq, Prod.mk.injEq] using h
  · exact ⟨hkept'.send .., hopens, hsub⟩
  · exact ⟨hkept', hopens, hsub⟩

end inqueue


/-! ### One segment -/

/-- What a segment may do to a connection that gets it. -/
structure Received (s : Segment) (c c' : TcpConnection) : Prop where
  id : c'.id = c.id
  port : c'.port = c.port
  acked : ∃ removed kept, c.outqueue = removed ++ kept ∧ kept.Sublist c'.outqueue ∧
    ∀ p ∈ removed, s.has tcpRst = true ∨
      (s.has tcpAck = true ∧ s.ack - p.seqEnd < 0x40000000#32)
  opens : c'.status = .opened →
    c.status = .opened ∨ s.has tcpSyn = true ∨ ∃ p ∈ c.inqueue, p.packet.has tcpSyn = true
  queued : ∀ p ∈ c'.inqueue, p ∈ c.inqueue ∨ p.packet = s

section incoming

variable {now : Int} {s : Segment} {d : Datagram} {c c' : TcpConnection}
  {cs cs' : List TcpConnection} {out : List Out}

theorem incomingAt_other (hport : s.destPort ≠ c.port) : incomingAt now s c = some (c, []) :=
  if_pos hport

/-- What noting a segment changes: the acknowledgement takes packets from the retransmission
queue, the input queue and the status stay. -/
structure Noted (s : Segment) (c c₁ : TcpConnection) : Prop where
  id : c₁.id = c.id
  port : c₁.port = c.port
  status : c₁.status = c.status
  inqueue : c₁.inqueue = c.inqueue
  acked : ∃ removed, c.outqueue = removed ++ c₁.outqueue ∧
    ∀ p ∈ removed, s.has tcpAck = true ∧ s.ack - p.seqEnd < 0x40000000#32

theorem noteSegment_spec (s : Segment) (c : TcpConnection) : Noted s c (noteSegment s c) := by
  have hnone : ∃ removed, c.outqueue = removed ++ c.outqueue ∧
      ∀ p ∈ removed, s.has tcpAck = true ∧ s.ack - p.seqEnd < 0x40000000#32 := ⟨[], rfl, by simp⟩
  have hack : s.has tcpAck = true → ∃ removed,
      c.outqueue = removed ++ (tcpAcked c s.ack).outqueue ∧
      ∀ p ∈ removed, s.has tcpAck = true ∧ s.ack - p.seqEnd < 0x40000000#32 := by
    intro hflag
    obtain ⟨removed, heq, hall⟩ := tcpAcked_spec c s.ack
    exact ⟨removed, heq, fun p hp => ⟨hflag, hall p hp⟩⟩
  rw [noteSegment]
  by_cases hflag : s.has tcpAck = true
  · rw [if_pos hflag]
    split <;> exact ⟨rfl, rfl, rfl, rfl, hack hflag⟩
  · rw [if_neg hflag]
    split <;> exact ⟨rfl, rfl, rfl, rfl, hnone⟩

/-- What follows once a segment is noted and the queue it may have been put in handled. -/
theorem Noted.handled {c₁ c₂ : TcpConnection} (h : Noted s c c₁) (queue : List Packet)
    (hqueue : ∀ p ∈ queue, p ∈ c.inqueue ∨ p.packet = s)
    (hkept : Kept { c₁ with inqueue := queue } c₂)
    (hopens : Opens queue { c₁ with inqueue := queue } c₂) (hsub : c₂.inqueue.Sublist queue) :
    Received s c c₂ where
  id := hkept.id.trans h.id
  port := hkept.port.trans h.port
  acked := by
    obtain ⟨removed, heq, hall⟩ := h.acked
    exact ⟨removed, c₁.outqueue, heq, hkept.waits, fun p hp => .inr (hall p hp)⟩
  opens hopen := by
    rcases hopens hopen with h₁ | ⟨p, hp, hsyn⟩
    · exact .inl (h.status.symm.trans h₁)
    · rcases hqueue p hp with hold | rfl
      · exact .inr (.inr ⟨p, hold, hsyn⟩)
      · exact .inr (.inl hsyn)
  queued p hp := hqueue p (hsub.subset hp)

theorem incomingAt_spec (h : incomingAt now s c = some (c', out)) (hport : s.destPort = c.port) :
    Received s c c' := by
  rw [incomingAt, if_neg (not_not.mpr hport)] at h
  have hnoted := noteSegment_spec s c
  dsimp only at h
  split at h
  · -- a reset empties both queues
    rename_i hrst
    obtain ⟨rfl, -⟩ := Prod.mk.inj (Option.some.inj h)
    exact ⟨hnoted.id, hnoted.port,
      ⟨c.outqueue, [], by simp, List.nil_sublist _, fun _ _ => .inl hrst⟩, nofun, nofun⟩
  · split at h
    · obtain ⟨rfl, -⟩ := Prod.mk.inj (Option.some.inj h)
      exact hnoted.handled (noteSegment s c).inqueue
        (fun p hp => .inl (hnoted.inqueue ▸ hp)) (.refl _) .inl (.refl _)
    · obtain ⟨⟨c₂, out₂⟩, hq, h⟩ := Option.bind_eq_some_iff.mp h
      obtain ⟨rfl, -⟩ := Prod.mk.inj (Option.some.inj h)
      obtain ⟨hkept, hopens, hsub⟩ := handleInqueue_spec hq
      refine hnoted.handled _ (fun p hp => ?_) hkept hopens hsub
      rcases mem_insertPacket.mp hp with rfl | hp
      · exact .inr rfl
      · exact .inl (hnoted.inqueue ▸ hp)

/-- Every connection is run against the segment by itself. -/
theorem incomingLoop_spec : ∀ {cs cs' out}, incomingLoop now s cs = some (cs', out) →
    List.Forall₂ (fun c c' => ∃ out, incomingAt now s c = some (c', out)) cs cs'
  | [], cs', out, h => by
      obtain ⟨rfl, -⟩ := Prod.mk.inj (Option.some.inj h)
      exact .nil
  | c :: cs, cs', out, h => by
      obtain ⟨⟨c₁, out₁⟩, hc, h⟩ := Option.bind_eq_some_iff.mp h
      obtain ⟨⟨cs₁, out₂⟩, hcs, h⟩ := Option.bind_eq_some_iff.mp h
      obtain ⟨rfl, -⟩ := Prod.mk.inj (Option.some.inj h)
      exact .cons ⟨out₁, hc⟩ (incomingLoop_spec hcs)

/-- One round of `incoming`: nothing happens, or every connection is run against the segment. -/
theorem incoming_spec (h : incoming now d cs = some (cs', out)) :
    cs' = cs ∨ (d.protocol = 6 ∧ d.intact = true ∧
      List.Forall₂ (fun c c' => ∃ out, incomingAt now d.contents c = some (c', out)) cs cs') := by
  rw [incoming] at h
  split at h
  · exact .inl (Prod.mk.inj (Option.some.inj h)).1.symm
  · rename_i hproto
    split at h
    · exact .inl (Prod.mk.inj (Option.some.inj h)).1.symm
    · rename_i hintact
      exact .inr ⟨not_not.mp hproto, not_not.mp hintact, incomingLoop_spec h⟩

end incoming

/-! ### Whose connection it is -/

/-- The datagram comes from the connection's peer, where it has one. -/
def TcpConnection.FromPeer (c : TcpConnection) (d : Datagram) : Prop :=
  c.destIp = 0 ∨ c.destPort = 0 ∨ (d.src = c.destIp ∧ d.contents.srcPort = c.destPort)

/-- **A segment changes only the connections with its destination port.** -/
theorem incoming_isolated {now : Int} {d : Datagram} {cs cs' : List TcpConnection} {out : List Out}
    (h : incoming now d cs = some (cs', out)) :
    List.Forall₂ (fun c c' => c' ≠ c → d.contents.destPort = c.port) cs cs' := by
  rcases incoming_spec h with rfl | ⟨-, -, hall⟩
  · exact List.forall₂_same.mpr fun c _ hne => absurd rfl hne
  · refine List.Forall₂.imp ?_ hall
    rintro c c' ⟨out, hc⟩ hne
    by_contra hport
    rw [incomingAt_other hport] at hc
    exact hne (Prod.mk.inj (Option.some.inj hc)).1.symm

/-- An open connection between port 1024 here and port 80 of the host 10. -/
def openToTen : TcpConnection :=
  { id := 1, ip := 20, destIp := 10, port := 1024, destPort := 80, status := .opened, seq := 1,
    ack := 1, owner := -1, signal := false, window := defaultWindow, inqueue := [], outqueue := [] }

/-- A reset that the host 11 sends to port 1024. -/
def strayReset : Datagram :=
  { src := 11, dest := 20, protocol := 6,
    contents :=
      { srcPort := 5555, destPort := 1024, seq := 7, ack := 0, hdrlen := 0x50, flags := tcpRst,
        window := 0, checksum := 38408, urgentptr := 0, rest := [] } }

theorem incoming_isolated_reset :
    List.Forall₂ (fun c c' => c' ≠ c → strayReset.contents.destPort = c.port)
      [openToTen, { openToTen with port := 1025 }]
      [{ openToTen with status := .closed, window := 0 }, { openToTen with port := 1025 }] :=
  incoming_isolated (show incoming 0 strayReset _ = some (_, []) by decide)

/-- The host 11 closes the connection to the host 10. -/
theorem stray_reset_closes : strayReset.intact = true ∧ ¬ openToTen.FromPeer strayReset ∧
    ∃ c', incoming 0 strayReset [openToTen] = some ([c'], []) ∧ openToTen.status = .opened ∧
      c'.status = .closed :=
  ⟨by decide, by unfold TcpConnection.FromPeer; decide,
    { openToTen with status := .closed, window := 0 }, by decide, rfl, rfl⟩

end Muxomucota.Net
