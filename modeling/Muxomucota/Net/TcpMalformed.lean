import Muxomucota.Net.TcpRaw

/-!
# Net — malformed TCP segments

Runs of the TCP service over received bytes.  What has been queued is sound (`Packet.Sound`), so that
`handle_inqueue`, `F_PRESSURE` and the assertion of `tcp_receive` are safe; two places are not.  The
length of the header is taken from the segment without a look, and what `tcp_receive` copies out of a
packet is computed from the numbers of its neighbours.  Conditions on these two are all that is
needed (`malformed_harmless_iff`).
-/

namespace Muxomucota.Net.Raw
open Lib

variable {bytes : List Byte} {p : Packet} {queue : List Packet} {c : Connection} {cs : List Connection}
  {conn : TcpConnection} {now : Int} {ack lastSeqEnd n : Word} {d : Datagram}

/-! ### Sound packets -/

/-- The block has all of the header that is read, and the header does not claim more. -/
structure Sound (bytes : List Byte) : Prop where
  header : 16 ≤ bytes.length
  fits : bytes.length < 2 ^ 32
  hdrlen : hdrBytes bytes ≤ size bytes
  noRst : (segment bytes).has tcpRst = false

/-- A packet like this can stay in the queue. -/
def Packet.Sound (p : Packet) : Prop := Raw.Sound p.bytes

/-- Everything that is queued is sound. -/
def Connection.Sound (c : Connection) : Prop := ∀ p ∈ c.inqueue, p.Sound

theorem insertPacket_sound (hp : p.Sound) (hs : ∀ q ∈ queue, q.Sound) :
    Returns (insertPacket p queue) fun queue => ∀ q ∈ queue, q.Sound := by
  induction queue with
  | nil => simpa [insertPacket] using hp
  | cons q queue ih =>
      obtain ⟨hq, hrest⟩ := List.forall_mem_cons.mp hs
      rw [insertPacket, returns_bind, returns_reads]
      refine ⟨by have := hq.header; omega, ?_⟩
      split
      · rw [returns_bind]
        refine (ih hrest).mono fun queue hqueue => ?_
        rw [returns_ok]
        exact List.forall_mem_cons.mpr ⟨hq, hqueue⟩
      · rw [returns_ok]
        exact List.forall_mem_cons.mpr ⟨hp, hs⟩

/-- Without a RST no lock is taken twice. -/
theorem takePacket_isSome {p : Net.Packet} (h : p.packet.has tcpRst = false) :
    ∃ r, takePacket now conn p = some r := by
  simp only [takePacket, h, Bool.false_eq_true, if_false]
  split
  · split <;> exact ⟨_, rfl⟩
  split
  · split <;> exact ⟨_, rfl⟩
  · exact ⟨_, rfl⟩

theorem inqueueLoop_sound : ∀ {queue : List Packet} {conn : TcpConnection},
    (∀ p ∈ queue, p.Sound) → Returns (inqueueLoop now queue conn) fun r => ∀ p ∈ r.2.1, p.Sound
  | [], conn, _ => by
      rw [inqueueLoop, returns_ok]
      exact List.forall_mem_nil _
  | p :: queue, conn, hs => by
      obtain ⟨hp, hrest⟩ := List.forall_mem_cons.mp hs
      have hheader := hp.header
      rw [inqueueLoop, returns_bind, returns_reads]
      refine ⟨by omega, ?_⟩
      split
      · rw [returns_bind, returns_reads]
        refine ⟨by omega, ?_⟩
        obtain ⟨⟨conn₁, out, fin⟩, htaken⟩ : ∃ r, takePacket now conn p.view = some r :=
          takePacket_isSome hp.noRst
        rw [returns_bind, returns_once]
        refine ⟨_, htaken, ?_⟩
        dsimp only
        split
        · cases queue with
          | nil =>
              rw [returns_ok]
              exact List.forall_mem_nil _
          | cons q queue =>
              obtain ⟨hq, hrest⟩ := List.forall_mem_cons.mp hrest
              rw [returns_bind]
              refine (inqueueLoop_sound hrest).mono ?_
              rintro ⟨conn₂, queue₂, out₂, fin₂⟩ hloop
              rw [returns_ok]
              exact List.forall_mem_cons.mpr ⟨hq, hloop⟩
        · rw [returns_bind]
          refine (inqueueLoop_sound hrest).mono ?_
          rintro ⟨conn₂, queue₂, out₂, fin₂⟩ hloop
          rw [returns_ok]
          exact List.forall_mem_cons.mpr ⟨hp, hloop⟩
      · split
        · rw [returns_ok]
          exact hs
        · rw [returns_bind]
          refine (inqueueLoop_sound hrest).mono ?_
          rintro ⟨conn₂, queue₂, out₂, fin₂⟩ hloop
          rw [returns_ok]
          exact List.forall_mem_cons.mpr ⟨hp, hloop⟩

theorem handleInqueue_sound (hc : c.Sound) : Returns (handleInqueue now c) fun r => r.1.Sound := by
  rw [handleInqueue, returns_bind]
  refine (inqueueLoop_sound hc).mono ?_
  rintro ⟨conn, queue, out, fin⟩ hqueue
  dsimp only
  split
  · rw [returns_ok]
    exact hqueue
  · rw [returns_ok]
    exact hqueue

/-! ### A segment that comes in -/

/-- All of the header that is read is there, and it does not claim to be longer than the segment.  The
window is read only where the segment finds a connection. -/
def Datagram.Safe (d : Datagram) (cs : List Connection) : Prop :=
  d.protocol = 6 → d.intact = true →
    13 ≤ d.contents.length ∧ hdrBytes d.contents ≤ size d.contents ∧
      ∀ c ∈ cs, (segment d.contents).destPort = c.conn.port → 16 ≤ d.contents.length

/-- Sound connections and a segment with a sound header; `P` is what is to hold afterwards. -/
theorem incomingAt_iff {P : Connection → Prop} (hlen : 13 ≤ bytes.length)
    (hfits : bytes.length < 2 ^ 32) (hhdr : hdrBytes bytes ≤ size bytes) (hc : c.Sound)
    (hP : ∀ c, c.Sound → P c) :
    Returns (incomingAt now bytes c) (fun r => P r.1) ↔
      ((segment bytes).destPort = c.conn.port → 16 ≤ bytes.length) := by
  rw [incomingAt, returns_bind, returns_reads, and_iff_right (by omega)]
  split
  · rename_i hport
    rw [returns_ok]
    exact iff_of_true (hP c hc) fun heq => absurd heq hport
  rename_i hport
  rw [not_not] at hport
  rw [returns_bind, returns_reads, imp_iff_right hport]
  refine and_iff_left_of_imp fun hheader => ?_
  split
  · rw [returns_ok]
    exact hP _ (List.forall_mem_nil _)
  rename_i hrst
  split
  · rw [returns_ok]
    exact hP _ hc
  rw [returns_bind]
  have hp : Sound bytes := ⟨hheader, hfits, hhdr, by simpa using hrst⟩
  refine (insertPacket_sound (p := ⟨0, _, 0, bytes⟩) hp hc).mono fun queue hqueue => ?_
  rw [returns_bind]
  refine (handleInqueue_sound (c := ⟨_, queue⟩) hqueue).mono ?_
  rintro ⟨c₁, out⟩ hsound
  rw [returns_ok]
  exact hP c₁ hsound

theorem incomingLoop_iff {P : List Connection → Prop} (hlen : 13 ≤ bytes.length)
    (hfits : bytes.length < 2 ^ 32) (hhdr : hdrBytes bytes ≤ size bytes) (hs : ∀ c ∈ cs, c.Sound)
    (hP : ∀ cs, (∀ c ∈ cs, c.Sound) → P cs) :
    Returns (incomingLoop now bytes cs) (fun r => P r.1) ↔
      ∀ c ∈ cs, (segment bytes).destPort = c.conn.port → 16 ≤ bytes.length := by
  induction cs generalizing P with
  | nil =>
      rw [incomingLoop, returns_ok]
      exact iff_of_true (hP _ hs) (List.forall_mem_nil _)
  | cons c cs ih =>
      obtain ⟨hc, hrest⟩ := List.forall_mem_cons.mp hs
      rw [incomingLoop, List.forall_mem_cons, returns_bind]
      constructor
      · intro h
        refine ⟨(incomingAt_iff hlen hfits hhdr hc fun _ _ => trivial).mp
          (h.mono fun _ _ => trivial), ?_⟩
        obtain ⟨⟨c₁, out⟩, -, h⟩ := h
        rw [returns_bind] at h
        exact (ih hrest fun _ _ => trivial).mp (h.mono fun _ _ => trivial)
      · rintro ⟨hfirst, hothers⟩
        refine ((incomingAt_iff hlen hfits hhdr hc fun _ h => h).mpr hfirst).mono ?_
        rintro ⟨c₁, out⟩ hc₁
        rw [returns_bind]
        refine ((ih hrest fun _ h => h).mpr hothers).mono ?_
        rintro ⟨cs₁, out₁⟩ hcs₁
        rw [returns_ok]
        exact hP _ (List.forall_mem_cons.mpr ⟨hc₁, hcs₁⟩)

theorem incoming_iff {P : List Connection → Prop} (hs : ∀ c ∈ cs, c.Sound)
    (hP : ∀ cs, (∀ c ∈ cs, c.Sound) → P cs) :
    Returns (incoming now d cs) (fun r => P r.1) ↔ d.Safe cs := by
  unfold incoming Datagram.Safe
  split
  · rename_i hproto
    rw [returns_ok]
    exact iff_of_true (hP cs hs) fun heq => absurd heq hproto
  rename_i hproto
  rw [imp_iff_right (not_not.mp hproto)]
  split
  · rename_i hintact
    rw [returns_ok]
    exact iff_of_true (hP cs hs) fun heq => absurd heq hintact
  rename_i hintact
  rw [imp_iff_right (not_not.mp hintact)]
  simp only [returns_bind, returns_reads]
  constructor
  · rintro ⟨-, hlen, h⟩
    split at h
    · simp at h
    rename_i hhdr
    have hhdr := BitVec.not_lt.mp hhdr
    simp only [returns_bind, returns_reads] at h
    exact ⟨hlen, hhdr, (incomingLoop_iff hlen d.fits hhdr hs hP).mp h.2⟩
  · rintro ⟨hlen, hhdr, h⟩
    rw [if_neg (BitVec.not_lt.mpr hhdr)]
    simp only [returns_bind, returns_reads]
    refine ⟨by omega, hlen, ?_, (incomingLoop_iff hlen d.fits hhdr hs hP).mpr h⟩
    -- a header that is all of the segment has whole words
    split
    · rename_i hnone
      have hsize := dataSz_toNat d.fits hhdr
      rw [hdrBytes_le d.fits] at hhdr
      rw [hnone, hdrBytes_toNat] at hsize
      rw [hdrBytes_toNat] at hhdr
      have hzero : (0 : Word).toNat = 0 := rfl
      omega
    · exact hlen

/-! ### A read -/

/-- How much of a packet is not wanted: what has been read of it, and what the packets before it
cover. -/
def Packet.skipped (p : Packet) (lastSeqEnd : Word) : Word :=
  p.readOffset + (lastSeqEnd - p.view.seq)

/-- Wherever the loop of `tcp_receive` copies, no more than the payload is unwanted, or no more than
the payload is asked for. -/
def CopiesInside (ack : Word) : List Packet → Word → Word → Prop
  | [], _, _ => True
  | p :: queue, lastSeqEnd, n =>
      if p.view.ahead ack then True
      else if dataSz p.bytes = 0 then CopiesInside ack queue p.seqEnd n
      else
        let m := copySz p lastSeqEnd n
        (p.skipped lastSeqEnd ≤ dataSz p.bytes ∨ n ≤ dataSz p.bytes) ∧
        if ({ p with readOffset := p.readOffset + m } : Packet).drained lastSeqEnd then
          match queue with
          | [] => True
          | _ :: queue => CopiesInside ack queue p.seqEnd (n - m)
        else CopiesInside ack queue p.seqEnd (n - m)

theorem copySz_fits (hp : p.Sound) :
    (hdrBytes p.bytes).toNat + (copySz p lastSeqEnd n).toNat ≤ p.bytes.length ↔
      p.skipped lastSeqEnd ≤ dataSz p.bytes ∨ n ≤ dataSz p.bytes := by
  have hle := hp.hdrlen
  have hdata := dataSz_toNat hp.fits hle
  rw [hdrBytes_le hp.fits] at hle
  have hrem : dataSz p.bytes - p.readOffset - (lastSeqEnd - p.view.seq) =
      dataSz p.bytes - p.skipped lastSeqEnd := by
    unfold Packet.skipped
    grind
  have h₁ := (p.skipped lastSeqEnd).isLt
  have h₂ := (dataSz p.bytes).isLt
  have h₃ := n.isLt
  unfold copySz
  rw [hrem]
  dsimp only
  split
  all_goals
    rename_i hlt
    simp only [BitVec.lt_def, BitVec.le_def, BitVec.toNat_sub] at *
    omega

/-- It fails if and only if it copies from outside a packet, and packets stay sound. -/
theorem receiveLoop_iff : ∀ {queue : List Packet} {lastSeqEnd n : Word} {P : List Packet → Prop},
    (∀ p ∈ queue, p.Sound) → (∀ queue, (∀ p ∈ queue, p.Sound) → P queue) →
    (Returns (receiveLoop ack queue lastSeqEnd n) (fun r => P r.1) ↔
      CopiesInside ack queue lastSeqEnd n)
  | [], lastSeqEnd, n, P, hs, hP => by
      rw [receiveLoop, returns_ok]
      exact iff_of_true (hP _ hs) trivial
  | p :: queue, lastSeqEnd, n, P, hs, hP => by
      obtain ⟨hp, hrest⟩ := List.forall_mem_cons.mp hs
      have hheader := hp.header
      rw [receiveLoop, CopiesInside.eq_def]
      dsimp only
      split
      · rw [returns_ok]
        exact iff_of_true (hP _ hs) trivial
      rw [returns_bind, returns_reads, and_iff_right (by omega),
        if_neg (BitVec.not_lt.mpr hp.hdrlen)]
      split
      · simp only [returns_bind, returns_ok]
        exact receiveLoop_iff hrest fun queue hqueue => hP _ (List.forall_mem_cons.mpr ⟨hp, hqueue⟩)
      rw [returns_bind, returns_reads, and_iff_right (by omega), returns_bind, returns_reads,
        copySz_fits hp]
      refine and_congr_right fun _ => ?_
      split
      · cases queue with
        | nil =>
            rw [returns_ok]
            exact iff_of_true (hP _ (List.forall_mem_nil _)) trivial
        | cons q queue =>
            obtain ⟨hq, hrest⟩ := List.forall_mem_cons.mp hrest
            simp only [returns_bind, returns_ok]
            exact receiveLoop_iff hrest fun queue hqueue =>
              hP _ (List.forall_mem_cons.mpr ⟨hq, hqueue⟩)
      · have hp' : ({ p with readOffset := p.readOffset + copySz p lastSeqEnd n } : Packet).Sound := hp
        simp only [returns_bind, returns_ok]
        exact receiveLoop_iff hrest fun queue hqueue => hP _ (List.forall_mem_cons.mpr ⟨hp', hqueue⟩)

/-- The `last_seq_end` that a read begins with. -/
def seqStart : List Packet → Word
  | p :: _ => p.view.seq
  | [] => 0

theorem firstSeq_iff (hs : ∀ p ∈ queue, p.Sound) {P : Word → Prop} :
    Returns (firstSeq queue) P ↔ P (seqStart queue) := by
  cases queue with
  | nil => exact returns_ok
  | cons p queue =>
      have hheader := (hs p List.mem_cons_self).header
      rw [firstSeq, returns_bind, returns_reads, returns_ok]
      exact and_iff_right (by omega)

theorem pressureLoop_returns (hs : ∀ p ∈ queue, p.Sound) :
    Returns (pressureLoop ack queue lastSeqEnd) fun _ => True := by
  induction queue generalizing lastSeqEnd with
  | nil => exact ⟨_, rfl, trivial⟩
  | cons p queue ih =>
      obtain ⟨hp, hrest⟩ := List.forall_mem_cons.mp hs
      have hheader := hp.header
      rw [pressureLoop]
      split
      · exact ⟨_, rfl, trivial⟩
      · rw [returns_bind, returns_reads, returns_bind]
        exact ⟨by omega, (ih hrest).mono fun press _ => returns_ok.mpr trivial⟩

/-- `F_PRESSURE` never fails. -/
theorem pressure_returns (hc : c.Sound) : Returns (pressure c) fun _ => True := by
  rw [pressure, returns_bind, firstSeq_iff hc]
  exact pressureLoop_returns hc

/-! ### Runs -/

/-- A call of the service.  `others` is all that neither takes in a segment nor reads: it leaves
connections whose input queues are empty or those of before. -/
inductive Op where
  | incoming (now : Int) (d : Datagram)
  | receive (i : Nat) (n : Word)
  | pressure (i : Nat)
  | others (cs : List Connection)

/-- One call, for the connections; those are named by their place in the list. -/
def step (cs : List Connection) : Op → Except Fault (List Connection)
  | .incoming now d => do
      let r ← incoming now d cs
      .ok r.1
  | .receive i n =>
      match cs[i]? with
      | none => .ok cs
      | some c => do
          let r ← tcpReceive c n
          .ok (cs.set i r.1)
  | .pressure i =>
      match cs[i]? with
      | none => .ok cs
      | some c => do
          let _ ← pressure c
          .ok cs
  | .others cs' =>
      .ok (if ∀ c' ∈ cs', c'.inqueue = [] ∨ c'.inqueue ∈ cs.map Connection.inqueue then cs' else cs)

/-- One call after the other, up to the first that fails. -/
def run : List Connection → List Op → Except Fault (List Connection)
  | cs, [] => .ok cs
  | cs, op :: ops => do
      let cs ← step cs op
      run cs ops

/-- What a call asks of the connections and of its arguments. -/
def Op.Safe (cs : List Connection) : Op → Prop
  | .incoming _ d => d.Safe cs
  | .receive i n => ∀ c, cs[i]? = some c →
      CopiesInside c.conn.ack c.inqueue (seqStart c.inqueue) n
  | .pressure _ => True
  | .others _ => True

/-- Every call is safe where it is made. -/
def AllSafe : List Connection → List Op → Prop
  | _, [] => True
  | cs, op :: ops => op.Safe cs ∧ ∀ cs', step cs op = .ok cs' → AllSafe cs' ops

theorem tcpReceive_iff {P : Connection → Prop} (hc : c.Sound) (hP : ∀ c, c.Sound → P c) :
    Returns (tcpReceive c n) (fun r => P r.1) ↔
      CopiesInside c.conn.ack c.inqueue (seqStart c.inqueue) n := by
  rw [tcpReceive, returns_bind, firstSeq_iff hc, returns_bind]
  simp only [returns_ok]
  exact receiveLoop_iff (P := fun queue => P { c with inqueue := queue }) hc fun queue hqueue =>
    hP _ hqueue

/-- One call keeps everything sound, and fails if and only if it is not safe. -/
theorem step_iff {P : List Connection → Prop} (hs : ∀ c ∈ cs, c.Sound)
    (hP : ∀ cs, (∀ c ∈ cs, c.Sound) → P cs) (op : Op) :
    Returns (step cs op) P ↔ op.Safe cs := by
  cases op with
  | incoming now d =>
      rw [step, returns_bind]
      simp only [returns_ok]
      exact incoming_iff hs hP
  | receive i n =>
      rw [step, Op.Safe]
      cases hi : cs[i]? with
      | none =>
          rw [returns_ok]
          exact iff_of_true (hP cs hs) fun c hc => (Option.some_ne_none c hc.symm).elim
      | some c =>
          simp only [returns_bind, returns_ok, Option.some.injEq, forall_eq']
          refine tcpReceive_iff (P := fun c' => P (cs.set i c')) (hs c (List.mem_of_getElem? hi)) ?_
          intro c' hc'
          refine hP _ fun c'' hmem => ?_
          rcases List.mem_or_eq_of_mem_set hmem with hold | rfl
          · exact hs c'' hold
          · exact hc'
  | pressure i =>
      rw [step, Op.Safe]
      cases hi : cs[i]? with
      | none =>
          rw [returns_ok]
          exact iff_of_true (hP cs hs) trivial
      | some c =>
          simp only [returns_bind, returns_ok]
          exact iff_of_true ((pressure_returns (hs c (List.mem_of_getElem? hi))).mono
            fun _ _ => hP cs hs) trivial
  | others cs' =>
      rw [step, returns_ok, Op.Safe]
      refine iff_of_true (hP _ ?_) trivial
      split
      · rename_i hall
        intro c' hc' p hp
        rcases hall c' hc' with hnil | hold
        · rw [hnil] at hp
          cases hp
        · obtain ⟨c, hc, heq⟩ := List.mem_map.mp hold
          exact hs c hc p (heq ▸ hp)
      · exact hs

/-- A run fails if and only if one of its calls is not safe. -/
theorem run_iff (hs : ∀ c ∈ cs, c.Sound) (ops : List Op) :
    Returns (run cs ops) (fun _ => True) ↔ AllSafe cs ops := by
  induction ops generalizing cs with
  | nil =>
      rw [run, returns_ok]
      exact iff_of_true trivial trivial
  | cons op ops ih =>
      rw [run, returns_bind, AllSafe]
      constructor
      · intro h
        have hsafe := (step_iff hs (fun _ _ => trivial) op).mp (h.mono fun _ _ => trivial)
        obtain ⟨cs₁, hstep, hsound⟩ := (step_iff hs (fun _ h => h) op).mpr hsafe
        obtain ⟨cs₂, hstep₂, hrun⟩ := h
        obtain rfl := Except.ok.inj (hstep.symm.trans hstep₂)
        refine ⟨hsafe, fun cs' hcs' => ?_⟩
        obtain rfl := Except.ok.inj (hstep.symm.trans hcs')
        exact (ih hsound).mp hrun
      · rintro ⟨hsafe, hrest⟩
        obtain ⟨cs₁, hstep, hsound⟩ := (step_iff hs (fun _ h => h) op).mpr hsafe
        exact ⟨cs₁, hstep, (ih hsound).mpr (hrest cs₁ hstep)⟩

/-- **Malformed segments**: from the start of the service on, no call reads outside a segment, finds
a payload of negative size or fails an assertion, if and only if every segment that comes in has its
header and does not claim a longer one, and every read copies from inside the packets. -/
theorem malformed_harmless_iff (ops : List Op) :
    (∃ cs, run [] ops = .ok cs) ↔ AllSafe [] ops := by
  rw [← run_iff (List.forall_mem_nil _)]
  simp only [Returns, and_true]

/-- A segment from port 80 of the host 10 to port 1024 here. -/
def fromTen (seq hdrlen : Byte) (checksum : Half) (data : List Byte) : List Byte :=
  [0, 80, 4, 0, 0, 0, 0, seq, 0, 0, 0, 1, hdrlen, 24, 64, 0] ++ be16 checksum ++ [0, 0] ++ data

/-- Its header claims to have sixty bytes, and there are twenty. -/
def longHeader : Datagram where
  src := 10
  dest := 20
  protocol := 6
  contents := fromTen 1 0xF0 52060 []
  fits := by decide

/-- One byte of the stream. -/
def oneByte (seq : Byte) (checksum : Half) : Datagram where
  src := 10
  dest := 20
  protocol := 6
  contents := fromTen seq 0x50 checksum [7]
  fits := (by decide : 21 < 2 ^ 32)

/-- One byte comes in and is read. -/
example : ∃ cs, run [] [.others [⟨openToTen, []⟩], .incoming 0 (oneByte 1 25692), .receive 0 10] =
    .ok cs := ⟨_, rfl⟩

/-- The long header gives a payload of negative size.  And of three bytes in a row, the third is read
with a wrong `last_seq_end`, since the second was passed over: the copy ends outside its packet. -/
theorem long_header_fails :
    (longHeader.intact = true ∧ run [] [.incoming 0 longHeader] = .error .negativeSize) ∧
    ((oneByte 1 25692).intact = true ∧ (oneByte 2 25691).intact = true ∧
      (oneByte 3 25690).intact = true ∧
      run [] [.others [⟨openToTen, []⟩], .incoming 0 (oneByte 1 25692),
        .incoming 0 (oneByte 2 25691), .incoming 0 (oneByte 3 25690), .receive 0 10] =
          .error .readOutside) :=
  ⟨⟨by decide, rfl⟩, by decide, by decide, by decide, rfl⟩

end Muxomucota.Net.Raw
