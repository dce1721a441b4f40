import Muxomucota.Net.TcpNumbers
import Muxomucota.Net.TcpStream

/-!
# Net — acknowledging what is there

`handle_inqueue` moves the acknowledgement over the packets that continue the stream.  In a sorted
queue one pass from the front is enough to reach everything without a gap (`advance`); but the loop
unlinks a packet that is all header and then passes over the one behind it, without a look.  It
acknowledges all it should if and only if none of these was needed (`Noticed`).
-/

namespace Muxomucota.Net

variable {base ack : Word} {p q : Packet} {queue queue' : List Packet} {c c' : TcpConnection}
  {now : Int} {out : List Out} {fin : Bool} {s : Segment}

/-- `seq <= ack < seq_end`, in the order of the code. -/
def Packet.continuesAt (p : Packet) (ack : Word) : Bool :=
  ack - p.seq < 0x40000000#32 ∧ ack ≠ p.seqEnd ∧ p.seqEnd - ack < 0x40000000#32

theorem continues_eq (c : TcpConnection) (p : Packet) : continues c p = p.continuesAt c.ack := rfl

/-- The packets lie in a window of less than `2 ^ 30` numbers, from `base` on. -/
def InWindow (base : Word) (queue : List Packet) : Prop :=
  ∀ p ∈ queue, distance base p.seq ≤ distance base p.seqEnd ∧ distance base p.seqEnd < 2 ^ 30

/-- How far the acknowledgement gets in one pass over the queue. -/
def advance (ack : Word) : List Packet → Word
  | [] => ack
  | p :: queue => advance (if p.continuesAt ack then p.seqEnd else ack) queue

/-- The loop acknowledges everything that follows: a packet behind an unlinked one is covered by the
others, and nothing that continues the stream is behind the packet where the loop stops. -/
def Noticed : List Packet → Word → Prop
  | [], _ => True
  | p :: queue, ack =>
      if p.continuesAt ack then
        if p.bare then
          match queue with
          | [] => True
          | q :: queue => q.continuesAt (advance p.seqEnd queue) = false ∧ Noticed queue p.seqEnd
        else Noticed queue p.seqEnd
      else if p.seq - ack < 0x40000000#32 then ∀ q ∈ queue, q.continuesAt ack = false
      else Noticed queue ack

/-! ### Positions in the window -/

theorem continuesAt_iff (h : distance base p.seq ≤ distance base p.seqEnd)
    (hlt : distance base p.seqEnd < 2 ^ 30) : p.continuesAt ack = true ↔
      distance base p.seq ≤ distance base ack ∧ distance base ack < distance base p.seqEnd := by
  have h₁ := p.seq.isLt
  have h₂ := p.seqEnd.isLt
  have h₃ := ack.isLt
  have h₄ := base.isLt
  simp only [Packet.continuesAt, decide_eq_true_eq, BitVec.lt_def, ← BitVec.toNat_inj.not, distance,
    BitVec.toNat_sub, BitVec.toNat_ofNat] at *
  omega

/-- A packet that neither continues the stream nor lies ahead has been acknowledged, or the
acknowledgement is outside the window. -/
theorem passed_le (h : distance base p.seq ≤ distance base p.seqEnd)
    (hlt : distance base p.seqEnd < 2 ^ 30) (hno : p.continuesAt ack = false)
    (hnear : ¬ p.seq - ack < 0x40000000#32) : distance base p.seqEnd ≤ distance base ack := by
  rw [← Bool.not_eq_true, continuesAt_iff h hlt] at hno
  have h₁ := p.seq.isLt
  have h₂ := p.seqEnd.isLt
  have h₃ := ack.isLt
  have h₄ := base.isLt
  simp only [BitVec.lt_def, distance, BitVec.toNat_sub, BitVec.toNat_ofNat] at *
  omega

theorem InWindow.tail (h : InWindow base (p :: queue)) : InWindow base queue :=
  fun q hq => h q (List.mem_cons_of_mem _ hq)

/-! ### One pass over the queue -/

/-- Where no packet continues the stream, the acknowledgement stays. -/
theorem advance_none (h : ∀ p ∈ queue, p.continuesAt ack = false) : advance ack queue = ack := by
  induction queue with
  | nil => rfl
  | cons p queue ih =>
      rw [advance, h p List.mem_cons_self]
      exact ih fun q hq => h q (List.mem_cons_of_mem _ hq)

/-- A pass that begins further on, but not beyond the end of the other one, ends where it ends. -/
theorem advance_from {ack' : Word} (hw : InWindow base queue) (hs : Sorted base queue)
    (hle : distance base ack ≤ distance base ack')
    (hend : distance base ack' ≤ distance base (advance ack queue)) :
    advance ack' queue = advance ack queue := by
  have heq : ∀ {a b : Word}, distance base a = distance base b → a = b := by
    intro a b hab
    have h := BitVec.eq_of_toNat_eq hab
    rw [← BitVec.sub_add_cancel a base, h, BitVec.sub_add_cancel]
  induction queue generalizing ack ack' with
  | nil => exact heq (Nat.le_antisymm hend hle)
  | cons p queue ih =>
      obtain ⟨hp, hlt⟩ := hw p List.mem_cons_self
      obtain ⟨hfirst, hrest⟩ := List.pairwise_cons.mp hs
      rw [advance] at hend ⊢
      rw [advance]
      by_cases hack : p.continuesAt ack = true
      · have hack₁ := (continuesAt_iff hp hlt).mp hack
        rw [if_pos hack] at hend ⊢
        by_cases hack' : p.continuesAt ack' = true
        · rw [if_pos hack']
        · rw [if_neg hack']
          rw [continuesAt_iff hp hlt] at hack'
          exact ih hw.tail hrest (by omega) hend
      · rw [if_neg hack] at hend ⊢
        by_cases hack' : p.continuesAt ack' = true
        · -- all packets from here on start behind the acknowledgement
          have hack₁ := (continuesAt_iff hp hlt).mp hack'
          rw [continuesAt_iff hp hlt] at hack
          have hnone : ∀ q ∈ queue, q.continuesAt ack = false := by
            intro q hq
            obtain ⟨hqle, hqlt⟩ := hw.tail q hq
            have := hfirst q hq
            rw [← Bool.not_eq_true, continuesAt_iff hqle hqlt]
            omega
          rw [advance_none hnone] at hend
          omega
        · rw [if_neg hack']
          exact ih hw.tail hrest hle hend

/-! ### The loop -/

theorem takePacket_ack (h : takePacket now c p = some (c', out, fin)) : c'.ack = p.seqEnd := by
  simp only [takePacket] at h
  split at h
  · cases h
  split at h
  · split at h <;> obtain ⟨rfl, -⟩ := Prod.mk.inj (Option.some.inj h) <;> rfl
  split at h
  · split at h <;> obtain ⟨rfl, -⟩ := Prod.mk.inj (Option.some.inj h) <;> rfl
  · obtain ⟨rfl, -⟩ := Prod.mk.inj (Option.some.inj h)
    rfl

/-- The acknowledgement does not go back; it gets as far as it should if everything was noticed; and
that is so if and only if nothing that stays in the queue continues the stream. -/
theorem inqueueLoop_noticed : ∀ {queue : List Packet} {c c' : TcpConnection} {queue' out fin},
    inqueueLoop now queue c = some (c', queue', out, fin) → InWindow base queue → Sorted base queue →
      distance base c.ack ≤ distance base c'.ack ∧
      (Noticed queue c.ack → c'.ack = advance c.ack queue) ∧
      ((∀ p ∈ queue', p.continuesAt c'.ack = false) ↔ Noticed queue c.ack)
  | [], c, c', queue', out, fin, h, _, _ => by
      obtain ⟨rfl, rfl, -⟩ := by simpa only [inqueueLoop, Option.some.injEq, Prod.mk.injEq] using h
      exact ⟨le_rfl, fun _ => rfl, by simp [Noticed]⟩
  | p :: queue, c, c', queue', out, fin, h, hw, hs => by
      obtain ⟨hle, hlt⟩ := hw p List.mem_cons_self
      obtain ⟨hfirst, hrest⟩ := List.pairwise_cons.mp hs
      rw [inqueueLoop, continues_eq] at h
      rw [Noticed.eq_def, advance]
      dsimp only
      by_cases hcont : p.continuesAt c.ack = true
      · have hpos := (continuesAt_iff hle hlt).mp hcont
        simp only [if_pos hcont] at h ⊢
        obtain ⟨⟨c₁, out₁, fin₁⟩, hp, h⟩ := Option.bind_eq_some_iff.mp h
        have hack := takePacket_ack hp
        dsimp only at h
        by_cases hbare : p.bare = true
        · simp only [if_pos hbare] at h ⊢
          cases queue with
          | nil =>
              obtain ⟨rfl, rfl, -⟩ := by simpa only [Option.some.injEq, Prod.mk.injEq] using h
              rw [hack]
              exact ⟨by omega, fun _ => rfl, by simp⟩
          | cons q queue =>
              -- `q` is passed over
              obtain ⟨⟨c₂, queue₂, out₂, fin₂⟩, hq, h⟩ := Option.bind_eq_some_iff.mp h
              obtain ⟨rfl, rfl, -⟩ := by simpa only [Option.some.injEq, Prod.mk.injEq] using h
              obtain ⟨hge, hadv, hiff⟩ := inqueueLoop_noticed hq hw.tail.tail
                (List.pairwise_cons.mp hrest).2
              rw [hack] at hge hadv hiff
              have hqle := hw q (by simp)
              have hqp := hfirst q List.mem_cons_self
              refine ⟨by omega, fun hall => ?_, ?_⟩
              · obtain ⟨hcovered, hnot⟩ := hall
                rw [hadv hnot, advance]
                split
                · rename_i hcontq
                  rw [continuesAt_iff hqle.1 hqle.2] at hcontq
                  rw [← hadv hnot] at hcovered
                  rw [← Bool.not_eq_true, continuesAt_iff hqle.1 hqle.2] at hcovered
                  rw [hadv hnot] at hge hcovered
                  exact (advance_from hw.tail.tail (List.pairwise_cons.mp hrest).2 (by omega)
                    (by omega)).symm
                · rfl
              · rw [List.forall_mem_cons, hiff]
                constructor
                · rintro ⟨hcovered, hnot⟩
                  exact ⟨hadv hnot ▸ hcovered, hnot⟩
                · rintro ⟨hcovered, hnot⟩
                  exact ⟨hadv hnot ▸ hcovered, hnot⟩
        · simp only [if_neg hbare] at h ⊢
          obtain ⟨⟨c₂, queue₂, out₂, fin₂⟩, hq, h⟩ := Option.bind_eq_some_iff.mp h
          obtain ⟨rfl, rfl, -⟩ := by simpa only [Option.some.injEq, Prod.mk.injEq] using h
          obtain ⟨hge, hadv, hiff⟩ := inqueueLoop_noticed hq hw.tail hrest
          rw [hack] at hge hadv hiff
          refine ⟨by omega, hadv, ?_⟩
          rw [List.forall_mem_cons, hiff, and_iff_right]
          rw [← Bool.not_eq_true, continuesAt_iff hle hlt]
          omega
      · simp only [if_neg hcont] at h ⊢
        have hcont : p.continuesAt c.ack = false := by simpa using hcont
        split at h
        · -- the loop stops
          rename_i hnear
          obtain ⟨rfl, rfl, -⟩ := by simpa only [Option.some.injEq, Prod.mk.injEq] using h
          rw [if_pos hnear, List.forall_mem_cons, and_iff_right hcont]
          exact ⟨le_rfl, fun hnone => (advance_none hnone).symm, Iff.rfl⟩
        · rename_i hnear
          obtain ⟨⟨c₂, queue₂, out₂, fin₂⟩, hq, h⟩ := Option.bind_eq_some_iff.mp h
          obtain ⟨rfl, rfl, -⟩ := by simpa only [Option.some.injEq, Prod.mk.injEq] using h
          obtain ⟨hge, hadv, hiff⟩ := inqueueLoop_noticed hq hw.tail hrest
          have hpassed := passed_le hle hlt hcont hnear
          rw [if_neg hnear]
          refine ⟨hge, hadv, ?_⟩
          rw [List.forall_mem_cons, hiff, and_iff_right]
          rw [← Bool.not_eq_true, continuesAt_iff hle hlt]
          omega

/-- The answer that `handle_inqueue` sends changes neither the acknowledgement nor the queue. -/
theorem handleInqueue_loop (h : handleInqueue now c = some (c', out)) :
    ∃ c₁ out₁ fin, inqueueLoop now c.inqueue c = some (c₁, c'.inqueue, out₁, fin) ∧
      c'.ack = c₁.ack := by
  obtain ⟨⟨c₁, queue₁, out₁, fin₁⟩, hloop, -⟩ := Option.bind_eq_some_iff.mp h
  obtain ⟨c₂, out₂, hc₂, hack, hqueue⟩ := handleInqueue_of_loop hloop
  obtain ⟨rfl, -⟩ := Prod.mk.inj (Option.some.inj (h.symm.trans hc₂))
  exact ⟨c₁, out₁, fin₁, hqueue ▸ hloop, hack⟩

/-- **Acknowledgement completeness**: of a sorted queue in its window, no packet that is left behind
continues the stream if and only if the loop noticed all that do. -/
theorem inqueue_complete_iff (hw : InWindow base c.inqueue) (hs : Sorted base c.inqueue)
    (h : handleInqueue now c = some (c', out)) :
    (∀ p ∈ c'.inqueue, continues c' p = false) ↔ Noticed c.inqueue c.ack := by
  obtain ⟨c₁, out₁, fin, hloop, hack⟩ := handleInqueue_loop h
  simp only [continues_eq, hack]
  exact (inqueueLoop_noticed hloop hw hs).2.2

/-- A connection whose peer's SYN came in behind the first byte. -/
def synBehindByte : TcpConnection :=
  let syn : Segment := { lastByte with seq := 0, flags := tcpSyn ||| tcpAck, rest := [] }
  let byte : Segment := { lastByte with seq := 1, flags := tcpAck }
  { openToTen with
    status := .synSent, ack := 0, inqueue := [receivedPacket syn, receivedPacket byte] }

/-- Two bytes that follow, and a third one behind a gap. -/
def bytesBeforeGap : TcpConnection :=
  let byte (seq : Word) : Segment := { lastByte with seq, flags := tcpAck }
  { openToTen with inqueue := [receivedPacket (byte 1), receivedPacket (byte 2), receivedPacket (byte 5)] }

theorem synBehindByte_window : InWindow 0 synBehindByte.inqueue := by
  unfold InWindow
  decide

theorem synBehindByte_sorted : Sorted 0 synBehindByte.inqueue := by
  unfold Sorted
  decide

theorem bytesBeforeGap_noticed : Noticed bytesBeforeGap.inqueue bytesBeforeGap.ack := by
  show Noticed [receivedPacket _, receivedPacket _, receivedPacket _] 1
  rw [Noticed, if_pos (by decide), if_neg (by decide), Noticed, if_pos (by decide),
    if_neg (by decide), Noticed, if_neg (by decide), if_pos (by decide)]
  exact nofun

/-- Both bytes are acknowledged, and the third one is not. -/
theorem inqueue_complete_gap : ∃ c' out, handleInqueue 0 bytesBeforeGap = some (c', out) ∧ c'.ack = 3 ∧
    ∀ p ∈ c'.inqueue, continues c' p = false := by
  obtain ⟨⟨c', out⟩, hc', hack⟩ : ∃ r, handleInqueue 0 bytesBeforeGap = some r ∧ r.1.ack = 3 :=
    ⟨_, rfl, by decide⟩
  have hw : InWindow 0 bytesBeforeGap.inqueue := by
    unfold InWindow
    decide
  have hs : Sorted 0 bytesBeforeGap.inqueue := by
    unfold Sorted
    decide
  exact ⟨c', out, hc', hack, (inqueue_complete_iff hw hs hc').mpr bytesBeforeGap_noticed⟩

/-- Behind the SYN, which is unlinked, the byte is passed over. -/
theorem byte_passed_over : InWindow 0 synBehindByte.inqueue ∧ Sorted 0 synBehindByte.inqueue ∧
    ∃ c' out, handleInqueue 0 synBehindByte = some (c', out) ∧
      ∃ p ∈ c'.inqueue, continues c' p = true := by
  refine ⟨synBehindByte_window, synBehindByte_sorted, ?_⟩
  have h : ((handleInqueue 0 synBehindByte).map
      fun r => r.1.inqueue.any (continues r.1)) = some true := by decide
  obtain ⟨⟨c', out⟩, hc', hany⟩ := Option.map_eq_some_iff.mp h
  exact ⟨c', out, hc', List.any_eq_true.mp hany⟩

end Muxomucota.Net
