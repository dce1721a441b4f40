import Muxomucota.Net.Wire

/-!
# Net — the options of a DHCP answer

The two loops over the options in `main` of `progs/common/dhclient/dhclient.c`.  A read behind the packet
gives `none`.  The loops go on by the length of an option, which a pad does not have, and look at the value
of an option without its length.
-/

namespace Muxomucota.Net

/-! ### The code -/

/-- `in->options[i]`: `struct dhcp_packet` has 240 bytes before the options. -/
def optionAt (packet : List Byte) (i : Nat) : Option Byte := packet[240 + i]?

/-- `get_ip(&in->options[i])`. -/
def getIpAt (packet : List Byte) (i : Nat) : Option Word := do
  let a ← optionAt packet i
  let b ← optionAt packet (i + 1)
  let c ← optionAt packet (i + 2)
  let d ← optionAt packet (i + 3)
  return word a b c d

/-- What the offer says. -/
structure Offer where
  subnet : Word
  routerAddr : Word
  dnsAddr : Word
  deriving DecidableEq

def Offer.initial : Offer := { subnet := 0xffffff00, routerAddr := 0, dnsAddr := 0 }

/-- The body of a loop: what it makes of an option (`none` inside is `return 1`), and how many bytes of the
value it has looked at. -/
abbrev OptionBody (σ : Type) := (i : Nat) → σ → (code : Byte) → Option (Option σ × Nat)

/-- The test of the message type. -/
def messageType (packet : List Byte) (type : Byte) {σ : Type} (i : Nat) (s : σ) :
    Option (Option σ × Nat) :=
  (optionAt packet (i + 2)).map fun t => (if t ≠ type then none else some s, 1)

/-- The first loop: DHCPOFFER. -/
def offerOption (packet : List Byte) : OptionBody Offer := fun i offer code =>
  if code = 1 then
    (getIpAt packet (i + 2)).map fun ip => (some { offer with subnet := ip }, 4)
  else if code = 3 then
    (getIpAt packet (i + 2)).map fun ip => (some { offer with routerAddr := ip }, 4)
  else if code = 6 then
    (getIpAt packet (i + 2)).map fun ip => (some { offer with dnsAddr := ip }, 4)
  else if code = 53 then messageType packet 2 i offer
  else some (some offer, 0)

/-- The second loop: DHCPACK. -/
def ackOption (packet : List Byte) : OptionBody Unit := fun i s code =>
  if code = 53 then messageType packet 5 i s else some (some s, 0)

/-- An option that the loop has looked at, the bytes of the value, and where it went on. -/
structure Visit where
  i : Nat
  used : Nat
  next : Option Nat

/-- The loops, with at most `n` rounds, and the options that they look at. -/
def optionLoop {σ : Type} (packet : List Byte) (body : OptionBody σ) :
    (n : Nat) → (i : Nat) → σ → Option (Option σ × List Visit)
  | 0, _, _ => none
  | n + 1, i, s =>
      if packet.length ≤ 240 + i then some (some s, [])
      else do
        let code ← optionAt packet i
        if code = 255 then some (some s, [])
        else do
          let (r, used) ← body i s code
          match r with
          | none => some (none, [⟨i, used, none⟩])
          | some s => do
              let length ← optionAt packet (i + 1)
              let next := i + (length.toNat + 2)
              let (r, visits) ← optionLoop packet body n next s
              return (r, ⟨i, used, some next⟩ :: visits)

def offerLoop (packet : List Byte) : Option (Option Offer × List Visit) :=
  optionLoop packet (offerOption packet) (packet.length + 1) 0 .initial

def ackLoop (packet : List Byte) : Option (Option Unit × List Visit) :=
  optionLoop packet (ackOption packet) (packet.length + 1) 0 ()

/-! ### What is asked of the loops -/

/-- An option is looked at as it should be: it is not the end, a pad is one byte, and the value is in the
data of the option. -/
structure Visit.Sound (packet : List Byte) (v : Visit) : Prop where
  notEnd : ∃ code, optionAt packet v.i = some code ∧ code ≠ 255
  pad : optionAt packet v.i = some 0 → v.next = some (v.i + 1)
  own : v.used ≠ 0 → ∃ length, optionAt packet (v.i + 1) = some length ∧ v.used ≤ length.toNat

/-- A loop ends without a read behind the packet, and looks at the options as it should. -/
def ScansSoundly (packet : List Byte) {σ : Type} (result : Option (Option σ × List Visit)) : Prop :=
  ∃ r visits, result = some (r, visits) ∧ ∀ v ∈ visits, v.Sound packet

/-- What a loop wants of the options: how many bytes of a value, and which message type. -/
structure Wanted where
  size : Byte → Nat
  type : Byte

def offerWanted : Wanted :=
  { size := fun code => if code = 1 ∨ code = 3 ∨ code = 6 then 4 else if code = 53 then 1 else 0
    type := 2 }

def ackWanted : Wanted := { size := fun code => if code = 53 then 1 else 0, type := 5 }

/-- The condition, from an option on: no pads, and the length of every option is there and is not less
than what is wanted of the value, which is there too; up to the end of the packet, an end option or a
message of another type. -/
inductive Proper (packet : List Byte) (w : Wanted) : (i : Nat) → Prop where
  | past {i : Nat} (h : packet.length ≤ 240 + i) : Proper packet w i
  | stop {i : Nat} (h : optionAt packet i = some 255) : Proper packet w i
  | other {i : Nat} {length t : Byte} (hcode : optionAt packet i = some 53)
      (hlength : optionAt packet (i + 1) = some length) (hown : 1 ≤ length.toNat)
      (ht : optionAt packet (i + 2) = some t) (hne : t ≠ w.type) : Proper packet w i
  | next {i : Nat} {code length : Byte} (hcode : optionAt packet i = some code) (hpad : code ≠ 0)
      (hend : code ≠ 255) (hlength : optionAt packet (i + 1) = some length)
      (hown : w.size code ≤ length.toNat)
      (hin : w.size code = 0 ∨ 240 + (i + 2 + w.size code) ≤ packet.length)
      (htype : code = 53 → optionAt packet (i + 2) = some w.type)
      (t : Proper packet w (i + (length.toNat + 2))) : Proper packet w i

/-! ### Bodies -/

/-- The body looks at the value as far as is wanted, and refuses other message types. -/
structure Follows (packet : List Byte) (w : Wanted) {σ : Type} (body : OptionBody σ) : Prop where
  inside : ∀ i s code, w.size code = 0 ∨ 240 + (i + 2 + w.size code) ≤ packet.length →
    ∃ r, body i s code = some (r, w.size code) ∧
      (r = none ↔ code = 53 ∧ optionAt packet (i + 2) ≠ some w.type)
  outside : ∀ i s code, ¬ (w.size code = 0 ∨ 240 + (i + 2 + w.size code) ≤ packet.length) →
    body i s code = none

variable {packet : List Byte} {i n : Nat}

theorem optionAt_some (h : 240 + i < packet.length) : ∃ c, optionAt packet i = some c :=
  ⟨_, List.getElem?_eq_getElem h⟩

theorem optionAt_none : optionAt packet i = none ↔ packet.length ≤ 240 + i := List.getElem?_eq_none_iff

theorem optionAt_lt {c : Byte} (h : optionAt packet i = some c) : 240 + i < packet.length :=
  (List.getElem?_eq_some_iff.mp h).1

theorem getIpAt_some (h : 240 + (i + 4) ≤ packet.length) : ∃ ip, getIpAt packet i = some ip := by
  obtain ⟨a, ha⟩ := optionAt_some (by omega : 240 + i < packet.length)
  obtain ⟨b, hb⟩ := optionAt_some (by omega : 240 + (i + 1) < packet.length)
  obtain ⟨c, hc⟩ := optionAt_some (by omega : 240 + (i + 2) < packet.length)
  obtain ⟨d, hd⟩ := optionAt_some (by omega : 240 + (i + 3) < packet.length)
  exact ⟨word a b c d, by rw [getIpAt, ha, hb, hc, hd]; rfl⟩

theorem getIpAt_none (h : ¬ 240 + (i + 4) ≤ packet.length) : getIpAt packet i = none := by
  have hd : optionAt packet (i + 3) = none := optionAt_none.mpr (by omega)
  rw [getIpAt, hd]
  cases optionAt packet i <;> cases optionAt packet (i + 1) <;> cases optionAt packet (i + 2) <;> rfl

/-- The test of the message type looks at one byte. -/
theorem messageType_follows {σ : Type} (packet : List Byte) (type : Byte) (i : Nat) (s : σ) :
    (240 + (i + 2 + 1) ≤ packet.length → ∃ r, messageType packet type i s = some (r, 1) ∧
      (r = none ↔ optionAt packet (i + 2) ≠ some type)) ∧
    (¬ 240 + (i + 2 + 1) ≤ packet.length → messageType packet type i s = none) := by
  constructor
  · intro h
    obtain ⟨t, ht⟩ := optionAt_some (by omega : 240 + (i + 2) < packet.length)
    refine ⟨_, by rw [messageType, ht]; rfl, ?_⟩
    rw [ht]
    simp
  · intro h
    rw [messageType, optionAt_none.mpr (by omega : packet.length ≤ 240 + (i + 2))]
    rfl

theorem ack_follows (packet : List Byte) : Follows packet ackWanted (ackOption packet) where
  inside i s code h := by
    obtain ⟨hin, -⟩ := messageType_follows packet 5 i s
    unfold ackOption
    by_cases hcode : code = 53
    · subst hcode
      obtain ⟨r, hr, hnone⟩ := hin (h.resolve_left (by decide))
      exact ⟨r, hr, hnone.trans (and_iff_right rfl).symm⟩
    · have hsize : ackWanted.size code = 0 := if_neg hcode
      rw [if_neg hcode, hsize]
      exact ⟨some s, rfl, iff_of_false (Option.some_ne_none s) fun h => hcode h.1⟩
  outside i s code h := by
    unfold ackOption
    by_cases hcode : code = 53
    · subst hcode
      exact (messageType_follows packet 5 i s).2 (not_or.mp h).2
    · exact absurd (.inl (if_neg hcode)) h

/-- An address is four bytes. -/
theorem getIpAt_follows {σ : Type} (i : Nat) (f : Word → σ) :
    (240 + (i + 2 + 4) ≤ packet.length →
      ∃ s, (getIpAt packet (i + 2)).map (fun ip => (some (f ip), 4)) = some (some s, 4)) ∧
    (¬ 240 + (i + 2 + 4) ≤ packet.length →
      (getIpAt packet (i + 2)).map (fun ip => (some (f ip), 4)) = none) := by
  constructor
  · intro h
    obtain ⟨ip, hip⟩ := getIpAt_some h
    exact ⟨f ip, by rw [hip]; rfl⟩
  · intro h
    rw [getIpAt_none h]
    rfl

theorem offerWanted_other {code : Byte} (h1 : code ≠ 1) (h3 : code ≠ 3) (h6 : code ≠ 6)
    (h53 : code ≠ 53) : offerWanted.size code = 0 :=
  (if_neg (not_or.mpr ⟨h1, not_or.mpr ⟨h3, h6⟩⟩)).trans (if_neg h53)

theorem offer_follows (packet : List Byte) : Follows packet offerWanted (offerOption packet) where
  inside i s code h := by
    have haddr (hsize : offerWanted.size code = 4) (hcode : code ≠ 53) (f : Word → Offer) :
        ∃ r, (getIpAt packet (i + 2)).map (fun ip => (some (f ip), 4)) =
          some (r, offerWanted.size code) ∧
            (r = none ↔ code = 53 ∧ optionAt packet (i + 2) ≠ some offerWanted.type) := by
      rw [hsize] at h ⊢
      obtain ⟨s, hs⟩ := (getIpAt_follows i f).1 (h.resolve_left (by decide))
      exact ⟨some s, hs, iff_of_false (Option.some_ne_none s) fun h => hcode h.1⟩
    unfold offerOption
    split
    · rename_i hcode
      subst hcode
      exact haddr rfl (by decide) _
    · split
      · rename_i hcode
        subst hcode
        exact haddr rfl (by decide) _
      · split
        · rename_i hcode
          subst hcode
          exact haddr rfl (by decide) _
        · split
          · rename_i hcode
            subst hcode
            obtain ⟨r, hr, hnone⟩ := (messageType_follows packet 2 i s).1
              (h.resolve_left (by decide))
            exact ⟨r, hr, hnone.trans (and_iff_right rfl).symm⟩
          · rename_i h1 h3 h6 h53
            rw [offerWanted_other h1 h3 h6 h53]
            exact ⟨some s, rfl, iff_of_false (Option.some_ne_none s) fun h => h53 h.1⟩
  outside i s code h := by
    obtain ⟨hsize, hout⟩ := not_or.mp h
    have haddr (hsize : offerWanted.size code = 4) (f : Word → Offer) :
        (getIpAt packet (i + 2)).map (fun ip => (some (f ip), 4)) = none := by
      rw [hsize] at hout
      exact (getIpAt_follows i f).2 hout
    unfold offerOption
    split
    · rename_i hcode
      subst hcode
      exact haddr rfl _
    · split
      · rename_i hcode
        subst hcode
        exact haddr rfl _
      · split
        · rename_i hcode
          subst hcode
          exact haddr rfl _
        · split
          · rename_i hcode
            subst hcode
            exact (messageType_follows packet 2 i s).2 hout
          · rename_i h1 h3 h6 h53
            exact absurd (offerWanted_other h1 h3 h6 h53) hsize

/-! ### The loops -/

section loop

variable {σ : Type} {w : Wanted} {body : OptionBody σ} {s : σ}

/-- What comes of a round that goes on. -/
theorem scansSoundly_cons {result : Option (Option σ × List Visit)} {v : Visit} :
    ScansSoundly packet (do
      let (r, visits) ← result
      return (r, v :: visits)) ↔ v.Sound packet ∧ ScansSoundly packet result := by
  constructor
  · rintro ⟨r, visits, h, hsound⟩
    obtain ⟨⟨r', visits'⟩, hresult, heq⟩ := Option.bind_eq_some_iff.mp h
    cases heq
    exact ⟨hsound v List.mem_cons_self, r, visits', hresult,
      fun v' hv' => hsound v' (List.mem_cons_of_mem v hv')⟩
  · rintro ⟨hv, r, visits, rfl, hsound⟩
    refine ⟨r, v :: visits, rfl, fun v' hv' => ?_⟩
    rcases List.mem_cons.mp hv' with rfl | hv'
    · exact hv
    · exact hsound v' hv'

/-- What is proper at an option that is not the end. -/
theorem Proper.cases {code : Byte} (h : Proper packet w i) (hcode : optionAt packet i = some code)
    (hend : code ≠ 255) : ∃ length, optionAt packet (i + 1) = some length ∧
      ((code = 53 ∧ 1 ≤ length.toNat ∧ ∃ t, optionAt packet (i + 2) = some t ∧ t ≠ w.type) ∨
        (code ≠ 0 ∧ w.size code ≤ length.toNat ∧
          (w.size code = 0 ∨ 240 + (i + 2 + w.size code) ≤ packet.length) ∧
          (code = 53 → optionAt packet (i + 2) = some w.type) ∧
          Proper packet w (i + (length.toNat + 2)))) := by
  cases h with
  | past h => exact absurd (optionAt_lt hcode) (Nat.not_lt_of_le h)
  | stop h => exact absurd (Option.some.inj (hcode.symm.trans h)) hend
  | other hcode' hlength hown ht hne =>
      cases hcode.symm.trans hcode'
      exact ⟨_, hlength, .inl ⟨rfl, hown, _, ht, hne⟩⟩
  | next hcode' hpad hend hlength hown hin htype t =>
      cases hcode.symm.trans hcode'
      exact ⟨_, hlength, .inr ⟨hpad, hown, hin, htype, t⟩⟩

/-- A loop scans soundly exactly where the options are proper. -/
theorem optionLoop_iff (hbody : Follows packet w body) (hsize : w.size 53 = 1) (hpos : 0 < n)
    (hn : packet.length < 240 + i + n) :
    ScansSoundly packet (optionLoop packet body n i s) ↔ Proper packet w i := by
  induction n generalizing i s with
  | zero => exact absurd hpos (Nat.lt_irrefl 0)
  | succ n ih =>
      rw [optionLoop]
      by_cases hpast : packet.length ≤ 240 + i
      · rw [if_pos hpast]
        exact iff_of_true ⟨some s, [], rfl, fun v hv => absurd hv List.not_mem_nil⟩ (.past hpast)
      obtain ⟨code, hcode⟩ := optionAt_some (Nat.lt_of_not_le hpast)
      rw [if_neg hpast, hcode, Option.bind_eq_bind, Option.bind_some]
      by_cases hend : code = 255
      · rw [if_pos hend]
        exact iff_of_true ⟨some s, [], rfl, fun v hv => absurd hv List.not_mem_nil⟩
          (.stop (hend ▸ hcode))
      rw [if_neg hend]
      by_cases hin : w.size code = 0 ∨ 240 + (i + 2 + w.size code) ≤ packet.length
      · obtain ⟨r, hr, hnone⟩ := hbody.inside i s code hin
        rw [hr, Option.bind_eq_bind, Option.bind_some]
        cases r with
        | none =>
            -- a message of another type: the loop returns without the length
            obtain ⟨rfl, hother⟩ := hnone.mp rfl
            constructor
            · rintro ⟨r, visits, heq, hsound⟩
              cases heq
              have hv := hsound _ List.mem_cons_self
              rw [hsize] at hin hv
              obtain ⟨length, hlength, hown⟩ := hv.own Nat.one_ne_zero
              obtain ⟨t, ht⟩ := optionAt_some (by omega : 240 + (i + 2) < packet.length)
              exact .other hcode hlength hown ht fun heq => hother (heq ▸ ht)
            · intro h
              obtain ⟨length, hlength, ⟨-, hown, -⟩ | ⟨-, -, -, htype, -⟩⟩ := h.cases hcode hend
              · refine ⟨none, _, rfl, fun v hv => ?_⟩
                cases List.mem_singleton.mp hv
                refine ⟨⟨53, hcode, hend⟩, fun h0 => ?_, fun _ => ⟨length, hlength, ?_⟩⟩
                · cases hcode.symm.trans h0
                · rw [hsize]
                  exact hown
              · exact absurd (htype rfl) hother
        | some s =>
            have htype : code = 53 → optionAt packet (i + 2) = some w.type := fun h53 => by
              by_contra hother
              exact Option.some_ne_none s (hnone.mpr ⟨h53, hother⟩)
            cases hlength : optionAt packet (i + 1) with
            | none =>
                refine iff_of_false ?_ fun h => ?_
                · rintro ⟨r, visits, heq, -⟩
                  cases heq
                · obtain ⟨length, hlength', -⟩ := h.cases hcode hend
                  cases hlength.symm.trans hlength'
            | some length =>
                refine scansSoundly_cons.trans ?_
                rw [ih (by omega) (by omega)]
                constructor
                · rintro ⟨hv, ht⟩
                  have hpad : code ≠ 0 := fun h0 => by
                    have := Option.some.inj (hv.pad (h0 ▸ hcode))
                    dsimp only at this
                    omega
                  have hown : w.size code ≤ length.toNat := by
                    rcases Nat.eq_zero_or_pos (w.size code) with h0 | h0
                    · omega
                    · obtain ⟨length', hlength', hown⟩ := hv.own (Nat.ne_of_gt h0)
                      cases hlength.symm.trans hlength'
                      exact hown
                  exact .next hcode hpad hend hlength hown hin htype ht
                · intro h
                  obtain ⟨length', hlength', ⟨h53, -, t, ht, hne⟩ | ⟨hpad, hown, -, -, ht⟩⟩ :=
                    h.cases hcode hend
                  · cases ht.symm.trans (htype h53)
                    exact absurd rfl hne
                  · cases hlength.symm.trans hlength'
                    refine ⟨⟨⟨code, hcode, hend⟩, fun h0 => ?_, fun _ => ⟨_, hlength, hown⟩⟩, ht⟩
                    cases hcode.symm.trans h0
                    exact absurd rfl hpad
      · rw [hbody.outside i s code hin]
        refine iff_of_false ?_ fun h => ?_
        · rintro ⟨r, visits, h, -⟩
          cases h
        · obtain ⟨length, hlength, ⟨h53, -, t, ht, -⟩ | ⟨-, -, hin', -, -⟩⟩ := h.cases hcode hend
          · have hlt := optionAt_lt ht
            rw [h53, hsize] at hin
            omega
          · exact hin hin'

end loop

/-- **When the options are scanned soundly.**  The two loops over the options of a packet stay inside it,
take no pad for an option and values out of the data of their own options exactly if the options are
proper for what each of them wants. -/
theorem dhcp_options_iff (packet : List Byte) :
    (ScansSoundly packet (offerLoop packet) ↔ Proper packet offerWanted 0) ∧
      (ScansSoundly packet (ackLoop packet) ↔ Proper packet ackWanted 0) :=
  ⟨optionLoop_iff (offer_follows packet) rfl (Nat.succ_pos _) (by omega),
    optionLoop_iff (ack_follows packet) rfl (Nat.succ_pos _) (by omega)⟩

/-- A pad before the end: the end is taken for its length. -/
theorem pad_not_sound : ¬ ScansSoundly (List.replicate 240 0 ++ [0, 255])
    (offerLoop (List.replicate 240 0 ++ [0, 255])) := by
  rw [offerLoop, optionLoop_iff (offer_follows _) rfl (Nat.succ_pos _) (by omega)]
  intro h
  have hzero : optionAt (List.replicate 240 0 ++ [0, 255]) 0 = some 0 := rfl
  obtain ⟨length, -, ⟨h53, -⟩ | ⟨hpad, -⟩⟩ := h.cases hzero (by decide)
  · cases h53
  · exact absurd rfl hpad

end Muxomucota.Net
