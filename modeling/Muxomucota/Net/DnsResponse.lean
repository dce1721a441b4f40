import Muxomucota.Net.Wire
import Muxomucota.Text.PrintNumbers

/-!
# Net — the answer to the DNS service

The second part of `update_ip` (`progs/common/dns/dns.c`), which takes the address out of what was received:
at most 2048 bytes of it, as many as the buffer has.  A read behind these gives `none`.

`AnswerAt` is how the message is read by the rules of DNS, where a name is labels, or ends in a pointer.
The loops of the code take a name for what goes up to a zero byte, or for two bytes.
-/

namespace Muxomucota.Net

/-! ### The code -/

/-- `(buf[o] << 8) | buf[o + 1]` -/
def halfAt (buf : List Byte) (o : Nat) : Option Half := do
  let a ← buf[o]?
  let b ← buf[o + 1]?
  return half a b

/-- `while (buf[o++]);` with at most `n` rounds: `o` behind it. -/
def skipName (buf : List Byte) : (n : Nat) → (o : Nat) → Option Nat
  | 0, _ => none
  | n + 1, o => do
      let c ← buf[o]?
      if c ≠ 0 then skipName buf n (o + 1) else some (o + 1)

/-- The loop over the questions. -/
def skipQuestions (buf : List Byte) : (qcount : Nat) → (o : Nat) → Option Nat
  | 0, o => some o
  | n + 1, o => do
      let o ← skipName buf (buf.length + 1) o
      skipQuestions buf n (o + 4)

/-- What `update_ip` sets, and where the four bytes stood, which it does not keep. -/
structure Resolved where
  ipString : List Byte
  ip : Word
  source : Nat
  deriving DecidableEq

/-- `sprintf(ip_string, "%i.%i.%i.%i", ...)` and the loop that makes `ip`. -/
def resolvedAt (buf : List Byte) (o : Nat) : Option Resolved := do
  let a ← buf[o]?
  let b ← buf[o + 1]?
  let c ← buf[o + 2]?
  let d ← buf[o + 3]?
  let text (x : Byte) := Text.decimalText x.toNat
  return { ipString := text a ++ 0x2e :: text b ++ 0x2e :: text c ++ 0x2e :: text d
           ip := word a b c d, source := o }

/-- The loop over the answers; `none` inside where it finds no address. -/
def readAnswers (buf : List Byte) : (acount : Nat) → (o : Nat) → Option (Option Resolved)
  | 0, _ => some none
  | n + 1, o => do
      let o := o + 2
      let type ← halfAt buf o
      if type = 0x0001 then some <$> resolvedAt buf (o + 10)
      else do
        let o := o + 8
        let length ← halfAt buf o
        readAnswers buf n (o + (length.toNat + 2))

/-- What is in the buffer of what came. -/
def dnsReceived (response : List Byte) : List Byte := response.take 2048

/-- The parsing part of `update_ip`. -/
def parseResponse (response : List Byte) : Option (Option Resolved) := do
  let buf := dnsReceived response
  let qcount ← halfAt buf 4
  let acount ← halfAt buf 6
  let o ← skipQuestions buf qcount.toNat 12
  readAnswers buf acount.toNat o

/-! ### The rules of DNS -/

/-- A name from `o` to `o'`. -/
inductive NameAt (buf : List Byte) : (o o' : Nat) → Prop where
  | root {o : Nat} (h : buf[o]? = some 0) : NameAt buf o (o + 1)
  | pointer {o : Nat} {a b : Byte} (ha : buf[o]? = some a) (hp : 0xC0 ≤ a.toNat)
      (hb : buf[o + 1]? = some b) : NameAt buf o (o + 2)
  | label {o o' : Nat} {a : Byte} (ha : buf[o]? = some a) (hpos : 0 < a.toNat) (hlong : a.toNat ≤ 63)
      (t : NameAt buf (o + 1 + a.toNat) o') : NameAt buf o o'

/-- `k` questions from `o` to `o'`. -/
inductive QuestionsAt (buf : List Byte) : (k o o' : Nat) → Prop where
  | nil {o : Nat} : QuestionsAt buf 0 o o
  | cons {k o p o' : Nat} (hn : NameAt buf o p) (hin : p + 4 ≤ buf.length)
      (t : QuestionsAt buf k (p + 4) o') : QuestionsAt buf (k + 1) o o'

/-- A record from `o` to `o'`, of the type, with its data at `data`. -/
structure RecordAt (buf : List Byte) (o : Nat) (type : Half) (data o' : Nat) : Prop where
  fixed : ∃ p, NameAt buf o p ∧ halfAt buf p = some type ∧ data = p + 10 ∧
    ∃ length, halfAt buf (p + 8) = some length ∧ o' = data + length.toNat
  inside : o' ≤ buf.length

/-- `k` records from `o` to `o'`. -/
inductive RecordsAt (buf : List Byte) : (k o o' : Nat) → Prop where
  | nil {o : Nat} : RecordsAt buf 0 o o
  | cons {k o data p o' : Nat} {type : Half} (hr : RecordAt buf o type data p)
      (t : RecordsAt buf k p o') : RecordsAt buf (k + 1) o o'

/-- One of the answers of the message is of the type and has its data at `data`, up to `stop`. -/
def AnswerAt (buf : List Byte) (type : Half) (data stop : Nat) : Prop :=
  ∃ qcount acount q k o, halfAt buf 4 = some qcount ∧ halfAt buf 6 = some acount ∧
    QuestionsAt buf qcount.toNat 12 q ∧ k < acount.toNat ∧ RecordsAt buf k q o ∧
    RecordAt buf o type data stop

/-- The message is read inside its bounds, and an address comes out of the data of an answer of type A
that has four bytes of data. -/
def SafelyParsed (response : List Byte) : Prop :=
  ∃ result, parseResponse response = some result ∧ ∀ r, result = some r →
    AnswerAt (dnsReceived response) 1 r.source (r.source + 4)

/-! ### What the loops take -/

/-- The first zero byte from `o` on is at `e`. -/
structure FirstZero (buf : List Byte) (o e : Nat) : Prop where
  le : o ≤ e
  zero : buf[e]? = some 0
  before : ∀ i, o ≤ i → i < e → ∃ c, buf[i]? = some c ∧ c ≠ 0

/-- `k` questions, each up to a zero byte and four more. -/
inductive ZeroEnded (buf : List Byte) : (k o o' : Nat) → Prop where
  | nil {o : Nat} : ZeroEnded buf 0 o o
  | cons {k o e o' : Nat} (hz : FirstZero buf o e) (t : ZeroEnded buf k (e + 1 + 4) o') :
      ZeroEnded buf (k + 1) o o'

/-- `k` answers of other types than A, each with a name of two bytes. -/
inductive Others (buf : List Byte) : (k o o' : Nat) → Prop where
  | nil {o : Nat} : Others buf 0 o o
  | cons {k o o' : Nat} {type length : Half} (htype : halfAt buf (o + 2) = some type) (hne : type ≠ 1)
      (hlength : halfAt buf (o + 10) = some length) (t : Others buf k (o + 12 + length.toNat) o') :
      Others buf (k + 1) o o'

/-- The name of one of `acount` answers behind `qcount` questions ends at `o`. -/
def NameEnds (buf : List Byte) (qcount acount o : Nat) : Prop :=
  ∃ q k p, QuestionsAt buf qcount 12 q ∧ k < acount ∧ RecordsAt buf k q p ∧ NameAt buf p o

/-- The condition: the questions end in zero bytes, and the answers up to the first of type A have names
of two bytes; that one, if there is one, has four bytes of data that came in, and the name of an answer
ends where these two bytes do. -/
def Plain (buf : List Byte) : Prop :=
  ∃ qcount acount q, halfAt buf 4 = some qcount ∧ halfAt buf 6 = some acount ∧
    ZeroEnded buf qcount.toNat 12 q ∧
    ((∃ o, Others buf acount.toNat q o) ∨
      ∃ k o, k < acount.toNat ∧ Others buf k q o ∧ halfAt buf (o + 2) = some 1 ∧
        halfAt buf (o + 10) = some 4 ∧ o + 16 ≤ buf.length ∧
        NameEnds buf qcount.toNat acount.toNat (o + 2))

variable {buf : List Byte} {n k o o' : Nat}

theorem FirstZero.tail {e : Nat} {c : Byte} (h : FirstZero buf (o + 1) e) (hc : buf[o]? = some c)
    (hne : c ≠ 0) : FirstZero buf o e where
  le := Nat.le_of_succ_le h.le
  zero := h.zero
  before i hi hlt := by
    rcases Nat.eq_or_lt_of_le hi with rfl | hi
    · exact ⟨c, hc, hne⟩
    · exact h.before i hi hlt

/-- Enough rounds end at the first zero byte. -/
theorem skipName_eq_some (hn : buf.length < o + n) :
    skipName buf n o = some o' ↔ ∃ e, FirstZero buf o e ∧ o' = e + 1 := by
  induction n generalizing o with
  | zero =>
      refine iff_of_false (fun h => by cases h) ?_
      rintro ⟨e, hz, -⟩
      have := (List.getElem?_eq_some_iff.mp hz.zero).1
      have := hz.le
      omega
  | succ n ih =>
      rw [skipName]
      constructor
      · intro h
        obtain ⟨c, hc, h⟩ := Option.bind_eq_some_iff.mp h
        by_cases hne : c ≠ 0
        · rw [if_pos hne] at h
          obtain ⟨e, hz, rfl⟩ := (ih (by omega)).mp h
          exact ⟨e, hz.tail hc hne, rfl⟩
        · rw [if_neg hne] at h
          cases h
          refine ⟨o, ⟨Nat.le_refl o, ?_, fun i hi hlt => absurd hlt (Nat.not_lt_of_le hi)⟩, rfl⟩
          rw [hc, not_not.mp hne]
      · rintro ⟨e, hz, rfl⟩
        rcases Nat.eq_or_lt_of_le hz.le with rfl | hlt
        · rw [hz.zero]
          rfl
        · obtain ⟨c, hc, hne⟩ := hz.before o (Nat.le_refl o) hlt
          rw [hc, Option.bind_eq_bind, Option.bind_some, if_pos hne]
          exact (ih (by omega)).mpr
            ⟨e, ⟨hlt, hz.zero, fun i hi => hz.before i (Nat.le_of_succ_le hi)⟩, rfl⟩

theorem skipQuestions_eq_some : skipQuestions buf n o = some o' ↔ ZeroEnded buf n o o' := by
  induction n generalizing o with
  | zero =>
      constructor
      · intro h
        cases h
        exact .nil
      · rintro ⟨⟩
        rfl
  | succ n ih =>
      have hname {p : Nat} : skipName buf (buf.length + 1) o = some p ↔ _ :=
        skipName_eq_some (by omega)
      constructor
      · intro h
        obtain ⟨p, hp, h⟩ := Option.bind_eq_some_iff.mp h
        obtain ⟨e, hz, rfl⟩ := hname.mp hp
        exact .cons hz (ih.mp h)
      · rintro (_ | ⟨hz, t⟩)
        exact Option.bind_eq_some_iff.mpr ⟨_, hname.mpr ⟨_, hz, rfl⟩, ih.mpr t⟩

/-- What comes out of an answer of type A. -/
theorem readAnswers_address (h : halfAt buf (o + 2) = some 1) :
    readAnswers buf (n + 1) o = some <$> resolvedAt buf (o + 12) := by
  rw [readAnswers, h]
  rfl

theorem readAnswers_other {type : Half} (h : halfAt buf (o + 2) = some type) (hne : type ≠ 1) :
    readAnswers buf (n + 1) o =
      (halfAt buf (o + 10)).bind fun length => readAnswers buf n (o + 12 + length.toNat) := by
  have hnext (length : Half) : o + 2 + 8 + (length.toNat + 2) = o + 12 + length.toNat := by omega
  rw [readAnswers, h, Option.bind_eq_bind, Option.bind_some, if_neg hne]
  simp only [hnext]

/-- The loop reads answers of other types to the end, or up to an answer of type A. -/
theorem readAnswers_eq_some {result : Option Resolved} : readAnswers buf n o = some result ↔
    (result = none ∧ ∃ o', Others buf n o o') ∨
      ∃ k o' r, k < n ∧ Others buf k o o' ∧ halfAt buf (o' + 2) = some 1 ∧
        resolvedAt buf (o' + 12) = some r ∧ result = some r := by
  induction n generalizing o with
  | zero =>
      constructor
      · intro h
        cases h
        exact .inl ⟨rfl, o, .nil⟩
      · rintro (⟨rfl, -⟩ | ⟨k, _, _, hk, -⟩)
        · rfl
        · exact absurd hk (Nat.not_lt_zero k)
  | succ n ih =>
      constructor
      · intro h
        obtain ⟨type, htype, -⟩ := Option.bind_eq_some_iff.mp (id h)
        by_cases hone : type = 1
        · subst hone
          rw [readAnswers_address htype] at h
          obtain ⟨r, hr, rfl⟩ := Option.map_eq_some_iff.mp h
          exact .inr ⟨0, o, r, Nat.succ_pos n, .nil, htype, hr, rfl⟩
        · rw [readAnswers_other htype hone] at h
          obtain ⟨length, hlength, h⟩ := Option.bind_eq_some_iff.mp h
          rcases ih.mp h with ⟨rfl, o', t⟩ | ⟨k, o', r, hk, t, hrest⟩
          · exact .inl ⟨rfl, o', .cons htype hone hlength t⟩
          · exact .inr ⟨k + 1, o', r, Nat.succ_lt_succ hk, .cons htype hone hlength t, hrest⟩
      · rintro (⟨rfl, o', _ | ⟨htype, hne, hlength, t⟩⟩ | ⟨k, o', r, hk, t, hone, hr, rfl⟩)
        · rw [readAnswers_other htype hne, hlength]
          exact ih.mpr (.inl ⟨rfl, o', t⟩)
        · cases t with
          | nil =>
              rw [readAnswers_address hone, hr]
              rfl
          | cons htype hne hlength t =>
              rw [readAnswers_other htype hne, hlength]
              exact ih.mpr (.inr ⟨_, o', r, Nat.lt_of_succ_lt_succ hk, t, hone, hr, rfl⟩)

/-! ### The theorem -/

theorem resolvedAt_source {r : Resolved} (h : resolvedAt buf o = some r) : r.source = o := by
  obtain ⟨a, -, h⟩ := Option.bind_eq_some_iff.mp h
  obtain ⟨b, -, h⟩ := Option.bind_eq_some_iff.mp h
  obtain ⟨c, -, h⟩ := Option.bind_eq_some_iff.mp h
  obtain ⟨d, -, h⟩ := Option.bind_eq_some_iff.mp h
  cases h
  rfl

theorem exists_resolvedAt (h : o + 4 ≤ buf.length) : ∃ r, resolvedAt buf o = some r := by
  rw [← Option.isSome_iff_exists, resolvedAt, List.getElem?_eq_getElem (by omega : o < buf.length),
    List.getElem?_eq_getElem (by omega : o + 1 < buf.length),
    List.getElem?_eq_getElem (by omega : o + 2 < buf.length),
    List.getElem?_eq_getElem (by omega : o + 3 < buf.length)]
  rfl

/-- An answer of type A, seen from where its data is. -/
theorem answerAt_iff {qcount acount : Half} (hq : halfAt buf 4 = some qcount)
    (ha : halfAt buf 6 = some acount) (hone : halfAt buf (o + 2) = some 1) :
    AnswerAt buf 1 (o + 12) (o + 16) ↔ halfAt buf (o + 10) = some 4 ∧ o + 16 ≤ buf.length ∧
      NameEnds buf qcount.toNat acount.toNat (o + 2) := by
  constructor
  · rintro ⟨qcount', acount', q, k, p, hq', ha', hquestions, hk, hrecords, ⟨e, hname, -, hdata, length,
      hlength, hstop⟩, hinside⟩
    cases hq.symm.trans hq'
    cases ha.symm.trans ha'
    obtain rfl : e = o + 2 := by omega
    have hfour : length = 4 := by
      apply BitVec.eq_of_toNat_eq
      rw [show (4 : Half).toNat = 4 from rfl]
      omega
    exact ⟨hfour ▸ hlength, hinside, q, k, p, hquestions, hk, hrecords, hname⟩
  · rintro ⟨hlength, hinside, q, k, p, hquestions, hk, hrecords, hname⟩
    exact ⟨qcount, acount, q, k, p, hq, ha, hquestions, hk, hrecords,
      ⟨o + 2, hname, hone, rfl, 4, hlength, rfl⟩, hinside⟩

theorem parseResponse_eq_some {response : List Byte} {result : Option Resolved} :
    parseResponse response = some result ↔ ∃ qcount acount q,
      halfAt (dnsReceived response) 4 = some qcount ∧ halfAt (dnsReceived response) 6 = some acount ∧
      ZeroEnded (dnsReceived response) qcount.toNat 12 q ∧
      readAnswers (dnsReceived response) acount.toNat q = some result := by
  simp only [parseResponse, Option.bind_eq_bind, Option.bind_eq_some_iff, skipQuestions_eq_some]
  constructor
  · rintro ⟨qcount, hq, acount, ha, q, hz, h⟩
    exact ⟨qcount, acount, q, hq, ha, hz, h⟩
  · rintro ⟨qcount, acount, q, hq, ha, hz, h⟩
    exact ⟨qcount, hq, acount, ha, q, hz, h⟩

/-- **When an answer is parsed safely.**  The parsing stays inside what was received and takes the address
out of the data of an answer of type A with four bytes of data exactly if the message is plain. -/
theorem safelyParsed_iff (response : List Byte) :
    SafelyParsed response ↔ Plain (dnsReceived response) := by
  constructor
  · rintro ⟨result, hparse, hsource⟩
    obtain ⟨qcount, acount, q, hq, ha, hz, h⟩ := parseResponse_eq_some.mp hparse
    refine ⟨qcount, acount, q, hq, ha, hz, ?_⟩
    rcases readAnswers_eq_some.mp h with ⟨-, o, t⟩ | ⟨k, o, r, hk, t, hone, hr, rfl⟩
    · exact .inl ⟨o, t⟩
    · have := hsource r rfl
      rw [resolvedAt_source hr] at this
      exact .inr ⟨k, o, hk, t, hone, (answerAt_iff hq ha hone).mp this⟩
  · rintro ⟨qcount, acount, q, hq, ha, hz, ⟨o, t⟩ | ⟨k, o, hk, t, hone, hans⟩⟩
    · refine ⟨none, parseResponse_eq_some.mpr ⟨qcount, acount, q, hq, ha, hz, ?_⟩,
        fun r h => by cases h⟩
      exact readAnswers_eq_some.mpr (.inl ⟨rfl, o, t⟩)
    · have hinside : o + 12 + 4 ≤ (dnsReceived response).length := hans.2.1
      obtain ⟨r, hr⟩ := exists_resolvedAt hinside
      refine ⟨some r, parseResponse_eq_some.mpr ⟨qcount, acount, q, hq, ha, hz, ?_⟩, fun r' h => ?_⟩
      · exact readAnswers_eq_some.mpr (.inr ⟨k, o, r, hk, t, hone, hr, rfl⟩)
      · cases h
        rw [resolvedAt_source hr]
        exact (answerAt_iff hq ha hone).mpr hans

/-- A header that announces a question, and nothing behind it. -/
theorem truncated_not_safe : ¬ SafelyParsed [0, 0, 0x81, 0x80, 0, 1, 0, 1, 0, 0, 0, 0] := by
  rintro ⟨result, hparse, -⟩
  have : parseResponse [0, 0, 0x81, 0x80, 0, 1, 0, 1, 0, 0, 0, 0] = none := by decide
  rw [this] at hparse
  cases hparse

end Muxomucota.Net
