import Mathlib.Data.BitVec
import Mathlib.Tactic.Common

/-!
# Lib — cyclic redundancy checks

The reflected form: the register is shifted right, and the polynomial is added whenever a one falls
out.  A round is linear over the exclusive or, so a word that is fed byte by byte may as well be
added to the register at once (`feed_word`).  Feeding a message its own check value therefore
leaves a constant (`crc_append`).  Nothing is lost in a round if the polynomial has its top bit, and so
what differs in one word only has two check values (`crc_burst`).
-/

namespace Muxomucota.Lib.Crc

variable {w : Nat} (p : BitVec w)

/-- One round. -/
def round (r : BitVec w) : BitVec w := if r.getLsbD 0 then (r >>> 1) ^^^ p else r >>> 1

/-- `n` rounds. -/
def rounds : Nat → BitVec w → BitVec w
  | 0, r => r
  | n + 1, r => rounds n (round p r)

/-- One byte of the message. -/
def feed (r : BitVec w) (b : BitVec 8) : BitVec w := rounds p 8 (r ^^^ b.setWidth w)

/-- The check value of a message. -/
def crc (bs : List (BitVec 8)) : BitVec w := bs.foldl (feed p) (BitVec.allOnes w) ^^^ BitVec.allOnes w

theorem round_xor (a b : BitVec w) : round p (a ^^^ b) = round p a ^^^ round p b := by
  unfold round
  rw [BitVec.getLsbD_xor, BitVec.ushiftRight_xor_distrib]
  cases ha : a.getLsbD 0 <;> cases hb : b.getLsbD 0 <;> simp only [Bool.xor_false, Bool.xor_true,
    Bool.not_true, Bool.not_false, if_true, Bool.false_eq_true, if_false]
  · rw [BitVec.xor_assoc]
  · rw [BitVec.xor_assoc, BitVec.xor_assoc, BitVec.xor_comm p]
  · rw [BitVec.xor_assoc, BitVec.xor_comm p, BitVec.xor_assoc, BitVec.xor_self, BitVec.xor_zero]

theorem rounds_xor (n : Nat) (a b : BitVec w) :
    rounds p n (a ^^^ b) = rounds p n a ^^^ rounds p n b := by
  induction n generalizing a b with
  | zero => rfl
  | succ n ih => rw [rounds, round_xor, ih, rounds, rounds]

theorem rounds_add (m n : Nat) (r : BitVec w) : rounds p (m + n) r = rounds p n (rounds p m r) := by
  induction m generalizing r with
  | zero => rw [Nat.zero_add, rounds]
  | succ m ih => rw [Nat.succ_add, rounds, ih, rounds]

/-- Zeros fall out without the polynomial. -/
theorem rounds_of_low {n : Nat} {r : BitVec w} (h : ∀ i < n, r.getLsbD i = false) :
    rounds p n r = r >>> n := by
  induction n generalizing r with
  | zero => rw [rounds, BitVec.ushiftRight_zero]
  | succ n ih =>
      have hround : round p r = r >>> 1 := by
        rw [round, h 0 (by omega), if_neg (by decide)]
      have hlow : ∀ i < n, (r >>> 1).getLsbD i = false := by
        intro i hi
        rw [BitVec.getLsbD_ushiftRight]
        exact h (1 + i) (by omega)
      rw [rounds, hround, ih hlow, ← BitVec.shiftRight_add, Nat.add_comm]

/-- What stands above the byte that falls out is only moved. -/
theorem rounds_shiftLeft {n : Nat} (r x : BitVec w) (hx : x <<< n >>> n = x) :
    rounds p n (r ^^^ x <<< n) = rounds p n r ^^^ x := by
  have hlow : ∀ i < n, (x <<< n).getLsbD i = false := by
    intro i hi
    simp [hi]
  rw [rounds_xor, rounds_of_low p hlow, hx]

/-- The bytes of a word, least significant first. -/
def bytes (x : BitVec 32) : List (BitVec 8) :=
  [x.extractLsb' 0 8, x.extractLsb' 8 8, x.extractLsb' 16 8, x.extractLsb' 24 8]

/-- A word is its lowest byte and the rest. -/
theorem low_xor_rest (x : BitVec 32) :
    (x.extractLsb' 0 8).setWidth 32 ^^^ (x >>> 8) <<< 8 = x := by
  refine BitVec.eq_of_getLsbD_eq fun i hi => ?_
  simp only [BitVec.getLsbD_xor, BitVec.getLsbD_setWidth, BitVec.getLsbD_extractLsb',
    BitVec.getLsbD_shiftLeft, BitVec.getLsbD_ushiftRight]
  rcases Nat.lt_or_ge i 8 with h8 | h8
  · simp [h8, hi]
  · simp [hi, Nat.not_lt.mpr h8, Nat.add_sub_cancel' h8]

/-- A word in one go. -/
theorem feed_word (p r x : BitVec 32) : (bytes x).foldl (feed p) r = rounds p 32 (r ^^^ x) := by
  have hrest : ∀ k : Nat, 8 ≤ k → (x >>> k) <<< 8 >>> 8 = x >>> k := by
    intro k hk
    refine BitVec.eq_of_getLsbD_eq fun i hi => ?_
    simp only [BitVec.getLsbD_ushiftRight, BitVec.getLsbD_shiftLeft]
    rcases Nat.lt_or_ge i 24 with hi' | hi'
    · simp [show 8 + i < 32 by omega]
    · simp [BitVec.getLsbD_of_ge x (k + i) (by omega)]
  have hone : ∀ (k : Nat) (r : BitVec 32), rounds p 8 (r ^^^ x >>> k) =
      feed p r ((x >>> k).extractLsb' 0 8) ^^^ x >>> (k + 8) := by
    intro k r
    conv_lhs => rw [← low_xor_rest (x >>> k), ← BitVec.xor_assoc]
    rw [← BitVec.shiftRight_add, rounds_shiftLeft p _ _ (hrest _ (by omega))]
    rfl
  have hbyte : ∀ k : Nat, (x >>> k).extractLsb' 0 8 = x.extractLsb' k 8 := by
    intro k
    refine BitVec.eq_of_getLsbD_eq fun i hi => ?_
    simp
  have hend : x >>> 32 = 0#32 := by
    refine BitVec.eq_of_getLsbD_eq fun i hi => ?_
    rw [BitVec.getLsbD_ushiftRight, BitVec.getLsbD_of_ge _ _ (by omega), BitVec.getLsbD_zero]
  have h0 : x = x >>> 0 := (BitVec.ushiftRight_zero x).symm
  conv_rhs => rw [h0]
  rw [rounds_add p 8 24, hone, rounds_add p 8 16, hone, rounds_add p 8 8, hone, hone, hend]
  simp only [hbyte, bytes, List.foldl_cons, List.foldl_nil, Nat.zero_add, Nat.reduceAdd,
    BitVec.xor_zero]

/-- **The residue**: a message with its check value has the same check value whatever it says. -/
theorem crc_append (p : BitVec 32) (bs : List (BitVec 8)) :
    crc p (bs ++ bytes (crc p bs)) =
      rounds p 32 (BitVec.allOnes 32) ^^^ BitVec.allOnes 32 := by
  have hone : ∀ r : BitVec 32, r ^^^ (r ^^^ BitVec.allOnes 32) = BitVec.allOnes 32 := by
    intro r
    rw [← BitVec.xor_assoc, BitVec.xor_self, BitVec.zero_xor]
  rw [crc, List.foldl_append, feed_word, crc, hone]

/-! ### Bursts -/

/-- Where the polynomial has its top bit, that bit tells what fell out. -/
theorem round_eq_zero (hp : p.msb = true) {r : BitVec w} (h : round p r = 0#w) : r = 0#w := by
  have hpos : 0 < w := Nat.pos_of_ne_zero fun hw => by
    subst hw
    rw [BitVec.eq_nil p] at hp
    cases hp
  have htop : (r >>> 1).msb = false := by
    rw [BitVec.msb_eq_getLsbD_last, BitVec.getLsbD_ushiftRight]
    exact BitVec.getLsbD_of_ge _ _ (by omega)
  unfold round at h
  split at h
  · rw [BitVec.xor_eq_zero_iff] at h
    rw [h, hp] at htop
    cases htop
  · rename_i hlow
    refine BitVec.eq_of_getLsbD_eq fun i hi => ?_
    rw [BitVec.getLsbD_zero]
    cases i with
    | zero => exact Bool.eq_false_iff.mpr hlow
    | succ i =>
        have hbit := congrArg (·.getLsbD i) h
        simpa [Nat.add_comm] using hbit

theorem rounds_eq_zero (hp : p.msb = true) {n : Nat} {r : BitVec w} (h : rounds p n r = 0#w) :
    r = 0#w := by
  induction n generalizing r with
  | zero => exact h
  | succ n ih => exact round_eq_zero p hp (ih h)

theorem rounds_injective (hp : p.msb = true) {n : Nat} {a b : BitVec w}
    (h : rounds p n a = rounds p n b) : a = b := by
  rw [← BitVec.xor_eq_zero_iff, ← rounds_xor] at h
  exact BitVec.xor_eq_zero_iff.mp (rounds_eq_zero p hp h)

/-- The register before a message follows from the one behind it. -/
theorem feed_injective (hp : p.msb = true) {a b : BitVec w} (bs : List (BitVec 8))
    (h : bs.foldl (feed p) a = bs.foldl (feed p) b) : a = b := by
  induction bs generalizing a b with
  | nil => exact h
  | cons c bs ih => exact (BitVec.xor_left_inj (c.setWidth w)).mp (rounds_injective p hp (ih h))

theorem exists_bytes {l : List (BitVec 8)} (h : l.length = 4) : ∃ x, bytes x = l := by
  match l, h with
  | [a, b, c, d], _ =>
      refine ⟨d ++ c ++ b ++ a, ?_⟩
      have hle : 8 ≤ 8 := Nat.le_refl 8
      have ha : (d ++ c ++ b ++ a).extractLsb' 0 8 = a := BitVec.extractLsb'_append_eq_right
      have hb : (d ++ c ++ b ++ a).extractLsb' 8 8 = b := by
        rw [BitVec.extractLsb'_append_eq_of_le hle]
        exact BitVec.extractLsb'_append_eq_right
      have hc : (d ++ c ++ b ++ a).extractLsb' 16 8 = c := by
        rw [BitVec.extractLsb'_append_eq_of_le (by decide : 8 ≤ 16), BitVec.extractLsb'_append_eq_of_le hle]
        exact BitVec.extractLsb'_append_eq_right
      have hd : (d ++ c ++ b ++ a).extractLsb' 24 8 = d := by
        rw [BitVec.extractLsb'_append_eq_of_le (by decide : 8 ≤ 24),
          BitVec.extractLsb'_append_eq_of_le (by decide : 8 ≤ 16)]
        exact BitVec.extractLsb'_append_eq_left
      rw [bytes, ha, hb, hc, hd]

/-- `s'` is `s` with some bits changed, all of them in the four bytes from `k` on. -/
structure Burst (k : Nat) (s s' : List (BitVec 8)) : Prop where
  length : s'.length = s.length
  changed : s' ≠ s
  near : ∀ i, s'[i]? ≠ s[i]? → k ≤ i ∧ i < k + 4

variable {k : Nat} {s s' : List (BitVec 8)}

/-- The four bytes are part of the message. -/
theorem Burst.inside (h : Burst k s s') (hlen : 4 ≤ s.length) :
    ∃ j, j + 4 ≤ s.length ∧ Burst j s s' := by
  by_cases hk : k + 4 ≤ s.length
  · exact ⟨k, hk, h⟩
  · refine ⟨s.length - 4, by omega, h.length, h.changed, fun i hi => ?_⟩
    have hnear := h.near i hi
    have hlt : i < s.length := by
      by_contra hge
      rw [List.getElem?_eq_none (Nat.not_lt.mp hge),
        List.getElem?_eq_none (by rw [h.length]; exact Nat.not_lt.mp hge)] at hi
      exact hi rfl
    omega

/-- What is around the four bytes, and the two words that they are. -/
theorem Burst.split (h : Burst k s s') (hlen : k + 4 ≤ s.length) :
    ∃ pre x x' post, s = pre ++ bytes x ++ post ∧ s' = pre ++ bytes x' ++ post ∧ x' ≠ x := by
  have hsame : ∀ i, i < k ∨ k + 4 ≤ i → s'[i]? = s[i]? := fun i hi => by
    by_contra hne
    have hnear := h.near i hne
    omega
  have hpre : s'.take k = s.take k := by
    refine List.ext_getElem? fun i => ?_
    rw [List.getElem?_take, List.getElem?_take]
    split
    · exact hsame i (.inl ‹_›)
    · rfl
  have hpost : s'.drop (k + 4) = s.drop (k + 4) := by
    refine List.ext_getElem? fun i => ?_
    rw [List.getElem?_drop, List.getElem?_drop]
    exact hsame _ (.inr (by omega))
  have hparts : ∀ t : List (BitVec 8), t = t.take k ++ (t.drop k).take 4 ++ t.drop (k + 4) := fun t => by
    rw [← List.drop_drop, List.append_assoc, List.take_append_drop, List.take_append_drop]
  obtain ⟨x, hx⟩ := exists_bytes (l := (s.drop k).take 4) (by simp; omega)
  obtain ⟨x', hx'⟩ := exists_bytes (l := (s'.drop k).take 4) (by simp [h.length]; omega)
  refine ⟨s.take k, x, x', s.drop (k + 4), ?_, ?_, ?_⟩
  · rw [hx]
    exact hparts s
  · rw [hx', ← hpre, ← hpost]
    exact hparts s'
  · rintro rfl
    refine h.changed ?_
    rw [hparts s', hparts s, hpre, hpost, ← hx, ← hx']

/-- **Bursts** are detected: a change in four bytes changes the check value. -/
theorem crc_burst {p : BitVec 32} (hp : p.msb = true) (h : Burst k s s') (hlen : 4 ≤ s.length) :
    crc p s' ≠ crc p s := by
  obtain ⟨j, hj, hburst⟩ := h.inside hlen
  obtain ⟨pre, x, x', post, rfl, rfl, hne⟩ := hburst.split hj
  intro heq
  rw [crc, crc, BitVec.xor_left_inj, List.foldl_append, List.foldl_append, List.foldl_append,
    List.foldl_append] at heq
  have hword := feed_injective p hp post heq
  rw [feed_word, feed_word] at hword
  exact hne ((BitVec.xor_right_inj _).mp (rounds_injective p hp hword))

end Muxomucota.Lib.Crc
