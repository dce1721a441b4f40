import Muxomucota.Text.PrintNumbers
import Mathlib.Algebra.GroupWithZero.Nat
import Mathlib.Algebra.Group.Nat.Defs

/-!
# Text — the message of a panic

`format_panic` goes through its format twice: the first pass adds up how many characters the message may
need, the second stores them into a buffer of that size.  An `int` is written from the end of a buffer of
twelve cells to its beginning, and copied from there.

The indices `i` and `o` are offsets to addresses of 32 bits.  `-val` of the least `int` is that `int`.
-/

namespace Muxomucota.Text

open Console

/-- A string: the bytes before the NUL byte that ends it. -/
abbrev Str := { s : List Byte // 0 ∉ s }

/-- An argument of `format_panic`. -/
inductive PanicArg where
  | int (v : CInt)
  | uintptr (v : BitVec 32)
  | str (s : Str)

/-! ### `va_arg` -/

def vaInt : List PanicArg → Option (CInt × List PanicArg)
  | .int v :: args => some (v, args)
  | _ => none

def vaUintptr : List PanicArg → Option (BitVec 32 × List PanicArg)
  | .uintptr v :: args => some (v, args)
  | _ => none

def vaStr : List PanicArg → Option (Str × List PanicArg)
  | .str s :: args => some (s, args)
  | _ => none

/-! ### The first pass -/

/-- `max_len` after the loop, from the rest of the format. -/
def countPass : List Byte → List PanicArg → CInt → Option CInt
  | [], _, maxLen => some maxLen
  | c :: cs, args, maxLen =>
      if c ≠ ch '%' then countPass cs args (maxLen + 1)
      else
        match cs with
        | [] => some (maxLen + 1) -- `i--`: the loop goes on at the NUL byte, and ends
        | d :: ds =>
            if d = ch '%' then countPass ds args (maxLen + 1)
            else if d = ch 'i' then do
              let (_, args) ← vaInt args
              countPass ds args (maxLen + 4 * 3)
            else if d = ch 'p' then do
              let (_, args) ← vaUintptr args
              countPass ds args (maxLen + (2 + 4 * 2))
            else if d = ch 's' then do
              let (s, args) ← vaStr args
              countPass ds args (maxLen + BitVec.ofNat 32 s.1.length)
            else countPass ds args (maxLen + 2)

/-! ### The second pass -/

/-- `tbuf[--j] = b`, where `tbuf` is kept from its cell `j` on; it has twelve cells. -/
def tbufPut (tbuf : List Byte) (b : Byte) : Option (List Byte) :=
  if tbuf.length < 12 then some (b :: tbuf) else none

/-- `while (val)`, at the index `j`. -/
def tbufDigits : (j : Nat) → CInt → List Byte → Option (List Byte)
  | 0, val, tbuf => if val = 0 then some tbuf else none
  | j + 1, val, tbuf =>
      if val = 0 then some tbuf
      else tbufDigits j (val.sdiv 10) ((val.srem 10 + 48).setWidth 8 :: tbuf)

/-- The digits of a number whose sign is known. -/
def tbufVal (tbuf : List Byte) (val : CInt) : Option (List Byte) := do
  let tbuf ← if val = 0 then tbufPut tbuf (ch '0') else some tbuf
  tbufDigits (12 - tbuf.length) val tbuf

/-- `while (tbuf[j])`: what is copied. -/
def tbufCopy : List Byte → Option (List Byte)
  | [] => none
  | b :: tbuf => if b = 0 then some [] else (tbufCopy tbuf).map (b :: ·)

/-- The characters stored for `%i`; nothing where `tbuf` is indexed outside its bounds. -/
def storeInt (val : CInt) : Option (List Byte) := do
  let tbuf ← tbufPut [] 0
  let neg : Bool := val.slt 0
  let tbuf ← tbufVal tbuf (if neg then -val else val)
  let tbuf ← if neg then tbufPut tbuf (ch '-') else some tbuf
  tbufCopy tbuf

/-- The characters stored for `%p`. -/
def storeUintptr (val : BitVec 32) : List Byte :=
  [ch '0', ch 'x'] ++
    (List.range 8).reverse.map fun j => digitChar false ((val >>> (j * 4)) &&& 0xf).toNat

/-- `buffer` up to `o` after the loop, from the rest of the format. -/
def storePass : List Byte → List PanicArg → List Byte → Option (List Byte)
  | [], _, buffer => some buffer
  | c :: cs, args, buffer =>
      if c ≠ ch '%' then storePass cs args (buffer ++ [c])
      else
        match cs with
        | [] => some (buffer ++ [ch '%'])
        | d :: ds =>
            if d = ch '%' then storePass ds args (buffer ++ [ch '%'])
            else if d = ch 'i' then do
              let (v, args) ← vaInt args
              let text ← storeInt v
              storePass ds args (buffer ++ text)
            else if d = ch 'p' then do
              let (v, args) ← vaUintptr args
              storePass ds args (buffer ++ storeUintptr v)
            else if d = ch 's' then do
              let (s, args) ← vaStr args
              storePass ds args (buffer ++ s.1)
            else storePass ds args (buffer ++ [c, d])

/-- `format_panic` up to its call of `panic`: the size of the buffer, and what is stored into it. -/
def formatPanic (format : Str) (args : List PanicArg) : Option (CInt × List Byte) := do
  let maxLen ← countPass format.1 args 0
  let buffer ← storePass format.1 args []
  some (maxLen + 1, buffer ++ [0])

/-! ### What a format is made of -/

/-- One round of the loops. -/
inductive Piece where
  | char (c : Byte)
  | int (v : CInt)
  | uintptr (v : BitVec 32)
  | str (s : Str)
  | unknown (d : Byte)

/-- The argument list matches the conversions of the format. -/
inductive Matches : List Byte → List PanicArg → List Piece → Prop
  | done {args} : Matches [] args []
  | char {c cs args ps} (hc : c ≠ ch '%') (h : Matches cs args ps) :
      Matches (c :: cs) args (.char c :: ps)
  | trailing {args} : Matches [ch '%'] args [.char (ch '%')]
  | percent {cs args ps} (h : Matches cs args ps) :
      Matches (ch '%' :: ch '%' :: cs) args (.char (ch '%') :: ps)
  | int {cs args ps} (v : CInt) (h : Matches cs args ps) :
      Matches (ch '%' :: ch 'i' :: cs) (.int v :: args) (.int v :: ps)
  | uintptr {cs args ps} (v : BitVec 32) (h : Matches cs args ps) :
      Matches (ch '%' :: ch 'p' :: cs) (.uintptr v :: args) (.uintptr v :: ps)
  | str {cs args ps} (s : Str) (h : Matches cs args ps) :
      Matches (ch '%' :: ch 's' :: cs) (.str s :: args) (.str s :: ps)
  | unknown {d cs args ps} (hd : d ∉ [ch '%', ch 'i', ch 'p', ch 's']) (h : Matches cs args ps) :
      Matches (ch '%' :: d :: cs) args (.unknown d :: ps)

/-- The room that the first pass makes for a piece. -/
def Piece.room : Piece → Nat
  | .char _ => 1
  | .int _ => 12
  | .uintptr _ => 10
  | .str s => s.1.length
  | .unknown _ => 2

/-- What the second pass leaves of it: an `int` takes as much as its sign and its digits. -/
def Piece.spare : Piece → Nat
  | .int v => 12 - (decimalText v.toInt).length
  | _ => 0

def room (ps : List Piece) : Nat := (ps.map Piece.room).sum
def spare (ps : List Piece) : Nat := (ps.map Piece.spare).sum

theorem room_cons (p : Piece) (ps : List Piece) : room (p :: ps) = p.room + room ps := by
  rw [room, List.map_cons, List.sum_cons, room]

theorem spare_cons (p : Piece) (ps : List Piece) : spare (p :: ps) = p.spare + spare ps := by
  rw [spare, List.map_cons, List.sum_cons, spare]

/-! ### The digits of an `int` -/

theorem toInt_sdiv_ten (val : CInt) : (val.sdiv 10).toInt = val.toInt.tdiv 10 :=
  BitVec.toInt_sdiv_of_ne_or_ne val 10 (Or.inr (by decide))

theorem natAbs_sdiv_ten (val : CInt) : (val.sdiv 10).toInt.natAbs = val.toInt.natAbs / 10 := by
  rw [toInt_sdiv_ten, Int.natAbs_tdiv]
  rfl

theorem natAbs_neg (val : CInt) : (-val).toInt.natAbs = val.toInt.natAbs := by
  rw [BitVec.toInt_neg_eq_ite]
  split
  · rfl
  · exact Int.natAbs_neg _

theorem natAbs_toInt_lt (val : CInt) : val.toInt.natAbs < 10 ^ 10 := by
  have h₁ := BitVec.le_toInt val
  have h₂ := val.toInt_lt
  omega

theorem toInt_eq_zero {val : CInt} : val.toInt.natAbs = 0 ↔ val = 0 := by
  rw [Int.natAbs_eq_zero, ← BitVec.toInt_inj]
  rfl

/-- A remainder, a negative one too, gives a character that is not NUL. -/
theorem remChar_ne_zero (val : CInt) : (val.srem 10 + 48).setWidth 8 ≠ 0 := by
  have hr : (val.srem 10).toInt = val.toInt.tmod 10 := BitVec.toInt_srem val 10
  have h₁ := Int.lt_tmod_of_pos val.toInt (show (0 : Int) < 10 by decide)
  have h₂ := Int.tmod_lt_of_pos val.toInt (show (0 : Int) < 10 by decide)
  rw [← hr] at h₁ h₂
  generalize val.srem 10 = r at h₁ h₂
  rw [BitVec.toInt_eq_toNat_cond] at h₁ h₂
  intro h
  have h8 := congrArg BitVec.toNat h
  rw [BitVec.toNat_setWidth, BitVec.toNat_add] at h8
  change (r.toNat + 48) % 2 ^ 32 % 2 ^ 8 = 0 at h8
  have hr := r.isLt
  split at h₁ <;> omega

theorem length_digits_le {m : Nat} (h : m < 10 ^ 10) : (decimals m).length ≤ 10 := by
  rw [decimals]
  split
  · decide
  · exact (Nat.digits_length_le_iff (by decide) m).mpr h

/-- A text of an `int` fits into its room, with the NUL byte. -/
theorem length_decimalText_int (val : CInt) : (decimalText val.toInt).length < 12 := by
  have hlen := length_digits_le (natAbs_toInt_lt val)
  rw [decimalText, List.length_append, List.length_reverse, List.length_map]
  split
  · rw [List.length_singleton]
    omega
  · rw [List.length_nil]
    omega

/-! ### The cells of `tbuf` -/

theorem tbufPut_eq {tbuf : List Byte} (h : tbuf.length < 12) (b : Byte) :
    tbufPut tbuf b = some (b :: tbuf) := if_pos h

/-- A number of at most `j` digits does not leave the buffer. -/
theorem tbufDigits_eq : ∀ {j : Nat} {val : CInt} (tbuf : List Byte), val.toInt.natAbs < 10 ^ j →
    ∃ ds, tbufDigits j val tbuf = some (ds ++ tbuf) ∧ 0 ∉ ds ∧
      ds.length = (Nat.digits 10 val.toInt.natAbs).length := by
  intro j
  induction j with
  | zero =>
      intro val tbuf h
      have h0 : val.toInt.natAbs = 0 := by omega
      exact ⟨[], by rw [tbufDigits, if_pos (toInt_eq_zero.mp h0), List.nil_append], List.not_mem_nil,
        by rw [h0, Nat.digits_zero, List.length_nil, List.length_nil]⟩
  | succ j ih =>
      intro val tbuf h
      by_cases h0 : val = 0
      · exact ⟨[], by rw [tbufDigits, if_pos h0, List.nil_append], List.not_mem_nil,
          by rw [toInt_eq_zero.mpr h0, Nat.digits_zero, List.length_nil, List.length_nil]⟩
      · have hpos : val.toInt.natAbs ≠ 0 := fun h => h0 (toInt_eq_zero.mp h)
        have hlt : (val.sdiv 10).toInt.natAbs < 10 ^ j := by
          rw [natAbs_sdiv_ten]
          exact Nat.div_lt_of_lt_mul (by rwa [Nat.mul_comm, ← Nat.pow_succ])
        obtain ⟨ds, hds, hne, hlen⟩ := ih ((val.srem 10 + 48).setWidth 8 :: tbuf) hlt
        refine ⟨ds ++ [(val.srem 10 + 48).setWidth 8], ?_, ?_, ?_⟩
        · rw [tbufDigits, if_neg h0, hds, List.append_assoc, List.singleton_append]
        · rw [List.mem_append, List.mem_singleton, not_or]
          exact ⟨hne, fun h => remChar_ne_zero val h.symm⟩
        · rw [List.length_append, List.length_singleton, hlen, natAbs_sdiv_ten,
            Nat.digits_def' (by decide) (Nat.pos_of_ne_zero hpos), List.length_cons]

theorem tbufCopy_eq {text : List Byte} (h : 0 ∉ text) : tbufCopy (text ++ [0]) = some text := by
  induction text with
  | nil => rfl
  | cons b text ih =>
      rw [List.mem_cons, not_or] at h
      rw [List.cons_append, tbufCopy, if_neg (Ne.symm h.1), ih h.2, Option.map_some]

theorem tbufVal_eq (val : CInt) : ∃ ds, tbufVal [0] val = some (ds ++ [0]) ∧ 0 ∉ ds ∧
    ds.length = (decimals val.toInt.natAbs).length := by
  by_cases h0 : val = 0
  · subst h0
    exact ⟨[ch '0'], rfl, by decide, rfl⟩
  · obtain ⟨ds, hds, hne, hlen⟩ := tbufDigits_eq [0]
      (Nat.lt_trans (natAbs_toInt_lt val) (by decide : 10 ^ 10 < 10 ^ 11))
    refine ⟨ds, ?_, hne, ?_⟩
    · rw [tbufVal, if_neg h0]
      exact hds
    · rw [hlen, decimals, if_neg fun h => h0 (toInt_eq_zero.mp h)]

/-- `tbuf` is never indexed outside its bounds, and the text is as long as that of the number. -/
theorem storeInt_eq (val : CInt) :
    ∃ text, storeInt val = some text ∧ text.length = (decimalText val.toInt).length := by
  rw [decimalText, List.length_append, List.length_reverse, List.length_map]
  by_cases hneg : val.toInt < 0
  · have hslt : val.slt 0 = true := decide_eq_true hneg
    obtain ⟨ds, hds, hne, hlen⟩ := tbufVal_eq (-val)
    rw [natAbs_neg] at hlen
    have hroom : (ds ++ [0]).length < 12 := by
      have hbound := length_digits_le (natAbs_toInt_lt val)
      rw [List.length_append, List.length_singleton]
      omega
    have hsign : 0 ∉ ch '-' :: ds := by
      rw [List.mem_cons, not_or]
      exact ⟨by decide, hne⟩
    refine ⟨ch '-' :: ds, ?_, ?_⟩
    · rw [storeInt, tbufPut_eq (by decide), hslt]
      simp only [Option.bind_eq_bind, Option.bind_some, if_true, hds, tbufPut_eq hroom]
      exact tbufCopy_eq hsign
    · rw [if_pos hneg, List.length_cons, List.length_singleton, hlen, Nat.add_comm]
  · have hslt : val.slt 0 = false := decide_eq_false hneg
    obtain ⟨ds, hds, hne, hlen⟩ := tbufVal_eq val
    refine ⟨ds, ?_, ?_⟩
    · rw [storeInt, tbufPut_eq (by decide), hslt]
      simp only [Option.bind_eq_bind, Option.bind_some, Bool.false_eq_true, if_false, hds]
      exact tbufCopy_eq hne
    · rw [if_neg hneg, List.length_nil, hlen, Nat.zero_add]

/-! ### The two passes agree -/

/-- The characters of a conversion are told apart. -/
theorem ch_ne : ch 'i' ≠ ch '%' ∧ ch 'p' ≠ ch '%' ∧ ch 's' ≠ ch '%' ∧ ch 'p' ≠ ch 'i' ∧
    ch 's' ≠ ch 'i' ∧ ch 's' ≠ ch 'p' := by decide

theorem countPass_char {c : Byte} {cs : List Byte} {args : List PanicArg} {maxLen : CInt}
    (hc : c ≠ ch '%') : countPass (c :: cs) args maxLen = countPass cs args (maxLen + 1) := by
  rw [countPass.eq_def]
  exact if_pos hc

theorem storePass_char {c : Byte} {cs : List Byte} {args : List PanicArg} {buffer : List Byte}
    (hc : c ≠ ch '%') : storePass (c :: cs) args buffer = storePass cs args (buffer ++ [c]) := by
  rw [storePass.eq_def]
  exact if_pos hc

theorem count_room (maxLen : CInt) (p : Piece) (ps : List Piece) :
    some (maxLen + BitVec.ofNat 32 p.room + BitVec.ofNat 32 (room ps)) =
      some (maxLen + BitVec.ofNat 32 (room (p :: ps))) := by
  rw [room_cons, BitVec.ofNat_add, BitVec.add_assoc]

theorem Matches.count {f : List Byte} {args : List PanicArg} {ps : List Piece} (h : Matches f args ps) :
    ∀ maxLen : CInt, countPass f args maxLen = some (maxLen + BitVec.ofNat 32 (room ps)) := by
  obtain ⟨hi, hp, hs, hpi, hsi, hsp⟩ := ch_ne
  induction h with
  | done => intro maxLen; exact congrArg some (BitVec.add_zero maxLen).symm
  | char hc _ ih =>
      intro maxLen
      rw [countPass_char hc, ih, ← count_room]
      rfl
  | trailing => intro maxLen; rfl
  | percent _ ih =>
      intro maxLen
      rw [countPass, if_neg (not_not_intro rfl), if_pos rfl, ih, ← count_room]
      rfl
  | int v _ ih =>
      intro maxLen
      rw [countPass, if_neg (not_not_intro rfl), if_neg hi, if_pos rfl, ← count_room]
      exact ih _
  | uintptr v _ ih =>
      intro maxLen
      rw [countPass, if_neg (not_not_intro rfl), if_neg hp, if_neg hpi, if_pos rfl, ← count_room]
      exact ih _
  | str s _ ih =>
      intro maxLen
      rw [countPass, if_neg (not_not_intro rfl), if_neg hs, if_neg hsi, if_neg hsp, if_pos rfl,
        ← count_room]
      exact ih _
  | unknown hd _ ih =>
      intro maxLen
      simp only [List.mem_cons, List.not_mem_nil, or_false, not_or] at hd
      rw [countPass, if_neg (not_not_intro rfl), if_neg hd.1, if_neg hd.2.1, if_neg hd.2.2.1,
        if_neg hd.2.2.2, ih, ← count_room]
      rfl

/-- What a piece takes of its room, after the characters stored before it. -/
theorem store_room {buffer text out : List Byte} {p : Piece} {ps : List Piece}
    (htext : text.length + p.spare = p.room)
    (hout : out.length + spare ps = (buffer ++ text).length + room ps) :
    out.length + spare (p :: ps) = buffer.length + room (p :: ps) := by
  rw [List.length_append] at hout
  rw [spare_cons, room_cons]
  omega

theorem Matches.store {f : List Byte} {args : List PanicArg} {ps : List Piece} (h : Matches f args ps) :
    ∀ buffer : List Byte, ∃ out, storePass f args buffer = some out ∧
      out.length + spare ps = buffer.length + room ps := by
  obtain ⟨hi, hp, hs, hpi, hsi, hsp⟩ := ch_ne
  induction h with
  | done => intro buffer; exact ⟨buffer, rfl, rfl⟩
  | @char c _ _ _ hc _ ih =>
      intro buffer
      obtain ⟨out, hstore, hout⟩ := ih (buffer ++ [c])
      refine ⟨out, ?_, store_room rfl hout⟩
      rw [storePass_char hc, hstore]
  | trailing =>
      intro buffer
      exact ⟨buffer ++ [ch '%'], rfl, List.length_append⟩
  | percent _ ih =>
      intro buffer
      obtain ⟨out, hstore, hout⟩ := ih (buffer ++ [ch '%'])
      refine ⟨out, ?_, store_room rfl hout⟩
      rw [storePass, if_neg (not_not_intro rfl), if_pos rfl, hstore]
  | int v _ ih =>
      intro buffer
      obtain ⟨text, htext, hlen⟩ := storeInt_eq v
      obtain ⟨out, hstore, hout⟩ := ih (buffer ++ text)
      refine ⟨out, ?_, store_room ?_ hout⟩
      · rw [storePass, if_neg (not_not_intro rfl), if_neg hi, if_pos rfl]
        simp only [vaInt, Option.bind_eq_bind, Option.bind_some, htext, hstore]
      · rw [hlen]
        exact Nat.add_sub_of_le (Nat.le_of_lt (length_decimalText_int v))
  | uintptr v _ ih =>
      intro buffer
      obtain ⟨out, hstore, hout⟩ := ih (buffer ++ storeUintptr v)
      refine ⟨out, ?_, store_room rfl hout⟩
      rw [storePass, if_neg (not_not_intro rfl), if_neg hp, if_neg hpi, if_pos rfl]
      exact hstore
  | str s _ ih =>
      intro buffer
      obtain ⟨out, hstore, hout⟩ := ih (buffer ++ s.1)
      refine ⟨out, ?_, store_room rfl hout⟩
      rw [storePass, if_neg (not_not_intro rfl), if_neg hs, if_neg hsi, if_neg hsp, if_pos rfl]
      exact hstore
  | @unknown d _ _ _ hd _ ih =>
      intro buffer
      obtain ⟨out, hstore, hout⟩ := ih (buffer ++ [ch '%', d])
      simp only [List.mem_cons, List.not_mem_nil, or_false, not_or] at hd
      refine ⟨out, ?_, store_room rfl hout⟩
      rw [storePass, if_neg (not_not_intro rfl), if_neg hd.1, if_neg hd.2.1, if_neg hd.2.2.1,
        if_neg hd.2.2.2, hstore]

/-- Both passes end, and what they leave. -/
theorem formatPanic_eq (format : Str) {args : List PanicArg} {ps : List Piece}
    (h : Matches format.1 args ps) : ∃ stored,
      formatPanic format args = some (BitVec.ofNat 32 (room ps) + 1, stored) ∧
        stored.length + spare ps = room ps + 1 := by
  obtain ⟨out, hstore, hout⟩ := h.store []
  refine ⟨out ++ [0], ?_, ?_⟩
  · have hcount := h.count 0
    rw [show (0 : CInt) = 0#32 from rfl, BitVec.zero_add] at hcount
    rw [formatPanic, show (0 : CInt) = 0#32 from rfl, hcount, hstore]
    rfl
  · rw [List.length_append, List.length_singleton]
    rw [List.length_nil] at hout
    omega

theorem toNat_size (n : Nat) : (BitVec.ofNat 32 n + 1).toNat = (n + 1) % 2 ^ 32 := by
  rw [BitVec.toNat_add, BitVec.toNat_ofNat]
  exact Nat.mod_add_mod n (2 ^ 32) 1

/-- Both passes end, without an index outside of the digit buffer, and the message fits into the buffer
if and only if the conversions of `int`s leave as much room as the counter has lost. -/
theorem format_panic_fits (format : Str) {args : List PanicArg} {ps : List Piece}
    (h : Matches format.1 args ps) : ∃ size stored,
      formatPanic format args = some (size, stored) ∧
        (stored.length ≤ size.toNat ↔ 2 ^ 32 * ((room ps + 1) / 2 ^ 32) ≤ spare ps) := by
  obtain ⟨stored, hrun, hlen⟩ := formatPanic_eq format h
  refine ⟨_, stored, hrun, ?_⟩
  have hdiv := Nat.div_add_mod (room ps + 1) (2 ^ 32)
  rw [toNat_size]
  omega

/-- **The message fits**: where the first pass counts fewer than `2 ^ 32` characters, both passes end
without an index outside of the digit buffer, and the second one stores no more than was counted. -/
theorem format_panic_message_fits (format : Str) {args : List PanicArg} {ps : List Piece}
    (h : Matches format.1 args ps) (hroom : room ps + 1 < 2 ^ 32) : ∃ size stored,
      formatPanic format args = some (size, stored) ∧ size.toNat = room ps + 1 ∧
        stored.length ≤ size.toNat := by
  obtain ⟨stored, hrun, hlen⟩ := formatPanic_eq format h
  have hsize := toNat_size (room ps)
  rw [Nat.mod_eq_of_lt hroom] at hsize
  exact ⟨_, stored, hrun, hsize, by omega⟩

theorem assertion_noNul : (0 : Byte) ∉ [ch '%', ch 's', ch ':', ch '%', ch 'i', ch ' ', ch '%', ch 'p',
    ch '%', ch '%', ch '%', ch 'x', ch '%'] := by decide

/-- A file's name and a line, a pointer, a percent sign, an unknown conversion and a percent sign at the
end. -/
def assertionFormat : Str := ⟨_, assertion_noNul⟩

theorem panicC_noNul : (0 : Byte) ∉ [ch 'p', ch '.', ch 'c'] := by decide

/-- The least `int` takes 11 of its 12 characters. -/
theorem format_panic_message_fits_assertion : ∃ size stored,
    formatPanic assertionFormat [.str ⟨_, panicC_noNul⟩, .int (BitVec.intMin 32), .uintptr 0xc0000000] =
      some (size, stored) ∧ size.toNat = 32 ∧ stored.length ≤ size.toNat := by
  have hmatch : Matches assertionFormat.1
      [.str ⟨_, panicC_noNul⟩, .int (BitVec.intMin 32), .uintptr 0xc0000000]
      [.str ⟨_, panicC_noNul⟩, .char (ch ':'), .int (BitVec.intMin 32), .char (ch ' '),
        .uintptr 0xc0000000, .char (ch '%'), .unknown (ch 'x'), .char (ch '%')] :=
    .str _ (.char (by decide) (.int _ (.char (by decide) (.uintptr _ (.percent
      (.unknown (by decide) .trailing))))))
  exact format_panic_message_fits assertionFormat hmatch (by decide)

theorem threePieces_noNul : (0 : Byte) ∉ [ch '%', ch 'i', ch '%', ch 'x', ch '%'] := by decide

/-- An `int`, an unknown conversion and a percent sign at the end. -/
def threePieces : Str := ⟨[ch '%', ch 'i', ch '%', ch 'x', ch '%'], threePieces_noNul⟩

theorem format_panic_fits_least : ∃ size stored,
    formatPanic threePieces [.int (BitVec.intMin 32)] = some (size, stored) ∧
      stored.length ≤ size.toNat := by
  obtain ⟨size, stored, hrun, hfits⟩ := format_panic_fits threePieces
    (.int (BitVec.intMin 32) (.unknown (by decide) .trailing))
  exact ⟨size, stored, hrun, hfits.mpr (Nat.zero_le _)⟩

/-! ### A buffer of one character -/

/-- A format of `n` times `%s`. -/
def stringsFormat : Nat → List Byte
  | 0 => []
  | n + 1 => ch '%' :: ch 's' :: stringsFormat n

theorem stringsFormat_matches (s : Str) : ∀ n : Nat,
    Matches (stringsFormat n) (List.replicate n (.str s)) (List.replicate n (.str s))
  | 0 => .done
  | n + 1 => .str s (stringsFormat_matches s n)

theorem room_strings (s : Str) (n : Nat) : room (List.replicate n (.str s)) = n * s.1.length := by
  rw [room, List.map_replicate, List.sum_replicate_nat]
  rfl

theorem spare_strings (s : Str) (n : Nat) : spare (List.replicate n (.str s)) = 0 := by
  rw [spare, List.map_replicate, List.sum_replicate_nat]
  rfl

/-- Sixteen times a string of `2 ^ 28` characters: the first pass counts to 0, the buffer has one cell, and
`2 ^ 32 + 1` characters are stored. -/
theorem format_panic_overflows : ¬∀ (format : Str) (args : List PanicArg) (ps : List Piece),
    Matches format.1 args ps → ∃ size stored, formatPanic format args = some (size, stored) ∧
      stored.length ≤ size.toNat := by
  intro hall
  have hnul : (0 : Byte) ∉ List.replicate (2 ^ 28) (ch 'a') := fun h =>
    absurd (List.eq_of_mem_replicate h) (by decide)
  have hmatch := stringsFormat_matches ⟨List.replicate (2 ^ 28) (ch 'a'), hnul⟩ 16
  have hfmt : (0 : Byte) ∉ stringsFormat 16 := by decide
  obtain ⟨size, stored, hrun, hle⟩ := hall ⟨stringsFormat 16, hfmt⟩ _ _ hmatch
  obtain ⟨stored', hrun', hlen⟩ := formatPanic_eq ⟨stringsFormat 16, hfmt⟩ hmatch
  rw [hrun', Option.some.injEq, Prod.mk.injEq] at hrun
  rw [← hrun.1, ← hrun.2, toNat_size, room_strings, List.length_replicate] at hle
  rw [spare_strings, room_strings, List.length_replicate] at hlen
  omega

end Muxomucota.Text
