import Muxomucota.Text.PrintBound
import Muxomucota.Text.Strtoll
import Mathlib.Data.Nat.Digits.Lemmas

/-!
# Text — printing an integer and reading it back

The four signed integer types on a machine with a `long` of 32 bits, printed with `%hd`, `%d`, `%ld` and
`%lld`.  The text is read back as a numeral of base 10.
-/

namespace Muxomucota.Text

open Console

inductive IntType where
  | short | int | long | longLong
  deriving DecidableEq

/-- The length modifier. -/
def IntType.modifier : IntType → List Byte
  | .short => [ch 'h']
  | .int => []
  | .long => [ch 'l']
  | .longLong => [ch 'l', ch 'l']

/-- The values; of the `long long` without the least one. -/
def IntType.Holds : IntType → Int → Prop
  | .short, v => -2 ^ 15 ≤ v ∧ v < 2 ^ 15
  | .int, v => -2 ^ 31 ≤ v ∧ v < 2 ^ 31
  | .long, v => -2 ^ 31 ≤ v ∧ v < 2 ^ 31
  | .longLong, v => -2 ^ 63 < v ∧ v < 2 ^ 63

/-- How a value is passed: a `short` becomes an `int`. -/
def IntType.arg : IntType → Int → Arg
  | .longLong, v => .dword (BitVec.ofInt 64 v)
  | _, v => .word (BitVec.ofInt 32 v)

def IntType.format (t : IntType) : List Byte := ch '%' :: (t.modifier ++ [ch 'd'])

/-- A text is a numeral, and nothing else, for the value. -/
def ReadsAs (text : List Byte) (v : Int) : Prop :=
  (numeralOf 10 text).value = v ∧ (numeralOf 10 text).digits ≠ [] ∧
    (numeralOf 10 text).start + (numeralOf 10 text).digits.length = text.length

/-- The value is printed into the buffer, and the string in the buffer reads as the value. -/
def PrintsBack (buffer : List Byte) (n : CInt) (t : IntType) (v : Int) : Prop :=
  ∃ ret buffer', vsnprintf buffer n (some t.format) [t.arg v] = some (ret, buffer') ∧
    ReadsAs (buffer'.takeWhile (· ≠ 0)) v

/-! ### The digits -/

/-- The digits of a number, the last one first; 0 has one. -/
def decimals (m : Nat) : List Nat := if m = 0 then [0] else Nat.digits 10 m

theorem ofDigits_decimals (m : Nat) : Nat.ofDigits 10 (decimals m) = m := by
  rw [decimals]
  split
  · rename_i h
    rw [h]
    rfl
  · exact Nat.ofDigits_digits 10 m

theorem decimals_lt {m d : Nat} (h : d ∈ decimals m) : d < 10 := by
  rw [decimals] at h
  split at h
  · rw [List.mem_singleton.mp h]
    decide
  · exact Nat.digits_lt_base (by decide) h

theorem decimals_ne_nil (m : Nat) : decimals m ≠ [] := by
  rw [decimals]
  split
  · exact List.cons_ne_nil _ _
  · exact Nat.digits_ne_nil_iff_ne_zero.mpr ‹_›

theorem length_decimals {m : Nat} (h : m < 10 ^ 19) : (decimals m).length ≤ 19 := by
  rw [decimals]
  split
  · decide
  · exact (Nat.digits_length_le_iff (by decide) m).mpr h

theorem digitLoop_eq {base : Nat} (hb : 2 ≤ base) : ∀ {room m : Nat}, m < base ^ room →
    digitLoop base room m = Nat.digits base m := by
  intro room
  induction room with
  | zero =>
      intro m hm
      rw [Nat.pow_zero, Nat.lt_one_iff] at hm
      rw [hm, Nat.digits_zero]
      rfl
  | succ room ih =>
      intro m hm
      rw [digitLoop]
      by_cases h0 : m = 0
      · rw [if_pos h0, h0, Nat.digits_zero]
      · rw [if_neg h0, Nat.digits_def' (by omega) (by omega),
          ih (Nat.div_lt_of_lt_mul (by rwa [Nat.mul_comm, ← Nat.pow_succ]))]

/-! ### Reading -/

/-- The text of a number: its sign and its digits. -/
def decimalText (v : Int) : List Byte :=
  (if v < 0 then [ch '-'] else []) ++ ((decimals v.natAbs).map (digitChar false)).reverse

theorem digitChar_nat {d : Nat} (hd : d < 10) : (digitChar false d).toNat = 48 + d := by
  rw [digitChar, if_pos hd, BitVec.toNat_ofNat]
  omega

theorem isdigit_digitChar {d : Nat} (hd : d < 10) : isdigit (digitChar false d) = true := by
  simp only [isdigit, digitChar_nat hd, Bool.and_eq_true, decide_eq_true_eq]
  omega

theorem digitOf_digitChar {d : Nat} (hd : d < 10) : digitOf (digitChar false d) = d := by
  rw [digitOf, if_pos (isdigit_digitChar hd), digitChar_nat hd]
  omega

theorem digitRun_digits {ds : List Nat} (hds : ∀ d ∈ ds, d < 10) :
    digitRun 10 (ds.map (digitChar false)) = ds.map (digitChar false) := by
  induction ds with
  | nil => rfl
  | cons d ds ih =>
      rw [List.forall_mem_cons] at hds
      rw [List.map_cons, digitRun_cons _ _, ih hds.2]
      · rw [isalnum, isdigit_digitChar hds.1, Bool.or_true]
      · rw [digitOf_digitChar hds.1]
        exact hds.1

theorem map_digitOf {ds : List Nat} (hds : ∀ d ∈ ds, d < 10) :
    (ds.map (digitChar false)).map digitOf = ds := by
  induction ds with
  | nil => rfl
  | cons d ds ih =>
      rw [List.forall_mem_cons] at hds
      rw [List.map_cons, List.map_cons, digitOf_digitChar hds.1, ih hds.2]

/-- A numeral of base 10 whose sign and digits are known. -/
theorem numeralOf_text {sign : List Byte} {ds : List Nat} (hsign : sign = [] ∨ sign = [ch '-'])
    (hds : ∀ d ∈ ds, d < 10) (hne : ds ≠ []) :
    numeralOf 10 (sign ++ ds.map (digitChar false)) =
      { negative := decide (sign = [ch '-']), base := 10, start := sign.length, digits := ds } := by
  have hhead : ∀ {x : Byte}, isdigit x = false →
      (ds.map (digitChar false)).head? ≠ some x := by
    obtain ⟨d, ds, rfl⟩ := List.exists_cons_of_ne_nil hne
    rintro x hx hsome
    cases hsome
    rw [isdigit_digitChar (hds d List.mem_cons_self)] at hx
    cases hx
  have hlen : signLength (sign ++ ds.map (digitChar false)) = sign.length := by
    rcases hsign with rfl | rfl
    · rw [List.nil_append, signLength, if_neg]
      · rfl
      · rintro (h | h)
        · exact hhead (by decide) h
        · exact hhead (by decide) h
    · rfl
  have hneg : decide ((sign ++ ds.map (digitChar false)).head? = some 45) = decide (sign = [ch '-']) := by
    rcases hsign with rfl | rfl
    · rw [List.nil_append]
      exact decide_eq_decide.mpr (iff_of_false (hhead (by decide)) (by decide))
    · rfl
  rw [numeralOf, hlen, hneg, detectBase, if_pos (by decide)]
  dsimp only
  rw [Nat.add_zero, List.drop_left, digitRun_digits hds, map_digitOf hds]

theorem reads_decimalText (v w : Int) : ReadsAs (decimalText v) w ↔ w = v := by
  have htext : decimalText v = (if v < 0 then [ch '-'] else []) ++
      (decimals v.natAbs).reverse.map (digitChar false) := by
    rw [decimalText, List.map_reverse]
  have hds : ∀ d ∈ (decimals v.natAbs).reverse, d < 10 := fun d hd =>
    decimals_lt (List.mem_reverse.mp hd)
  have hne : (decimals v.natAbs).reverse ≠ [] := by simpa using decimals_ne_nil v.natAbs
  have hnum := @numeralOf_text (if v < 0 then [ch '-'] else []) _
    (by split; exacts [Or.inr rfl, Or.inl rfl]) hds hne
  rw [ReadsAs, htext, hnum, List.length_append, List.length_map, and_iff_left ⟨hne, rfl⟩,
    Numeral.value]
  dsimp only
  rw [List.reverse_reverse, ofDigits_decimals]
  by_cases hv : v < 0
  · simp only [if_pos hv]
    rw [if_pos (by decide)]
    omega
  · simp only [if_neg hv]
    rw [if_neg (by decide)]
    omega

theorem decimalText_ne_zero (v : Int) : 0 ∉ decimalText v := by
  intro h
  rw [decimalText, List.mem_append, List.mem_reverse, List.mem_map] at h
  rcases h with h | ⟨d, hd, h⟩
  · split at h
    · exact absurd (List.mem_singleton.mp h) (by decide)
    · cases h
  · have hlow := digitChar_nat (decimals_lt hd)
    rw [h] at hlow
    have hzero : (0 : Byte).toNat = 0 := rfl
    omega

theorem length_decimalText {v : Int} (h : v.natAbs < 10 ^ 19) : (decimalText v).length ≤ 20 := by
  have hlen := length_decimals h
  rw [decimalText, List.length_append, List.length_reverse, List.length_map]
  split
  · rw [List.length_singleton]
    omega
  · rw [List.length_nil]
    omega

/-! ### Printing -/

theorem rounds_zero {size : CInt} (h : size.toInt ≤ 0) : rounds size = 0 :=
  Int.toNat_eq_zero.mpr h

theorem toInt_sub_small {x y : CInt} (hx : -100 ≤ x.toInt) (hx' : x.toInt ≤ 0) (hy : 0 ≤ y.toInt)
    (hy' : y.toInt ≤ 100) : (x - y).toInt = x.toInt - y.toInt := by
  rw [BitVec.toInt_sub]
  exact Int.bmod_eq_of_le (by omega) (by omega)

theorem afterRounds_small {size : CInt} (h : -100 ≤ size.toInt) (h' : size.toInt ≤ 0) :
    (afterRounds size).toInt = size.toInt - 1 := by
  rw [afterRounds, if_neg (by omega)]
  exact toInt_sub_small h h' (by decide) (by decide)

/-- Without flags and room to fill, a field is its sign and its digits. -/
theorem fieldText_plain {f : Field} (htype : f.type = 0x02) (hmark : f.mark = [])
    (hsize : -98 ≤ f.size.toInt) (hsize' : f.size.toInt ≤ 0)
    (hprec : f.precision.toInt = f.tmp.length) : fieldText f = f.sign.toList ++ f.tmp.reverse := by
  have h₁ := afterRounds_small (by omega) hsize'
  have h₂ := afterRounds_small (by omega) (by omega : (afterRounds f.size).toInt ≤ 0)
  rw [fieldText, htype, hmark, hprec, Int.sub_self]
  simp only [(by decide : (0x02 : Nat) &&& 0x11 = 0), (by decide : (0x02 : Nat) &&& 0x10 = 0), if_true,
    rounds_zero hsize', rounds_zero (by omega : (afterRounds f.size).toInt ≤ 0),
    rounds_zero (by omega : (afterRounds (afterRounds f.size)).toInt ≤ 0), Int.toNat_zero,
    List.replicate_zero, List.nil_append, List.append_nil]

/-- The digits of the number without its sign. -/
theorem tmp_decimals (num : BitVec 64) :
    (if num = 0 then [ch '0'] else (digitLoop 10 66 num.toNat).map (digitChar false)) =
      (decimals num.toNat).map (digitChar false) := by
  have hlt : num.toNat < 10 ^ 66 := Nat.lt_trans num.isLt (by decide)
  rw [digitLoop_eq (by decide) hlt, decimals]
  by_cases h0 : num = 0
  · rw [if_pos h0, if_pos (by rw [h0]; rfl)]
    rfl
  · have hne : num.toNat ≠ 0 := fun h => h0 (BitVec.eq_of_toNat_eq h)
    rw [if_neg h0, if_neg hne]

theorem length_tmp (num : BitVec 64) :
    ((decimals num.toNat).map (digitChar false)).length ≤ 20 := by
  rw [List.length_map, decimals]
  split
  · decide
  · exact (Nat.digits_length_le_iff (by decide) num.toNat).mpr (Nat.lt_trans num.isLt (by decide))

/-- The field that `number` makes of a sign, a size that has room for no more, and digits. -/
theorem fieldText_digits {sign : Option Byte} {size : CInt} {tmp : List Byte}
    (hsize : -2 ≤ size.toInt) (hsize' : size.toInt ≤ -1) (htmp : tmp.length ≤ 20) :
    fieldText { type := 0x02, sign, mark := [], tmp
                size := size - BitVec.ofNat 32 ([] : List Byte).length -
                  (if (-1 : CInt).toInt < tmp.length then BitVec.ofNat 32 tmp.length else -1)
                precision :=
                  if (-1 : CInt).toInt < tmp.length then BitVec.ofNat 32 tmp.length else -1 } =
      sign.toList ++ tmp.reverse := by
  have hneg : (-1 : CInt).toInt = -1 := by decide
  have hlt : (-1 : CInt).toInt < tmp.length := by omega
  have hprec : (BitVec.ofNat 32 tmp.length).toInt = tmp.length := by
    have hnat : (BitVec.ofNat 32 tmp.length).toNat = tmp.length := by
      rw [BitVec.toNat_ofNat]
      exact Nat.mod_eq_of_lt (by omega)
    rw [BitVec.toInt_eq_toNat_of_lt (by rw [hnat]; omega), hnat]
  have hleft : (size - BitVec.ofNat 32 ([] : List Byte).length - BitVec.ofNat 32 tmp.length).toInt =
      size.toInt - tmp.length := by
    have hzero : size - BitVec.ofNat 32 ([] : List Byte).length = size := BitVec.sub_zero size
    rw [hzero, toInt_sub_small (by omega) (by omega) (by omega) (by omega), hprec]
  simp only [if_pos hlt]
  exact fieldText_plain rfl rfl (by rw [hleft]; omega) (by rw [hleft]; omega) hprec

/-- What `number` writes for `%d` without a width: the number, whatever its type was. -/
theorem fieldText_decimal (num : BitVec 64) :
    (numberField num 10 (-1) (-1) 0x02).map fieldText = some (decimalText num.toInt) := by
  have hsign : takeSign 0x02 num (-1) =
      if num.toInt < 0 then (some (ch '-'), -num, -1 - 1) else (none, num, -1) := by
    rw [takeSign, if_neg (by decide)]
    split
    · rfl
    · rw [if_neg (by decide), if_neg (by decide)]
  rw [numberField, decimalText]
  simp only [(by decide : ¬ (0x02 : Nat) &&& 0x40 ≠ 0), (by decide : ¬ (0x02 : Nat) &&& 0x10 ≠ 0),
    (by decide : ¬ ((10 : Nat) < 2 ∨ 36 < 10)), (by decide : (0x02 : Nat) &&& 0x20 = 0), if_true, if_false,
    decide_false, hsign]
  have hint := BitVec.toInt_eq_toNat_cond num
  have hlt := num.isLt
  by_cases hneg : num.toInt < 0
  · have habs : (-num).toNat = num.toInt.natAbs := by
      rw [BitVec.toNat_neg]
      split at hint <;> omega
    simp only [if_pos hneg, tmp_decimals, Option.map_some]
    rw [fieldText_digits (by decide) (by decide) (length_tmp _), habs]
    rfl
  · have habs : num.toNat = num.toInt.natAbs := by
      split at hint <;> omega
    simp only [if_neg hneg, tmp_decimals, Option.map_some]
    rw [fieldText_digits (by decide) (by decide) (length_tmp _), habs]
    rfl

/-- What is left in `num` of a value of a type. -/
def IntType.fetched : IntType → Int → BitVec 64
  | .short, v => (BitVec.ofInt 32 v &&& 0xFFFF).signExtend 64
  | .int, v => (BitVec.ofInt 32 v).signExtend 64
  | .long, v => (BitVec.ofInt 32 v).setWidth 64
  | .longLong, v => BitVec.ofInt 64 v

def IntType.qualifier : IntType → Qualifier
  | .short => .h
  | .int => .none
  | .long => .l
  | .longLong => .ll

/-- What stands between the `%` and the `d`. -/
def IntType.spec (t : IntType) : Spec :=
  { flags := 0, fieldWidth := -1, precision := -1, qualifier := t.qualifier }

theorem readSpec_format (t : IntType) (args : List Arg) :
    readSpec (t.modifier ++ [ch 'd']) args = some (t.spec, [ch 'd'], args) := by
  cases t <;> rfl

theorem integerOf_format (t : IntType) : integerOf t.spec (ch 'd') =
    some { base := 10, flags := 0x02, fieldWidth := -1, qualifier := t.qualifier, put := [] } := by
  cases t <;> rfl

theorem fetch_format (t : IntType) (v : Int) :
    fetch 0x02 t.qualifier [t.arg v] = some (t.fetched v, []) := by
  cases t <;> rfl

/-- The output for a value. -/
theorem outputText_format (t : IntType) (v : Int) :
    outputText t.format [t.arg v] = some (decimalText (t.fetched v).toInt) := by
  obtain ⟨f, hf, htext⟩ := Option.map_eq_some_iff.mp (fieldText_decimal (t.fetched v))
  have hconv : convertText t.spec (ch 'd') [t.arg v] =
      some (decimalText (t.fetched v).toInt, []) := by
    rw [convertText, if_neg (by decide), if_neg (by decide), if_neg (by decide), integerOf_format]
    dsimp only
    rw [fetch_format, Option.bind_eq_bind, Option.bind_some]
    dsimp only [IntType.spec]
    rw [hf, Option.bind_eq_bind, Option.bind_some, htext]
    rfl
  rw [IntType.format, outputText_conversion (readSpec_format t _)]
  have hd : char [ch 'd'] = ch 'd' := rfl
  rw [hd, hconv, Option.bind_some, List.tail_cons, outputText_plain (by simp)]
  simp

/-- The value that is printed. -/
def IntType.printed : IntType → Int → Int
  | .short, v => v % 2 ^ 16
  | .int, v => v
  | .long, v => v % 2 ^ 32
  | .longLong, v => v

theorem fetched_toInt {t : IntType} {v : Int} (h : t.Holds v) : (t.fetched v).toInt = t.printed v := by
  cases t with
  | short =>
      have hmask : (BitVec.ofInt 32 v &&& 0xFFFF).toNat = (BitVec.ofInt 32 v).toNat % 2 ^ 16 := by
        rw [BitVec.toNat_and]
        exact Nat.and_two_pow_sub_one_eq_mod _ 16
      rw [IntType.fetched, BitVec.toInt_signExtend_of_le (by decide),
        BitVec.toInt_eq_toNat_of_lt (by rw [hmask]; omega), hmask, BitVec.toNat_ofInt, IntType.printed]
      omega
  | int =>
      obtain ⟨hlow, hhigh⟩ := h
      rw [IntType.fetched, BitVec.toInt_signExtend_of_le (by decide), BitVec.toInt_ofInt]
      exact Int.bmod_eq_of_le (by omega) (by omega)
  | long =>
      have hlt := (BitVec.ofInt 32 v).isLt
      have hnat : ((BitVec.ofInt 32 v).setWidth 64).toNat = (BitVec.ofInt 32 v).toNat := by
        rw [BitVec.toNat_setWidth]
        omega
      rw [IntType.fetched, BitVec.toInt_eq_toNat_of_lt (by rw [hnat]; omega), hnat, BitVec.toNat_ofInt]
      exact Int.toNat_of_nonneg (by omega)
  | longLong =>
      obtain ⟨hlow, hhigh⟩ := h
      rw [IntType.fetched, BitVec.toInt_ofInt]
      exact Int.bmod_eq_of_le (by omega) (by omega)

theorem printed_eq_iff {t : IntType} {v : Int} (h : t.Holds v) :
    v = t.printed v ↔ 0 ≤ v ∨ t = .int ∨ t = .longLong := by
  cases t <;> simp only [IntType.Holds] at h <;> simp only [IntType.printed, reduceCtorEq, or_false,
    or_true] <;> omega

/-- What reads back is what is printed. -/
theorem prints_back_printed {buffer : List Byte} {n : CInt} {t : IntType} {v : Int}
    (hbuf : buffer.length = n.toNat) (hroom : 21 ≤ n.toNat) (h : t.Holds v) :
    PrintsBack buffer n t v ↔ v = t.printed v := by
  have hlen : (decimalText (t.fetched v).toInt).length ≤ 20 := by
    refine length_decimalText ?_
    have hlow := BitVec.le_toInt (t.fetched v)
    have hhigh := @BitVec.toInt_lt 64 (t.fetched v)
    omega
  obtain ⟨buffer', hprint, hstring⟩ := @vsnprintf_string buffer n (some t.format) [t.arg v] _ hbuf
    (outputText_format t v) (by omega) (by omega) (decimalText_ne_zero _)
  rw [← fetched_toInt h, ← reads_decimalText, ← hstring]
  constructor
  · rintro ⟨ret, buffer₁, hprint₁, hreads⟩
    rw [hprint] at hprint₁
    cases hprint₁
    exact hreads
  · intro hreads
    exact ⟨_, buffer', hprint, hreads⟩

/-- **A value reads back exactly when it is not negative, or an `int` or a `long long`.** -/
theorem prints_back_iff {buffer : List Byte} {n : CInt} {t : IntType} {v : Int}
    (hbuf : buffer.length = n.toNat) (hroom : 21 ≤ n.toNat) (h : t.Holds v) :
    PrintsBack buffer n t v ↔ 0 ≤ v ∨ t = .int ∨ t = .longLong :=
  (prints_back_printed hbuf hroom h).trans (printed_eq_iff h)

theorem int_prints_back : PrintsBack (List.replicate 21 0) 21 .int (-42) :=
  (@prints_back_iff (List.replicate 21 0) 21 .int (-42) (by decide) (by decide)
    ⟨by decide, by decide⟩).mpr (Or.inr (Or.inl rfl))

/-- A `short` of -1 is printed as 65535, and a `long` of -1 as 4294967295. -/
theorem minus_one_lost :
    ¬ PrintsBack (List.replicate 21 0) 21 .short (-1) ∧ ¬ PrintsBack (List.replicate 21 0) 21 .long (-1) := by
  rw [@prints_back_printed (List.replicate 21 0) 21 .short (-1) (by decide) (by decide)
      ⟨by decide, by decide⟩,
    @prints_back_printed (List.replicate 21 0) 21 .long (-1) (by decide) (by decide)
      ⟨by decide, by decide⟩]
  exact ⟨by decide, by decide⟩

end Muxomucota.Text
