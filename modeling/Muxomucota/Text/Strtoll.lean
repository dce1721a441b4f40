import Muxomucota.Console.Strings
import Mathlib.Data.Nat.Digits.Defs

/-!
# Text — `strtoll`

`stdlib/strtol.c`: the digits of a number go into an array of ten, which -1 ends, and are weighted by the
powers of the base afterwards.  The string is its buffer, and a function that goes outside the buffer or
the array gives `none`.
-/

namespace Muxomucota.Text

open Console

/-! ### The code -/

/-- `__stdlib_pow`. -/
def stdlibPow (base : BitVec 64) : (exp : Nat) → BitVec 64
  | 0 => 1
  | exp + 1 => stdlibPow base exp * base

/-- `digit[dpos] = d`. -/
def storeDigit (digit : List Int) (dpos : Nat) (d : Int) : Option (List Int) :=
  if dpos < digit.length then some (digit.set dpos d) else none

/-- The loop that collects the digits, over the cells from `pos` on: what it leaves in `pos` and
`digit`. -/
def collectDigits (base : Int) : List Byte → (pos dpos : Nat) → (digit : List Int) →
    Option (Nat × List Int)
  | [], _, _, _ => none
  | c :: cs, pos, dpos, digit =>
      if isalnum c then do
        let digit ← storeDigit digit dpos (digitOf c)
        if base ≤ digitOf c then do
          let digit ← storeDigit digit dpos (-1)
          some (pos, digit)
        else collectDigits base cs (pos + 1) (dpos + 1) digit
      else some (pos, digit)

/-- The loop that counts them. -/
def countDigits : List Int → Option Nat
  | [] => none
  | d :: ds => if 0 ≤ d then (countDigits ds).map (· + 1) else some 0

/-- The loop that adds them up. -/
def addDigits (base : BitVec 64) (digits : Nat) (digit : List Int) : Option (BitVec 64) :=
  (List.range digits).foldlM (fun retval dpos => do
    let d ← digit[dpos]?
    some (retval + stdlibPow base (digits - (dpos + 1)) * BitVec.ofInt 64 d)) 0

/-- Finding the base: `pos` and `base`, or that there is nothing to convert. -/
def findBase (mem : List Byte) (base : Int) (pos : Nat) : Option (Option (Nat × Int)) :=
  if base ≠ 0 then some (some (pos, base))
  else do
    let c ← mem[pos]?
    if c = 48 then do
      let x ← mem[pos + 1]?
      if x = 120 ∨ x = 88 then some (some (pos + 2, 16)) else some (some (pos + 1, 8))
    else if isdigit c then some (some (pos, 10))
    else some none

/-- `strtoll`: the value, and how far behind `s` the end pointer is. -/
def strtoll (mem : List Byte) (base : Int) : Option (Int × Nat) := do
  let c ← mem[0]?
  let pos := if c = 43 ∨ c = 45 then 1 else 0
  match ← findBase mem base pos with
  | none => some (0, 0)
  | some (pos, base) => do
      let (pos, digit) ← collectDigits base (mem.drop pos) pos 0 (List.replicate 10 (-1))
      let digits ← countDigits digit
      let retval ← addDigits ((BitVec.ofInt 32 base).setWidth 64) digits digit
      some ((if c = 45 then retval * -1 else retval).toInt, pos)

def longMin : Int := -0x80000000
def longMax : Int := 0x7FFFFFFF

/-- `strtol`: a value that a `long` does not hold becomes the one next to it that it holds. -/
def strtol (mem : List Byte) (base : Int) : Option (Int × Nat) :=
  (strtoll mem base).map fun (result, n) =>
    (if result < longMin then longMin else if longMax < result then longMax else result, n)

/-! ### The purpose -/

/-- A numeral at the start of a string: where its digits begin, and what they are. -/
structure Numeral where
  negative : Bool
  base : Nat
  start : Nat
  digits : List Nat

/-- The base that a prefix stands for, and the length of the prefix. -/
def detectBase (base : Nat) (t : List Byte) : Nat × Nat :=
  if base ≠ 0 then (base, 0)
  else if t.head? ≠ some 48 then (10, 0)
  else if t[1]? = some 120 ∨ t[1]? = some 88 then (16, 2)
  else (8, 1)

/-- The digits at the start of a string. -/
def digitRun (base : Nat) (t : List Byte) : List Byte :=
  t.takeWhile fun c => isalnum c ∧ digitOf c < base

def signLength (s : List Byte) : Nat := if s.head? = some 43 ∨ s.head? = some 45 then 1 else 0

/-- The numeral that a string starts with. -/
def numeralOf (base : Nat) (s : List Byte) : Numeral :=
  let (found, len) := detectBase base (s.drop (signLength s))
  { negative := s.head? = some 45
    base := found
    start := signLength s + len
    digits := (digitRun found (s.drop (signLength s + len))).map digitOf }

def Numeral.value (n : Numeral) : Int :=
  if n.negative then -((Nat.ofDigits n.base n.digits.reverse : Nat) : Int)
  else ((Nat.ofDigits n.base n.digits.reverse : Nat) : Int)

/-- What is to come of the numeral: the end pointer behind it, and its value if that is a `long long`. -/
def Converts (mem : List Byte) (base : Nat) (n : Numeral) : Prop :=
  ∃ value, strtoll mem base = some (value, n.start + n.digits.length) ∧
    (-2 ^ 63 ≤ n.value → n.value < 2 ^ 63 → value = n.value)

example : strtoll [45, 48, 120, 49, 70, 0] 0 = some (-31, 5) := by decide
example : strtoll [49, 50, 57, 0] 8 = some (10, 2) := by decide
example : strtoll [49, 48, 48, 48, 48, 48, 48, 48, 48, 48, 0] 10 = none := by decide

/-! ### The digits -/

/-- The array with the digits `ds` in it. -/
def digitArray (ds : List Nat) : List Int :=
  ds.map Int.ofNat ++ List.replicate (10 - ds.length) (-1)

theorem length_digitArray {ds : List Nat} (h : ds.length ≤ 10) : (digitArray ds).length = 10 := by
  simp only [digitArray, List.length_append, List.length_map, List.length_replicate]
  omega

theorem storeDigit_next {ds : List Nat} (h : ds.length < 10) (d : Nat) :
    storeDigit (digitArray ds) ds.length d = some (digitArray (ds ++ [d])) := by
  obtain ⟨k, hk⟩ : ∃ k, 10 - ds.length = k + 1 := ⟨9 - ds.length, by omega⟩
  have hk' : 10 - (ds ++ [d]).length = k := by rw [List.length_append, List.length_singleton]; omega
  rw [storeDigit, if_pos (by rw [length_digitArray (by omega)]; exact h), digitArray, digitArray, hk,
    hk', List.set_append_right _ _ (by rw [List.length_map]), List.length_map, Nat.sub_self,
    List.replicate_succ, List.set_cons_zero, List.map_append, List.append_assoc]
  rfl

/-- A byte that turns out not to be a digit is taken out of the array again. -/
theorem storeDigit_back {ds : List Nat} (h : ds.length < 10) (d : Nat) :
    storeDigit (digitArray (ds ++ [d])) ds.length (-1) = some (digitArray ds) := by
  obtain ⟨k, hk⟩ : ∃ k, 10 - ds.length = k + 1 := ⟨9 - ds.length, by omega⟩
  have hlen : (ds ++ [d]).length = ds.length + 1 := by rw [List.length_append, List.length_singleton]
  have hk' : 10 - (ds ++ [d]).length = k := by omega
  rw [storeDigit, if_pos (by rw [length_digitArray (by omega)]; exact h), digitArray, digitArray, hk,
    hk', List.map_append, List.append_assoc, List.set_append_right _ _ (by rw [List.length_map]),
    List.length_map, Nat.sub_self, List.replicate_succ]
  rfl

theorem storeDigit_full {ds : List Nat} (h : ds.length = 10) (d : Int) :
    storeDigit (digitArray ds) ds.length d = none := by
  rw [storeDigit, if_neg (by rw [length_digitArray (by omega)]; omega)]

theorem countDigits_map (ds : List Nat) (rest : List Int) :
    countDigits (ds.map Int.ofNat ++ rest) = (countDigits rest).map (ds.length + ·) := by
  induction ds with
  | nil => simp
  | cons d ds ih =>
      have hd : 0 ≤ Int.ofNat d := Int.natCast_nonneg d
      rw [List.map_cons, List.cons_append, countDigits, if_pos hd, ih, Option.map_map, List.length_cons]
      refine congrArg (Option.map · _) ?_
      funext n
      rw [Function.comp_apply]
      omega

theorem countDigits_array {ds : List Nat} (h : ds.length < 10) :
    countDigits (digitArray ds) = some ds.length := by
  obtain ⟨k, hk⟩ : ∃ k, 10 - ds.length = k + 1 := ⟨9 - ds.length, by omega⟩
  rw [digitArray, countDigits_map, hk]
  rfl

theorem countDigits_full {ds : List Nat} (h : ds.length = 10) : countDigits (digitArray ds) = none := by
  rw [digitArray, countDigits_map, h]
  rfl

section Collect

variable {base : Nat}

theorem digitRun_cons {c : Byte} {t : List Byte} (hc : isalnum c = true) (hlt : digitOf c < base) :
    digitRun base (c :: t) = c :: digitRun base t := by
  rw [digitRun, List.takeWhile_cons_of_pos (by simp [hc, hlt])]
  rfl

theorem digitRun_stop {c : Byte} {t : List Byte} (hc : isalnum c = true → base ≤ digitOf c) :
    digitRun base (c :: t) = [] := by
  refine List.takeWhile_cons_of_neg ?_
  simp only [decide_eq_true_eq, not_and, Nat.not_lt]
  exact hc

/-- The digits at the start of a buffer, with `room` places of the array left: one of these stays empty, and
the byte behind the digits is read. -/
def readDigits (base : Nat) : (room : Nat) → List Byte → Option (List Nat)
  | 0, _ => none
  | _ + 1, [] => none
  | room + 1, c :: t =>
      if isalnum c = true ∧ digitOf c < base then (readDigits base room t).map (digitOf c :: ·)
      else some []

theorem readDigits_lt {room : Nat} {t : List Byte} {ds : List Nat} (h : readDigits base room t = some ds) :
    ds.length < room ∧ ∀ d ∈ ds, d < base := by
  induction room generalizing t ds with
  | zero => cases h
  | succ room ih =>
      cases t with
      | nil => cases h
      | cons c t =>
          rw [readDigits] at h
          split at h
          · rename_i hc
            obtain ⟨ds, hds, rfl⟩ := Option.map_eq_some_iff.mp h
            obtain ⟨hlen, hall⟩ := ih hds
            exact ⟨Nat.succ_lt_succ hlen, List.forall_mem_cons.mpr ⟨hc.2, hall⟩⟩
          · cases h
            exact ⟨Nat.succ_pos room, by simp⟩

/-- No more than the room is looked at. -/
theorem readDigits_take (base room : Nat) (t : List Byte) :
    readDigits base room (t.take room) = readDigits base room t := by
  induction room generalizing t with
  | zero => rfl
  | succ room ih =>
      cases t with
      | nil => rfl
      | cons c t => rw [List.take_succ_cons, readDigits, readDigits, ih]

/-- In front of a NUL byte they are the run of digits, if that is shorter than the room. -/
theorem readDigits_run (base room : Nat) (t : List Byte) : readDigits base room (t ++ [0]) =
    if (digitRun base t).length < room then some ((digitRun base t).map digitOf) else none := by
  induction room generalizing t with
  | zero => rw [if_neg (Nat.not_lt_zero _), readDigits]
  | succ room ih =>
      cases t with
      | nil => rfl
      | cons c t =>
          rw [List.cons_append, readDigits]
          by_cases hc : isalnum c = true ∧ digitOf c < base
          · rw [if_pos hc, ih, digitRun_cons hc.1 hc.2]
            simp only [List.length_cons, Nat.add_lt_add_iff_right]
            split <;> rfl
          · rw [if_neg hc, digitRun_stop fun h => Nat.not_lt.mp fun hlt => hc ⟨h, hlt⟩]
            rfl

/-- What is read is in the array in the end. -/
theorem collectDigits_read {room pos : Nat} {t : List Byte} {ds ds' : List Nat}
    (hroom : ds.length + room = 10) (h : readDigits base room t = some ds') :
    collectDigits base t pos ds.length (digitArray ds) =
      some (pos + ds'.length, digitArray (ds ++ ds')) := by
  induction room generalizing pos t ds ds' with
  | zero => cases h
  | succ room ih =>
      cases t with
      | nil => cases h
      | cons c t =>
          rw [readDigits] at h
          rw [collectDigits]
          by_cases hc : isalnum c = true
          · rw [if_pos hc, storeDigit_next (by omega), Option.bind_eq_bind, Option.bind_some]
            by_cases hb : (base : Int) ≤ digitOf c
            · rw [if_neg (by omega), Option.some.injEq] at h
              subst h
              rw [if_pos hb, storeDigit_back (by omega), List.append_nil]
              rfl
            · rw [if_pos ⟨hc, by omega⟩] at h
              obtain ⟨ds', hds, rfl⟩ := Option.map_eq_some_iff.mp h
              have hnext := @ih (pos + 1) t (ds ++ [digitOf c]) ds'
                (by rw [List.length_append, List.length_singleton]; omega) hds
              rw [List.length_append, List.length_singleton] at hnext
              rw [if_neg hb, hnext, List.append_assoc, List.singleton_append, List.length_cons,
                Nat.add_assoc, Nat.add_comm 1]
          · rw [if_neg fun h => hc h.1, Option.some.injEq] at h
            subst h
            rw [if_neg hc, List.append_nil]
            rfl

/-- Where it cannot be read, no -1 is left in the array, or the digits go outside it. -/
theorem collectDigits_unread {room pos : Nat} {t : List Byte} {ds : List Nat} {r : Nat × List Int}
    (hroom : ds.length + room = 10) (h : readDigits base room t = none)
    (hr : collectDigits base t pos ds.length (digitArray ds) = some r) : countDigits r.2 = none := by
  induction room generalizing pos t ds with
  | zero =>
      cases t with
      | nil => cases hr
      | cons c t =>
          rw [collectDigits, storeDigit_full hroom] at hr
          by_cases hc : isalnum c = true
          · rw [if_pos hc] at hr
            cases hr
          · rw [if_neg hc] at hr
            cases hr
            exact countDigits_full hroom
  | succ room ih =>
      cases t with
      | nil => cases hr
      | cons c t =>
          rw [readDigits] at h
          split at h
          · rename_i hc
            rw [Option.map_eq_none_iff] at h
            rw [collectDigits, if_pos hc.1, storeDigit_next (by omega), Option.bind_eq_bind,
              Option.bind_some, if_neg (by omega)] at hr
            have hnext := @ih (pos + 1) t (ds ++ [digitOf c])
            rw [List.length_append, List.length_singleton] at hnext
            exact hnext (by omega) h hr
          · cases h

end Collect

/-! ### The value -/

theorem stdlibPow_eq (base exp : Nat) :
    stdlibPow (BitVec.ofNat 64 base) exp = BitVec.ofNat 64 (base ^ exp) := by
  induction exp with
  | zero => rfl
  | succ exp ih => rw [stdlibPow, ih, Nat.pow_succ, BitVec.ofNat_mul]

theorem digitArray_getElem {ds : List Nat} {i : Nat} (h : i < ds.length) :
    (digitArray ds)[i]? = some (Int.ofNat ds[i]) := by
  rw [digitArray, List.getElem?_append_left (by rwa [List.length_map]), List.getElem?_map,
    List.getElem?_eq_getElem h]
  rfl

/-- The first `j` digits, added up with their weights. -/
theorem addDigits_partial (base : Nat) (ds : List Nat) : ∀ j ≤ ds.length,
    (List.range j).foldlM (fun retval dpos => do
      let d ← (digitArray ds)[dpos]?
      some (retval + stdlibPow (BitVec.ofNat 64 base) (ds.length - (dpos + 1)) * BitVec.ofInt 64 d)) 0 =
    some (BitVec.ofNat 64 (base ^ (ds.length - j) * Nat.ofDigits base (ds.take j).reverse)) := by
  intro j
  induction j with
  | zero => intro _; simp
  | succ j ih =>
      intro hj
      have hlt : j < ds.length := hj
      have hpow : base ^ (ds.length - j) = base ^ (ds.length - (j + 1)) * base := by
        rw [← Nat.pow_succ]
        congr 1
        omega
      have hofInt : BitVec.ofInt 64 (Int.ofNat ds[j]) = BitVec.ofNat 64 ds[j] := BitVec.ofInt_natCast 64 _
      rw [List.range_succ, List.foldlM_append, ih (by omega)]
      simp only [List.foldlM_cons, List.foldlM_nil, digitArray_getElem hlt, Option.bind_eq_bind,
        Option.bind_some, Option.pure_def]
      rw [stdlibPow_eq, hofInt, ← BitVec.ofNat_mul, ← BitVec.ofNat_add, List.take_succ_eq_append_getElem hlt,
        List.reverse_append, List.reverse_singleton, List.singleton_append, Nat.ofDigits_cons, hpow,
        Nat.mul_assoc, ← Nat.mul_add, Nat.add_comm (base * _)]

theorem addDigits_eq (base : Nat) (ds : List Nat) :
    addDigits (BitVec.ofNat 64 base) ds.length (digitArray ds) =
      some (BitVec.ofNat 64 (Nat.ofDigits base ds.reverse)) := by
  have hall := addDigits_partial base ds ds.length (Nat.le_refl _)
  rwa [Nat.sub_self, Nat.pow_zero, Nat.one_mul, List.take_length] at hall

/-- Nine digits are never too many for a `long long`. -/
theorem ofDigits_few {base : Nat} {ds : List Nat} (hb : 2 ≤ base) (hb' : base ≤ 36)
    (hds : ∀ d ∈ ds, d < base) (hlen : ds.length < 10) :
    Nat.ofDigits base ds.reverse < 2 ^ 63 := by
  calc Nat.ofDigits base ds.reverse
      < base ^ ds.reverse.length :=
        Nat.ofDigits_lt_base_pow_length (by omega) fun d hd => hds d (List.mem_reverse.mp hd)
    _ ≤ base ^ 9 := Nat.pow_le_pow_right (by omega) (by rw [List.length_reverse]; omega)
    _ ≤ 36 ^ 9 := Nat.pow_le_pow_left hb' 9
    _ < 2 ^ 63 := by decide

theorem toInt_value {v : Nat} (hv : v < 2 ^ 63) : (BitVec.ofNat 64 v).toInt = v := by
  rw [BitVec.toInt_eq_toNat_of_lt (by rw [BitVec.toNat_ofNat]; omega), BitVec.toNat_ofNat]
  omega

theorem toInt_neg_value {v : Nat} (hv : v < 2 ^ 63) :
    (BitVec.ofNat 64 v * -1).toInt = -(v : Int) := by
  have hneg : BitVec.ofNat 64 v * -1 = -BitVec.ofNat 64 v := by
    rw [BitVec.mul_neg]
    exact congrArg _ (BitVec.mul_one _)
  rw [hneg, BitVec.toInt_neg, toInt_value hv]
  exact Int.bmod_eq_of_le (by omega) (by omega)

/-- The digits are collected, counted and added up. -/
theorem convert_digits {base : Nat} (hb : 2 ≤ base) (hb' : base ≤ 36) (negative : Bool) (t : List Byte)
    (start : Nat) : (do
      let (pos, digit) ← collectDigits base t start 0 (digitArray [])
      let digits ← countDigits digit
      let retval ← addDigits ((BitVec.ofInt 32 base).setWidth 64) digits digit
      some ((if negative then retval * -1 else retval).toInt, pos)) =
    (readDigits base 10 t).map fun ds =>
      (Numeral.value { negative, base, start, digits := ds }, start + ds.length) := by
  cases hread : readDigits base 10 t with
  | none =>
      cases hcollect : collectDigits base t start 0 (digitArray []) with
      | none => rfl
      | some r =>
          have hcount := @collectDigits_unread base 10 start t [] r rfl hread hcollect
          simp only [hcount, Option.bind_eq_bind, Option.bind_some, Option.bind_none, Option.map_none]
  | some ds =>
      have hcollect := @collectDigits_read base 10 start t [] ds rfl hread
      obtain ⟨hlen, hdigits⟩ := readDigits_lt hread
      have hbase : (BitVec.ofInt 32 (base : Int)).setWidth 64 = BitVec.ofNat 64 base := by
        rw [BitVec.ofInt_natCast, BitVec.setWidth_ofNat_of_le_of_lt]
        · omega
        · omega
      have hvalue := ofDigits_few hb hb' hdigits hlen
      rw [List.length_nil, List.nil_append] at hcollect
      simp only [hcollect, countDigits_array hlen, hbase, addDigits_eq, Option.bind_eq_bind,
        Option.bind_some, Option.map_some, Numeral.value]
      cases negative with
      | false => rw [if_neg (by simp), if_neg (by simp), toInt_value hvalue]
      | true => rw [if_pos rfl, if_pos rfl, toInt_neg_value hvalue]

/-! ### The prefix -/

/-- With base 0, a string that goes on without a digit has no base. -/
def Undetected (base : Nat) (s : List Byte) : Prop :=
  base = 0 ∧ ¬ (s.drop (signLength s)).head?.any isdigit

instance (base : Nat) (s : List Byte) : Decidable (Undetected base s) :=
  inferInstanceAs (Decidable (_ ∧ ¬ _))

theorem signLength_le (s : List Byte) : signLength s ≤ s.length := by
  rcases s with _ | ⟨c, s⟩
  · rfl
  · rw [signLength, List.length_cons]
    split <;> omega

/-- A cell at the place where the sign has been read. -/
theorem cell_behind_sign (s : List Byte) (i : Nat) :
    (s ++ [0])[signLength s + i]? = (s.drop (signLength s) ++ [0])[i]? := by
  rw [← List.getElem?_drop, List.drop_append_of_le_length (signLength_le s)]

theorem findBase_undetected {base : Nat} {s : List Byte} (h : Undetected base s) :
    findBase (s ++ [0]) base (signLength s) = some none := by
  obtain ⟨rfl, h⟩ := h
  rw [findBase, if_neg (by simp), ← Nat.add_zero (signLength s), cell_behind_sign s 0]
  rcases ht : s.drop (signLength s) with _ | ⟨c, t⟩
  · rfl
  · rw [ht, List.head?_cons, Option.any_some] at h
    have h48 : c ≠ 48 := by
      rintro rfl
      exact h rfl
    rw [List.cons_append, List.getElem?_cons_zero, Option.bind_eq_bind, Option.bind_some, if_neg h48,
      if_neg h]

theorem findBase_detected {base : Nat} {s : List Byte} (h : ¬ Undetected base s) :
    findBase (s ++ [0]) base (signLength s) = some
      (some (signLength s + (detectBase base (s.drop (signLength s))).2,
        ((detectBase base (s.drop (signLength s))).1 : Int))) := by
  by_cases hb : base = 0
  · subst hb
    have hdigit : (s.drop (signLength s)).head?.any isdigit = true := by
      by_contra hno
      exact h ⟨rfl, hno⟩
    rw [findBase, if_neg (by simp), cell_behind_sign s 1, ← Nat.add_zero (signLength s),
      cell_behind_sign s 0, Nat.add_zero, detectBase, if_neg (by simp)]
    generalize s.drop (signLength s) = t at hdigit ⊢
    rcases t with _ | ⟨c, t⟩
    · cases hdigit
    rw [List.head?_cons, Option.any_some] at hdigit
    rw [List.cons_append, List.getElem?_cons_zero, Option.bind_eq_bind, Option.bind_some,
      List.head?_cons]
    simp only [ne_eq, Option.some.injEq]
    by_cases h48 : c = 48
    · rw [if_pos h48, if_neg (not_not.mpr h48)]
      rcases t with _ | ⟨x, t⟩
      · rfl
      · simp only [List.cons_append, List.getElem?_cons_succ, List.getElem?_cons_zero,
          Option.bind_some, Option.some.injEq]
        split <;> rfl
    · rw [if_neg h48, if_pos h48, if_pos hdigit]
      rfl
  · have hne : (base : Int) ≠ 0 := by simpa using hb
    rw [findBase, if_pos hne, detectBase, if_pos hb]
    rfl

/-- Without a base, there are no digits. -/
theorem digitRun_undetected {base : Nat} {s : List Byte} (h : Undetected base s) :
    numeralOf base s = { negative := s.head? = some 45, base := 10, start := signLength s, digits := [] } := by
  obtain ⟨rfl, h⟩ := h
  have hhead : (s.drop (signLength s)).head? ≠ some 48 := by
    intro heq
    rw [heq] at h
    exact h rfl
  have hrun : digitRun 10 (s.drop (signLength s)) = [] := by
    rcases ht : s.drop (signLength s) with _ | ⟨c, t⟩
    · rfl
    · rw [ht, List.head?_cons, Option.any_some] at h
      refine digitRun_stop fun hc => ?_
      rw [Bool.not_eq_true] at h
      rw [isalnum, h, Bool.or_false, Bool.or_eq_true] at hc
      simp only [islower, isupper, Bool.and_eq_true, decide_eq_true_eq] at hc
      rw [digitOf, h, if_neg (by simp), islower]
      simp only [Bool.and_eq_true, decide_eq_true_eq]
      split <;> omega
  rw [numeralOf, detectBase, if_neg (by simp), if_pos hhead]
  dsimp only
  rw [Nat.add_zero, hrun]
  rfl

theorem detectBase_range {base : Nat} (hb : base = 0 ∨ 2 ≤ base ∧ base ≤ 36) (t : List Byte) :
    2 ≤ (detectBase base t).1 ∧ (detectBase base t).1 ≤ 36 := by
  rw [detectBase]
  split
  · exact hb.resolve_left ‹_›
  · split
    · decide
    · split <;> decide

/-! ### `strtoll` -/

section Convert

variable {base : Nat} {s : List Byte}

theorem sign_cell (s : List Byte) :
    ∃ c, (s ++ [0])[0]? = some c ∧ ((c = 43 ∨ c = 45) ↔ signLength s = 1) ∧
      (c = 45 ↔ s.head? = some 45) ∧ (if c = 43 ∨ c = 45 then 1 else 0) = signLength s := by
  rcases s with _ | ⟨c, s⟩
  · exact ⟨0, rfl, by decide, by decide, by decide⟩
  · refine ⟨c, rfl, ?_, by simp, ?_⟩
    · simp only [signLength, List.head?_cons, Option.some.injEq]
      split <;> simp_all
    · simp only [signLength, List.head?_cons, Option.some.injEq]

/-- What is left to do once the base is known. -/
theorem strtoll_detected (hdet : ¬ Undetected base s) :
    strtoll (s ++ [0]) base = (do
      let (pos, digit) ← collectDigits ((numeralOf base s).base : Int)
        ((s ++ [0]).drop (numeralOf base s).start) (numeralOf base s).start 0 (digitArray [])
      let digits ← countDigits digit
      let retval ← addDigits ((BitVec.ofInt 32 (numeralOf base s).base).setWidth 64) digits digit
      some ((if (numeralOf base s).negative then retval * -1 else retval).toInt, pos)) := by
  obtain ⟨c, hc, -, hneg, hsign⟩ := sign_cell s
  rw [strtoll, hc, Option.bind_eq_bind, Option.bind_some, hsign]
  dsimp only
  rw [findBase_detected hdet]
  simp only [numeralOf, decide_eq_true_eq, hneg]
  rfl

theorem detectBase_le (base : Nat) (t : List Byte) : (detectBase base t).2 ≤ t.length := by
  rw [detectBase]
  split
  · exact Nat.zero_le _
  · split
    · exact Nat.zero_le _
    · split
      · rename_i hx
        by_contra hlt
        rw [List.getElem?_eq_none (by omega)] at hx
        simp at hx
      · rename_i hhead _
        rcases t with _ | ⟨c, t⟩
        · simp at hhead
        · simp

/-- The string from the first digit on. -/
theorem drop_start (base : Nat) (s : List Byte) :
    (s ++ [0]).drop (numeralOf base s).start = s.drop (numeralOf base s).start ++ [0] := by
  refine List.drop_append_of_le_length ?_
  have hprefix := detectBase_le base (s.drop (signLength s))
  rw [List.length_drop] at hprefix
  have hsign := signLength_le s
  simp only [numeralOf]
  omega

theorem digits_eq (base : Nat) (s : List Byte) : (numeralOf base s).digits =
    (digitRun (numeralOf base s).base (s.drop (numeralOf base s).start)).map digitOf := rfl

theorem base_range (hb : base = 0 ∨ 2 ≤ base ∧ base ≤ 36) :
    2 ≤ (numeralOf base s).base ∧ (numeralOf base s).base ≤ 36 :=
  detectBase_range hb (s.drop (signLength s))

theorem strtoll_numeral (hb : base = 0 ∨ 2 ≤ base ∧ base ≤ 36) (hdet : ¬ Undetected base s) :
    strtoll (s ++ [0]) base = if (numeralOf base s).digits.length < 10 then
      some ((numeralOf base s).value, (numeralOf base s).start + (numeralOf base s).digits.length)
      else none := by
  obtain ⟨hlow, hhigh⟩ := @base_range base s hb
  have hdigits := digits_eq base s
  rw [strtoll_detected hdet, drop_start, convert_digits hlow hhigh, readDigits_run, ← List.length_map,
    ← hdigits]
  split <;> rfl

/-- The value and the end pointer, when the digits fit the array. -/
theorem strtoll_few (hb : base = 0 ∨ 2 ≤ base ∧ base ≤ 36) (hdet : ¬ Undetected base s)
    (hlen : (numeralOf base s).digits.length < 10) :
    strtoll (s ++ [0]) base = some ((numeralOf base s).value,
      (numeralOf base s).start + (numeralOf base s).digits.length) := by
  rw [strtoll_numeral hb hdet, if_pos hlen]

/-- Ten digits or more lead out of the array. -/
theorem strtoll_many (hb : base = 0 ∨ 2 ≤ base ∧ base ≤ 36) (hdet : ¬ Undetected base s)
    (hlen : 10 ≤ (numeralOf base s).digits.length) : strtoll (s ++ [0]) base = none := by
  rw [strtoll_numeral hb hdet, if_neg (Nat.not_lt.mpr hlen)]

theorem strtoll_undetected (hdet : Undetected base s) : strtoll (s ++ [0]) base = some (0, 0) := by
  obtain ⟨c, hc, -, -, hsign⟩ := sign_cell s
  rw [strtoll, hc, Option.bind_eq_bind, Option.bind_some, hsign]
  dsimp only
  rw [findBase_undetected hdet]
  rfl

/-- With a base given, any buffer. -/
theorem strtoll_read (hb : 2 ≤ base) (hb' : base ≤ 36) (mem : List Byte) : strtoll mem base =
    mem[0]?.bind fun c : Byte =>
      (readDigits base 10 (mem.drop (if c = 43 ∨ c = 45 then 1 else 0))).map fun ds =>
        let start := if c = 43 ∨ c = 45 then 1 else 0
        (Numeral.value { negative := c = 45, base, start, digits := ds }, start + ds.length) := by
  have hfind : ∀ pos, findBase mem base pos = some (some (pos, (base : Int))) := fun pos => by
    rw [findBase, if_pos (by omega)]
  rw [strtoll, Option.bind_eq_bind]
  cases mem[0]? with
  | none => rfl
  | some c =>
      simp only [Option.bind_some, ← convert_digits hb hb', hfind, decide_eq_true_eq]
      rfl

/-- A value that a `long` holds is that of `strtol` too. -/
theorem strtol_holds {mem : List Byte} {base v : Int} {n : Nat} (h : strtoll mem base = some (v, n))
    (hlow : longMin ≤ v) (hhigh : v ≤ longMax) : strtol mem base = some (v, n) := by
  rw [strtol, h, Option.map_some]
  dsimp only
  rw [if_neg (Int.not_lt.mpr hlow), if_neg (Int.not_lt.mpr hhigh)]

/-- **`strtoll` stays inside its array and the string, and reads the numeral, exactly when the numeral has
fewer than ten digits**; with base 0, a sign that no digit follows leaves the end pointer at the start. -/
theorem strtoll_converts_iff (hb : base = 0 ∨ 2 ≤ base ∧ base ≤ 36) :
    Converts (s ++ [0]) base (numeralOf base s) ↔
      (numeralOf base s).digits.length < 10 ∧ ¬ (Undetected base s ∧ signLength s = 1) := by
  by_cases hdet : Undetected base s
  · have hnum := digitRun_undetected hdet
    have hval : (numeralOf base s).value = 0 := by
      rw [hnum, Numeral.value, List.reverse_nil, Nat.ofDigits_nil]
      split <;> rfl
    rw [Converts, strtoll_undetected hdet, hval, and_iff_right hdet, hnum]
    simp only [Option.some.injEq, Prod.mk.injEq, List.length_nil, Nat.add_zero]
    constructor
    · rintro ⟨value, ⟨-, hstart⟩, -⟩
      omega
    · rintro ⟨-, hone⟩
      refine ⟨0, ⟨rfl, ?_⟩, fun _ _ => rfl⟩
      rw [signLength] at hone ⊢
      split at hone
      · exact absurd rfl hone
      · rename_i hno
        rw [if_neg hno]
  · rw [and_iff_left fun h => hdet h.1]
    constructor
    · rintro ⟨value, hvalue, -⟩
      by_contra hmany
      rw [strtoll_many hb hdet (Nat.not_lt.mp hmany)] at hvalue
      cases hvalue
    · intro hlen
      exact ⟨_, strtoll_few hb hdet hlen, fun _ _ => rfl⟩

theorem hex_converts : Converts [45, 48, 120, 49, 70, 0] 0 (numeralOf 0 [45, 48, 120, 49, 70]) :=
  (@strtoll_converts_iff 0 [45, 48, 120, 49, 70] (Or.inl rfl)).mpr (by decide)

/-- `1234567890` has ten digits. -/
theorem ten_digits : strtoll [49, 50, 51, 52, 53, 54, 55, 56, 57, 48, 0] 10 = none ∧
    ¬ Converts [49, 50, 51, 52, 53, 54, 55, 56, 57, 48, 0] 10
      (numeralOf 10 [49, 50, 51, 52, 53, 54, 55, 56, 57, 48]) := by
  have hnone : strtoll [49, 50, 51, 52, 53, 54, 55, 56, 57, 48, 0] 10 = none := by decide
  refine ⟨hnone, ?_⟩
  rintro ⟨value, hvalue, -⟩
  rw [Nat.cast_ofNat, hnone] at hvalue
  cases hvalue

end Convert

end Muxomucota.Text
