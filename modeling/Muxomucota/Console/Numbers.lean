import Muxomucota.Text.Strtoll

/-!
# Console — numbers

`strtol` (`stdlib/strtol.c`) at a pointer.  There are bytes behind every buffer here, and so many that
`strtol` never comes to the end of them: behind a sign it looks at ten digits and one byte more at most.
-/

namespace Muxomucota.Console
open Text (Numeral)

/-- `strtol`, for a base other than 0. -/
def strtol (s : Ptr) (base : Int) : Option (Int × Nat) := Text.strtol (s.take 12) base

example : strtol (.ofList [45, 49, 50, 59]) 10 = some (-12, 3) := by decide

/-- The digits at a pointer. -/
def readDigits (base room : Nat) (s : Ptr) : Option (List Nat) := Text.readDigits base room (s.take room)

variable {base room : Nat} {s : Ptr}

theorem readDigits_succ : readDigits base (room + 1) s =
    if isalnum (s 0) = true ∧ digitOf (s 0) < base then
      (readDigits base room (s.add 1)).map (digitOf (s 0) :: ·)
    else some [] := by
  rw [readDigits, Ptr.take_succ, Text.readDigits]
  rfl

/-- No more bytes are needed than there are places for digits. -/
theorem readDigits_take {n k : Nat} (h : k + room ≤ n) :
    Text.readDigits base room ((s.take n).drop k) = readDigits base room (s.add k) := by
  rw [readDigits, ← Text.readDigits_take, Ptr.take_drop, Ptr.take_take _ (by omega)]

theorem strtoll_read (s : Ptr) : Text.strtoll (s.take 12) 10 =
    (readDigits 10 10 (s.add (if s 0 = 43 ∨ s 0 = 45 then 1 else 0))).map fun ds =>
      let start := if s 0 = 43 ∨ s 0 = 45 then 1 else 0
      (Numeral.value { negative := s 0 = 45, base := 10, start, digits := ds }, start + ds.length) := by
  have hread := @Text.strtoll_read 10 (by decide) (by decide) (s.take 12)
  have hstart : (if s 0 = 43 ∨ s 0 = 45 then 1 else 0) ≤ 1 := by split <;> decide
  rw [Nat.cast_ofNat] at hread
  rw [hread, Ptr.take_succ, List.getElem?_cons_zero, Option.bind_some, ← Ptr.take_succ,
    readDigits_take (by omega)]

end Muxomucota.Console
