import Mathlib.Algebra.Group.Nat.Defs
import Mathlib.Data.List.Basic
import Mathlib.Tactic.Common
import Muxomucota.Lib.Pieces

/-!
# Console — bytes and strings

What `bios-console.c` uses of the C library: pointers to bytes, the kinds of characters (`ctype.h`) and
`STRTOK_FOREACH` (`string.h`, `string/strtok.c`).
-/

namespace Muxomucota.Console
open Lib

abbrev Byte := BitVec 8

/-- A pointer into memory that holds bytes before and behind the end of every buffer. -/
abbrev Ptr := Nat → Byte

def Ptr.add (s : Ptr) (k : Nat) : Ptr := fun i => s (k + i)

@[simp] theorem Ptr.add_apply (s : Ptr) (k i : Nat) : s.add k i = s (k + i) := rfl

@[simp] theorem Ptr.add_zero (s : Ptr) : s.add 0 = s := by
  funext i
  simp [Ptr.add]

@[simp] theorem Ptr.add_add (s : Ptr) (a b : Nat) : (s.add a).add b = s.add (a + b) := by
  funext i
  simp [Ptr.add, Nat.add_assoc]

/-- The first `n` bytes. -/
def Ptr.take (s : Ptr) (n : Nat) : List Byte := (List.range n).map s

@[simp] theorem Ptr.length_take (s : Ptr) (n : Nat) : (s.take n).length = n := by
  simp [Ptr.take]

theorem Ptr.take_succ (s : Ptr) (n : Nat) : s.take (n + 1) = s 0 :: (s.add 1).take n := by
  simp only [Ptr.take, List.range_succ_eq_map, List.map_cons, List.map_map]
  refine congrArg _ (List.map_congr_left fun i _ => ?_)
  rw [Ptr.add_apply, Nat.add_comm]
  rfl

theorem Ptr.take_take (s : Ptr) {n m : Nat} (h : m ≤ n) : (s.take n).take m = s.take m := by
  rw [Ptr.take, Ptr.take, ← List.map_take, List.take_range, Nat.min_eq_left h]

theorem Ptr.take_drop (s : Ptr) (n k : Nat) : (s.take n).drop k = (s.add k).take (n - k) := by
  induction k generalizing s n with
  | zero => rw [List.drop_zero, Ptr.add_zero, Nat.sub_zero]
  | succ k ih =>
      cases n with
      | zero => rw [Nat.zero_sub]; rfl
      | succ n => rw [Ptr.take_succ, List.drop_succ_cons, ih, Ptr.add_add, Nat.add_comm 1, Nat.succ_sub_succ]

/-- A string in memory. -/
def Ptr.ofList (l : List Byte) : Ptr := fun i => l.getD i 0

/-! ### Letters and digits -/

def isdigit (c : Byte) : Bool := 48 ≤ c.toNat && c.toNat ≤ 57
def islower (c : Byte) : Bool := 97 ≤ c.toNat && c.toNat ≤ 122
def isupper (c : Byte) : Bool := 65 ≤ c.toNat && c.toNat ≤ 90
def isalnum (c : Byte) : Bool := islower c || isupper c || isdigit c

/-- What a letter or digit counts. -/
def digitOf (c : Byte) : Nat :=
  if isdigit c then c.toNat - 48
  else if islower c then c.toNat + 10 - 97
  else c.toNat + 10 - 65

/-! ### `STRTOK_FOREACH` -/

/-- The tokens that the loop goes through; each takes a delimiter with it but the last one. -/
def tokens (delim : Byte) (s : List Byte) : List (List Byte) := takePieces delim (s.length + 1) (some s)

example : tokens 59 [59, 49, 59, 59, 51, 49] = [[49], [51, 49]] := by decide

end Muxomucota.Console
