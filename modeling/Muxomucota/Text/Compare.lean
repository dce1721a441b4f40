import Muxomucota.Lib.FirstDifference
import Muxomucota.Text.Vsnprintf

/-!
# Text — `strcmp`, `strncmp` and `memcmp`

The three functions of the user library and the two of the kernel, `kernel/common/lib/string.c`, which are
the same text.  All five subtract the byte of the first argument from that of the second, where
`strcasecmp` does it the other way round: what they return is in order for their arguments exchanged
(`compare_order_iff`), and 0 exactly where it should be.

A `char` is unsigned (`-funsigned-char`).
-/

namespace Muxomucota.Text

open Console Lib

/-! ### The code -/

/-- `(unsigned char)c - (unsigned char)d` -/
def byteDiff (c d : Byte) : CInt := c.setWidth 32 - d.setWidth 32

/-- `strcmp` of the user library, from two pointers on; `none` is a read outside of a buffer. -/
def strcmp : (s1 s2 : List Byte) → Option CInt
  | c :: s1, d :: s2 =>
      let ret := byteDiff d c
      if ret ≠ 0 then some ret
      else if c = 0 then some 0
      else strcmp s1 s2
  | _, _ => none

/-- `strncmp` of the user library. -/
def strncmp : (n : Nat) → (s1 s2 : List Byte) → Option CInt
  | 0, _, _ => some 0
  | n + 1, c :: s1, d :: s2 =>
      if c ≠ d then some (byteDiff d c)
      else if d = 0 then some 0
      else strncmp n s1 s2
  | _ + 1, _, _ => none

/-- The loop of `memcmp`. -/
def memcmpLoop : (n : Nat) → (ret : CInt) → (b1 b2 : List Byte) → Option CInt
  | 0, ret, _, _ => some ret
  | n + 1, _, c :: b1, d :: b2 =>
      let ret := byteDiff d c
      if ret ≠ 0 then some ret else memcmpLoop n ret b1 b2
  | _ + 1, _, _, _ => none

def memcmp (n : Nat) (s1 s2 : List Byte) : Option CInt := memcmpLoop n 0 s1 s2

/-- `strcmp` of the kernel. -/
def kernelStrcmp (s1 s2 : List Byte) : Option CInt := strcmp s1 s2

/-- `strncmp` of the kernel. -/
def kernelStrncmp (n : Nat) (s1 s2 : List Byte) : Option CInt := strncmp n s1 s2

/-! ### The purpose -/

/-- The function that is called, and its `n`. -/
inductive Comparison where
  | strcmp
  | strncmp (n : Nat)
  | memcmp (n : Nat)
  | kernelStrcmp
  | kernelStrncmp (n : Nat)

namespace Comparison

def call : Comparison → (s1 s2 : List Byte) → Option CInt
  | .strcmp => Text.strcmp
  | .strncmp n => Text.strncmp n
  | .memcmp n => Text.memcmp n
  | .kernelStrcmp => Text.kernelStrcmp
  | .kernelStrncmp n => Text.kernelStrncmp n

/-- The memory from a pointer on holds what the function may read: a string, at most `n` bytes of an array
or string, `n` bytes. -/
def Readable : Comparison → List Byte → Prop
  | .strcmp, mem | .kernelStrcmp, mem => 0 ∈ mem
  | .strncmp n, mem | .kernelStrncmp n, mem => 0 ∈ mem ∨ n ≤ mem.length
  | .memcmp n, mem => n ≤ mem.length

end Comparison

/-- A string with its NUL byte. -/
def upToNul (mem : List Byte) : List Byte := mem.takeWhile (· ≠ 0) ++ [0]

/-- The prefix that is compared. -/
def Comparison.compared : Comparison → List Byte → List Byte
  | .strcmp, mem | .kernelStrcmp, mem => upToNul mem
  | .strncmp n, mem | .kernelStrncmp n, mem => (upToNul mem).take n
  | .memcmp n, mem => mem.take n

/-- What a comparison is to return: 0 for equal prefixes, and otherwise a value with the sign of the
difference at the first position where they differ. -/
structure InOrder (xs ys : List Byte) (ret : CInt) : Prop where
  zero : ret = 0 ↔ xs = ys
  sign : ∀ c d, FirstDiffer xs ys c d → ret.toInt.sign = ((c.toNat : Int) - d.toNat).sign

/-! ### The difference of two bytes -/

theorem toNat_widened (b : Byte) : (b.setWidth 32).toNat = b.toNat := by
  rw [BitVec.toNat_setWidth]
  exact Nat.mod_eq_of_lt (Nat.lt_trans b.isLt (by decide))

theorem toInt_byteDiff (c d : Byte) : (byteDiff c d).toInt = (c.toNat : Int) - d.toNat := by
  have hwide : ∀ b : Byte, (b.setWidth 32).toInt = b.toNat := fun b => by
    have hlt := b.isLt
    rw [BitVec.toInt_eq_toNat_of_lt (by rw [toNat_widened]; omega), toNat_widened]
  have hc := c.isLt
  have hd := d.isLt
  rw [byteDiff, BitVec.toInt_sub, hwide, hwide]
  exact Int.bmod_eq_of_le_mul_two (by omega) (by omega)

theorem byteDiff_eq_zero {c d : Byte} : byteDiff c d = 0 ↔ c = d := by
  rw [← BitVec.toInt_inj, toInt_byteDiff, BitVec.toNat_inj.symm]
  show (c.toNat : Int) - d.toNat = 0 ↔ _
  omega

/-! ### What all five return -/

/-- 0 for equal prefixes, and otherwise the byte of the second less that of the first. -/
inductive Returns (xs ys : List Byte) : CInt → Prop
  | equal (h : xs = ys) : Returns xs ys 0
  | differ {c d : Byte} (h : FirstDiffer xs ys c d) : Returns xs ys (byteDiff d c)

section Returned

variable {xs ys s1 s2 : List Byte} {c : Byte} {ret : CInt} {n : Nat}

/-- The loops go on behind equal bytes. -/
theorem Returns.cons (c : Byte) (h : Returns xs ys ret) : Returns (c :: xs) (c :: ys) ret := by
  cases h with
  | equal h => exact .equal (congrArg (c :: ·) h)
  | differ h => exact .differ (h.cons c)

/-- It is in order for the arguments exchanged. -/
theorem Returns.exchanged (h : Returns xs ys ret) : InOrder ys xs ret := by
  cases h with
  | equal h => exact ⟨iff_of_true rfl h.symm, fun c d hcd => absurd h.symm hcd.ne⟩
  | differ h =>
      refine ⟨iff_of_false (fun h0 => h.1 (byteDiff_eq_zero.mp h0).symm) h.ne.symm, fun c d hcd => ?_⟩
      obtain ⟨rfl, rfl⟩ := h.symm.unique hcd
      rw [toInt_byteDiff]

/-- It is in order for the arguments as they are only where the prefixes are equal. -/
theorem Returns.inOrder_iff (h : Returns xs ys ret) : InOrder xs ys ret ↔ xs = ys := by
  refine ⟨fun hord => ?_, fun heq => ?_⟩
  · cases h with
    | equal h => exact h
    | @differ c d h =>
        have hsign := hord.sign c d h
        rw [toInt_byteDiff, ← Int.neg_sub, Int.sign_neg] at hsign
        have hzero : (c.toNat : Int) - d.toNat = 0 := Int.sign_eq_zero_iff_zero.mp (by omega)
        exact absurd (BitVec.eq_of_toNat_eq (by omega)) h.1
  · subst heq
    exact h.exchanged

/-! ### The prefixes -/

theorem upToNul_zero (mem : List Byte) : upToNul (0 :: mem) = [0] := by
  rw [upToNul, List.takeWhile_cons_of_neg (by decide), List.nil_append]

theorem upToNul_cons (mem : List Byte) (hc : c ≠ 0) : upToNul (c :: mem) = c :: upToNul mem := by
  rw [upToNul, List.takeWhile_cons_of_pos (by simpa using hc), List.cons_append, upToNul]

/-- A string begins with its first byte, the NUL byte too. -/
theorem upToNul_head (c : Byte) (mem : List Byte) : ∃ t, upToNul (c :: mem) = c :: t := by
  by_cases hc : c = 0
  · rw [hc, upToNul_zero]
    exact ⟨[], rfl⟩
  · exact ⟨_, upToNul_cons mem hc⟩

/-! ### The loops -/

theorem strcmp_returns : ∀ {s1 s2 : List Byte}, 0 ∈ s1 → 0 ∈ s2 →
    ∃ ret, strcmp s1 s2 = some ret ∧ Returns (upToNul s1) (upToNul s2) ret := by
  intro s1
  induction s1 with
  | nil => intro s2 h1; cases h1
  | cons c s1 ih =>
      intro s2 h1 h2
      cases s2 with
      | nil => cases h2
      | cons d s2 =>
          rw [strcmp]
          by_cases hcd : c = d
          · subst hcd
            rw [if_neg (not_not_intro (byteDiff_eq_zero.mpr rfl))]
            by_cases hc : c = 0
            · rw [if_pos hc, hc, upToNul_zero, upToNul_zero]
              exact ⟨0, rfl, .equal rfl⟩
            · obtain ⟨ret, hret, h⟩ := ih (List.mem_of_ne_of_mem (Ne.symm hc) h1)
                (List.mem_of_ne_of_mem (Ne.symm hc) h2)
              rw [if_neg hc, upToNul_cons s1 hc, upToNul_cons s2 hc]
              exact ⟨ret, hret, h.cons c⟩
          · obtain ⟨t, ht⟩ := upToNul_head c s1
            obtain ⟨u, hu⟩ := upToNul_head d s2
            rw [if_pos fun h0 => hcd (byteDiff_eq_zero.mp h0).symm, ht, hu]
            exact ⟨_, rfl, .differ (.head hcd t u)⟩

/-- An array that holds `n + 1` bytes, or a string, has a first byte. -/
theorem exists_head {mem : List Byte} (h : 0 ∈ mem ∨ n + 1 ≤ mem.length) : ∃ c t, mem = c :: t := by
  cases mem with
  | nil => rcases h with h | h <;> cases h
  | cons c t => exact ⟨c, t, rfl⟩

/-- Behind a byte that is not the NUL byte it holds the rest. -/
theorem readable_tail {mem : List Byte} (hc : c ≠ 0) (h : 0 ∈ c :: mem ∨ n + 1 ≤ (c :: mem).length) :
    0 ∈ mem ∨ n ≤ mem.length :=
  h.imp (List.mem_of_ne_of_mem (Ne.symm hc)) Nat.le_of_succ_le_succ

theorem strncmp_returns : ∀ {n : Nat} {s1 s2 : List Byte}, (0 ∈ s1 ∨ n ≤ s1.length) →
    (0 ∈ s2 ∨ n ≤ s2.length) →
    ∃ ret, strncmp n s1 s2 = some ret ∧ Returns ((upToNul s1).take n) ((upToNul s2).take n) ret := by
  intro n
  induction n with
  | zero => exact fun _ _ => ⟨0, rfl, .equal rfl⟩
  | succ n ih =>
      intro s1 s2 h1 h2
      obtain ⟨c, s1, rfl⟩ := exists_head h1
      obtain ⟨d, s2, rfl⟩ := exists_head h2
      rw [strncmp]
      by_cases hcd : c = d
      · subst hcd
        rw [if_neg (not_not_intro rfl)]
        by_cases hc : c = 0
        · rw [if_pos hc, hc, upToNul_zero, upToNul_zero]
          exact ⟨0, rfl, .equal rfl⟩
        · obtain ⟨ret, hret, h⟩ := ih (readable_tail hc h1) (readable_tail hc h2)
          rw [if_neg hc, upToNul_cons s1 hc, upToNul_cons s2 hc]
          exact ⟨ret, hret, h.cons c⟩
      · obtain ⟨t, ht⟩ := upToNul_head c s1
        obtain ⟨u, hu⟩ := upToNul_head d s2
        rw [if_pos hcd, ht, hu]
        exact ⟨_, rfl, .differ (.head hcd (t.take n) (u.take n))⟩

theorem memcmp_returns : ∀ {n : Nat} {s1 s2 : List Byte}, n ≤ s1.length → n ≤ s2.length →
    ∃ ret, memcmp n s1 s2 = some ret ∧ Returns (s1.take n) (s2.take n) ret := by
  intro n
  induction n with
  | zero => exact fun _ _ => ⟨0, rfl, .equal rfl⟩
  | succ n ih =>
      intro s1 s2 h1 h2
      obtain ⟨c, s1, rfl⟩ := exists_head (.inr h1)
      obtain ⟨d, s2, rfl⟩ := exists_head (.inr h2)
      rw [memcmp, memcmpLoop]
      by_cases hcd : c = d
      · subst hcd
        have h0 : byteDiff c c = 0 := byteDiff_eq_zero.mpr rfl
        obtain ⟨ret, hret, h⟩ := ih (Nat.le_of_succ_le_succ h1) (Nat.le_of_succ_le_succ h2)
        rw [if_neg (not_not_intro h0), h0]
        exact ⟨ret, hret, h.cons c⟩
      · rw [if_pos fun h0 => hcd (byteDiff_eq_zero.mp h0).symm]
        exact ⟨_, rfl, .differ (.head hcd (s1.take n) (s2.take n))⟩

theorem Comparison.call_returns (f : Comparison) (h1 : f.Readable s1) (h2 : f.Readable s2) :
    ∃ ret, f.call s1 s2 = some ret ∧ Returns (f.compared s1) (f.compared s2) ret := by
  cases f with
  | strcmp => exact strcmp_returns h1 h2
  | strncmp n => exact strncmp_returns h1 h2
  | memcmp n => exact memcmp_returns h1 h2
  | kernelStrcmp => exact strcmp_returns h1 h2
  | kernelStrncmp n => exact strncmp_returns h1 h2

end Returned

/-- **The comparisons** return 0 exactly for equal prefixes, and otherwise a value that is in order for the
arguments exchanged, and so never for the arguments as they are. -/
theorem compare_order_iff (f : Comparison) {s1 s2 : List Byte} (h1 : f.Readable s1)
    (h2 : f.Readable s2) : ∃ ret, f.call s1 s2 = some ret ∧
      InOrder (f.compared s2) (f.compared s1) ret ∧
      (InOrder (f.compared s1) (f.compared s2) ret ↔ f.compared s1 = f.compared s2) := by
  obtain ⟨ret, hret, h⟩ := f.call_returns h1 h2
  exact ⟨ret, hret, h.exchanged, h.inOrder_iff⟩

/-- `strncmp("ab", "ac", 1)`. -/
theorem compare_order_prefix : ∃ ret,
    (Comparison.strncmp 1).call [ch 'a', ch 'b', 0] [ch 'a', ch 'c', 0] = some ret ∧
      InOrder [ch 'a'] [ch 'a'] ret := by
  obtain ⟨ret, hret, -, hord⟩ := compare_order_iff (.strncmp 1)
    (show 0 ∈ [ch 'a', ch 'b', 0] ∨ 1 ≤ 3 by decide) (show 0 ∈ [ch 'a', ch 'c', 0] ∨ 1 ≤ 3 by decide)
  exact ⟨ret, hret, hord.mpr rfl⟩

/-- `strcmp("a", "b")` is 1. -/
theorem strcmp_reversed : ¬∀ (f : Comparison) (s1 s2 : List Byte), f.Readable s1 → f.Readable s2 →
    ∃ ret, f.call s1 s2 = some ret ∧ InOrder (f.compared s1) (f.compared s2) ret := by
  intro hall
  obtain ⟨ret, hret, hord⟩ := hall .strcmp [ch 'a', 0] [ch 'b', 0] (show 0 ∈ [ch 'a', 0] by decide)
    (show 0 ∈ [ch 'b', 0] by decide)
  have hone : (Comparison.strcmp).call [ch 'a', 0] [ch 'b', 0] = some 1 := by decide
  rw [hone] at hret
  cases hret
  have hsign := hord.sign (ch 'a') (ch 'b') (.head (by decide) [0] [0])
  revert hsign
  decide

end Muxomucota.Text
