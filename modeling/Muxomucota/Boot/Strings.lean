import Muxomucota.Lib.Pieces
import Muxomucota.Text.Strchr
import Muxomucota.Text.Strstr

/-!
# Boot — the kernel's `strtok`

`kernel/common/lib/string.c`: `strtok`, over the `strstr` of the kernel, and what the kernel splits its
command lines with, `strtok_count` and `strtok_array`.  A pointer is an offset into a buffer; the buffer
holds the string, its NUL byte and what lies behind it, and a function is `none` where it reads past the
buffer, or where a loop takes more rounds than the buffer has bytes.  `strtok` keeps the place where it goes
on in `next_token`.
-/

namespace Muxomucota.Boot
open Console (Byte)
open Text (kernelStrstr kernelStrstrFrom matchesHere strchr)

/-! ### The code -/

/-- `strtok`, which is `strtok_r` over the kernel's `strstr`: the token, the buffer and `next_token`. -/
def strtok := Text.strtokBy kernelStrstr

/-- The loop of `strtok_count`. -/
def countFrom (delim : List Byte) : List Byte → Option Nat
  | [] => none
  | c :: cs =>
      if c = 0 then some 0
      else do
        let found ← strchr (delim ++ [0]) 0 c
        let count ← countFrom delim cs
        some (if found ≠ none then count + 1 else count)

/-- `strtok_count` -/
def strtokCount (mem : List Byte) (str : Nat) (delim : List Byte) : Option Nat :=
  (countFrom delim (mem.drop str)).map (· + 1)

/-- The loop of `strtok_array`: what it has written to the array, and the buffer. -/
def tokenLoop (delim : List Byte) : (n : Nat) → List Byte → Option Nat → Option Nat →
    Option (List Nat × List Byte)
  | 0, _, _, _ => none
  | n + 1, mem, string1, nextToken => do
      let (tok, mem, nextToken) ← strtok n mem string1 delim nextToken
      match tok with
      | none => some ([], mem)
      | some tok => (tokenLoop delim n mem none nextToken).map fun r => (tok :: r.1, r.2)

/-- `strtok_array` -/
def strtokArray (mem : List Byte) (str : Nat) (delim : List Byte) (nextToken : Option Nat) :
    Option (List Nat × List Byte) :=
  tokenLoop delim (mem.length + 1) mem (some str) nextToken

/-- A NUL-terminated token is at `p`. -/
def IsToken (d : Byte) (mem : List Byte) (p : Nat) : Prop :=
  ∃ w u, w ≠ [] ∧ 0 ∉ w ∧ d ∉ w ∧ mem.drop p = w ++ 0 :: u

/-! ### One delimiter -/

variable {d : Byte} {w post : List Byte}

/-- With one delimiter, `strstr` looks for a byte. -/
theorem kernelStrstr_single (s1 : Nat) (c : Byte) (cs : List Byte) :
    kernelStrstrFrom [d] s1 (c :: cs) =
      if c = 0 then some none else if c = d then some (some s1) else kernelStrstrFrom [d] (s1 + 1) cs := by
  rw [kernelStrstrFrom]
  by_cases hc : c = d <;> simp [matchesHere, hc]

theorem kernelStrstr_miss : ∀ {w : List Byte} {s1 : Nat}, 0 ∉ w → d ∉ w →
    kernelStrstrFrom [d] s1 (w ++ 0 :: post) = some none
  | [], _, _, _ => by rw [List.nil_append, kernelStrstr_single, if_pos rfl]
  | c :: w, _, h0, hd => by
      rw [List.mem_cons, not_or] at h0 hd
      rw [List.cons_append, kernelStrstr_single, if_neg (Ne.symm h0.1), if_neg (Ne.symm hd.1)]
      exact kernelStrstr_miss h0.2 hd.2

theorem kernelStrstr_hit (hd₀ : d ≠ 0) : ∀ {w : List Byte} {s1 : Nat}, 0 ∉ w → d ∉ w →
    kernelStrstrFrom [d] s1 (w ++ d :: post) = some (some (s1 + w.length))
  | [], _, _, _ => by rw [List.nil_append, kernelStrstr_single, if_neg hd₀, if_pos rfl]; rfl
  | c :: w, s1, h0, hd => by
      rw [List.mem_cons, not_or] at h0 hd
      rw [List.cons_append, kernelStrstr_single, if_neg (Ne.symm h0.1), if_neg (Ne.symm hd.1),
        kernelStrstr_hit hd₀ h0.2 hd.2, List.length_cons, Nat.add_assoc, Nat.add_comm 1]

end Muxomucota.Boot
