import Muxomucota.Console.Strings

/-!
# Text — `strlen` and `strchr`

`string/strlen.c` and `string/strchr.c` of the user library; the kernel's `strchr`,
`kernel/common/lib/string.c`, is the same text.  A pointer is an offset into a buffer, and a function that
reads outside the buffer gives `none`.
-/

namespace Muxomucota.Text

open Console

/-- `strlen`. -/
def strlen (mem : List Byte) (s : Nat) : Option Nat :=
  let len := ((mem.drop s).takeWhile (· ≠ 0)).length
  if s + len < mem.length then some len else none

/-- The loop of `strchr`, over the cells from `s` on. -/
def strchrFrom (c : Byte) : (s : Nat) → List Byte → Option (Option Nat)
  | _, [] => none
  | s, b :: bs => if b = c then some (some s) else if b = 0 then some none else strchrFrom c (s + 1) bs

/-- `strchr`, for a character that is not NUL. -/
def strchr (mem : List Byte) (s : Nat) (c : Byte) : Option (Option Nat) := strchrFrom c s (mem.drop s)

theorem strchr_at (c : Byte) (A B : List Byte) : strchr (A ++ B) A.length c = strchrFrom c A.length B := by
  rw [strchr, List.drop_left]

theorem strchrFrom_append {c : Byte} (B : List Byte) : ∀ {w : List Byte}, c ∉ w → 0 ∉ w → ∀ (s : Nat),
    strchrFrom c s (w ++ B) = strchrFrom c (s + w.length) B := by
  intro w
  induction w with
  | nil => intro _ _ s; rfl
  | cons b w ih =>
      intro hc h0 s
      have hbc : b ≠ c := fun h => hc (by simp [h])
      have hb0 : b ≠ 0 := fun h => h0 (by simp [h])
      rw [List.cons_append, strchrFrom, if_neg hbc, if_neg hb0,
        ih (fun h => hc (List.mem_cons_of_mem _ h)) (fun h => h0 (List.mem_cons_of_mem _ h))]
      congr 1
      rw [List.length_cons]
      omega

end Muxomucota.Text
