import Mathlib.Data.BitVec
import Mathlib.Tactic

/-!
# Mmu — physical memory and page-table words

Physical memory is a function from frame numbers and byte offsets to bytes.  Page directories and
page tables lie in it like everything else; the kernel reads and writes them in words of four
bytes, least significant first.

The second half is about one such word: the flags of `arch-vmem.h` and the frame a word names
(`w & ~0xFFF`).  The lemmas say which flags and which frame the words have that the kernel builds.
-/

namespace Muxomucota.Mmu

/-- The bytes of physical memory: frame, then offset in the frame. -/
abbrev Ram := Nat → Nat → BitVec 8

namespace Ram

/-- The word at offset `off` of a frame with the bytes `b`. -/
def wordAt (b : Nat → BitVec 8) (off : Nat) : BitVec 32 :=
  b (off + 3) ++ b (off + 2) ++ b (off + 1) ++ b off

/-- The word at offset `off` of frame `f`. -/
def word (r : Ram) (f off : Nat) : BitVec 32 := wordAt (r f) off

/-- Storing a byte. -/
def setByte (r : Ram) (f off : Nat) (b : BitVec 8) : Ram :=
  Function.update r f (Function.update (r f) off b)

/-- Storing a word. -/
def setWord (r : Ram) (f off : Nat) (w : BitVec 32) : Ram :=
  (((r.setByte f off (w.extractLsb' 0 8)).setByte f (off + 1) (w.extractLsb' 8 8)).setByte f
    (off + 2) (w.extractLsb' 16 8)).setByte f (off + 3) (w.extractLsb' 24 8)

/-- `memcpy` of a whole frame. -/
def copyFrame (r : Ram) (dst src : Nat) : Ram := Function.update r dst (r src)

/-- `memset` of a whole frame. -/
def fillFrame (r : Ram) (f : Nat) (b : BitVec 8) : Ram := Function.update r f fun _ => b

/-- `memsetptr(pt, w, 1024)`: every word of the frame becomes `w`. -/
def fillWords (r : Ram) (f : Nat) (w : BitVec 32) : Ram :=
  Function.update r f fun off => w.extractLsb' (8 * (off % 4)) 8

/-- Frames with given words. -/
def ofWords (w : Nat → Nat → BitVec 32) : Ram := fun f off => (w f (off / 4)).extractLsb' (8 * (off % 4)) 8

theorem setByte_apply (r : Ram) (f off g o : Nat) (b : BitVec 8) :
    r.setByte f off b g o = if g = f ∧ o = off then b else r g o := by
  unfold setByte
  by_cases hg : g = f
  · subst hg
    by_cases ho : o = off <;> simp [ho]
  · simp [hg]

theorem setWord_apply (r : Ram) (f off g o : Nat) (w : BitVec 32) :
    r.setWord f off w g o =
      if g = f ∧ o = off + 3 then w.extractLsb' 24 8
      else if g = f ∧ o = off + 2 then w.extractLsb' 16 8
      else if g = f ∧ o = off + 1 then w.extractLsb' 8 8
      else if g = f ∧ o = off then w.extractLsb' 0 8
      else r g o := by
  simp only [setWord, setByte_apply]

/-- Four bytes make a word again. -/
theorem bytes_eq (w : BitVec 32) :
    (w.extractLsb' 24 8 ++ w.extractLsb' 16 8 ++ w.extractLsb' 8 8 ++ w.extractLsb' 0 8 : BitVec 32)
      = w := by
  refine BitVec.eq_of_getLsbD_eq fun i hi => ?_
  simp only [BitVec.getLsbD_append, BitVec.getLsbD_extractLsb']
  have hbit : ∀ k j, j < 8 → k + j = i → (decide (j < 8) && w.getLsbD (k + j)) = w.getLsbD i := by
    intro k j hj hk
    rw [decide_eq_true hj, Bool.true_and, hk]
  split_ifs
  · exact hbit 0 i (by omega) (by omega)
  · exact hbit 8 (i - 8) (by omega) (by omega)
  · exact hbit 16 (i - 8 - 8) (by omega) (by omega)
  · exact hbit 24 (i - 8 - 8 - 8) (by omega) (by omega)

theorem word_setWord_self (r : Ram) (f off : Nat) (w : BitVec 32) :
    (r.setWord f off w).word f off = w := by
  conv_rhs => rw [← bytes_eq w]
  simp [word, wordAt, setWord_apply]

/-- Words that do not overlap do not affect each other. -/
theorem word_setWord_of_ne (r : Ram) {f off g o : Nat} (w : BitVec 32)
    (h : g ≠ f ∨ o + 4 ≤ off ∨ off + 4 ≤ o) : (r.setWord f off w).word g o = r.word g o := by
  have hb : ∀ k, k < 4 → r.setWord f off w g (o + k) = r g (o + k) := by
    intro k hk
    rw [setWord_apply, if_neg, if_neg, if_neg, if_neg] <;> omega
  simp only [word, wordAt, hb 3 (by omega), hb 2 (by omega), hb 1 (by omega)]
  rw [show r.setWord f off w g o = r g o from hb 0 (by omega)]

/-- Aligned words: the entries of a table. -/
theorem entry_setWord (r : Ram) (f i g j : Nat) (w : BitVec 32) :
    (r.setWord f (4 * i) w).word g (4 * j) = if g = f ∧ j = i then w else r.word g (4 * j) := by
  split_ifs with h
  · obtain ⟨rfl, rfl⟩ := h; exact word_setWord_self ..
  · exact word_setWord_of_ne _ _ (by omega)

theorem setWord_frame (r : Ram) {f g : Nat} (off : Nat) (w : BitVec 32) (h : g ≠ f) :
    r.setWord f off w g = r g := by
  funext o; simp [setWord_apply, h]

theorem setByte_frame (r : Ram) {f g : Nat} (off : Nat) (b : BitVec 8) (h : g ≠ f) :
    r.setByte f off b g = r g := by
  funext o; simp [setByte_apply, h]

theorem word_congr {r r' : Ram} {f : Nat} (h : r' f = r f) (off : Nat) :
    r'.word f off = r.word f off := by
  simp only [word, h]

theorem fillWords_frame (r : Ram) {f g : Nat} (w : BitVec 32) (h : g ≠ f) :
    r.fillWords f w g = r g := by
  simp [fillWords, h]

theorem entry_fillWords (r : Ram) (f : Nat) (w : BitVec 32) (i : Nat) :
    (r.fillWords f w).word f (4 * i) = w := by
  conv_rhs => rw [← bytes_eq w]
  simp [word, wordAt, fillWords, Nat.add_mod]

theorem entry_ofWords (w : Nat → Nat → BitVec 32) (f i : Nat) :
    (ofWords w).word f (4 * i) = w f i := by
  conv_rhs => rw [← bytes_eq (w f i)]
  simp [word, wordAt, ofWords, Nat.add_mod, show (4 * i + 3) / 4 = i by omega,
    show (4 * i + 2) / 4 = i by omega, show (4 * i + 1) / 4 = i by omega]

end Ram

/-! ### Page-table words -/

/-- `MAP_PR`, `MAP_RW`, `MAP_US`, `MAP_NC`: present, writable, user, not cached.  The other names of
`arch-vmem.h` that the code uses (`MAP_NP`, `MAP_RO`, `MAP_OS`, `MAP_CC`, `MAP_4K`, `MAP_LC`) are
all `0`. -/
def mapPr : BitVec 32 := 1 <<< 0
def mapRw : BitVec 32 := 1 <<< 1
def mapUs : BitVec 32 := 1 <<< 2
def mapNc : BitVec 32 := 1 <<< 4
def map4M : BitVec 32 := 1 <<< 7
def mapNp : BitVec 32 := 0

/-- `w & MAP_PR`. -/
def isPr (w : BitVec 32) : Bool := w.getLsbD 0

/-- `w & MAP_RW`. -/
def isRw (w : BitVec 32) : Bool := w.getLsbD 1

/-- `w & MAP_US`. -/
def isUs (w : BitVec 32) : Bool := w.getLsbD 2

/-- The frame of `w & ~0xFFF`. -/
def frameOf (w : BitVec 32) : Nat := (w >>> 12).toNat

/-- The address of frame `f` with flags, `phys | flags`. -/
def entry (f : Nat) (flags : BitVec 32) : BitVec 32 := BitVec.ofNat 32 f <<< 12 ||| flags

/-- Nothing but flags. -/
abbrev IsFlags (w : BitVec 32) : Prop := w >>> 12 = 0

section flags

theorem frameOf_lt (w : BitVec 32) : frameOf w < 2 ^ 20 := by
  unfold frameOf
  rw [BitVec.toNat_ushiftRight]
  have := w.isLt
  omega

theorem IsFlags.or {a b : BitVec 32} (ha : IsFlags a) (hb : IsFlags b) : IsFlags (a ||| b) := by
  show (a ||| b) >>> 12 = 0
  rw [BitVec.ushiftRight_or_distrib, ha, hb]; rfl

theorem IsFlags.and_right {a b : BitVec 32} (hb : IsFlags b) : IsFlags (a &&& b) := by
  show (a &&& b) >>> 12 = 0
  rw [BitVec.ushiftRight_and_distrib, hb]; simp

theorem IsFlags.ite {c : Prop} [Decidable c] {a b : BitVec 32} (ha : IsFlags a) (hb : IsFlags b) :
    IsFlags (if c then a else b) := by
  split <;> assumption

theorem isFlags_mapPr : IsFlags mapPr := by decide
theorem isFlags_mapRw : IsFlags mapRw := by decide
theorem isFlags_mapUs : IsFlags mapUs := by decide
theorem isFlags_mapNc : IsFlags mapNc := by decide
theorem isFlags_zero : IsFlags 0 := by decide

theorem frameOf_entry {f : Nat} {flags : BitVec 32} (hf : f < 2 ^ 20) (h : IsFlags flags) :
    frameOf (entry f flags) = f := by
  unfold frameOf entry
  rw [BitVec.ushiftRight_or_distrib, h]
  simp [BitVec.toNat_ushiftRight, BitVec.toNat_shiftLeft, Nat.shiftLeft_eq, Nat.shiftRight_eq_div_pow]
  omega

@[simp] theorem isPr_or (a b : BitVec 32) : isPr (a ||| b) = (isPr a || isPr b) := by simp [isPr]
@[simp] theorem isRw_or (a b : BitVec 32) : isRw (a ||| b) = (isRw a || isRw b) := by simp [isRw]
@[simp] theorem isUs_or (a b : BitVec 32) : isUs (a ||| b) = (isUs a || isUs b) := by simp [isUs]
@[simp] theorem isPr_and (a b : BitVec 32) : isPr (a &&& b) = (isPr a && isPr b) := by simp [isPr]
@[simp] theorem isRw_and (a b : BitVec 32) : isRw (a &&& b) = (isRw a && isRw b) := by simp [isRw]
@[simp] theorem isUs_and (a b : BitVec 32) : isUs (a &&& b) = (isUs a && isUs b) := by simp [isUs]
@[simp] theorem isPr_not (a : BitVec 32) : isPr (~~~a) = !isPr a := by simp [isPr]
@[simp] theorem isRw_not (a : BitVec 32) : isRw (~~~a) = !isRw a := by simp [isRw]
@[simp] theorem isUs_not (a : BitVec 32) : isUs (~~~a) = !isUs a := by simp [isUs]
@[simp] theorem isPr_entry (f : Nat) (a : BitVec 32) : isPr (entry f a) = isPr a := by simp [isPr, entry]
@[simp] theorem isRw_entry (f : Nat) (a : BitVec 32) : isRw (entry f a) = isRw a := by simp [isRw, entry]
@[simp] theorem isUs_entry (f : Nat) (a : BitVec 32) : isUs (entry f a) = isUs a := by simp [isUs, entry]
@[simp] theorem isPr_ite (c : Prop) [Decidable c] (a b : BitVec 32) :
    isPr (if c then a else b) = if c then isPr a else isPr b := apply_ite ..
@[simp] theorem isRw_ite (c : Prop) [Decidable c] (a b : BitVec 32) :
    isRw (if c then a else b) = if c then isRw a else isRw b := apply_ite ..
@[simp] theorem isUs_ite (c : Prop) [Decidable c] (a b : BitVec 32) :
    isUs (if c then a else b) = if c then isUs a else isUs b := apply_ite ..
@[simp] theorem isPr_zero : isPr 0#32 = false := rfl
@[simp] theorem isRw_zero : isRw 0#32 = false := rfl
@[simp] theorem isUs_zero : isUs 0#32 = false := rfl
@[simp] theorem isPr_mapPr : isPr mapPr = true := rfl
@[simp] theorem isPr_mapRw : isPr mapRw = false := rfl
@[simp] theorem isPr_mapUs : isPr mapUs = false := rfl
@[simp] theorem isPr_mapNc : isPr mapNc = false := rfl
@[simp] theorem isRw_mapPr : isRw mapPr = false := rfl
@[simp] theorem isRw_mapRw : isRw mapRw = true := rfl
@[simp] theorem isRw_mapUs : isRw mapUs = false := rfl
@[simp] theorem isRw_mapNc : isRw mapNc = false := rfl
@[simp] theorem isUs_mapPr : isUs mapPr = false := rfl
@[simp] theorem isUs_mapRw : isUs mapRw = false := rfl
@[simp] theorem isUs_mapUs : isUs mapUs = true := rfl
@[simp] theorem isUs_mapNc : isUs mapNc = false := rfl

@[simp] theorem frameOf_or_mapRw (w : BitVec 32) : frameOf (w ||| mapRw) = frameOf w := by
  rw [frameOf, BitVec.ushiftRight_or_distrib, isFlags_mapRw]; simp [frameOf]

@[simp] theorem frameOf_and_not_mapRw (w : BitVec 32) : frameOf (w &&& ~~~mapRw) = frameOf w := by
  have : ∀ i, i < 20 → (~~~mapRw).getLsbD (12 + i) = true := by decide
  unfold frameOf
  congr 1
  refine BitVec.eq_of_getLsbD_eq fun i hi => ?_
  simp only [BitVec.getLsbD_ushiftRight, BitVec.getLsbD_and]
  by_cases h : i < 20
  · rw [this i h, Bool.and_true]
  · rw [BitVec.getLsbD_of_ge w _ (by omega), Bool.false_and]

end flags

end Muxomucota.Mmu
