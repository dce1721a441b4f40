import Muxomucota.Mmu.AddressSpace
import Muxomucota.Mmu.Contexts

/-!
# Mmu — pointers from user programs

What `is_valid_user_mem` lets through.  It is the guard between a pointer of a user program and the
kernel's own accesses, so a range that it accepts should lie below the kernel and every page of it
should be there with the access asked for (`UserRange`).  The page count can wrap, and the exception
for copy-on-write pages asks only that the page is not writable: it also lets through pages that are
not there at all (`Overlooked`).
-/

namespace Muxomucota.Mmu
open Memory

variable {m : Mem} {pd start length a : Nat} {flags e : BitVec 32}

/-- A write is asked for. -/
def WriteAsked (flags : BitVec 32) : Prop := flags &&& (vmmUw ||| vmmPw) ≠ 0

/-- The page of `a` is present with the flags; a page that is only readable for the user may stand
in for the write flags. -/
def PageAllows (m : Mem) (pd a : Nat) (flags : BitVec 32) : Prop :=
  ∃ e, m.page pd (a / 4096) = some e ∧
    (accessOf e &&& flags = flags ∨
      WriteAsked flags ∧ isRw e = false ∧ isUs e = true ∧
        accessOf e &&& (flags &&& ~~~(vmmUw ||| vmmPw)) = flags &&& ~~~(vmmUw ||| vmmPw))

/-- A range that the kernel may use on behalf of the process. -/
structure UserRange (m : Mem) (pd start length : Nat) (flags : BitVec 32) : Prop where
  noWrap : start + length ≤ 2 ^ 32
  noKernel : ∀ a, start ≤ a → a < start + length → isKernel a = false
  pages : ∀ a, start ≤ a → a < start + length → PageAllows m pd a flags

/-- The pages that the check lets through without the access asked for. -/
inductive Overlooked (m : Mem) (pd a : Nat) (flags : BitVec 32) : Prop where
  /-- nothing is asked for, and there is no page -/
  | unasked (hf : flags = 0) (hp : m.page pd (a / 4096) = none)
  /-- a write is asked for, and there is no page -/
  | absent (hw : WriteAsked flags) (hp : m.page pd (a / 4096) = none)
  /-- a write is asked for, and the page is the kernel's and not writable -/
  | kernelOnly {e : BitVec 32} (hw : WriteAsked flags) (hp : m.page pd (a / 4096) = some e)
      (hrw : isRw e = false) (hus : isUs e = false)
  /-- a write is asked for, the page is not writable, and something else is missing too -/
  | others {e : BitVec 32} (hw : WriteAsked flags) (hp : m.page pd (a / 4096) = some e)
      (hrw : isRw e = false)
      (hmore : accessOf e &&& (flags &&& ~~~(vmmUw ||| vmmPw)) ≠ flags &&& ~~~(vmmUw ||| vmmPw))

theorem isKernel_false : isKernel a = false ↔ a < 0xF0000000 := by
  unfold isKernel physBase
  rw [decide_eq_false_iff_not, Nat.not_le]

/-! ### One page -/

/-- The check of one page. -/
def pageChecked (m : Mem) (pd a : Nat) (flags : BitVec 32) : Prop :=
  let flagsSet := (vmmcAddressMapped m pd a).1
  flagsSet &&& flags = flags ∨ WriteAsked flags ∧ flagsSet &&& (vmmUw ||| vmmPw) = 0

theorem accessOf_write : accessOf e &&& (vmmUw ||| vmmPw) = 0 ↔ isRw e = false := by
  unfold accessOf
  cases isRw e <;> cases isUs e <;> decide

/-- Flags that a page without the write flags has do not ask for a write. -/
theorem not_writeAsked {x : BitVec 32} (hx : x &&& (vmmUw ||| vmmPw) = 0)
    (hf : x &&& flags = flags) : ¬ WriteAsked flags := by
  intro hw
  refine hw ?_
  rw [← hf, BitVec.and_comm x, BitVec.and_assoc, hx]
  exact BitVec.and_zero

theorem addressMapped_fst (m : Mem) (pd virt : Nat) :
    (vmmcAddressMapped m pd virt).1 = (m.page pd (virt / 4096)).elim 0 accessOf := by
  rw [addressMapped_page]
  cases m.page pd (virt / 4096) <;> rfl

/-- A page that passes the check allows the access unless it is one of those overlooked. -/
theorem pageAllows_iff (h : pageChecked m pd a flags) :
    PageAllows m pd a flags ↔ ¬ Overlooked m pd a flags := by
  unfold pageChecked at h
  simp only [addressMapped_fst] at h
  constructor
  · rintro ⟨e, hp, hallow⟩ hover
    cases hover with
    | unasked _ hnone | absent _ hnone =>
        rw [hp] at hnone
        cases hnone
    | kernelOnly hw hp' hrw hus =>
        obtain rfl : e = _ := Option.some.inj (hp.symm.trans hp')
        rcases hallow with hflags | ⟨-, -, hus', -⟩
        · exact not_writeAsked (accessOf_write.mpr hrw) hflags hw
        · exact Bool.noConfusion (hus.symm.trans hus')
    | others hw hp' hrw hmore =>
        obtain rfl : e = _ := Option.some.inj (hp.symm.trans hp')
        rcases hallow with hflags | ⟨-, -, -, hmore'⟩
        · exact not_writeAsked (accessOf_write.mpr hrw) hflags hw
        · exact hmore hmore'
  · intro hover
    cases hp : m.page pd (a / 4096) with
    | none =>
        rw [hp] at h
        rcases h with hflags | ⟨hw, -⟩
        · refine absurd (.unasked ?_ hp) hover
          rw [← hflags]
          exact BitVec.zero_and
        · exact absurd (.absent hw hp) hover
    | some e =>
        rw [hp] at h
        refine ⟨e, hp, ?_⟩
        rcases h with hflags | ⟨hw, hrw⟩
        · exact .inl hflags
        · have hrw := accessOf_write.mp hrw
          refine .inr ⟨hw, hrw, ?_, ?_⟩
          · by_contra hus
            exact hover (.kernelOnly hw hp hrw (by simpa using hus))
          · by_contra hmore
            exact hover (.others hw hp hrw hmore)

/-! ### The whole range -/

/-- The pages that the loop looks at. -/
theorem validUserMem_pages (h : isValidUserMem m pd start length flags = true) {i : Nat}
    (hi : i < (length + start % 4096 + 4095) % 2 ^ 32 / 4096) :
    isKernel ((start / 4096 * 4096 + i * 4096) % 2 ^ 32) = false ∧
      pageChecked m pd ((start / 4096 * 4096 + i * 4096) % 2 ^ 32) flags := by
  have hpage := List.all_eq_true.mp h i (List.mem_range.mpr hi)
  simp only [Bool.and_eq_true, Bool.or_eq_true, decide_eq_true_eq, Bool.not_eq_true'] at hpage
  exact hpage

/-- If the page count does not wrap, every address of the range is on a page that was looked at. -/
theorem validUserMem_address (h : isValidUserMem m pd start length flags = true)
    (hs : start < 2 ^ 32) (hcount : length + start % 4096 + 4095 < 2 ^ 32) (hlo : start ≤ a)
    (hhi : a < start + length) : isKernel a = false ∧ pageChecked m pd a flags := by
  have hlook : ∀ b, start ≤ b → b < start + length → b < 2 ^ 32 →
      isKernel (b / 4096 * 4096) = false ∧ pageChecked m pd (b / 4096 * 4096) flags := by
    intro b hb hb' hb32
    have hpage := validUserMem_pages h (i := b / 4096 - start / 4096) (by
      rw [Nat.mod_eq_of_lt hcount]
      omega)
    rwa [show (start / 4096 * 4096 + (b / 4096 - start / 4096) * 4096) % 2 ^ 32 = b / 4096 * 4096
      by omega] at hpage
  -- the first page of the kernel would have been noticed
  have hbelow : a < physBase := by
    by_contra hge
    simp only [physBase] at hge
    by_cases hstart : start ≤ 0xF0000000
    · have hk := (hlook 0xF0000000 hstart (by omega) (by omega)).1
      exact absurd hk (by decide)
    · have hk := (hlook start le_rfl (by omega) hs).1
      rw [isKernel_false] at hk
      omega
  refine ⟨isKernel_false.mpr hbelow, ?_⟩
  have hchecked := (hlook a hlo hhi (by simp only [physBase] at hbelow; omega)).2
  unfold pageChecked at hchecked ⊢
  simp only [addressMapped_fst] at hchecked ⊢
  rwa [show a / 4096 * 4096 / 4096 = a / 4096 by omega] at hchecked

/-- **The guard of the system calls**: a range that `is_valid_user_mem` accepts is one that the kernel
may use if and only if the page count did not wrap and no page of it was overlooked. -/
theorem valid_user_mem_iff (hs : start < 2 ^ 32) (hl : length < 2 ^ 32)
    (h : isValidUserMem m pd start length flags = true) :
    UserRange m pd start length flags ↔
      length + start % 4096 + 4095 < 2 ^ 32 ∧
        ∀ a, start ≤ a → a < start + length → ¬ Overlooked m pd a flags := by
  constructor
  · intro hr
    have hcount : length + start % 4096 + 4095 < 2 ^ 32 := by
      by_contra hge
      have hk := hr.noKernel (start + length - 1) (by omega) (by omega)
      rw [isKernel_false] at hk
      omega
    refine ⟨hcount, fun a hlo hhi => ?_⟩
    have hchecked := (validUserMem_address h hs hcount hlo hhi).2
    exact (pageAllows_iff hchecked).mp (hr.pages a hlo hhi)
  · rintro ⟨hcount, hover⟩
    refine ⟨?_, fun a hlo hhi => (validUserMem_address h hs hcount hlo hhi).1, fun a hlo hhi =>
      (pageAllows_iff (validUserMem_address h hs hcount hlo hhi).2).mpr (hover a hlo hhi)⟩
    by_contra hge
    have hk := (validUserMem_address h hs hcount (a := start + length - 1) (by omega) (by omega)).1
    rw [isKernel_false] at hk
    omega

/-- Sixteen bytes on a page of the user. -/
theorem valid_user_mem_page :
    UserRange (oneTable 0 (entry 2 (mapPr ||| mapUs))) 0 0x5000 16 (vmmUr ||| vmmPr) := by
  have hpage : ∀ a, 0x5000 ≤ a → a < 0x5000 + 16 →
      (oneTable 0 (entry 2 (mapPr ||| mapUs))).page 0 (a / 4096) =
        some (entry 2 (mapPr ||| mapUs)) := by
    intro a hlo hhi
    rw [oneTable_page, if_pos (by omega)]
    rfl
  refine (valid_user_mem_iff (by decide) (by decide) ?_).mpr ⟨by decide, fun a hlo hhi hover => ?_⟩
  · refine List.all_eq_true.mpr fun i hi => ?_
    obtain rfl : i = 0 := by
      have := List.mem_range.mp hi
      omega
    simp only [addressMapped_fst]
    rw [hpage ((0x5000 / 4096 * 4096 + 0 * 4096) % 2 ^ 32) (by decide) (by decide)]
    decide
  · cases hover with
    | unasked hf _ => exact absurd hf (by decide)
    | absent hw _ => exact hw (by decide)
    | kernelOnly hw _ _ _ => exact hw (by decide)
    | others hw _ _ _ => exact hw (by decide)

/-- All of the address space but the last byte is accepted, without a look at any page. -/
theorem wrapped_range_is_valid :
    isValidUserMem (oneTable 0 0) 0 0 0xFFFFFFFF (vmmUr ||| vmmPw) = true ∧
      ¬ UserRange (oneTable 0 0) 0 0 0xFFFFFFFF (vmmUr ||| vmmPw) := by
  refine ⟨rfl, fun hr => ?_⟩
  exact absurd (hr.noKernel 0xF0000000 (by decide) (by decide)) (by decide)

end Muxomucota.Mmu
