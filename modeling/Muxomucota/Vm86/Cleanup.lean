import Muxomucota.Mmu.UserMap
import Muxomucota.Mmu.UserUnmap
import Muxomucota.Vm86.Interrupt

/-!
# Vm86 — what `vm86_interrupt` leaves behind

The loop before the thread runs maps all 256 pages below 1 MiB; the call at the end unmaps the 160 pages of
RAM alone.  The pages of the video memory and of the ROM stay in the caller's address space, and the teardown
will free their frames as if the caller owned them.

* `mapFirstMb_high`: after the loop, page `v` of the upper part names frame `v`.
* `vm86Interrupt_high`: so it does when `vm86_interrupt` has returned.
* `vm86_never_cleans_up`: no valid request leaves the first mebibyte as empty as it was.
-/

namespace Muxomucota.Vm86
open Mmu Muxomucota.Memory Muxomucota.Memory.Pmm Lib

variable {m m' : Mem} {s s' : Space} {pd n i v k : Nat} {copy intr list : BitVec 32} {calls : Calls}

theorem isFlags_vm86 : IsFlags (pageFlags vm86Flags) := by decide

/-! ### The loop -/

theorem mapLowPage_page (h : Held m pd n) (hn : userPdes ≤ n) (hi : i < 256)
    (hm : mapLowPage pd copy m i = some m') :
    ∃ f, (0xa0 ≤ i → f = i) ∧ Held m' pd n ∧ ∀ v < n * 1024, m'.page pd v =
      if v = i then some (entry f (pageFlags vm86Flags)) else m.page pd v := by
  have hvirt : 4096 * i < physBase := by simp only [physBase]; omega
  have hpage : 4096 * i / 4096 = i := Nat.mul_div_cancel_left i (by decide)
  unfold mapLowPage at hm
  dsimp only at hm
  split at hm
  · obtain ⟨hheld, hp⟩ := mapUserPage_page h hn hvirt hm
    rw [hpage] at hp
    exact ⟨i, fun _ => rfl, hheld, hp⟩
  · rename_i hram
    split at hm
    · cases hm
    · obtain ⟨hheld, hp⟩ := mapUserPage_page h hn hvirt hm
      rw [hpage] at hp
      exact ⟨_, fun hle => absurd (by omega) hram, hheld, hp⟩

/-- Page `v` of the upper part names frame `v`. -/
theorem mapFirstMb_high (h : Held m pd n) (hn : userPdes ≤ n)
    (hm : mapFirstMb pd copy m = some m') :
    Held m' pd n ∧ ∀ v, 0xa0 ≤ v → v < 256 →
      m'.page pd v = some (entry v (pageFlags vm86Flags)) := by
  have hn' : 256 ≤ n * 1024 := by simp only [userPdes] at hn; omega
  have hrun := foldlM_range_rule (P := fun i b => Held b pd n ∧ ∀ v, 0xa0 ≤ v → v < i →
      b.page pd v = some (entry v (pageFlags vm86Flags))) hm
    ⟨h, fun v _ hlt => absurd hlt (Nat.not_lt_zero v)⟩ fun i b b' hi hP hstep => by
      obtain ⟨f, hf, hheld, hp⟩ := mapLowPage_page hP.1 hn hi hstep
      refine ⟨hheld, fun v hlo hlt => ?_⟩
      rw [hp v (by omega)]
      split
      next heq => rw [hf (heq ▸ hlo), heq]
      next hne => exact hP.2 v hlo (by omega)
  exact hrun

/-! ### The whole function -/

/-- The frames that the pages below 1 MiB name stay, and the directory remains what it is. -/
def KeepsLow (pd n : Nat) (m m' : Mem) : Prop :=
  Held m pd n → Held m' pd n ∧ ∀ v < 256, (m'.page pd v).map frameOf = (m.page pd v).map frameOf

/-- None of the other functions changes what is mapped below 1 MiB. -/
structure Calls.KeepLow (calls : Calls) (pd n : Nat) : Prop where
  kmalloc : ∀ s base s', calls.kmalloc s = some (base, s') → KeepsLow pd n s.mem s'.mem
  copyLow : ∀ copy s s', calls.copyLow copy s = some s' → KeepsLow pd n s.mem s'.mem
  faults : ∀ cs m m', calls.faults cs m = some m' → KeepsLow pd n m m'
  run : ∀ s s', calls.run s = some s' → KeepsLow pd n s.mem s'.mem
  kfree : ∀ s s', calls.kfree s = some s' → KeepsLow pd n s.mem s'.mem

/-- The steps of a call that passes the check. -/
theorem vm86Interrupt_steps {e : Option Errno} (hcheck : check s.bytes intr list k = none)
    (hm : vm86Interrupt calls s pd intr list k = some (e, s')) :
    e = none ∧ ∃ base s₁ s₂ m₃ m₄ s₅ s₆ m₇, calls.kmalloc s = some (base, s₁) ∧
      calls.copyLow (firstMbCopy base) s₁ = some s₂ ∧
      calls.faults (copyIn (firstMbCopy base) list k s₂.bytes).1 s₂.mem = some m₃ ∧
      mapFirstMb pd (firstMbCopy base) m₃ = some m₄ ∧
      calls.run ⟨m₄, showFirstMb calls.rom (firstMbCopy base)
        (copyIn (firstMbCopy base) list k s₂.bytes).2⟩ = some s₅ ∧
      calls.kfree s₅ = some s₆ ∧ calls.faults (copyOut list k s₆.bytes).1 s₆.mem = some m₇ ∧
      vmmcUserUnmap m₇ pd 0 0xa0000 = some s'.mem := by
  unfold vm86Interrupt at hm
  rw [hcheck] at hm
  dsimp only at hm
  obtain ⟨⟨base, s₁⟩, h₁, hm⟩ := Option.bind_eq_some_iff.mp hm
  obtain ⟨s₂, h₂, hm⟩ := Option.bind_eq_some_iff.mp hm
  obtain ⟨m₃, h₃, hm⟩ := Option.bind_eq_some_iff.mp hm
  obtain ⟨m₄, h₄, hm⟩ := Option.bind_eq_some_iff.mp hm
  obtain ⟨s₅, h₅, hm⟩ := Option.bind_eq_some_iff.mp hm
  obtain ⟨s₆, h₆, hm⟩ := Option.bind_eq_some_iff.mp hm
  obtain ⟨m₇, h₇, hm⟩ := Option.bind_eq_some_iff.mp hm
  obtain ⟨m₈, h₈, hm⟩ := Option.bind_eq_some_iff.mp hm
  cases hm
  exact ⟨rfl, base, s₁, s₂, m₃, m₄, s₅, s₆, m₇, h₁, h₂, h₃, h₄, h₅, h₆, h₇, h₈⟩

/-- The call at the end stops at the video memory. -/
theorem unmapRam_high (h : Held m pd n) (hn : userPdes ≤ n) (hn' : n ≤ 1024)
    (hm : vmmcUserUnmap m pd 0 0xa0000 = some m') (hlo : 0xa0 ≤ v) (hv : v < n * 1024) :
    m'.page pd v = m.page pd v := by
  have hle : 0 + 0xa0000 ≤ n * 0x400000 := by simp only [userPdes] at hn; omega
  have hstop : unmapStop 0 0xa0000 = 0xa0 := by decide
  rw [(userUnmap_emptied h.toSpace hn' hle hm).page v hv, hstop, if_neg (by omega)]

/-- The pages of the video memory and of the ROM are still there afterwards. -/
theorem vm86Interrupt_high {e : Option Errno} (h : Held s.mem pd n) (hn : userPdes ≤ n) (hn' : n ≤ 1024)
    (hcalls : calls.KeepLow pd n) (hcheck : check s.bytes intr list k = none)
    (hm : vm86Interrupt calls s pd intr list k = some (e, s')) (hlo : 0xa0 ≤ v) (hv : v < 256) :
    (s'.mem.page pd v).map frameOf = some v := by
  obtain ⟨-, base, s₁, s₂, m₃, m₄, s₅, s₆, m₇, h₁, h₂, h₃, h₄, h₅, h₆, h₇, h₈⟩ :=
    vm86Interrupt_steps hcheck hm
  have held₁ := (hcalls.kmalloc _ _ _ h₁ h).1
  have held₂ := (hcalls.copyLow _ _ _ h₂ held₁).1
  have held₃ := (hcalls.faults _ _ _ h₃ held₂).1
  obtain ⟨held₄, hpage₄⟩ := mapFirstMb_high held₃ hn h₄
  obtain ⟨held₅, hkeep₅⟩ := hcalls.run _ _ h₅ held₄
  obtain ⟨held₆, hkeep₆⟩ := hcalls.kfree _ _ h₆ held₅
  obtain ⟨held₇, hkeep₇⟩ := hcalls.faults _ _ _ h₇ held₆
  have hspace : v < n * 1024 := by simp only [userPdes] at hn; omega
  rw [unmapRam_high held₇ hn hn' h₈ hlo hspace, hkeep₇ v hv, hkeep₆ v hv, hkeep₅ v hv,
    hpage₄ v hlo hv, Option.map_some, frameOf_entry (by omega) isFlags_vm86]

/-- What is expected of `vm86_interrupt`: no page below 1 MiB is left, and every frame has as many users
as before. -/
structure CleansUp (m : Mem) (pd : Nat) (m' : Mem) : Prop where
  absent : ∀ v < 256, m'.page pd v = none
  users : ∀ f, m'.pmm.users f = m.pmm.users f

/-- **Nothing is cleaned up**: whatever the address space and the valid request, when `vm86_interrupt`
has returned, the caller has the 96 pages above 640 KiB, which it did not have before. -/
theorem vm86_never_cleans_up {e : Option Errno} (h : Held s.mem pd n) (hn : userPdes ≤ n) (hn' : n ≤ 1024)
    (hempty : ∀ v < 256, s.mem.page pd v = none) (hcalls : calls.KeepLow pd n)
    (hcheck : check s.bytes intr list k = none)
    (hm : vm86Interrupt calls s pd intr list k = some (e, s')) :
    ¬ CleansUp s.mem pd s'.mem ∧ ∀ v, 0xa0 ≤ v → v < 0x100 →
      s.mem.page pd v = none ∧ (s'.mem.page pd v).map frameOf = some v := by
  refine ⟨fun hclean => ?_, fun v hlo hv =>
    ⟨hempty v hv, vm86Interrupt_high h hn hn' hcalls hcheck hm hlo hv⟩⟩
  have hpage : (s'.mem.page pd 0xa0).map frameOf = some 0xa0 :=
    vm86Interrupt_high h hn hn' hcalls hcheck hm le_rfl (by decide)
  rw [hclean.absent 0xa0 (by decide)] at hpage
  cases hpage

/-! ### The function returns -/

theorem accessOf_pr (e : BitVec 32) : accessOf e &&& vmmPr ≠ 0 := by
  unfold accessOf
  split <;> decide

/-- A page is mapped where there is a page table, or a frame for one. -/
theorem mapUserPage_some {virt f : Nat} {flags : BitVec 32}
    (h : isPr (m.entry pd (pdIndex virt)) = true ∨ ∃ r, m.alloc = some r) :
    ∃ m', vmmcMapUserPage m pd virt f flags = some m' := by
  unfold vmmcMapUserPage vmmcMapUserPageUnlocked
  split
  · exact ⟨m, rfl⟩
  · dsimp only
    split
    · exact ⟨_, rfl⟩
    · rename_i hpr
      obtain hdir | ⟨r, hr⟩ := h
      · exact absurd hdir hpr
      · rw [hr]
        exact ⟨_, rfl⟩

/-- A present page has a page table. -/
theorem isPr_of_page (h : m.page pd v ≠ none) : isPr (m.entry pd (v / 1024)) = true := by
  by_contra hno
  exact h (page_absent (by simpa using hno))

/-- The loop comes to its end if there is a frame for the page table and the copy is mapped, outside the
first mebibyte. -/
theorem mapFirstMb_returns (h : Held m pd n) (hn : userPdes ≤ n) {c : Nat}
    (hcopy : copy.toNat = 4096 * c) (hlow : 256 ≤ c) (hhigh : c + 0xa0 ≤ n * 1024) (hn' : n ≤ 1024)
    (hmapped : ∀ i < 0xa0, m.page pd (c + i) ≠ none) (halloc : ∃ r, m.alloc = some r) :
    ∃ m', mapFirstMb pd copy m = some m' := by
  have hrun := foldlM_range_total (f := mapLowPage pd copy) (n := 256)
    (P := fun k b => Held b pd n ∧ (∀ i < 0xa0, b.page pd (c + i) ≠ none) ∧
      (isPr (b.entry pd 0) = true ∨ ∃ r, b.alloc = some r))
    ⟨h, hmapped, .inr halloc⟩ fun k b hk hP => by
      obtain ⟨hheld, hcop, hdir⟩ := hP
      have hpdi : pdIndex (4096 * k) = 0 := by unfold pdIndex; omega
      have hsome : ∀ f, ∃ b', vmmcMapUserPage b pd (4096 * k) f vm86Flags = some b' :=
        fun f => mapUserPage_some (by rwa [hpdi])
      obtain ⟨b', hb'⟩ : ∃ b', mapLowPage pd copy b k = some b' := by
        unfold mapLowPage
        dsimp only
        split
        · exact hsome k
        · rename_i hram
          have haddr : (copy + .ofNat 32 (4096 * k)).toNat / 4096 = c + k := by
            rw [BitVec.toNat_add, BitVec.toNat_ofNat, hcopy]
            omega
          obtain ⟨e, he⟩ := Option.ne_none_iff_exists'.mp (hcop k (by omega))
          rw [addressMapped_page, haddr, he, Option.elim_some, if_neg (accessOf_pr e)]
          exact hsome _
      obtain ⟨f, -, hheld', hp⟩ := mapLowPage_page hheld hn hk hb'
      refine ⟨b', hb', hheld', fun i hi => ?_, .inl ?_⟩
      · rw [hp _ (by omega), if_neg (by omega)]
        exact hcop i hi
      · have hpage : b'.page pd k ≠ none := by
          simp only [userPdes] at hn
          rw [hp k (by omega), if_pos rfl]
          exact Option.some_ne_none _
        have hpr := isPr_of_page hpage
        rwa [show k / 1024 = 0 by omega] at hpr
  obtain ⟨m', hm', -⟩ := hrun
  exact ⟨m', hm'⟩

theorem unmapRam_returns (m : Mem) (pd : Nat) : ∃ m', vmmcUserUnmap m pd 0 0xa0000 = some m' := by
  have hround : vmmcUserUnmap m pd 0 0xa0000 = unmapDirEntry pd 0 0 0xa0 m := by
    simp [vmmcUserUnmap]
  rw [hround]
  unfold unmapDirEntry
  split
  · exact ⟨m, rfl⟩
  · exact ⟨_, if_neg (by decide)⟩

/-- It returns when everything that it calls does. -/
theorem vm86Interrupt_returns {base : BitVec 32} {s₁ s₂ s₅ s₆ : Space} {m₃ m₄ m₇ : Mem}
    (hcheck : check s.bytes intr list k = none) (h₁ : calls.kmalloc s = some (base, s₁))
    (h₂ : calls.copyLow (firstMbCopy base) s₁ = some s₂)
    (h₃ : calls.faults (copyIn (firstMbCopy base) list k s₂.bytes).1 s₂.mem = some m₃)
    (h₄ : mapFirstMb pd (firstMbCopy base) m₃ = some m₄)
    (h₅ : calls.run ⟨m₄, showFirstMb calls.rom (firstMbCopy base)
      (copyIn (firstMbCopy base) list k s₂.bytes).2⟩ = some s₅)
    (h₆ : calls.kfree s₅ = some s₆) (h₇ : calls.faults (copyOut list k s₆.bytes).1 s₆.mem = some m₇) :
    ∃ s', vm86Interrupt calls s pd intr list k = some (none, s') := by
  obtain ⟨m', h₈⟩ := unmapRam_returns m₇ pd
  refine ⟨⟨m', (copyOut list k s₆.bytes).2⟩, ?_⟩
  unfold vm86Interrupt
  rw [hcheck]
  simp only [h₁, h₂, h₃, h₄, h₅, h₆, h₇, h₈, Option.bind_eq_bind, Option.bind_some, Option.pure_def]

/-- The block of the kernel is at the beginning of its window, and nothing happens meanwhile. -/
def quietCalls : Calls where
  kmalloc s := some (0xF0400000, s)
  copyLow _ s := some s
  faults _ m := some m
  rom _ := 0
  run := some
  kfree := some

theorem quietCalls_keepLow (pd n : Nat) : quietCalls.KeepLow pd n where
  kmalloc _ _ _ h hheld := by cases h; exact ⟨hheld, fun _ _ => rfl⟩
  copyLow _ _ _ h hheld := by cases h; exact ⟨hheld, fun _ _ => rfl⟩
  faults _ _ _ h hheld := by cases h; exact ⟨hheld, fun _ _ => rfl⟩
  run _ _ h hheld := by cases h; exact ⟨hheld, fun _ _ => rfl⟩
  kfree _ _ h hheld := by cases h; exact ⟨hheld, fun _ _ => rfl⟩

/-- An address space with nothing but one page table of the kernel window. -/
abbrev kernelOnly : Mem := oneTable 961 (entry 3 (mapPr ||| mapRw))

theorem kernelOnly_empty (v : Nat) (hv : v < 256) : kernelOnly.page 0 v = none := by
  rw [oneTable_page, if_neg (by omega)]

theorem quietCalls_returns (bytes : Memory) (hcheck : check bytes 0x10 list k = none) :
    ∃ s', vm86Interrupt quietCalls ⟨kernelOnly, bytes⟩ 0 0x10 list k = some (none, s') := by
  have hcopy : (firstMbCopy 0xF0400000).toNat = 4096 * 0xF0400 := by decide
  have hmapped : ∀ i < 0xa0, kernelOnly.page 0 (0xF0400 + i) ≠ none := by
    intro i hi
    rw [oneTable_page, if_pos (by omega)]
    decide
  have halloc : ∃ r, kernelOnly.alloc = some r := Option.isSome_iff_exists.mp (by decide)
  obtain ⟨m₄, h₄⟩ := mapFirstMb_returns (held_oneTable 961 1024 _) (by decide) hcopy (by decide)
    (by decide) le_rfl hmapped halloc
  exact vm86Interrupt_returns (s := ⟨kernelOnly, bytes⟩) hcheck rfl rfl rfl h₄ rfl rfl rfl

/-- The theorem at a request with a sector that goes in and the screen that comes out. -/
theorem vm86_never_cleans_up_quiet : ∃ s',
    vm86Interrupt quietCalls ⟨kernelOnly, sectorAndScreen⟩ 0 0x10 0x8200000 2 = some (none, s') ∧
      ¬ CleansUp kernelOnly 0 s'.mem := by
  have hcheck : check sectorAndScreen 0x10 0x8200000 2 = none := by decide
  obtain ⟨s', hm⟩ := quietCalls_returns sectorAndScreen hcheck
  exact ⟨s', hm, (vm86_never_cleans_up (s := ⟨kernelOnly, sectorAndScreen⟩) (held_oneTable 961 1024 _)
    (by decide) le_rfl kernelOnly_empty (quietCalls_keepLow 0 1024) hcheck hm).1⟩

/-- The first page of the video memory stays in an address space that had no page there. -/
theorem vm86_leaves_video_memory :
    (∀ v < 256, kernelOnly.page 0 v = none) ∧ check (fun _ => 0) 0x10 0 0 = none ∧
      ∃ s', vm86Interrupt quietCalls ⟨kernelOnly, fun _ => 0⟩ 0 0x10 0 0 = some (none, s') ∧
        (s'.mem.page 0 0xa0).map frameOf = some 0xa0 ∧ ¬ CleansUp kernelOnly 0 s'.mem := by
  have hcheck : check (fun _ => 0) 0x10 0 0 = none := by decide
  obtain ⟨s', hm⟩ := quietCalls_returns (fun _ => 0) hcheck
  have hpage : (s'.mem.page 0 0xa0).map frameOf = some 0xa0 :=
    vm86Interrupt_high (s := ⟨kernelOnly, fun _ => 0⟩) (held_oneTable 961 1024 _) (by decide) le_rfl
      (quietCalls_keepLow 0 1024) hcheck hm le_rfl (by decide)
  refine ⟨kernelOnly_empty, hcheck, s', hm, hpage, fun hclean => ?_⟩
  rw [hclean.absent 0xa0 (by decide)] at hpage
  cases hpage

end Muxomucota.Vm86
