import Mathlib.Data.BitVec
import Mathlib.Logic.Function.Basic
import Mathlib.Tactic.Common

/-!
# Vm86 — the machine

`vm86.c`: the registers of a VM86 thread, the memory it runs in, and the macros `lin`, `stack`,
`stack_add`, `code` and `code_add`.  An address is a segment and an offset of 16 bits each; the macros mask
both, so that an offset wraps at 64 KiB, while a word that begins in the last byte of a segment goes on
behind it.  The kernel reads and writes through these addresses where the thread's memory is mapped.
-/

namespace Muxomucota.Vm86

abbrev Byte := BitVec 8
abbrev Reg := BitVec 32
/-- Memory by linear addresses. -/
abbrev Memory := BitVec 32 → Byte

/-- `struct cpu_state`, as far as VM86 is concerned. -/
structure CpuState where
  ebp : Reg
  edi : Reg
  esi : Reg
  edx : Reg
  ecx : Reg
  ebx : Reg
  eax : Reg
  eip : Reg
  cs : Reg
  eflags : Reg
  esp : Reg
  ss : Reg
  vm86Es : Reg
  vm86Ds : Reg
  vm86Fs : Reg
  vm86Gs : Reg
  deriving DecidableEq

/-- `struct vm86_registers` -/
structure Vm86Registers where
  eax : Reg
  ebx : Reg
  ecx : Reg
  edx : Reg
  esi : Reg
  edi : Reg
  ebp : Reg
  ds : Reg
  es : Reg
  fs : Reg
  gs : Reg
  deriving DecidableEq

/-- `port-io.h`, for devices in the state `ω`. -/
structure Ports (ω : Type) where
  in8 : Reg → ω → BitVec 8 × ω
  in16 : Reg → ω → BitVec 16 × ω
  in32 : Reg → ω → BitVec 32 × ω
  out8 : Reg → BitVec 8 → ω → ω
  out16 : Reg → BitVec 16 → ω → ω
  out32 : Reg → BitVec 32 → ω → ω

/-- A thread, its memory and the devices. -/
structure Machine (ω : Type) where
  cpu : CpuState
  mem : Memory
  devices : ω

/-! ### Memory -/

namespace Memory

def word (mem : Memory) (a : BitVec 32) : BitVec 16 := mem (a + 1) ++ mem a

/-- The `k` lowest bytes of `v`, from the address `a` on. -/
def store (mem : Memory) (a v : BitVec 32) (k : Nat) : Memory :=
  (List.range k).foldl
    (fun mem i => Function.update mem (a + .ofNat 32 i) (v.extractLsb' (8 * i) 8)) mem

def setWord (mem : Memory) (a : BitVec 32) (w : BitVec 16) : Memory :=
  Function.update (Function.update mem a (w.extractLsb' 0 8)) (a + 1) (w.extractLsb' 8 8)

def dword (mem : Memory) (a : BitVec 32) : BitVec 32 :=
  mem (a + 3) ++ mem (a + 2) ++ mem (a + 1) ++ mem a

theorem add_one_ne (a : BitVec 32) : a ≠ a + 1 := by
  intro h
  have hnat := congrArg BitVec.toNat h
  rw [BitVec.toNat_add, show (1 : BitVec 32).toNat = 1 from rfl] at hnat
  omega

theorem word_setWord_self (mem : Memory) (a : BitVec 32) (w : BitVec 16) :
    (mem.setWord a w).word a = w := by
  have hlow : (mem.setWord a w) a = w.extractLsb' 0 8 := by
    rw [setWord, Function.update_of_ne (add_one_ne a), Function.update_self]
  have hhigh : (mem.setWord a w) (a + 1) = w.extractLsb' 8 8 := Function.update_self ..
  rw [word, hlow, hhigh]
  refine BitVec.eq_of_getLsbD_eq fun i hi => ?_
  rw [BitVec.getLsbD_append]
  simp only [BitVec.getLsbD_extractLsb']
  by_cases h8 : i < 8
  · simp [h8]
  · have hi8 : i - 8 < 8 := by omega
    have heq : 8 + (i - 8) = i := by omega
    simp [h8, hi8, heq]

/-- Two words are apart if none of their bytes is in the other. -/
def Apart (a b : BitVec 32) : Prop := a ≠ b ∧ a ≠ b + 1 ∧ a + 1 ≠ b ∧ a + 1 ≠ b + 1

theorem word_setWord_of_apart (mem : Memory) {a b : BitVec 32} (w : BitVec 16) (h : Apart a b) :
    (mem.setWord b w).word a = mem.word a := by
  obtain ⟨h1, h2, h3, h4⟩ := h
  rw [word, word, setWord, Function.update_of_ne h4, Function.update_of_ne h3,
    Function.update_of_ne h2, Function.update_of_ne h1]

end Memory

/-! ### Addresses -/

/-- `lin` -/
def lin (seg ofs : Reg) : BitVec 32 := ((seg &&& 0xffff) <<< 4) + (ofs &&& 0xffff)

theorem and_ffff_toNat (r : Reg) : (r &&& 0xffff).toNat = r.toNat % 65536 := by
  rw [BitVec.toNat_and]
  exact Nat.and_two_pow_sub_one_eq_mod r.toNat 16

theorem lin_toNat (seg ofs : Reg) :
    (lin seg ofs).toNat = seg.toNat % 65536 * 16 + ofs.toNat % 65536 := by
  have hseg : ((seg &&& 0xffff) <<< 4).toNat = seg.toNat % 65536 * 16 := by
    rw [BitVec.toNat_shiftLeft, and_ffff_toNat, Nat.shiftLeft_eq]
    omega
  rw [lin, BitVec.toNat_add, hseg, and_ffff_toNat]
  omega

/-- The words at two offsets of a segment are apart if the offsets, round the segment, are two bytes or
more apart; the second byte of a word is at most one byte behind the segment. -/
theorem apart_of_offsets {seg a b : Reg} (hne : a.toNat % 65536 ≠ b.toNat % 65536)
    (hup : (a.toNat + 1) % 65536 ≠ b.toNat % 65536) (hdown : a.toNat % 65536 ≠ (b.toNat + 1) % 65536) :
    Memory.Apart (lin seg a) (lin seg b) := by
  have ha := lin_toNat seg a
  have hb := lin_toNat seg b
  have hone : (1 : BitVec 32).toNat = 1 := rfl
  have ha1 : (lin seg a + 1).toNat = (lin seg a).toNat + 1 := by
    rw [BitVec.toNat_add, hone]
    omega
  have hb1 : (lin seg b + 1).toNat = (lin seg b).toNat + 1 := by
    rw [BitVec.toNat_add, hone]
    omega
  refine ⟨fun h => ?_, fun h => ?_, fun h => ?_, fun h => ?_⟩ <;>
    (have hnat := congrArg BitVec.toNat h
     omega)

/-! ### The macros -/

namespace Machine

variable {ω : Type}

/-- `stack(o)` -/
def stack (m : Machine ω) (o : Reg) : BitVec 16 := m.mem.word (lin m.cpu.ss (m.cpu.esp + o * 2))

/-- `stack(o) = w` -/
def setStack (m : Machine ω) (o : Reg) (w : BitVec 16) : Machine ω :=
  { m with mem := m.mem.setWord (lin m.cpu.ss (m.cpu.esp + o * 2)) w }

/-- `code(o)` -/
def code (m : Machine ω) (o : Reg) : Byte := m.mem (lin m.cpu.cs (m.cpu.eip + o))

/-- `ivt[n].ip` -/
def ivtIp (m : Machine ω) (n : Byte) : BitVec 16 := m.mem.word (n.setWidth 32 * 4)

/-- `ivt[n].cs` -/
def ivtCs (m : Machine ω) (n : Byte) : BitVec 16 := m.mem.word (n.setWidth 32 * 4 + 2)

def setEip (m : Machine ω) (v : Reg) : Machine ω := { m with cpu := { m.cpu with eip := v } }

def setCs (m : Machine ω) (v : Reg) : Machine ω := { m with cpu := { m.cpu with cs := v } }

def setEsp (m : Machine ω) (v : Reg) : Machine ω := { m with cpu := { m.cpu with esp := v } }

def setEflags (m : Machine ω) (v : Reg) : Machine ω := { m with cpu := { m.cpu with eflags := v } }

@[simp] theorem setEip_eip (m : Machine ω) (v : Reg) : (m.setEip v).cpu.eip = v := rfl
@[simp] theorem setEip_cs (m : Machine ω) (v : Reg) : (m.setEip v).cpu.cs = m.cpu.cs := rfl
@[simp] theorem setEip_eflags (m : Machine ω) (v : Reg) : (m.setEip v).cpu.eflags = m.cpu.eflags := rfl
@[simp] theorem setEip_esp (m : Machine ω) (v : Reg) : (m.setEip v).cpu.esp = m.cpu.esp := rfl
@[simp] theorem setEip_ss (m : Machine ω) (v : Reg) : (m.setEip v).cpu.ss = m.cpu.ss := rfl
@[simp] theorem setEip_mem (m : Machine ω) (v : Reg) : (m.setEip v).mem = m.mem := rfl
@[simp] theorem setCs_eip (m : Machine ω) (v : Reg) : (m.setCs v).cpu.eip = m.cpu.eip := rfl
@[simp] theorem setCs_cs (m : Machine ω) (v : Reg) : (m.setCs v).cpu.cs = v := rfl
@[simp] theorem setCs_eflags (m : Machine ω) (v : Reg) : (m.setCs v).cpu.eflags = m.cpu.eflags := rfl
@[simp] theorem setCs_esp (m : Machine ω) (v : Reg) : (m.setCs v).cpu.esp = m.cpu.esp := rfl
@[simp] theorem setCs_ss (m : Machine ω) (v : Reg) : (m.setCs v).cpu.ss = m.cpu.ss := rfl
@[simp] theorem setCs_mem (m : Machine ω) (v : Reg) : (m.setCs v).mem = m.mem := rfl
@[simp] theorem setEsp_eip (m : Machine ω) (v : Reg) : (m.setEsp v).cpu.eip = m.cpu.eip := rfl
@[simp] theorem setEsp_cs (m : Machine ω) (v : Reg) : (m.setEsp v).cpu.cs = m.cpu.cs := rfl
@[simp] theorem setEsp_eflags (m : Machine ω) (v : Reg) : (m.setEsp v).cpu.eflags = m.cpu.eflags := rfl
@[simp] theorem setEsp_esp (m : Machine ω) (v : Reg) : (m.setEsp v).cpu.esp = v := rfl
@[simp] theorem setEsp_ss (m : Machine ω) (v : Reg) : (m.setEsp v).cpu.ss = m.cpu.ss := rfl
@[simp] theorem setEsp_mem (m : Machine ω) (v : Reg) : (m.setEsp v).mem = m.mem := rfl
@[simp] theorem setEflags_eip (m : Machine ω) (v : Reg) : (m.setEflags v).cpu.eip = m.cpu.eip := rfl
@[simp] theorem setEflags_cs (m : Machine ω) (v : Reg) : (m.setEflags v).cpu.cs = m.cpu.cs := rfl
@[simp] theorem setEflags_eflags (m : Machine ω) (v : Reg) : (m.setEflags v).cpu.eflags = v := rfl
@[simp] theorem setEflags_esp (m : Machine ω) (v : Reg) : (m.setEflags v).cpu.esp = m.cpu.esp := rfl

/-- `stack_add` -/
def stackAdd (m : Machine ω) (val : Reg) : Machine ω := m.setEsp ((m.cpu.esp + val * 2) &&& 0xffff)

/-- `code_add` -/
def codeAdd (m : Machine ω) (val : Reg) : Machine ω := m.setEip ((m.cpu.eip + val) &&& 0xffff)

@[simp] theorem setStack_cpu (m : Machine ω) (o : Reg) (w : BitVec 16) :
    (m.setStack o w).cpu = m.cpu := rfl

theorem stack_setStack_self (m : Machine ω) (o : Reg) (w : BitVec 16) :
    (m.setStack o w).stack o = w :=
  m.mem.word_setWord_self _ w

/-- The words of one frame do not overlap, whatever the stack pointer is. -/
theorem stack_setStack_of_ne (m : Machine ω) {o p : Reg} (w : BitVec 16) (ho : o.toNat < 3)
    (hp : p.toNat < 3) (hne : o ≠ p) : (m.setStack p w).stack o = m.stack o := by
  have hne : o.toNat ≠ p.toNat := fun h => hne (BitVec.eq_of_toNat_eq h)
  have hnat : ∀ q : Reg, q.toNat < 3 →
      (m.cpu.esp + q * 2).toNat % 65536 = (m.cpu.esp.toNat + 2 * q.toNat) % 65536 := by
    intro q hq
    rw [BitVec.toNat_add, BitVec.toNat_mul, show (2 : BitVec 32).toNat = 2 from rfl]
    omega
  have ho' := hnat o ho
  have hp' := hnat p hp
  exact m.mem.word_setWord_of_apart w
    (apart_of_offsets (by rw [setStack_cpu]; omega) (by rw [setStack_cpu]; omega)
      (by rw [setStack_cpu]; omega))

end Machine

end Muxomucota.Vm86
