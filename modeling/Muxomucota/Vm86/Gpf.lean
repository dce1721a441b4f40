import Muxomucota.Vm86.Machine

/-!
# Vm86 — `handle_vm86_gpf`

A VM86 thread faults at the instructions that it must not execute itself, and `handle_vm86_gpf` emulates
them.  `eip` is still at the instruction then.  All cases but INT end in the `code_add(1)` behind the
`switch`; INT pushes `eip` as it is and returns, so the frame names the INT itself, and IRET, after which
`eip` advances by one like after any other, comes back to the second byte of the INT.

* `handleVm86Gpf_int`, `handleVm86Gpf_iret`: the two cases.
* `int_iret`: INT and the IRET that pops its frame.
* `int_iret_never_resumes`: the thread never goes on behind the INT; all else is as before.
-/

namespace Muxomucota.Vm86

variable {ω : Type}

/-- What becomes of the thread. -/
inductive Outcome (ω : Type) where
  /-- `true`: the thread goes on. -/
  | handled (m : Machine ω)
  /-- `false`: the instruction is not known; nothing has changed. -/
  | refused
  /-- The thread has left the registers behind and is destroyed; `destroy_process` does not return. -/
  | exits (regs : Vm86Registers)

namespace Machine

/-- A repeat prefix stands before the instruction. -/
def repeats (m : Machine ω) : Bool := m.code (-1) = 0xf2 || m.code (-1) = 0xf3

/-- `(r & ~0xffff) | (v & 0xffff)` -/
def withLow (r v : Reg) : Reg := (r &&& ~~~0xffff) ||| (v &&& 0xffff)

/-- `insb`, `insw` and `insd`, `size` bytes at a time; without a prefix four bytes are written. -/
def ins (m : Machine ω) (size : Nat) (input : Reg → ω → BitVec 32 × ω) : Machine ω :=
  let port := m.cpu.edx &&& 0xffff
  let dest := lin m.cpu.vm86Es m.cpu.edi
  if m.repeats then
    let count := m.cpu.ecx &&& 0xffff
    let done := (List.range count.toNat).foldl (fun (s : Memory × ω) i =>
      let got := input port s.2
      (s.1.store (dest + .ofNat 32 (i * size)) got.1 size, got.2)) (m.mem, m.devices)
    { cpu := { m.cpu with
        edi := withLow m.cpu.edi (m.cpu.edi + count * .ofNat 32 size)
        ecx := m.cpu.ecx &&& ~~~0xffff }
      mem := done.1
      devices := done.2 }
  else
    let got := input port m.devices
    { cpu := { m.cpu with edi := withLow m.cpu.edi (m.cpu.edi + .ofNat 32 size) }
      mem := m.mem.store dest got.1 4
      devices := got.2 }

/-- `outsb`, `outsw` and `outsd`; `output` takes of a word what it needs. -/
def outs (m : Machine ω) (size : Nat) (output : Reg → BitVec 32 → ω → ω) : Machine ω :=
  let port := m.cpu.edx &&& 0xffff
  let src := lin m.cpu.vm86Ds m.cpu.esi
  if m.repeats then
    let count := m.cpu.ecx &&& 0xffff
    { m with
      cpu := { m.cpu with
        esi := withLow m.cpu.esi (m.cpu.esi + count * .ofNat 32 size)
        ecx := m.cpu.ecx &&& ~~~0xffff }
      devices := (List.range count.toNat).foldl
        (fun devices i => output port (m.mem.dword (src + .ofNat 32 (i * size))) devices) m.devices }
  else
    { m with
      cpu := { m.cpu with esi := withLow m.cpu.esi (m.cpu.esi + .ofNat 32 size) }
      devices := output port (m.mem.dword src) m.devices }

/-- `in al`, `in ax` and `in eax`: `mask` are the bits that stay. -/
def inAcc (m : Machine ω) (mask : Reg) (got : BitVec 32 × ω) : Machine ω :=
  { m with cpu := { m.cpu with eax := (m.cpu.eax &&& mask) ||| got.1 }, devices := got.2 }

def pushf (m : Machine ω) : Machine ω :=
  let m := m.stackAdd (-1)
  m.setStack 0 (m.cpu.eflags.setWidth 16)

/-- What `popf` and IRET make of the flags: the interrupt flag is set. -/
def flagsFrom (eflags : Reg) (w : BitVec 16) : Reg :=
  (eflags &&& ~~~0xffff) ||| w.setWidth 32 ||| 0x0200

def popf (m : Machine ω) : Machine ω :=
  (m.setEflags (flagsFrom m.cpu.eflags (m.stack 0))).stackAdd 1

/-- The frame of an INT. -/
def pushFrame (m : Machine ω) : Machine ω :=
  let pushed := m.stackAdd (-3)
  ((pushed.setStack 2 (m.cpu.eflags.setWidth 16)).setStack 1 (m.cpu.cs.setWidth 16)).setStack 0
    (m.cpu.eip.setWidth 16)

/-- `state->eip = ivt[code(1)].ip` -/
def loadEip (m : Machine ω) : Machine ω := m.setEip ((m.ivtIp (m.code 1)).setWidth 32)

/-- `state->cs = ivt[code(1)].cs` -/
def loadCs (m : Machine ω) : Machine ω := m.setCs ((m.ivtCs (m.code 1)).setWidth 32)

/-- `code(1)` is read twice, the second time at the new `eip`. -/
def int (m : Machine ω) : Machine ω := m.pushFrame.loadEip.loadCs

/-- This is the IRET of the interrupt that the caller has asked for. -/
def Final (m : Machine ω) : Prop := m.cpu.ss &&& 0xffff = 0 ∧ m.cpu.esp &&& 0xffff = 0x7c00

instance (m : Machine ω) : Decidable m.Final := inferInstanceAs (Decidable (_ ∧ _))

/-- What goes to `vm86_exit_regs`. -/
def exitRegs (m : Machine ω) : Vm86Registers where
  eax := m.cpu.eax
  ebx := m.cpu.ebx
  ecx := m.cpu.ecx
  edx := m.cpu.edx
  esi := m.cpu.esi
  edi := m.cpu.edi
  ebp := m.cpu.ebp
  ds := m.cpu.vm86Ds
  es := m.cpu.vm86Es
  fs := m.cpu.vm86Fs
  gs := m.cpu.vm86Gs

def iret (m : Machine ω) : Machine ω :=
  (((m.setEip ((m.stack 0).setWidth 32)).setCs ((m.stack 1).setWidth 32)).setEflags
    (flagsFrom m.cpu.eflags (m.stack 2))).stackAdd 3

/-- The end of the function: `code_add(1)`, `true`. -/
def advance (m : Machine ω) : Outcome ω := .handled (m.codeAdd 1)

end Machine

namespace Ports

/-- The narrow ports in words of 32 bits. -/
def inByte (P : Ports ω) (port : Reg) (d : ω) : BitVec 32 × ω :=
  ((P.in8 port d).1.setWidth 32, (P.in8 port d).2)

def inWord (P : Ports ω) (port : Reg) (d : ω) : BitVec 32 × ω :=
  ((P.in16 port d).1.setWidth 32, (P.in16 port d).2)

def outByte (P : Ports ω) (port : Reg) (v : BitVec 32) : ω → ω := P.out8 port (v.setWidth 8)

def outWord (P : Ports ω) (port : Reg) (v : BitVec 32) : ω → ω := P.out16 port (v.setWidth 16)

end Ports

open Machine in
def handleVm86Gpf (P : Ports ω) (m : Machine ω) : Outcome ω :=
  let dx := m.cpu.edx &&& 0xffff
  let out (f : ω → ω) : Machine ω := { m with devices := f m.devices }
  match (m.code 0).toNat with
  | 0x66 => -- operand-size override prefix
      match (m.code 1).toNat with
      | 0x6d => ((m.ins 4 P.in32).codeAdd 1).advance
      | 0x6f => ((m.outs 4 P.out32).codeAdd 1).advance
      | 0xe5 => (((m.inAcc 0 (P.in32 ((m.code 2).setWidth 32) m.devices)).codeAdd 1).codeAdd 1).advance
      | 0xe7 => (((out (P.out32 ((m.code 2).setWidth 32) m.cpu.eax)).codeAdd 1).codeAdd 1).advance
      | 0xed => ((m.inAcc 0 (P.in32 dx m.devices)).codeAdd 1).advance
      | 0xef => ((out (P.out32 dx m.cpu.eax)).codeAdd 1).advance
      | _ => .refused
  | 0x6c => (m.ins 1 P.inByte).advance
  | 0x6d => (m.ins 2 P.inWord).advance
  | 0x6e => (m.outs 1 P.outByte).advance
  | 0x6f => (m.outs 2 P.outWord).advance
  | 0x9c => m.pushf.advance
  | 0x9d => m.popf.advance
  | 0xcd => .handled m.int
  | 0xcf => if m.Final then .exits m.exitRegs else m.iret.advance
  | 0xe4 => ((m.inAcc (~~~0xff) (P.inByte ((m.code 1).setWidth 32) m.devices)).codeAdd 1).advance
  | 0xe5 => ((m.inAcc (~~~0xffff) (P.inWord ((m.code 1).setWidth 32) m.devices)).codeAdd 1).advance
  | 0xe6 => ((out (P.outByte ((m.code 1).setWidth 32) m.cpu.eax)).codeAdd 1).advance
  | 0xe7 => ((out (P.outWord ((m.code 1).setWidth 32) m.cpu.eax)).codeAdd 1).advance
  | 0xec => (m.inAcc (~~~0xff) (P.inByte dx m.devices)).advance
  | 0xed => (m.inAcc (~~~0xffff) (P.inWord dx m.devices)).advance
  | 0xee => (out (P.outByte dx m.cpu.eax)).advance
  | 0xef => (out (P.outWord dx m.cpu.eax)).advance
  | 0xfa | 0xfb => m.advance -- cli, sti
  | _ => .refused

/-! ### INT and IRET -/

theorem handleVm86Gpf_int (P : Ports ω) {m : Machine ω} (h : m.code 0 = 0xcd) :
    handleVm86Gpf P m = .handled m.int := by
  have hcode : (m.code 0).toNat = 0xcd := congrArg BitVec.toNat h
  simp only [handleVm86Gpf, hcode]

theorem handleVm86Gpf_iret (P : Ports ω) {m : Machine ω} (h : m.code 0 = 0xcf) (hf : ¬ m.Final) :
    handleVm86Gpf P m = .handled (m.iret.codeAdd 1) := by
  have hcode : (m.code 0).toNat = 0xcf := congrArg BitVec.toNat h
  simp only [handleVm86Gpf, hcode, if_neg hf, Machine.advance]

namespace Machine

theorem pushFrame_cpu (m : Machine ω) : m.pushFrame.cpu = (m.stackAdd (-3)).cpu := by
  rw [pushFrame, setStack_cpu, setStack_cpu, setStack_cpu]

theorem int_ss (m : Machine ω) : m.int.cpu.ss = m.cpu.ss := by
  rw [int, loadCs, setCs_ss, loadEip, setEip_ss, pushFrame_cpu, stackAdd, setEsp_ss]

theorem int_esp (m : Machine ω) : m.int.cpu.esp = (m.stackAdd (-3)).cpu.esp := by
  rw [int, loadCs, setCs_esp, loadEip, setEip_esp, pushFrame_cpu]

/-- The jump changes no memory. -/
theorem int_stack (m : Machine ω) (o : Reg) : m.int.stack o = m.pushFrame.stack o := by
  rw [stack, int_ss, int_esp, ← pushFrame_cpu, int, loadCs, setCs_mem, loadEip, setEip_mem, stack,
    pushFrame_cpu, stackAdd, setEsp_ss]

/-- The frame: `eip` is that of the INT. -/
theorem int_frame (m : Machine ω) :
    m.int.stack 0 = m.cpu.eip.setWidth 16 ∧ m.int.stack 1 = m.cpu.cs.setWidth 16 ∧
      m.int.stack 2 = m.cpu.eflags.setWidth 16 := by
  rw [int_stack, int_stack, int_stack, pushFrame]
  refine ⟨stack_setStack_self _ _ _, ?_, ?_⟩
  · rw [stack_setStack_of_ne _ _ (by decide) (by decide) (by decide)]
    exact stack_setStack_self _ _ _
  · rw [stack_setStack_of_ne _ _ (by decide) (by decide) (by decide),
      stack_setStack_of_ne _ _ (by decide) (by decide) (by decide)]
    exact stack_setStack_self _ _ _

/-- The segment is not that of vector `n`: it is that of the vector whose number is behind the first byte
at the handler's offset in the old segment. -/
theorem int_cs (m : Machine ω) :
    m.int.cpu.cs = (m.pushFrame.ivtCs
      (m.pushFrame.mem (lin m.cpu.cs ((m.pushFrame.ivtIp (m.pushFrame.code 1)).setWidth 32 + 1)))).setWidth
        32 := by
  rw [int, loadCs, setCs_cs, code, loadEip, setEip_mem, setEip_eip, setEip_cs, ivtCs, setEip_mem, ivtCs,
    pushFrame_cpu, stackAdd, setEsp_cs]

/-! What IRET and the advance behind it leave. -/

theorem iret_eip (m : Machine ω) : m.iret.cpu.eip = (m.stack 0).setWidth 32 := by
  rw [iret, stackAdd, setEsp_eip, setEflags_eip, setCs_eip, setEip_eip]

theorem iret_cs (m : Machine ω) : m.iret.cpu.cs = (m.stack 1).setWidth 32 := by
  rw [iret, stackAdd, setEsp_cs, setEflags_cs, setCs_cs]

theorem iret_eflags (m : Machine ω) : m.iret.cpu.eflags = flagsFrom m.cpu.eflags (m.stack 2) := by
  rw [iret, stackAdd, setEsp_eflags, setEflags_eflags]

theorem iret_esp (m : Machine ω) : m.iret.cpu.esp = (m.cpu.esp + 3 * 2) &&& 0xffff := by
  rw [iret, stackAdd, setEsp_esp, setEflags_esp, setCs_esp, setEip_esp]

/-- The low half is what was on the stack. -/
theorem flagsFrom_and (eflags : Reg) (w : BitVec 16) :
    flagsFrom eflags w &&& 0xffff = w.setWidth 32 ||| 0x0200 := by
  refine BitVec.eq_of_getLsbD_eq fun i hi => ?_
  have hmask : (0xffff : Reg).getLsbD i = decide (i < 16) := by
    revert i
    decide
  have hflag : (0x0200 : Reg).getLsbD i = decide (i = 9) := by
    revert i
    decide
  rw [flagsFrom, BitVec.getLsbD_and, BitVec.getLsbD_or, BitVec.getLsbD_or, BitVec.getLsbD_and,
    BitVec.getLsbD_not, BitVec.getLsbD_or, BitVec.getLsbD_setWidth, hmask, hflag]
  by_cases h16 : i < 16
  · simp [h16, hi]
  · have h9 : i ≠ 9 := by omega
    have hw : w.getLsbD i = false := BitVec.getLsbD_of_ge _ _ (by omega)
    simp [h16, h9, hw]

end Machine

/-! ### The two together -/

/-- At an IRET: the frame that an INT has pushed, which led to `m`, is on top of the stack, unchanged. -/
structure FrameOnTop (m m' : Machine ω) : Prop where
  ss : m'.cpu.ss &&& 0xffff = m.cpu.ss &&& 0xffff
  esp : m'.cpu.esp &&& 0xffff = m.cpu.esp &&& 0xffff
  words : ∀ o : Reg, o.toNat < 3 → m'.stack o = m.stack o

/-- The thread goes on behind an INT that it had come to in the state `s`. -/
structure Resumes (s s' : CpuState) : Prop where
  eip : s'.eip = (s.eip + 2) &&& 0xffff
  cs : s'.cs &&& 0xffff = s.cs &&& 0xffff
  esp : s'.esp &&& 0xffff = s.esp &&& 0xffff
  flags : s'.eflags &&& 0xffff = (s.eflags &&& 0xffff) ||| 0x0200

theorem setWidth_setWidth (r : Reg) : (r.setWidth 16).setWidth 32 = r &&& 0xffff := by
  refine BitVec.eq_of_toNat_eq ?_
  rw [and_ffff_toNat, BitVec.toNat_setWidth, BitVec.toNat_setWidth]
  omega

theorem and_add_and (a b : Reg) : ((a &&& 0xffff) + b) &&& 0xffff = (a + b) &&& 0xffff := by
  refine BitVec.eq_of_toNat_eq ?_
  rw [and_ffff_toNat, and_ffff_toNat, BitVec.toNat_add, BitVec.toNat_add, and_ffff_toNat]
  omega

theorem and_and_self (r : Reg) : r &&& 0xffff &&& 0xffff = r &&& 0xffff := by
  rw [BitVec.and_assoc, BitVec.and_self]

/-- **INT and IRET**: segment, stack pointer and flags come back; `eip` comes back one byte behind the
beginning of the INT. -/
theorem int_iret {m m' : Machine ω} (h : FrameOnTop m.int m') :
    (m'.iret.codeAdd 1).cpu.eip = (m.cpu.eip + 1) &&& 0xffff ∧
      (m'.iret.codeAdd 1).cpu.cs = m.cpu.cs &&& 0xffff ∧
      (m'.iret.codeAdd 1).cpu.esp = m.cpu.esp &&& 0xffff ∧
      (m'.iret.codeAdd 1).cpu.eflags &&& 0xffff = (m.cpu.eflags &&& 0xffff) ||| 0x0200 := by
  obtain ⟨h0, h1, h2⟩ := m.int_frame
  refine ⟨?_, ?_, ?_, ?_⟩
  · rw [Machine.codeAdd, Machine.setEip_eip, Machine.iret_eip, h.words 0 (by decide), h0,
      setWidth_setWidth, and_add_and]
  · rw [Machine.codeAdd, Machine.setEip_cs, Machine.iret_cs, h.words 1 (by decide), h1,
      setWidth_setWidth]
  · have hback : m.cpu.esp + (-3) * 2 + 3 * 2 = m.cpu.esp := by
      rw [BitVec.add_assoc, show ((-3) * 2 + 3 * 2 : Reg) = 0#32 by decide, BitVec.add_zero]
    rw [Machine.codeAdd, Machine.setEip_esp, Machine.iret_esp, ← and_add_and, h.esp, m.int_esp,
      Machine.stackAdd, Machine.setEsp_esp, and_and_self, and_add_and, hback]
  · rw [Machine.codeAdd, Machine.setEip_eflags, Machine.iret_eflags, h.words 2 (by decide), h2,
      Machine.flagsFrom_and, setWidth_setWidth]

/-- One byte behind is not two bytes behind. -/
theorem succ_ne_two (r : Reg) : (r + 1) &&& 0xffff ≠ (r + 2) &&& 0xffff := by
  intro h
  have hnat := congrArg BitVec.toNat h
  rw [and_ffff_toNat, and_ffff_toNat, BitVec.toNat_add, BitVec.toNat_add,
    show (1 : Reg).toNat = 1 from rfl, show (2 : Reg).toNat = 2 from rfl] at hnat
  omega

/-- **No return behind an INT**: whatever the thread was, the IRET that pops the frame of an INT sends it
to the second byte of the INT, though with the segment, the stack pointer and the flags of before. -/
theorem int_iret_never_resumes (P : Ports ω) {m m₁ m₂ : Machine ω} (hint : m.code 0 = 0xcd)
    (h₁ : handleVm86Gpf P m = .handled m₁) (hframe : FrameOnTop m₁ m₂) (hiret : m₂.code 0 = 0xcf)
    (hfinal : ¬ m₂.Final) :
    ∃ m₃, handleVm86Gpf P m₂ = .handled m₃ ∧ ¬ Resumes m.cpu m₃.cpu ∧
      m₃.cpu.eip = (m.cpu.eip + 1) &&& 0xffff ∧ m₃.cpu.cs = m.cpu.cs &&& 0xffff ∧
      m₃.cpu.esp = m.cpu.esp &&& 0xffff ∧
      m₃.cpu.eflags &&& 0xffff = (m.cpu.eflags &&& 0xffff) ||| 0x0200 := by
  rw [handleVm86Gpf_int P hint] at h₁
  cases h₁
  obtain ⟨heip, hcs, hesp, hflags⟩ := int_iret hframe
  exact ⟨_, handleVm86Gpf_iret P hiret hfinal, fun h => succ_ne_two m.cpu.eip (heip.symm.trans h.eip),
    heip, hcs, hesp, hflags⟩

/-- No devices. -/
def noPorts : Ports Unit where
  in8 _ _ := (0, ())
  in16 _ _ := (0, ())
  in32 _ _ := (0, ())
  out8 _ _ _ := ()
  out16 _ _ _ := ()
  out32 _ _ _ := ()

/-- `int 0x10` at 0000:0100, with a handler at 0000:0200 that is a single `iret`. -/
def caller : Machine Unit where
  cpu := {
    ebp := 0, edi := 0, esi := 0, edx := 0, ecx := 0, ebx := 0, eax := 0
    eip := 0x100
    cs := 0
    eflags := 0x20202
    esp := 0x7bf0
    ss := 0
    vm86Es := 0, vm86Ds := 0, vm86Fs := 0, vm86Gs := 0 }
  mem a := if a = 0x100 then 0xcd else if a = 0x101 then 0x10 else if a = 0x41 then 0x02
    else if a = 0x200 then 0xcf else 0
  devices := ()

theorem caller_frameOnTop : FrameOnTop caller.int caller.int :=
  ⟨rfl, rfl, fun _ _ => rfl⟩

/-- The theorem at this thread. -/
theorem int_iret_never_resumes_caller :
    ∃ m₃, handleVm86Gpf noPorts caller.int = .handled m₃ ∧ ¬ Resumes caller.cpu m₃.cpu := by
  have hint : caller.code 0 = 0xcd := by decide
  have hiret : caller.int.code 0 = 0xcf := by decide
  have h₁ : handleVm86Gpf noPorts caller = .handled caller.int := handleVm86Gpf_int noPorts hint
  obtain ⟨m₃, h₃, hres, -⟩ :=
    int_iret_never_resumes noPorts hint h₁ caller_frameOnTop hiret (by decide)
  exact ⟨m₃, h₃, hres⟩

/-- The thread comes back to 0000:0101, not to 0000:0102. -/
theorem int_iret_second_byte :
    caller.code 0 = 0xcd ∧ handleVm86Gpf noPorts caller = .handled caller.int ∧
      FrameOnTop caller.int caller.int ∧ caller.int.code 0 = 0xcf ∧ ¬ caller.int.Final ∧
      ∃ m₃, handleVm86Gpf noPorts caller.int = .handled m₃ ∧ m₃.cpu.eip = 0x101 ∧
        ¬ Resumes caller.cpu m₃.cpu := by
  have heip : (caller.int.iret.codeAdd 1).cpu.eip = 0x101 := by decide
  refine ⟨by decide, handleVm86Gpf_int noPorts (by decide), caller_frameOnTop, by decide, by decide,
    _, handleVm86Gpf_iret noPorts (by decide) (by decide), heip, fun h => ?_⟩
  have hback := heip.symm.trans h.eip
  exact absurd hback (by decide)

end Muxomucota.Vm86
