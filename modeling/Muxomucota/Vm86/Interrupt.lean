import Muxomucota.Mmu.Heap
import Muxomucota.Vm86.Machine

/-!
# Vm86 — `vm86_interrupt`

`vm86_interrupt` checks the memory areas of its caller, copies the first 640 KiB and the caller's data
into a block of the kernel's, maps this block and the pages up to 1 MiB at address 0 of the caller, lets a
VM86 thread run there, copies the results to the caller, and unmaps the first 640 KiB.  The list of areas
stays in the caller's memory: each of the three loops reads it anew, and the last one reads what the copies
before have left of it.

`vm86_copies_inside_iff`: what the check lets through stays inside on the side of the VM86 memory, and on
the caller's side if and only if the end of each area does, as long as no copy goes into the list.
-/

namespace Muxomucota.Vm86
open Mmu

/-! ### Areas -/

/-- `struct vm86_memory_area` -/
structure Area where
  vm : BitVec 32
  caller : BitVec 32
  size : BitVec 32
  isIn : Bool
  isOut : Bool
  deriving DecidableEq

inductive Errno where
  | einval
  | efault
  deriving DecidableEq

namespace Area

/-- One half of the check, with the limit of its direction. -/
def outside (a : Area) (limit : BitVec 32) : Bool :=
  limit ≤ a.vm || limit < a.vm + a.size || limit < a.size || isKernel a.caller.toNat

/-- The body of the check loop. -/
def refused (a : Area) : Bool := (a.isIn && a.outside 0xa0000) || (a.isOut && a.outside 0x100000)

end Area

/-- `mem[i]` -/
def areaAt (bytes : Memory) (list : BitVec 32) (i : Nat) : Area :=
  let a := list + .ofNat 32 (16 * i)
  { vm := bytes.dword a, caller := bytes.dword (a + 4), size := bytes.dword (a + 8),
    isIn := bytes (a + 12) ≠ 0, isOut := bytes (a + 13) ≠ 0 }

/-- The list of `n` areas. -/
def areasAt (bytes : Memory) (list : BitVec 32) (n : Nat) : List Area :=
  (List.range n).map (areaAt bytes list)

/-- What is checked before anything is done. -/
def check (bytes : Memory) (intr list : BitVec 32) (n : Nat) : Option Errno :=
  if intr &&& ~~~0xff ≠ 0 then some .einval
  else if (areasAt bytes list n).any Area.refused then some .efault
  else none

/-! ### Copies -/

/-- `memcpy` -/
def memcpy (bytes : Memory) (dst src : BitVec 32) : Nat → Memory
  | 0 => bytes
  | n + 1 => memcpy (Function.update bytes dst (bytes src)) (dst + 1) (src + 1) n

/-- A `memcpy` between an address on the side of the VM86 memory and one of the caller's. -/
structure Copy where
  vm : BitVec 32
  caller : BitVec 32
  size : BitVec 32
  deriving DecidableEq

/-- `first_mb_copy`: the first page that begins in the block at `base`. -/
def firstMbCopy (base : BitVec 32) : BitVec 32 := (base + 0xfff) &&& ~~~0xfff

/-- A turn of a loop over the areas, with the copies that have been made. -/
def copyTurn (wanted : Area → Bool) (made : Area → Copy) (move : Copy → Memory → Memory)
    (list : BitVec 32) (s : List Copy × Memory) (i : Nat) : List Copy × Memory :=
  let a := areaAt s.2 list i
  if wanted a then (s.1 ++ [made a], move (made a) s.2) else s

def copyLoop (wanted : Area → Bool) (made : Area → Copy) (move : Copy → Memory → Memory)
    (list : BitVec 32) (n : Nat) (bytes : Memory) : List Copy × Memory :=
  (List.range n).foldl (copyTurn wanted made move list) ([], bytes)

/-- The copies before the thread runs, to the block of the kernel. -/
def copyIn (copy list : BitVec 32) (n : Nat) (bytes : Memory) : List Copy × Memory :=
  copyLoop Area.isIn (fun a => ⟨copy + a.vm, a.caller, a.size⟩)
    (fun c bytes => memcpy bytes c.vm c.caller c.size.toNat) list n bytes

/-- The copies after it has run. -/
def copyOut (list : BitVec 32) (n : Nat) (bytes : Memory) : List Copy × Memory :=
  copyLoop Area.isOut (fun a => ⟨a.vm, a.caller, a.size⟩)
    (fun c bytes => memcpy bytes c.caller c.vm c.size.toNat) list n bytes

/-! ### The function -/

/-- The address space of the caller: its page tables, and what is at its addresses. -/
structure Space where
  mem : Mem
  bytes : Memory

/-- What `vm86_interrupt` does with other functions: `kmalloc(0xa0fff)`, the copy of the first 640 KiB
(`kernel_map`, `memcpy` and `kernel_unmap`), what page faults on the way of the other copies do to the page
tables, the thread from `create_user_thread` to `raw_waitpid`, and `kfree`.  What other threads do meanwhile
belongs to them.  `rom` is the upper part of the first mebibyte. -/
structure Calls where
  kmalloc : Space → Option (BitVec 32 × Space)
  copyLow : BitVec 32 → Space → Option Space
  faults : List Copy → Mem → Option Mem
  rom : Memory
  run : Space → Option Space
  kfree : Space → Option Space

/-- `VMM_UR | VMM_UW | VMM_UX | VMM_PR | VMM_PW` -/
def vm86Flags : BitVec 32 := vmmUr ||| vmmUw ||| vmmUx ||| vmmPr ||| vmmPw

/-- A round of the loop over the pages below 1 MiB. -/
def mapLowPage (pd : Nat) (copy : BitVec 32) (m : Mem) (i : Nat) : Option Mem :=
  let addr := 4096 * i
  if 0xa0000 ≤ addr then -- video memory and ROM
    vmmcMapUserPage m pd addr i vm86Flags
  else -- RAM
    let mapping := vmmcAddressMapped m pd (copy + .ofNat 32 addr).toNat
    if mapping.1 &&& vmmPr = 0 then none -- the assertion
    else vmmcMapUserPage m pd addr mapping.2 vm86Flags

def mapFirstMb (pd : Nat) (copy : BitVec 32) (m : Mem) : Option Mem :=
  (List.range 256).foldlM (mapLowPage pd copy) m

/-- What is at the caller's addresses when they are mapped. -/
def showFirstMb (rom : Memory) (copy : BitVec 32) (bytes : Memory) : Memory := fun a =>
  if a < 0xa0000 then bytes (copy + a) else if a < 0x100000 then rom a else bytes a

/-- `vm86_interrupt` in the address space of its caller, with the list of `n` areas at `list`. -/
def vm86Interrupt (calls : Calls) (s : Space) (pd : Nat) (intr list : BitVec 32) (n : Nat) :
    Option (Option Errno × Space) :=
  match check s.bytes intr list n with
  | some e => some (some e, s)
  | none => do
      let (base, s) ← calls.kmalloc s
      let copy := firstMbCopy base
      let s ← calls.copyLow copy s
      let (copies, bytes) := copyIn copy list n s.bytes
      let m ← calls.faults copies s.mem
      let m ← mapFirstMb pd copy m
      let s ← calls.run ⟨m, showFirstMb calls.rom copy bytes⟩
      let s ← calls.kfree s
      let (copies, bytes) := copyOut list n s.bytes
      let m ← calls.faults copies s.mem
      let m ← vmmcUserUnmap m pd 0 0xa0000
      pure (none, ⟨m, bytes⟩)

/-! ### What the check lets through -/

/-- On the VM86 side every byte is one of the `length` bytes from `start` on, and on the caller's side
every byte is below the kernel; no address wraps. -/
def Copy.Inside (start length : Nat) (c : Copy) : Prop :=
  ∀ k < c.size.toNat, start ≤ c.vm.toNat + k ∧ c.vm.toNat + k < start + length ∧
    c.caller.toNat + k < physBase

/-- The end of the caller's range is below the kernel as well, or nothing is copied. -/
def Area.Below (a : Area) : Prop := a.size = 0 ∨ a.caller.toNat + a.size.toNat ≤ physBase

instance (a : Area) : Decidable a.Below := inferInstanceAs (Decidable (_ ∨ _))

/-- The caller's range and the list of `n` areas have no byte in common. -/
def Area.Beside (a : Area) (list : BitVec 32) (n : Nat) : Prop :=
  a.caller.toNat + a.size.toNat ≤ list.toNat ∨ list.toNat + 16 * n ≤ a.caller.toNat

instance (a : Area) (list : BitVec 32) (n : Nat) : Decidable (a.Beside list n) :=
  inferInstanceAs (Decidable (_ ∨ _))

/-- What one half of the check says: only the beginning of the caller's range is looked at. -/
theorem Area.not_outside {a : Area} {limit : BitVec 32} (hlimit : limit.toNat ≤ 0x100000)
    (h : a.outside limit = false) :
    a.vm.toNat < limit.toNat ∧ a.vm.toNat + a.size.toNat ≤ limit.toNat ∧
      a.caller.toNat < physBase := by
  simp only [outside, Bool.or_eq_false_iff, decide_eq_false_iff_not, BitVec.not_le, BitVec.not_lt,
    isKernel, Nat.not_le] at h
  obtain ⟨⟨⟨hvm, hsum⟩, hsize⟩, hcaller⟩ := h
  rw [BitVec.le_def, BitVec.toNat_add] at hsum
  rw [BitVec.lt_def] at hvm
  rw [BitVec.le_def] at hsize
  exact ⟨hvm, by omega, hcaller⟩

theorem check_none {bytes : Memory} {intr list : BitVec 32} {n : Nat}
    (h : check bytes intr list n = none) {a : Area} (ha : a ∈ areasAt bytes list n) :
    a.refused = false := by
  unfold check at h
  split_ifs at h with hi hany
  rw [Bool.not_eq_true, List.any_eq_false] at hany
  simpa using hany a ha

/-! ### The list -/

/-- The bytes of the list are the same. -/
def SameList (list : BitVec 32) (n : Nat) (bytes bytes' : Memory) : Prop :=
  ∀ x, (x - list).toNat < 16 * n → bytes' x = bytes x

theorem Memory.dword_congr {mem mem' : Memory} {a : BitVec 32}
    (h : ∀ x, (x - a).toNat < 4 → mem' x = mem x) : mem'.dword a = mem.dword a := by
  rw [dword, dword, h (a + 3) (by bv_omega), h (a + 2) (by bv_omega), h (a + 1) (by bv_omega),
    h a (by bv_omega)]

theorem SameList.areaAt {bytes bytes' : Memory} {list : BitVec 32} {n i : Nat}
    (h : SameList list n bytes bytes') (hi : i < n) : areaAt bytes' list i = areaAt bytes list i := by
  have hbyte : ∀ x, (x - (list + .ofNat 32 (16 * i))).toNat < 16 → bytes' x = bytes x :=
    fun x hx => h x (by bv_omega)
  unfold Vm86.areaAt
  generalize list + .ofNat 32 (16 * i) = a at hbyte ⊢
  have hdword : ∀ d, (d - a).toNat ≤ 12 → bytes'.dword d = bytes.dword d :=
    fun d hd => Memory.dword_congr fun x hx => hbyte x (by bv_omega)
  dsimp only
  rw [hdword a (by bv_omega), hdword (a + 4) (by bv_omega), hdword (a + 8) (by bv_omega),
    hbyte (a + 12) (by bv_omega), hbyte (a + 13) (by bv_omega)]

theorem SameList.areasAt {bytes bytes' : Memory} {list : BitVec 32} {n : Nat}
    (h : SameList list n bytes bytes') : areasAt bytes' list n = areasAt bytes list n :=
  List.map_congr_left fun _ hi => h.areaAt (List.mem_range.mp hi)

theorem areasAt_succ (bytes : Memory) (list : BitVec 32) (k : Nat) :
    areasAt bytes list (k + 1) = areasAt bytes list k ++ [areaAt bytes list k] := by
  rw [areasAt, List.range_succ, List.map_append]
  rfl

/-- A `memcpy` writes nothing but its destination. -/
theorem memcpy_of_outside {bytes : Memory} {dst src x : BitVec 32} {n : Nat}
    (h : ∀ k < n, x ≠ dst + .ofNat 32 k) : memcpy bytes dst src n x = bytes x := by
  induction n generalizing bytes dst src with
  | zero => rfl
  | succ n ih =>
      have hfirst : x ≠ dst := by simpa using h 0 (Nat.succ_pos n)
      rw [memcpy, ih fun k hk => ?_, Function.update_of_ne hfirst]
      have hnext := h (k + 1) (by omega)
      rwa [Nat.add_comm, BitVec.ofNat_add, ← BitVec.add_assoc] at hnext

/-- A destination beside the list, in the address space. -/
theorem SameList.memcpy {bytes : Memory} {list dst src : BitVec 32} {n size : Nat}
    (hlist : list.toNat + 16 * n ≤ 2 ^ 32) (hdst : dst.toNat + size ≤ 2 ^ 32)
    (h : dst.toNat + size ≤ list.toNat ∨ list.toNat + 16 * n ≤ dst.toNat) :
    SameList list n bytes (Vm86.memcpy bytes dst src size) := fun x hx =>
  memcpy_of_outside fun k hk heq => by
    have hnat := congrArg BitVec.toNat heq
    rw [BitVec.toNat_add, BitVec.toNat_ofNat] at hnat
    rw [BitVec.toNat_sub] at hx
    omega

/-- A loop whose copies leave the list alone makes those that the list asks for. -/
theorem copyLoop_eq {wanted : Area → Bool} {made : Area → Copy} {move : Copy → Memory → Memory}
    {list : BitVec 32} {n : Nat} {bytes : Memory}
    (h : ∀ a ∈ areasAt bytes list n, wanted a → ∀ b, SameList list n b (move (made a) b)) :
    (copyLoop wanted made move list n bytes).1 = ((areasAt bytes list n).filter wanted).map made := by
  suffices hloop : ∀ k ≤ n, ∃ b, SameList list n bytes b ∧
      (List.range k).foldl (copyTurn wanted made move list) ([], bytes) =
        (((areasAt bytes list k).filter wanted).map made, b) by
    obtain ⟨b, -, heq⟩ := hloop n (Nat.le_refl n)
    exact congrArg Prod.fst heq
  intro k hk
  induction k with
  | zero => exact ⟨bytes, fun _ _ => rfl, rfl⟩
  | succ k ih =>
      obtain ⟨b, hsame, heq⟩ := ih (by omega)
      have hmem : areaAt bytes list k ∈ areasAt bytes list n :=
        List.mem_map.mpr ⟨k, List.mem_range.mpr hk, rfl⟩
      rw [List.range_succ, List.foldl_concat, heq, areasAt_succ, List.filter_append, List.map_append,
        copyTurn]
      dsimp only
      rw [hsame.areaAt hk]
      split_ifs with hw
      · rw [List.filter_cons_of_pos hw, List.filter_nil, List.map_singleton]
        exact ⟨_, fun x hx => (h _ hmem hw b x hx).trans (hsame x hx), rfl⟩
      · rw [List.filter_cons_of_neg hw, List.filter_nil, List.map_nil, List.append_nil]
        exact ⟨b, hsame, rfl⟩

/-- `x & ~0xfff` -/
theorem and_not_fff_toNat (x : BitVec 32) : (x &&& ~~~(0xfff : BitVec 32)).toNat = x.toNat / 4096 * 4096 := by
  have hmask : x &&& ~~~(0xfff : BitVec 32) = (x >>> 12) <<< 12 := by
    refine BitVec.eq_of_getLsbD_eq fun i hi => ?_
    have hlow : (~~~(0xfff : BitVec 32)).getLsbD i = decide (12 ≤ i) := by
      revert i
      decide
    rw [BitVec.getLsbD_and, hlow, BitVec.getLsbD_shiftLeft, BitVec.getLsbD_ushiftRight]
    by_cases h12 : 12 ≤ i
    · have heq : 12 + (i - 12) = i := by omega
      simp [h12, hi, heq]
    · simp [h12]
  rw [hmask, BitVec.toNat_shiftLeft, BitVec.toNat_ushiftRight, Nat.shiftLeft_eq,
    Nat.shiftRight_eq_div_pow]
  omega

/-- The block has room for 640 KiB from the first page that begins in it. -/
theorem firstMbCopy_toNat {base : BitVec 32} (hbase : base.toNat + 0xa0fff ≤ 2 ^ 32) :
    base.toNat ≤ (firstMbCopy base).toNat ∧
      (firstMbCopy base).toNat + 0xa0000 ≤ base.toNat + 0xa0fff := by
  have hadd : (base + 0xfff).toNat = base.toNat + 0xfff := by
    rw [BitVec.toNat_add, show (0xfff : BitVec 32).toNat = 0xfff from rfl]
    omega
  have hround : (firstMbCopy base).toNat = (base.toNat + 0xfff) / 4096 * 4096 := by
    unfold firstMbCopy
    rw [and_not_fff_toNat, hadd]
  omega

/-- One copy: the VM86 side is inside; the caller's side is if and only if its end is. -/
theorem Copy.inside_iff {a : Area} {start length : Nat} {vm : BitVec 32}
    (hvm : vm.toNat = start + a.vm.toNat) (hin : a.vm.toNat + a.size.toNat ≤ length) :
    Copy.Inside start length ⟨vm, a.caller, a.size⟩ ↔ a.Below := by
  have hzero : a.size = 0 ↔ a.size.toNat = 0 := by
    rw [← BitVec.toNat_inj]
    rfl
  unfold Copy.Inside Area.Below
  rw [hzero]
  dsimp only
  constructor
  · intro h
    rcases Nat.eq_zero_or_pos a.size.toNat with h0 | hpos
    · exact .inl h0
    · obtain ⟨-, -, hlast⟩ := h (a.size.toNat - 1) (by omega)
      exact .inr (by omega)
  · intro h k hk
    rw [hvm]
    rcases h with h0 | hend <;> omega

/-- **The copies of `vm86_interrupt`**: past the check every copy is inside its part of the low memory and
below the kernel, without an address that wraps, if and only if every area that is copied ends below the
kernel.  The list is the caller's, and reads in each loop as it did in the check: so `loaded` and `left`, the
memory where the copies before and after the thread begin, and no copy after it goes into the list. -/
theorem vm86_copies_inside_iff {bytes loaded left : Memory} {intr list base : BitVec 32} {n : Nat}
    (hbase : physBase ≤ base.toNat ∧ base.toNat + 0xa0fff ≤ 2 ^ 32)
    (hlist : list.toNat + 16 * n ≤ physBase) (hloaded : SameList list n bytes loaded)
    (hleft : SameList list n bytes left) (hcheck : check bytes intr list n = none)
    (hbeside : ∀ a ∈ areasAt bytes list n, a.isOut → a.Beside list n) :
    ((∀ c ∈ (copyIn (firstMbCopy base) list n loaded).1, c.Inside (firstMbCopy base).toNat 0xa0000) ∧
      ∀ c ∈ (copyOut list n left).1, c.Inside 0 0x100000) ↔
      ∀ a ∈ areasAt bytes list n, a.isIn ∨ a.isOut → a.Below := by
  have hblock := firstMbCopy_toNat hbase.2
  have hphys : physBase = 0xF0000000 := rfl
  have hin : ∀ a ∈ areasAt bytes list n, a.isIn →
      (firstMbCopy base + a.vm).toNat = (firstMbCopy base).toNat + a.vm.toNat ∧
        a.vm.toNat + a.size.toNat ≤ 0xa0000 := by
    intro a ha hisIn
    have href := check_none hcheck ha
    rw [Area.refused, hisIn, Bool.true_and, Bool.or_eq_false_iff] at href
    obtain ⟨hlt, hle, -⟩ := Area.not_outside (by decide) href.1
    rw [show (0xa0000 : BitVec 32).toNat = 0xa0000 from rfl] at hlt hle
    refine ⟨?_, hle⟩
    rw [BitVec.toNat_add]
    omega
  have hout : ∀ a ∈ areasAt bytes list n, a.isOut →
      a.vm.toNat + a.size.toNat ≤ 0x100000 ∧ a.caller.toNat < physBase := by
    intro a ha hisOut
    have href := check_none hcheck ha
    rw [Area.refused, hisOut, Bool.true_and, Bool.or_eq_false_iff] at href
    exact (Area.not_outside (by decide) href.2).2
  have hcopyIn : (copyIn (firstMbCopy base) list n loaded).1 =
      ((areasAt bytes list n).filter Area.isIn).map
        fun a => ⟨firstMbCopy base + a.vm, a.caller, a.size⟩ := by
    rw [← hloaded.areasAt]
    refine copyLoop_eq fun a ha hisIn b => ?_
    rw [hloaded.areasAt] at ha
    obtain ⟨hadd, hle⟩ := hin a ha hisIn
    exact .memcpy (by omega) (by dsimp only; omega) (.inr (by dsimp only; omega))
  have hcopyOut : (copyOut list n left).1 =
      ((areasAt bytes list n).filter Area.isOut).map fun a => ⟨a.vm, a.caller, a.size⟩ := by
    rw [← hleft.areasAt]
    refine copyLoop_eq fun a ha hisOut b => ?_
    rw [hleft.areasAt] at ha
    obtain ⟨hle, hcaller⟩ := hout a ha hisOut
    exact .memcpy (by omega) (by dsimp only; omega) (hbeside a ha hisOut)
  rw [hcopyIn, hcopyOut, List.forall_mem_map, List.forall_mem_map]
  have hinside : ∀ a ∈ areasAt bytes list n, a.isIn → (Copy.Inside (firstMbCopy base).toNat 0xa0000
      ⟨firstMbCopy base + a.vm, a.caller, a.size⟩ ↔ a.Below) := fun a ha hisIn =>
    Copy.inside_iff (hin a ha hisIn).1 (hin a ha hisIn).2
  have hresult : ∀ a ∈ areasAt bytes list n, a.isOut →
      (Copy.Inside 0 0x100000 ⟨a.vm, a.caller, a.size⟩ ↔ a.Below) := fun a ha hisOut =>
    Copy.inside_iff (Nat.zero_add _).symm (hout a ha hisOut).1
  constructor
  · rintro ⟨h1, h2⟩ a ha (hi | ho)
    · exact (hinside a ha hi).mp (h1 a (List.mem_filter.mpr ⟨ha, hi⟩))
    · exact (hresult a ha ho).mp (h2 a (List.mem_filter.mpr ⟨ha, ho⟩))
  · intro h
    refine ⟨fun a ha => ?_, fun a ha => ?_⟩
    · obtain ⟨ha, hi⟩ := List.mem_filter.mp ha
      exact (hinside a ha hi).mpr (h a ha (.inl hi))
    · obtain ⟨ha, ho⟩ := List.mem_filter.mp ha
      exact (hresult a ha ho).mpr (h a ha (.inr ho))

/-- An entry of a list. -/
def Memory.setArea (mem : Memory) (addr : BitVec 32) (a : Area) : Memory :=
  let mem := ((mem.store addr a.vm 4).store (addr + 4) a.caller 4).store (addr + 8) a.size 4
  Function.update (Function.update mem (addr + 12) (if a.isIn then 1 else 0)) (addr + 13)
    (if a.isOut then 1 else 0)

/-- A boot sector goes in, and the whole first mebibyte comes out. -/
def sectorAndScreen : Memory :=
  (Memory.setArea (fun _ => 0) 0x8200000 ⟨0x7c00, 0x8000000, 0x200, true, false⟩).setArea 0x8200010
    ⟨0, 0x8100000, 0x100000, false, true⟩

theorem sectorAndScreen_areas : areasAt sectorAndScreen 0x8200000 2 =
    [⟨0x7c00, 0x8000000, 0x200, true, false⟩, ⟨0, 0x8100000, 0x100000, false, true⟩] := by decide

theorem vm86_copies_inside_firstMb :
    (∀ c ∈ (copyIn (firstMbCopy 0xF0400000) 0x8200000 2 sectorAndScreen).1,
      c.Inside (firstMbCopy 0xF0400000).toNat 0xa0000) ∧
      ∀ c ∈ (copyOut 0x8200000 2 sectorAndScreen).1, c.Inside 0 0x100000 := by
  have hcheck : check sectorAndScreen 0x10 0x8200000 2 = none := by decide
  refine (vm86_copies_inside_iff (by decide) (by decide) (fun _ _ => rfl) (fun _ _ => rfl) hcheck ?_).mpr ?_
  · rw [sectorAndScreen_areas]
    decide
  · rw [sectorAndScreen_areas]
    decide

/-- A range of two pages that begins in the last page below the kernel. -/
def lastPage : Memory := Memory.setArea (fun _ => 0) 0x8000000 ⟨0, 0xEFFFF000, 0x2000, false, true⟩

/-- It passes the check, and the second page of the results goes to the kernel's memory. -/
theorem vm86_copy_reaches_kernel :
    check lastPage 0x10 0x8000000 1 = none ∧
      ∃ c ∈ (copyOut 0x8000000 1 lastPage).1, ¬ c.Inside 0 0x100000 := by
  refine ⟨by decide, ⟨0, 0xEFFFF000, 0x2000⟩, by decide, fun h => ?_⟩
  obtain ⟨-, -, hbelow⟩ := h 0x1000 (by decide)
  exact absurd hbelow (by decide)

/-- Two areas, of which the first comes out of the low memory over the second; there it says `0xF0000000`. -/
def overList : Memory :=
  ((Memory.setArea (fun _ => 0) 0x8000000 ⟨0x1000, 0x8000010, 0x10, false, true⟩).setArea 0x8000010
    ⟨0x2000, 0x8001000, 0x10, false, true⟩).setArea 0x1000 ⟨0x2000, 0xF0000000, 0x10, false, true⟩

/-- Without `Area.Beside` both areas end below the kernel, and the second copy begins in it. -/
example : check overList 0x10 0x8000000 2 = none ∧ (∀ a ∈ areasAt overList 0x8000000 2, a.Below) ∧
    (copyOut 0x8000000 2 overList).1 = [⟨0x1000, 0x8000010, 0x10⟩, ⟨0x2000, 0xF0000000, 0x10⟩] := by
  decide

end Muxomucota.Vm86
