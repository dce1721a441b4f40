import Muxomucota.Lib.Runs
import Mathlib.Algebra.Group.Nat.Defs
import Mathlib.Data.List.Basic

/-!
# Vfs — positioned reads

`service_stream_recv` and `service_pipe_set_flag` of three services whose files are read at a position:
`tar.c`, `pci.c` and `mboot-modules.c`.  A position is an `off_t`, the size of a file a `size_t` of 32 bits,
and a request has 64 bits.  Tar and PCI take every position they are given; the modules compare a request as
an `int`.
-/

namespace Muxomucota.Vfs
open Lib

/-! ### Files -/

/-- Where the bytes of a file are: in memory, or in the 256 registers of a PCI function, of which
`struct pci_config_space` has the first 64. -/
inductive FileSource where
  | memory (bytes : List (BitVec 8))
  | registers (regs : BitVec 8 → BitVec 8)

def FileSource.contents : FileSource → List (BitVec 8)
  | .memory bytes => bytes
  | .registers regs => (List.range 64).map fun i => regs (.ofNat 8 i)

/-- `n` bytes from the position on; a read outside the memory gives `none`.  A pointer has 32 bits, and the
registers are read in a loop that counts with an `int`. -/
def FileSource.copy (s : FileSource) (off : BitVec 64) (n : BitVec 32) : Option (List (BitVec 8)) :=
  match s with
  | .memory bytes =>
      let start := (off.setWidth 32).toNat
      if n = 0 then some []
      else if start + n.toNat ≤ bytes.length then some ((bytes.drop start).take n.toNat)
      else none
  | .registers regs =>
      some ((List.range n.toInt.toNat).map fun i => regs (off.setWidth 8 + .ofNat 8 i))

/-- A handle; the file is not larger than a `size_t` can say. -/
structure OpenFile where
  source : FileSource
  off : BitVec 64
  fits : source.contents.length < 2 ^ 32

namespace OpenFile

/-- The size of the file, as the handle has it. -/
def sz (f : OpenFile) : BitVec 32 := .ofNat 32 f.source.contents.length

/-- A handle as `service_create_pipe` makes it. -/
def fresh (source : FileSource) (fits : source.contents.length < 2 ^ 32) : OpenFile :=
  { source, off := 0, fits }

/-- `F_PRESSURE`, in all three services. -/
def pressure (f : OpenFile) : BitVec 64 := f.sz.setWidth 64 - f.off

end OpenFile

/-! ### The services -/

inductive FileService where
  | tar
  | pci
  | mbootModules

/-- `copysz` of `tar.c`. -/
def tarCopySize (f : OpenFile) (size : BitVec 64) : BitVec 32 :=
  let copysz := (f.sz.setWidth 64 - f.off).setWidth 32
  if size < copysz.setWidth 64 then size.setWidth 32 else copysz

/-- `copy_sz` of `pci.c`. -/
def pciCopySize (f : OpenFile) (size : BitVec 64) : BitVec 32 :=
  let rest := f.sz - f.off.setWidth 32
  if size < rest.setWidth 64 then size.setWidth 32 else rest

/-- `copy_sz` of `mboot-modules.c`. -/
def mbootCopySize (f : OpenFile) (size : BitVec 64) : BitVec 32 :=
  let rest := f.sz.setWidth 64 - f.off
  if (size.setWidth 32).toInt ≤ rest.toInt then size.setWidth 32 else rest.setWidth 32

namespace FileService

def copySize : FileService → OpenFile → BitVec 64 → BitVec 32
  | .tar => tarCopySize
  | .pci => pciCopySize
  | .mbootModules => mbootCopySize

/-- `F_POSITION`. -/
def setPosition : FileService → OpenFile → BitVec 64 → OpenFile
  | .tar, f, value => { f with off := value }
  | .pci, f, value => { f with off := value }
  | .mbootModules, f, value =>
      { f with off := if f.sz.setWidth 64 < value then f.sz.setWidth 64 else value }

/-- `service_stream_recv`: the bytes, what is returned, and the handle. -/
def streamRecv (svc : FileService) (f : OpenFile) (size : BitVec 64) :
    Option (List (BitVec 8) × BitVec 32 × OpenFile) :=
  let n := svc.copySize f size
  (f.source.copy f.off n).map fun data => (data, n, { f with off := f.off + n.setWidth 64 })

/-- The calls on handles. -/
inductive Call where
  | position (id : Nat) (value : BitVec 64)
  | recv (id : Nat) (size : BitVec 64)
  | duplicate (id : Nat)

/-- The handles after a call.  A call on a handle that is not there changes nothing, and after a read
outside the memory nothing counts any more. -/
def after (svc : FileService) (hs : List OpenFile) : Call → List OpenFile
  | .position id value => hs.modify id fun f => svc.setPosition f value
  | .recv id size => hs.modify id fun f => ((svc.streamRecv f size).map fun r => r.2.2).getD f
  | .duplicate id => hs ++ hs[id]?.toList

def step (svc : FileService) (hs : List OpenFile) (c : Call) : Option (List OpenFile) :=
  some (svc.after hs c)

end FileService

/-! ### What is asked of them -/

namespace OpenFile

/-- What a read of `size` bytes should give. -/
def expected (f : OpenFile) (size : BitVec 64) : List (BitVec 8) :=
  (f.source.contents.drop f.off.toNat).take size.toNat

/-- `F_PRESSURE` is what is left of the file. -/
def PressureRight (f : OpenFile) : Prop :=
  f.pressure.toNat = f.source.contents.length - f.off.toNat

/-- The position is in the file, or at its end. -/
def Inside (f : OpenFile) : Prop := f.off.toNat ≤ f.source.contents.length

end OpenFile

namespace FileService

/-- A read gives the bytes from the position on, as many as the request and the file have, and goes on by
their number. -/
def ReadsRight (svc : FileService) (f : OpenFile) (size : BitVec 64) : Prop :=
  ∃ n f', svc.streamRecv f size = some (f.expected size, n, f') ∧
    n.toNat = (f.expected size).length ∧ f'.off.toNat = f.off.toNat + (f.expected size).length ∧
    f'.PressureRight

/-- The call is right, and the pressure behind it. -/
def Right (svc : FileService) (hs : List OpenFile) : Call → Prop
  | .position id value => ∀ f, hs[id]? = some f → (svc.setPosition f value).PressureRight
  | .recv id size => ∀ f, hs[id]? = some f → svc.ReadsRight f size
  | .duplicate id => ∀ f, hs[id]? = some f → f.PressureRight

/-- Requests for which the comparison as an `int` does not matter, with `rest` bytes left. -/
def IntSafe (size rest : Nat) : Prop :=
  size < 2 ^ 31 ∨ (size < 2 ^ 32 ∧ size ≤ rest) ∨
    (2 ^ 32 ≤ size ∧ (size % 2 ^ 32 < 2 ^ 31 ∧ rest ≤ size % 2 ^ 32 ∨ size % 2 ^ 32 = rest))

/-- The condition: tar and PCI are given positions in the file alone, and the modules are asked for what an
`int` can say. -/
def Allowed (svc : FileService) (hs : List OpenFile) : Call → Prop
  | .position id value =>
      match svc with
      | .mbootModules => True
      | .tar | .pci => ∀ f, hs[id]? = some f → value.toNat ≤ f.source.contents.length
  | .recv id size =>
      match svc with
      | .mbootModules =>
          ∀ f, hs[id]? = some f → IntSafe size.toNat (f.source.contents.length - f.off.toNat)
      | .tar | .pci => True
  | .duplicate _ => True

end FileService

/-! ### Sizes -/

variable {f : OpenFile} {size value : BitVec 64}

theorem OpenFile.sz_toNat (f : OpenFile) : f.sz.toNat = f.source.contents.length :=
  Nat.mod_eq_of_lt f.fits

theorem OpenFile.sz64_toNat (f : OpenFile) : (f.sz.setWidth 64).toNat = f.source.contents.length := by
  have := f.fits
  rw [BitVec.toNat_setWidth, f.sz_toNat]
  omega

theorem rest_toNat (h : f.Inside) :
    (f.sz.setWidth 64 - f.off).toNat = f.source.contents.length - f.off.toNat := by
  rw [BitVec.toNat_sub_of_le (by rw [BitVec.le_def, f.sz64_toNat]; exact h), f.sz64_toNat]

/-- The pressure is right exactly up to the end of the file. -/
theorem pressureRight_iff (f : OpenFile) : f.PressureRight ↔ f.Inside := by
  have := f.fits
  have hoff := f.off.isLt
  unfold OpenFile.PressureRight OpenFile.pressure OpenFile.Inside
  rw [BitVec.toNat_sub, f.sz64_toNat]
  omega

/-- What the least of two sizes is, as tar and PCI compute it. -/
theorem least_toNat {rest : BitVec 32} :
    (if size < rest.setWidth 64 then size.setWidth 32 else rest).toNat = min size.toNat rest.toNat := by
  have hrest := rest.isLt
  have h64 : (rest.setWidth 64).toNat = rest.toNat := by
    rw [BitVec.toNat_setWidth]
    omega
  split
  · rename_i h
    rw [BitVec.lt_def, h64] at h
    rw [BitVec.toNat_setWidth, Nat.mod_eq_of_lt (by omega)]
    omega
  · rename_i h
    rw [BitVec.lt_def, h64] at h
    omega

theorem tarCopySize_toNat (h : f.Inside) :
    (tarCopySize f size).toNat = min size.toNat (f.source.contents.length - f.off.toNat) := by
  have := f.fits
  rw [tarCopySize, least_toNat, BitVec.toNat_setWidth, rest_toNat h, Nat.mod_eq_of_lt (by omega)]

theorem pciCopySize_toNat (h : f.Inside) :
    (pciCopySize f size).toNat = min size.toNat (f.source.contents.length - f.off.toNat) := by
  have hfits := f.fits
  have hin : f.off.toNat ≤ f.source.contents.length := h
  have hoff : (f.off.setWidth 32).toNat = f.off.toNat := by
    rw [BitVec.toNat_setWidth, Nat.mod_eq_of_lt (by omega)]
  rw [pciCopySize, least_toNat,
    BitVec.toNat_sub_of_le (by rw [BitVec.le_def, hoff, f.sz_toNat]; exact h), hoff, f.sz_toNat]

theorem mbootCopySize_toNat (h : f.Inside) :
    (mbootCopySize f size).toNat = min size.toNat (f.source.contents.length - f.off.toNat) ↔
      FileService.IntSafe size.toNat (f.source.contents.length - f.off.toNat) := by
  have hfits := f.fits
  have hrest := rest_toNat h
  have hsize := size.isLt
  have hrestInt : (f.sz.setWidth 64 - f.off).toInt = (f.source.contents.length - f.off.toNat : Nat) := by
    rw [BitVec.toInt_eq_toNat_cond, hrest, if_pos (by omega)]
  have hsizeInt : (size.setWidth 32).toInt =
      if 2 * (size.toNat % 2 ^ 32) < 2 ^ 32 then ((size.toNat % 2 ^ 32 : Nat) : Int)
      else ((size.toNat % 2 ^ 32 : Nat) : Int) - 2 ^ 32 := by
    rw [BitVec.toInt_eq_toNat_cond, BitVec.toNat_setWidth]
    rfl
  simp only [mbootCopySize, FileService.IntSafe, hrestInt, hsizeInt]
  split_ifs <;> simp only [BitVec.toNat_setWidth, hrest] <;> omega

namespace FileService

/-- Between the position and the end, the number of bytes is right: always in tar and PCI. -/
theorem copySize_iff (svc : FileService) (h : f.Inside) :
    (svc.copySize f size).toNat = min size.toNat (f.source.contents.length - f.off.toNat) ↔
      (svc = .mbootModules → IntSafe size.toNat (f.source.contents.length - f.off.toNat)) := by
  cases svc with
  | tar => exact iff_of_true (tarCopySize_toNat h) nofun
  | pci => exact iff_of_true (pciCopySize_toNat h) nofun
  | mbootModules => exact (mbootCopySize_toNat h).trans ⟨fun hs _ => hs, fun hs => hs rfl⟩

end FileService

/-! ### Bytes -/

/-- Inside of the file, the bytes that are copied are the file's. -/
theorem FileSource.copy_inside {s : FileSource} (off : BitVec 64) (n : BitVec 32)
    (hfits : s.contents.length < 2 ^ 32) (hoff : off.toNat + n.toNat ≤ s.contents.length) :
    s.copy off n = some ((s.contents.drop off.toNat).take n.toNat) := by
  cases s with
  | memory bytes =>
      have hstart : (off.setWidth 32).toNat = off.toNat := by
        rw [BitVec.toNat_setWidth, Nat.mod_eq_of_lt (by omega)]
      simp only [FileSource.contents] at hoff
      simp only [FileSource.copy, FileSource.contents, hstart]
      rw [if_pos hoff]
      split
      · rename_i hn
        rw [hn]
        rfl
      · rfl
  | registers regs =>
      have hlen : off.toNat + n.toNat ≤ 64 := by simpa [FileSource.contents] using hoff
      have hn : n.toInt.toNat = n.toNat := by
        rw [BitVec.toInt_eq_toNat_cond, if_pos (by omega), Int.toNat_natCast]
      have h8 : off.setWidth 8 = BitVec.ofNat 8 off.toNat := by
        apply BitVec.eq_of_toNat_eq
        rw [BitVec.toNat_setWidth, BitVec.toNat_ofNat]
      simp only [FileSource.copy, FileSource.contents, hn, h8, Option.some.injEq]
      refine List.ext_getElem (by simp; omega) fun i hi hi' => ?_
      simp [BitVec.ofNat_add]

theorem expected_length (f : OpenFile) (size : BitVec 64) :
    (f.expected size).length = min size.toNat (f.source.contents.length - f.off.toNat) := by
  rw [OpenFile.expected, List.length_take, List.length_drop]

/-! ### One call -/

namespace FileService

variable {svc : FileService} {hs : List OpenFile} {c : Call}

/-- Where the number of bytes is right, so is the read, and the handle stays in its file. -/
theorem streamRecv_of_copySize (h : f.Inside)
    (hn : (svc.copySize f size).toNat = min size.toNat (f.source.contents.length - f.off.toNat)) :
    ∃ f', svc.streamRecv f size = some (f.expected size, svc.copySize f size, f') ∧
      f'.source = f.source ∧ f'.off.toNat = f.off.toNat + (f.expected size).length := by
  have hfits := f.fits
  have hin : f.off.toNat ≤ f.source.contents.length := h
  have hcopy := FileSource.copy_inside f.off (svc.copySize f size) hfits (by omega)
  have hexp : (f.source.contents.drop f.off.toNat).take (svc.copySize f size).toNat =
      f.expected size := by
    rw [OpenFile.expected, List.take_eq_take_iff, List.length_drop, hn]
    omega
  refine ⟨{ f with off := f.off + (svc.copySize f size).setWidth 64 }, ?_, rfl, ?_⟩
  · rw [streamRecv, hcopy, hexp]
    rfl
  · rw [expected_length, ← hn, BitVec.toNat_add, BitVec.toNat_setWidth]
    have := (svc.copySize f size).isLt
    omega

/-- A read in the file is right if and only if its number of bytes is. -/
theorem readsRight_iff (h : f.Inside) :
    svc.ReadsRight f size ↔
      (svc = .mbootModules → IntSafe size.toNat (f.source.contents.length - f.off.toNat)) := by
  rw [← copySize_iff svc h]
  constructor
  · rintro ⟨n, f', hrecv, hn, -, -⟩
    obtain ⟨data, -, hdata⟩ := Option.map_eq_some_iff.mp hrecv
    simp only [Prod.mk.injEq] at hdata
    rw [hdata.2.1, hn, expected_length]
  · intro hn
    obtain ⟨f', hrecv, hsource, hoff⟩ := streamRecv_of_copySize h hn
    refine ⟨_, f', hrecv, by rw [hn, expected_length], hoff, ?_⟩
    rw [pressureRight_iff, OpenFile.Inside, hsource, hoff, expected_length]
    have hin : f.off.toNat ≤ f.source.contents.length := h
    omega

theorem setPosition_source (svc : FileService) (f : OpenFile) (value : BitVec 64) :
    (svc.setPosition f value).source = f.source := by
  cases svc <;> rfl

/-- The modules keep the position in the file; tar and PCI do if it is one. -/
theorem setPosition_inside (svc : FileService) (f : OpenFile) (value : BitVec 64) :
    (svc.setPosition f value).Inside ↔
      (svc ≠ .mbootModules → value.toNat ≤ f.source.contents.length) := by
  rw [OpenFile.Inside, setPosition_source]
  cases svc with
  | tar => exact ⟨fun h _ => h, fun h => h nofun⟩
  | pci => exact ⟨fun h _ => h, fun h => h nofun⟩
  | mbootModules =>
      refine iff_of_true ?_ (fun h => absurd rfl h)
      simp only [setPosition, BitVec.lt_def, f.sz64_toNat]
      split
      · exact Nat.le_of_eq f.sz64_toNat
      · omega

/-- With all handles in their files, a call is right if and only if it meets the condition. -/
theorem right_iff (hin : ∀ f ∈ hs, f.Inside) : svc.Right hs c ↔ svc.Allowed hs c := by
  cases c with
  | position id value =>
      simp only [Right, pressureRight_iff, setPosition_inside]
      cases svc with
      | tar => exact ⟨fun h f hf => h f hf nofun, fun h f hf _ => h f hf⟩
      | pci => exact ⟨fun h f hf => h f hf nofun, fun h f hf _ => h f hf⟩
      | mbootModules => exact iff_of_true (fun f hf h => absurd rfl h) trivial
  | recv id size =>
      have hread : ∀ f, hs[id]? = some f → (svc.ReadsRight f size ↔
          (svc = .mbootModules → IntSafe size.toNat (f.source.contents.length - f.off.toNat))) :=
        fun f hf => readsRight_iff (hin f (List.mem_of_getElem? hf))
      cases svc with
      | tar => exact iff_of_true (fun f hf => (hread f hf).mpr nofun) trivial
      | pci => exact iff_of_true (fun f hf => (hread f hf).mpr nofun) trivial
      | mbootModules =>
          exact ⟨fun h f hf => (hread f hf).mp (h f hf) rfl,
            fun h f hf => (hread f hf).mpr fun _ => h f hf⟩
  | duplicate id =>
      exact iff_of_true (fun f hf => (pressureRight_iff f).mpr (hin f (List.mem_of_getElem? hf)))
        trivial

/-- What a change of one handle does to all of them. -/
theorem modify_inside {id : Nat} {g : OpenFile → OpenFile} (hin : ∀ f ∈ hs, f.Inside)
    (hg : ∀ f, hs[id]? = some f → (g f).Inside) : ∀ f ∈ hs.modify id g, f.Inside := by
  intro f hf
  obtain ⟨i, hi⟩ := List.getElem?_of_mem hf
  rw [List.getElem?_modify] at hi
  obtain ⟨f₀, hf₀, rfl⟩ := Option.map_eq_some_iff.mp hi
  split
  · rename_i h
    exact hg f₀ (h ▸ hf₀)
  · exact hin f₀ (List.mem_of_getElem? hf₀)

/-- Calls that are right keep all handles in their files. -/
theorem after_inside (hin : ∀ f ∈ hs, f.Inside) (h : svc.Right hs c) :
    ∀ f ∈ svc.after hs c, f.Inside := by
  cases c with
  | position id value =>
      exact modify_inside hin fun f hf => (pressureRight_iff _).mp (h f hf)
  | recv id size =>
      refine modify_inside hin fun f hf => ?_
      obtain ⟨n, f', hrecv, -, -, hpressure⟩ := h f hf
      rw [hrecv]
      exact (pressureRight_iff f').mp hpressure
  | duplicate id =>
      intro f hf
      rcases List.mem_append.mp hf with hf | hf
      · exact hin f hf
      · exact hin f (List.mem_of_getElem? (Option.mem_toList.mp hf))

/-! ### Runs -/

/-- The calls of a run are all right if and only if they all meet the condition. -/
theorem run_right_iff {ops : List Call} {hs' : List OpenFile} (hin : ∀ f ∈ hs, f.Inside) :
    Run svc.step svc.Right hs ops hs' ↔ Run svc.step svc.Allowed hs ops hs' :=
  Run.congr (I := fun hs => ∀ f ∈ hs, f.Inside) (fun _ _ hI => right_iff hI)
    (fun _ _ _ hI hok h => Option.some.inj h ▸ after_inside hI hok) hin

/-- Over handles that begin at the start of their files, the pressure is right; and in a sequence of calls,
the reads, the positions and the pressure are right throughout if and only if tar and PCI are given no
position behind the end of a file and the modules no request that an `int` turns over. -/
theorem positioned_reads_iff (svc : FileService) {ops : List Call} {hs' : List OpenFile}
    (h₀ : ∀ f ∈ hs, f.off = 0) (_ : Run svc.step anyStep hs ops hs') :
    (∀ f ∈ hs, f.PressureRight) ∧
      (Run svc.step svc.Right hs ops hs' ↔ Run svc.step svc.Allowed hs ops hs') := by
  have hin : ∀ f ∈ hs, f.Inside := fun f hf => by
    rw [OpenFile.Inside, h₀ f hf]
    exact Nat.zero_le _
  exact ⟨fun f hf => (pressureRight_iff f).mpr (hin f hf), run_right_iff hin⟩

/-- A file of three bytes. -/
def threeBytes : OpenFile := .fresh (.memory [1, 2, 3]) (by decide)

/-- A module of three bytes, read from a position behind its end, and then from within. -/
theorem positioned_reads_module :
    ∃ hs', Run mbootModules.step mbootModules.Right [threeBytes]
      [.position 0 9, .recv 0 8, .duplicate 0, .position 1 1, .recv 1 8] hs' := by
  have hallowed : ∃ hs', Run mbootModules.step mbootModules.Allowed [threeBytes]
      [.position 0 9, .recv 0 8, .duplicate 0, .position 1 1, .recv 1 8] hs' := by
    refine ⟨_, .more trivial rfl (.more ?_ rfl (.more trivial rfl (.more trivial rfl
      (.more ?_ rfl (.refl _)))))⟩
    · exact fun f _ => Or.inl (by decide)
    · exact fun f _ => Or.inl (by decide)
  obtain ⟨hs', h⟩ := hallowed
  exact ⟨hs', (positioned_reads_iff mbootModules (by simp [threeBytes, OpenFile.fresh])
    (h.mono fun _ _ _ => trivial)).2.mpr h⟩

/-- In tar, a position behind the end gives a pressure of nearly `2 ^ 64`, and a read that leaves the file.
A request of `2 ^ 31` bytes does the same to a module. -/
theorem position_past_end_leaves_file :
    Run tar.step anyStep [threeBytes] [.position 0 5] [{ threeBytes with off := 5 }] ∧
      ¬ Run tar.step tar.Right [threeBytes] [.position 0 5] [{ threeBytes with off := 5 }] ∧
      ({ threeBytes with off := 5 } : OpenFile).pressure = 0xfffffffffffffffe ∧
      tar.streamRecv { threeBytes with off := 5 } 1 = none ∧
      mbootModules.streamRecv threeBytes 0x80000000 = none := by
  refine ⟨.one trivial rfl, fun h => ?_, by decide, by decide, by decide⟩
  cases h with
  | more ha _ _ =>
      have h : 5 ≤ 3 := (pressureRight_iff _).mp (ha threeBytes rfl)
      omega

end FileService

end Muxomucota.Vfs
