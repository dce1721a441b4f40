import Muxomucota.Lib.Crc
import Muxomucota.Lib.Runs
import Muxomucota.Mmu.Shm

/-!
# Mmu — the references of a shared-memory object

The life of one object, from `vmmc_create_shm` or `vmmc_make_shm` to its end, with a ledger beside
the memory: every `pmm_use`, `pmm_alloc` and `pmm_free` of the object's own functions is entered
there.  Leaving the ledger out gives the functions of `Contexts` back.  Between two calls memory
may change in any way; what other mappings and processes do is not in the ledger.

The header of an object carries the check value of `digest.c`.  The padding after `kept_alive` has
whatever bytes `kmalloc` left there.
-/

namespace Muxomucota.Mmu.ShmReferences

open Memory Lib

/-! ### The ledger -/

/-- Memory, and how many references to each frame the object has taken and not released. -/
structure Ledger where
  mem : Mem
  refs : Nat → Int

namespace Ledger

/-- `pmm_use`. -/
def use (l : Ledger) (f : Nat) : Option Ledger :=
  (l.mem.use f).map fun m => ⟨m, l.refs + counts [f]⟩

/-- `pmm_free`. -/
def free (l : Ledger) (f : Nat) : Option Ledger :=
  (l.mem.free f).map fun m => ⟨m, l.refs - counts [f]⟩

/-- `pmm_alloc`. -/
def alloc (l : Ledger) : Option (Nat × Ledger) :=
  l.mem.alloc.map fun r => (r.1, ⟨r.2, l.refs + counts [r.1]⟩)

/-- Memory changes without a reference of the object. -/
def change (l : Ledger) (m : Mem) : Ledger := ⟨m, l.refs⟩

end Ledger

/-- `pmm_use` of a list of frames. -/
def useAll (l : Ledger) (fs : List Nat) : Option Ledger := fs.foldlM (fun l f => l.use f) l

/-- `pmm_free` of a list of frames. -/
def freeAll (l : Ledger) (fs : List Nat) : Option Ledger := fs.foldlM (fun l f => l.free f) l

/-- `pmm_alloc` of `n` frames. -/
def allocAll (l : Ledger) (n : Nat) : Option (List Nat × Ledger) :=
  (List.range n).foldlM
    (fun (r : List Nat × Ledger) _ => r.2.alloc.map fun r' => (r.1 ++ [r'.1], r'.2)) ([], l)

/-- One page of `vmmc_make_shm` that is present. -/
def takeShmPage (l : Ledger) (pd vaddr : Nat) : Option (Nat × Ledger) :=
  let r := vmmcAddressMapped l.mem pd vaddr
  if r.1 &&& (vmmUr ||| vmmUw) = 0 then none
  else if ¬ vaddr < physBase then none
  else if pmmAlloced l.mem.pmm r.2 = false then none
  else (l.use r.2).map fun l => (r.2, l)

/-- One page of `vmmc_make_shm`. -/
def makeShmPage (l : Ledger) (pd vaddr : Nat) : Option (Nat × Ledger) :=
  if (vmmcAddressMapped l.mem pd vaddr).1 = 0 then
    (vmmcDoLazyMap l.mem pd vaddr).bind fun (done, m) =>
      if done then takeShmPage (l.change m) pd vaddr else none
  else takeShmPage l pd vaddr

/-- `vmmc_make_shm`. -/
def makeShm (l : Ledger) (pd : Nat) (areas : List (Nat × Int)) (offset : Nat) :
    Option (ShmSg × Ledger) :=
  ((makeShmPages areas).foldlM
    (fun (r : List Nat × Ledger) vaddr =>
      (makeShmPage r.2 pd vaddr).map fun r' => (r.1 ++ [r'.1], r'.2)) ([], l)).map fun r =>
    ({ size := (makeShmCount areas * 4096 % 2 ^ 32).toNat, users := 1, offset := offset,
       keptAlive := false, phys := r.1 }, r.2)

/-- `vmmc_open_shm`. -/
def openShm (l : Ledger) (pd : Nat) (sg : ShmSg) (flags : BitVec 32) :
    Option (Nat × ShmSg × Ledger) :=
  if sg.keptAlive ∨ sg.users ≠ 0 then
    (vmmcUserMapSg l.mem pd sg.frames flags).bind fun (start, m) =>
      let mapping := (start + sg.offset) % 2 ^ 32
      if mapping = 0 then some (0, sg, l.change m)
      else if sg.keptAlive then
        some (mapping, { sg with keptAlive := false, users := sg.users + 1 }, l.change m)
      else (useAll (l.change m) sg.frames).map fun l =>
        (mapping, { sg with users := sg.users + 1 }, l)
  else
    (allocAll l sg.pages).bind fun (fs, l) =>
      (vmmcUserMapSg l.mem pd fs flags).bind fun (start, m) =>
        let mapping := (start + sg.offset) % 2 ^ 32
        let sg := { sg with phys := fs }
        if mapping = 0 then (freeAll (l.change m) fs).map fun l => (0, sg, l)
        else some (mapping, { sg with users := sg.users + 1 }, l.change m)

/-- The second half of `vmmc_close_shm` and of `vmmc_unmake_shm`. -/
def releaseShm (l : Ledger) (sg : ShmSg) (destroy : Bool) : Option (Option ShmSg × Ledger) :=
  let sg := { sg with users := sg.users - 1 }
  if sg.users = 0 ∧ destroy = false then some (some { sg with keptAlive := true }, l)
  else (freeAll l sg.frames).map fun l => (if sg.users = 0 then none else some sg, l)

/-- `vmmc_close_shm`. -/
def closeShm (l : Ledger) (pd : Nat) (sg : ShmSg) (virt : Nat) (destroy : Bool) :
    Option (Option ShmSg × Ledger) :=
  (vmmcUserUnmap l.mem pd ((virt + 2 ^ 32 - sg.offset) % 2 ^ 32) sg.size).bind fun m =>
    releaseShm (l.change m) sg destroy

/-! ### Without the ledger -/

/-- Leaving the ledger out. -/
def erase {α : Type} (r : α × Ledger) : α × Mem := (r.1, r.2.mem)

theorem use_mem (l : Ledger) (f : Nat) : (l.use f).map Ledger.mem = l.mem.use f := by
  simp [Ledger.use, Option.map_map, Function.comp_def]

theorem free_mem (l : Ledger) (f : Nat) : (l.free f).map Ledger.mem = l.mem.free f := by
  simp [Ledger.free, Option.map_map, Function.comp_def]

theorem alloc_mem (l : Ledger) : l.alloc.map erase = l.mem.alloc := by
  simp [Ledger.alloc, Option.map_map, Function.comp_def, erase]

/-- A loop with the ledger is the loop without it. -/
theorem foldlM_erase {α β γ : Type} {p : β → γ} {g : β → α → Option β} {h : γ → α → Option γ}
    (hstep : ∀ b a, (g b a).map p = h (p b) a) (as : List α) (b : β) :
    (as.foldlM g b).map p = as.foldlM h (p b) := by
  induction as generalizing b with
  | nil => rfl
  | cons a as ih =>
      rw [List.foldlM_cons, List.foldlM_cons, ← hstep]
      cases g b a with
      | none => rfl
      | some b' => exact ih b'

theorem useAll_mem (l : Ledger) (fs : List Nat) :
    (useAll l fs).map Ledger.mem = Mmu.useAll l.mem fs :=
  foldlM_erase use_mem fs l

theorem freeAll_mem (l : Ledger) (fs : List Nat) :
    (freeAll l fs).map Ledger.mem = Mmu.freeAll l.mem fs :=
  foldlM_erase free_mem fs l

theorem allocAll_mem (l : Ledger) (n : Nat) :
    (allocAll l n).map erase = Mmu.allocAll l.mem n := by
  refine foldlM_erase (p := erase) (fun r _ => ?_) (List.range n) ([], l)
  rw [show (erase r).2 = r.2.mem from rfl, ← alloc_mem r.2]
  cases r.2.alloc <;> rfl

theorem takeShmPage_mem (l : Ledger) (pd vaddr : Nat) :
    (takeShmPage l pd vaddr).map erase = Mmu.takeShmPage l.mem pd vaddr := by
  unfold takeShmPage Mmu.takeShmPage
  dsimp only
  split
  · rfl
  · split
    · rfl
    · split
      · rfl
      · rw [← use_mem]
        cases l.use (vmmcAddressMapped l.mem pd vaddr).2 <;> rfl

theorem makeShmPage_mem (l : Ledger) (pd vaddr : Nat) :
    (makeShmPage l pd vaddr).map erase = Mmu.makeShmPage l.mem pd vaddr := by
  unfold makeShmPage Mmu.makeShmPage
  split
  · cases vmmcDoLazyMap l.mem pd vaddr with
    | none => rfl
    | some r =>
        rcases r with ⟨done, m⟩
        cases done
        · rfl
        · exact takeShmPage_mem (l.change m) pd vaddr
  · exact takeShmPage_mem l pd vaddr

theorem makeShm_mem (l : Ledger) (pd : Nat) (areas : List (Nat × Int)) (offset : Nat) :
    (makeShm l pd areas offset).map erase = vmmcMakeShm l.mem pd areas offset := by
  have hloop := foldlM_erase (p := erase (α := List Nat))
    (g := fun r vaddr => (makeShmPage r.2 pd vaddr).map fun r' => (r.1 ++ [r'.1], r'.2))
    (h := fun r vaddr => (Mmu.makeShmPage r.2 pd vaddr).map fun r' => (r.1 ++ [r'.1], r'.2))
    (fun r vaddr => by
      rw [show (erase r).2 = r.2.mem from rfl, ← makeShmPage_mem r.2]
      cases makeShmPage r.2 pd vaddr <;> rfl) (makeShmPages areas) ([], l)
  rw [vmmcMakeShm, show (([], l.mem) : List Nat × Mem) = erase ([], l) from rfl, ← hloop, makeShm]
  simp only [Option.map_map]
  rfl

theorem openShm_mem (l : Ledger) (pd : Nat) (sg : ShmSg) (flags : BitVec 32) :
    (openShm l pd sg flags).map (fun r => (r.1, r.2.1, r.2.2.mem)) =
      vmmcOpenShm l.mem pd sg flags := by
  unfold openShm vmmcOpenShm
  split
  · cases vmmcUserMapSg l.mem pd sg.frames flags with
    | none => rfl
    | some r =>
        dsimp only [Option.bind_some]
        split
        · rfl
        · split
          · rfl
          · rw [show Mmu.useAll r.2 sg.frames = _ from (useAll_mem (l.change r.2) _).symm]
            cases useAll (l.change r.2) sg.frames <;> rfl
  · rw [← allocAll_mem]
    cases allocAll l sg.pages with
    | none => rfl
    | some r =>
        dsimp only [Option.map_some, Option.bind_some, erase]
        cases vmmcUserMapSg r.2.mem pd r.1 flags with
        | none => rfl
        | some r' =>
            dsimp only [Option.bind_some]
            split
            · rw [show Mmu.freeAll r'.2 r.1 = _ from (freeAll_mem (r.2.change r'.2) _).symm]
              cases freeAll (r.2.change r'.2) r.1 <;> rfl
            · rfl

theorem releaseShm_mem (l : Ledger) (sg : ShmSg) (destroy : Bool) :
    (releaseShm l sg destroy).map erase = Mmu.releaseShm l.mem sg destroy := by
  unfold releaseShm Mmu.releaseShm
  dsimp only
  split
  · rfl
  · rw [← freeAll_mem]
    cases freeAll l ({ sg with users := sg.users - 1 } : ShmSg).frames <;> rfl

theorem closeShm_mem (l : Ledger) (pd : Nat) (sg : ShmSg) (virt : Nat) (destroy : Bool) :
    (closeShm l pd sg virt destroy).map erase = vmmcCloseShm l.mem pd sg virt destroy := by
  unfold closeShm vmmcCloseShm
  cases vmmcUserUnmap l.mem pd ((virt + 2 ^ 32 - sg.offset) % 2 ^ 32) sg.size with
  | none => rfl
  | some m => exact releaseShm_mem (l.change m) sg destroy

/-! ### The header -/

/-- `crc32` of `digest.c`. -/
def crc32 (bs : List (BitVec 8)) : BitVec 32 := Crc.crc 0xedb88320 bs

/-- The header up to the digest: `size`, `users`, `offset`, `kept_alive` and the padding. -/
def header (sg : ShmSg) (padding : BitVec 24) : List (BitVec 8) :=
  Crc.bytes (.ofNat 32 sg.size) ++ Crc.bytes (.ofInt 32 sg.users) ++
    Crc.bytes (.ofNat 32 sg.offset) ++
    Crc.bytes (padding ++ (if sg.keptAlive then 1 else 0 : BitVec 8))

/-- `struct shm_sg` as it lies in kernel memory. -/
structure Object where
  sg : ShmSg
  padding : BitVec 24
  digest : BitVec 32

/-- `calculate_checksum(*sg)`. -/
def calculateChecksum (sg : ShmSg) (padding : BitVec 24) : BitVec 32 := crc32 (header sg padding)

/-- `check_integrity(*sg)`. -/
def checkIntegrity (o : Object) : Bool :=
  crc32 (header o.sg o.padding ++ Crc.bytes o.digest) = 0x2144df1c

/-- `sg->digest = calculate_checksum(*sg)`. -/
def sealed (sg : ShmSg) (padding : BitVec 24) : Object := ⟨sg, padding, calculateChecksum sg padding⟩

/-- `is_valid_shm`; `kernelMem` says whether an address is that of mapped kernel memory. -/
def isValidShm (kernelMem : Nat → Bool) (shmId : Nat) (o : Object) : Bool :=
  kernelMem shmId && checkIntegrity o

/-- The residue of bytes and their digest. -/
theorem crc32_residue (bs : List (BitVec 8)) : crc32 (bs ++ Crc.bytes (crc32 bs)) = 0x2144df1c := by
  have hresidue : Crc.rounds 0xedb88320 32 (BitVec.allOnes 32) ^^^ BitVec.allOnes 32 =
      (0x2144df1c : BitVec 32) := by decide +kernel
  rw [← hresidue]
  exact Crc.crc_append 0xedb88320 bs

/-- A digest that was calculated passes its check. -/
theorem checkIntegrity_sealed (sg : ShmSg) (padding : BitVec 24) :
    checkIntegrity (sealed sg padding) = true :=
  decide_eq_true (crc32_residue (header sg padding))

/-! ### The life of an object -/

structure Life where
  ledger : Ledger
  /-- the object, unless it does not exist yet or was freed -/
  object : Option Object
  /-- `vmmc_create_shm` or `vmmc_make_shm` was called -/
  born : Bool
  /-- references were taken: it was made, or opened with success -/
  taken : Bool
  /-- the successful opens that are not closed -/
  opens : Nat
  /-- it was made and not unmade -/
  made : Bool

def Life.init (m : Mem) : Life := ⟨⟨m, 0⟩, none, false, false, 0, false⟩

inductive Act where
  /-- `junk` and `padding` are what `kmalloc` leaves in the block -/
  | create (sz : Nat) (junk : Nat → Nat) (padding : BitVec 24)
  | make (pd : Nat) (areas : List (Nat × Int)) (offset : Nat) (padding : BitVec 24)
  | openAt (pd : Nat) (flags : BitVec 32)
  | close (pd virt : Nat) (destroy : Bool)
  | unmake (destroy : Bool)
  /-- anything else that happens to memory -/
  | elsewhere (m : Mem)

/-- What `vmmc_open_shm` leaves: the object is sealed again if it succeeds. -/
def opened (s : Life) (o : Object) (r : Nat × ShmSg × Ledger) : Life :=
  if r.1 = 0 then { s with ledger := r.2.2, object := some { o with sg := r.2.1 } }
  else { s with
    ledger := r.2.2
    object := some (sealed r.2.1 o.padding)
    taken := true
    opens := s.opens + 1 }

/-- What `vmmc_close_shm` and `vmmc_unmake_shm` leave. -/
def released (s : Life) (o : Object) (r : Option ShmSg × Ledger) : Life :=
  { s with ledger := r.2, object := r.1.map fun sg => sealed sg o.padding }

/-- One call for the object at `shmId`.  Each open is closed at most once, and the object is unmade
at most once. -/
def step (kernelMem : Nat → Bool) (shmId : Nat) (s : Life) : Act → Option Life
  | .create sz junk padding =>
      if s.born then none
      else some { s with object := some (sealed (vmmcCreateShm sz junk) padding), born := true }
  | .make pd areas offset padding =>
      if s.born ∨ areas = [] ∨ pageSize ≤ offset then none
      else (makeShm s.ledger pd areas offset).map fun r =>
        { s with
          ledger := r.2
          object := some (sealed r.1 padding)
          born := true
          taken := true
          made := true }
  | .openAt pd flags => s.object.bind fun o =>
      if isValidShm kernelMem shmId o then (openShm s.ledger pd o.sg flags).map (opened s o)
      else none
  | .close pd virt destroy => s.object.bind fun o =>
      if isValidShm kernelMem shmId o ∧ s.opens ≠ 0 then
        (closeShm s.ledger pd o.sg virt destroy).map (released { s with opens := s.opens - 1 } o)
      else none
  | .unmake destroy => s.object.bind fun o =>
      if isValidShm kernelMem shmId o ∧ s.made = true then
        (releaseShm s.ledger o.sg destroy).map (released { s with made := false } o)
      else none
  | .elsewhere m => some { s with ledger := s.ledger.change m }

/-- The page counts of `vmmc_make_shm` are not negative and come to less than 4 GiB. -/
def CountsFit (_ : Life) : Act → Prop
  | .make _ areas _ _ => (∀ r ∈ areas, 0 ≤ r.2) ∧ makeShmCount areas < 2 ^ 20
  | _ => True

/-- `users + (kept_alive ? 1 : 0)`. -/
def holders (sg : ShmSg) : Int := sg.users + if sg.keptAlive then 1 else 0

/-- What holds of an object at any time. -/
structure Conserved (kernelMem : Nat → Bool) (shmId : Nat) (s : Life) : Prop where
  refs : ∀ o, s.object = some o → ∀ f,
    s.ledger.refs f = counts o.sg.frames f * holders o.sg
  kept : ∀ o, s.object = some o → o.sg.keptAlive = true → o.sg.users = 0
  valid : ∀ o, s.object = some o → isValidShm kernelMem shmId o = true
  /-- it has references from the first on until it is freed, and then none -/
  held : ∀ o, s.object = some o → s.taken = true → 0 < holders o.sg
  freed : s.object = none → s.ledger.refs = 0

/-! ### What the functions enter -/

variable {l l' : Ledger} {fs : List Nat} {sg : ShmSg} {pd virt : Nat} {flags : BitVec 32}

theorem use_refs {f : Nat} (h : l.use f = some l') : l'.refs = l.refs + counts [f] := by
  obtain ⟨m, -, rfl⟩ := Option.map_eq_some_iff.mp h
  rfl

theorem useAll_refs (h : useAll l fs = some l') : l'.refs = l.refs + counts fs := by
  refine foldlM_rule (P := fun pre b => b.refs = l.refs + counts pre) h (by simp) ?_
  intro pre f post b b' _ hb hstep
  rw [use_refs hstep, hb, counts_append, add_assoc]

theorem freeAll_refs (h : freeAll l fs = some l') : l'.refs = l.refs - counts fs := by
  refine foldlM_rule (P := fun pre b => b.refs = l.refs - counts pre) h (by simp) ?_
  intro pre f post b b' _ hb hstep
  obtain ⟨m, -, rfl⟩ := Option.map_eq_some_iff.mp hstep
  rw [counts_append, ← sub_sub, ← hb]

theorem allocAll_refs {n : Nat} (h : allocAll l n = some (fs, l')) :
    l'.refs = l.refs + counts fs ∧ fs.length = n := by
  refine foldlM_range_rule (P := fun i (b : List Nat × Ledger) =>
    b.2.refs = l.refs + counts b.1 ∧ b.1.length = i) h ⟨by simp, rfl⟩ ?_
  rintro i ⟨gs, b⟩ b' - ⟨hb, hlen⟩ hstep
  obtain ⟨⟨f, b₁⟩, ha, rfl⟩ := Option.map_eq_some_iff.mp hstep
  obtain ⟨⟨f', m⟩, -, heq⟩ := Option.map_eq_some_iff.mp ha
  cases heq
  exact ⟨by rw [hb, counts_append, add_assoc], by simp [hlen]⟩

theorem takeShmPage_refs {v f : Nat} (h : takeShmPage l pd v = some (f, l')) :
    l'.refs = l.refs + counts [f] := by
  unfold takeShmPage at h
  dsimp only at h
  split at h
  · cases h
  · split at h
    · cases h
    · split at h
      · cases h
      · obtain ⟨l₁, hl₁, heq⟩ := Option.map_eq_some_iff.mp h
        cases heq
        exact use_refs hl₁

theorem makeShmPage_refs {v f : Nat} (h : makeShmPage l pd v = some (f, l')) :
    l'.refs = l.refs + counts [f] := by
  unfold makeShmPage at h
  split at h
  · obtain ⟨⟨done, m⟩, -, h⟩ := Option.bind_eq_some_iff.mp h
    cases done
    · cases h
    · exact takeShmPage_refs (l := l.change m) h
  · exact takeShmPage_refs h

/-- An object that is made has one user and a reference for each of its pages. -/
theorem makeShm_refs {areas : List (Nat × Int)} {offset : Nat}
    (hareas : ∀ r ∈ areas, 0 ≤ r.2) (hcount : makeShmCount areas < 2 ^ 20)
    (h : makeShm l pd areas offset = some (sg, l')) :
    l'.refs = l.refs + counts sg.frames ∧ sg.users = 1 ∧ sg.keptAlive = false := by
  obtain ⟨⟨phys, l₁⟩, hloop, heq⟩ := Option.map_eq_some_iff.mp h
  cases heq
  have hrefs : l₁.refs = l.refs + counts phys ∧ phys.length = (makeShmPages areas).length := by
    refine foldlM_rule (P := fun pre (b : List Nat × Ledger) =>
      b.2.refs = l.refs + counts b.1 ∧ b.1.length = pre.length) hloop ⟨by simp, rfl⟩ ?_
    rintro pre v post ⟨gs, b⟩ b' - ⟨hb, hlen⟩ hstep
    obtain ⟨⟨f, b₁⟩, ha, rfl⟩ := Option.map_eq_some_iff.mp hstep
    exact ⟨by rw [makeShmPage_refs ha, hb, counts_append, add_assoc], by simp [hlen]⟩
  refine ⟨?_, rfl, rfl⟩
  -- the size of the object counts just these pages
  have hlen := length_makeShmPages hareas
  have hall : pagesOf (makeShmCount areas * 4096 % 2 ^ 32).toNat = phys.length := by
    rw [hrefs.2, pagesOf]
    omega
  rw [hrefs.1, ShmSg.frames, ShmSg.pages, hall, List.take_length]

theorem holders_of_users {sg : ShmSg} (h : sg.keptAlive = true → sg.users = 0) :
    holders sg = if sg.keptAlive then 1 else sg.users := by
  unfold holders
  cases hk : sg.keptAlive with
  | true => rw [h hk]; rfl
  | false => exact add_zero _

/-- `vmmc_open_shm` keeps as many references to each frame as the object has holders. -/
theorem openShm_refs {mapping : Nat} {sg' : ShmSg}
    (hrefs : ∀ f, l.refs f = counts sg.frames f * holders sg)
    (hkept : sg.keptAlive = true → sg.users = 0)
    (h : openShm l pd sg flags = some (mapping, sg', l')) :
    (∀ f, l'.refs f = counts sg'.frames f * holders sg') ∧
    (mapping = 0 → ∃ phys, sg' = { sg with phys }) ∧
    (mapping ≠ 0 → sg'.users = sg.users + 1 ∧ sg'.keptAlive = false) := by
  rw [holders_of_users hkept] at hrefs
  unfold openShm at h
  split at h
  · rename_i hused
    obtain ⟨⟨start, m⟩, -, h⟩ := Option.bind_eq_some_iff.mp h
    dsimp only at h
    split at h
    · -- nothing is mapped
      cases h
      exact ⟨by rwa [holders_of_users hkept], fun _ => ⟨sg.phys, rfl⟩, fun hne => absurd rfl hne⟩
    · rename_i hne
      split at h
      · -- the reference that was kept
        rename_i hk
        cases h
        refine ⟨fun f => ?_, fun h0 => absurd h0 hne, fun _ => ⟨rfl, rfl⟩⟩
        have hone : l.refs f = counts sg.frames f := by simpa [hk] using hrefs f
        rw [holders, hkept hk]
        exact hone.trans (mul_one _).symm
      · rename_i hk
        obtain ⟨l₁, hl₁, heq⟩ := Option.map_eq_some_iff.mp h
        cases heq
        refine ⟨fun f => ?_, fun h0 => absurd h0 hne, fun _ => ⟨rfl, by simpa using hk⟩⟩
        rw [useAll_refs hl₁, Pi.add_apply, show (l.change m).refs f = l.refs f from rfl, hrefs f]
        simp only [holders, hk, Bool.false_eq_true, if_false, add_zero]
        exact (mul_add_one ..).symm
  · -- the first open takes the frames
    rename_i hunused
    have hk : sg.keptAlive = false := by simpa using fun hk => hunused (.inl hk)
    have h0 : sg.users = 0 := by simpa using fun hne => hunused (.inr hne)
    obtain ⟨⟨fs, l₁⟩, hl₁, h⟩ := Option.bind_eq_some_iff.mp h
    obtain ⟨⟨start, m⟩, -, h⟩ := Option.bind_eq_some_iff.mp h
    obtain ⟨hl₁, hlen⟩ := allocAll_refs hl₁
    have hnone : l.refs = 0 := by
      funext f
      simpa [hk, h0] using hrefs f
    have hframes : ({ sg with phys := fs } : ShmSg).frames = fs := by
      rw [ShmSg.frames, show ({ sg with phys := fs } : ShmSg).pages = sg.pages from rfl, ← hlen]
      exact List.take_length
    dsimp only at h
    split at h
    · obtain ⟨l₂, hl₂, heq⟩ := Option.map_eq_some_iff.mp h
      cases heq
      refine ⟨fun f => ?_, fun _ => ⟨fs, rfl⟩, fun hne => absurd rfl hne⟩
      rw [freeAll_refs hl₂, show (l₁.change m).refs = l₁.refs from rfl, hl₁, hnone]
      simp [holders, hk, h0]
    · rename_i hmap
      cases h
      refine ⟨fun f => ?_, fun hz => absurd hz hmap, fun _ => ⟨rfl, hk⟩⟩
      have hframes' : ({ sg with phys := fs, users := sg.users + 1 } : ShmSg).frames = fs := hframes
      rw [show (l₁.change m).refs = l₁.refs from rfl, hl₁, hnone, hframes']
      simp [holders, hk, h0]

/-- Giving up one holder: the reference is kept, or released. -/
theorem releaseShm_refs {destroy : Bool} {sg' : Option ShmSg}
    (hrefs : ∀ f, l.refs f = counts sg.frames f * holders sg) (hk : sg.keptAlive = false)
    (h : releaseShm l sg destroy = some (sg', l')) :
    (sg' = none ∧ sg.users = 1 ∧ l'.refs = 0) ∨
    ∃ sg₁, sg' = some sg₁ ∧ (∀ f, l'.refs f = counts sg₁.frames f * holders sg₁) ∧
      sg₁.users = sg.users - 1 ∧ (sg₁.keptAlive = true ↔ sg.users = 1) := by
  have hframes (n : Int) (b : Bool) :
      ({ sg with users := n, keptAlive := b } : ShmSg).frames = sg.frames := rfl
  have hrefs : ∀ f, l.refs f = counts sg.frames f * sg.users := by
    simpa [holders, hk] using hrefs
  unfold releaseShm at h
  dsimp only at h
  split at h
  · rename_i hlast
    cases h
    have h1 : sg.users = 1 := by omega
    refine .inr ⟨_, rfl, fun f => ?_, rfl, by simp [h1]⟩
    rw [hframes, hrefs f, h1]
    rfl
  · obtain ⟨l₁, hl₁, heq⟩ := Option.map_eq_some_iff.mp h
    have hl₁ : ∀ f, l₁.refs f = counts sg.frames f * (sg.users - 1) := by
      intro f
      rw [freeAll_refs hl₁, Pi.sub_apply, hrefs f]
      exact (mul_sub_one ..).symm
    split at heq
    · rename_i h0
      cases heq
      refine .inl ⟨rfl, by omega, funext fun f => ?_⟩
      rw [hl₁ f, h0, mul_zero]
      rfl
    · rename_i h0
      cases heq
      refine .inr ⟨_, rfl, fun f => ?_, rfl, ?_⟩
      · rw [hframes, hl₁ f]
        simp [holders, hk]
      · simp only [hk, Bool.false_eq_true, false_iff]
        omega

/-! ### Every run -/

/-- `Conserved`, and who the users are. -/
structure Inv (kernelMem : Nat → Bool) (shmId : Nat) (s : Life) : Prop
    extends Conserved kernelMem shmId s where
  users : ∀ o, s.object = some o → o.sg.users = s.opens + if s.made then 1 else 0
  unborn : s.born = false → s.object = none ∧ s.taken = false ∧ s.opens = 0 ∧ s.made = false

variable {kernelMem : Nat → Bool} {shmId : Nat} {s s' : Life} {a : Act}

theorem isValidShm_sealed (hkernel : kernelMem shmId = true) (sg : ShmSg) (padding : BitVec 24) :
    isValidShm kernelMem shmId (sealed sg padding) = true := by
  rw [isValidShm, hkernel, checkIntegrity_sealed, Bool.and_self]

/-- Nothing exists that was not made. -/
theorem Inv.born {o : Object} (h : Inv kernelMem shmId s) (ho : s.object = some o) :
    s.born = true := by
  by_contra hb
  rw [(h.unborn (by simpa using hb)).1] at ho
  cases ho

/-- A sealed object with as many references as it has holders. -/
theorem Inv.of_sealed {padding : BitVec 24} (hkernel : kernelMem shmId = true)
    (hs : s.object = some (sealed sg padding)) (hborn : s.born = true)
    (hrefs : ∀ f, s.ledger.refs f = counts sg.frames f * holders sg)
    (hkept : sg.keptAlive = true → sg.users = 0) (hheld : s.taken = true → 0 < holders sg)
    (husers : sg.users = s.opens + if s.made then 1 else 0) : Inv kernelMem shmId s := by
  have hsome : ∀ o, s.object = some o → o = sealed sg padding := by
    intro o ho
    rw [hs] at ho
    cases ho
    rfl
  refine ⟨⟨fun o ho => ?_, fun o ho => ?_, fun o ho => ?_, fun o ho => ?_, fun ho => ?_⟩,
    fun o ho => ?_, fun hb => ?_⟩
  · rw [hsome o ho]; exact hrefs
  · rw [hsome o ho]; exact hkept
  · rw [hsome o ho]; exact isValidShm_sealed hkernel sg padding
  · rw [hsome o ho]; exact hheld
  · rw [hs] at ho; cases ho
  · rw [hsome o ho]; exact husers
  · rw [hborn] at hb; cases hb

/-- A user leaves the object. -/
theorem Inv.released {o : Object} {r : Option ShmSg × Ledger} {destroy : Bool}
    (hkernel : kernelMem shmId = true) (h : Inv kernelMem shmId s) (ho : s.object = some o)
    (hborn : s'.born = true)
    (hl : ∀ f, l.refs f = s.ledger.refs f)
    (hr : releaseShm l o.sg destroy = some r) (hpos : 0 < o.sg.users)
    (husers : o.sg.users = s'.opens + (if s'.made then 1 else 0) + 1) :
    Inv kernelMem shmId (released s' o r) := by
  obtain ⟨sg', l'⟩ := r
  have hk : o.sg.keptAlive = false := by
    by_contra hk
    have := h.kept o ho (by simpa using hk)
    omega
  rcases releaseShm_refs (fun f => (hl f).trans (h.refs o ho f)) hk hr with
    ⟨rfl, h1, hzero⟩ | ⟨sg₁, rfl, hrefs, hu, hkept⟩
  · refine ⟨⟨?_, ?_, ?_, ?_, fun _ => hzero⟩, ?_, fun hb => ?_⟩
    · rintro o ⟨⟩
    · rintro o ⟨⟩
    · rintro o ⟨⟩
    · rintro o ⟨⟩
    · rintro o ⟨⟩
    · rw [show (ShmReferences.released s' o (none, l')).born = s'.born from rfl, hborn] at hb
      cases hb
  · refine Inv.of_sealed hkernel rfl hborn hrefs (fun hk => ?_) (fun _ => ?_) ?_
    · rw [hu, hkept.mp hk]; rfl
    · rw [holders]
      by_cases h1 : o.sg.users = 1
      · rw [hkept.mpr h1]
        simp [hu, h1]
      · have : sg₁.keptAlive = false := by simpa using mt hkept.mp h1
        rw [this]
        simp only [Bool.false_eq_true, if_false]
        omega
    · show sg₁.users = s'.opens + if s'.made then 1 else 0
      omega

theorem Inv.step (hkernel : kernelMem shmId = true) (h : Inv kernelMem shmId s)
    (ok : CountsFit s a) (hs : step kernelMem shmId s a = some s') : Inv kernelMem shmId s' := by
  cases a with
  | create sz junk padding =>
      rw [ShmReferences.step] at hs
      split at hs
      · cases hs
      · rename_i hborn
        cases hs
        obtain ⟨hobject, htaken, hopens, hmade⟩ := h.unborn (by simpa using hborn)
        refine Inv.of_sealed hkernel rfl rfl (fun f => ?_) (fun _ => rfl) (fun ht => ?_) ?_
        · rw [h.freed hobject]
          simp [holders, vmmcCreateShm]
        · rw [htaken] at ht
          cases ht
        · simp [hopens, hmade, vmmcCreateShm]
  | make pd areas offset padding =>
      rw [ShmReferences.step] at hs
      split at hs
      · cases hs
      · rename_i hguard
        obtain ⟨⟨sg, l⟩, hmake, rfl⟩ := Option.map_eq_some_iff.mp hs
        obtain ⟨hobject, -, hopens, -⟩ := h.unborn (by simpa using fun hb => hguard (.inl hb))
        obtain ⟨hrefs, husers, hkept⟩ := makeShm_refs ok.1 ok.2 hmake
        have hholders : holders sg = 1 := by rw [holders, husers, hkept]; rfl
        refine Inv.of_sealed hkernel rfl rfl (fun f => ?_) (fun hk => ?_) (fun _ => ?_) ?_
        · rw [hrefs, h.freed hobject, hholders, zero_add]
          exact (mul_one _).symm
        · rw [hkept] at hk
          cases hk
        · rw [hholders]
          decide
        · simp [husers, hopens]
  | openAt pd flags =>
      obtain ⟨o, ho, hs⟩ := Option.bind_eq_some_iff.mp hs
      have husers := h.users o ho
      split at hs
      · obtain ⟨⟨mapping, sg', l⟩, hopen, rfl⟩ := Option.map_eq_some_iff.mp hs
        obtain ⟨hrefs, hfail, hmapped⟩ := openShm_refs (h.refs o ho) (h.kept o ho) hopen
        by_cases h0 : mapping = 0
        · -- the header is as it was
          obtain ⟨phys, rfl⟩ := hfail h0
          rw [opened, if_pos h0]
          refine ⟨⟨?_, ?_, ?_, ?_, ?_⟩, ?_, fun hb => ?_⟩
          · rintro _ ⟨⟩; exact hrefs
          · rintro _ ⟨⟩; exact h.kept o ho
          · rintro _ ⟨⟩; exact h.valid o ho
          · rintro _ ⟨⟩; exact h.held o ho
          · rintro ⟨⟩
          · rintro _ ⟨⟩; exact husers
          · exact absurd ((h.born ho).symm.trans hb) (by decide)
        · obtain ⟨hu, hk⟩ := hmapped h0
          rw [opened, if_neg h0]
          refine Inv.of_sealed hkernel rfl (h.born ho) hrefs (fun hk' => ?_) (fun _ => ?_) ?_
          · rw [hk] at hk'
            cases hk'
          · have hpos : (0 : Int) ≤ if s.made then 1 else 0 := by split <;> decide
            simp only [holders, hu, hk, husers, Bool.false_eq_true, if_false]
            omega
          · show sg'.users = ((s.opens + 1 : Nat) : Int) + if s.made then 1 else 0
            rw [hu, husers]
            omega
      · cases hs
  | close pd virt destroy =>
      obtain ⟨o, ho, hs⟩ := Option.bind_eq_some_iff.mp hs
      have husers := h.users o ho
      split at hs
      · rename_i hguard
        obtain ⟨r, hclose, rfl⟩ := Option.map_eq_some_iff.mp hs
        obtain ⟨m, -, hrelease⟩ := Option.bind_eq_some_iff.mp hclose
        have hopens : ((s.opens - 1 : Nat) : Int) = s.opens - 1 := by
          have := hguard.2
          omega
        refine h.released (l := s.ledger.change m) hkernel ho (h.born ho) (fun _ => rfl) hrelease ?_ ?_
        · rw [husers]
          split <;> omega
        · show o.sg.users = ((s.opens - 1 : Nat) : Int) + (if s.made then 1 else 0) + 1
          rw [husers, hopens]
          omega
      · cases hs
  | unmake destroy =>
      obtain ⟨o, ho, hs⟩ := Option.bind_eq_some_iff.mp hs
      have husers := h.users o ho
      split at hs
      · rename_i hguard
        obtain ⟨r, hrelease, rfl⟩ := Option.map_eq_some_iff.mp hs
        rw [hguard.2, if_pos rfl] at husers
        refine h.released hkernel ho (h.born ho) (fun _ => rfl) hrelease (by omega) ?_
        simp [husers]
      · cases hs
  | elsewhere m =>
      cases hs
      exact ⟨⟨h.refs, h.kept, h.valid, h.held, h.freed⟩, h.users, h.unborn⟩

theorem Inv.init (m : Mem) : Inv kernelMem shmId (.init m) := by
  refine ⟨⟨?_, ?_, ?_, ?_, fun _ => rfl⟩, ?_, fun _ => ⟨rfl, rfl, rfl, rfl⟩⟩ <;> rintro o ⟨⟩

/-- **References are conserved** in every run of the calls for one object, if the page counts of
`vmmc_make_shm` fit: each of its frames has one reference for every holder, the flag is set only
without users, the digest is right, and the references are gone when the object is. -/
theorem shm_references {m : Mem} {as : List Act} (hkernel : kernelMem shmId = true)
    (h : Run (step kernelMem shmId) CountsFit (.init m) as s) : Conserved kernelMem shmId s :=
  (h.invariant (I := Inv kernelMem shmId) (fun _ _ _ hi ok hs => hi.step hkernel ok hs)
    (.init m)).toConserved

/-- Two pages: the directory in frame 1 names the table in frame 2, and this one frames 3 and 4. -/
def twoPages : Mem :=
  let m : Mem := ⟨⟨0, 8, fun f => if 1 ≤ f ∧ f ≤ 4 then 1 else 0, 0⟩, fun _ _ => 0⟩
  ((m.setEntry 1 0 (entry 2 7)).setEntry 2 0 (entry 3 7)).setEntry 2 1 (entry 4 7)

/-- Making and unmaking an object of pages from address 0 on. -/
theorem make_unmake {areas : List (Nat × Int)} {r : Option ShmSg × Ledger}
    (ok : Life → Act → Prop) (hareas : areas ≠ [])
    (hr : ((makeShm ⟨twoPages, 0⟩ 1 areas 0).bind fun r => releaseShm r.2 r.1 true) = some r)
    (hmake : ok (.init twoPages) (.make 1 areas 0 0)) (hunmake : ∀ s, ok s (.unmake true)) :
    Run (step (fun _ => true) 0) ok (.init twoPages) [.make 1 areas 0 0, .unmake true]
      ⟨r.2, r.1.map (sealed · 0), true, true, 0, false⟩ := by
  obtain ⟨⟨sg, l⟩, hsg, hrelease⟩ := Option.bind_eq_some_iff.mp hr
  have hguard : ¬ ((Life.init twoPages).born ∨ areas = [] ∨ pageSize ≤ 0) := by
    simp [Life.init, hareas, pageSize]
  have hfirst : step (fun _ => true) 0 (.init twoPages) (.make 1 areas 0 0) =
      some ⟨l, some (sealed sg 0), true, true, 0, true⟩ := by
    rw [step, if_neg hguard, show (Life.init twoPages).ledger = ⟨twoPages, 0⟩ from rfl, hsg]
    rfl
  refine .more hmake hfirst (.one (hunmake _) ?_)
  have hvalid : isValidShm (fun _ => true) 0 (sealed sg 0) = true := isValidShm_sealed rfl sg 0
  simp only [step, Option.bind_some, hvalid, true_and, if_true]
  rw [show (sealed sg 0).sg = sg from rfl, hrelease]
  rfl

/-- An object of two pages is made and unmade. -/
theorem shm_references_two : ∃ s, Run (step (fun _ => true) 0) CountsFit (.init twoPages)
    [.make 1 [(0, 2)] 0 0, .unmake true] s ∧ Conserved (fun _ => true) 0 s := by
  have hsome : ((makeShm ⟨twoPages, 0⟩ 1 [(0, 2)] 0).bind fun r =>
      releaseShm r.2 r.1 true).isSome = true := by decide +kernel
  obtain ⟨r, hr⟩ := Option.isSome_iff_exists.mp hsome
  have hrun := make_unmake CountsFit (by simp) hr
    ⟨by simp, by decide⟩ (fun _ => trivial)
  exact ⟨_, hrun, shm_references rfl hrun⟩

/-- With a negative page count the object has one page and two references, and one of them stays
when it is gone. -/
theorem negative_count_leaks : ∃ s, Run (step (fun _ => true) 0) anyStep (.init twoPages)
    [.make 1 [(0, 2), (0, -1)] 0 0, .unmake true] s ∧ s.object = none ∧ s.ledger.refs 4 = 1 ∧
    ¬ Conserved (fun _ => true) 0 s := by
  have hleft : (((makeShm ⟨twoPages, 0⟩ 1 [(0, 2), (0, -1)] 0).bind fun r =>
      releaseShm r.2 r.1 true).map fun r => (r.1.isNone, r.2.refs 4)) = some (true, 1) := by
    decide +kernel
  obtain ⟨r, hr, heq⟩ := Option.map_eq_some_iff.mp hleft
  have hnone : r.1 = none := Option.isNone_iff_eq_none.mp (congrArg Prod.fst heq)
  have hone : r.2.refs 4 = 1 := congrArg Prod.snd heq
  have hrun := make_unmake anyStep (by simp) hr trivial (fun _ => trivial)
  refine ⟨_, hrun, by rw [hnone]; rfl, hone, fun hc => ?_⟩
  have hzero := congrFun (hc.freed (by rw [hnone]; rfl)) 4
  rw [show _ = r.2.refs 4 from rfl, hone] at hzero
  exact absurd hzero (by decide)

end Muxomucota.Mmu.ShmReferences
