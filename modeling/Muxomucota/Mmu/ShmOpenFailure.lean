import Muxomucota.Mmu.FrameLists
import Muxomucota.Mmu.ShmReferences
import Muxomucota.Mmu.UserMap

/-!
# Mmu — opening shared memory without room

`vmmc_open_shm` adds the offset of the object to what `vmmc_user_map_sg` returns before it asks
whether that is `NULL`.  Where there is no room in the address space, an object with an offset is
opened all the same: its offset is returned as the address, and its users and its digest change.
An object without pages is opened without mapping anything.
-/

namespace Muxomucota.Mmu.ShmReferences

open Memory Pmm Lib

variable {m m' : Mem} {pd n start : Nat} {flags : BitVec 32} {fs : List Nat} {o : Object}
  {sg : ShmSg} {kernelMem : Nat → Bool} {shmId : Nat}

/-! ### The call -/

theorem taken_held (h : Taken m fs m') (hh : Held m pd n) : Held m' pd n := by
  have hkeep : ∀ g, m.pmm.users g ≠ 0 → m'.pmm.users g ≠ 0 := by
    intro g hg
    rw [h.users]
    split
    · exact Nat.one_ne_zero
    · exact hg
  have hent : ∀ i, m'.entry pd i = m.entry pd i := fun i => entry_congr (congrFun h.ram pd) i
  refine ⟨hh.toSpace.of_ram h.ram, hkeep pd hh.dir, fun i hi => ?_, ?_⟩
  · rw [hent]
    exact fun hpr => hkeep _ (hh.tables i hi hpr)
  · rw [h.frames.1, h.frames.2]
    exact hh.small

/-- `vmmc_open_shm` with the check of the object and the digest, which is renewed on success. -/
def openObject (kernelMem : Nat → Bool) (shmId : Nat) (m : Mem) (pd : Nat) (o : Object)
    (flags : BitVec 32) : Option (Nat × Object × Mem) :=
  if isValidShm kernelMem shmId o then
    (vmmcOpenShm m pd o.sg flags).map fun r =>
      (r.1, if r.1 = 0 then { o with sg := r.2.1 } else sealed r.2.1 o.padding, r.2.2)
  else none

/-- It is what a step of the object's life does. -/
theorem step_openAt {s s' : Life} (hs : step kernelMem shmId s (.openAt pd flags) = some s')
    (ho : s.object = some o) : ∃ r, openObject kernelMem shmId s.ledger.mem pd o flags = some r ∧
      s'.object = some r.2.1 ∧ s'.ledger.mem = r.2.2 := by
  simp only [step, ho, Option.bind_some] at hs
  split at hs
  · rename_i hvalid
    obtain ⟨r, hr, rfl⟩ := Option.map_eq_some_iff.mp hs
    have hmem := openShm_mem s.ledger pd o.sg flags
    rw [hr, Option.map_some] at hmem
    refine ⟨_, by rw [openObject, if_pos hvalid, ← hmem, Option.map_some], ?_, ?_⟩ <;>
      simp only [opened] <;> split <;> rfl
  · cases hs

/-- `NULL` is returned, and the object, the user counts and the page tables are as they were. -/
structure Refused (m : Mem) (o : Object) (r : Nat × Object × Mem) : Prop where
  null : r.1 = 0
  users : r.2.1.sg.users = o.sg.users
  keptAlive : r.2.1.sg.keptAlive = o.sg.keptAlive
  digest : r.2.1.digest = o.digest
  counts : r.2.2.pmm.users = m.pmm.users
  tables : r.2.2.ram = m.ram

/-- The object has pages, and they are there behind the address. -/
structure Mapped (m' : Mem) (pd : Nat) (sg : ShmSg) (mapping : Nat) : Prop where
  some_page : sg.frames ≠ []
  pages : ∃ start, mapping = (start + sg.offset) % 2 ^ 32 ∧ ∀ i f, sg.frames[i]? = some f →
    ∃ e, m'.page pd (start / 4096 + i) = some e ∧ frameOf e = f

/-- What is asked of the call: without room it is refused, and an address is that of a mapping. -/
structure OpenAtomic (kernelMem : Nat → Bool) (shmId : Nat) (m : Mem) (pd : Nat) (o : Object)
    (flags : BitVec 32) : Prop where
  refused : NoRoom m pd o.sg.pages →
    ∃ r, openObject kernelMem shmId m pd o flags = some r ∧ Refused m o r
  mapped : ∀ r, openObject kernelMem shmId m pd o flags = some r → r.1 ≠ 0 →
    Mapped r.2.2 pd r.2.1.sg r.1

/-- The object is opened for the first time. -/
def FirstOpen (sg : ShmSg) : Prop := ¬ (sg.keptAlive = true ∨ sg.users ≠ 0)

/-- Without room the object must have no offset, and to open it for the first time there must be
frames for it; an object without pages must have an offset that takes the beginning of the mapping
area to `NULL`. -/
structure FailsSafely (m : Mem) (pd : Nat) (sg : ShmSg) : Prop where
  offset : NoRoom m pd sg.pages → sg.offset % 2 ^ 32 = 0
  memory : NoRoom m pd sg.pages → FirstOpen sg → sg.pages ≤ freeFrames m.pmm
  empty : sg.pages = 0 → (userMapBase + sg.offset) % 2 ^ 32 = 0

/-! ### What the mapper returns -/

/-- The pages of the list are there from `start` on. -/
def ListMapped (m' : Mem) (pd : Nat) (fs : List Nat) (start : Nat) : Prop :=
  ∀ i f, fs[i]? = some f → ∃ e, m'.page pd (start / 4096 + i) = some e ∧ frameOf e = f

theorem userMapSg_noRoom (flags : BitVec 32) (hno : NoRoom m pd fs.length) :
    vmmcUserMapSg m pd fs flags = some (0, m) := by
  rw [vmmcUserMapSg, mapSgStart_none_iff.mpr hno]

theorem userMapSg_nil (m : Mem) (pd : Nat) (flags : BitVec 32) :
    vmmcUserMapSg m pd [] flags = some (userMapBase, m) := by
  rw [vmmcUserMapSg, List.length_nil, mapSgStart_zero]
  rfl

/-- With room the list is mapped. -/
theorem userMapSg_room (h : Held m pd n) (hn : userPdes ≤ n) (hne : fs ≠ [])
    (hfs : ∀ f ∈ fs, f < 2 ^ 20) (hroom : ¬ NoRoom m pd fs.length)
    (hm : vmmcUserMapSg m pd fs flags = some (start, m')) : ListMapped m' pd fs start := by
  unfold vmmcUserMapSg at hm
  split at hm
  · rename_i hnone
    exact absurd (mapSgStart_none_iff.mp hnone) hroom
  · rename_i s hs
    obtain ⟨b, hloop, hm⟩ := Option.map_eq_some_iff.mp hm
    cases hm
    obtain ⟨a, hgap, hend, hlost, hkept⟩ := mapSgStart_gap hs (List.length_pos_iff.mpr hne)
    have hbase := hgap.base_le
    simp only [userMapBase, userPdes] at hbase hend hn
    -- the gap, or 4 MiB below it
    obtain ⟨t, hst, hle⟩ : ∃ t, start = t * 4096 ∧ t ≤ a := by
      by_cases hcarry : CarryLost m pd (a + fs.length)
      · exact ⟨a - 1024, hlost hcarry, by omega⟩
      · exact ⟨a, hkept hcarry, le_rfl⟩
    subst hst
    have hpages := mapFrames_page h (by simpa [userPdes] using hn) (by simp only [userPdes]; omega) hloop
    intro i f hf
    have hlt := (List.getElem?_eq_some_iff.mp hf).1
    refine ⟨entry f (pageFlags flags), ?_,
      frameOf_entry (hfs f (List.mem_of_getElem? hf)) (isFlags_pageFlags flags)⟩
    rw [show t * 4096 / 4096 = t by omega, hpages (t + i) (by omega), if_pos (by omega),
      Nat.add_sub_cancel_left, hf]
    rfl

/-! ### Without room -/

theorem openObject_some {r : Nat × Object × Mem} (hvalid : isValidShm kernelMem shmId o = true) :
    openObject kernelMem shmId m pd o flags = some r ↔
      ∃ x, vmmcOpenShm m pd o.sg flags = some x ∧
        (x.1, if x.1 = 0 then { o with sg := x.2.1 } else sealed x.2.1 o.padding, x.2.2) = r := by
  rw [openObject, if_pos hvalid, Option.map_eq_some_iff]

/-- Without room the offset is the address, and frames are taken only to open it for the first
time. -/
theorem refused_iff (hvalid : isValidShm kernelMem shmId o = true) (hl : LookOk m.pmm)
    (hphys : o.sg.frames.length = o.sg.pages) (hno : NoRoom m pd o.sg.pages) :
    (∃ r, openObject kernelMem shmId m pd o flags = some r ∧ Refused m o r) ↔
      o.sg.offset % 2 ^ 32 = 0 ∧ (FirstOpen o.sg → o.sg.pages ≤ freeFrames m.pmm) := by
  by_cases hlive : o.sg.keptAlive = true ∨ o.sg.users ≠ 0
  · have hmap : vmmcUserMapSg m pd o.sg.frames flags = some (0, m) :=
      userMapSg_noRoom flags (by rwa [hphys])
    have hopen : vmmcOpenShm m pd o.sg flags =
        if o.sg.offset % 2 ^ 32 = 0 then some (0, o.sg, m)
        else if o.sg.keptAlive then some (o.sg.offset % 2 ^ 32,
          { o.sg with keptAlive := false, users := o.sg.users + 1 }, m)
        else (Mmu.useAll m o.sg.frames).map fun m =>
          (o.sg.offset % 2 ^ 32, { o.sg with users := o.sg.users + 1 }, m) := by
      rw [vmmcOpenShm, if_pos hlive, hmap, Option.bind_some]
      simp only [Nat.zero_add]
    constructor
    · rintro ⟨r, hr, hrefused⟩
      refine ⟨?_, fun hfirst => absurd hlive hfirst⟩
      by_contra hoff
      obtain ⟨x, hx, rfl⟩ := (openObject_some hvalid).mp hr
      rw [hopen, if_neg hoff] at hx
      have hnull : x.1 = 0 := hrefused.null
      split at hx
      · cases hx
        exact hoff hnull
      · obtain ⟨m₁, -, rfl⟩ := Option.map_eq_some_iff.mp hx
        exact hoff hnull
    · rintro ⟨hoff, -⟩
      rw [if_pos hoff] at hopen
      exact ⟨_, (openObject_some hvalid).mpr ⟨_, hopen, rfl⟩, rfl, rfl, rfl, rfl, rfl, rfl⟩
  · -- the frames are taken before the search
    have hopen : ∀ fs : List Nat, fs.length = o.sg.pages → ∀ m₁ : Mem, m₁.ram = m.ram →
        vmmcUserMapSg m₁ pd fs flags = some (0, m₁) := by
      intro fs hlen m₁ hram
      refine userMapSg_noRoom flags ?_
      rw [hlen]
      intro a ha hend hgap
      refine hno a ha hend fun v hv hv' => ?_
      rw [Busy, ← page_of_ram hram]
      exact hgap v hv hv'
    constructor
    · rintro ⟨r, hr, hrefused⟩
      obtain ⟨x, hx, rfl⟩ := (openObject_some hvalid).mp hr
      rw [vmmcOpenShm, if_neg hlive, Option.bind_eq_some_iff] at hx
      obtain ⟨⟨fs, m₁⟩, ha, hx⟩ := hx
      refine ⟨?_, fun _ => (allocAll_isSome_iff hl).mp ⟨_, ha⟩⟩
      obtain ⟨ht, hlen⟩ := allocAll_taken ha
      dsimp only at hx
      rw [hopen fs hlen m₁ ht.ram, Option.bind_some] at hx
      simp only [Nat.zero_add] at hx
      by_contra hoff
      rw [if_neg hoff] at hx
      cases hx
      exact hoff hrefused.null
    · rintro ⟨hoff, hroom⟩
      obtain ⟨⟨fs, m₁⟩, ha⟩ := (allocAll_isSome_iff hl).mpr (hroom hlive)
      obtain ⟨ht, hlen⟩ := allocAll_taken ha
      obtain ⟨m₂, hm₂, hram, hus⟩ := ht.freeAll
      have hrun : vmmcOpenShm m pd o.sg flags = some (0, { o.sg with phys := fs }, m₂) := by
        rw [vmmcOpenShm, if_neg hlive, ha, Option.bind_some]
        dsimp only
        rw [hopen fs hlen m₁ ht.ram, Option.bind_some]
        simp only [Nat.zero_add]
        rw [if_pos hoff, hm₂]
        rfl
      exact ⟨_, (openObject_some hvalid).mpr ⟨_, hrun, rfl⟩, rfl, rfl, rfl, rfl, hus, hram⟩

/-! ### The address -/

/-- With room, an address is that of the object's pages. -/
theorem openShm_mapped {x : Nat × ShmSg × Mem} (h : Held m pd n) (hn : userPdes ≤ n)
    (hphys : sg.frames.length = sg.pages) (hfs : ∀ f ∈ sg.frames, f < 2 ^ 20)
    (hpos : sg.pages ≠ 0) (hroom : ¬ NoRoom m pd sg.pages)
    (hx : vmmcOpenShm m pd sg flags = some x) (hne : x.1 ≠ 0) : Mapped x.2.2 pd x.2.1 x.1 := by
  unfold vmmcOpenShm at hx
  split at hx
  · obtain ⟨⟨start, m₁⟩, hmap, hx⟩ := Option.bind_eq_some_iff.mp hx
    have hnil : sg.frames ≠ [] := fun hnil => hpos (by rw [← hphys, hnil]; rfl)
    have hlist := userMapSg_room h hn hnil hfs (by rwa [hphys]) hmap
    dsimp only at hx
    split at hx
    · cases hx
      exact absurd rfl hne
    · split at hx
      · cases hx
        exact ⟨hnil, start, rfl, hlist⟩
      · obtain ⟨m₂, hm₂, rfl⟩ := Option.map_eq_some_iff.mp hx
        refine ⟨hnil, start, rfl, fun i f hf => ?_⟩
        rw [page_of_ram (useAll_ram hm₂)]
        exact hlist i f hf
  · obtain ⟨⟨fs, m₁⟩, ha, hx⟩ := Option.bind_eq_some_iff.mp hx
    obtain ⟨⟨start, m₂⟩, hmap, hx⟩ := Option.bind_eq_some_iff.mp hx
    obtain ⟨ht, hlen⟩ := allocAll_taken ha
    have hnil : fs ≠ [] := fun hnil => hpos (by rw [← hlen, hnil]; rfl)
    have hlt : ∀ f ∈ fs, f < 2 ^ 20 := fun f hf => tracked_lt h.small (ht.fresh f hf).2
    have hroom₁ : ¬ NoRoom m₁ pd fs.length := by
      intro hno
      refine hroom fun a ha hend hgap => hno a ha (by rwa [hlen]) fun v hv hv' => ?_
      rw [hlen] at hv'
      rw [Busy, page_of_ram ht.ram]
      exact hgap v hv hv'
    have hlist := userMapSg_room (taken_held ht h) hn hnil hlt hroom₁ hmap
    have htake : (fs.take sg.pages) = fs := List.take_of_length_le (by omega)
    dsimp only at hx
    split at hx
    · obtain ⟨m₃, -, rfl⟩ := Option.map_eq_some_iff.mp hx
      exact absurd rfl hne
    · cases hx
      refine ⟨?_, start, rfl, ?_⟩
      · show fs.take sg.pages ≠ []
        rwa [htake]
      · show ∀ i f, (fs.take sg.pages)[i]? = some f → _
        rw [htake]
        exact hlist

/-- An object without pages is opened at the beginning of the mapping area. -/
theorem openShm_empty (m : Mem) (pd : Nat) (flags : BitVec 32)
    (hphys : sg.frames.length = sg.pages) (hpages : sg.pages = 0) :
    ∃ x, vmmcOpenShm m pd sg flags = some x ∧ x.1 = (userMapBase + sg.offset) % 2 ^ 32 ∧
      x.2.1.frames = [] := by
  have hnil : sg.frames = [] := List.length_eq_zero_iff.mp (hphys.trans hpages)
  have hframes : ∀ sg' : ShmSg, sg'.size = sg.size → sg'.frames = [] := by
    intro sg' hsize
    rw [ShmSg.frames, ShmSg.pages, hsize, show pagesOf sg.size = 0 from hpages, List.take_zero]
  by_cases hlive : sg.keptAlive = true ∨ sg.users ≠ 0
  · rw [vmmcOpenShm, if_pos hlive, hnil, userMapSg_nil, Option.bind_some]
    dsimp only
    split
    · rename_i hz
      exact ⟨_, rfl, hz.symm, hframes _ rfl⟩
    · split
      · exact ⟨_, rfl, rfl, hframes _ rfl⟩
      · exact ⟨_, rfl, rfl, hframes _ rfl⟩
  · rw [vmmcOpenShm, if_neg hlive, hpages, show Mmu.allocAll m 0 = some ([], m) from rfl,
      Option.bind_some]
    dsimp only
    rw [userMapSg_nil, Option.bind_some]
    dsimp only
    split
    · rename_i hz
      exact ⟨_, rfl, hz.symm, hframes _ rfl⟩
    · exact ⟨_, rfl, rfl, hframes _ rfl⟩

/-- **Opening shared memory without room**: for any valid object and any address space the call
fails as it should if and only if the object's offset does not hide the failure. -/
theorem open_shm_atomic_iff (h : Held m pd n) (hn : userPdes ≤ n) (hl : LookOk m.pmm)
    (hvalid : isValidShm kernelMem shmId o = true) (hphys : o.sg.frames.length = o.sg.pages)
    (hfs : ∀ f ∈ o.sg.frames, f < 2 ^ 20) :
    OpenAtomic kernelMem shmId m pd o flags ↔ FailsSafely m pd o.sg := by
  constructor
  · intro ha
    refine ⟨fun hno => ((refused_iff hvalid hl hphys hno).mp (ha.refused hno)).1,
      fun hno => ((refused_iff hvalid hl hphys hno).mp (ha.refused hno)).2, fun hpages => ?_⟩
    by_contra hne
    obtain ⟨x, hx, haddr, hnil⟩ := openShm_empty m pd flags hphys hpages
    have hx₁ : x.1 ≠ 0 := by rwa [haddr]
    have hmapped := ha.mapped _ ((openObject_some hvalid).mpr ⟨x, hx, rfl⟩) hx₁
    rw [if_neg hx₁] at hmapped
    exact hmapped.some_page hnil
  · intro hs
    refine ⟨fun hno => (refused_iff hvalid hl hphys hno).mpr ⟨hs.offset hno, hs.memory hno⟩,
      fun r hr hne => ?_⟩
    obtain ⟨x, hx, rfl⟩ := (openObject_some hvalid).mp hr
    dsimp only at hne ⊢
    rw [if_neg hne]
    by_cases hpages : o.sg.pages = 0
    · obtain ⟨x', hx', haddr, -⟩ := openShm_empty m pd flags hphys hpages
      rw [hx] at hx'
      cases hx'
      exact absurd (haddr.trans (hs.empty hpages)) hne
    · by_cases hno : NoRoom m pd o.sg.pages
      · have hex : ∃ r, openObject kernelMem shmId m pd o flags = some r ∧ Refused m o r :=
          (refused_iff hvalid hl hphys hno).mpr ⟨hs.offset hno, hs.memory hno⟩
        obtain ⟨r, hr', hrefused⟩ := hex
        rw [hr] at hr'
        cases hr'
        exact absurd hrefused.null hne
      · exact openShm_mapped h hn hphys hfs hpages hno hx hne

/-! ### A full mapping area -/

/-- A directory in frame 0 whose entries from `USER_MAP_BASE` to `PHYS_BASE` have page tables of
their own, all of them full. -/
def fullArea : Mem where
  pmm := ⟨0, 256, fun f => if f < 194 then 1 else 0, 0⟩
  ram := .ofWords fun f i =>
    if f = 0 then
      if 768 ≤ i ∧ i < 960 then entry (i - 767) (mapPr ||| mapRw ||| mapUs) else 0
    else entry 193 (mapPr ||| mapRw ||| mapUs)

theorem fullArea_dir (i : Nat) : fullArea.entry 0 i =
    if 768 ≤ i ∧ i < 960 then entry (i - 767) (mapPr ||| mapRw ||| mapUs) else 0 :=
  Ram.entry_ofWords _ 0 i

theorem fullArea_table {f : Nat} (hf : f ≠ 0) (i : Nat) :
    fullArea.entry f i = entry 193 (mapPr ||| mapRw ||| mapUs) :=
  (Ram.entry_ofWords _ f i).trans (if_neg hf)

theorem fullArea_present {i : Nat} (hpr : isPr (fullArea.entry 0 i) = true) :
    768 ≤ i ∧ i < 960 ∧ frameOf (fullArea.entry 0 i) = i - 767 := by
  rw [fullArea_dir] at hpr ⊢
  split at hpr
  · rename_i hi
    rw [if_pos hi]
    exact ⟨hi.1, hi.2, frameOf_entry (by omega) (isFlags_mapPr.or isFlags_mapRw |>.or isFlags_mapUs)⟩
  · cases hpr

theorem held_fullArea : Held fullArea 0 960 := by
  refine ⟨⟨fun i _ j _ hi hj heq => ?_, fun i _ hi => ?_⟩, by decide, fun i _ hi => ?_, by decide⟩
  · obtain ⟨h₁, -, hfi⟩ := fullArea_present hi
    obtain ⟨h₂, -, hfj⟩ := fullArea_present hj
    omega
  · obtain ⟨h₁, -, hf⟩ := fullArea_present hi
    omega
  · obtain ⟨h₁, h₂, hf⟩ := fullArea_present hi
    have hu : fullArea.pmm.bitmap (i - 767) = 1 := by
      unfold fullArea
      dsimp only
      rw [if_pos (by omega)]
    rw [hf, users, hu]
    decide

theorem noRoom_fullArea {pages : Nat} (hpos : 0 < pages) : NoRoom fullArea 0 pages := by
  intro a ha hend hgap
  simp only [userMapBase, physBase] at ha hend
  refine hgap a le_rfl (by omega) ?_
  have hdir := fullArea_dir (a / 1024)
  rw [if_pos (by omega)] at hdir
  have hpr : isPr (fullArea.entry 0 (a / 1024)) = true := by
    rw [hdir, isPr_entry]
    decide
  obtain ⟨h₁, -, hf⟩ := fullArea_present hpr
  rw [Busy, page_present hpr, hf, fullArea_table (by omega)]
  decide

/-- An object of one page that was never opened, where there is no room. -/
theorem open_shm_atomic_full : OpenAtomic (fun _ => true) 0 fullArea 0
    (sealed (vmmcCreateShm 4096 fun _ => 0) 0) vmmUr :=
  (open_shm_atomic_iff held_fullArea (show userPdes ≤ 960 by decide)
    (fun f _ hlt => absurd hlt (by simp [fullArea]))
    (isValidShm_sealed rfl _ _) (by decide) (by decide)).mpr
    ⟨fun _ => rfl, fun _ _ => by decide +kernel, fun h => absurd h (by decide)⟩

/-- The same page made by a process from a buffer at offset 16 is opened without room. -/
theorem open_shm_hides_failure : NoRoom fullArea 0 1 ∧
    ¬ OpenAtomic (fun _ => true) 0 fullArea 0 (sealed ⟨4096, 1, 16, false, [193]⟩ 0) vmmUr := by
  refine ⟨noRoom_fullArea Nat.one_pos, fun ha => ?_⟩
  have hno : NoRoom fullArea 0 (ShmSg.pages ⟨4096, 1, 16, false, [193]⟩) :=
    noRoom_fullArea (by decide)
  obtain ⟨hoff, -⟩ := (refused_iff (isValidShm_sealed rfl _ _)
    (fun f _ hlt => absurd hlt (by simp [fullArea])) (by decide) hno).mp (ha.refused hno)
  exact absurd hoff (by decide)

end Muxomucota.Mmu.ShmReferences
