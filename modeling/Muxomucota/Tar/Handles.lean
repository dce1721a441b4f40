import Muxomucota.Tar.Tree
import Muxomucota.Lib.Runs
import Mathlib.Logic.Function.Basic

/-!
# Tar — the handles of the service

`service_create_pipe`, `service_duplicate_pipe` and `service_destroy_pipe` of `progs/common/tar/tar.c`.
A handle has either a listing of its own, which goes when the handle goes, or the data of a node.
`malloc` is a counter: a buffer that was freed does not come again, so that one can see whether it was
freed twice.
-/

namespace Muxomucota.Tar
open Lib

/-! ### The service -/

/-- `struct mountpoint`. -/
structure Mountpoint where
  name : CString
  tar : Tree

inductive FileType where
  | mp
  | node
  | root
  deriving DecidableEq

/-- `struct file`, as far as its buffer goes. -/
structure TarFile where
  type : FileType
  ptr : Option Data
  sz : BitVec 32
  dataAlloced : Bool

/-- The service; `freed` counts how often each buffer was freed. -/
structure Service where
  mountpoints : List Mountpoint
  files : Nat → Option TarFile
  handles : Nat
  buffers : Nat
  freed : Nat → Nat

inductive Errno where
  | eacces
  | enoent
  deriving DecidableEq

def oWronly : BitVec 32 := 1 <<< 1
def oCreatMountPoint : BitVec 32 := 1 <<< 16

/-- Names, each with its NUL, and another NUL. -/
def listing (names : List CString) : List Byte := names.flatMap (· ++ [0]) ++ [0]

/-- The names of a node and its siblings. -/
def Tree.names : Tree → List CString
  | null => []
  | node name _ sibling _ => name :: sibling.names

/-- A node and its siblings from the one with the name on. -/
def Tree.seek (part : CString) : Tree → Tree
  | null => null
  | node name attr sibling children =>
      if name = part then node name attr sibling children else sibling.seek part

/-- The loop over the components in `service_create_pipe`, from `t` on; `none` is `ENOENT`. -/
def walk : List CString → Tree → Tree → Option Tree
  | [], _, final => some final
  | part :: parts, t, _ =>
      match t.seek part with
      | .null => none
      | .node name attr sibling children => walk parts children (.node name attr sibling children)

namespace Service

/-- A new handle. -/
def addFile (s : Service) (f : TarFile) : Service :=
  { s with files := Function.update s.files s.handles (some f), handles := s.handles + 1 }

@[simp] theorem addFile_files (s : Service) (f : TarFile) :
    (s.addFile f).files = Function.update s.files s.handles (some f) := rfl

/-- A new handle with a listing of its own. -/
def addListing (s : Service) (type : FileType) (names : List CString) : Service :=
  let bytes := listing names
  addFile { s with buffers := s.buffers + 1 }
    { type, ptr := some ⟨s.buffers, bytes⟩, sz := .ofNat 32 bytes.length, dataAlloced := true }

/-- The handle for what `final` points to; `none` is the dereference of `NULL`. -/
def addNode (s : Service) : Tree → Option Service
  | .null => none
  | .node _ attr _ children =>
      if attr.mode &&& sIfdir ≠ 0 then some (s.addListing .node children.names)
      else some (s.addFile { type := .node, ptr := attr.data, sz := attr.sz, dataAlloced := false })

/-- `service_create_pipe`; `none` is a crash, or a read behind the string. -/
def createPipe (s : Service) (relpath : CString) (flags : BitVec 32) :
    Option (Except Errno Service) :=
  let wronly := flags &&& oWronly ≠ 0
  match relpath with
  | [] =>
      if wronly then some (.error .eacces)
      else some (.ok (s.addListing .root (s.mountpoints.map Mountpoint.name)))
  | _ :: name =>
      if slash ∉ name then
        match s.mountpoints.find? (·.name = name) with
        | none =>
            if flags &&& oCreatMountPoint = 0 then some (.error .enoent)
            else some (.ok
              ({ s with mountpoints := ⟨name, .null⟩ :: s.mountpoints }.addListing .mp []))
        | some mp =>
            if wronly then some (.error .eacces) else some (.ok (s.addListing .mp mp.tar.names))
      else if wronly then some (.error .eacces)
      else
        match strtokR slash (some name) with
        | (some mpName, some tarpath) =>
            match s.mountpoints.find? (·.name = mpName) with
            | none => some (.error .enoent)
            | some mp =>
                match walk (components tarpath) mp.tar mp.tar with
                | none => some (.error .enoent)
                | some final => (s.addNode final).map .ok
        | _ => none

/-- `service_destroy_pipe`. -/
def destroyPipe (s : Service) (id : Nat) : Option Service :=
  (s.files id).map fun f =>
    let freed := match f.dataAlloced, f.ptr with
      | true, some d => Function.update s.freed d.buffer (s.freed d.buffer + 1)
      | _, _ => s.freed
    { s with files := Function.update s.files id none, freed }

/-- `service_duplicate_pipe`: the second `memcpy` overwrites the copy of the listing. -/
def duplicatePipe (s : Service) (id : Nat) : Option Service :=
  (s.files id).map fun f =>
    let s := if f.type = .root then { s with buffers := s.buffers + 1 } else s
    s.addFile f

end Service

/-- The calls. -/
inductive Call where
  | create (relpath : CString) (flags : BitVec 32)
  | duplicate (id : Nat)
  | destroy (id : Nat)

/-- One call; a call that fails changes nothing. -/
def Service.step (s : Service) : Call → Option Service
  | .create relpath flags => (s.createPipe relpath flags).map fun r => r.toOption.getD s
  | .duplicate id => s.duplicatePipe id
  | .destroy id => s.destroyPipe id

/-! ### Whose buffers they are -/

/-- A node at or below `t` has this buffer. -/
def Tree.HasData (d : Data) : Tree → Prop
  | null => False
  | node _ attr sibling children => attr.data = some d ∨ sibling.HasData d ∨ children.HasData d

theorem Tree.HasData.of_seek {part : CString} {d : Data} {t : Tree} (h : (t.seek part).HasData d) :
    t.HasData d := by
  induction t with
  | null => exact h
  | node name attr sibling children ih _ =>
      rw [Tree.seek] at h
      split at h
      · exact h
      · exact .inr (.inl (ih h))

theorem hasData_walk {d : Data} : ∀ {parts : List CString} {t final r : Tree},
    walk parts t final = some r → r.HasData d → t.HasData d ∨ final.HasData d := by
  intro parts
  induction parts with
  | nil =>
      intro t final r h hr
      cases h
      exact .inr hr
  | cons part parts ih =>
      intro t final r h hr
      rw [walk] at h
      split at h
      · cases h
      · rename_i name attr sibling children hseek
        have hd : (t.seek part).HasData d := by
          rw [hseek]
          rcases ih h hr with hd | hd
          · exact .inr (.inr hd)
          · exact hd
        exact .inl hd.of_seek

namespace Service

variable {s s' : Service} {base id : Nat} {f : TarFile} {d : Data}

/-- The buffers below `base` belong to the nodes, and each handle's listing is its own. -/
structure Apart (base : Nat) (s : Service) : Prop where
  nodes : ∀ mp ∈ s.mountpoints, ∀ d, mp.tar.HasData d → d.buffer < base
  le : base ≤ s.buffers
  unused : ∀ id, s.handles ≤ id → s.files id = none
  shared : ∀ id f d, s.files id = some f → f.dataAlloced = false → f.ptr = some d → d.buffer < base
  own : ∀ id f d, s.files id = some f → f.dataAlloced = true → f.ptr = some d →
    base ≤ d.buffer ∧ d.buffer < s.buffers ∧ s.freed d.buffer = 0
  unique : ∀ id id' f f' d d', s.files id = some f → s.files id' = some f' → f.dataAlloced = true →
    f'.dataAlloced = true → f.ptr = some d → f'.ptr = some d' → d.buffer = d'.buffer → id = id'
  once : ∀ b, s.freed b ≤ 1
  spare : ∀ b, b < base ∨ s.buffers ≤ b → s.freed b = 0

/-- Another buffer, which nobody has yet. -/
theorem Apart.moreBuffers (h : s.Apart base) : Apart base { s with buffers := s.buffers + 1 } :=
  { h with
    le := Nat.le_succ_of_le h.le
    own := fun id f d hf ha hd => by
      obtain ⟨h₁, h₂, h₃⟩ := h.own id f d hf ha hd
      exact ⟨h₁, Nat.lt_succ_of_lt h₂, h₃⟩
    spare := fun b hb => h.spare b (hb.imp id fun hb => Nat.le_of_succ_le hb) }

/-- A new handle, for the data of a node or with a buffer that nobody else has. -/
theorem Apart.addFile (h : s.Apart base)
    (hshared : f.dataAlloced = false → ∀ d, f.ptr = some d → d.buffer < base)
    (hown : f.dataAlloced = true → ∀ d, f.ptr = some d → base ≤ d.buffer ∧ d.buffer < s.buffers ∧
      s.freed d.buffer = 0 ∧ ∀ id f' d', s.files id = some f' → f'.dataAlloced = true →
        f'.ptr = some d' → d'.buffer ≠ d.buffer) : Apart base (s.addFile f) := by
  have hfiles : ∀ {id f'}, (s.addFile f).files id = some f' →
      (id = s.handles ∧ f' = f) ∨ s.files id = some f' := by
    intro id f' hf'
    by_cases hid : id = s.handles
    · subst hid
      left
      rw [addFile_files, Function.update_self] at hf'
      exact ⟨rfl, (Option.some.inj hf').symm⟩
    · right
      rwa [addFile_files, Function.update_of_ne hid] at hf'
  refine ⟨h.nodes, h.le, fun id hid => ?_, fun id f' d hf' ha hd => ?_, fun id f' d hf' ha hd => ?_,
    fun id id' f₁ f₂ d₁ d₂ h₁ h₂ ha₁ ha₂ hd₁ hd₂ heq => ?_, h.once, h.spare⟩
  · have hid : s.handles + 1 ≤ id := hid
    rw [addFile_files, Function.update_of_ne (by omega)]
    exact h.unused id (by omega)
  · rcases hfiles hf' with ⟨-, rfl⟩ | hf'
    · exact hshared ha d hd
    · exact h.shared id f' d hf' ha hd
  · rcases hfiles hf' with ⟨-, rfl⟩ | hf'
    · obtain ⟨h₁, h₂, h₃, -⟩ := hown ha d hd
      exact ⟨h₁, h₂, h₃⟩
    · exact h.own id f' d hf' ha hd
  · rcases hfiles h₁ with ⟨rfl, rfl⟩ | hf₁ <;> rcases hfiles h₂ with ⟨rfl, rfl⟩ | hf₂
    · rfl
    · exact absurd heq.symm ((hown ha₁ d₁ hd₁).2.2.2 id' f₂ d₂ hf₂ ha₂ hd₂)
    · exact absurd heq ((hown ha₂ d₂ hd₂).2.2.2 id f₁ d₁ hf₁ ha₁ hd₁)
    · exact h.unique id id' f₁ f₂ d₁ d₂ hf₁ hf₂ ha₁ ha₂ hd₁ hd₂ heq

theorem Apart.addListing (h : s.Apart base) (type : FileType) (names : List CString) :
    Apart base (s.addListing type names) := by
  refine h.moreBuffers.addFile (fun ha => by cases ha) fun _ d hd => ?_
  cases hd
  refine ⟨h.le, Nat.lt_succ_self _, h.spare _ (.inr le_rfl), fun id f' d' hf' ha' hd' heq => ?_⟩
  have hlt := (h.own id f' d' hf' ha' hd').2.1
  exact hlt.ne heq

theorem Apart.addNode {final : Tree} (h : s.Apart base) (hd : ∀ d, final.HasData d → d.buffer < base)
    (hs : s.addNode final = some s') : Apart base s' := by
  cases final with
  | null => cases hs
  | node name attr sibling children =>
      rw [Service.addNode] at hs
      split at hs <;> cases hs
      · exact h.addListing _ _
      · exact h.addFile (fun _ d hptr => hd d (.inl hptr)) fun ha => by cases ha

theorem Apart.createPipe {relpath : CString} {flags : BitVec 32} (h : s.Apart base)
    (hs : s.createPipe relpath flags = some (.ok s')) : Apart base s' := by
  unfold Service.createPipe at hs
  dsimp only at hs
  split at hs
  · split at hs <;> cases hs
    exact h.addListing _ _
  · split at hs
    · split at hs
      · split at hs <;> cases hs
        refine Apart.addListing ?_ _ _
        refine { h with nodes := fun mp hmp d hd => ?_ }
        rcases List.mem_cons.mp hmp with rfl | hmp
        · exact hd.elim
        · exact h.nodes mp hmp d hd
      · split at hs <;> cases hs
        exact h.addListing _ _
    · split at hs
      · cases hs
      · split at hs
        · split at hs
          · cases hs
          · rename_i mp hfind
            split at hs
            · cases hs
            · rename_i final hwalk
              obtain ⟨s₁, hs₁, hs⟩ := Option.map_eq_some_iff.mp hs
              cases hs
              have hmp : mp ∈ s.mountpoints := List.mem_of_find?_eq_some hfind
              exact h.addNode (fun d hd => (hasData_walk hwalk hd).elim (h.nodes mp hmp d)
                (h.nodes mp hmp d)) hs₁
        · cases hs

theorem Apart.destroyPipe (h : s.Apart base) (hs : s.destroyPipe id = some s') : Apart base s' := by
  obtain ⟨f, hf, rfl⟩ := Option.map_eq_some_iff.mp hs
  have hfiles : ∀ {id' f'}, Function.update s.files id none id' = some f' →
      id' ≠ id ∧ s.files id' = some f' := by
    intro id' f' hf'
    by_cases hid : id' = id
    · subst hid
      rw [Function.update_self] at hf'
      cases hf'
    · rw [Function.update_of_ne hid] at hf'
      exact ⟨hid, hf'⟩
  have hunused : ∀ id', s.handles ≤ id' → Function.update s.files id none id' = none := by
    intro id' hid'
    by_cases hid : id' = id
    · rw [hid, Function.update_self]
    · rw [Function.update_of_ne hid]
      exact h.unused id' hid'
  dsimp only
  split
  · rename_i d ha hd
    obtain ⟨hbase, hlt, hzero⟩ := h.own id f d hf ha hd
    refine ⟨h.nodes, h.le, hunused, fun id' f' d' hf' => h.shared id' f' d' (hfiles hf').2,
      fun id' f' d' hf' ha' hd' => ?_, fun id₁ id₂ f₁ f₂ d₁ d₂ h₁ h₂ =>
        h.unique id₁ id₂ f₁ f₂ d₁ d₂ (hfiles h₁).2 (hfiles h₂).2, fun b => ?_, fun b hb => ?_⟩
    · obtain ⟨hne, hf'⟩ := hfiles hf'
      obtain ⟨h₁, h₂, h₃⟩ := h.own id' f' d' hf' ha' hd'
      refine ⟨h₁, h₂, ?_⟩
      have hdiff : d'.buffer ≠ d.buffer := fun heq =>
        hne (h.unique id' id f' f d' d hf' hf ha' ha hd' hd heq)
      exact (Function.update_of_ne hdiff ..).trans h₃
    · dsimp only
      by_cases hb : b = d.buffer
      · rw [hb, Function.update_self, hzero]
      · rw [Function.update_of_ne hb]
        exact h.once b
    · have hb : b < base ∨ s.buffers ≤ b := hb
      exact (Function.update_of_ne (by rintro rfl; omega) ..).trans (h.spare b hb)
  · exact ⟨h.nodes, h.le, hunused, fun id' f' d' hf' => h.shared id' f' d' (hfiles hf').2,
      fun id' f' d' hf' => h.own id' f' d' (hfiles hf').2, fun id₁ id₂ f₁ f₂ d₁ d₂ h₁ h₂ =>
        h.unique id₁ id₂ f₁ f₂ d₁ d₂ (hfiles h₁).2 (hfiles h₂).2, h.once, h.spare⟩

/-- No handle with a listing is duplicated. -/
def NoListing (s : Service) : Call → Prop
  | .duplicate id => ∀ f, s.files id = some f → f.dataAlloced = false
  | _ => True

theorem Apart.duplicatePipe (h : s.Apart base) (ok : s.NoListing (.duplicate id))
    (hs : s.duplicatePipe id = some s') : Apart base s' := by
  obtain ⟨f, hf, rfl⟩ := Option.map_eq_some_iff.mp hs
  have ha := ok f hf
  have hbase : ∀ d, f.ptr = some d → d.buffer < base := fun d => h.shared id f d hf ha
  dsimp only
  split
  · exact h.moreBuffers.addFile (fun _ => hbase) fun ha' => by rw [ha] at ha'; cases ha'
  · exact h.addFile (fun _ => hbase) fun ha' => by rw [ha] at ha'; cases ha'

theorem apart_step {c : Call} (h : s.Apart base) (ok : s.NoListing c) (hs : s.step c = some s') :
    Apart base s' := by
  cases c with
  | create relpath flags =>
      obtain ⟨r, hr, rfl⟩ := Option.map_eq_some_iff.mp hs
      cases r with
      | error e => exact h
      | ok s₁ => exact h.createPipe hr
  | duplicate id => exact h.duplicatePipe ok hs
  | destroy id => exact h.destroyPipe hs

/-! ### Runs -/

/-- The service before the first handle, with any archives mounted. -/
structure Idle (s : Service) : Prop where
  noFiles : ∀ id, s.files id = none
  noneFreed : ∀ b, s.freed b = 0
  allocated : ∀ mp ∈ s.mountpoints, ∀ d, mp.tar.HasData d → d.buffer < s.buffers

theorem Idle.apart (h : s.Idle) : s.Apart s.buffers where
  nodes := h.allocated
  le := le_rfl
  unused id _ := h.noFiles id
  shared id f d hf := by rw [h.noFiles id] at hf; cases hf
  own id f d hf := by rw [h.noFiles id] at hf; cases hf
  unique id _ f _ _ _ hf := by rw [h.noFiles id] at hf; cases hf
  once b := by rw [h.noneFreed b]; exact Nat.zero_le _
  spare b _ := h.noneFreed b

/-- No buffer was freed twice, and no live handle refers to one that was freed. -/
structure OwnsBuffers (s : Service) : Prop where
  once : ∀ b, s.freed b ≤ 1
  live : ∀ id f d, s.files id = some f → f.ptr = some d → s.freed d.buffer = 0

theorem Apart.ownsBuffers (h : s.Apart base) : s.OwnsBuffers where
  once := h.once
  live id f d hf hd := by
    cases ha : f.dataAlloced with
    | true => exact (h.own id f d hf ha hd).2.2
    | false => exact h.spare _ (.inl (h.shared id f d hf ha hd))

/-- **Handles own their buffers** in every run that duplicates no handle with a listing. -/
theorem handles_own_buffers {calls : List Call} (h₀ : s.Idle) (h : Run step NoListing s calls s') :
    s'.OwnsBuffers :=
  (h.invariant (fun _ _ _ hi ok hs => apart_step hi ok hs) h₀.apart).ownsBuffers

/-- A service without archives. -/
def empty : Service :=
  { mountpoints := [], files := fun _ => none, handles := 0, buffers := 0, freed := fun _ => 0 }

theorem idle_empty : empty.Idle where
  noFiles _ := rfl
  noneFreed _ := rfl
  allocated _ h := by cases h

/-- Two bytes. -/
def fileData : Data := ⟨0, [0x68, 0x69]⟩

/-- The archive `a` with a directory `d` and in it the file `f`. -/
def oneArchive : Service :=
  let file : Tree := .node [0x66] { Attributes.blank with data := fileData, sz := 2, mode := sIfreg } .null .null
  { empty with mountpoints := [⟨[0x61], .node [0x64] .blank .null file⟩], buffers := 1 }

theorem idle_oneArchive : oneArchive.Idle where
  noFiles _ := rfl
  noneFreed _ := rfl
  allocated mp hmp d hd := by
    cases List.mem_singleton.mp hmp
    rcases hd with hd | hd | hd | hd | hd
    · cases hd
    · exact hd.elim
    · cases hd
      exact Nat.one_pos
    · exact hd.elim
    · exact hd.elim

/-- The root, `/a`, `/a/d` and `/a/d/f` are opened, the file is duplicated, and then one listing and the
first handle of the file are closed. -/
def besideListings : List Call :=
  [.create [] 0, .create [slash, 0x61] 0, .create [slash, 0x61, slash, 0x64] 0,
    .create [slash, 0x61, slash, 0x64, slash, 0x66] 0, .duplicate 3, .destroy 1, .destroy 3]

/-- The other handle of the file still has its data, and the other listings are there. -/
theorem handles_own_buffers_file : ∃ s, Run step NoListing oneArchive besideListings s ∧
    (s.files 4).map TarFile.ptr = some (some fileData) ∧
    (s.files 0).map TarFile.ptr = some (some ⟨1, listing [[0x61]]⟩) ∧
    (s.files 2).map TarFile.ptr = some (some ⟨3, listing [[0x66]]⟩) ∧ s.freed 2 = 1 ∧
    s.OwnsBuffers := by
  have hrun : Run step NoListing oneArchive besideListings _ :=
    .more trivial rfl (.more trivial rfl (.more trivial rfl (.more trivial rfl
      (.more (fun f hf => by cases hf; rfl) rfl (.more trivial rfl (.more trivial rfl (.refl _)))))))
  exact ⟨_, hrun, rfl, rfl, rfl, rfl, handles_own_buffers idle_oneArchive hrun⟩

/-- The handle of the root is duplicated, and its listing freed twice. -/
theorem duplicate_frees_twice : ¬ ∀ (s s' : Service) (calls : List Call), s.Idle →
    Run step anyStep s calls s' → s'.OwnsBuffers := by
  intro hall
  have hrun : Run step anyStep empty [.create [] 0, .duplicate 0, .destroy 0, .destroy 1] _ :=
    .more trivial rfl (.more trivial rfl (.more trivial rfl (.more trivial rfl (.refl _))))
  have := (hall _ _ _ idle_empty hrun).once 0
  revert this
  decide

end Service

end Muxomucota.Tar
