import Muxomucota.Mmu.Shm

/-!
# Mmu — references of the shared-memory objects

The kernel keeps references to frames in two places: `vmmc_make_shm` takes one to every frame of
its object until `vmmc_unmake_shm`, and an object that is kept alive has those of its last mapping.
`shmRefs` are the slots for them, so that the ownership invariant counts them too.
-/

namespace Muxomucota.Mmu
open Memory Pmm Lib

/-- The references that the kernel keeps to the frames of an object. -/
inductive ShmRef where
  | made (id i : Nat)
  | kept (id i : Nat)

/-- What they hold: `vmmc_make_shm` took one for each frame, and an object that is kept alive has
one for each frame. -/
def shmRefs (shm : Nat → Option ShmSg) (made : Nat → Bool) : ShmRef → Option Nat
  | .made id i => if made id then (shm id).bind fun sg => sg.phys[i]? else none
  | .kept id i => (shm id).bind fun sg => if sg.keptAlive then sg.phys[i]? else none

/-- The references of one object. -/
def objectRefs (made : Bool) : Option ShmSg → Nat → Int
  | none => 0
  | some sg => (if made then counts sg.phys else 0) + if sg.keptAlive then counts sg.phys else 0

section refs

variable {P : Nat → Option Nat} {d d' : Nat → Int} {m m' : Mem} {shm : Nat → Option ShmSg}
  {made : Nat → Bool} {id : Nat}

theorem objectRefs_nonneg (made : Bool) (sg : Option ShmSg) (g : Nat) : 0 ≤ objectRefs made sg g := by
  cases sg with
  | none => exact le_rfl
  | some sg =>
      have := counts_nonneg sg.phys g
      simp only [objectRefs, Pi.add_apply]
      split <;> split <;> simp <;> omega

theorem countP_getElem? (g : Nat) :
    ∀ {fs : List Nat} {n : Nat}, fs.length ≤ n →
      (List.range n).countP (fun i => fs[i]? = some g) = fs.count g := by
  intro fs
  induction fs with
  | nil => intro n _; simp
  | cons f fs ih =>
      intro n hn
      cases n with
      | zero => simp at hn
      | succ n =>
          have hrest : (List.range n).countP ((fun i => decide ((f :: fs)[i]? = some g)) ∘ Nat.succ) =
              fs.count g := by
            rw [← ih (n := n) (by simpa using hn)]
            refine List.countP_congr fun i _ => ?_
            simp
          rw [List.range_succ_eq_map, List.countP_cons, List.countP_map, hrest, List.count_cons]
          simp

/-- The references of one object, up to the `n`-th frame. -/
def refSlots (id n : Nat) : List ShmRef :=
  (List.range n).map (.made id) ++ (List.range n).map (.kept id)

theorem refSlots_nodup (id n : Nat) : (refSlots id n).Nodup := by
  refine List.nodup_append.mpr ⟨List.nodup_range.map fun i j hij => by simpa using hij,
    List.nodup_range.map fun i j hij => by simpa using hij, ?_⟩
  simp

theorem countP_refSlots {n : Nat} (hn : ∀ sg, shm id = some sg → sg.phys.length ≤ n) (g : Nat) :
    ((refSlots id n).countP fun r => shmRefs shm made r = some g : Int) =
      objectRefs (made id) (shm id) g := by
  rw [refSlots, List.countP_append, List.countP_map, List.countP_map]
  cases hsg : shm id with
  | none =>
      rw [List.countP_eq_zero.mpr, List.countP_eq_zero.mpr]
      · rfl
      · intro i _
        simp [shmRefs, hsg]
      · intro i _
        simp [shmRefs, hsg]
  | some sg =>
      have hcount := countP_getElem? g (hn sg hsg)
      have hmade : (List.range n).countP ((fun r => decide (shmRefs shm made r = some g)) ∘
          ShmRef.made id) = if made id then sg.phys.count g else 0 := by
        split
        · rename_i hm
          rw [← hcount]
          refine List.countP_congr fun i _ => ?_
          simp [shmRefs, hm, hsg]
        · rename_i hm
          refine List.countP_eq_zero.mpr fun i _ => ?_
          simp [shmRefs, hm]
      have hkept : (List.range n).countP ((fun r => decide (shmRefs shm made r = some g)) ∘
          ShmRef.kept id) = if sg.keptAlive then sg.phys.count g else 0 := by
        split
        · rename_i hk
          rw [← hcount]
          refine List.countP_congr fun i _ => ?_
          simp [shmRefs, hk, hsg]
        · rename_i hk
          refine List.countP_eq_zero.mpr fun i _ => ?_
          simp [shmRefs, hk, hsg]
      rw [hmade, hkept, objectRefs]
      simp only [Pi.add_apply, Nat.cast_add]
      split <;> split <;> simp [counts]

/-- One object changes, and the references that the kernel keeps to its frames. -/
theorem Owned.setObject {flag : Bool} {sg : Option ShmSg} (h : Owned P (shmRefs shm made) d m)
    (bal : ∀ g, d g + objectRefs flag sg g ≤ d' g + objectRefs (made id) (shm id) g)
    (idle : ∀ g, d' g ≤ 0) (solo : ∀ g, Structural P m g → d' g = 0)
    (nonneg : ∀ g, 0 ≤ m.pmm.users g + d' g) :
    Owned P (shmRefs (Function.update shm id sg) (Function.update made id flag)) d' m := by
  obtain ⟨n, hold, hnew⟩ : ∃ n, (∀ x, shm id = some x → x.phys.length ≤ n) ∧
      ∀ x, sg = some x → x.phys.length ≤ n := by
    refine ⟨((shm id).elim 0 fun x => x.phys.length) + (sg.elim 0 fun x => x.phys.length),
      fun x hx => ?_, fun x hx => ?_⟩
    · rw [hx]; simp
    · rw [hx]; simp
  refine h.refs (refSlots_nodup id n) (fun r hr => ?_) (fun g => ?_) (fun g _ => idle g) solo nonneg
  · -- beyond the lists there is nothing
    have hout : ∀ (x : Option ShmSg) (i : Nat), (∀ y, x = some y → y.phys.length ≤ n) → n ≤ i →
        (x.bind fun sg => sg.phys[i]?) = none := by
      intro x i hx hi
      cases x with
      | none => rfl
      | some y =>
          have := hx y rfl
          simp
          omega
    have hout' : ∀ (x : Option ShmSg) (i : Nat), (∀ y, x = some y → y.phys.length ≤ n) → n ≤ i →
        (x.bind fun sg => if sg.keptAlive then sg.phys[i]? else none) = none := by
      intro x i hx hi
      cases x with
      | none => rfl
      | some y =>
          have := hx y rfl
          simp
          omega
    cases r with
    | made j i =>
        by_cases hj : j = id
        · subst hj
          have hi : n ≤ i := by simpa [refSlots] using hr
          simp [shmRefs, hout _ i hold hi, hout _ i hnew hi]
        · simp [shmRefs, hj]
    | kept j i =>
        by_cases hj : j = id
        · subst hj
          have hi : n ≤ i := by simpa [refSlots] using hr
          simp only [shmRefs, Function.update_self]
          rw [hout' _ i hold hi, hout' _ i hnew hi]
        · simp [shmRefs, hj]
  · have hb := bal g
    rw [countP_refSlots hold, countP_refSlots (by simpa using hnew)]
    simpa using hb

/-- The same when all references are stored. -/
theorem Owned.storeObject {flag : Bool} {sg : Option ShmSg} (h : Owned P (shmRefs shm made) d m)
    (bal : ∀ g, d g + objectRefs flag sg g ≤ objectRefs (made id) (shm id) g) :
    Owned P (shmRefs (Function.update shm id sg) (Function.update made id flag)) 0 m :=
  h.setObject (by simpa using bal) (fun _ => le_rfl) (fun _ _ => rfl) fun g => by simp

/-- A frame that an object keeps alive is no directory or page table. -/
theorem Owned.kept_frame {sg : ShmSg} {f : Nat} (h : Owned P (shmRefs shm made) d m)
    (hsg : shm id = some sg) (hk : sg.keptAlive = true) (hf : f ∈ sg.phys) :
    m.pmm.users f ≠ 0 ∧ ¬ Structural P m f := by
  obtain ⟨i, hi, rfl⟩ := List.getElem_of_mem hf
  have hslot : slots P (shmRefs shm made) m (.ref (.kept id i)) = some sg.phys[i] := by
    simp [slots, shmRefs, hsg, hk, List.getElem?_eq_getElem hi]
  refine ⟨by have := h.users_pos hslot; omega, ?_⟩
  rintro (⟨c, hc⟩ | ⟨c, pdi, ht⟩)
  · simpa using h.sole (s := .ref (.kept id i)) (q := .dir c) (h.solo_dir hc) hslot hc
  · simpa using h.sole (s := .ref (.kept id i)) (q := .table c pdi) (h.solo_table ht) hslot ht

/-- The references of `vmmc_make_shm` are taken off the object. -/
theorem Owned.unmake {sg : ShmSg} (h : Owned P (shmRefs shm made) 0 m) (hsg : shm id = some sg)
    (hmade : made id = true) :
    Owned P (shmRefs shm (Function.update made id false)) (fun g => - counts sg.phys g) m := by
  have hle : ∀ g, counts sg.phys g ≤ m.pmm.users g := by
    intro g
    have hcount := h.covered.countP_le (a := g)
      (l := (List.range sg.phys.length).map fun i => Slot.ref (.made id i))
      (List.nodup_range.map fun i j hij => by simpa using hij)
    have heq : ((List.range sg.phys.length).map fun i => Slot.ref (ShmRef.made id i)).countP
        (fun s => slots P (shmRefs shm made) m s = some g) = sg.phys.count g := by
      rw [List.countP_map, ← countP_getElem? g le_rfl]
      refine List.countP_congr fun i _ => ?_
      simp [slots, shmRefs, hsg, hmade]
    rw [heq] at hcount
    simp only [Pi.zero_apply, add_zero, Int.toNat_natCast] at hcount
    simp only [counts]
    omega
  have hone : ∀ g, Structural P m g → counts sg.phys g = 0 := by
    intro g hg
    by_contra hne
    have hmem : g ∈ sg.phys := by
      by_contra hno
      exact hne (counts_eq_zero hno)
    obtain ⟨i, hi, rfl⟩ := List.getElem_of_mem hmem
    have hslot : slots P (shmRefs shm made) m (.ref (.made id i)) = some sg.phys[i] := by
      simp [slots, shmRefs, hsg, hmade, List.getElem?_eq_getElem hi]
    rcases hg with ⟨c, hc⟩ | ⟨c, pdi, ht⟩
    · simpa using h.sole (s := .ref (.made id i)) (q := .dir c) (h.solo_dir hc) hslot hc
    · simpa using h.sole (s := .ref (.made id i)) (q := .table c pdi) (h.solo_table ht) hslot ht
  have hset : Owned P (shmRefs (Function.update shm id (some sg)) (Function.update made id false))
      (fun g => - counts sg.phys g) m :=
    h.setObject (fun g => ?_) (fun g => ?_) (fun g hg => ?_) fun g => ?_
  · rwa [← hsg, Function.update_eq_self] at hset
  · rw [hsg, hmade]
    simp [objectRefs]
  · have := counts_nonneg sg.phys g
    omega
  · simp [hone g hg]
  · have := hle g
    omega

/-- What is left of an object that is given back. -/
theorem releaseShm_fields {sg : ShmSg} {sg' : Option ShmSg} {destroy : Bool}
    (hm : releaseShm m sg destroy = some (sg', m')) :
    m'.ram = m.ram ∧ ∀ x, sg' = some x → x.size = sg.size ∧ x.phys = sg.phys ∧
      x.offset = sg.offset := by
  unfold releaseShm at hm
  dsimp only at hm
  split at hm
  · cases hm
    exact ⟨rfl, fun x hx => by cases hx; exact ⟨rfl, rfl, rfl⟩⟩
  · obtain ⟨b, hb, hm⟩ := Option.map_eq_some_iff.mp hm
    cases hm
    refine ⟨freeAll_ram hb, fun x hx => ?_⟩
    split at hx
    · cases hx
    · cases hx; exact ⟨rfl, rfl, rfl⟩

/-- `vmmc_close_shm` and `vmmc_unmake_shm` give a reference to every frame back, or store it in an
object that is kept alive. -/
theorem releaseShm_spec {sg : ShmSg} {sg' : Option ShmSg} {destroy : Bool}
    (h : Owned P (shmRefs shm made) d m) (hlen : sg.phys.length = sg.pages)
    (hd : ∀ g, d g + counts sg.phys g ≤ 0) (hm : releaseShm m sg destroy = some (sg', m'))
    (flag : Bool) :
    (∃ d', Owned P (shmRefs shm made) d' m' ∧
      ∀ g, d' g + objectRefs flag sg' g ≤ objectRefs flag (some sg) g) ∧
      m'.ram = m.ram ∧ (∀ x, sg' = some x → x.size = sg.size ∧ x.phys = sg.phys ∧
        x.offset = sg.offset) := by
  have hnonneg : ∀ g, (0 : Int) ≤ objectRefs flag (some sg) g := objectRefs_nonneg flag _
  refine ⟨?_, releaseShm_fields hm⟩
  unfold releaseShm at hm
  dsimp only at hm
  split at hm
  · cases hm
    refine ⟨d, h, fun g => ?_⟩
    have h₁ := hd g
    have h₂ := counts_nonneg sg.phys g
    cases flag <;> cases hk : sg.keptAlive <;> simp [objectRefs, hk] <;> omega
  · obtain ⟨b, hb, hm⟩ := Option.map_eq_some_iff.mp hm
    cases hm
    rw [show ({ sg with users := sg.users - 1 } : ShmSg).frames = sg.phys from frames_eq hlen] at hb
    obtain ⟨h₁, -, -⟩ := freeAll_spec h (fun g _ => hd g) hb
    refine ⟨_, h₁, fun g => ?_⟩
    have h₂ := hd g
    have h₃ := hnonneg g
    split
    · simp only [objectRefs, Pi.add_apply, Pi.zero_apply] at h₃ ⊢
      omega
    · simp only [objectRefs, Pi.add_apply]
      omega

end refs

end Muxomucota.Mmu
