import Muxomucota.Stdlib.Client
import Muxomucota.Tasking.Load

/-!
# Stdlib — the alignment of what malloc returns

The heap of a process begins where its image ends, and everything after that moves in steps of 16: the
kernel rounds what `sbrk` asks for, and the allocator rounds what it is asked for.  So all pointers are
aligned as the end of the image is.
-/

namespace Muxomucota.Stdlib
open Lib Mmu Tasking

/-- `sbrk` of a process with the page directory `pd`: the memory, and the end of the heap. -/
def kernelSbrk (pd : Nat) : Sbrk (Mem × Nat) := fun x bytes =>
  (contextSbrk x.1 pd x.2 (.ofNat 32 bytes)).map fun r => (r.1, r.2.2, r.2.1)

/-- The process when the memory has become `m`. -/
def Client.inMemory (c : Client (Mem × Nat)) (m : Mem) : Client (Mem × Nat) :=
  { c with heap := { c.heap with system := (m, c.heap.system.2) } }

/-- One call, in the memory that everybody else has left. -/
def processStep (pd : Nat) (c : Client (Mem × Nat)) (a : Mem × HeapCall) : Option (Client (Mem × Nat)) :=
  clientStep (kernelSbrk pd) (c.inMemory a.1) a.2

/-- A call of `malloc`, or of `free` with a pointer that the process has. -/
def OwnCall (c : Client (Mem × Nat)) : HeapCall → Prop
  | .malloc _ => True
  | .free ptr => ptr = 0 ∨ ptr ∈ c.live
  | _ => False

/-- A block that lies as `e` does, with a size in steps of 16. -/
structure LiesAs (e : Nat) (size : Nat → Nat) (t : Nat) : Prop where
  small : t < 2 ^ 32
  as : t % 16 = e % 16
  size : size t % 16 = 0

/-- What all calls keep. -/
structure AllLieAs (e : Nat) (c : Client (Mem × Nat)) : Prop where
  top : c.heap.system.2 < 2 ^ 32 ∧ c.heap.system.2 % 16 = e % 16
  free : ∀ t ∈ c.heap.firstFree, LiesAs e c.heap.size t
  live : ∀ p ∈ c.live, p < 2 ^ 32 ∧ LiesAs e c.heap.size ((p + 2 ^ 32 - 16) % 2 ^ 32)

/-- No size gets out of step. -/
def InStep (size size' : Nat → Nat) : Prop := ∀ x, size x % 16 = 0 → size' x % 16 = 0

variable {e t n : Nat} {size size' : Nat → Nat}

theorem LiesAs.mono (h : LiesAs e size t) (hs : InStep size size') : LiesAs e size' t :=
  ⟨h.small, h.as, hs t h.size⟩

theorem InStep.update (hn : n % 16 = 0) : InStep size (Function.update size t n) := fun x hx => by
  by_cases hxt : x = t
  · rw [hxt, Function.update_self, hn]
  · rw [Function.update_of_ne hxt, hx]

theorem roundSize_mod (sz : Nat) : roundSize sz % 16 = 0 := by
  unfold roundSize
  dsimp only
  split <;> split <;> omega

/-! ### `free` -/

theorem joinFrom_liesAs {fs fs' : List Nat} {current : Nat} (hc : LiesAs e size current)
    (hfs : ∀ t ∈ fs, LiesAs e size t) (h : joinFrom size current fs = some (size', fs')) :
    InStep size size' ∧ ∀ t ∈ fs', LiesAs e size' t := by
  induction fs generalizing size current fs' with
  | nil =>
      cases h
      refine ⟨fun _ => id, fun t ht => ?_⟩
      rw [List.mem_singleton.mp ht]
      exact hc
  | cons next fs ih =>
      have hnext := hfs next List.mem_cons_self
      have hrest : ∀ t ∈ fs, LiesAs e size t := fun t ht => hfs t (List.mem_cons_of_mem _ ht)
      rw [joinFrom] at h
      split at h
      · cases h
      split at h
      -- the two become one
      · have hn : (size current + (size next + 16)) % 2 ^ 32 % 16 = 0 := by
          have := hc.size
          have := hnext.size
          omega
        have hstep : InStep size
            (Function.update size current ((size current + (size next + 16)) % 2 ^ 32)) := .update hn
        obtain ⟨hin, hall⟩ := ih (hc.mono hstep) (fun t ht => (hrest t ht).mono hstep) h
        exact ⟨fun x hx => hin x (hstep x hx), hall⟩
      · obtain ⟨⟨size₁, fs₁⟩, hj, heq⟩ := Option.map_eq_some_iff.mp h
        cases heq
        obtain ⟨hin, hall⟩ := ih hnext hrest hj
        refine ⟨hin, fun t ht => ?_⟩
        rcases List.mem_cons.mp ht with rfl | ht
        · exact hc.mono hin
        · exact hall t ht

theorem insertFree_mem {x : Nat} {fs fs' : List Nat} (h : insertFree t fs = some fs') (hx : x ∈ fs') :
    x = t ∨ x ∈ fs := by
  induction fs generalizing fs' with
  | nil =>
      cases h
      exact .inl (List.mem_singleton.mp hx)
  | cons f fs ih =>
      rw [insertFree] at h
      split at h
      · obtain ⟨fs₁, hins, rfl⟩ := Option.map_eq_some_iff.mp h
        rcases List.mem_cons.mp hx with rfl | hx
        · exact .inr List.mem_cons_self
        · exact (ih hins hx).imp id (List.mem_cons_of_mem _)
      · split at h
        · cases h
        · cases h
          exact List.mem_cons.mp hx

theorem free_liesAs {σ : Type} {s s' : Heap σ} {ptr : Nat}
    (hfree : ∀ t ∈ s.firstFree, LiesAs e s.size t)
    (hp : ptr = 0 ∨ LiesAs e s.size ((ptr + 2 ^ 32 - 16) % 2 ^ 32)) (h : s.free ptr = some s') :
    s'.system = s.system ∧ InStep s.size s'.size ∧ ∀ t ∈ s'.firstFree, LiesAs e s'.size t := by
  unfold Heap.free at h
  split at h
  · cases h
    exact ⟨rfl, fun _ => id, hfree⟩
  · rename_i hne
    obtain ⟨fs, hins, h⟩ := Option.bind_eq_some_iff.mp h
    obtain ⟨⟨size', fs'⟩, hjoin, h⟩ := Option.bind_eq_some_iff.mp h
    cases h
    have hall : ∀ t ∈ fs, LiesAs e s.size t := fun t ht => by
      rcases insertFree_mem hins ht with ht | ht
      · rw [ht]
        exact hp.resolve_left hne
      · exact hfree t ht
    cases fs with
    | nil =>
        cases hjoin
        exact ⟨rfl, fun _ => id, hall⟩
    | cons f fs =>
        exact ⟨rfl, joinFrom_liesAs (hall f List.mem_cons_self)
          (fun t ht => hall t (List.mem_cons_of_mem _ ht)) hjoin⟩

/-! ### `malloc` -/

theorem mask_mod (x : BitVec 32) : (x &&& ~~~0xF#32).toNat % 16 = 0 := by
  have h : (~~~0xF#32 : BitVec 32).toNat % 2 ^ 4 = 0 := rfl
  have := Nat.and_mod_two_pow (a := x.toNat) (b := (~~~0xF#32 : BitVec 32).toNat) (n := 4)
  rw [h, Nat.and_zero] at this
  rw [BitVec.toNat_and]
  exact this

/-- The rounding of `context_sbrk` leaves the increments in step. -/
theorem sbrkInc_mod {inc : BitVec 32} (h : inc.toNat % 16 = 0) : (sbrkInc inc).toNat % 16 = 0 := by
  unfold sbrkInc
  split
  · split
    · exact mask_mod _
    · exact mask_mod _
  · exact h

/-- `sbrk` moves in steps of 16. -/
theorem kernelSbrk_liesAs {pd bytes : Nat} {x x' : Mem × Nat} (htop : x.2 < 2 ^ 32)
    (hbytes : bytes % 16 = 0) (h : kernelSbrk pd x bytes = some (t, x')) :
    t = x.2 ∧ x'.2 < 2 ^ 32 ∧ x'.2 % 16 = x.2 % 16 := by
  obtain ⟨⟨ret, heapEnd, m⟩, hs, heq⟩ := Option.map_eq_some_iff.mp h
  cases heq
  dsimp only
  have hinc : (sbrkInc (.ofNat 32 bytes)).toNat % 16 = 0 :=
    sbrkInc_mod (by rw [BitVec.toNat_ofNat]; omega)
  have hend : (x.2 + (sbrkInc (.ofNat 32 bytes)).toNat) % 2 ^ 32 < 2 ^ 32 ∧
      (x.2 + (sbrkInc (.ofNat 32 bytes)).toNat) % 2 ^ 32 % 16 = x.2 % 16 := by omega
  unfold contextSbrk at hs
  dsimp only at hs
  split at hs
  · cases hs
    exact ⟨rfl, htop, rfl⟩
  · split at hs
    · obtain ⟨m₁, -, heq⟩ := Option.map_eq_some_iff.mp hs
      cases heq
      exact ⟨rfl, hend⟩
    · obtain ⟨m₁, -, heq⟩ := Option.map_eq_some_iff.mp hs
      cases heq
      exact ⟨rfl, hend⟩

/-- What `malloc` takes from the list. -/
theorem takeFit_liesAs {sz : Nat} {fs fs' : List Nat} (hsz : sz % 16 = 0)
    (hfree : ∀ t ∈ fs, LiesAs e size t) (h : takeFit size sz fs = some (t, size', fs')) :
    LiesAs e size' t ∧ InStep size size' ∧ ∀ t ∈ fs', LiesAs e size' t := by
  obtain ⟨xs, ys, rfl, hle, hcase⟩ := takeFit_some h
  have ht := hfree t (by simp)
  rcases hcase with ⟨-, rfl, rfl⟩ | ⟨hlt, rfl, rfl⟩
  · refine ⟨ht, fun _ => id, fun u hu => hfree u ?_⟩
    rcases List.mem_append.mp hu with hu | hu
    · exact List.mem_append_left _ hu
    · exact List.mem_append_right _ (List.mem_cons_of_mem _ hu)
  · have hsmall := ht.small
    have has := ht.as
    have hsize := ht.size
    generalize hrest : (t + sz + 16) % 2 ^ 32 = rest
    have hstep₁ : InStep size (Function.update size rest (size t - sz - 16)) := .update (by omega)
    have hstep₂ : InStep (Function.update size rest (size t - sz - 16))
        (Function.update (Function.update size rest (size t - sz - 16)) t sz) := .update hsz
    have hstep : InStep size _ := fun x hx => hstep₂ x (hstep₁ x hx)
    refine ⟨ht.mono hstep, hstep, fun u hu => ?_⟩
    rcases List.mem_append.mp hu with hu | hu
    · exact (hfree u (List.mem_append_left _ hu)).mono hstep
    · rcases List.mem_cons.mp hu with hu | hu
      · have hrest' : rest < 2 ^ 32 ∧ rest % 16 = e % 16 := by omega
        rw [hu]
        refine ⟨hrest'.1, hrest'.2, hstep₂ rest ?_⟩
        rw [Function.update_self]
        omega
      · exact (hfree u (List.mem_append_right _ (List.mem_cons_of_mem _ hu))).mono hstep

/-- A block and the pointer to its content. -/
theorem LiesAs.pointer (h : LiesAs e size t) :
    (t + 16) % 2 ^ 32 % 16 = e % 16 ∧ (t + 16) % 2 ^ 32 < 2 ^ 32 ∧
      LiesAs e size (((t + 16) % 2 ^ 32 + 2 ^ 32 - 16) % 2 ^ 32) := by
  have hs := h.small
  have ha := h.as
  have hback : ((t + 16) % 2 ^ 32 + 2 ^ 32 - 16) % 2 ^ 32 = t := by omega
  refine ⟨by omega, by omega, ?_⟩
  rw [hback]
  exact h

/-- The result of `malloc` lies as the heap does. -/
theorem malloc_liesAs {pd sz p : Nat} {s s' : Heap (Mem × Nat)}
    (htop : s.system.2 < 2 ^ 32 ∧ s.system.2 % 16 = e % 16)
    (hfree : ∀ t ∈ s.firstFree, LiesAs e s.size t) (h : s.malloc (kernelSbrk pd) sz = some (p, s')) :
    (s'.system.2 < 2 ^ 32 ∧ s'.system.2 % 16 = e % 16) ∧ InStep s.size s'.size ∧
      (∀ t ∈ s'.firstFree, LiesAs e s'.size t) ∧
      p % 16 = e % 16 ∧ p < 2 ^ 32 ∧ LiesAs e s'.size ((p + 2 ^ 32 - 16) % 2 ^ 32) := by
  have hround := roundSize_mod sz
  unfold Heap.malloc at h
  dsimp only at h
  split at h
  · rename_i t size' fs ht
    cases h
    obtain ⟨hb, hstep, hall⟩ := takeFit_liesAs hround hfree ht
    exact ⟨htop, hstep, hall, hb.pointer⟩
  · obtain ⟨⟨t, s₁⟩, he, h⟩ := Option.bind_eq_some_iff.mp h
    cases h
    obtain ⟨⟨t', x⟩, hs, he⟩ := Option.bind_eq_some_iff.mp he
    dsimp only at he
    split at he
    · cases he
    cases he
    obtain ⟨rfl, hlt, hmod⟩ := kernelSbrk_liesAs htop.1 (by omega) hs
    have hstep : InStep s.size (Function.update s.size s.system.2 (roundSize sz)) := .update hround
    have hb : LiesAs e (Function.update s.size s.system.2 (roundSize sz)) s.system.2 :=
      ⟨htop.1, htop.2, by rw [Function.update_self, hround]⟩
    exact ⟨⟨hlt, hmod.trans htop.2⟩, hstep, fun u hu => (hfree u hu).mono hstep, hb.pointer⟩

/-! ### All calls -/

/-- A call keeps everything in step. -/
theorem AllLieAs.step {pd : Nat} {c c' : Client (Mem × Nat)} {a : Mem × HeapCall}
    (h : AllLieAs e c) (hok : OwnCall c a.2) (hs : processStep pd c a = some c') : AllLieAs e c' := by
  obtain ⟨m, call⟩ := a
  have h : AllLieAs e (c.inMemory m) := ⟨h.top, h.free, h.live⟩
  cases call with
  | malloc sz =>
      obtain ⟨⟨p, heap⟩, hm, hs⟩ := Option.bind_eq_some_iff.mp hs
      cases hs
      obtain ⟨htop, hstep, hfree, -, hlt, hp⟩ := malloc_liesAs h.top h.free hm
      refine ⟨htop, hfree, fun q hq => ?_⟩
      rcases Finset.mem_insert.mp hq with rfl | hq
      · exact ⟨hlt, hp⟩
      · exact ⟨(h.live q hq).1, (h.live q hq).2.mono hstep⟩
  | free ptr =>
      obtain ⟨heap, hf, hs⟩ := Option.bind_eq_some_iff.mp hs
      cases hs
      obtain ⟨hsys, hstep, hfree⟩ := free_liesAs h.free (Or.imp id (fun hl => (h.live ptr hl).2) hok) hf
      refine ⟨?_, hfree, fun q hq => ?_⟩
      · rw [hsys]
        exact h.top
      · have hq := h.live q (Finset.mem_of_mem_erase hq)
        exact ⟨hq.1, hq.2.mono hstep⟩
  | calloc _ _ => cases hok
  | realloc _ _ => cases hok
  | alignedAlloc _ _ => cases hok

/-- **Alignment end to end.**  In a process with an image that the loader accepts, whatever it has called
before, `malloc` returns a multiple of 16 exactly if the image ends at one. -/
theorem malloc_aligned_iff {image : Image} {pd heapStart entry : Nat} {m₀ m : Mem} {junk : Nat → Nat}
    {c : Client (Mem × Nat)} {calls : List (Mem × HeapCall)}
    (hload : loadImageToProcess image pd m₀ = some (some (heapStart, entry), m))
    (h : Run (processStep pd) (fun c a => OwnCall c a.2) (Client.start (m, heapStart) junk) calls c)
    {m' : Mem} {sz p : Nat} {s : Heap (Mem × Nat)}
    (hm : (c.inMemory m').heap.malloc (kernelSbrk pd) sz = some (p, s)) :
    p % 16 = 0 ↔ image.top % 16 = 0 := by
  have hstart := loadImageToProcess_top hload
  have htop : heapStart < 2 ^ 32 := by
    rw [hstart]
    exact image.top_lt
  have hall : AllLieAs heapStart c :=
    h.invariant (I := AllLieAs heapStart) (fun _ _ _ hI hok hs => hI.step hok hs)
      ⟨⟨htop, rfl⟩, fun t ht => (by cases ht), fun q hq => absurd hq (Finset.notMem_empty q)⟩
  obtain ⟨-, -, -, hp, -⟩ := malloc_liesAs (s := (c.inMemory m').heap) hall.top hall.free hm
  rw [hp, hstart]

/-! ### An image with an odd end -/

/-- An executable with one segment: `size` bytes at `0x1000`, of which none are in the file. -/
def oneSegment (size : BitVec 8) : Image := fun i =>
  ([0x7f, 0x45, 0x4c, 0x46, 1, 1, 1, 0, 0, 0, 0, 0, 0, 0, 0, 0, 2, 0, 3, 0, 1, 0, 0, 0,
    0, 0x10, 0, 0, 52, 0, 0, 0, 0, 0, 0, 0, 0, 0, 0, 0, 52, 0, 32, 0, 1, 0, 0, 0, 0, 0, 0, 0,
    1, 0, 0, 0, 0, 0, 0, 0, 0, 0x10, 0, 0, 0, 0x10, 0, 0, 0, 0, 0, 0, size, 0, 0, 0] :
    List (BitVec 8)).getD i 0

/-- A memory in which everything is mapped already. -/
def allMapped : Mem := { Mem.boot 16 with ram := fun _ _ => 0xff }

theorem oneSegment_loads (size : BitVec 8) (h : size = 0x10 ∨ size = 5) :
    ∃ m, loadImageToProcess (oneSegment size) 0 (Mem.boot 16) =
      some (some (0x1000 + size.toNat, 0x1000), m) := by
  have : (loadImageToProcess (oneSegment size) 0 (Mem.boot 16)).map Prod.fst =
      some (some (0x1000 + size.toNat, 0x1000)) := by
    rcases h with rfl | rfl <;> decide
  obtain ⟨⟨r, m⟩, hload, rfl⟩ := Option.map_eq_some_iff.mp this
  exact ⟨m, hload⟩

theorem malloc_of_start (m : Mem) (heapStart : Nat) (h : heapStart = 0x1010 ∨ heapStart = 0x1005) :
    ∃ s, ((Client.start (m, heapStart) fun _ => 7).inMemory allMapped).heap.malloc (kernelSbrk 0) 5 =
      some (heapStart + 16, s) := by
  have : (Heap.malloc (kernelSbrk 0) ⟨[], fun _ => 7, allMapped, heapStart⟩ 5).map Prod.fst =
      some (heapStart + 16) := by
    rcases h with rfl | rfl <;> decide
  obtain ⟨⟨p, s⟩, hm, rfl⟩ := Option.map_eq_some_iff.mp this
  exact ⟨s, hm⟩

/-- An image whose end is a multiple of 16. -/
theorem malloc_aligned_iff_even : ∃ heapStart entry m p s,
    loadImageToProcess (oneSegment 0x10) 0 (Mem.boot 16) = some (some (heapStart, entry), m) ∧
      ((Client.start (m, heapStart) fun _ => 7).inMemory allMapped).heap.malloc (kernelSbrk 0) 5 =
        some (p, s) ∧
      (p % 16 = 0 ↔ (oneSegment 0x10).top % 16 = 0) := by
  obtain ⟨m, hload⟩ := oneSegment_loads 0x10 (.inl rfl)
  obtain ⟨s, hm⟩ := malloc_of_start m (0x1000 + (0x10 : BitVec 8).toNat) (.inl rfl)
  exact ⟨_, _, m, _, s, hload, hm, malloc_aligned_iff hload (.refl _) hm⟩

/-- A segment of five bytes: the first pointer that `malloc` returns is not aligned. -/
theorem malloc_unaligned : ∃ m s,
    loadImageToProcess (oneSegment 5) 0 (Mem.boot 16) = some (some (0x1005, 0x1000), m) ∧
      ((Client.start (m, 0x1005) fun _ => 7).inMemory allMapped).heap.malloc (kernelSbrk 0) 5 =
        some (0x1015, s) ∧
      0x1015 % 16 ≠ 0 := by
  obtain ⟨m, hload⟩ := oneSegment_loads 5 (.inr rfl)
  obtain ⟨s, hm⟩ := malloc_of_start m 0x1005 (.inr rfl)
  exact ⟨m, s, hload, hm, by decide⟩

end Muxomucota.Stdlib
