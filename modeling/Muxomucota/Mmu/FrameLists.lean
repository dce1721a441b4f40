import Muxomucota.Mmu.Contexts
import Muxomucota.Mmu.Tables

/-!
# Mmu — lists of frames

What a loop of `pmm_alloc` takes, all of it in one structure (`Taken`), and that a loop of `pmm_free`
gives it back.
-/

namespace Muxomucota.Mmu
open Memory Pmm Lib

variable {m m' : Mem} {n : Nat} {fs : List Nat}

/-- `m'` is `m` with one reference to each of the frames `fs`, none of which was in use. -/
structure Taken (m : Mem) (fs : List Nat) (m' : Mem) : Prop where
  ram : m'.ram = m.ram
  frames : SameFrames m.pmm m'.pmm
  look : LookOk m.pmm → LookOk m'.pmm
  free : freeFrames m'.pmm + fs.length = freeFrames m.pmm
  nodup : fs.Nodup
  fresh : ∀ f ∈ fs, m.pmm.users f = 0 ∧ m.pmm.Tracked f
  users : ∀ g, m'.pmm.users g = if g ∈ fs then 1 else m.pmm.users g

theorem Taken.nil (m : Mem) : Taken m [] m where
  ram := rfl
  frames := .refl _
  look := id
  free := rfl
  nodup := .nil
  fresh := by simp
  users := by simp

theorem Taken.snoc {f : Nat} {m₁ : Mem} (h : Taken m fs m₁) (ha : m₁.alloc = some (f, m')) :
    Taken m (fs ++ [f]) m' := by
  obtain ⟨hram, hsame, htr, hu₀, -, hu, -⟩ := alloc_spec ha
  have hf : f ∉ fs := by
    intro hmem
    rw [h.users, if_pos hmem] at hu₀
    cases hu₀
  have hfree := alloc_freeFrames ha
  refine ⟨hram.trans h.ram, h.frames.trans hsame, fun hl => alloc_lookOk (h.look hl) ha, ?_, ?_, ?_, fun g => ?_⟩
  · have := h.free
    rw [List.length_append, List.length_singleton]
    omega
  · exact h.nodup.append (List.nodup_singleton f) (List.disjoint_singleton.mpr hf)
  · intro g hg
    rcases List.mem_append.mp hg with hg | hg
    · exact h.fresh g hg
    · obtain rfl := List.mem_singleton.mp hg
      rw [h.users, if_neg hf] at hu₀
      exact ⟨hu₀, h.frames.tracked.mp htr⟩
  · rw [hu, h.users]
    by_cases hgf : g = f <;> simp [hgf]

/-- `pmm_alloc` of `n` frames takes frames that are free. -/
theorem allocAll_taken (h : allocAll m n = some (fs, m')) :
    Taken m fs m' ∧ fs.length = n := by
  refine foldlM_range_rule (P := fun i (b : List Nat × Mem) => Taken m b.1 b.2 ∧ b.1.length = i) h
    ⟨.nil m, rfl⟩ ?_
  rintro i ⟨gs, b⟩ b' - ⟨hb, hlen⟩ hstep
  obtain ⟨⟨f, m₁⟩, ha, rfl⟩ := Option.map_eq_some_iff.mp hstep
  exact ⟨hb.snoc ha, by simp [hlen]⟩

/-- It succeeds if and only if there are so many. -/
theorem allocAll_isSome_iff (hl : LookOk m.pmm) :
    (∃ r, allocAll m n = some r) ↔ n ≤ freeFrames m.pmm := by
  constructor
  · rintro ⟨⟨fs, m'⟩, h⟩
    obtain ⟨ht, hlen⟩ := allocAll_taken h
    have := ht.free
    omega
  · intro hle
    have hstep : ∀ i (b : List Nat × Mem), i < n → Taken m b.1 b.2 ∧ b.1.length = i →
        ∃ b', (b.2.alloc.map fun r' => (b.1 ++ [r'.1], r'.2)) = some b' ∧
          Taken m b'.1 b'.2 ∧ b'.1.length = i + 1 := by
      rintro i ⟨gs, b⟩ hi ⟨hb, hlen⟩
      have hfree := hb.free
      dsimp only at hlen hfree
      obtain ⟨f, m₁, ha⟩ := alloc_isSome (hb.look hl) (by dsimp only; omega)
      exact ⟨(gs ++ [f], m₁), by simp [ha], hb.snoc ha, by simp [hlen]⟩
    obtain ⟨r, hr, -⟩ := foldlM_range_total (P := fun i (b : List Nat × Mem) =>
      Taken m b.1 b.2 ∧ b.1.length = i) (b := ([], m)) ⟨.nil m, rfl⟩ hstep
    exact ⟨r, hr⟩

/-- `pmm_free` of frames with one user each. -/
theorem freeAll_sole (hone : ∀ f ∈ fs, m.pmm.users f = 1) (hnodup : fs.Nodup) :
    ∃ m', freeAll m fs = some m' ∧ m'.ram = m.ram ∧
      ∀ g, m'.pmm.users g = if g ∈ fs then 0 else m.pmm.users g := by
  induction fs generalizing m with
  | nil => exact ⟨m, rfl, rfl, by simp⟩
  | cons f fs ih =>
      obtain ⟨hf, hnodup⟩ := List.nodup_cons.mp hnodup
      have hu := hone f (by simp)
      obtain ⟨m₁, hm₁⟩ := free_isSome (m := m) (f := f) (by omega)
      obtain ⟨hram, -, -, hus, -⟩ := free_spec hm₁
      obtain ⟨m', hm', hram', hus'⟩ := ih (m := m₁) (fun g hg => by
        rw [hus, if_neg (by rintro rfl; exact hf hg)]
        exact hone g (by simp [hg])) hnodup
      refine ⟨m', ?_, hram'.trans hram, fun g => ?_⟩
      · rw [freeAll, List.foldlM_cons, hm₁]
        exact hm'
      · rw [hus', hus, hu]
        by_cases hgf : g = f <;> simp [hgf, hf]

/-- Frames that were taken and given back are free again. -/
theorem Taken.freeAll (h : Taken m fs m') : ∃ m₂, freeAll m' fs = some m₂ ∧
    m₂.ram = m.ram ∧ m₂.pmm.users = m.pmm.users := by
  obtain ⟨m₂, hm₂, hram, hus⟩ :=
    freeAll_sole (fun f hf => by rw [h.users, if_pos hf]) h.nodup
  refine ⟨m₂, hm₂, hram.trans h.ram, ?_⟩
  funext g
  rw [hus, h.users]
  split
  · rename_i hg
    exact (h.fresh g hg).1.symm
  · rfl

end Muxomucota.Mmu
