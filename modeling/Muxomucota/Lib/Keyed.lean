import Mathlib.Data.List.Nodup
import Mathlib.Tactic.Common

/-!
# Lib — lists of records with a key

A list of records in which no key stands twice (`Keyed`).  `upsert new f` changes the record with the key of
`new` by `f`; if there is none, `f new` goes to the front.  What the records hold is the same at every other
key (`exists_upsert`), and over a nested list of keyed lists nothing stands twice (`Keyed.nodup_flatMap`).
-/

namespace Muxomucota.Lib

variable {κ β γ : Type*} [DecidableEq κ] {key : β → κ} {k : κ} {f : β → β} {l l' : List β}

/-- The first record with the key `k` is changed. -/
def updateAt (key : β → κ) (k : κ) (f : β → β) : List β → Option (List β)
  | [] => none
  | b :: l => if key b = k then some (f b :: l) else (updateAt key k f l).map (b :: ·)

theorem updateAt_eq_none : updateAt key k f l = none ↔ ∀ b ∈ l, key b ≠ k := by
  induction l with
  | nil => simp [updateAt]
  | cons b l ih =>
      rw [updateAt]
      split <;> simp_all

theorem map_updateAt (hf : ∀ b, key (f b) = key b) (h : updateAt key k f l = some l') :
    l'.map key = l.map key := by
  induction l generalizing l' with
  | nil => cases h
  | cons b l ih =>
      rw [updateAt] at h
      split at h
      · cases h
        rw [List.map_cons, List.map_cons, hf]
      · obtain ⟨l₁, h₁, rfl⟩ := Option.map_eq_some_iff.mp h
        rw [List.map_cons, List.map_cons, ih h₁]

theorem mem_updateAt (hl : (l.map key).Nodup) (h : updateAt key k f l = some l') {b' : β} :
    b' ∈ l' ↔ b' ∈ l ∧ key b' ≠ k ∨ ∃ b ∈ l, key b = k ∧ f b = b' := by
  induction l generalizing l' with
  | nil => cases h
  | cons b l ih =>
      rw [List.map_cons, List.nodup_cons] at hl
      rw [updateAt] at h
      split at h
      · rename_i hk
        cases h
        -- no other record has the key
        have hother : ∀ c ∈ l, key c ≠ k := fun c hc heq =>
          hl.1 (hk.trans heq.symm ▸ List.mem_map_of_mem hc)
        simp only [List.mem_cons]
        constructor
        · rintro (rfl | hb')
          · exact .inr ⟨b, .inl rfl, hk, rfl⟩
          · exact .inl ⟨.inr hb', hother b' hb'⟩
        · rintro (⟨rfl | hb', hne⟩ | ⟨c, rfl | hc, hck, rfl⟩)
          · exact absurd hk hne
          · exact .inr hb'
          · exact .inl rfl
          · exact absurd hck (hother c hc)
      · rename_i hk
        obtain ⟨l₁, h₁, rfl⟩ := Option.map_eq_some_iff.mp h
        simp only [List.mem_cons, ih hl.2 h₁]
        constructor
        · rintro (rfl | ⟨hb', hne⟩ | ⟨c, hc, hck⟩)
          · exact .inl ⟨.inl rfl, hk⟩
          · exact .inl ⟨.inr hb', hne⟩
          · exact .inr ⟨c, .inr hc, hck⟩
        · rintro (⟨rfl | hb', hne⟩ | ⟨c, rfl | hc, hck⟩)
          · exact .inl rfl
          · exact .inr (.inl ⟨hb', hne⟩)
          · exact absurd hck.1 hk
          · exact .inr (.inr ⟨c, hc, hck⟩)

/-- A list of records in which no key stands twice. -/
structure Keyed (key : β → κ) where
  items : List β
  nodup : (items.map key).Nodup

namespace Keyed

def empty (key : β → κ) : Keyed key := ⟨[], List.nodup_nil⟩

/-- The record with the key of `new`, which is `new` if there is none, changed by `f`. -/
def upsert (s : Keyed key) (new : β) (f : β → β) (hf : ∀ b, key (f b) = key b) : Keyed key :=
  match h : updateAt key (key new) f s.items with
  | some l => ⟨l, by rw [map_updateAt hf h]; exact s.nodup⟩
  | none => ⟨f new :: s.items, by
      rw [List.map_cons, List.nodup_cons, hf]
      refine ⟨fun hmem => ?_, s.nodup⟩
      obtain ⟨b, hb, hk⟩ := List.mem_map.mp hmem
      exact updateAt_eq_none.mp h b hb hk⟩

variable {s : Keyed key} {new : β} {hf : ∀ b, key (f b) = key b}

theorem mem_upsert {b' : β} : b' ∈ (s.upsert new f hf).items ↔
    b' ∈ s.items ∧ key b' ≠ key new ∨
      ∃ b, (b ∈ s.items ∧ key b = key new ∨ b = new ∧ ∀ c ∈ s.items, key c ≠ key new) ∧ f b = b' := by
  unfold upsert
  split
  · rename_i l h
    have hhas : ¬ ∀ c ∈ s.items, key c ≠ key new := fun hno => by
      rw [updateAt_eq_none.mpr hno] at h
      cases h
    rw [mem_updateAt s.nodup h]
    simp [hhas, and_assoc]
  · rename_i h
    have hno := updateAt_eq_none.mp h
    rw [List.mem_cons]
    constructor
    · rintro (rfl | hb')
      · exact .inr ⟨new, .inr ⟨rfl, hno⟩, rfl⟩
      · exact .inl ⟨hb', hno b' hb'⟩
    · rintro (⟨hb', -⟩ | ⟨b, ⟨hb, hk⟩ | ⟨rfl, -⟩, rfl⟩)
      · exact .inr hb'
      · exact absurd hk (hno b hb)
      · exact .inl rfl

/-- What the records hold: `f` adds `x₀` to the one at the key, and a new one holds nothing before. -/
theorem exists_upsert (hf : ∀ b, key (f b) = key b) {has : β → γ → Prop} {x x₀ : γ} (hnew : ∀ x, ¬ has new x)
    (hadd : ∀ b x, has (f b) x ↔ has b x ∨ x = x₀) :
    (∃ b ∈ (s.upsert new f hf).items, key b = k ∧ has b x) ↔
      (∃ b ∈ s.items, key b = k ∧ has b x) ∨ k = key new ∧ x = x₀ := by
  constructor
  · rintro ⟨b', hb', rfl, hx⟩
    rcases mem_upsert.mp hb' with ⟨hmem, -⟩ | ⟨b, ⟨hmem, hk⟩ | ⟨rfl, -⟩, rfl⟩
    · exact .inl ⟨b', hmem, rfl, hx⟩
    · rcases (hadd b x).mp hx with hx | rfl
      · exact .inl ⟨b, hmem, (hf b).symm, hx⟩
      · exact .inr ⟨(hf b).trans hk, rfl⟩
    · rcases (hadd b x).mp hx with hx | rfl
      · exact absurd hx (hnew x)
      · exact .inr ⟨hf b, rfl⟩
  · rintro (⟨b, hmem, rfl, hx⟩ | ⟨rfl, rfl⟩)
    · by_cases hk : key b = key new
      · exact ⟨f b, mem_upsert.mpr (.inr ⟨b, .inl ⟨hmem, hk⟩, rfl⟩), hf b, (hadd b x).mpr (.inl hx)⟩
      · exact ⟨b, mem_upsert.mpr (.inl ⟨hmem, hk⟩), rfl, hx⟩
    · by_cases hhas : ∃ b ∈ s.items, key b = key new
      · obtain ⟨b, hmem, hk⟩ := hhas
        exact ⟨f b, mem_upsert.mpr (.inr ⟨b, .inl ⟨hmem, hk⟩, rfl⟩), (hf b).trans hk,
          (hadd b x).mpr (.inr rfl)⟩
      · have hno : ∀ c ∈ s.items, key c ≠ key new := fun c hc hk => hhas ⟨c, hc, hk⟩
        exact ⟨f new, mem_upsert.mpr (.inr ⟨new, .inr ⟨rfl, hno⟩, rfl⟩), hf new,
          (hadd new x).mpr (.inr rfl)⟩

omit [DecidableEq κ] in
/-- What the records list, with the key of each, stands once if no record lists anything twice. -/
theorem nodup_flatMap {g : β → List γ} (hg : ∀ b ∈ s.items, (g b).Nodup) :
    (s.items.flatMap fun b => (g b).map fun x => (key b, x)).Nodup := by
  refine List.nodup_flatMap.mpr ⟨fun b hb => ?_, ?_⟩
  · exact (hg b hb).map fun _ _ h => (Prod.mk.inj h).2
  · have hpair := List.pairwise_map.mp s.nodup
    refine hpair.imp fun {b c} hne => ?_
    intro x hx hx'
    obtain ⟨_, -, rfl⟩ := List.mem_map.mp hx
    obtain ⟨_, -, heq⟩ := List.mem_map.mp hx'
    exact hne (Prod.mk.inj heq).1.symm

end Keyed

end Muxomucota.Lib
