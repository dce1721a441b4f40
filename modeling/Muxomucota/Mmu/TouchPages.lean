import Muxomucota.Mmu.OnDemand

/-!
# Mmu — accessing pages in a row

A loop that calls `vmmc_do_lazy_map` for one page after the other, and an area all of whose pages are on
demand or in frames of their own: the loop ends exactly if there are the frames it takes, and the area
stays one, with every byte that user programs read in it.
-/

namespace Muxomucota.Mmu
open Memory Pmm Lib

variable {m m' m₁ : Mem} {pd v w a lo hi : Nat} {e : BitVec 32} {l : List Nat} {s t : Finset Nat}

/-- `vmmc_do_lazy_map` for each of these pages. -/
def touchPages (m : Mem) (pd : Nat) (l : List Nat) : Option Mem :=
  l.foldlM (fun m v => (vmmcDoLazyMap m pd (v * 4096)).map Prod.snd) m

/-- The pages from `lo` up to `hi` are on demand, or mapped for user programs to frames of their own. -/
structure Area (m : Mem) (pd lo hi : Nat) : Prop where
  dir : OwnDirectory m pd
  page : ∀ v, lo ≤ v → v < hi →
    OnDemand m pd v ∨ ∃ e, UserPage m pd v e ∧ IsData m pd userPdes (frameOf e)
  apart : ∀ v w e e', lo ≤ v → v < hi → lo ≤ w → w < hi → UserPage m pd v e → UserPage m pd w e' →
    frameOf e = frameOf e' → v = w

/-- What user programs read in the area they still read. -/
def Retains (m m' : Mem) (pd lo hi : Nat) : Prop :=
  ∀ a b, lo ≤ a / 4096 → a / 4096 < hi → a < physBase → m.userLoad pd a = some b →
    m'.userLoad pd a = some b

/-- What accesses to these pages do. -/
structure Touched (m m' : Mem) (pd lo hi : Nat) (s : Finset Nat) : Prop where
  area : Area m' pd lo hi
  onDemand : ∀ w < 2 ^ 20, OnDemand m' pd w ↔ OnDemand m pd w ∧ w ∉ s
  noTable : ∀ i < 1024, NoTable m' pd i ↔ NoTable m pd i ∧ i ∉ s.image (· / 1024)
  room : freeFrames m'.pmm + framesFor m pd s = freeFrames m.pmm
  retains : Retains m m' pd lo hi

/-! ### Counting frames -/

theorem card_filter_union (p : Nat → Prop) [DecidablePred p] (s t : Finset Nat) :
    ((s ∪ t).filter p).card = (s.filter p).card + (t.filter fun x => p x ∧ x ∉ s).card := by
  rw [← Finset.card_union_of_disjoint]
  · congr 1
    ext x
    simp only [Finset.mem_filter, Finset.mem_union]
    tauto
  · rw [Finset.disjoint_left]
    intro x hx hx'
    exact (Finset.mem_filter.mp hx').2.2 (Finset.mem_filter.mp hx).1

/-- The frames for more pages are those for the first and, afterwards, those for the others. -/
theorem framesFor_union (hod : ∀ w ∈ t, OnDemand m' pd w ↔ OnDemand m pd w ∧ w ∉ s)
    (hno : ∀ w ∈ t, NoTable m' pd (w / 1024) ↔ NoTable m pd (w / 1024) ∧ w / 1024 ∉ s.image (· / 1024)) :
    framesFor m pd (s ∪ t) = framesFor m pd s + framesFor m' pd t := by
  have hpages : t.filter (OnDemand m' pd) = t.filter fun x => OnDemand m pd x ∧ x ∉ s :=
    Finset.filter_congr hod
  have htables : (t.image (· / 1024)).filter (NoTable m' pd) =
      (t.image (· / 1024)).filter fun i => NoTable m pd i ∧ i ∉ s.image (· / 1024) := by
    refine Finset.filter_congr fun i hi => ?_
    obtain ⟨w, hw, rfl⟩ := Finset.mem_image.mp hi
    exact hno w hw
  rw [framesFor, framesFor, framesFor, hpages, htables, Finset.image_union, card_filter_union,
    card_filter_union]
  omega

theorem framesFor_le_union (m : Mem) (pd : Nat) (s t : Finset Nat) :
    framesFor m pd s ≤ framesFor m pd (s ∪ t) := by
  rw [framesFor, framesFor, Finset.image_union, card_filter_union, card_filter_union]
  omega

theorem framesFor_le (m : Mem) (pd : Nat) (s : Finset Nat) : framesFor m pd s ≤ 2 * s.card := by
  have htables := (Finset.card_filter_le (s.image (· / 1024)) (NoTable m pd)).trans Finset.card_image_le
  have hpages := Finset.card_filter_le s (OnDemand m pd)
  rw [framesFor]
  omega

/-! ### Runs -/

/-- An access keeps an area. -/
theorem Touch.area (h : Touch m m' pd v) (ha : Area m pd lo hi) (hhi : hi ≤ 2 ^ 20) (hv : v < 2 ^ 20) :
    Area m' pd lo hi := by
  have hused : ∀ w e, lo ≤ w → w < hi → UserPage m pd w e → m.pmm.users (frameOf e) ≠ 0 := by
    intro w e hlo hlt hp
    rcases ha.page w hlo hlt with hod | ⟨e', hp', hd⟩
    · exact absurd hod hp.not_onDemand
    · cases hp.page.symm.trans hp'.page
      exact hd.used
  refine ⟨h.dir, fun w hlo hlt => ?_, fun x y e e' hxlo hx hylo hy hpx hpy heq => ?_⟩
  · rcases ha.page w hlo hlt with hod | ⟨e, hp, hd⟩
    · by_cases hwv : w = v
      · subst hwv
        obtain ⟨e, hp⟩ := h.mapped hod
        rcases h.new w (by omega) e hp with hold | ⟨-, -, -, hd⟩
        · exact absurd hod hold.not_onDemand
        · exact .inr ⟨e, hp, hd⟩
      · exact .inl ((h.onDemand w (by omega)).mpr ⟨hod, hwv⟩)
    · exact .inr ⟨e, h.old w (by omega) e hp, (h.data.data _ hd).1⟩
  · rcases h.new x (by omega) e hpx with hpx | ⟨rfl, -, hfree, -⟩ <;>
      rcases h.new y (by omega) e' hpy with hpy | ⟨rfl, -, hfree', -⟩
    · exact ha.apart x y e e' hxlo hx hylo hy hpx hpy heq
    · exact absurd (heq ▸ hfree') (hused x e hxlo hx hpx)
    · exact absurd (heq ▸ hfree) (hused y e' hylo hy hpy)
    · rfl

theorem Touch.retains (h : Touch m m' pd v) (ha : Area m pd lo hi) (hhi : hi ≤ 2 ^ 20) :
    Retains m m' pd lo hi := by
  intro a b hlo hlt hphys hload
  obtain ⟨e, hp, rfl⟩ := userPage_of_load hload
  rw [(h.old _ (by omega) e hp).load hphys]
  rcases ha.page _ hlo hlt with hod | ⟨e', hp', hd⟩
  · exact absurd hod hp.not_onDemand
  · cases hp.page.symm.trans hp'.page
    rw [(h.data.data _ hd).2]

/-- **Accesses in a row**: they succeed exactly if there are the frames they take. -/
theorem touchPages_spec (ha : Area m pd lo hi) (hhi : hi ≤ 2 ^ 20) (hl : ∀ v ∈ l, v < 2 ^ 20) :
    (freeFrames m.pmm < framesFor m pd l.toFinset → touchPages m pd l = none) ∧
      (framesFor m pd l.toFinset ≤ freeFrames m.pmm →
        ∃ m', touchPages m pd l = some m' ∧ Touched m m' pd lo hi l.toFinset) := by
  induction l generalizing m with
  | nil =>
      refine ⟨fun h => absurd h (Nat.not_lt_zero _), fun _ => ⟨m, rfl, ha, fun w _ => ?_, fun i _ => ?_, rfl,
        fun _ _ _ _ _ h => h⟩⟩ <;> simp
  | cons v l ih =>
      have hv := hl v List.mem_cons_self
      have hl' : ∀ w ∈ l, w < 2 ^ 20 := fun w hw => hl w (List.mem_cons_of_mem _ hw)
      have hcons : touchPages m pd (v :: l) =
          ((vmmcDoLazyMap m pd (v * 4096)).map Prod.snd).bind fun m₁ => touchPages m₁ pd l :=
        List.foldlM_cons
      have hset : (v :: l).toFinset = {v} ∪ l.toFinset := by
        rw [List.toFinset_cons, Finset.insert_eq]
      obtain ⟨hnone, hsome⟩ := doLazyMap_touch ha.dir hv
      by_cases hroom : framesFor m pd {v} ≤ freeFrames m.pmm
      · obtain ⟨b, m₁, hm₁, ht⟩ := hsome hroom
        obtain ⟨hnone', hsome'⟩ := ih (ht.area ha hhi hv) hl'
        have hod : ∀ w < 2 ^ 20, OnDemand m₁ pd w ↔ OnDemand m pd w ∧ w ∉ ({v} : Finset Nat) :=
          fun w hw => by rw [ht.onDemand w hw, Finset.mem_singleton]
        have hno : ∀ i < 1024, NoTable m₁ pd i ↔
            NoTable m pd i ∧ i ∉ ({v} : Finset Nat).image (· / 1024) :=
          fun i hi => by rw [ht.noTable i hi, Finset.image_singleton, Finset.mem_singleton]
        have hsum := framesFor_union (t := l.toFinset) (fun w hw => hod w (hl' w (List.mem_toFinset.mp hw)))
          fun w hw => hno _ (by have := hl' w (List.mem_toFinset.mp hw); omega)
        have hroom₁ := ht.room
        rw [hcons, hm₁, hset, hsum]
        refine ⟨fun hlt => hnone' (by omega), fun hle => ?_⟩
        obtain ⟨m', hm', ht'⟩ := hsome' (by omega)
        refine ⟨m', hm', ht'.area, fun w hw => ?_, fun i hi => ?_, ?_, fun a b hlo hlt hphys hload => ?_⟩
        · rw [ht'.onDemand w hw, hod w hw, Finset.mem_union, not_or, and_assoc]
        · rw [ht'.noTable i hi, hno i hi, Finset.image_union, Finset.mem_union, not_or, and_assoc]
        · have := ht'.room
          rw [hsum]
          omega
        · exact ht'.retains a b hlo hlt hphys (ht.retains ha hhi a b hlo hlt hphys hload)
      · have hstop : touchPages m pd (v :: l) = none := by
          rw [hcons, hnone (by omega)]
          rfl
        have hle : framesFor m pd {v} ≤ framesFor m pd (v :: l).toFinset := by
          rw [hset]
          exact framesFor_le_union ..
        exact ⟨fun _ => hstop, fun h => absurd (hle.trans h) hroom⟩

end Muxomucota.Mmu
