import Muxomucota.Memory.Pmm

/-!
# Memory — the life of a frame

A frame is taken by `pmm_alloc` and by `pmm_use` and given back by `pmm_free`.  `Accounts` runs the
four calls that change the bitmap and keeps, beside it, how often each frame was taken and given
back.  The user count is always the difference (`accounts_run`), and the copy-on-write flag is what
the last `pmm_mark_cow` on the frame said; `pmm_free` does not touch it.  So a frame whose
references are all given back is free exactly if that last call cleared the flag.
-/

namespace Muxomucota.Memory
open Lib Pmm

/-- The bitmap with the number of references taken and given back for every frame. -/
structure Accounts where
  pmm : Pmm
  taken : Nat → Nat
  freed : Nat → Nat

/-- One call; `none` if one of its assertions fails. -/
def Accounts.call (a : Accounts) : PmmCall → Option Accounts
  | .alloc => (pmmAlloc a.pmm).map fun r =>
      { a with pmm := r.2, taken := Function.update a.taken r.1 (a.taken r.1 + 1) }
  | .use f => (pmmUse a.pmm f).map fun q =>
      { a with pmm := q, taken := Function.update a.taken f (a.taken f + 1) }
  | .free f => (pmmFree a.pmm f).map fun q =>
      { a with pmm := q, freed := Function.update a.freed f (a.freed f + 1) }
  | .markCow f flag => (pmmMarkCow a.pmm f flag).map fun q => { a with pmm := q }

/-- No references taken or given back yet. -/
def Accounts.start (p : Pmm) : Accounts := ⟨p, fun _ => 0, fun _ => 0⟩

/-- The flag of the last `pmm_mark_cow` on `f`, if there was one. -/
def lastMark (f : Nat) (calls : List PmmCall) : Bool :=
  calls.foldl (fun b c => match c with
    | .markCow g flag => if g = f then flag else b
    | _ => b) false

/-- After some more calls of `pmm_alloc` the next one returns `f`. -/
def Returnable (p : Pmm) (f : Nat) : Prop :=
  ∃ n a, Run Accounts.call anyStep (.start p) (List.replicate n .alloc) a ∧
    ∃ q, pmmAlloc a.pmm = some (f, q)

/-- The life of `f`: free once everything taken is given back, and not before. -/
def Lifecycle (a : Accounts) (f : Nat) : Prop :=
  (a.freed f = a.taken f → a.pmm.bitmap f = 0 ∧ Returnable a.pmm f) ∧
    (a.freed f ≠ a.taken f → a.pmm.bitmap f ≠ 0)

/-- What is true of `f` after the calls `calls`. -/
structure Accounts.Balanced (f : Nat) (calls : List PmmCall) (a : Accounts) : Prop where
  look : LookOk a.pmm
  tracked : a.pmm.Tracked f
  count : a.pmm.users f + a.freed f = a.taken f
  flag : a.pmm.cow f = lastMark f calls

theorem lastMark_snoc (f : Nat) (calls : List PmmCall) (c : PmmCall) :
    lastMark f (calls ++ [c]) = match c with
      | .markCow g flag => if g = f then flag else lastMark f calls
      | _ => lastMark f calls := by
  simp only [lastMark, List.foldl_append, List.foldl_cons, List.foldl_nil]

/-- One call keeps the accounts of every frame. -/
theorem balanced_step {f : Nat} {calls : List PmmCall} {a a' : Accounts} {c : PmmCall}
    (hb : a.Balanced f calls) (h : a.call c = some a') : a'.Balanced f (calls ++ [c]) := by
  cases c with
  | alloc =>
      obtain ⟨⟨g, q⟩, hq, rfl⟩ := Option.map_eq_some_iff.mp h
      obtain ⟨hs, -, hu₀, -, hu, hc⟩ := pmmAlloc_spec hq
      refine ⟨pmmAlloc_lookOk hb.look hq, hs.tracked.mpr hb.tracked, ?_, ?_⟩
      · have hcount := hb.count
        by_cases hg : f = g
        · subst hg; simp [hu]; omega
        · simpa [hu, hg] using hcount
      · simpa [lastMark_snoc, hc] using hb.flag
  | use g =>
      obtain ⟨q, hq, rfl⟩ := Option.map_eq_some_iff.mp h
      obtain ⟨hs, -, -, hu, hc⟩ := pmmUse_spec hq
      refine ⟨pmmUse_lookOk hb.look hq, hs.tracked.mpr hb.tracked, ?_, ?_⟩
      · have hcount := hb.count
        by_cases hg : f = g
        · subst hg; simp [hu]; omega
        · simpa [hu, hg] using hcount
      · simpa [lastMark_snoc, hc] using hb.flag
  | free g =>
      obtain ⟨q, hq, rfl⟩ := Option.map_eq_some_iff.mp h
      obtain ⟨hs, hpos, hu, hc⟩ := pmmFree_spec hq
      refine ⟨pmmFree_lookOk hb.look hq, hs.tracked.mpr hb.tracked, ?_, ?_⟩
      · have hcount := hb.count
        by_cases hg : f = g
        · subst hg; simp [hu]; omega
        · simpa [hu, hg] using hcount
      · simpa [lastMark_snoc, hc] using hb.flag
  | markCow g flag =>
      obtain ⟨q, hq, rfl⟩ := Option.map_eq_some_iff.mp h
      obtain ⟨hs, -, hu, hc⟩ := pmmMarkCow_spec hq
      refine ⟨pmmMarkCow_lookOk hb.look hq, hs.tracked.mpr hb.tracked, by simpa [hu] using hb.count, ?_⟩
      simp only [lastMark_snoc, hc, hb.flag, eq_comm]

/-- The accounts of a frame that was free at the start. -/
theorem accounts_run {p : Pmm} {f : Nat} {calls : List PmmCall} {a : Accounts}
    (hlook : p.lookFromHere = 0) (hf : p.Tracked f) (hfree : p.bitmap f = 0)
    (h : Run Accounts.call anyStep (.start p) calls a) : a.Balanced f calls := by
  obtain ⟨hu, hc⟩ := (bitmap_zero_iff p f).mp hfree
  refine Run.history (I := fun calls a => a.Balanced f calls)
    (fun _ _ _ _ hb _ hstep => balanced_step hb hstep) h ⟨?_, hf, by simp [Accounts.start, hu], hc⟩
  intro g hg hlt
  simp only [Accounts.start, Tracked, hlook] at hg hlt
  omega

/-- A free frame comes back from `pmm_alloc`: the search goes upwards, so each further call gets
closer to it. -/
theorem returnable_of_free {p : Pmm} {f : Nat} (hl : LookOk p) (hf : p.Tracked f)
    (hfree : p.bitmap f = 0) : Returnable p f := by
  -- the number of frames between the one found next and `f`
  obtain ⟨i, hi, hle⟩ := firstFree_isSome hl hf hfree
  obtain ⟨k, hk⟩ : ∃ k, f - (p.memBase + i) = k := ⟨_, rfl⟩
  suffices ∀ k a i, a.pmm.firstFree = some i → a.pmm.memBase + i ≤ f →
      f - (a.pmm.memBase + i) = k → LookOk a.pmm → a.pmm.Tracked f → a.pmm.bitmap f = 0 →
      ∃ n b, Run Accounts.call anyStep a (List.replicate n .alloc) b ∧
        ∃ q, pmmAlloc b.pmm = some (f, q) from
    this k (.start p) i hi hle hk hl hf hfree
  intro k
  induction k using Nat.strong_induction_on with
  | _ k ih =>
      intro a i hi hle hk hl hf hfree
      obtain ⟨q, hq⟩ : ∃ q, pmmAlloc a.pmm = some (a.pmm.memBase + i, q) := by
        unfold pmmAlloc; rw [hi]; exact ⟨_, rfl⟩
      by_cases hif : a.pmm.memBase + i = f
      · exact ⟨0, a, .refl _, q, hif ▸ hq⟩
      · -- one more call: the frame found is now in use, the next one lies above it
        obtain ⟨hs, -, -, -, hu, hc⟩ := pmmAlloc_spec hq
        have hl' := pmmAlloc_lookOk hl hq
        have hfree' : q.bitmap f = 0 := by
          rw [bitmap_zero_iff, hu, hc, if_neg (Ne.symm hif)]
          exact (bitmap_zero_iff _ _).mp hfree
        obtain ⟨j, hj, hjle⟩ := firstFree_isSome hl' (hs.tracked.mpr hf) hfree'
        have hlook : q.lookFromHere = i := by
          unfold pmmAlloc at hq
          rw [hi] at hq
          simp only [Option.some.injEq, Prod.mk.injEq] at hq
          rw [← hq.2]
        obtain ⟨hij, -, hjfree, -⟩ := firstFree_some hj
        have hne : j ≠ i := by
          rintro rfl
          have := ((bitmap_zero_iff _ _).mp hjfree).1
          rw [hs.1, hu] at this
          simp at this
        have hb := hs.1
        obtain ⟨n, b, hrun, hlast⟩ := ih (f - (q.memBase + j)) (by omega)
          { a with pmm := q,
                   taken := Function.update a.taken (a.pmm.memBase + i)
                     (a.taken (a.pmm.memBase + i) + 1) } j hj hjle rfl hl' (hs.tracked.mpr hf) hfree'
        refine ⟨n + 1, b, ?_, hlast⟩
        rw [List.replicate_succ]
        exact .more trivial (by simp [Accounts.call, hq]) hrun

/-- **The life of a frame.**  After any calls from boot on, a frame that was free then is free
exactly when everything taken is given back, if and only if in that case the last `pmm_mark_cow`
on it cleared the flag. -/
theorem frame_lifecycle_iff {p : Pmm} {f : Nat} {calls : List PmmCall} {a : Accounts}
    (hlook : p.lookFromHere = 0) (hf : p.Tracked f) (hfree : p.bitmap f = 0)
    (h : Run Accounts.call anyStep (.start p) calls a) :
    Lifecycle a f ↔ (a.freed f = a.taken f → lastMark f calls = false) := by
  have hb := accounts_run hlook hf hfree h
  have hcount := hb.count
  constructor
  · intro hlife heq
    rw [← hb.flag]
    exact ((bitmap_zero_iff _ _).mp (hlife.1 heq).1).2
  · refine fun hmark => ⟨fun heq => ?_, fun hne h₀ => hne ?_⟩
    · have h₀ : a.pmm.bitmap f = 0 :=
        (bitmap_zero_iff _ _).mpr ⟨by omega, by rw [hb.flag, hmark heq]⟩
      exact ⟨h₀, returnable_of_free hb.look hb.tracked h₀⟩
    · have := ((bitmap_zero_iff _ _).mp h₀).1
      omega

/-- One frame, free. -/
def oneFrame : Pmm := ⟨0, 1, fun _ => 0, 0⟩

/-- A page that is used and given back. -/
theorem frame_lifecycle_alloc_free :
    ∃ a, Run Accounts.call anyStep (.start oneFrame) [.alloc, .free 0] a ∧ Lifecycle a 0 := by
  have hrun : ∃ a, Run Accounts.call anyStep (.start oneFrame) [.alloc, .free 0] a :=
    ⟨_, .more trivial rfl (.more trivial rfl (.refl _))⟩
  obtain ⟨a, ha⟩ := hrun
  exact ⟨a, ha, (frame_lifecycle_iff rfl (by decide) rfl ha).mpr fun _ => rfl⟩

/-- Parent and child share the page after a fork and both exit: its two references are given back,
the flag stays, and the frame is lost. -/
theorem frame_lost_after_fork :
    ∃ a, Run Accounts.call anyStep (.start oneFrame)
        [.alloc, .use 0, .markCow 0 true, .free 0, .free 0] a ∧
      a.freed 0 = 2 ∧ a.taken 0 = 2 ∧ a.pmm.bitmap 0 ≠ 0 ∧ ¬ Lifecycle a 0 := by
  refine ⟨_, .more trivial rfl (.more trivial rfl (.more trivial rfl (.more trivial rfl
    (.more trivial rfl (.refl _))))), rfl, rfl, by decide, fun h => ?_⟩
  exact absurd (h.1 rfl).1 (by decide)

end Muxomucota.Memory
