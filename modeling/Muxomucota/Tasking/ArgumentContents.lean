import Muxomucota.Lib.Runs
import Muxomucota.Tasking.Arguments

/-!
# Tasking — what the loops of `process_set_args` put on the stack

The strings and the vectors go to an area whose pages are mapped.  A string is copied whole wherever the
page boundaries are (`copyArg_spec`), and the frame that is kept for the vectors is always that of the
page with the next entry (`setArgs_spec`).
-/

namespace Muxomucota.Tasking
open Mmu Memory Lib

variable {m m' : Mem} {pd lo hi d a v : Nat} {e : BitVec 32} {src : List (BitVec 8)}

theorem mappedFrame_some (h : UserPage m pd (a / 4096) e) : mappedFrame m pd a = some (frameOf e) := by
  rw [mappedFrame, h.addressMapped]
  exact if_neg (accessOf_ne e)

theorem mappedFrame_none (h : OnDemand m pd (a / 4096)) : mappedFrame m pd a = none := by
  rw [mappedFrame, h.addressMapped]
  rfl

theorem mem_pagesBetween {lo hi : Nat} :
    v ∈ pagesBetween lo hi ↔ lo / 4096 ≤ v ∧ v < (hi + 4095) % 2 ^ 32 / 4096 := by
  rw [pagesBetween, List.mem_range'_1]
  omega

/-! ### A string -/

/-- What holds of the loop over the pages of a string when it comes to `page`. -/
structure Copying (m : Mem) (pd lo hi d : Nat) (src : List (BitVec 8)) (page : Nat) (st : CopyLoop) :
    Prop where
  wrote : Wrote m st.mem pd lo hi d (src.take st.copied)
  place : d + st.copied = page * 4096 + st.outOff
  off : st.outOff < 4096
  more : page * 4096 < d + src.length → st.copied < src.length

/-- One page of a string: the last one gets what is left, and the others are filled. -/
theorem copyPage_spec {st : CopyLoop} {page : Nat} (h : Copying m pd lo hi d src page st)
    (hm : OwnDirectory m pd) (hphys : hi * 4096 ≤ physBase) (hlo : lo ≤ d / 4096)
    (hhi : d + src.length ≤ hi * 4096) (hpage : page * 4096 < d + src.length)
    (hp : UserPage m pd page e) :
    ∃ st', copyPage pd ((d + src.length + 4095) / 4096) src st page = some st' ∧
      Copying m pd lo hi d src (page + 1) st' := by
  have htop : physBase = 0xF0000000 := rfl
  obtain ⟨m₁, copied, outOff⟩ := st
  obtain ⟨hwrote, hplace, hoff, hmore⟩ := h
  dsimp only at hwrote hplace hoff hmore
  have hcopied := hmore hpage
  have hp₁ := (hwrote.same.userPage hm (by omega)).mpr hp
  obtain ⟨chunk, hchunk, hfit, hnext⟩ : ∃ chunk, (src.drop copied).take
      (if (d + src.length + 4095) / 4096 ≤ page + 1 then src.length - copied else 4096 - outOff) = chunk ∧
      outOff + chunk.length ≤ 4096 ∧ src.take copied ++ chunk = src.take (copied + (4096 - outOff)) := by
    refine ⟨_, rfl, ?_, ?_⟩
    · rw [List.length_take, List.length_drop]
      split <;> omega
    · split
      · rw [List.take_of_length_le (List.length_drop ..).le, List.take_append_drop,
          List.take_of_length_le (by omega)]
      · exact List.take_add.symm
  have hlen : (src.take copied).length = copied := by
    rw [List.length_take]
    omega
  have hcopy : Wrote m₁ (m₁.copyIn (frameOf e) outOff chunk) pd lo hi (d + (src.take copied).length)
      chunk := by
    rw [hlen, hplace]
    exact hwrote.area.copyIn hphys ⟨by omega, by omega⟩ hp₁ hfit
  have hboth := hwrote.append hcopy hphys hlo (by omega)
  rw [hnext] at hboth
  refine ⟨⟨m₁.copyIn (frameOf e) outOff chunk, copied + (4096 - outOff), 0⟩, ?_, hboth,
    by dsimp only; omega, Nat.zero_lt_succ _, fun hlt => by dsimp only at hlt ⊢; omega⟩
  rw [copyPage, mappedFrame_some (by rwa [Nat.mul_div_cancel _ (by decide : 0 < 4096)]), Option.map_some]
  dsimp only
  rw [hchunk]

/-- **A string is copied** to pages that are mapped. -/
theorem copyArg_spec (h : Area m pd lo hi) (hphys : hi * 4096 ≤ physBase) (hlo : lo ≤ d / 4096)
    (hhi : d + src.length ≤ hi * 4096) (hpos : 0 < src.length)
    (hmapped : ∀ v, d / 4096 ≤ v → v * 4096 < d + src.length → ∃ e, UserPage m pd v e) :
    ∃ m', copyArg m pd d src = some m' ∧ Wrote m m' pd lo hi d src := by
  have htop : physBase = 0xF0000000 := rfl
  have hstart : Copying m pd lo hi d src (d / 4096) ⟨m, 0, d % 4096⟩ :=
    ⟨by rw [List.take_zero]; exact .nil h, by dsimp only; omega, Nat.mod_lt _ (by decide), fun _ => hpos⟩
  unfold copyArg pagesBetween
  rw [Nat.mod_eq_of_lt (by omega : d + src.length + 4095 < 2 ^ 32)]
  obtain ⟨st, hst, hdone⟩ := foldlM_range'_total (n := (d + src.length + 4095) / 4096 - d / 4096)
    (P := Copying m pd lo hi d src) hstart fun page st hfirst hlast hst => by
      obtain ⟨e, hp⟩ := hmapped page hfirst (by omega)
      exact copyPage_spec hst h.dir hphys hlo hhi (by omega) hp
  have hplace := hdone.place
  have hoff := hdone.off
  have hwrote := hdone.wrote
  rw [List.take_of_length_le (by omega)] at hwrote
  exact ⟨st.mem, by rw [hst]; rfl, hwrote⟩

/-! ### The vectors -/

variable {argv envp : List CString} {stack i j : Nat}

/-- The two vectors one behind the other. -/
def argSlots (argv envp : List CString) : List (Option CString) :=
  argv.map some ++ none :: (envp.map some ++ [none])

theorem argSlots_length : (argSlots argv envp).length = argv.length + envp.length + 2 := by
  simp only [argSlots, List.length_append, List.length_cons, List.length_map, List.length_nil]
  omega

theorem argAt_eq (hi : i < argv.length + envp.length + 2) :
    (argSlots argv envp)[i]? = some (argAt argv envp i) := by
  unfold argAt argSlots
  rcases Nat.lt_trichotomy i argv.length with hlt | rfl | hgt
  · rw [List.getElem?_append_left (by rwa [List.length_map]), if_pos (by omega), if_pos hlt,
      List.getElem?_map, List.getElem?_eq_getElem hlt]
    rfl
  · rw [List.getElem?_append_right (by rw [List.length_map]), List.length_map, Nat.sub_self, if_neg (by simp)]
    rfl
  · obtain ⟨k, rfl⟩ : ∃ k, i = argv.length + (k + 1) := ⟨i - argv.length - 1, by omega⟩
    rw [List.getElem?_append_right (by rw [List.length_map]; omega), List.length_map,
      Nat.add_sub_cancel_left, List.getElem?_cons_succ]
    rcases Nat.lt_or_ge k envp.length with hlt | hge
    · rw [List.getElem?_append_left (by rwa [List.length_map]), if_pos (by omega), if_neg (by omega),
        List.getElem?_map, Nat.add_sub_cancel, List.getElem?_eq_getElem hlt]
      rfl
    · obtain rfl : k = envp.length := by omega
      rw [List.getElem?_append_right (by rw [List.length_map]), List.length_map, Nat.sub_self,
        if_neg (by omega)]
      rfl

/-- The bytes of the string that an entry points to. -/
def slotBytes : Option CString → List (BitVec 8)
  | some s => s.bytes
  | none => []

/-- How far behind the vectors the string of entry `i` is. -/
def argOffset (argv envp : List CString) (i : Nat) : Nat :=
  (((argSlots argv envp).take i).map slotBytes).flatten.length

theorem argOffset_succ (hi : i < argv.length + envp.length + 2) :
    argOffset argv envp (i + 1) = argOffset argv envp i + (slotBytes (argAt argv envp i)).length := by
  unfold argOffset
  rw [List.take_add_one, argAt_eq hi]
  simp

theorem argOffset_mono (argv envp : List CString) (h : i ≤ j) : argOffset argv envp i ≤ argOffset argv envp j := by
  obtain ⟨k, rfl⟩ := Nat.exists_eq_add_of_le h
  unfold argOffset
  rw [List.take_add]
  simp

theorem argOffset_all :
    argOffset argv envp (argv.length + envp.length + 2) =
      ((argv ++ envp).map CString.bytes).flatten.length := by
  have hall : ∀ l : List CString, (l.map some).map slotBytes = l.map CString.bytes := fun l => by
    rw [List.map_map]
    rfl
  unfold argOffset
  rw [List.take_of_length_le argSlots_length.le, argSlots]
  simp [hall, slotBytes]

theorem CString.bytes_length (s : CString) : s.bytes.length = strlen s + 1 := by
  rw [CString.bytes, List.length_append]
  rfl

/-- What is in entry `i`, if the strings are at `base`. -/
def pointerAt (argv envp : List CString) (base i : Nat) : BitVec 32 :=
  match argAt argv envp i with
  | some _ => BitVec.ofNat 32 (base + argOffset argv envp i)
  | none => 0

/-- What holds of the loop over the vectors when it comes to entry `i`; the strings go to `base`. -/
structure ArgsSet (m : Mem) (pd lo hi stack base : Nat) (argv envp : List CString) (i : Nat) (st : ArgLoop) :
    Prop where
  same : SameTables m st.mem pd
  area : Area st.mem pd lo hi
  d : st.d = base + argOffset argv envp i
  window : (stack + 4 * i) % 4096 ≠ 0 →
    ∃ e, UserPage m pd ((stack + 4 * i) / 4096) e ∧ frameOf e = st.argvMap
  pointers : ∀ j < i, BytesAt st.mem pd (stack + 4 * j) (wordBytes (pointerAt argv envp base j))
  strings : ∀ j < i,
    BytesAt st.mem pd (base + argOffset argv envp j) (slotBytes (argAt argv envp j))

/-- The page that the vectors and strings are put in are in an area, and mapped. -/
structure ArgSpace (m : Mem) (pd lo hi stack base : Nat) (argv envp : List CString) : Prop where
  area : Area m pd lo hi
  phys : hi * 4096 ≤ physBase
  low : lo ≤ stack / 4096
  aligned : stack % 4 = 0
  base_eq : base = stack + 4 * (argv.length + envp.length + 2)
  high : base + argOffset argv envp (argv.length + envp.length + 2) ≤ hi * 4096
  mapped : ∀ v, stack / 4096 ≤ v →
    v * 4096 < base + argOffset argv envp (argv.length + envp.length + 2) → ∃ e, UserPage m pd v e

theorem wordBytes_length (w : BitVec 32) : (wordBytes w).length = 4 := rfl

/-- The frame for entry `i` is mapped: either it is still the one before, or it is mapped now. -/
theorem ArgsSet.argvMap {base : Nat} {st : ArgLoop} (hs : ArgSpace m pd lo hi stack base argv envp)
    (h : ArgsSet m pd lo hi stack base argv envp i st) (hi' : i < argv.length + envp.length + 2) :
    ∃ e, UserPage m pd ((stack + 4 * i) / 4096) e ∧
      (if (stack + 4 * i) % 4096 = 0 then
        (mappedFrame st.mem pd (stack + 4 * i)).map fun f => { st with argvMap := f } else some st) =
        some { st with argvMap := frameOf e } := by
  have htop : physBase = 0xF0000000 := rfl
  have hphys := hs.phys
  have hbase := hs.base_eq
  have hhigh := hs.high
  split
  · obtain ⟨e, hp⟩ := hs.mapped ((stack + 4 * i) / 4096) (by omega) (by omega)
    refine ⟨e, hp, ?_⟩
    rw [mappedFrame_some ((h.same.userPage hs.area.dir (by omega)).mpr hp), Option.map_some]
  · rename_i hne
    obtain ⟨e, hp, hf⟩ := h.window hne
    exact ⟨e, hp, by rw [hf]⟩

/-- The pointer of an entry and its string are written. -/
theorem ArgsSet.next {base : Nat} {st : ArgLoop} {m₁ m₂ : Mem} (hs : ArgSpace m pd lo hi stack base argv envp)
    (h : ArgsSet m pd lo hi stack base argv envp i st) (hlt : i < argv.length + envp.length + 2)
    (hp : UserPage m pd ((stack + 4 * i) / 4096) e)
    (hword : Wrote st.mem m₁ pd lo hi (stack + 4 * i) (wordBytes (pointerAt argv envp base i)))
    (hstring : Wrote m₁ m₂ pd lo hi (base + argOffset argv envp i) (slotBytes (argAt argv envp i))) :
    ArgsSet m pd lo hi stack base argv envp (i + 1)
      ⟨m₂, base + argOffset argv envp (i + 1), frameOf e⟩ := by
  have hphys := hs.phys
  have hlow := hs.low
  have hbase := hs.base_eq
  have hhigh := hs.high
  have hfits : ∀ j, j ≤ i → base + argOffset argv envp j + (slotBytes (argAt argv envp j)).length ≤
      base + argOffset argv envp (argv.length + envp.length + 2) := fun j hj => by
    have hmono := argOffset_mono argv envp
      (by omega : j + 1 ≤ argv.length + envp.length + 2)
    rw [argOffset_succ (by omega)] at hmono
    omega
  have hfit := hfits i le_rfl
  refine ⟨(h.same.trans hword.same).trans hstring.same, hstring.area, rfl, fun hne => ⟨e, ?_, rfl⟩,
    fun j hj => ?_, fun j hj => ?_⟩
  · have hmul := hs.aligned
    rwa [show (stack + 4 * (i + 1)) / 4096 = (stack + 4 * i) / 4096 by omega]
  · refine hstring.holds hphys (by omega) (by rw [wordBytes_length]; omega)
      (.inl (by rw [wordBytes_length]; omega)) ?_
    rcases Nat.lt_succ_iff_lt_or_eq.mp hj with hji | rfl
    · exact hword.holds hphys (by omega) (by rw [wordBytes_length]; omega)
        (.inl (by rw [wordBytes_length]; omega)) (h.pointers j hji)
    · exact hword.stored
  · rcases Nat.lt_succ_iff_lt_or_eq.mp hj with hji | rfl
    · have hmono := argOffset_mono argv envp (by omega : j + 1 ≤ i)
      rw [argOffset_succ (by omega)] at hmono
      have hfit' := hfits j (by omega)
      exact hstring.holds hphys (by omega) (by omega) (.inl (by omega))
        (hword.holds hphys (by omega) (by omega) (.inr (by rw [wordBytes_length]; omega))
          (h.strings j hji))
    · exact hstring.stored

/-- One round of the loop over the vectors. -/
theorem setArg_spec {base : Nat} {st : ArgLoop} (hs : ArgSpace m pd lo hi stack base argv envp)
    (h : ArgsSet m pd lo hi stack base argv envp i st) (hlt : i < argv.length + envp.length + 2) :
    ∃ st', setArg pd stack argv envp st i = some st' ∧
      ArgsSet m pd lo hi stack base argv envp (i + 1) st' := by
  have htop : physBase = 0xF0000000 := rfl
  have hphys := hs.phys
  have hlow := hs.low
  have hbase := hs.base_eq
  have hhigh := hs.high
  have hmul := hs.aligned
  obtain ⟨e, hp, hmap⟩ := h.argvMap hs hlt
  have hp' := (h.same.userPage hs.area.dir (by omega)).mpr hp
  have hword := h.area.setEntry hphys ⟨by omega, by omega⟩ hp'
    (by omega : (stack + 4 * i) % 4096 / 4 < 1024) (pointerAt argv envp base i)
  rw [show (stack + 4 * i) / 4096 * 4096 + 4 * ((stack + 4 * i) % 4096 / 4) = stack + 4 * i by omega] at hword
  have hnext : ∀ m₂, Wrote _ m₂ pd lo hi _ _ → ArgsSet m pd lo hi stack base argv envp (i + 1) _ :=
    fun m₂ => h.next hs hlt hp hword
  have hoffset := argOffset_succ hlt
  have hmono := argOffset_mono argv envp
    (by omega : i + 1 ≤ argv.length + envp.length + 2)
  unfold setArg
  rw [Nat.mod_eq_of_lt (by omega : stack + 4 * i < 2 ^ 32)]
  dsimp only
  rw [hmap, Option.bind_some]
  unfold pointerAt at hword hnext
  cases hslot : argAt argv envp i with
  | none =>
      rw [hslot] at hword hnext hoffset
      dsimp only at hword hnext ⊢
      rw [show st.d = base + argOffset argv envp (i + 1) by rw [hoffset, h.d]; rfl]
      exact ⟨_, rfl, hnext _ (.nil hword.area)⟩
  | some src =>
      rw [hslot] at hword hnext hoffset
      dsimp only [slotBytes] at hword hnext hoffset ⊢
      have hlen := src.bytes_length
      obtain ⟨m₂, hcopy, hwrote⟩ : ∃ m₂, copyArg _ pd _ src.bytes = some m₂ ∧ Wrote _ m₂ pd lo hi _ _ :=
        copyArg_spec hword.area hphys
        (by omega : lo ≤ (base + argOffset argv envp i) / 4096) (by omega) (by omega) fun v hv hlt' => by
          obtain ⟨e', hp₁⟩ := hs.mapped v (by omega) (by omega)
          exact ⟨e', ((h.same.trans hword.same).userPage hs.area.dir (by omega)).mpr hp₁⟩
      rw [h.d, hcopy, Option.map_some, ← hlen, Nat.add_assoc, ← hoffset,
        Nat.mod_eq_of_lt (by omega : base + argOffset argv envp (i + 1) < 2 ^ 32)]
      exact ⟨_, rfl, hnext _ hwrote⟩

/-- **The vectors and their strings are put** on pages that are mapped. -/
theorem setArgs_spec {base : Nat} (hs : ArgSpace m pd lo hi stack base argv envp)
    (hp : UserPage m pd (stack / 4096) e) :
    ∃ st, (List.range (argv.length + envp.length + 2)).foldlM (setArg pd stack argv envp)
        ⟨m, base, frameOf e⟩ = some st ∧
      ArgsSet m pd lo hi stack base argv envp (argv.length + envp.length + 2) st := by
  refine foldlM_range_total (P := ArgsSet m pd lo hi stack base argv envp)
    ⟨.refl m pd, hs.area, ?_, fun _ => ⟨e, hp, rfl⟩, fun j hj => ?_, fun j hj => ?_⟩
    fun i st hi h => setArg_spec hs h hi
  · simp [argOffset]
  · exact absurd hj (Nat.not_lt_zero j)
  · exact absurd hj (Nat.not_lt_zero j)

theorem argAt_argv (hi : i < argv.length) : argAt argv envp i = some argv[i] := by
  rw [argAt, if_pos (by omega), if_pos hi, List.getElem?_eq_getElem hi]

theorem argAt_envp (hi : i < envp.length) : argAt argv envp (argv.length + 1 + i) = some envp[i] := by
  rw [argAt, if_pos (by omega), if_neg (by omega), show argv.length + 1 + i - argv.length - 1 = i by omega,
    List.getElem?_eq_getElem hi]

theorem argAt_null (argv envp : List CString) : argAt argv envp argv.length = none ∧
    argAt argv envp (argv.length + 1 + envp.length) = none :=
  ⟨if_neg (by omega), if_neg (by omega)⟩

/-- The entries and their strings are the two vectors. -/
theorem vectors_at {base : Nat}
    (hp : ∀ j < argv.length + envp.length + 2,
      BytesAt m pd (stack + 4 * j) (wordBytes (pointerAt argv envp base j)))
    (hs : ∀ j < argv.length + envp.length + 2,
      BytesAt m pd (base + argOffset argv envp j) (slotBytes (argAt argv envp j)))
    (hlt : base + argOffset argv envp (argv.length + envp.length + 2) < 2 ^ 32) :
    VectorAt m pd stack argv ∧ VectorAt m pd (stack + 4 * (argv.length + 1)) envp := by
  have hentry : ∀ j < argv.length + envp.length + 2, ∀ s, argAt argv envp j = some s →
      ∃ p : BitVec 32, BytesAt m pd (stack + 4 * j) (wordBytes p) ∧ BytesAt m pd p.toNat s.bytes := by
    intro j hj s hslot
    have hpj := hp j hj
    have hsj := hs j hj
    rw [pointerAt, hslot] at hpj
    rw [hslot] at hsj
    have hmono := argOffset_mono argv envp (Nat.le_of_lt hj)
    refine ⟨_, hpj, ?_⟩
    rw [BitVec.toNat_ofNat, Nat.mod_eq_of_lt (by omega)]
    exact hsj
  have hnull : ∀ j < argv.length + envp.length + 2, argAt argv envp j = none →
      BytesAt m pd (stack + 4 * j) (wordBytes 0) := by
    intro j hj hslot
    have hpj := hp j hj
    rwa [pointerAt, hslot] at hpj
  refine ⟨⟨fun i hi => hentry i (by omega) _ (argAt_argv hi), hnull _ (by omega) (argAt_null argv envp).1⟩,
    fun i hi => ?_, ?_⟩
  · have h := hentry _ (by omega) _ (argAt_envp hi)
    rwa [show stack + 4 * (argv.length + 1 + i) = stack + 4 * (argv.length + 1) + 4 * i by omega] at h
  · have h := hnull _ (by omega) (argAt_null argv envp).2
    rwa [show stack + 4 * (argv.length + 1 + envp.length) =
      stack + 4 * (argv.length + 1) + 4 * envp.length by omega] at h

end Muxomucota.Tasking
