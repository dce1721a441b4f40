import Muxomucota.Mmu.TouchPages
import Mathlib.Data.List.GetD

/-!
# Mmu — writing to the frames of an area

The kernel writes to a process's pages through their frames, one page at a time.  In an area whose pages
have frames of their own such a write changes the bytes at its addresses and no others (`Wrote`), and
writes to adjacent addresses make one (`Wrote.append`), whichever pages they are in.
-/

namespace Muxomucota.Mmu
open Memory Pmm Lib

variable {m m' m₁ : Mem} {pd v w a lo hi f off : Nat} {e : BitVec 32} {bytes xs ys : List (BitVec 8)}
  {s : Finset Nat}

/-- User programs read these bytes from the address on. -/
def BytesAt (m : Mem) (pd a : Nat) (bytes : List (BitVec 8)) : Prop :=
  ∀ k < bytes.length, m.userLoad pd (a + k) = some (bytes.getD k 0)

/-- The bytes of a word. -/
def wordBytes (w : BitVec 32) : List (BitVec 8) :=
  [w.extractLsb' 0 8, w.extractLsb' 8 8, w.extractLsb' 16 8, w.extractLsb' 24 8]

/-- The directory and its page tables are as before. -/
structure SameTables (m m' : Mem) (pd : Nat) : Prop extends SameDir m m' pd where
  table : ∀ i < userPdes, isPr (m.entry pd i) = true →
    ∀ j, m'.entry (frameOf (m.entry pd i)) j = m.entry (frameOf (m.entry pd i)) j

/-- Bytes are written in an area. -/
structure Wrote (m m' : Mem) (pd lo hi a : Nat) (bytes : List (BitVec 8)) : Prop where
  same : SameTables m m' pd
  area : Area m' pd lo hi
  stored : BytesAt m' pd a bytes
  kept : ∀ x, lo ≤ x / 4096 → x / 4096 < hi → x < physBase → x < a ∨ a + bytes.length ≤ x →
    m'.userLoad pd x = m.userLoad pd x

/-! ### The tables -/

theorem SameTables.refl (m : Mem) (pd : Nat) : SameTables m m pd where
  pmm := rfl
  dir _ := rfl
  table _ _ _ _ := rfl

theorem SameTables.trans (h : SameTables m m₁ pd) (h' : SameTables m₁ m' pd) : SameTables m m' pd where
  pmm := h'.pmm.trans h.pmm
  dir i := (h'.dir i).trans (h.dir i)
  table i hi hpr j := by
    have htab := h'.table i hi (by rw [h.dir]; exact hpr) j
    rw [h.dir] at htab
    exact htab.trans (h.table i hi hpr j)

/-- A data frame is written. -/
theorem IsData.sameTables (h : IsData m pd userPdes f) (hpmm : m'.pmm = m.pmm)
    (hram : ∀ g, g ≠ f → m'.ram g = m.ram g) : SameTables m m' pd where
  pmm := hpmm
  dir i := entry_congr (hram pd h.notDir.symm) i
  table i hi hpr j := entry_congr (hram _ (h.notTable i hi hpr)) j

namespace SameTables

variable (h : SameTables m m' pd)
include h

theorem noTable (i : Nat) : NoTable m' pd i ↔ NoTable m pd i := by
  unfold NoTable
  rw [h.dir]

theorem ownDirectory (hm : OwnDirectory m pd) : OwnDirectory m' pd where
  held := h.held hm.held
  kernel i hlo hhi := by
    rw [h.dir]
    exact hm.kernel i hlo hhi
  small i hi hno := by
    rw [h.dir]
    exact hm.small i hi ((h.noTable i).mp hno)
  look := by
    rw [h.pmm]
    exact hm.look

theorem entries (hw : w / 1024 < userPdes) : SameEntries m m' pd w :=
  ⟨h.dir _, fun hpr => h.table _ hw hpr _⟩

theorem onDemand (hm : OwnDirectory m pd) (hw : w < 2 ^ 20) : OnDemand m' pd w ↔ OnDemand m pd w := by
  by_cases hlow : w / 1024 < userPdes
  · exact (h.entries hlow).onDemand
  · exact iff_of_false (fun hod => hlow ((h.ownDirectory hm).onDemand_lt hw hod))
      fun hod => hlow (hm.onDemand_lt hw hod)

theorem userPage (hm : OwnDirectory m pd) (hw : w < 2 ^ 20) :
    UserPage m' pd w e ↔ UserPage m pd w e := by
  by_cases hlow : w / 1024 < userPdes
  · exact (h.entries hlow).userPage
  · exact iff_of_false (fun hp => hlow ((h.ownDirectory hm).userPage_lt hw hp))
      fun hp => hlow (hm.userPage_lt hw hp)

theorem isData (hd : IsData m pd userPdes f) : IsData m' pd userPdes f where
  used := by
    rw [h.pmm]
    exact hd.used
  notDir := hd.notDir
  notTable i hi := by
    rw [h.dir]
    exact hd.notTable i hi

theorem area (hm : Area m pd lo hi) (hhi : hi ≤ 2 ^ 20) : Area m' pd lo hi where
  dir := h.ownDirectory hm.dir
  page v hlo hlt := by
    rcases hm.page v hlo hlt with hod | ⟨e, hp, hd⟩
    · exact .inl ((h.onDemand hm.dir (by omega)).mpr hod)
    · exact .inr ⟨e, (h.userPage hm.dir (by omega)).mpr hp, h.isData hd⟩
  apart v w e e' hvlo hv hwlo hw hpv hpw :=
    hm.apart v w e e' hvlo hv hwlo hw ((h.userPage hm.dir (by omega)).mp hpv)
      ((h.userPage hm.dir (by omega)).mp hpw)

theorem framesFor (hm : OwnDirectory m pd) (hs : ∀ w ∈ s, w < 2 ^ 20) :
    framesFor m' pd s = framesFor m pd s := by
  rw [Mmu.framesFor, Mmu.framesFor, Finset.filter_congr fun w hw => h.onDemand hm (hs w hw),
    Finset.filter_congr fun i _ => h.noTable i]

end SameTables

/-! ### Bytes -/

theorem OnDemand.load (h : OnDemand m pd (a / 4096)) : m.userLoad pd a = none := by
  cases hload : m.userLoad pd a with
  | none => rfl
  | some b =>
      obtain ⟨e, hp, -⟩ := userPage_of_load hload
      exact absurd h hp.not_onDemand

theorem bytesAt_append :
    BytesAt m pd a (xs ++ ys) ↔ BytesAt m pd a xs ∧ BytesAt m pd (a + xs.length) ys := by
  refine ⟨fun h => ⟨fun k hk => ?_, fun k hk => ?_⟩, fun ⟨hx, hy⟩ k hk => ?_⟩
  · rw [h k (by rw [List.length_append]; omega), List.getD_append _ _ _ _ hk]
  · rw [Nat.add_assoc, h _ (by rw [List.length_append]; omega),
      List.getD_append_right _ _ _ _ (Nat.le_add_right ..), Nat.add_sub_cancel_left]
  · rw [List.length_append] at hk
    by_cases hlt : k < xs.length
    · rw [List.getD_append _ _ _ _ hlt]
      exact hx k hlt
    · rw [List.getD_append_right _ _ _ _ (Nat.not_lt.mp hlt)]
      have hload := hy (k - xs.length) (by omega)
      rwa [show a + xs.length + (k - xs.length) = a + k by omega] at hload

theorem Retains.holds (h : Retains m m' pd lo hi) (hphys : hi * 4096 ≤ physBase) (hlo : lo ≤ a / 4096)
    (hhi : a + bytes.length ≤ hi * 4096) (hb : BytesAt m pd a bytes) : BytesAt m' pd a bytes :=
  fun k hk => h _ _ (by omega) (by omega) (by omega) (hb k hk)

theorem Wrote.holds (h : Wrote m m' pd lo hi a xs) {b : Nat} (hphys : hi * 4096 ≤ physBase)
    (hlo : lo ≤ b / 4096) (hhi : b + bytes.length ≤ hi * 4096)
    (hoff : b + bytes.length ≤ a ∨ a + xs.length ≤ b) (hb : BytesAt m pd b bytes) : BytesAt m' pd b bytes :=
  fun k hk => (h.kept _ (by omega) (by omega) (by omega) (by omega)).trans (hb k hk)

theorem Wrote.nil (h : Area m pd lo hi) : Wrote m m pd lo hi a [] where
  same := .refl m pd
  area := h
  stored _ hk := absurd hk (Nat.not_lt_zero _)
  kept _ _ _ _ _ := rfl

/-- Writes to adjacent addresses. -/
theorem Wrote.append (h : Wrote m m₁ pd lo hi a xs) (h' : Wrote m₁ m' pd lo hi (a + xs.length) ys)
    (hphys : hi * 4096 ≤ physBase) (hlo : lo ≤ a / 4096) (hhi : a + xs.length ≤ hi * 4096) :
    Wrote m m' pd lo hi a (xs ++ ys) where
  same := h.same.trans h'.same
  area := h'.area
  stored := bytesAt_append.mpr ⟨h'.holds hphys hlo hhi (.inl le_rfl) h.stored, h'.stored⟩
  kept x hlo hlt hx hout := by
    rw [List.length_append] at hout
    exact (h'.kept x hlo hlt hx (by omega)).trans (h.kept x hlo hlt hx (by omega))

/-- **A write to a frame** of the area. -/
theorem Area.write (h : Area m pd lo hi) (hhi : hi * 4096 ≤ physBase) (hv : lo ≤ v ∧ v < hi)
    (hp : UserPage m pd v e) (hfit : off + bytes.length ≤ 4096) (hpmm : m'.pmm = m.pmm)
    (hother : ∀ g, g ≠ frameOf e → m'.ram g = m.ram g)
    (hself : ∀ o, m'.ram (frameOf e) o = if off ≤ o ∧ o < off + bytes.length then bytes.getD (o - off) 0
      else m.ram (frameOf e) o) : Wrote m m' pd lo hi (v * 4096 + off) bytes := by
  have hphys : physBase = 0xF0000000 := rfl
  have hdata : IsData m pd userPdes (frameOf e) := by
    rcases h.page v hv.1 hv.2 with hod | ⟨e', hp', hd⟩
    · exact absurd hod hp.not_onDemand
    · cases hp.page.symm.trans hp'.page
      exact hd
  have hsame := hdata.sameTables hpmm hother
  refine ⟨hsame, hsame.area h (by omega), fun k hk => ?_, fun x hlo hlt hx hout => ?_⟩
  · have hpage : (v * 4096 + off + k) / 4096 = v := by omega
    have hp' : UserPage m' pd ((v * 4096 + off + k) / 4096) e := by
      rw [hpage]
      exact (hsame.userPage h.dir (by omega)).mpr hp
    rw [hp'.load (by omega), hself, show (v * 4096 + off + k) % 4096 = off + k by omega,
      if_pos ⟨by omega, by omega⟩, Nat.add_sub_cancel_left]
  · rcases h.page _ hlo hlt with hod | ⟨e', hp', -⟩
    · rw [hod.load, ((hsame.onDemand h.dir (by omega)).mpr hod).load]
    · rw [hp'.load hx, ((hsame.userPage h.dir (by omega)).mpr hp').load hx]
      by_cases hxv : x / 4096 = v
      · subst hxv
        cases hp.page.symm.trans hp'.page
        rw [hself, if_neg (by omega)]
      · rw [hother]
        exact fun heq => hxv (h.apart _ _ e' e hlo hlt hv.1 hv.2 hp' hp heq)

theorem Area.copyIn (h : Area m pd lo hi) (hhi : hi * 4096 ≤ physBase) (hv : lo ≤ v ∧ v < hi)
    (hp : UserPage m pd v e) (hfit : off + bytes.length ≤ 4096) :
    Wrote m (m.copyIn (frameOf e) off bytes) pd lo hi (v * 4096 + off) bytes :=
  h.write hhi hv hp hfit (copyIn_pmm ..) (fun _ hg => copyIn_ram m off bytes hg)
    fun o => copyIn_apply m (frameOf e) off bytes o

/-- A word is written as its four bytes. -/
theorem setWord_bytes (r : Ram) (f off o : Nat) (w : BitVec 32) : r.setWord f off w f o =
    if off ≤ o ∧ o < off + (wordBytes w).length then (wordBytes w).getD (o - off) 0 else r f o := by
  have hlen : (wordBytes w).length = 4 := rfl
  rw [Ram.setWord_apply, hlen]
  simp only [true_and]
  by_cases hin : off ≤ o ∧ o < off + 4
  · obtain ⟨k, rfl⟩ := Nat.exists_eq_add_of_le hin.1
    obtain rfl | rfl | rfl | rfl : k = 0 ∨ k = 1 ∨ k = 2 ∨ k = 3 := by omega
    all_goals simp [wordBytes]
  · rw [if_neg (by omega), if_neg (by omega), if_neg (by omega), if_neg (by omega), if_neg hin]

theorem Area.setEntry (h : Area m pd lo hi) (hhi : hi * 4096 ≤ physBase) (hv : lo ≤ v ∧ v < hi)
    (hp : UserPage m pd v e) {i : Nat} (hlt : i < 1024) (w : BitVec 32) :
    Wrote m (m.setEntry (frameOf e) i w) pd lo hi (v * 4096 + 4 * i) (wordBytes w) :=
  h.write hhi hv hp (by rw [show (wordBytes w).length = 4 from rfl]; omega) (setEntry_pmm ..)
    (fun _ hg => setEntry_ram m i w hg) fun o => setWord_bytes m.ram (frameOf e) (4 * i) o w

end Muxomucota.Mmu
