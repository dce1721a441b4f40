import Muxomucota.Lib.Walk
import Muxomucota.Pci.Tree

/-!
# Pci — `enumerate_bus`

`enumerate_bus` looks at the functions of a bus, adds the ordinary ones to the tree and calls itself for the
secondary bus of a bridge, whichever it is.  A fuel says how many calls may be inside one another.

* `enumerateBus_eq_walk`: it is a walk over the functions that are found (`Lib.Walk`).
* `enumerate_bus_iff`: from bus 0 it comes to an end, with the tree that is expected, if and only if no bus
  that can be reached is behind itself.
-/

namespace Muxomucota.Pci
open Lib Relation

variable {cfg : Config} {bus : Byte} {dev fnc n : Nat} {s s' : Tree}

/-! ### The code -/

/-- The lower seven bits at 0x0e: what the function is. -/
def headerType (cfg : Config) (bus : Byte) (dev fnc : Nat) : Nat :=
  (cfg.in8 bus dev fnc 0x0e &&& 0x7f).toNat

def secondaryBus (cfg : Config) (bus : Byte) (dev fnc : Nat) : Byte := cfg.in8 bus dev fnc 0x19

/-- There is no function. -/
def missing (cfg : Config) (bus : Byte) (dev fnc : Nat) : Bool := cfg.in16 bus dev fnc 0x00 = 0xffff

/-- The function says that its device has several. -/
def multiFunction (cfg : Config) (bus : Byte) (dev fnc : Nat) : Bool :=
  cfg.in8 bus dev fnc 0x0e &&& 0x80 ≠ 0

/-- The `switch`; `enter` is the call for another bus. -/
def enumerateFunction (cfg : Config) (enter : Byte → Tree → Option Tree) (bus : Byte) (dev fnc : Nat)
    (s : Tree) : Option Tree :=
  match headerType cfg bus dev fnc with
  | 0 => some (s.addFunction cfg bus dev fnc)
  | 1 => enter (secondaryBus cfg bus dev fnc) s
  | _ => some s

/-- The loop over the functions of a device. -/
def enumerateDevice (cfg : Config) (enter : Byte → Tree → Option Tree) (bus : Byte) (dev : Nat) :
    List Nat → Tree → Option Tree
  | [], s => some s
  | fnc :: fncs, s =>
      if missing cfg bus dev fnc then
        if fnc ≠ 0 then enumerateDevice cfg enter bus dev fncs s else some s
      else
        (enumerateFunction cfg enter bus dev fnc s).bind fun s =>
          if fnc = 0 ∧ ¬ multiFunction cfg bus dev fnc then some s
          else enumerateDevice cfg enter bus dev fncs s

def enumerateBus (cfg : Config) : Nat → Byte → Tree → Option Tree
  | 0, _, _ => none
  | fuel + 1, bus, s =>
      (List.range 32).foldlM
        (fun s dev => enumerateDevice cfg (enumerateBus cfg fuel) bus dev (List.range 8) s) s

/-! ### What there is to find -/

/-- A function that an enumeration has to find: it is there, and if it is not the first of its device, the
first one is there and says that the device has several. -/
structure Found (cfg : Config) (bus : Byte) (dev fnc : Nat) : Prop where
  dev_lt : dev < 32
  fnc_lt : fnc < 8
  there : missing cfg bus dev fnc = false
  first : fnc = 0 ∨ missing cfg bus dev 0 = false ∧ multiFunction cfg bus dev 0 = true

/-- A bridge on `bus` leads to `bus'`. -/
def Bridge (cfg : Config) (bus bus' : Byte) : Prop :=
  ∃ dev fnc, Found cfg bus dev fnc ∧ headerType cfg bus dev fnc = 1 ∧
    secondaryBus cfg bus dev fnc = bus'

/-- The bus is behind bridges of bus 0, or bus 0 itself. -/
def Reachable (cfg : Config) (bus : Byte) : Prop := ReflTransGen (Bridge cfg) 0 bus

/-- An ordinary function. -/
def Ordinary (cfg : Config) (bus : Byte) (dev fnc : Nat) : Prop :=
  Found cfg bus dev fnc ∧ headerType cfg bus dev fnc = 0

/-! ### The loops are a walk -/

/-- The functions that are found on a device. -/
def found (cfg : Config) (bus : Byte) (dev : Nat) : List Nat :=
  if missing cfg bus dev 0 then []
  else 0 :: if multiFunction cfg bus dev 0 then
    (List.range' 1 7).filter fun fnc => !missing cfg bus dev fnc else []

/-- The functions that are found on a bus. -/
def functions (cfg : Config) (bus : Byte) : List (Byte × Nat × Nat) :=
  (List.range 32).flatMap fun dev => (found cfg bus dev).map fun fnc => (bus, dev, fnc)

/-- Where a function leads. -/
def target (cfg : Config) (x : Byte × Nat × Nat) : Option Byte :=
  if headerType cfg x.1 x.2.1 x.2.2 = 1 then some (secondaryBus cfg x.1 x.2.1 x.2.2) else none

/-- What is made of a function that leads nowhere. -/
def act (cfg : Config) (x : Byte × Nat × Nat) (s : Tree) : Tree :=
  if headerType cfg x.1 x.2.1 x.2.2 = 0 then s.addFunction cfg x.1 x.2.1 x.2.2 else s

theorem mem_found : fnc ∈ found cfg bus dev ↔ fnc < 8 ∧ missing cfg bus dev fnc = false ∧
    (fnc = 0 ∨ missing cfg bus dev 0 = false ∧ multiFunction cfg bus dev 0 = true) := by
  have hrange : ∀ k, k ∈ List.range' 1 7 ↔ 1 ≤ k ∧ k < 8 := fun k => by
    rw [List.mem_range'_1]
  unfold found
  split
  · rename_i h
    refine iff_of_false List.not_mem_nil ?_
    rintro ⟨-, hthere, rfl | ⟨h0, -⟩⟩
    · rw [h] at hthere; cases hthere
    · rw [h] at h0; cases h0
  · rename_i h
    have h0 : missing cfg bus dev 0 = false := by simpa using h
    rw [List.mem_cons]
    split
    · rename_i hmulti
      rw [List.mem_filter, hrange]
      by_cases hz : fnc = 0
      · subst hz
        simp [h0]
      · simp only [hz, false_or, h0, hmulti, and_self, and_true, Bool.not_eq_true', or_true]
        exact ⟨fun h => ⟨h.1.2, h.2⟩, fun h => ⟨⟨by omega, h.1⟩, h.2⟩⟩
    · rename_i hmulti
      by_cases hz : fnc = 0
      · subst hz
        simp [h0]
      · simp [hz, hmulti]

theorem mem_functions {x : Byte × Nat × Nat} :
    x ∈ functions cfg bus ↔ x.1 = bus ∧ Found cfg bus x.2.1 x.2.2 := by
  obtain ⟨b, d, f⟩ := x
  simp only [functions, List.mem_flatMap, List.mem_range, List.mem_map, Prod.mk.injEq]
  constructor
  · rintro ⟨dev, hdev, fnc, hfnc, rfl, rfl, rfl⟩
    obtain ⟨h8, hthere, hfirst⟩ := mem_found.mp hfnc
    exact ⟨rfl, hdev, h8, hthere, hfirst⟩
  · rintro ⟨rfl, h⟩
    exact ⟨d, h.dev_lt, f, mem_found.mpr ⟨h.fnc_lt, h.there, h.first⟩, rfl, rfl, rfl⟩

theorem enumerateFunction_eq (enter : Byte → Tree → Option Tree) :
    enumerateFunction cfg enter bus dev fnc s =
      Walk.visit (target cfg) (act cfg) enter s (bus, dev, fnc) := by
  unfold enumerateFunction Walk.visit target act
  match headerType cfg bus dev fnc with
  | 0 => simp
  | 1 => simp
  | k + 2 => simp

/-- Behind function 0 the loop passes over what is missing. -/
theorem enumerateDevice_rest (enter : Byte → Tree → Option Tree) {fncs : List Nat}
    (hpos : ∀ fnc ∈ fncs, fnc ≠ 0) :
    enumerateDevice cfg enter bus dev fncs s = (fncs.filter fun fnc => !missing cfg bus dev fnc).foldlM
      (fun s fnc => enumerateFunction cfg enter bus dev fnc s) s := by
  induction fncs generalizing s with
  | nil => rfl
  | cons fnc fncs ih =>
      have hne : fnc ≠ 0 := hpos fnc (List.mem_cons_self ..)
      have ih := fun s => @ih s fun f hf => hpos f (List.mem_cons_of_mem _ hf)
      rw [enumerateDevice]
      cases hmiss : missing cfg bus dev fnc with
      | true => simp [hne, hmiss, ih]
      | false =>
          rw [List.filter_cons_of_pos (by rw [hmiss]; rfl), List.foldlM_cons]
          simp [hne, ih]

/-- The loop over the functions of a device goes through those that are found. -/
theorem enumerateDevice_eq (enter : Byte → Tree → Option Tree) :
    enumerateDevice cfg enter bus dev (List.range 8) s =
      (found cfg bus dev).foldlM (fun s fnc => enumerateFunction cfg enter bus dev fnc s) s := by
  have hpos : ∀ fnc ∈ List.range' 1 7, fnc ≠ 0 := fun fnc h => by
    rw [List.mem_range'_1] at h
    omega
  rw [show List.range 8 = 0 :: List.range' 1 7 from rfl, enumerateDevice, found]
  cases hmiss : missing cfg bus dev 0 with
  | true => simp
  | false =>
      cases hmulti : multiFunction cfg bus dev 0 with
      | true => simp [enumerateDevice_rest enter hpos]
      | false => simp

theorem enumerateBus_eq_walk :
    enumerateBus cfg n bus s = Walk.walk (functions cfg) (target cfg) (act cfg) n bus s := by
  induction n generalizing bus s with
  | zero => rfl
  | succ n ih =>
      have henter : enumerateBus cfg n =
          Walk.walk (functions cfg) (target cfg) (act cfg) n := funext fun b => funext fun s => ih
      rw [enumerateBus, Walk.walk, functions, foldlM_flatMap]
      congr 1
      funext s dev
      rw [enumerateDevice_eq, henter, List.foldlM_map]
      congr 1
      funext s fnc
      exact enumerateFunction_eq _

/-- What the walk follows are the bridges. -/
theorem leads_iff {bus' : Byte} :
    Walk.Leads (functions cfg) (target cfg) bus bus' ↔ Bridge cfg bus bus' := by
  constructor
  · rintro ⟨⟨b, dev, fnc⟩, hmem, htarget⟩
    obtain ⟨rfl, hfound⟩ := mem_functions.mp hmem
    unfold target at htarget
    split at htarget
    · rename_i htype
      exact ⟨dev, fnc, hfound, htype, Option.some.inj htarget⟩
    · cases htarget
  · rintro ⟨dev, fnc, hfound, htype, rfl⟩
    exact ⟨(bus, dev, fnc), mem_functions.mpr ⟨rfl, hfound⟩, if_pos htype⟩

theorem leads_eq : Walk.Leads (functions cfg) (target cfg) = Bridge cfg :=
  funext fun _ => funext fun _ => propext leads_iff

/-! ### The end, and the tree -/

instance : Finite Byte := Finite.of_injective BitVec.toFin fun _ _ h => BitVec.toFin_inj.mp h

/-- The enumeration ends if and only if no bus that can be reached is behind itself. -/
theorem enumerateBus_ends_iff : (∃ fuel s', enumerateBus cfg fuel bus s = some s') ↔
    ∀ b, ReflTransGen (Bridge cfg) bus b → ¬ TransGen (Bridge cfg) b b := by
  simp only [enumerateBus_eq_walk]
  rw [Walk.walk_ends_iff, leads_eq]

/-- What an enumeration that has ended has added to the tree. -/
theorem enumerateBus_has (h : enumerateBus cfg n bus s = some s') (b : Byte) (d f : Nat) :
    s'.Has b d f ↔ s.Has b d f ∨ ReflTransGen (Bridge cfg) bus b ∧ Ordinary cfg b d f := by
  rw [enumerateBus_eq_walk] at h
  have hact : ∀ (i : Byte × Nat × Nat) (s : Tree), True → True ∧ ∀ x : Byte × Nat × Nat,
      (act cfg i s).Has x.1 x.2.1 x.2.2 ↔
        s.Has x.1 x.2.1 x.2.2 ∨ x = i ∧ headerType cfg i.1 i.2.1 i.2.2 = 0 := by
    refine fun i s _ => ⟨trivial, fun x => ?_⟩
    unfold act
    split
    · rename_i htype
      rw [Tree.has_addFunction]
      exact or_congr_right (by simp [htype])
    · rename_i htype
      simp [htype]
  obtain ⟨-, hhas⟩ := Walk.walk_rule (fun _ => True)
    (fun s (x : Byte × Nat × Nat) => s.Has x.1 x.2.1 x.2.2) hact h trivial
  rw [hhas (b, d, f)]
  refine or_congr_right ?_
  unfold Walk.Adds
  rw [leads_eq]
  constructor
  · rintro ⟨b', hreach, i, hi, -, rfl, htype⟩
    obtain ⟨rfl, hfound⟩ := mem_functions.mp hi
    exact ⟨hreach, hfound, htype⟩
  · rintro ⟨hreach, hfound, htype⟩
    have hnone : target cfg (b, d, f) = none := if_neg (by rw [htype]; decide)
    exact ⟨b, hreach, (b, d, f), mem_functions.mpr ⟨rfl, hfound⟩, hnone, rfl, htype⟩

/-- The tree that is expected: every ordinary function that is found on a bus that can be reached stands
once in it, and nothing else does. -/
structure Complete (cfg : Config) (s : Tree) : Prop where
  once : ∀ bus dev fnc, Reachable cfg bus → Ordinary cfg bus dev fnc →
    s.entries.count (bus, dev, fnc) = 1
  others : ∀ bus dev fnc, ¬ (Reachable cfg bus ∧ Ordinary cfg bus dev fnc) →
    (bus, dev, fnc) ∉ s.entries

theorem complete_of_ends (h : enumerateBus cfg n 0 .empty = some s') : Complete cfg s' := by
  have hhas : ∀ b d f, (b, d, f) ∈ s'.entries ↔ Reachable cfg b ∧ Ordinary cfg b d f := by
    intro b d f
    rw [Tree.mem_entries, enumerateBus_has h]
    refine or_iff_right ?_
    rintro ⟨_, hmem, -⟩
    exact List.not_mem_nil hmem
  exact ⟨fun b d f hb hf => List.count_eq_one_of_mem s'.nodup_entries ((hhas b d f).mpr ⟨hb, hf⟩),
    fun b d f hno hmem => hno ((hhas b d f).mp hmem)⟩

/-- **The enumeration of the buses**: it comes to an end with the tree that is expected if and only if no
bus that can be reached from bus 0 is behind itself. -/
theorem enumerate_bus_iff (cfg : Config) :
    (∃ fuel s, enumerateBus cfg fuel 0 .empty = some s ∧ Complete cfg s) ↔
      ∀ bus, Reachable cfg bus → ¬ TransGen (Bridge cfg) bus bus := by
  refine Iff.trans ?_ (enumerateBus_ends_iff (s := .empty))
  constructor
  · rintro ⟨fuel, s, h, -⟩
    exact ⟨fuel, s, h⟩
  · rintro ⟨fuel, s, h⟩
    exact ⟨fuel, s, h, complete_of_ends h⟩

/-- One bridge on bus 0 that has not been given a secondary bus. -/
def unconfiguredBridge : Config := fun bus dev fnc offset =>
  if bus = 0 ∧ dev = 0 ∧ fnc = 0 then (if offset = 0x0e then 1 else 0) else 0xff

/-- The bridge leads back to its own bus, so that no number of calls is enough. -/
theorem unconfiguredBridge_diverges :
    ¬ ∃ fuel s, enumerateBus unconfiguredBridge fuel 0 .empty = some s ∧
      Complete unconfiguredBridge s := by
  rintro ⟨fuel, s, h, -⟩
  have hfound : Found unconfiguredBridge 0 0 0 := ⟨by decide, by decide, by decide, .inl rfl⟩
  have hself : Bridge unconfiguredBridge 0 0 := ⟨0, 0, hfound, by decide, by decide⟩
  exact enumerateBus_ends_iff.mp ⟨fuel, s, h⟩ 0 .refl (.single hself)

end Muxomucota.Pci
