import Mathlib.Data.BitVec
import Muxomucota.Lib.Keyed

/-!
# Pci — the tree of functions

`pci.c`: reading the configuration space, and the three levels of lists that `add_function` fills.  A list
begins with what was added last, and no number stands in it twice, which is part of the types here.

What has been written to the configuration space is kept beside the tree.  It is the command word of a
function alone, and this word is read only for that, once: the reads see the space as it was.
-/

namespace Muxomucota.Pci
open Lib

abbrev Byte := BitVec 8

/-- The configuration space: bus, device, function, offset. -/
abbrev Config := Byte → Nat → Nat → Nat → Byte

namespace Config

/-- `pci_in8` -/
def in8 (cfg : Config) (bus : Byte) (device function offset : Nat) : Byte :=
  cfg bus (device % 32) (function % 8) offset

/-- `pci_in16`, at an even offset. -/
def in16 (cfg : Config) (bus : Byte) (device function offset : Nat) : BitVec 16 :=
  cfg bus (device % 32) (function % 8) (offset + 1) ++ cfg bus (device % 32) (function % 8) offset

end Config

/-! ### The tree -/

/-- `struct device`; a `struct function` is its number. -/
structure Device where
  device : Nat
  functions : Keyed (id : Nat → Nat)

/-- `struct bus` -/
structure Bus where
  bus : Byte
  devices : Keyed Device.device

/-- A `pci_out16` to the command word. -/
structure Write where
  bus : Byte
  device : Nat
  function : Nat
  value : BitVec 16
  deriving DecidableEq

/-- `first_bus`, and what has been written. -/
structure Tree where
  firstBus : Keyed Bus.bus
  written : List Write

def Tree.empty : Tree := ⟨.empty _, []⟩

def Device.Has (d : Device) (function : Nat) : Prop := function ∈ d.functions.items

instance (d : Device) (function : Nat) : Decidable (d.Has function) :=
  inferInstanceAs (Decidable (_ ∈ _))

def Bus.Has (b : Bus) (x : Nat × Nat) : Prop := ∃ d ∈ b.devices.items, d.device = x.1 ∧ d.Has x.2

instance (b : Bus) (x : Nat × Nat) : Decidable (b.Has x) := inferInstanceAs (Decidable (∃ d ∈ _, _))

/-- The function is in the tree. -/
def Tree.Has (s : Tree) (bus : Byte) (device function : Nat) : Prop :=
  ∃ b ∈ s.firstBus.items, b.bus = bus ∧ b.Has (device, function)

instance (s : Tree) (bus : Byte) (device function : Nat) : Decidable (s.Has bus device function) :=
  inferInstanceAs (Decidable (∃ b ∈ _, _))

/-- The device with a function more, if it is new. -/
def Device.addFunction (function : Nat) (d : Device) : Device :=
  { d with functions := d.functions.upsert function id fun _ => rfl }

theorem Device.addFunction_device (function : Nat) (d : Device) :
    (d.addFunction function).device = d.device := rfl

/-- The bus with a device more, if it is new, and the function in it. -/
def Bus.addFunction (device function : Nat) (b : Bus) : Bus :=
  { b with
    devices := b.devices.upsert ⟨device, .empty _⟩ (Device.addFunction function)
      (Device.addFunction_device function) }

theorem Bus.addFunction_bus (device function : Nat) (b : Bus) :
    (b.addFunction device function).bus = b.bus := rfl

/-- `add_function`; a new function is made a bus master. -/
def Tree.addFunction (cfg : Config) (s : Tree) (bus : Byte) (device function : Nat) : Tree where
  firstBus := s.firstBus.upsert ⟨bus, .empty _⟩ (Bus.addFunction device function)
    (Bus.addFunction_bus device function)
  written :=
    if s.Has bus device function then s.written
    else s.written ++ [⟨bus, device, function, cfg.in16 bus device function 0x04 ||| (1 : BitVec 16) <<< 2⟩]

/-! ### What is in the tree -/

theorem Device.has_addFunction (d : Device) (function f : Nat) :
    (d.addFunction function).Has f ↔ d.Has f ∨ f = function := by
  unfold Device.Has Device.addFunction
  rw [Keyed.mem_upsert]
  constructor
  · rintro (⟨hf, -⟩ | ⟨b, ⟨hb, hk⟩ | ⟨rfl, -⟩, rfl⟩)
    · exact .inl hf
    · exact .inl hb
    · exact .inr rfl
  · intro h
    by_cases hf : f = function
    · subst hf
      by_cases hmem : f ∈ d.functions.items
      · exact .inr ⟨f, .inl ⟨hmem, rfl⟩, rfl⟩
      · exact .inr ⟨f, .inr ⟨rfl, fun c hc (hk : c = f) => hmem (hk ▸ hc)⟩, rfl⟩
    · exact .inl ⟨h.resolve_right hf, hf⟩

theorem Bus.has_addFunction (b : Bus) (device function : Nat) (x : Nat × Nat) :
    (b.addFunction device function).Has x ↔ b.Has x ∨ x = (device, function) := by
  have hnew : ∀ f, ¬ (Device.mk device (.empty _)).Has f := fun f => List.not_mem_nil
  rw [Prod.ext_iff]
  exact Keyed.exists_upsert (Device.addFunction_device function) hnew fun d f =>
    Device.has_addFunction d function f

theorem Tree.has_addFunction (cfg : Config) (s : Tree) (bus b : Byte) (device function d f : Nat) :
    (s.addFunction cfg bus device function).Has b d f ↔
      s.Has b d f ∨ (b, d, f) = (bus, device, function) := by
  have hnew : ∀ x, ¬ (Bus.mk bus (.empty _)).Has x := by
    rintro x ⟨d, hd, -⟩
    exact List.not_mem_nil hd
  rw [Prod.mk.injEq]
  exact Keyed.exists_upsert (Bus.addFunction_bus device function) hnew fun b x =>
    Bus.has_addFunction b device function x

/-! ### The tree as a list -/

def Bus.entries (b : Bus) : List (Nat × Nat) :=
  b.devices.items.flatMap fun d => d.functions.items.map fun f => (d.device, f)

/-- Bus, device and function of everything in the tree. -/
def Tree.entries (s : Tree) : List (Byte × Nat × Nat) :=
  s.firstBus.items.flatMap fun b => b.entries.map fun x => (b.bus, x)

theorem Bus.nodup_entries (b : Bus) : b.entries.Nodup :=
  b.devices.nodup_flatMap fun d _ => by simpa using d.functions.nodup

/-- Nothing is in the tree twice. -/
theorem Tree.nodup_entries (s : Tree) : s.entries.Nodup :=
  s.firstBus.nodup_flatMap fun b _ => b.nodup_entries

theorem Tree.mem_entries (s : Tree) (bus : Byte) (device function : Nat) :
    (bus, device, function) ∈ s.entries ↔ s.Has bus device function := by
  unfold Tree.entries Bus.entries Tree.Has Bus.Has Device.Has
  simp only [List.mem_flatMap, List.mem_map, Prod.mk.injEq]
  constructor
  · rintro ⟨b, hb, x, ⟨d, hd, f, hf, rfl⟩, hbus, hx⟩
    obtain ⟨rfl, rfl⟩ := Prod.mk.inj hx
    exact ⟨b, hb, hbus, d, hd, rfl, hf⟩
  · rintro ⟨b, hb, hbus, d, hd, rfl, hf⟩
    exact ⟨b, hb, (d.device, function), ⟨d, hd, function, hf, rfl⟩, hbus, rfl⟩

end Muxomucota.Pci
