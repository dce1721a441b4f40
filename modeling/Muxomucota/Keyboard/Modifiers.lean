import Muxomucota.Keyboard.Driver
import Muxomucota.Lib.Runs

/-!
# Keyboard — the modifiers

`Board` is the keyboard itself: which keys are held, and the bytes it sends for what happens to them.
The driver turns `ctrl` around at every code of a Control key, repeated or not, and takes the Shift codes
that the keyboard itself makes up around the cursor keys for those of the Shift keys.
-/

namespace Muxomucota.Keyboard
open Lib

/-! ### The keyboard -/

/-- A key by its make code, behind 0xE0 or not. -/
structure Key where
  extended : Bool
  code : Code
  deriving DecidableEq

def leftControl : Key := ⟨false, 0x1D⟩
def rightControl : Key := ⟨true, 0x1D⟩
/-- The Shift keys: the left one and the right one. -/
def shiftCode (right : Bool) : Code := if right then 0x36 else 0x2A
def shift (right : Bool) : Key := ⟨false, shiftCode right⟩

/-- Behind 0xE0 the codes of the Shift keys belong to no key. -/
def Key.IsReal (k : Key) : Prop := k ≠ ⟨true, 0x2A⟩ ∧ k ≠ ⟨true, 0x36⟩

instance (k : Key) : Decidable k.IsReal := inferInstanceAs (Decidable (_ ∧ _))

inductive Event where
  | press (k : Key)
  /-- The make code of a key that is held, once more. -/
  | repeats (k : Key)
  | release (k : Key)
  /-- A code of a Shift key that the keyboard puts around the code of another key. -/
  | fakeShift (right breaks : Bool)
  /-- The key that sends all of its codes when it is pressed. -/
  | pause
  /-- An answer of the keyboard. -/
  | protocol (b : Byte)

/-- A code as a byte. -/
def Code.byte (c : Code) (breaks : Bool) : Byte := (BitVec.ofBool breaks) ++ c

def Key.bytes (k : Key) (breaks : Bool) : List Byte :=
  (if k.extended then [0xE0] else []) ++ [Code.byte k.code breaks]

/-- What the keyboard sends. -/
def Event.bytes : Event → List Byte
  | .press k | .repeats k => k.bytes false
  | .release k => k.bytes true
  | .fakeShift right breaks => [0xE0, Code.byte (shiftCode right) breaks]
  | .pause => [0xE1, 0x1D, 0x45, 0xE1, 0x9D, 0xC5]
  | .protocol b => [b]

/-- The keys that are held. -/
abbrev Board := Key → Bool

def Board.idle : Board := fun _ => false

/-- What can happen; keys are pressed, repeated while they are held, and released. -/
def Board.step (held : Board) : Event → Option Board
  | .press k => if held k = false ∧ k.IsReal then some (Function.update held k true) else none
  | .repeats k => if held k then some held else none
  | .release k => if held k then some (Function.update held k false) else none
  | .fakeShift _ _ | .pause => some held
  | .protocol b => if Driver.isProtocol b then some held else none

/-! ### The flags and the bytes -/

/-- The flags of the driver. -/
structure Flags where
  ctrl : Bool
  lshift : Bool
  rshift : Bool

def Driver.flags (d : Driver) : Flags := ⟨d.ctrl, d.lshift, d.rshift⟩

/-- What a code does to the flags. -/
def Flags.code (f : Flags) (c : Code) (breaks : Bool) : Flags :=
  if c = 0x1D then { f with ctrl := !f.ctrl }
  else if c = 0x2A then { f with lshift := !breaks }
  else if c = 0x36 then { f with rshift := !breaks }
  else f

def Flags.byte (f : Flags) (b : Byte) : Flags := f.code (b.setWidth 7) b.msb

theorem Flags.byte_of_ne {f : Flags} {b : Byte} (h : (b.setWidth 7 : Code) ≠ 0x1D ∧
    (b.setWidth 7 : Code) ≠ 0x2A ∧ (b.setWidth 7 : Code) ≠ 0x36) : f.byte b = f := by
  rw [Flags.byte, Flags.code, if_neg h.1, if_neg h.2.1, if_neg h.2.2]

theorem Flags.byte_code (f : Flags) (c : Code) (breaks : Bool) :
    f.byte (c.byte breaks) = f.code c breaks := by
  have hbyte : ∀ (c : Code) (breaks : Bool),
      (c.byte breaks).setWidth 7 = c ∧ (c.byte breaks).msb = breaks := by decide
  rw [Flags.byte, (hbyte c breaks).1, (hbyte c breaks).2]

namespace Driver

theorem character_flags (d : Driver) (content : Content) : (d.character content).flags = d.flags := by
  obtain ⟨fifo, h⟩ := d.character_fifo content
  rw [h]
  rfl

/-- A key of the keyboard that is no Control or Shift key leaves the flags. -/
theorem key_flags (d : Driver) (breaks : Bool) (content : Content) :
    (d.key breaks content).driver.flags =
      if content = keyLcontrol ∨ content = keyRcontrol then { d.flags with ctrl := !d.ctrl }
      else if content = keyLshift then { d.flags with lshift := !breaks }
      else if content = keyRshift then { d.flags with rshift := !breaks }
      else d.flags := by
  unfold key
  split
  · rename_i h
    subst h
    rfl
  · split
    · rename_i h
      subst h
      rfl
    · split
      · rename_i h
        subst h
        rfl
      · repeat' split
        all_goals rfl

/-- The entries that the flags depend on are the same in both tables. -/
theorem normalContent_cases : ∀ (up : Bool) (code : Code),
    (normalContent up code = keyLcontrol ∨ normalContent up code = keyRcontrol ↔ code = 0x1D) ∧
    (normalContent up code = keyLshift ↔ code = 0x2A) ∧
    (normalContent up code = keyRshift ↔ code = 0x36) ∧
    (kbdB code = false ∨ isCharacter (normalContent up code) = true →
      code ≠ 0x1D ∧ code ≠ 0x2A ∧ code ≠ 0x36) := by
  decide

/-- Bytes that are no scancodes have no code of a modifier. -/
theorem noScancode_code : ∀ b : Byte, b = 0xFE ∨ isProtocol b = true ∨ b = 0xE0 ∨ b = 0xE1 →
    (b.setWidth 7 : Code) ≠ 0x1D ∧ (b.setWidth 7 : Code) ≠ 0x2A ∧ (b.setWidth 7 : Code) ≠ 0x36 := by
  decide

/-- What the round does with the flags, the byte alone says. -/
theorem round_flags (d : Driver) (b : Byte) : (d.round b).driver.flags = d.flags.byte b := by
  unfold round
  have hno := noScancode_code b
  split
  · rename_i h
    exact (Flags.byte_of_ne (hno (.inl h))).symm
  · split
    · rename_i h
      exact (Flags.byte_of_ne (hno (.inr (.inl h)))).symm
    · split
      · rename_i h
        exact (Flags.byte_of_ne (hno (.inr (.inr h)))).symm
      · obtain ⟨hctrl, hl, hr, hpassed⟩ := normalContent_cases d.up (b.setWidth 7)
        simp only [translate]
        by_cases hb : (b.msb && !kbdB (b.setWidth 7)) = true
        · rw [if_pos hb]
          have hb : kbdB (b.setWidth 7) = false := by simpa using ((Bool.and_eq_true ..).mp hb).2
          exact (Flags.byte_of_ne (hpassed (.inl hb))).symm
        · rw [if_neg hb, act]
          split
          · rename_i hc
            exact (character_flags _ _).trans (Flags.byte_of_ne (hpassed (.inr hc))).symm
          · rw [key_flags, Flags.byte, Flags.code]
            simp only [hctrl, hl, hr]
            rfl

/-- The flags after any calls are what the bytes make of them. -/
theorem kept_flags (f : Flags) : Kept fun bs d => d.flags = bs.foldl Flags.byte f where
  round b h := by rw [round_flags, h, List.foldl_append]; rfl
  command cmd h := by cases cmd <;> exact h
  shiftUp h := h

end Driver

/-! ### What the flags show -/

def Event.repeatsControl : Event → Bool
  | .repeats k => k = leftControl || k = rightControl
  | _ => false

/-- How often a Control key has repeated its make code. -/
def controlRepeats (es : List Event) : Nat := es.countP Event.repeatsControl

/-- What a made-up code of a Shift key has said since the last one of the key. -/
def fakeAfter (right : Bool) (last : Option Bool) : Event → Option Bool
  | .fakeShift r breaks => if r = right then some (!breaks) else last
  | .press k | .repeats k | .release k => if k = shift right then none else last
  | .pause | .protocol _ => last

def lastFake (right : Bool) (es : List Event) : Option Bool := es.foldl (fakeAfter right) none

/-- What the flags show of the events `es`, after which `held` are held. -/
structure Shown (f : Flags) (es : List Event) (held : Board) : Prop where
  real : ∀ k, held k = true → k.IsReal
  ctrl : f.ctrl = (held leftControl ^^ held rightControl ^^ decide (controlRepeats es % 2 = 1))
  lshift : f.lshift = (lastFake false es).getD (held (shift false))
  rshift : f.rshift = (lastFake true es).getD (held (shift true))

variable {f : Flags} {es : List Event} {held held' : Board} {e : Event}

theorem key_bytes (f : Flags) (k : Key) (breaks : Bool) :
    (k.bytes breaks).foldl Flags.byte f = f.code k.code breaks := by
  have hprefix : f.byte 0xE0 = f := Flags.byte_of_ne (by decide)
  rw [Key.bytes, List.foldl_append]
  split
  · simp only [List.foldl_cons, List.foldl_nil, hprefix, Flags.byte_code]
  · simp only [List.foldl_cons, List.foldl_nil, Flags.byte_code]

theorem Flags.code_eq (f : Flags) (c : Code) (breaks : Bool) :
    f.code c breaks = ⟨f.ctrl ^^ decide (c = 0x1D), if c = shiftCode false then !breaks else f.lshift,
      if c = shiftCode true then !breaks else f.rshift⟩ := by
  by_cases hctrl : c = 0x1D
  · subst hctrl
    simp [code, shiftCode]
  · rw [code, if_neg hctrl, decide_eq_false hctrl, Bool.xor_false]
    by_cases hl : c = 0x2A
    · subst hl
      rfl
    · rw [if_neg hl]
      split
      · rename_i hr
        subst hr
        rfl
      · rename_i hr
        exact congrArg₂ (Flags.mk f.ctrl) (if_neg hl).symm (if_neg hr).symm

theorem Key.code_control (k : Key) : k.code = 0x1D ↔ k = leftControl ∨ k = rightControl := by
  obtain ⟨extended, code⟩ := k
  cases extended <;> simp [leftControl, rightControl]

/-- Only the Shift keys have their codes. -/
theorem Key.IsReal.code_shift {k : Key} (h : k.IsReal) (right : Bool) :
    k.code = shiftCode right ↔ k = shift right := by
  obtain ⟨extended, code⟩ := k
  obtain ⟨hl, hr⟩ := h
  cases extended <;> cases right <;> simp_all [shift, shiftCode]

theorem controlRepeats_snoc (es : List Event) (e : Event) :
    controlRepeats (es ++ [e]) = controlRepeats es + if e.repeatsControl then 1 else 0 := by
  rw [controlRepeats, List.countP_append, List.countP_singleton]
  rfl

theorem lastFake_snoc (right : Bool) (es : List Event) (e : Event) :
    lastFake right (es ++ [e]) = fakeAfter right (lastFake right es) e := by
  rw [lastFake, List.foldl_append]
  rfl

theorem odd_succ (n : Nat) : decide ((n + 1) % 2 = 1) = !decide (n % 2 = 1) := by
  rcases Nat.mod_two_eq_zero_or_one n with h | h <;> simp [Nat.add_mod, h]

/-- A code of a real key: `breaks` says which, and the key repeats if that is how it was. -/
theorem Shown.key {k : Key} {breaks : Bool} (h : Shown f es held) (hk : k.IsReal)
    (hrep : e.repeatsControl = ((k = leftControl || k = rightControl) && held k != breaks))
    (hfake : ∀ right last, fakeAfter right last e = if k = shift right then none else last) :
    Shown (f.code k.code breaks) (es ++ [e]) (Function.update held k !breaks) := by
  have hreal : ∀ k', Function.update held k (!breaks) k' = true → k'.IsReal := by
    intro k' hk'
    by_cases heq : k' = k
    · exact heq ▸ hk
    · rw [Function.update_of_ne heq] at hk'
      exact h.real k' hk'
  have hcontrol : ∀ b : Bool, decide ((controlRepeats es + if b then 1 else 0) % 2 = 1) =
      (b ^^ decide (controlRepeats es % 2 = 1)) := by
    intro b
    cases b with
    | false => simp
    | true => simp [odd_succ]
  have hne : leftControl ≠ rightControl := by decide
  refine ⟨hreal, ?_, ?_, ?_⟩
  · rw [controlRepeats_snoc, hcontrol, hrep, Flags.code_eq]
    simp only [k.code_control, h.ctrl]
    -- one Control key is turned around, or the key is none of them
    by_cases hl : k = leftControl
    · subst hl
      rw [Function.update_self, Function.update_of_ne hne.symm]
      cases held leftControl <;> cases held rightControl <;> cases breaks <;> simp
    · by_cases hr : k = rightControl
      · subst hr
        rw [Function.update_self, Function.update_of_ne hne]
        cases held leftControl <;> cases held rightControl <;> cases breaks <;> simp
      · rw [Function.update_of_ne (Ne.symm hl), Function.update_of_ne (Ne.symm hr)]
        simp [hl, hr]
  · rw [Flags.code_eq, lastFake_snoc, hfake]
    simp only [hk.code_shift, h.lshift]
    split
    · rename_i heq
      rw [← heq, Function.update_self, Option.getD_none]
    · rename_i heq
      rw [Function.update_of_ne (Ne.symm heq)]
  · rw [Flags.code_eq, lastFake_snoc, hfake]
    simp only [hk.code_shift, h.rshift]
    split
    · rename_i heq
      rw [← heq, Function.update_self, Option.getD_none]
    · rename_i heq
      rw [Function.update_of_ne (Ne.symm heq)]

/-- What happens to the keyboard and is sent, the flags show. -/
theorem Shown.step (h : Shown f es held) (hs : Board.step held e = some held') :
    Shown (e.bytes.foldl Flags.byte f) (es ++ [e]) held' := by
  cases e with
  | press k =>
      obtain ⟨⟨hfree, hreal⟩, heq⟩ := Option.ite_none_right_eq_some.mp hs
      cases heq
      rw [Event.bytes, key_bytes]
      exact h.key hreal (by simp [Event.repeatsControl, hfree]) fun _ _ => rfl
  | repeats k =>
      obtain ⟨hheld, heq⟩ := Option.ite_none_right_eq_some.mp hs
      cases heq
      have hsame : Function.update held k (!false) = held := by
        rw [Bool.not_false, ← hheld, Function.update_eq_self]
      rw [Event.bytes, key_bytes, ← hsame]
      exact h.key (h.real k hheld) (by simp [Event.repeatsControl, hheld]) fun _ _ => rfl
  | release k =>
      obtain ⟨hheld, heq⟩ := Option.ite_none_right_eq_some.mp hs
      cases heq
      rw [Event.bytes, key_bytes]
      exact h.key (h.real k hheld) (by simp [Event.repeatsControl, hheld]) fun _ _ => rfl
  | fakeShift right breaks =>
      cases hs
      have hbytes : ((Event.fakeShift right breaks).bytes).foldl Flags.byte f =
          f.code (shiftCode right) breaks := key_bytes f ⟨true, shiftCode right⟩ breaks
      have hne : shiftCode right ≠ 0x1D := by cases right <;> decide
      rw [hbytes, Flags.code_eq, decide_eq_false hne, Bool.xor_false]
      refine ⟨h.real, ?_, ?_, ?_⟩
      · rw [controlRepeats_snoc]
        exact h.ctrl
      · rw [lastFake_snoc]
        cases right with
        | false => rfl
        | true => exact h.lshift
      · rw [lastFake_snoc]
        cases right with
        | false => exact h.rshift
        | true => rfl
  | pause =>
      cases hs
      -- its two codes of a Control key undo each other
      have hbytes : Event.pause.bytes.foldl Flags.byte f = f := by
        obtain ⟨ctrl, lshift, rshift⟩ := f
        cases ctrl <;> cases lshift <;> cases rshift <;> rfl
      rw [hbytes]
      refine ⟨h.real, ?_, ?_, ?_⟩
      · rw [controlRepeats_snoc]
        exact h.ctrl
      · rw [lastFake_snoc]
        exact h.lshift
      · rw [lastFake_snoc]
        exact h.rshift
  | protocol b =>
      obtain ⟨hb, heq⟩ := Option.ite_none_right_eq_some.mp hs
      cases heq
      have hbytes : (Event.protocol b).bytes.foldl Flags.byte f = f :=
        Flags.byte_of_ne (Driver.noScancode_code b (.inr (.inl hb)))
      rw [hbytes]
      refine ⟨h.real, ?_, ?_, ?_⟩
      · rw [controlRepeats_snoc]
        exact h.ctrl
      · rw [lastFake_snoc]
        exact h.lshift
      · rw [lastFake_snoc]
        exact h.rshift

/-- The flags after everything that an idle keyboard has sent. -/
theorem shown_run (h : Run Board.step anyStep Board.idle es held) :
    Shown ((es.flatMap Event.bytes).foldl Flags.byte ⟨false, false, false⟩) es held := by
  refine Run.history (I := fun es held =>
    Shown ((es.flatMap Event.bytes).foldl Flags.byte ⟨false, false, false⟩) es held)
    (fun es held e held' hI _ hs => ?_) h ⟨fun _ h => absurd h Bool.false_ne_true, rfl, rfl, rfl⟩
  rw [List.flatMap_append, List.foldl_append, List.flatMap_singleton]
  exact hI.step hs

/-! ### When the flags are right -/

/-- The flags are what is held. -/
structure Tracks (d : Driver) (held : Board) : Prop where
  ctrl : d.ctrl = true ↔ held leftControl = true ∨ held rightControl = true
  lshift : d.lshift = true ↔ held (shift false) = true
  rshift : d.rshift = true ↔ held (shift true) = true

/-- The condition: the Control keys have repeated their make codes an even number of times, an odd one
while both are held; and the last code of a Shift key, if the keyboard made it up, says what is so. -/
structure Settled (es : List Event) (held : Board) : Prop where
  control : controlRepeats es % 2 = 1 ↔ held leftControl = true ∧ held rightControl = true
  fakes : ∀ right down, lastFake right es = some down → down = held (shift right)

theorem getD_eq_iff {α : Type*} {o : Option α} {a : α} : o.getD a = a ↔ ∀ b, o = some b → b = a := by
  cases o <;> simp

theorem tracks_iff {d : Driver} (h : Shown d.flags es held) : Tracks d held ↔ Settled es held := by
  have hctrl : d.ctrl = _ := h.ctrl
  have hl : d.lshift = _ := h.lshift
  have hr : d.rshift = _ := h.rshift
  have hc : (d.ctrl = true ↔ held leftControl = true ∨ held rightControl = true) ↔
      (controlRepeats es % 2 = 1 ↔ held leftControl = true ∧ held rightControl = true) := by
    rw [hctrl]
    rcases Nat.mod_two_eq_zero_or_one (controlRepeats es) with heven | hodd
    · rw [heven]
      cases held leftControl <;> cases held rightControl <;> decide
    · rw [hodd]
      cases held leftControl <;> cases held rightControl <;> decide
  constructor
  · intro ht
    refine ⟨hc.mp ht.ctrl, fun right => ?_⟩
    cases right with
    | false => exact getD_eq_iff.mp (hl.symm.trans (Bool.eq_iff_iff.mpr ht.lshift))
    | true => exact getD_eq_iff.mp (hr.symm.trans (Bool.eq_iff_iff.mpr ht.rshift))
  · intro hs
    exact ⟨hc.mpr hs.control, Bool.eq_iff_iff.mp (hl.trans (getD_eq_iff.mpr (hs.fakes false))),
      Bool.eq_iff_iff.mp (hr.trans (getD_eq_iff.mpr (hs.fakes true)))⟩

/-- **The modifiers are tracked** exactly where the condition holds: any calls end, and when the bytes
they have read are what a keyboard has sent for the events `es`, the flags are what is held if and only
if the events are settled. -/
theorem modifiers_tracked_iff (cs : List Driver.Call) (polls : List (Option Byte)) :
    ∃ d rest taken, Driver.boot.calls cs polls = some (d, rest) ∧ polls = taken ++ rest ∧
      ∀ es held, Run Board.step anyStep Board.idle es held →
        taken.reduceOption = es.flatMap Event.bytes → (Tracks d held ↔ Settled es held) := by
  obtain ⟨d, rest, hrun⟩ := Driver.calls_total cs polls Driver.boot
  have hboot : Driver.boot.flags = ([] : List Byte).foldl Flags.byte ⟨false, false, false⟩ := rfl
  obtain ⟨taken, hpolls, hflags⟩ := (Driver.kept_flags ⟨false, false, false⟩).calls hrun hboot
  refine ⟨d, rest, taken, hrun, hpolls, fun es held hes hbytes => tracks_iff ?_⟩
  rw [hflags, List.nil_append, hbytes]
  exact shown_run hes

/-- The left Control key is pressed, and repeats its make code twice. -/
theorem modifiers_tracked_control : ∃ d,
    Driver.boot.calls [.irq] [some 0x1D, some 0x1D, some 0x1D] = some (d, []) ∧
      Tracks d (Function.update Board.idle leftControl true) := by
  obtain ⟨d, rest, taken, hrun, hpolls, htracks⟩ :=
    modifiers_tracked_iff [.irq] [some 0x1D, some 0x1D, some 0x1D]
  have hrest : rest = [] := congrArg (fun r => (r.map Prod.snd).getD []) hrun.symm
  subst hrest
  rw [List.append_nil] at hpolls
  subst hpolls
  have hes : Run Board.step anyStep Board.idle
      [.press leftControl, .repeats leftControl, .repeats leftControl] _ :=
    .more trivial rfl (.more trivial rfl (.one trivial rfl))
  refine ⟨d, hrun, (htracks _ _ hes rfl).mpr ⟨?_, ?_⟩⟩
  · decide
  · intro right down h
    cases right <;> cases h

/-- The left Control key repeats its make code once, and `ctrl` is off. -/
theorem repeated_control_untracked : ¬ ∀ cs polls d es held,
    Driver.boot.calls cs polls = some (d, []) → Run Board.step anyStep Board.idle es held →
      polls.reduceOption = es.flatMap Event.bytes → Tracks d held := by
  intro hall
  have hes : Run Board.step anyStep Board.idle [.press leftControl, .repeats leftControl] _ :=
    .more trivial rfl (.one trivial rfl)
  have := (hall [.irq] [some 0x1D, some 0x1D] _ _ _ rfl hes rfl).ctrl
  revert this
  decide

end Muxomucota.Keyboard
