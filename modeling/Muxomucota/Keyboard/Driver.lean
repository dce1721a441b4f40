import Mathlib.Data.List.Basic
import Mathlib.Data.List.ReduceOption
import Mathlib.Tactic.Common

/-!
# Keyboard — `flush_input_queue`

`ps2-keyboard.c`: the FIFO, the tables and the loop that empties the controller.  What the loop finds at
port 0x64, time after time, is a list of polls: a byte that port 0x60 then gives, or none.  The function
calls itself through the commands it sends, so a poll that finds nothing ends the innermost call.

`log` keeps what has been made of every byte, and `sent` every command; the driver reads neither.
-/

namespace Muxomucota.Keyboard

abbrev Byte := BitVec 8
/-- `table_content`: a character, or a key above 0xE000. -/
abbrev Content := BitVec 32
/-- A scancode without the bit that tells the break code from the make code. -/
abbrev Code := BitVec 7

/-! ### Keys (`keycodes.h`) and tables -/

def keyBackspace : Content := 0x08
def keyEnter : Content := 0x0A
def keyEscape : Content := 0x1B
def keyTab : Content := 0x09
def keyControl : Content := 0xE000
def keyLcontrol : Content := 0xE000
def keyRcontrol : Content := 0xE001
def keyMenu : Content := 0xE002
def keyLmenu : Content := 0xE002
def keyAltGr : Content := 0xE003
def keyLmeta : Content := 0xE004
def keyRmeta : Content := 0xE005
def keyLshift : Content := 0xE006
def keyRshift : Content := 0xE007
def keyCapslock : Content := 0xE008
def keyNumlock : Content := 0xE009
def keyDelete : Content := 0xE00B
def keyInsert : Content := 0xE00C
def keyHome : Content := 0xE00D
def keyEnd : Content := 0xE00E
def keyUp : Content := 0xE010
def keyDown : Content := 0xE011
def keyLeft : Content := 0xE012
def keyRight : Content := 0xE013
def keyPgup : Content := 0xE014
def keyPgdown : Content := 0xE015
/-- `KEY_F1` to `KEY_F10`. -/
def keyF (n : Nat) : Content := 0xE02F + .ofNat 32 n

def ch (c : Char) : Content := .ofNat 32 c.toNat

/-- `kbd_n`; behind these there are zeros. -/
def kbdN : List Content :=
  [0, keyEscape, ch '1', ch '2', ch '3', ch '4', ch '5', ch '6', ch '7', ch '8', ch '9', ch '0', ch '-',
    ch '=', keyBackspace, keyTab,
   ch 'q', ch 'w', ch 'e', ch 'r', ch 't', ch 'y', ch 'u', ch 'i', ch 'o', ch 'p', ch '[', ch ']',
    keyEnter, keyControl, ch 'a', ch 's',
   ch 'd', ch 'f', ch 'g', ch 'h', ch 'j', ch 'k', ch 'l', ch ';', 0x27, 0x60, keyLshift, 0x5C, ch 'z',
    ch 'x', ch 'c', ch 'v',
   ch 'b', ch 'n', ch 'm', ch ',', ch '.', ch '/', keyRshift, ch '*', keyLmenu, ch ' ', keyCapslock,
    keyF 1, keyF 2, keyF 3, keyF 4, keyF 5,
   keyF 6, keyF 7, keyF 8, keyF 9, keyF 10, keyNumlock, ch '*', ch '7', ch '8', ch '9', ch '-', ch '4',
    ch '5', ch '6', ch '+', ch '1',
   ch '2', ch '3', ch '0', keyDelete, 0, 0, ch '<']

/-- `kbd_s`. -/
def kbdS : List Content :=
  [0, keyEscape, ch '!', ch '@', ch '#', ch '$', ch '%', ch '^', ch '&', ch '*', ch '(', ch ')', ch '_',
    ch '+', keyBackspace, keyTab,
   ch 'Q', ch 'W', ch 'E', ch 'R', ch 'T', ch 'Y', ch 'U', ch 'I', ch 'O', ch 'P', 0x7B, 0x7D,
    keyEnter, keyControl, ch 'A', ch 'S',
   ch 'D', ch 'F', ch 'G', ch 'H', ch 'J', ch 'K', ch 'L', ch ':', 0x22, ch '~', keyLshift, ch '|',
    ch 'Z', ch 'X', ch 'C', ch 'V',
   ch 'B', ch 'N', ch 'M', ch '<', ch '>', ch '?', keyRshift, ch '*', keyLmenu, ch ' ', keyCapslock,
    keyF 1, keyF 2, keyF 3, keyF 4, keyF 5,
   keyF 6, keyF 7, keyF 8, keyF 9, keyF 10, keyNumlock, ch '*', ch '7', ch '8', ch '9', ch '-', ch '4',
    ch '5', ch '6', ch '+', ch '1',
   ch '2', ch '3', ch '0', keyDelete, 0, 0, ch '>']

/-- `kbd_b`: break codes that are not passed over. -/
def kbdB (scancode : Code) : Bool :=
  scancode = 0x1D || scancode = 0x2A || scancode = 0x36 || scancode = 0x38

/-- The entry of the normal table. -/
def normalContent (up : Bool) (scancode : Code) : Content :=
  (if up then kbdS else kbdN).getD scancode.toNat 0

/-- The inner `switch` for scancodes behind 0xE0. -/
def extendedContent (scancode : Code) : Content :=
  match scancode.toNat with
  | 0x1C => keyEnter
  | 0x1D => keyRcontrol
  | 0x2A => keyLshift
  | 0x35 => ch '/'
  | 0x36 => keyRshift
  | 0x38 => keyAltGr
  | 0x47 => keyHome
  | 0x48 => keyUp
  | 0x49 => keyPgup
  | 0x4B => keyLeft
  | 0x4D => keyRight
  | 0x4F => keyEnd
  | 0x50 => keyDown
  | 0x51 => keyPgdown
  | 0x52 => keyInsert
  | 0x53 => keyDelete
  | _ => 0

/-! ### One scancode -/

/-- What is made of a byte. -/
inductive Translation where
  /-- A byte that is no scancode, or a break code that is passed over. -/
  | ignored
  /-- A byte of a sequence behind 0xE1. -/
  | swallowed
  | normal (content : Content)
  | extended (content : Content)
  deriving DecidableEq

/-- The `switch` over `ext` for a scancode: what `ext` is afterwards, and the translation. -/
def translate (ext : Nat) (up : Bool) (scancode : Byte) : Nat × Translation :=
  let breaks := scancode.msb
  let code : Code := scancode.setWidth 7
  match ext with
  | 1 => (0, if breaks && !kbdB code then .ignored else .extended (extendedContent code))
  | 2 => (3, .swallowed)
  | 3 => (0, .swallowed)
  | ext => (ext, if breaks && !kbdB code then .ignored else .normal (normalContent up code))

/-! ### The driver -/

/-- A command to the keyboard or to its controller; `none` is a `data` of -1. -/
inductive Command where
  | kbd (command : Byte) (data : Option Byte)
  | kbc (command : Byte) (data : Option Byte)
  deriving DecidableEq

structure Driver where
  /-- What `fifo_buffer` holds between the two indices. -/
  fifo : List Byte
  lc : Byte
  lcd : Option Byte
  lshift : Bool
  rshift : Bool
  caps : Bool
  up : Bool
  ctrl : Bool
  menu : Bool
  «meta» : Bool
  sent : List Command
  log : List (Byte × Translation)
  deriving DecidableEq

/-- The static variables at the start. -/
def Driver.boot : Driver :=
  { fifo := [], lc := 0, lcd := some 0, lshift := false, rshift := false, caps := false, up := false,
    ctrl := false, menu := false, «meta» := false, sent := [], log := [] }

/-- What the loop does with a byte: it goes on, or sends a command first, which empties the controller,
and then may compute `up`. -/
inductive Action where
  | go (d : Driver)
  | send (cmd : Command) (d : Driver) (shifts : Bool)

/-- The driver when the byte has been dealt with and nothing has been sent yet. -/
def Action.driver : Action → Driver
  | .go d => d
  | .send _ d _ => d

namespace Driver

/-- An entry of the ring is given up when it is full. -/
def fifoWrite (d : Driver) (c : Byte) : Driver :=
  let fifo := d.fifo ++ [c]
  { d with fifo := if fifo.length = 1024 then fifo.tail else fifo }

/-- `set_leds` sends this. -/
def setLeds (cled nled sled : Bool) : Command :=
  .kbd 0xED (some (cled.toNat * 4 + nled.toNat * 2 + sled.toNat))

/-- The command as it goes out; the last one to the keyboard is kept. -/
def command (d : Driver) : Command → Driver
  | .kbd c data => { d with sent := .kbd c data :: d.sent, lc := c, lcd := data }
  | .kbc c data => { d with sent := .kbc c data :: d.sent }

/-- `up = (lshift | rshift) ^ caps` -/
def shiftUp (d : Driver) : Driver := { d with up := (d.lshift || d.rshift) ^^ d.caps }

/-- How many bytes of the content are written. -/
def utf8Length (content : Content) : Nat :=
  if content &&& 0x80 = 0 then 1
  else if content &&& 0xe0 = 0xc0 then 2
  else if content &&& 0xf0 = 0xe0 then 3
  else if content &&& 0xf8 = 0xf0 then 4
  else 0

/-- The content is not a key, and not zero. -/
def isCharacter (content : Content) : Bool := content &&& 0xF000 != 0xE000 && content != 0

def character (d : Driver) (content : Content) : Driver :=
  if d.ctrl && content = ch 'd' then d.fifoWrite 255
  else (List.range (utf8Length content)).foldl
    (fun d i => d.fifoWrite ((content >>> (i * 8)).setWidth 8)) d

/-- A character changes the FIFO alone. -/
theorem character_fifo (d : Driver) (content : Content) :
    ∃ fifo, d.character content = { d with fifo := fifo } := by
  unfold character
  split
  · exact ⟨_, rfl⟩
  · suffices ∀ (is : List Nat) (d : Driver), ∃ fifo, is.foldl
        (fun d i => d.fifoWrite ((content >>> (i * 8)).setWidth 8)) d = { d with fifo := fifo } from
      this _ d
    intro is
    induction is with
    | nil => intro d; exact ⟨_, rfl⟩
    | cons i is ih => intro d; exact ih _

/-- The `switch` over the keys. -/
def key (d : Driver) (breaks : Bool) (content : Content) : Action :=
  if content = keyLshift then .go { d with lshift := !breaks }.shiftUp
  else if content = keyRshift then .go { d with rshift := !breaks }.shiftUp
  else if content = keyCapslock then
    .send (setLeds (!d.caps) false false) { d with caps := !d.caps } true
  else if content = keyLcontrol ∨ content = keyRcontrol then .go { d with ctrl := !d.ctrl }.shiftUp
  else if content = keyLmeta ∨ content = keyRmeta then .go { d with «meta» := !d.«meta» }.shiftUp
  else if content = keyMenu then .go { d with menu := !d.menu }.shiftUp
  else if content = keyDelete ∧ d.ctrl ∧ d.menu then .send (.kbc 0xFE none) d true
  else .go d.shiftUp

/-- What is done with a translated byte. -/
def act (d : Driver) (breaks : Bool) : Translation → Action
  | .normal content | .extended content =>
      if isCharacter content then .go (d.character content) else d.key breaks content
  | .ignored | .swallowed => .go d

/-- Protocol bytes, which are passed over. -/
def isProtocol (b : Byte) : Bool := b = 0x55 || b = 0xEE || b = 0xFA || b = 0xFD || b = 0xFE

/-- One round of the loop: `ext` is a variable of the round, so that a prefix sets it for nothing. -/
def round (d : Driver) (scancode : Byte) : Action :=
  let note (t : Translation) : Driver := { d with log := d.log ++ [(scancode, t)] }
  if scancode = 0xFE then .send (.kbd d.lc d.lcd) (note .ignored) false
  else if isProtocol scancode then .go (note .ignored)
  else if scancode = 0xE0 ∨ scancode = 0xE1 then .go (note .ignored)
  else
    let ext := 0
    let t := (translate ext d.up scancode).2
    (note t).act scancode.msb t

/-- `flush_input_queue`, with at most `n` rounds inside each other: the driver and the polls to come. -/
def flushInputQueue : (n : Nat) → List (Option Byte) → Driver → Option (Driver × List (Option Byte))
  | 0, _, _ => none
  | _ + 1, [], d => some (d, [])
  | _ + 1, none :: polls, d => some (d, polls)
  | n + 1, some scancode :: polls, d =>
      match d.round scancode with
      | .go d => flushInputQueue n polls d
      | .send cmd d shifts => do
          let (d, polls) ← flushInputQueue n polls (d.command cmd)
          flushInputQueue n polls (if shifts then d.shiftUp else d)

/-- What calls the loop: an interrupt, or `main` with a command. -/
inductive Call where
  | irq
  | command (cmd : Command)

/-- One call. -/
def call (c : Call) (polls : List (Option Byte)) (d : Driver) :
    Option (Driver × List (Option Byte)) :=
  let d := match c with
    | .irq => d
    | .command cmd => d.command cmd
  d.flushInputQueue (polls.length + 1) polls

/-- Calls one after the other. -/
def calls : List Call → List (Option Byte) → Driver → Option (Driver × List (Option Byte))
  | [], polls, d => some (d, polls)
  | c :: cs, polls, d => do
      let (d, polls) ← d.call c polls
      d.calls cs polls

/-! ### What holds of every call -/

variable {P : List Byte → Driver → Prop}

/-- The loop rule: `P` speaks of the bytes that have been read. -/
structure Kept (P : List Byte → Driver → Prop) : Prop where
  round : ∀ {bs d} (b : Byte), P bs d → P (bs ++ [b]) (d.round b).driver
  command : ∀ {bs d} (cmd : Command), P bs d → P bs (d.command cmd)
  shiftUp : ∀ {bs d}, P bs d → P bs d.shiftUp

/-- A call reads the first of the polls, inside a command or not. -/
theorem Kept.flush (hP : Kept P) : ∀ {n : Nat} {polls rest : List (Option Byte)} {d d' : Driver}
    {bs : List Byte}, d.flushInputQueue n polls = some (d', rest) → P bs d →
      ∃ taken, polls = taken ++ rest ∧ P (bs ++ taken.reduceOption) d' := by
  intro n
  induction n with
  | zero => intro polls rest d d' bs h _; cases h
  | succ n ih =>
      intro polls rest d d' bs h hd
      match polls with
      | [] =>
          cases h
          exact ⟨[], rfl, by simpa using hd⟩
      | none :: polls =>
          cases h
          exact ⟨[none], rfl, by simpa using hd⟩
      | some b :: polls =>
          have hround := hP.round b hd
          rw [flushInputQueue] at h
          cases hr : d.round b with
          | go d₁ =>
              rw [hr] at h hround
              obtain ⟨taken, rfl, hd'⟩ := ih h hround
              exact ⟨some b :: taken, rfl, by simpa using hd'⟩
          | send cmd d₁ shifts =>
              rw [hr] at h hround
              obtain ⟨⟨d₂, polls₂⟩, h₁, h₂⟩ := Option.bind_eq_some_iff.mp h
              obtain ⟨taken₁, rfl, hd₂⟩ := ih h₁ (hP.command cmd hround)
              have hup : P (bs ++ [b] ++ taken₁.reduceOption) (if shifts then d₂.shiftUp else d₂) := by
                split
                · exact hP.shiftUp hd₂
                · exact hd₂
              obtain ⟨taken₂, rfl, hd'⟩ := ih h₂ hup
              refine ⟨some b :: (taken₁ ++ taken₂), by simp, ?_⟩
              simpa [List.reduceOption_append] using hd'

theorem Kept.calls (hP : Kept P) : ∀ {cs : List Call} {polls rest : List (Option Byte)}
    {d d' : Driver} {bs : List Byte}, d.calls cs polls = some (d', rest) → P bs d →
      ∃ taken, polls = taken ++ rest ∧ P (bs ++ taken.reduceOption) d' := by
  intro cs
  induction cs with
  | nil =>
      intro polls rest d d' bs h hd
      cases h
      exact ⟨[], rfl, by simpa using hd⟩
  | cons c cs ih =>
      intro polls rest d d' bs h hd
      obtain ⟨⟨d₁, polls₁⟩, h₁, h₂⟩ := Option.bind_eq_some_iff.mp h
      have hcall : ∃ taken, polls = taken ++ polls₁ ∧ P (bs ++ taken.reduceOption) d₁ := by
        cases c with
        | irq => exact hP.flush h₁ hd
        | command cmd => exact hP.flush h₁ (hP.command cmd hd)
      obtain ⟨taken₁, rfl, hd₁⟩ := hcall
      obtain ⟨taken₂, rfl, hd'⟩ := ih h₂ hd₁
      refine ⟨taken₁ ++ taken₂, (List.append_assoc ..).symm, ?_⟩
      simpa [List.reduceOption_append] using hd'

/-- Every round takes a poll, so that a call ends. -/
theorem flush_total : ∀ {n : Nat} {polls : List (Option Byte)} (d : Driver), polls.length < n →
    ∃ d' rest, d.flushInputQueue n polls = some (d', rest) ∧ rest.length ≤ polls.length := by
  intro n
  induction n with
  | zero => intro polls d h; omega
  | succ n ih =>
      intro polls d h
      match polls with
      | [] => exact ⟨d, [], rfl, Nat.le_refl _⟩
      | none :: polls => exact ⟨d, polls, rfl, Nat.le_succ _⟩
      | some b :: polls =>
          have hn : polls.length < n := Nat.lt_of_succ_lt_succ h
          rw [flushInputQueue]
          cases d.round b with
          | go d₁ =>
              obtain ⟨d', rest, hrun, hle⟩ := ih d₁ hn
              exact ⟨d', rest, hrun, Nat.le_succ_of_le hle⟩
          | send cmd d₁ shifts =>
              obtain ⟨d₂, polls₂, hrun₁, hle₁⟩ := ih (d₁.command cmd) hn
              obtain ⟨d', rest, hrun₂, hle₂⟩ :=
                ih (if shifts then d₂.shiftUp else d₂) (Nat.lt_of_le_of_lt hle₁ hn)
              refine ⟨d', rest, ?_, Nat.le_succ_of_le (Nat.le_trans hle₂ hle₁)⟩
              exact Option.bind_eq_some_iff.mpr ⟨(d₂, polls₂), hrun₁, hrun₂⟩

theorem calls_total (cs : List Call) :
    ∀ (polls : List (Option Byte)) (d : Driver), ∃ d' rest, d.calls cs polls = some (d', rest) := by
  induction cs with
  | nil => intro polls d; exact ⟨d, polls, rfl⟩
  | cons c cs ih =>
      intro polls d
      have hcall : ∃ d₁ polls₁, d.call c polls = some (d₁, polls₁) := by
        cases c with
        | irq =>
            obtain ⟨d₁, polls₁, h, -⟩ := flush_total d (Nat.lt_succ_self polls.length)
            exact ⟨d₁, polls₁, h⟩
        | command cmd =>
            obtain ⟨d₁, polls₁, h, -⟩ := flush_total (d.command cmd) (Nat.lt_succ_self polls.length)
            exact ⟨d₁, polls₁, h⟩
      obtain ⟨d₁, polls₁, h₁⟩ := hcall
      obtain ⟨d', rest, h₂⟩ := ih polls₁ d₁
      exact ⟨d', rest, Option.bind_eq_some_iff.mpr ⟨(d₁, polls₁), h₁, h₂⟩⟩

end Driver

end Muxomucota.Keyboard
