import Mathlib.Algebra.Group.Int.Defs
import Muxomucota.Console.Numbers
import Muxomucota.Console.Screen

/-!
# Console — `cons_print`

`struct term_pipe` and `cons_print` of `bios-console.c`.  One pass of the `while` loop is `body`: it goes
round again, leaves the loop, or returns from the middle of the function, without letting `output_lock`
go.

The memory in which the bytes stand does not end with the buffer, as `cons_print` reads on behind it.
-/

namespace Muxomucota.Console

structure TermPipe where
  /-- `saved[0]` to `saved[saved_len - 1]`: a character that has begun. -/
  saved : List Byte
  expectedLen : Nat
  sx : Int
  sy : Int
  fg : BitVec 32
  bg : BitVec 32
  reversed : Bool

/-- `service_create_pipe`: a cleared structure with the default colours. -/
def TermPipe.new : TermPipe :=
  { saved := [], expectedLen := 0, sx := 0, sy := 0, fg := defFg, bg := defBg, reversed := false }

/-- What the characters and escape sequences work on: the pipe, the screen and the local `output`. -/
structure Terminal where
  tp : TermPipe
  screen : Screen
  output : Int

/-- The variables of the loop. -/
structure Printing extends Terminal where
  s : Ptr
  size : Nat

inductive Outcome where
  | again (p : Printing)
  /-- The loop is left. -/
  | stop (p : Printing)
  /-- `return omsz`: the lock is kept. -/
  | early (p : Printing)

/-! ### Characters -/

namespace Terminal

def moveTo (t : Terminal) (x y : Int) : Terminal :=
  { t with screen := { t.screen with x := x, y := y }, output := recalcPos x y }

/-- `if (++y >= 25) { scroll_down(); y--; }` -/
def lineDown (sc : Screen) : Screen :=
  let sc := { sc with y := sc.y + 1 }
  if 25 ≤ sc.y then { sc.scrollDown with y := sc.y - 1 } else sc

/-- The cell for a character in the colours of the pipe. -/
def cell (tp : TermPipe) (uni : Nat) : BitVec 16 :=
  ((getC437FromUnicode uni).setWidth 32 ||| tp.fg <<< (if tp.reversed then 12 else 8) |||
    tp.bg <<< (if tp.reversed then 8 else 12)).setWidth 16

/-- `if (++x >= 80)` and what it guards. -/
def goRight (t : Terminal) : Terminal :=
  let sc := { t.screen with x := t.screen.x + 1 }
  if 80 ≤ sc.x then
    let sc := { sc with x := sc.x - 80 }
    { t with screen := lineDown sc, output := if 25 ≤ sc.y + 1 then t.output - 80 else t.output }
  else { t with screen := sc }

def put (t : Terminal) (uni : Nat) : Terminal :=
  goRight { t with screen := t.screen.storeChar t.output (cell t.tp uni), output := t.output + 1 }

/-- The `switch` over the character that has been read, but for escape sequences. -/
def character (t : Terminal) (uni : Nat) : Terminal :=
  if uni = 10 then
    let sc := lineDown t.screen
    ({ t with screen := sc } : Terminal).moveTo 0 sc.y
  else if uni = 13 then t.moveTo 0 t.screen.y
  else if uni = 8 then
    if 0 < t.screen.x then t.moveTo (t.screen.x - 1) t.screen.y
    else if t.screen.y ≠ 0 then t.moveTo 79 (t.screen.y - 1)
    else t.moveTo t.screen.x t.screen.y
  else if uni = 0 then t
  else if uni = 9 then t.put 32
  else t.put uni

end Terminal

/-! ### Escape sequences -/

/-- A number of a colour sequence. -/
def TermPipe.colour (tp : TermPipe) (num : Int) : TermPipe :=
  if num = 0 then { tp with fg := defFg, bg := defBg, reversed := false }
  else if num = 1 then
    if tp.fg = defFg then { tp with fg := defBrFg } else { tp with fg := tp.fg ||| 8 }
  else if num = 7 then { tp with reversed := true }
  else if num = 22 then { tp with fg := tp.fg &&& 7 }
  else if num = 27 then { tp with reversed := false }
  else if 30 ≤ num ∧ num ≤ 37 then { tp with fg := BitVec.ofInt 32 (num - 30) ||| tp.fg &&& 8 }
  else if num = 39 then { tp with fg := defFg }
  else if 40 ≤ num ∧ num ≤ 47 then { tp with bg := BitVec.ofInt 32 (num - 40) ||| tp.bg &&& 8 }
  else if num = 49 then { tp with bg := defBg }
  else if 70 ≤ num ∧ num ≤ 77 then { tp with fg := BitVec.ofInt 32 (num - 70) ||| 8 }
  else if num = 79 then { tp with fg := defBg }
  else if 80 ≤ num ∧ num ≤ 87 then { tp with bg := BitVec.ofInt 32 (num - 80) ||| 8 }
  else if num = 89 then { tp with bg := defFg }
  else tp

/-- `num = strtol(sub, &end, 10)` for every token of the colour string. -/
def colourNumbers (colourString : List Byte) : Option (List Int) :=
  (tokens 59 colourString).mapM fun sub => (strtol (.ofList sub) 10).map Prod.fst

/-- Where a position sequence whose parameters are the `k` bytes at `savedPos` goes to; `none` inside
where the sequence is passed over. -/
def position (savedPos : Ptr) (k : Nat) : Option (Option (Int × Int)) :=
  if k = 0 then some (some (0, 0))
  else do
    let (n, np) ← strtol savedPos 10
    let ny := n - 1
    if savedPos np ≠ 59 ∨ ny < 0 ∨ 25 ≤ ny then return none
    let (n, np') ← strtol (savedPos.add (np + 1)) 10
    let nx := n - 1
    let c := savedPos (np + 1 + np')
    if c ≠ 102 ∧ c ≠ 72 ∨ nx < 0 ∨ 80 ≤ nx then return none
    return some (nx, ny)

/-- The end of an escape sequence, from `s` on: how many bytes come before it and what is left of
`size` there; `none` where `size` ends first. -/
def scan : (size : Nat) → Ptr → Option (Nat × Nat)
  | size, s =>
      if 64 ≤ (s 0).toNat ∧ (s 0).toNat ≤ 126 ∨ s 0 = 0 then some (0, size)
      else
        match size with
        | 0 => none
        | size + 1 => (scan size (s.add 1)).map fun (k, r) => (k + 1, r)

/-- `s++; if (!size--) return omsz;` -/
def Printing.next (p : Printing) : Outcome :=
  if p.size = 0 then .early p else .again { p with s := p.s.add 1, size := p.size - 1 }

/-- `size += n`, as a `size_t`. -/
def sizeAdd (size : Nat) (n : Int) : Nat := ((size + n) % 2 ^ 32).toNat

/-- Case 27: `s` is behind the escape character. -/
def escape (p : Printing) : Option Outcome :=
  if p.s 0 ≠ 91 then some (.again p)
  else if p.size = 0 then some (.early p)
  else
    let savedPos := p.s.add 1
    match scan (p.size - 1) savedPos with
    | none => some (.early p)
    | some (k, r) =>
        let q := { p with s := savedPos.add k, size := r }
        if savedPos k = 109 then do
          let nums ← colourNumbers (savedPos.take k)
          return { q with tp := nums.foldl TermPipe.colour q.tp }.next
        else if savedPos k = 74 then
          some (if savedPos 0 = 50 then
            { q with screen := q.screen.clrscr q.tp.fg q.tp.bg }.next
          else q.next)
        else if savedPos k = 102 ∨ savedPos k = 72 then
          match q.next with
          | .again q => do
              match ← position savedPos k with
              | none => return .again q
              | some (nx, ny) => return .again { q with toTerminal := q.moveTo nx ny }
          | o => some o
        else if savedPos k = 115 then
          some { q with tp := { q.tp with sx := q.screen.x, sy := q.screen.y } }.next
        else if savedPos k = 117 then
          some { q with toTerminal := q.moveTo q.tp.sx q.tp.sy }.next
        else
          -- back to the bracket; the bytes given back to `size` are one less than the parameters
          some (.again { p with size := sizeAdd r (k - 1) })

/-! ### The loop -/

/-- What the bytes at `d` begin with, with `size` bytes there. -/
inductive Decoded where
  | short (expectedLen : Nat)
  | char (uni len : Nat)

def decode (d : Ptr) (size : Nat) : Decoded :=
  if d 0 &&& 0xF8 = 0xF0 then
    if size < 4 then .short 4
    else .char ((d 0 &&& 0x07).toNat <<< 18 ||| (d 1 &&& 0x3F).toNat <<< 12 |||
      (d 2 &&& 0x3F).toNat <<< 6 ||| (d 3 &&& 0x3F).toNat) 4
  else if d 0 &&& 0xF0 = 0xE0 then
    if size < 3 then .short 3
    else .char ((d 0 &&& 0x0F).toNat <<< 12 ||| (d 1 &&& 0x3F).toNat <<< 6 ||| (d 2 &&& 0x3F).toNat) 3
  else if d 0 &&& 0xE0 = 0xC0 then
    if size < 2 then .short 2
    else .char ((d 0 &&& 0x1F).toNat <<< 6 ||| (d 1 &&& 0x3F).toNat) 2
  else if d 0 &&& 0x80 = 0 then .char (d 0).toNat 1
  else .char 0xFFFD 1

/-- `while (*s && rem-- && (saved_len < expected_len)) saved[saved_len++] = *(s++);` -/
def refill (expectedLen : Nat) : (rem : Nat) → Ptr → List Byte → Ptr × List Byte
  | 0, s, saved => (s, saved)
  | rem + 1, s, saved =>
      if s 0 ≠ 0 ∧ saved.length < expectedLen then refill expectedLen rem (s.add 1) (saved ++ [s 0])
      else (s, saved)

/-- The character `uni` has been read. -/
def dispatch (uni : Nat) (p : Printing) : Option Outcome :=
  if uni = 27 then escape p else some (.again { p with toTerminal := p.character uni })

def body (p : Printing) : Option Outcome :=
  if p.tp.saved = [] then
    match decode p.s p.size with
    | .short expectedLen =>
        some (.stop { p with tp := { p.tp with saved := p.s.take p.size, expectedLen := expectedLen } })
    | .char uni len => dispatch uni { p with s := p.s.add len, size := p.size - len }
  else
    let (s, saved) := refill p.tp.expectedLen p.size p.s p.tp.saved
    let p := { p with
      tp := { p.tp with saved := saved }, s := s, size := sizeAdd p.size p.tp.saved.length }
    if saved.length < p.tp.expectedLen then some (.stop p)
    else
      match decode (.ofList saved) p.size with
      | .short expectedLen =>
          some (.stop { p with tp := { p.tp with saved := s.take p.size, expectedLen := expectedLen } })
      | .char uni len =>
          dispatch uni { p with tp := { p.tp with saved := [] }, size := p.size - len }

/-- `while (size)` -/
def pass (p : Printing) : Option Outcome := if p.size = 0 then some (.stop p) else body p

/-- The loop, with at most `n` passes. -/
def loop : (n : Nat) → Printing → Option Outcome
  | 0, _ => none
  | n + 1, p => do
      match ← pass p with
      | .again p => loop n p
      | o => return o

/-- The variables at the beginning of the loop: the lock is taken. -/
def Printing.start (tp : TermPipe) (sc : Screen) (s : Ptr) (size : Nat) : Printing :=
  { tp := tp, screen := { sc with outputLock := true }, output := recalcPos sc.x sc.y, s := s,
    size := size }

/-- What is returned, and the state that is left; while the lock is held the call waits. -/
def consPrint (n : Nat) (tp : TermPipe) (con : Display) (s : Ptr) (size : Nat) :
    Option (Nat × TermPipe × Display) :=
  if con.screen.outputLock then none
  else do
    match ← loop n (.start tp con.screen s size) with
    | .stop p =>
        return ((size + 2 ^ 32 - p.size) % 2 ^ 32, p.tp,
          { screen := { p.screen with outputLock := false }, shown := p.screen.displayCursor })
    | .early p => return (size, p.tp, { con with screen := p.screen })
    | .again _ => none

end Muxomucota.Console
