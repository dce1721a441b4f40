import Muxomucota.Console.Strings

/-!
# Console — the screen

The static variables of `bios-console.c` and the functions that only concern them: the text memory of
80 by 25 cells, the cursor and `output_lock`; `scroll_down`, `clrscr`, `recalc_pos`, `display_cursor`;
and the code page (`unicode2c437.c`).

Pointers into the text memory count cells from `text_mem` on and may be anywhere.  Every store is kept
in `stores`.
-/

namespace Muxomucota.Console

/-- A store to the text memory. -/
inductive Store where
  /-- A character, stored at `output` while the cursor is at `(x, y)`. -/
  | char (output x y : Int)
  /-- A word of two cells. -/
  | word (dst : Int)

structure Screen where
  textMem : Int → BitVec 16
  x : Int
  y : Int
  outputLock : Bool
  /-- What has been stored, newest first. -/
  stores : List Store

/-- With what the graphics card shows as the cursor position. -/
structure Display where
  screen : Screen
  shown : BitVec 16

/-! The colour scheme `SOLARIZED_BRIGHT`. -/

def defFg : BitVec 32 := 11
def defBg : BitVec 32 := 15
def defBrFg : BitVec 32 := 10

namespace Screen

/-- `*dst = v` for a pointer to 32-bit words. -/
def storeWord (sc : Screen) (dst : Int) (v : BitVec 32) : Screen :=
  { sc with
    textMem := Function.update (Function.update sc.textMem dst (v.setWidth 16)) (dst + 1)
      ((v >>> 16).setWidth 16)
    stores := .word dst :: sc.stores }

def loadWord (sc : Screen) (src : Int) : BitVec 32 := sc.textMem (src + 1) ++ sc.textMem src

/-- `*output = v` for the character at the cursor. -/
def storeChar (sc : Screen) (output : Int) (v : BitVec 16) : Screen :=
  { sc with
    textMem := Function.update sc.textMem output v
    stores := .char output sc.x sc.y :: sc.stores }

def scrollDown (sc : Screen) : Screen :=
  let sc := (List.range 960).foldl
    (fun (sc : Screen) (i : Nat) => sc.storeWord (2 * i) (sc.loadWord (80 + 2 * i))) sc
  (List.range 40).foldl
    (fun (sc : Screen) (i : Nat) => sc.storeWord (2 * (960 + i)) (0x00200020#32 ||| defFg <<< 8 |||
      defBg <<< 12 ||| defFg <<< 24 ||| defBg <<< 28)) sc

def clrscr (sc : Screen) (fg bg : BitVec 32) : Screen :=
  let mask := 0x20#32 ||| bg <<< 12 ||| fg <<< 8
  let mask := mask ||| mask <<< 16
  (List.range 1000).foldl (fun (sc : Screen) (i : Nat) => sc.storeWord (2 * i) mask) sc

/-- What goes to the registers of the graphics card; the coordinates are passed as bytes. -/
def displayCursor (sc : Screen) : BitVec 16 :=
  (BitVec.ofInt 8 sc.y).setWidth 16 * 80 + (BitVec.ofInt 8 sc.x).setWidth 16

end Screen

/-- The cell of a position, as a pointer. -/
def recalcPos (x y : Int) : Int := y * 80 + x

/-- What `main` leaves. -/
def Screen.boot (textMem : Int → BitVec 16) : Screen :=
  { textMem := fun i =>
      if 0 ≤ i ∧ i < 80 * 25 then (defFg <<< 8 ||| defBg <<< 12).setWidth 16 else textMem i
    x := 0, y := 0, outputLock := false, stores := [] }

/-! ### Code page 437 -/

def codepage437 : List (Nat × Byte) :=
  [(0xA0, 0xFF), (0xA1, 0xAD), (0xA2, 0x9B), (0xA3, 0x9C), (0xA5, 0x9D), (0xA7, 0x15), (0xAA, 0xA6),
   (0xAB, 0xAE), (0xAC, 0xAA), (0xB0, 0xF8), (0xB1, 0xF1), (0xB2, 0xFD), (0xB5, 0xE6), (0xB7, 0xFA),
   (0xBA, 0xA7), (0xBB, 0xAF), (0xBC, 0xAC), (0xBD, 0xAB), (0xBF, 0xA8), (0xC4, 0x8E), (0xC5, 0x8F),
   (0xC6, 0x92), (0xC7, 0x80), (0xC9, 0x90), (0xD1, 0xA5), (0xD6, 0x99), (0xDC, 0x9A), (0xDF, 0xE1),
   (0xE0, 0x85), (0xE1, 0xA0), (0xE2, 0x83), (0xE4, 0x84), (0xE5, 0x86), (0xE6, 0x91), (0xE7, 0x87),
   (0xE8, 0x8A), (0xE9, 0x82), (0xEA, 0x88), (0xEB, 0x89), (0xEC, 0x8D), (0xED, 0xA1), (0xEE, 0x8C),
   (0xEF, 0x8B), (0xF1, 0xA4), (0xF2, 0x95), (0xF3, 0xA2), (0xF4, 0x93), (0xF6, 0x94), (0xF7, 0xF6),
   (0xF9, 0x97), (0xFA, 0xA3), (0xFB, 0x96), (0xFC, 0x81), (0xFF, 0x98), (0x192, 0x9F),
   (0x393, 0xE2), (0x398, 0xE9), (0x3A3, 0xE4), (0x3A6, 0xE8), (0x3A9, 0xEA), (0x3B1, 0xE0),
   (0x3B4, 0xEB), (0x3B5, 0xEE), (0x3C0, 0xE3), (0x3C3, 0xE5), (0x3C4, 0xE7), (0x3C6, 0xED),
   (0x201C, 0x22), (0x201D, 0x22), (0x201E, 0x22), (0x2022, 0x07), (0x203C, 0x13), (0x207F, 0xFC),
   (0x20A7, 0x9E), (0x2190, 0x1B), (0x2191, 0x18), (0x2192, 0x1A), (0x2193, 0x19), (0x2194, 0x1D),
   (0x2195, 0x12), (0x21A8, 0x17), (0x2219, 0xF9), (0x221A, 0xFB), (0x221E, 0xEC), (0x221F, 0x1C),
   (0x2229, 0xEF), (0x2248, 0xF7), (0x2261, 0xF0), (0x2264, 0xF3), (0x2265, 0xF2), (0x2302, 0x7F),
   (0x2310, 0xA9), (0x2320, 0xF4), (0x2321, 0xF5), (0x2500, 0xC4), (0x2502, 0xB3), (0x250C, 0xDA),
   (0x2510, 0xBF), (0x2514, 0xC0), (0x2518, 0xD9), (0x251C, 0xC3), (0x2524, 0xB4), (0x252C, 0xC2),
   (0x2534, 0xC1), (0x253C, 0xC5), (0x2550, 0xCD), (0x2551, 0xBA), (0x2552, 0xD5), (0x2553, 0xD6),
   (0x2554, 0xC9), (0x2555, 0xB8), (0x2556, 0xB7), (0x2557, 0xBB), (0x2558, 0xD4), (0x2559, 0xD3),
   (0x255A, 0xC8), (0x255B, 0xBE), (0x255C, 0xBD), (0x255D, 0xBC), (0x255E, 0xC6), (0x255F, 0xC7),
   (0x2560, 0xCC), (0x2561, 0xB5), (0x2562, 0xB6), (0x2563, 0xB9), (0x2564, 0xD1), (0x2565, 0xD2),
   (0x2566, 0xCB), (0x2567, 0xCF), (0x2568, 0xD0), (0x2569, 0xCA), (0x256A, 0xD8), (0x256B, 0xD7),
   (0x256C, 0xCE), (0x2580, 0xDF), (0x2584, 0xDC), (0x2588, 0xDB), (0x258C, 0xDD), (0x2590, 0xDE),
   (0x2591, 0xB0), (0x2592, 0xB1), (0x2593, 0xB2), (0x25A0, 0xFE), (0x25AC, 0x16), (0x25B2, 0x1E),
   (0x25BA, 0x10), (0x25BC, 0x1F), (0x25C4, 0x11), (0x25CB, 0x09), (0x25D8, 0x08), (0x25D9, 0x0A),
   (0x263A, 0x01), (0x263B, 0x02), (0x263C, 0x0F), (0x2640, 0x0C), (0x2642, 0x0B), (0x2660, 0x06),
   (0x2663, 0x05), (0x2665, 0x03), (0x2666, 0x04), (0x266A, 0x0D), (0x266B, 0x0E)]

/-- A little rectangle stands for what there is no character for. -/
def getC437FromUnicode (uni : Nat) : Byte :=
  if uni < 0x80 then BitVec.ofNat 8 uni else (codepage437.lookup uni).getD 0xFE

end Muxomucota.Console
