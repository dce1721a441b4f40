import Muxomucota.Console.Chunks

/-!
# Console — `cons_print` with nothing behind its input

`cons_print` once more, in a memory that ends with the input: what is left of the input stands for the
pointer `s`, every read asks for its byte, and where a byte behind the last one is read there is no
result.  A result is the one of `consPrint`, whatever stands behind the buffer (`consPrint_shows`).
-/

namespace Muxomucota.Console

namespace Bounded

/-! ### Escape sequences -/

def position (savedPos : List Byte) (k : Nat) : Option (Option (Int × Int)) :=
  if k = 0 then some (some (0, 0))
  else do
    let (n, np) ← Text.strtol savedPos 10
    let ny := n - 1
    let c ← savedPos[np]?
    if c ≠ 59 ∨ ny < 0 ∨ 25 ≤ ny then return none
    else
      let (n, np') ← Text.strtol (savedPos.drop (np + 1)) 10
      let nx := n - 1
      let c ← savedPos[np + 1 + np']?
      if c ≠ 102 ∧ c ≠ 72 ∨ nx < 0 ∨ 80 ≤ nx then return none
      else return some (nx, ny)

/-- The end of an escape sequence; `some none` where `size` ends first. -/
def scan : (size : Nat) → List Byte → Option (Option (Nat × Nat))
  | _, [] => none
  | size, c :: s =>
      if IsFinal c then some (some (0, size))
      else
        match size with
        | 0 => some none
        | size + 1 => (scan size s).map (Option.map fun (k, r) => (k + 1, r))

structure Printing extends Terminal where
  s : List Byte
  size : Nat

inductive Outcome where
  | again (p : Printing)
  /-- The loop is left; the first `kept` bytes at `s` have gone to the saved ones. -/
  | stop (p : Printing) (kept : Nat)
  | early (p : Printing)

/-- `s++; if (!size--) return omsz;` -/
def Printing.next (p : Printing) : Outcome :=
  if p.size = 0 then .early { p with s := p.s.tail } else .again { p with s := p.s.tail, size := p.size - 1 }

def escape (p : Printing) : Option Outcome := do
  let c ← p.s[0]?
  if c ≠ 91 then return .again p
  else if p.size = 0 then return .early { p with s := p.s.tail }
  else
    let savedPos := p.s.tail
    match ← scan (p.size - 1) savedPos with
    | none => return .early { p with s := savedPos.drop p.size }
    | some (k, r) =>
        let q := { p with s := savedPos.drop k, size := r }
        let c ← savedPos[k]?
        if c = 109 then
          let nums ← colourNumbers (savedPos.take k)
          return { q with tp := nums.foldl TermPipe.colour q.tp }.next
        else if c = 74 then
          let c ← savedPos[0]?
          if c = 50 then return { q with screen := q.screen.clrscr q.tp.fg q.tp.bg }.next
          else return q.next
        else if c = 102 ∨ c = 72 then
          match q.next with
          | .again q =>
              match ← position savedPos k with
              | none => return .again q
              | some (nx, ny) => return .again { q with toTerminal := q.moveTo nx ny }
          | o => return o
        else if c = 115 then
          return { q with tp := { q.tp with sx := q.screen.x, sy := q.screen.y } }.next
        else if c = 117 then
          return { q with toTerminal := q.moveTo q.tp.sx q.tp.sy }.next
        else return .again { p with size := sizeAdd r (k - 1) }

/-! ### The loop -/

def decode (d : List Byte) (size : Nat) : Option Decoded := do
  let b ← d[0]?
  if b &&& 0xF8 = 0xF0 then
    if size < 4 then return .short 4
    else
      let b₁ ← d[1]?
      let b₂ ← d[2]?
      let b₃ ← d[3]?
      return .char ((b &&& 0x07).toNat <<< 18 ||| (b₁ &&& 0x3F).toNat <<< 12 |||
        (b₂ &&& 0x3F).toNat <<< 6 ||| (b₃ &&& 0x3F).toNat) 4
  else if b &&& 0xF0 = 0xE0 then
    if size < 3 then return .short 3
    else
      let b₁ ← d[1]?
      let b₂ ← d[2]?
      return .char ((b &&& 0x0F).toNat <<< 12 ||| (b₁ &&& 0x3F).toNat <<< 6 ||| (b₂ &&& 0x3F).toNat) 3
  else if b &&& 0xE0 = 0xC0 then
    if size < 2 then return .short 2
    else
      let b₁ ← d[1]?
      return .char ((b &&& 0x1F).toNat <<< 6 ||| (b₁ &&& 0x3F).toNat) 2
  else if b &&& 0x80 = 0 then return .char b.toNat 1
  else return .char 0xFFFD 1

/-- The byte at `s` is read first, also when `rem` is 0 or the character complete. -/
def refill (expectedLen : Nat) : (rem : Nat) → List Byte → List Byte → Option (List Byte × List Byte)
  | _, [], _ => none
  | 0, c :: s, saved => some (c :: s, saved)
  | rem + 1, c :: s, saved =>
      if c ≠ 0 ∧ saved.length < expectedLen then refill expectedLen rem s (saved ++ [c])
      else some (c :: s, saved)

def dispatch (uni : Nat) (p : Printing) : Option Outcome :=
  if uni = 27 then escape p else some (.again { p with toTerminal := p.character uni })

/-- `memcpy(tp->saved, s, size); tp->saved_len = size; tp->expected_len = ...; break;` -/
def save (p : Printing) (expectedLen : Nat) : Option Outcome :=
  if p.size ≤ p.s.length then
    some (.stop { p with tp := { p.tp with saved := p.s.take p.size, expectedLen := expectedLen } } p.size)
  else none

def body (p : Printing) : Option Outcome :=
  if p.tp.saved = [] then do
    match ← decode p.s p.size with
    | .short expectedLen => save p expectedLen
    | .char uni len => dispatch uni { p with s := p.s.drop len, size := p.size - len }
  else do
    let (s, saved) ← refill p.tp.expectedLen p.size p.s p.tp.saved
    let p := { p with
      tp := { p.tp with saved := saved }, s := s, size := sizeAdd p.size p.tp.saved.length }
    if saved.length < p.tp.expectedLen then return .stop p 0
    else
      match ← decode saved p.size with
      | .short expectedLen => save p expectedLen
      | .char uni len => dispatch uni { p with tp := { p.tp with saved := [] }, size := p.size - len }

def pass (p : Printing) : Option Outcome := if p.size = 0 then some (.stop p 0) else body p

def loop : (n : Nat) → Printing → Option Outcome
  | 0, _ => none
  | n + 1, p => do
      match ← pass p with
      | .again p => loop n p
      | o => return o

def Printing.start (tp : TermPipe) (sc : Screen) (s : List Byte) : Printing :=
  { tp := tp, screen := { sc with outputLock := true }, output := recalcPos sc.x sc.y, s := s,
    size := s.length }

/-- What a call returns and leaves. -/
structure Returned where
  ret : Nat
  tp : TermPipe
  con : Display
  /-- The input behind the last byte that has been consumed. -/
  rest : List Byte
  /-- How many bytes of `rest` have been saved. -/
  kept : Nat

def consPrint (n : Nat) (tp : TermPipe) (con : Display) (s : List Byte) : Option Returned :=
  if con.screen.outputLock then none
  else do
    match ← loop n (.start tp con.screen s) with
    | .stop p kept =>
        return {
          ret := (s.length + 2 ^ 32 - p.size) % 2 ^ 32
          tp := p.tp
          con := { screen := { p.screen with outputLock := false }, shown := p.screen.displayCursor }
          rest := p.s
          kept := kept }
    | .early p =>
        return { ret := s.length, tp := p.tp, con := { con with screen := p.screen }, rest := p.s, kept := 0 }
    | .again _ => none

/-! ### The same in a longer memory -/

/-- The memory at `s` begins with the bytes `l`. -/
def Holds (s : Ptr) (l : List Byte) : Prop := ∀ i c, l[i]? = some c → s i = c

variable {s : Ptr} {l : List Byte} {size : Nat}

theorem Holds.ofList (l : List Byte) : Holds (.ofList l) l := by
  intro i c hc
  simp [Ptr.ofList, hc]

theorem Holds.drop (h : Holds s l) (k : Nat) : Holds (s.add k) (l.drop k) := by
  intro i c hc
  rw [List.getElem?_drop] at hc
  exact h (k + i) c hc

theorem Holds.tail (h : Holds s l) : Holds (s.add 1) l.tail := by
  rw [← List.drop_one]
  exact h.drop 1

theorem Holds.head {c : Byte} (h : Holds s (c :: l)) : s 0 = c := h 0 c rfl

theorem Holds.take {k : Nat} (h : Holds s l) (hk : k ≤ l.length) : s.take k = l.take k := by
  refine List.ext_getElem (by simp [hk]) fun i hi _ => ?_
  simp only [Ptr.length_take] at hi
  simp only [Ptr.take, List.getElem_map, List.getElem_range, List.getElem_take]
  exact h i _ (List.getElem?_eq_getElem _)

theorem readDigits_shows {base room : Nat} {ds : List Nat} (h : Text.readDigits base room l = some ds)
    (hs : Holds s l) : readDigits base room s = some ds := by
  induction room generalizing s l ds with
  | zero => cases h
  | succ room ih =>
      cases l with
      | nil => cases h
      | cons c l =>
          rw [Text.readDigits] at h
          rw [readDigits_succ, hs.head]
          split at h
          · rename_i hdigit
            obtain ⟨ds', hds, rfl⟩ := Option.map_eq_some_iff.mp h
            rw [if_pos hdigit, ih hds hs.tail]
            rfl
          · rename_i hdigit
            rw [if_neg hdigit]
            exact h

theorem strtol_shows {res : Int × Nat} (h : Text.strtol l 10 = some res) (hs : Holds s l) :
    strtol s 10 = some res := by
  obtain ⟨raw, hraw, rfl⟩ := Option.map_eq_some_iff.mp h
  have hread := @Text.strtoll_read 10 (by decide) (by decide) l
  rw [Nat.cast_ofNat, hraw] at hread
  obtain ⟨c, hc, hread⟩ := Option.bind_eq_some_iff.mp hread.symm
  obtain ⟨ds, hds, rfl⟩ := Option.map_eq_some_iff.mp hread
  rw [strtol, Text.strtol, strtoll_read, hs 0 c hc, readDigits_shows hds (hs.drop _)]
  rfl

theorem position_shows {k : Nat} {res : Option (Int × Int)} (h : position l k = some res)
    (hs : Holds s l) : Console.position s k = some res := by
  unfold position at h
  unfold Console.position
  split at h
  · rename_i hk
    rw [if_pos hk]
    exact h
  rename_i hk
  rw [if_neg hk]
  obtain ⟨⟨n, np⟩, hn, h⟩ := Option.bind_eq_some_iff.mp h
  obtain ⟨c, hc, h⟩ := Option.bind_eq_some_iff.mp h
  simp only [strtol_shows hn hs, Option.bind_eq_bind, Option.bind_some, hs np c hc]
  dsimp only at h
  split at h
  · rename_i hy
    rw [if_pos hy]
    exact h
  rename_i hy
  rw [if_neg hy]
  obtain ⟨⟨n', np'⟩, hn', h⟩ := Option.bind_eq_some_iff.mp h
  obtain ⟨c', hc', h⟩ := Option.bind_eq_some_iff.mp h
  simp only [strtol_shows hn' (hs.drop _), Option.bind_some, hs _ c' hc']
  dsimp only at h
  split at h
  · rename_i hx
    rw [if_pos hx]
    exact h
  · rename_i hx
    rw [if_neg hx]
    exact h

theorem scan_shows {res : Option (Nat × Nat)} (h : scan size l = some res) (hs : Holds s l) :
    Console.scan size s = res := by
  induction l generalizing s size res with
  | nil => cases size <;> cases h
  | cons c l ih =>
      rw [scan_cons, hs.head]
      cases size with
      | zero =>
          simp only [scan] at h
          split at h
          · rename_i hfin
            rw [if_pos hfin]
            exact Option.some.inj h
          · rename_i hfin
            rw [if_neg hfin]
            exact Option.some.inj h
      | succ size =>
          simp only [scan] at h
          split at h
          · rename_i hfin
            rw [if_pos hfin]
            exact Option.some.inj h
          · rename_i hfin
            obtain ⟨res', hres, rfl⟩ := Option.map_eq_some_iff.mp h
            rw [if_neg hfin]
            dsimp only
            rw [ih hres hs.tail]

theorem decode_shows {d : Decoded} (h : decode l size = some d) (hs : Holds s l) :
    Console.decode s size = d := by
  obtain ⟨b, hb, h⟩ := Option.bind_eq_some_iff.mp h
  unfold Console.decode
  rw [hs 0 b hb]
  split at h
  · rename_i h₄
    rw [if_pos h₄]
    split at h
    · rename_i hfew
      rw [if_pos hfew]
      exact Option.some.inj h
    · rename_i hfew
      obtain ⟨b₁, hb₁, h⟩ := Option.bind_eq_some_iff.mp h
      obtain ⟨b₂, hb₂, h⟩ := Option.bind_eq_some_iff.mp h
      obtain ⟨b₃, hb₃, h⟩ := Option.bind_eq_some_iff.mp h
      rw [if_neg hfew, hs 1 b₁ hb₁, hs 2 b₂ hb₂, hs 3 b₃ hb₃]
      exact Option.some.inj h
  rename_i h₄
  rw [if_neg h₄]
  split at h
  · rename_i h₃
    rw [if_pos h₃]
    split at h
    · rename_i hfew
      rw [if_pos hfew]
      exact Option.some.inj h
    · rename_i hfew
      obtain ⟨b₁, hb₁, h⟩ := Option.bind_eq_some_iff.mp h
      obtain ⟨b₂, hb₂, h⟩ := Option.bind_eq_some_iff.mp h
      rw [if_neg hfew, hs 1 b₁ hb₁, hs 2 b₂ hb₂]
      exact Option.some.inj h
  rename_i h₃
  rw [if_neg h₃]
  split at h
  · rename_i h₂
    rw [if_pos h₂]
    split at h
    · rename_i hfew
      rw [if_pos hfew]
      exact Option.some.inj h
    · rename_i hfew
      obtain ⟨b₁, hb₁, h⟩ := Option.bind_eq_some_iff.mp h
      rw [if_neg hfew, hs 1 b₁ hb₁]
      exact Option.some.inj h
  rename_i h₂
  rw [if_neg h₂]
  split at h
  · rename_i h₁
    rw [if_pos h₁]
    exact Option.some.inj h
  · rename_i h₁
    rw [if_neg h₁]
    exact Option.some.inj h

theorem refill_shows {expectedLen rem : Nat} {saved saved' l' : List Byte}
    (h : refill expectedLen rem l saved = some (l', saved')) (hs : Holds s l) :
    ∃ s', Console.refill expectedLen rem s saved = (s', saved') ∧ Holds s' l' := by
  induction l generalizing s saved rem with
  | nil => cases rem <;> cases h
  | cons c l ih =>
      cases rem with
      | zero =>
          cases h
          exact ⟨s, rfl, hs⟩
      | succ rem =>
          simp only [refill] at h
          simp only [Console.refill, hs.head]
          split at h
          · rename_i hgo
            rw [if_pos hgo]
            exact ih h hs.tail
          · rename_i hgo
            rw [if_neg hgo]
            cases h
            exact ⟨s, rfl, hs⟩

/-- The same place of the loop in a longer memory. -/
structure Printing.Shows (p : Printing) (q : Console.Printing) : Prop where
  terminal : q.toTerminal = p.toTerminal
  size : q.size = p.size
  input : Holds q.s p.s

def Outcome.Shows : Outcome → Console.Outcome → Prop
  | .again p, .again q => p.Shows q
  | .stop p _, .stop q => p.Shows q
  | .early p, .early q => q.toTerminal = p.toTerminal
  | _, _ => False

variable {p : Printing} {q : Console.Printing} {o : Outcome}

theorem Printing.Shows.next (h : p.Shows q) : p.next.Shows q.next := by
  unfold Printing.next Console.Printing.next
  obtain ⟨ht, hsize, hin⟩ := h
  rw [hsize]
  split
  · exact ht
  · exact ⟨ht, rfl, hin.tail⟩

/-- With another terminal on both sides. -/
theorem Printing.Shows.withTerminal (h : p.Shows q) (t : Terminal) :
    Printing.Shows { p with toTerminal := t } { q with toTerminal := t } := ⟨rfl, h.size, h.input⟩

theorem escape_shows (h : escape p = some o) (hs : p.Shows q) :
    ∃ o', Console.escape q = some o' ∧ o.Shows o' := by
  obtain ⟨t, s, size⟩ := q
  obtain ⟨rfl, rfl, hin⟩ := hs
  obtain ⟨c, hc, h⟩ := Option.bind_eq_some_iff.mp h
  unfold Console.escape
  dsimp only at hin ⊢
  simp only [hin 0 c hc]
  split at h
  · rename_i hb
    cases h
    exact ⟨_, if_pos hb, rfl, rfl, hin⟩
  rename_i hb
  rw [if_neg hb]
  split at h
  · rename_i hz
    cases h
    exact ⟨_, if_pos hz, rfl⟩
  rename_i hz
  rw [if_neg hz]
  obtain ⟨res, hres, h⟩ := Option.bind_eq_some_iff.mp h
  rw [scan_shows hres hin.tail]
  cases res with
  | none =>
      cases h
      exact ⟨_, rfl, rfl⟩
  | some kr =>
      obtain ⟨k, r⟩ := kr
      dsimp only at h ⊢
      obtain ⟨c, hc, h⟩ := Option.bind_eq_some_iff.mp h
      have hk : k < p.s.tail.length := (List.getElem?_eq_some_iff.mp hc).1
      have hq : Printing.Shows { p with s := p.s.tail.drop k, size := r }
          { toTerminal := p.toTerminal, s := (s.add 1).add k, size := r } :=
        ⟨rfl, rfl, hin.tail.drop k⟩
      simp only [hin.tail k c hc, hin.tail.take (Nat.le_of_lt hk)]
      split at h
      · rename_i hm
        obtain ⟨nums, hnums, h⟩ := Option.bind_eq_some_iff.mp h
        cases h
        refine ⟨_, (if_pos hm).trans ?_, (hq.withTerminal _).next⟩
        rw [hnums]
        rfl
      rename_i hm
      rw [if_neg hm]
      split at h
      · rename_i hj
        obtain ⟨c₀, hc₀, h⟩ := Option.bind_eq_some_iff.mp h
        simp only [if_pos hj, hin.tail 0 c₀ hc₀]
        split at h
        · rename_i hclear
          cases h
          exact ⟨_, congrArg some (if_pos hclear), (hq.withTerminal _).next⟩
        · rename_i hclear
          cases h
          exact ⟨_, congrArg some (if_neg hclear), hq.next⟩
      rename_i hj
      rw [if_neg hj]
      split at h
      · rename_i hpos
        rw [if_pos hpos]
        have hnext := hq.next
        cases r with
        | zero =>
            cases h
            exact ⟨_, rfl, hnext⟩
        | succ r =>
            obtain ⟨pos, hp, h⟩ := Option.bind_eq_some_iff.mp h
            have hp' := position_shows hp hin.tail
            cases pos with
            | none =>
                cases h
                exact ⟨_, Option.bind_eq_some_iff.mpr ⟨none, hp', rfl⟩, hnext⟩
            | some xy =>
                cases h
                exact ⟨_, Option.bind_eq_some_iff.mpr ⟨some xy, hp', rfl⟩, hnext.withTerminal _⟩
      rename_i hpos
      rw [if_neg hpos]
      split at h
      · rename_i hsave
        cases h
        exact ⟨_, if_pos hsave, (hq.withTerminal _).next⟩
      rename_i hsave
      rw [if_neg hsave]
      split at h
      · rename_i hrest
        cases h
        exact ⟨_, if_pos hrest, (hq.withTerminal _).next⟩
      · rename_i hrest
        cases h
        exact ⟨_, if_neg hrest, rfl, rfl, hin⟩

theorem dispatch_shows {uni : Nat} (h : dispatch uni p = some o) (hs : p.Shows q) :
    ∃ o', Console.dispatch uni q = some o' ∧ o.Shows o' := by
  unfold dispatch at h
  unfold Console.dispatch
  split at h
  · rename_i hesc
    rw [if_pos hesc]
    exact escape_shows h hs
  · rename_i hesc
    cases h
    rw [if_neg hesc, hs.terminal]
    exact ⟨_, rfl, hs.withTerminal _⟩

theorem save_shows {expectedLen : Nat} (h : save p expectedLen = some o) (hs : p.Shows q) :
    o.Shows (.stop { q with tp := { q.tp with saved := q.s.take q.size, expectedLen := expectedLen } }) := by
  obtain ⟨t, s, size⟩ := q
  obtain ⟨rfl, rfl, hin⟩ := hs
  unfold save at h
  split at h
  · rename_i hle
    cases h
    refine ⟨?_, rfl, hin⟩
    dsimp only
    rw [hin.take hle]
  · cases h

theorem body_shows (h : body p = some o) (hs : p.Shows q) :
    ∃ o', Console.body q = some o' ∧ o.Shows o' := by
  obtain ⟨t, s, size⟩ := q
  obtain ⟨rfl, rfl, hin⟩ := hs
  unfold body at h
  unfold Console.body
  dsimp only
  split at h
  · rename_i hsaved
    obtain ⟨d, hd, h⟩ := Option.bind_eq_some_iff.mp h
    rw [if_pos hsaved, decode_shows hd hin]
    cases d with
    | short expectedLen => exact ⟨_, rfl, save_shows h ⟨rfl, rfl, hin⟩⟩
    | char uni len => exact dispatch_shows h ⟨rfl, rfl, hin.drop len⟩
  · rename_i hsaved
    obtain ⟨⟨l, saved⟩, hrefill, h⟩ := Option.bind_eq_some_iff.mp h
    obtain ⟨s', hrefill', hs'⟩ := refill_shows hrefill hin
    rw [if_neg hsaved, hrefill']
    dsimp only at h ⊢
    split at h
    · rename_i hfew
      cases h
      exact ⟨_, if_pos hfew, rfl, rfl, hs'⟩
    · rename_i hfew
      obtain ⟨d, hd, h⟩ := Option.bind_eq_some_iff.mp h
      rw [if_neg hfew, decode_shows hd (.ofList saved)]
      cases d with
      | short expectedLen =>
          exact ⟨_, rfl, save_shows h (q := ⟨{ p.toTerminal with tp := { p.tp with saved := saved } }, s',
            sizeAdd p.size p.tp.saved.length⟩) ⟨rfl, rfl, hs'⟩⟩
      | char uni len => exact dispatch_shows h ⟨rfl, rfl, hs'⟩

theorem loop_shows {n : Nat} (h : loop n p = some o) (hs : p.Shows q) :
    ∃ o', Console.loop n q = some o' ∧ o.Shows o' := by
  induction n generalizing p q with
  | zero => cases h
  | succ n ih =>
      obtain ⟨o₁, ho₁, h⟩ := Option.bind_eq_some_iff.mp h
      have hpass : ∃ o', Console.pass q = some o' ∧ o₁.Shows o' := by
        unfold pass at ho₁
        unfold Console.pass
        rw [hs.size]
        split at ho₁
        · rename_i hz
          cases ho₁
          exact ⟨_, if_pos hz, hs⟩
        · rename_i hz
          rw [if_neg hz]
          exact body_shows ho₁ hs
      obtain ⟨o', ho', hshows⟩ := hpass
      rw [Console.loop, ho']
      cases o₁ with
      | again p₁ =>
          cases o' with
          | again q₁ => exact ih h hshows
          | stop | early => exact hshows.elim
      | stop p₁ kept =>
          cases h
          cases o' with
          | stop q₁ => exact ⟨_, rfl, hshows⟩
          | again | early => exact hshows.elim
      | early p₁ =>
          cases h
          cases o' with
          | early q₁ => exact ⟨_, rfl, hshows⟩
          | again | stop => exact hshows.elim

/-- **What is behind the input does not matter.**  A call that gets along with the bytes of its input is a
call of `cons_print` in every memory where they stand. -/
theorem consPrint_shows {n : Nat} {tp : TermPipe} {con : Display} {res : Returned}
    (h : consPrint n tp con l = some res) (hs : Holds s l) :
    Console.consPrint n tp con s l.length = some (res.ret, res.tp, res.con) := by
  unfold consPrint at h
  unfold Console.consPrint
  split at h
  · cases h
  · rename_i hlock
    obtain ⟨o, ho, h⟩ := Option.bind_eq_some_iff.mp h
    have hstart : (Printing.start tp con.screen l).Shows (.start tp con.screen s l.length) :=
      ⟨rfl, rfl, hs⟩
    obtain ⟨o', ho', hshows⟩ := loop_shows ho hstart
    rw [if_neg hlock, ho']
    cases o with
    | again => cases h
    | stop p₁ kept =>
        cases h
        cases o' with
        | stop q₁ =>
            obtain ⟨t, s', size⟩ := q₁
            obtain ⟨rfl, rfl, -⟩ := hshows
            rfl
        | again | early => exact hshows.elim
    | early p₁ =>
        cases h
        cases o' with
        | early q₁ =>
            obtain ⟨t, s', size⟩ := q₁
            obtain rfl := hshows
            rfl
        | again | stop => exact hshows.elim

end Bounded

end Muxomucota.Console
