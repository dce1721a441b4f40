import Muxomucota.Console.Print
import Muxomucota.Lib.Runs

/-!
# Console — the cursor

The console as a machine: pipes come and go, a call of `cons_print` takes the lock and then works pass
by pass.  In every state that is reached the cursor is on the screen, `output` points to its cell, and
everything that has been stored to the screen went into the 2000 cells.  Only a number of too many digits
leaves the array that `strtol` has for it, and then nothing is known any more.
-/

namespace Muxomucota.Console

open Muxomucota.Lib

/-- `x` and `y` are a position of the screen. -/
def OnScreen (x y : Int) : Prop := (0 ≤ x ∧ x < 80) ∧ 0 ≤ y ∧ y < 25

theorem origin_onScreen : OnScreen 0 0 := ⟨by decide, by decide⟩

def InTextMem (cell : Int) : Prop := 0 ≤ cell ∧ cell < 2000

/-- A store into the text memory; a character goes to the cell of the cursor. -/
def Store.Fits : Store → Prop
  | .char output x y => output = 80 * y + x ∧ InTextMem output
  | .word dst => InTextMem dst ∧ InTextMem (dst + 1)

def Screen.Ok (sc : Screen) : Prop := OnScreen sc.x sc.y ∧ ∀ st ∈ sc.stores, st.Fits

theorem recalcPos_inTextMem {x y : Int} (h : OnScreen x y) : InTextMem (recalcPos x y) := by
  obtain ⟨⟨hx, hx'⟩, hy, hy'⟩ := h
  unfold recalcPos InTextMem
  omega

/-! ### Loops that store words -/

/-- Only the text memory changes, and only in places that fit. -/
structure Screen.Filled (sc sc' : Screen) : Prop where
  x : sc'.x = sc.x
  y : sc'.y = sc.y
  lock : sc'.outputLock = sc.outputLock
  stores : ∀ st ∈ sc'.stores, st ∈ sc.stores ∨ st.Fits

namespace Screen.Filled

variable {sc sc₁ sc₂ : Screen}

theorem refl (sc : Screen) : Filled sc sc := ⟨rfl, rfl, rfl, fun _ h => .inl h⟩

theorem trans (h₁ : Filled sc sc₁) (h₂ : Filled sc₁ sc₂) : Filled sc sc₂ where
  x := h₂.x.trans h₁.x
  y := h₂.y.trans h₁.y
  lock := h₂.lock.trans h₁.lock
  stores st hst := by
    rcases h₂.stores st hst with hst | hst
    · exact h₁.stores st hst
    · exact .inr hst

theorem storeWord {dst : Int} (h : (Store.word dst).Fits) (v : BitVec 32) :
    Filled sc (sc.storeWord dst v) := by
  refine ⟨rfl, rfl, rfl, fun st hst => ?_⟩
  rcases List.mem_cons.mp hst with rfl | hst
  · exact .inr h
  · exact .inl hst

/-- A loop that stores words. -/
theorem words {n : Nat} {d : Nat → Int} (h : ∀ i < n, 0 ≤ d i ∧ d i + 1 < 2000)
    (v : Screen → Nat → BitVec 32) :
    Filled sc ((List.range n).foldl (fun sc i => sc.storeWord (d i) (v sc i)) sc) := by
  induction n with
  | zero => exact refl sc
  | succ n ih =>
      rw [List.range_succ, List.foldl_append]
      obtain ⟨hlo, hhi⟩ := h n (by omega)
      exact (ih fun i hi => h i (by omega)).trans
        (storeWord ⟨⟨hlo, by omega⟩, by omega, hhi⟩ _)

theorem scrollDown (sc : Screen) : Filled sc sc.scrollDown := by
  unfold Screen.scrollDown
  refine (words (fun i hi => ?_) _).trans (words (fun i hi => ?_) _)
  · omega
  · omega

theorem clrscr (sc : Screen) (fg bg : BitVec 32) : Filled sc (sc.clrscr fg bg) := by
  refine words (fun i hi => ?_) fun _ _ => _
  omega

theorem ok (h : Filled sc sc₁) (hsc : sc.Ok) : sc₁.Ok := by
  refine ⟨?_, fun st hst => ?_⟩
  · rw [h.x, h.y]
    exact hsc.1
  · rcases h.stores st hst with hst | hst
    · exact hsc.2 st hst
    · exact hst

end Screen.Filled

/-! ### Characters -/

/-- The position that the pipe has saved is a position too. -/
structure Terminal.Ok (t : Terminal) : Prop where
  screen : t.screen.Ok
  saved : OnScreen t.tp.sx t.tp.sy
  output : t.output = recalcPos t.screen.x t.screen.y

namespace Terminal

variable {t : Terminal}

theorem Ok.moveTo {x y : Int} (h : t.Ok) (hp : OnScreen x y) : (t.moveTo x y).Ok where
  screen := ⟨hp, h.screen.2⟩
  saved := h.saved
  output := rfl

theorem Ok.withColours {tp : TermPipe} (h : t.Ok) (hx : tp.sx = t.tp.sx) (hy : tp.sy = t.tp.sy) :
    ({ t with tp := tp } : Terminal).Ok where
  screen := h.screen
  saved := by rw [hx, hy]; exact h.saved
  output := h.output

theorem Ok.filled {sc : Screen} (h : t.Ok) (hf : t.screen.Filled sc) :
    ({ t with screen := sc } : Terminal).Ok where
  screen := hf.ok h.screen
  saved := h.saved
  output := by
    dsimp only
    rw [hf.x, hf.y]
    exact h.output

/-- The line below, or the last line after the screen has been scrolled. -/
theorem lineDown_spec (sc : Screen) :
    (lineDown sc).x = sc.x ∧ (lineDown sc).y = (if 25 ≤ sc.y + 1 then sc.y else sc.y + 1) ∧
      ∀ st ∈ (lineDown sc).stores, st ∈ sc.stores ∨ st.Fits := by
  have hf := Screen.Filled.scrollDown { sc with y := sc.y + 1 }
  unfold lineDown
  dsimp only
  generalize ({ sc with y := sc.y + 1 } : Screen).scrollDown = sc' at hf ⊢
  obtain ⟨hx, -, -, hst⟩ := hf
  split
  · exact ⟨hx, Int.add_sub_cancel .., hst⟩
  · exact ⟨rfl, rfl, fun _ h => .inl h⟩

theorem lineDown_ok {sc : Screen} (hx : 0 ≤ sc.x ∧ sc.x < 80) (hy : 0 ≤ sc.y ∧ sc.y < 25)
    (hst : ∀ st ∈ sc.stores, st.Fits) : (lineDown sc).Ok := by
  obtain ⟨hx', hy', hst'⟩ := lineDown_spec sc
  refine ⟨⟨by rw [hx']; exact hx, ?_⟩, fun st h => (hst' st h).elim (hst st) fun h => h⟩
  rw [hy']
  split <;> omega

/-- After a character `output` is one cell ahead of the cursor, and the cursor follows. -/
theorem goRight_ok (hpos : OnScreen t.screen.x t.screen.y) (hst : ∀ st ∈ t.screen.stores, st.Fits)
    (hsv : OnScreen t.tp.sx t.tp.sy) (ho : t.output = recalcPos t.screen.x t.screen.y + 1) :
    t.goRight.Ok := by
  obtain ⟨⟨hx, hx'⟩, hy, hy'⟩ := hpos
  unfold recalcPos at ho
  unfold goRight
  dsimp only
  split
  · -- the end of a line
    obtain ⟨hx₁, hy₁, -⟩ := lineDown_spec { t.screen with x := t.screen.x + 1 - 80 }
    refine ⟨lineDown_ok ⟨?_, ?_⟩ ⟨hy, hy'⟩ hst, hsv, ?_⟩
    · dsimp only
      omega
    · dsimp only
      omega
    · dsimp only [recalcPos] at hx₁ hy₁ ⊢
      rw [hx₁, hy₁]
      split <;> omega
  · refine ⟨⟨⟨⟨?_, ?_⟩, hy, hy'⟩, hst⟩, hsv, ?_⟩
    · dsimp only
      omega
    · dsimp only
      omega
    · dsimp only [recalcPos]
      omega

theorem Ok.put (h : t.Ok) (uni : Nat) : (t.put uni).Ok := by
  obtain ⟨⟨hpos, hst⟩, hsv, ho⟩ := h
  refine goRight_ok hpos (fun st hmem => ?_) hsv ?_
  · rcases List.mem_cons.mp hmem with rfl | hmem
    · refine ⟨?_, ho ▸ recalcPos_inTextMem hpos⟩
      rw [ho, recalcPos, Int.mul_comm]
    · exact hst st hmem
  · dsimp only [Screen.storeChar]
    rw [ho]

theorem Ok.character (h : t.Ok) (uni : Nat) : (t.character uni).Ok := by
  obtain ⟨⟨hx, hx'⟩, hy, hy'⟩ := h.screen.1
  unfold Terminal.character
  split_ifs
  · have hd := lineDown_ok ⟨hx, hx'⟩ ⟨hy, hy'⟩ h.screen.2
    have hpos : OnScreen 0 (lineDown t.screen).y := ⟨by decide, hd.1.2⟩
    exact ⟨⟨hpos, hd.2⟩, h.saved, rfl⟩
  · exact h.moveTo ⟨by decide, hy, hy'⟩
  · exact h.moveTo ⟨by omega, hy, hy'⟩
  · exact h.moveTo ⟨by decide, by omega⟩
  · exact h.moveTo ⟨⟨hx, hx'⟩, hy, hy'⟩
  · exact h
  · exact h.put 32
  · exact h.put uni

end Terminal

/-! ### What is done in a pass -/

/-- What a character or an escape sequence says. -/
inductive Item where
  | char (uni : Nat)
  /-- An escape character without a bracket. -/
  | escape
  | colour (nums : List Int)
  | clear
  | goto (x y : Int)
  | save
  | restore
  /-- A sequence that is passed over. -/
  | nothing
  /-- A sequence whose last byte is unknown: its bracket is read again as a character. -/
  | unknown

def Item.act (it : Item) (t : Terminal) : Terminal :=
  match it with
  | .char uni => t.character uni
  | .colour nums => { t with tp := nums.foldl TermPipe.colour t.tp }
  | .clear => { t with screen := t.screen.clrscr t.tp.fg t.tp.bg }
  | .goto x y => t.moveTo x y
  | .save => { t with tp := { t.tp with sx := t.screen.x, sy := t.screen.y } }
  | .restore => t.moveTo t.tp.sx t.tp.sy
  | .escape | .nothing | .unknown => t

/-- A number of a colour sequence changes nothing but the colours. -/
theorem colour_cases {tp : TermPipe} {Q : TermPipe → Prop} (num : Int)
    (h : ∀ fg bg reversed, Q { tp with fg := fg, bg := bg, reversed := reversed }) :
    Q (tp.colour num) := by
  unfold TermPipe.colour
  repeat' refine iteInduction (motive := Q) (fun _ => ?_) fun _ => ?_
  all_goals exact h _ _ _

theorem colours_cases {Q : TermPipe → Prop} (nums : List Int) {tp : TermPipe}
    (h : ∀ fg bg reversed, Q { tp with fg := fg, bg := bg, reversed := reversed }) :
    Q (nums.foldl TermPipe.colour tp) := by
  induction nums generalizing tp with
  | nil => exact h tp.fg tp.bg tp.reversed
  | cons num nums ih =>
      rw [List.foldl_cons]
      exact ih fun fg bg reversed =>
        colour_cases (Q := fun tp => Q { tp with fg := fg, bg := bg, reversed := reversed }) num
          fun _ _ _ => h fg bg reversed

theorem Terminal.Ok.act {t : Terminal} {it : Item} (h : t.Ok)
    (hgoto : ∀ x y, it = .goto x y → OnScreen x y) : (it.act t).Ok := by
  cases it with
  | char uni => exact h.character uni
  | colour nums =>
      refine h.withColours ?_ ?_
      all_goals exact colours_cases (Q := fun tp => _ = _) nums fun _ _ _ => rfl
  | clear => exact h.filled (.clrscr ..)
  | goto x y => exact h.moveTo (hgoto x y rfl)
  | save => exact ⟨h.screen, h.screen.1, h.output⟩
  | restore => exact h.moveTo h.saved
  | escape | nothing | unknown => exact h

theorem goRight_tp (t : Terminal) : t.goRight.tp = t.tp := by
  unfold Terminal.goRight
  dsimp only
  split <;> rfl

theorem put_tp (t : Terminal) (uni : Nat) : (t.put uni).tp = t.tp := goRight_tp _

theorem character_tp (t : Terminal) (uni : Nat) : (t.character uni).tp = t.tp := by
  unfold Terminal.character
  split_ifs
  all_goals first | rfl | exact put_tp ..

theorem act_pending (it : Item) (t : Terminal) :
    (it.act t).tp.saved = t.tp.saved ∧ (it.act t).tp.expectedLen = t.tp.expectedLen := by
  cases it with
  | char uni =>
      simp only [Item.act]
      rw [character_tp]
      exact ⟨rfl, rfl⟩
  | colour nums =>
      exact colours_cases (Q := fun tp => tp.saved = _ ∧ tp.expectedLen = _) nums
        fun _ _ _ => ⟨rfl, rfl⟩
  | escape | clear | goto | save | restore | nothing | unknown => exact ⟨rfl, rfl⟩

/-- `cons_print` checks the numbers before it goes there, whatever they are. -/
theorem position_onScreen {savedPos : Ptr} {k : Nat} {x y : Int}
    (h : position savedPos k = some (some (x, y))) : OnScreen x y := by
  unfold position at h
  split at h
  · cases h
    exact origin_onScreen
  · obtain ⟨⟨n, np⟩, -, h⟩ := Option.bind_eq_some_iff.mp h
    dsimp only at h
    split at h
    · cases h
    · rename_i hy
      obtain ⟨⟨n', np'⟩, -, h⟩ := Option.bind_eq_some_iff.mp h
      dsimp only at h
      split at h
      · cases h
      · rename_i hx
        cases h
        unfold OnScreen
        omega

/-! ### Passes of the loop -/

def Outcome.printing : Outcome → Printing
  | .again p | .stop p | .early p => p

@[simp] theorem next_terminal (p : Printing) : p.next.printing.toTerminal = p.toTerminal := by
  unfold Printing.next
  split <;> rfl

/-- Whatever way an escape sequence ends, one item at most has been done. -/
theorem escape_acts {p : Printing} {o : Outcome} (ho : escape p = some o) :
    ∃ it : Item, o.printing.toTerminal = it.act p.toTerminal ∧
      ∀ x y, it = .goto x y → OnScreen x y := by
  have hnothing : ∃ it : Item, p.toTerminal = it.act p.toTerminal ∧
      ∀ x y, it = .goto x y → OnScreen x y := ⟨.nothing, rfl, fun _ _ h => by cases h⟩
  unfold escape at ho
  split at ho
  · cases ho
    exact hnothing
  split at ho
  · cases ho
    exact hnothing
  dsimp only at ho
  split at ho
  · cases ho
    exact hnothing
  rename_i k r hscan
  split at ho
  · obtain ⟨nums, -, ho⟩ := Option.bind_eq_some_iff.mp ho
    cases ho
    exact ⟨.colour nums, next_terminal _, fun _ _ h => by cases h⟩
  split at ho
  · cases ho
    split
    · exact ⟨.clear, next_terminal _, fun _ _ h => by cases h⟩
    · exact ⟨.nothing, next_terminal _, fun _ _ h => by cases h⟩
  split at ho
  · -- a position
    split at ho
    · rename_i q hnext
      have hq : q.toTerminal = p.toTerminal :=
        (congrArg (fun o => o.printing.toTerminal) hnext).symm.trans (next_terminal _)
      obtain ⟨pos, hpos, ho⟩ := Option.bind_eq_some_iff.mp ho
      cases pos with
      | none =>
          cases ho
          exact ⟨.nothing, hq, fun _ _ h => by cases h⟩
      | some pos =>
          cases ho
          refine ⟨.goto pos.1 pos.2, congrArg (·.moveTo pos.1 pos.2) hq, fun x y h => ?_⟩
          cases h
          exact position_onScreen hpos
    · cases ho
      exact ⟨.nothing, next_terminal _, fun _ _ h => by cases h⟩
  split at ho
  · cases ho
    exact ⟨.save, next_terminal _, fun _ _ h => by cases h⟩
  split at ho
  · cases ho
    exact ⟨.restore, next_terminal _, fun _ _ h => by cases h⟩
  · cases ho
    exact hnothing

/-- Every character that has been read is an item. -/
theorem dispatch_acts {p : Printing} {o : Outcome} {uni : Nat} (ho : dispatch uni p = some o) :
    ∃ it : Item, o.printing.toTerminal = it.act p.toTerminal ∧
      ∀ x y, it = .goto x y → OnScreen x y := by
  unfold dispatch at ho
  split at ho
  · exact escape_acts ho
  · cases ho
    exact ⟨.char uni, rfl, fun _ _ h => by cases h⟩

/-- A call of `cons_print` that holds the lock. -/
structure Call where
  id : Nat
  s : Ptr
  size : Nat
  output : Int

structure Machine extends Display where
  /-- The terminal pipes, by their addresses. -/
  pipes : Nat → Option TermPipe
  running : Option Call
  /-- `strtol` has gone outside of its array `digit`: an eleventh digit is stored behind it, and behind ten
  digits it is read there.  What that changes is not known, and nothing is said of what comes then. -/
  overrun : Bool

inductive Op where
  /-- `service_create_pipe`, `service_duplicate_pipe` and `service_destroy_pipe`, with what the allocator
  returns. -/
  | create (id : Nat)
  | duplicate (id new : Nat)
  | destroy (id : Nat)
  /-- A call of `cons_print` gets the lock. -/
  | print (id : Nat) (s : Ptr) (size : Nat)
  /-- The call that holds it makes a pass of its loop. -/
  | pass

namespace Machine

def setPipe (m : Machine) (id : Nat) (tp : Option TermPipe) : Machine :=
  { m with pipes := Function.update m.pipes id tp }

/-- What a pass leaves. -/
def after (m : Machine) (id : Nat) : Outcome → Machine
  | .again p => { m.setPipe id (some p.tp) with
      screen := p.screen, running := some ⟨id, p.s, p.size, p.output⟩ }
  | .stop p => { m.setPipe id (some p.tp) with
      screen := { p.screen with outputLock := false }, shown := p.screen.displayCursor
      running := none }
  | .early p => { m.setPipe id (some p.tp) with screen := p.screen, running := none }

def stepPass (m : Machine) : Option Machine := do
  let c ← m.running
  let tp ← m.pipes c.id
  match Console.pass { tp := tp, screen := m.screen, output := c.output, s := c.s, size := c.size } with
  | none => return { m with overrun := true }
  | some o => return m.after c.id o

/-- What happens while the arrays are intact. -/
def act (m : Machine) : Op → Option Machine
  | .create id => if 1 < id ∧ m.pipes id = none then some (m.setPipe id (some .new)) else none
  | .duplicate id new =>
      if 1 < new ∧ m.pipes new = none then (m.pipes id).map fun tp => m.setPipe new (some tp) else none
  | .destroy id => some (m.setPipe id none)
  | .print id s size =>
      if m.screen.outputLock = true ∨ m.pipes id = none then none
      else some { m with
        screen := { m.screen with outputLock := true }
        running := some ⟨id, s, size, recalcPos m.screen.x m.screen.y⟩ }
  | .pass => m.stepPass

def step (m : Machine) (op : Op) : Option Machine := if m.overrun then none else m.act op

def boot (textMem : Int → BitVec 16) : Machine :=
  { screen := .boot textMem, shown := 0, pipes := fun _ => none, running := none, overrun := false }

/-- What holds between the passes. -/
structure Ok (m : Machine) : Prop where
  screen : m.screen.Ok
  pipes : ∀ id tp, m.pipes id = some tp → OnScreen tp.sx tp.sy
  output : ∀ c, m.running = some c → c.output = recalcPos m.screen.x m.screen.y

variable {m m' : Machine} {textMem : Int → BitVec 16} {ops : List Op}

theorem Ok.setPipe {id : Nat} {tp : Option TermPipe} (h : m.Ok)
    (htp : ∀ t, tp = some t → OnScreen t.sx t.sy) : (m.setPipe id tp).Ok where
  screen := h.screen
  pipes id' t ht := by
    dsimp only [Machine.setPipe] at ht
    by_cases hid : id' = id
    · rw [hid, Function.update_self] at ht
      exact htp t ht
    · rw [Function.update_of_ne hid] at ht
      exact h.pipes id' t ht
  output := h.output

theorem step_act {op : Op} (hs : m.step op = some m') : m.overrun = false ∧ m.act op = some m' := by
  unfold step at hs
  split at hs
  · cases hs
  next hover => exact ⟨Bool.eq_false_iff.mpr hover, hs⟩

/-- A pass of the call that holds the lock. -/
theorem stepPass_cases (hs : m.stepPass = some m') : ∃ c tp, m.running = some c ∧ m.pipes c.id = some tp ∧
    ((pass { tp := tp, screen := m.screen, output := c.output, s := c.s, size := c.size } = none ∧
      m' = { m with overrun := true }) ∨
    ∃ o, pass { tp := tp, screen := m.screen, output := c.output, s := c.s, size := c.size } = some o ∧
      m' = m.after c.id o) := by
  obtain ⟨c, hc, hs⟩ := Option.bind_eq_some_iff.mp hs
  obtain ⟨tp, htp, hs⟩ := Option.bind_eq_some_iff.mp hs
  refine ⟨c, tp, hc, htp, ?_⟩
  split at hs
  next hnone => exact .inl ⟨hnone, (Option.some.inj hs).symm⟩
  next o ho => exact .inr ⟨o, ho, (Option.some.inj hs).symm⟩

/-- The passes that the machine makes are the loop of the call. -/
theorem loop_run {n id : Nat} {p : Printing} {o : Outcome} (h : loop n p = some o)
    (hp : m.pipes id = some p.tp) (hs : m.screen = p.screen)
    (hr : m.running = some ⟨id, p.s, p.size, p.output⟩) (hover : m.overrun = false) :
    ∃ k, Run step anyStep m (List.replicate k .pass) (m.after id o) := by
  induction n generalizing m p with
  | zero => cases h
  | succ n ih =>
      obtain ⟨o₁, ho₁, h⟩ := Option.bind_eq_some_iff.mp h
      have hstep : m.step .pass = some (m.after id o₁) := by
        simp only [step, act, stepPass, hover, hr, hp, hs, Option.bind_eq_bind, Option.bind_some, ho₁]
        rfl
      cases o₁ with
      | again p₁ =>
          obtain ⟨k, hrun⟩ := ih (m := m.after id (.again p₁)) h (Function.update_self ..) rfl rfl hover
          refine ⟨k + 1, .more trivial hstep ?_⟩
          convert hrun using 1
          cases o <;> simp [after, setPipe]
      | stop p₁ =>
          cases h
          exact ⟨1, .one trivial hstep⟩
      | early p₁ =>
          cases h
          exact ⟨1, .one trivial hstep⟩

/-- **A call of `cons_print` is a run of the machine.** -/
theorem consPrint_run {n id size ret : Nat} {tp tp' : TermPipe} {con' : Display} {s : Ptr}
    (h : consPrint n tp m.toDisplay s size = some (ret, tp', con')) (hp : m.pipes id = some tp)
    (hover : m.overrun = false) :
    ∃ k, Run step anyStep m (.print id s size :: List.replicate k .pass)
      { m.setPipe id (some tp') with toDisplay := con', running := none } := by
  unfold consPrint at h
  split at h
  · cases h
  · rename_i hlock
    obtain ⟨o, ho, h⟩ := Option.bind_eq_some_iff.mp h
    have hprint : m.step (.print id s size) = some { m with
        screen := { m.screen with outputLock := true }
        running := some ⟨id, s, size, recalcPos m.screen.x m.screen.y⟩ } := by
      simp only [step, act, hover, Bool.false_eq_true, if_false]
      rw [if_neg (by simp [hlock, hp])]
    obtain ⟨k, hrun⟩ := loop_run ho (m := { m with
        screen := { m.screen with outputLock := true }
        running := some ⟨id, s, size, recalcPos m.screen.x m.screen.y⟩ }) hp rfl rfl hover
    refine ⟨k, .more trivial hprint ?_⟩
    cases o with
    | again p => cases h
    | stop p =>
        cases h
        exact hrun
    | early p =>
        cases h
        exact hrun

end Machine

end Muxomucota.Console
