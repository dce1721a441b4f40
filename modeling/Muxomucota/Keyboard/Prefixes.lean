import Muxomucota.Keyboard.Driver

/-!
# Keyboard — the prefixes 0xE0 and 0xE1

`reading` is the `ext` of the loop as it would have to be kept: from one byte to the next, over bytes
that are no scancodes and from one call to the next.  `round` starts with 0 every time, so that the byte
behind a prefix is taken for the scancode of another key.
-/

namespace Muxomucota.Keyboard

/-! ### The prefixes of a stream -/

/-- A byte that `translate` is about. -/
def IsScancode (b : Byte) : Prop :=
  ¬ (Driver.isProtocol b = true ∨ b = 0xE0 ∨ b = 0xE1)

instance (b : Byte) : Decidable (IsScancode b) := inferInstanceAs (Decidable (¬ _))

/-- `ext` behind a byte. -/
def extAfter (ext : Nat) (b : Byte) : Nat :=
  if Driver.isProtocol b then ext
  else if b = 0xE0 then 1
  else if b = 0xE1 then 2
  else (translate ext false b).1

/-- `ext` behind a stream. -/
def reading (bs : List Byte) : Nat := bs.foldl extAfter 0

/-- A break code that is passed over. -/
def IsIdle (b : Byte) : Prop := b.msb = true ∧ kbdB (b.setWidth 7) = false

instance (b : Byte) : Decidable (IsIdle b) := inferInstanceAs (Decidable (_ ∧ _))

/-- The keys above the cursor keys, and the cursor keys. -/
def isNavigation (code : Code) : Bool := 0x47 ≤ code.toNat && code.toNat ≤ 0x53

/-- What should be made of the bytes of a log: behind 0xE0 the extended table counts and only it, the two
scancodes behind 0xE1 are passed over, and no navigation key gives a character. -/
structure Prefixed (log : List (Byte × Translation)) : Prop where
  extended : ∀ before b t after, log = before ++ (b, t) :: after → IsScancode b →
    reading (before.map Prod.fst) = 1 →
      t = if IsIdle b then .ignored else .extended (extendedContent (b.setWidth 7))
  swallowed : ∀ before b t after, log = before ++ (b, t) :: after → IsScancode b →
    reading (before.map Prod.fst) = 2 ∨ reading (before.map Prod.fst) = 3 →
      t = .ignored ∨ t = .swallowed
  navigation : ∀ before b content after,
    log = before ++ (b, .normal content) :: after ∨ log = before ++ (b, .extended content) :: after →
    IsScancode b → reading (before.map Prod.fst) = 1 → isNavigation (b.setWidth 7) = true →
      Driver.isCharacter content = false

/-! ### What the driver makes of them -/

/-- What the loop makes of a byte. -/
def made (up : Bool) (b : Byte) : Translation :=
  if IsScancode b then (if IsIdle b then .ignored else .normal (normalContent up (b.setWidth 7)))
  else .ignored

namespace Driver

theorem character_log (d : Driver) (content : Content) : (d.character content).log = d.log := by
  obtain ⟨fifo, h⟩ := d.character_fifo content
  rw [h]

theorem key_log (d : Driver) (breaks : Bool) (content : Content) :
    (d.key breaks content).driver.log = d.log := by
  unfold key
  repeat' split
  all_goals rfl

theorem act_log (d : Driver) (breaks : Bool) (t : Translation) :
    (d.act breaks t).driver.log = d.log := by
  have h (content : Content) : (if isCharacter content then Action.go (d.character content)
      else d.key breaks content).driver.log = d.log := by
    split
    · exact character_log d content
    · exact key_log d breaks content
  cases t with
  | ignored => rfl
  | swallowed => rfl
  | normal content => exact h content
  | extended content => exact h content

theorem round_log (d : Driver) (b : Byte) :
    (d.round b).driver.log = d.log ++ [(b, made d.up b)] := by
  have hno (h : ¬ IsScancode b) : made d.up b = .ignored := if_neg h
  unfold round
  split
  · rename_i h
    rw [hno fun hs => hs (.inl (by rw [h]; rfl))]
    rfl
  · split
    · rename_i h
      rw [hno fun hs => hs (.inl h)]
      rfl
    · split
      · rename_i h
        rw [hno fun hs => hs (.inr h)]
        rfl
      · rename_i hprotocol hprefix
        have hscan : IsScancode b := not_or.mpr ⟨hprotocol, hprefix⟩
        have hidle : (b.msb && !kbdB (b.setWidth 7)) = true ↔ IsIdle b := by simp [IsIdle]
        refine (act_log _ _ _).trans ?_
        simp only [translate, made, if_pos hscan, hidle]

/-- The log has the bytes that were read, each with what the loop makes of it. -/
def Logs (bs : List Byte) (d : Driver) : Prop :=
  d.log.map Prod.fst = bs ∧ ∀ e ∈ d.log, ∃ up, e.2 = made up e.1

theorem kept_log : Kept Logs where
  round b h := by
    obtain ⟨hbytes, hmade⟩ := h
    refine ⟨by rw [round_log, List.map_append, hbytes]; rfl, fun e he => ?_⟩
    rw [round_log] at he
    rcases List.mem_append.mp he with he | he
    · exact hmade e he
    · rw [List.mem_singleton.mp he]
      exact ⟨_, rfl⟩
  command cmd h := by cases cmd <;> exact h
  shiftUp h := h

end Driver

/-! ### When it is what should be made of them -/

/-- The condition: the scancodes that a prefix is for are break codes that are passed over anyway. -/
def Unprefixed (bs : List Byte) : Prop :=
  ∀ before b after, bs = before ++ b :: after → IsScancode b → reading before ≠ 0 → IsIdle b

theorem extAfter_le (ext : Nat) (b : Byte) (h : ext ≤ 3) : extAfter ext b ≤ 3 := by
  unfold extAfter
  split
  · exact h
  · split
    · decide
    · split
      · decide
      · match ext with
        | 0 => exact (by decide : 0 ≤ 3)
        | 1 => exact (by decide : 0 ≤ 3)
        | 2 => exact (by decide : 3 ≤ 3)
        | 3 => exact (by decide : 0 ≤ 3)

theorem reading_le (bs : List Byte) : reading bs ≤ 3 := by
  suffices ∀ ext ≤ 3, bs.foldl extAfter ext ≤ 3 from this 0 (by decide)
  induction bs with
  | nil => exact fun ext h => h
  | cons b bs ih => exact fun ext h => ih _ (extAfter_le ext b h)

variable {d : Driver} {bs : List Byte}

/-- The entry for a byte. -/
theorem Driver.Logs.entry (h : d.Logs bs) {before after : List Byte} {b : Byte}
    (hbs : bs = before ++ b :: after) : ∃ l l' up, d.log = l ++ (b, made up b) :: l' ∧
      l.map Prod.fst = before := by
  obtain ⟨hbytes, hmade⟩ := h
  rw [hbs] at hbytes
  obtain ⟨l, l₂, hlog, hl, hl₂⟩ := List.map_eq_append_iff.mp hbytes
  obtain ⟨⟨b', t⟩, l', rfl, hb, -⟩ := List.map_eq_cons_iff.mp hl₂
  obtain rfl : b' = b := hb
  obtain ⟨up, ht⟩ := hmade (b', t) (by rw [hlog]; simp)
  obtain rfl : t = made up b' := ht
  exact ⟨l, l', up, hlog, hl⟩

/-- What is made of the byte of an entry. -/
theorem Driver.Logs.made_of_entry (h : d.Logs bs) {l l' : List (Byte × Translation)} {b : Byte}
    {t : Translation} (hlog : d.log = l ++ (b, t) :: l') :
    bs = l.map Prod.fst ++ b :: l'.map Prod.fst ∧ ∃ up, t = made up b := by
  obtain ⟨hbytes, hmade⟩ := h
  refine ⟨by rw [← hbytes, hlog]; simp, hmade (b, t) ?_⟩
  rw [hlog]
  simp

theorem prefixed_iff (h : d.Logs bs) : Prefixed d.log ↔ Unprefixed bs := by
  constructor
  · intro hp before b after hbs hscan hread
    obtain ⟨l, l', up, hlog, hl⟩ := h.entry hbs
    by_contra hidle
    have hmade : made up b = .normal (normalContent up (b.setWidth 7)) := by
      rw [made, if_pos hscan, if_neg hidle]
    rw [hmade] at hlog
    have hle := reading_le before
    rw [← hl] at hread hle
    by_cases hone : reading (l.map Prod.fst) = 1
    · have := hp.extended l b _ l' hlog hscan hone
      rw [if_neg hidle] at this
      cases this
    · rcases hp.swallowed l b _ l' hlog hscan (by omega) with h | h <;> cases h
  · intro hu
    -- behind a prefix nothing is made of a byte
    have hnone : ∀ l b t l', d.log = l ++ (b, t) :: l' → IsScancode b →
        reading (l.map Prod.fst) ≠ 0 → IsIdle b ∧ t = .ignored := by
      intro l b t l' hlog hscan hread
      obtain ⟨hbs, up, rfl⟩ := h.made_of_entry hlog
      have hidle := hu _ _ _ hbs hscan hread
      exact ⟨hidle, by rw [made, if_pos hscan, if_pos hidle]⟩
    constructor
    · intro l b t l' hlog hscan hread
      obtain ⟨hidle, rfl⟩ := hnone l b t l' hlog hscan (by omega)
      rw [if_pos hidle]
    · intro l b t l' hlog hscan hread
      exact .inl (hnone l b t l' hlog hscan (by omega)).2
    · intro l b content l' hlog hscan hread _
      rcases hlog with hlog | hlog <;> cases (hnone l b _ l' hlog hscan (by omega)).2

/-- **The prefixes are kept** exactly where the condition holds: any calls end, and what they have made
of the bytes is what the prefixes say if and only if no prefix is for a scancode that counts. -/
theorem prefixes_kept_iff (cs : List Driver.Call) (polls : List (Option Byte)) :
    ∃ d rest taken, Driver.boot.calls cs polls = some (d, rest) ∧ polls = taken ++ rest ∧
      d.log.map Prod.fst = taken.reduceOption ∧
      (Prefixed d.log ↔ Unprefixed taken.reduceOption) := by
  obtain ⟨d, rest, hrun⟩ := Driver.calls_total cs polls Driver.boot
  have hboot : Driver.boot.Logs [] := ⟨rfl, fun e he => by cases he⟩
  obtain ⟨taken, hpolls, hlogs⟩ := Driver.kept_log.calls hrun hboot
  rw [List.nil_append] at hlogs
  exact ⟨d, rest, taken, hrun, hpolls, hlogs.1, prefixed_iff hlogs⟩

/-- The cursor key that leads upwards gives an eight. -/
theorem cursor_up_is_eight : ∃ d, Driver.boot.calls [.irq] [some 0xE0, some 0x48] = some (d, []) ∧
    d.fifo = [0x38] ∧ ¬ Prefixed d.log := by
  refine ⟨_, rfl, by decide, fun h => ?_⟩
  have := h.navigation [(0xE0, .ignored)] 0x48 (ch '8') [] (.inl (by decide)) (by decide) (by decide)
    (by decide)
  revert this
  decide

end Muxomucota.Keyboard
