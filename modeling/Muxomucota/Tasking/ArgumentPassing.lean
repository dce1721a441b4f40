import Muxomucota.Mmu.FirstTouch
import Muxomucota.Tasking.ArgumentContents
import Muxomucota.Tasking.Tls

/-!
# Tasking — argument passing

`process_set_args` leaves a process with its arguments exactly if there are the frames for the pages it
accesses and the parameters of `main` are on one of these, or on one that was mapped before
(`passesArguments_iff`).  They are not where the vectors begin at a page boundary and `proc->cpu_state`
is elsewhere.
-/

namespace Muxomucota.Tasking
open Mmu Memory Lib

variable {m m' m₁ : Mem} {pd lo hi esp stack p : Nat} {stored : Option Nat}
  {argv envp : List CString}

/-! ### The place on the stack -/

theorem foldl_strlen (l : List CString) (n : Nat) :
    l.foldl (fun sz s => sz + (strlen s + 1)) n = n + (l.map CString.bytes).flatten.length := by
  induction l generalizing n with
  | nil => rfl
  | cons s l ih =>
      rw [List.foldl_cons, ih, List.map_cons, List.flatten_cons, List.length_append, s.bytes_length]
      omega

/-- What the stack pointer goes down by for the vectors and the strings. -/
theorem argsSize_eq (h : argsTotal argv envp < 2 ^ 32) :
    argsSize argv envp = (argsTotal argv envp - 9) / 4 * 4 := by
  unfold argsTotal at h ⊢
  rw [List.map_append, List.flatten_append, List.length_append] at h ⊢
  rw [argsSize, foldl_strlen, foldl_strlen, Nat.mod_eq_of_lt (by omega)]
  omega

/-- The vectors and the strings fit, with the parameters below. -/
theorem argsSize_place (hmul : esp % 4 = 0) (htop : esp ≤ userStackTop)
    (hfit : userStackBase + argsTotal argv envp ≤ esp) (hstack : stack = esp - argsSize argv envp) :
    processStackAlloc esp (argsSize argv envp) = stack ∧ stack % 4 = 0 ∧ userStackBase + 12 ≤ stack ∧
      stack + 4 * (argv.length + envp.length + 2) +
        argOffset argv envp (argv.length + envp.length + 2) ≤ esp := by
  have hb : userStackBase = 0xE0000000 := rfl
  have ht : userStackTop = 0xF0000000 := rfl
  have hsize := argsSize_eq (by omega : argsTotal argv envp < 2 ^ 32)
  have htotal : argsTotal argv envp = argOffset argv envp (argv.length + envp.length + 2) +
      4 * (argv.length + envp.length + 2) + 12 := by
    rw [argOffset_all]
    rfl
  unfold processStackAlloc
  omega

/-- The pages of the vectors and the strings, when they have been accessed. -/
theorem argSpace_of (h : Touched m m₁ pd lo hi (pagesBetween stack esp).toFinset)
    (hphys : hi * 4096 ≤ physBase) (hlow : lo ≤ stack / 4096) (haligned : stack % 4 = 0)
    (htop : esp ≤ hi * 4096)
    (hfit : stack + 4 * (argv.length + envp.length + 2) +
      argOffset argv envp (argv.length + envp.length + 2) ≤ esp) :
    ArgSpace m₁ pd lo hi stack (stack + 4 * (argv.length + envp.length + 2)) argv envp := by
  have hmax : physBase = 0xF0000000 := rfl
  refine ⟨h.area, hphys, hlow, haligned, rfl, by omega, fun v hv hlt => ?_⟩
  rcases h.area.page v (by omega) (by omega) with hod | ⟨e, hp, -⟩
  · exact absurd (List.mem_toFinset.mpr (mem_pagesBetween.mpr ⟨hv, by omega⟩))
      ((h.onDemand v (by omega)).mp hod).2
  · exact ⟨e, hp⟩

/-! ### The parameters of `main` -/

theorem pagesBetween_lt {lo hi v : Nat} (h : v ∈ pagesBetween lo hi) : v < 2 ^ 20 := by
  have hlt := (mem_pagesBetween.mp h).2
  omega

/-- The three words of the parameters. -/
def paramBytes (argc av ev : Nat) : List (BitVec 8) :=
  wordBytes (BitVec.ofNat 32 argc) ++ wordBytes (BitVec.ofNat 32 av) ++ wordBytes (BitVec.ofNat 32 ev)

/-- The parameters are written to a page that is mapped. -/
theorem params_wrote {e : BitVec 32} (argc av ev : Nat) (h : Area m pd lo hi) (hphys : hi * 4096 ≤ physBase)
    (hlo : lo ≤ p / 4096) (hhi : p + 12 ≤ hi * 4096) (hmul : p % 16 = 0)
    (hp : UserPage m pd (p / 4096) e) :
    Wrote m (((m.setEntry (frameOf e) (p % 4096 / 4) (BitVec.ofNat 32 argc)).setEntry (frameOf e)
      (p % 4096 / 4 + 1) (BitVec.ofNat 32 av)).setEntry (frameOf e) (p % 4096 / 4 + 2)
        (BitVec.ofNat 32 ev)) pd lo hi p (paramBytes argc av ev) := by
  have hmax : physBase = 0xF0000000 := rfl
  have hv : lo ≤ p / 4096 ∧ p / 4096 < hi := ⟨hlo, by omega⟩
  have h₁ := h.setEntry hphys hv hp (by omega : p % 4096 / 4 < 1024) (BitVec.ofNat 32 argc)
  have hp₁ := (h₁.same.userPage h.dir (by omega)).mpr hp
  have h₂ := h₁.area.setEntry hphys hv hp₁ (by omega : p % 4096 / 4 + 1 < 1024) (BitVec.ofNat 32 av)
  have hp₂ := (h₂.same.userPage h₁.area.dir (by omega)).mpr hp₁
  have h₃ := h₂.area.setEntry hphys hv hp₂ (by omega : p % 4096 / 4 + 2 < 1024) (BitVec.ofNat 32 ev)
  rw [show p / 4096 * 4096 + 4 * (p % 4096 / 4) = p by omega] at h₁
  rw [show p / 4096 * 4096 + 4 * (p % 4096 / 4 + 1) = p + 4 by omega] at h₂
  rw [show p / 4096 * 4096 + 4 * (p % 4096 / 4 + 2) = p + 8 by omega] at h₃
  have h₁₂ := h₁.append h₂ hphys hlo (by rw [wordBytes_length]; omega)
  exact h₁₂.append h₃ hphys hlo (by rw [List.length_append, wordBytes_length, wordBytes_length]; omega)

/-- **The parameters** are set exactly if their page is there in time. -/
theorem setInitialParams_spec (argc av ev : Nat) (h : Area m pd lo hi) (hphys : hi * 4096 ≤ physBase)
    (hlo : lo * 4096 + 12 ≤ stack) (hpos : 0 < lo) (hhi : stack ≤ hi * 4096)
    (hp : p = (stack - 12) / 16 * 16) {s : Finset Nat}
    (hs : s = (pagesBetween (stored.getD p) (stored.getD stack)).toFinset) :
    (¬(framesFor m pd s ≤ freeFrames m.pmm ∧ (OnDemand m pd (p / 4096) → p / 4096 ∈ s)) →
      processSetInitialParams m pd stored stack argc av ev = none) ∧
    (framesFor m pd s ≤ freeFrames m.pmm → (OnDemand m pd (p / 4096) → p / 4096 ∈ s) →
      ∃ m', processSetInitialParams m pd stored stack argc av ev = some (m', p - 4) ∧
        BytesAt m' pd p (paramBytes argc av ev) ∧
        ∀ a bytes, stack ≤ a → a + bytes.length ≤ hi * 4096 → BytesAt m pd a bytes →
          BytesAt m' pd a bytes) := by
  have hmax : physBase = 0xF0000000 := rfl
  have hesp : (stack + 2 ^ 32 - 12) % 2 ^ 32 / 16 * 16 = p := by omega
  obtain ⟨hnone, hsome⟩ := touchPages_spec h (by omega) fun _ => pagesBetween_lt
  rw [← hs] at hnone hsome
  have hvlo : lo ≤ p / 4096 := by omega
  have hvhi : p / 4096 < hi := by omega
  unfold processSetInitialParams
  dsimp only
  rw [hesp]
  by_cases hroom : framesFor m pd s ≤ freeFrames m.pmm
  · obtain ⟨m₁, hm₁, ht⟩ := hsome hroom
    rw [hm₁, Option.bind_some]
    rcases ht.area.page _ hvlo hvhi with hod | ⟨e, hpage, -⟩
    · obtain ⟨hod', hnot⟩ := (ht.onDemand _ (by omega)).mp hod
      refine ⟨fun _ => ?_, fun _ hin => absurd (hin hod') hnot⟩
      rw [mappedFrame_none hod]
      rfl
    · have hin : OnDemand m pd (p / 4096) → p / 4096 ∈ s := fun hod => by
        by_contra hnot
        exact hpage.not_onDemand ((ht.onDemand _ (by omega)).mpr ⟨hod, hnot⟩)
      refine ⟨fun hbad => absurd ⟨hroom, hin⟩ hbad, fun _ _ => ?_⟩
      have hwrote := params_wrote argc av ev ht.area hphys hvlo (by omega)
        (by omega) hpage
      rw [mappedFrame_some hpage, Option.map_some, processStackAlloc,
        show (p + 2 ^ 32 - 4) % 2 ^ 32 = p - 4 by omega]
      refine ⟨_, rfl, hwrote.stored, fun a bytes hsa hfit hb => ?_⟩
      have hlen : (paramBytes argc av ev).length = 12 := rfl
      exact hwrote.holds hphys (by omega) hfit (.inr (by omega))
        (ht.retains.holds hphys (by omega) hfit hb)
  · refine ⟨fun _ => ?_, fun hroom' => absurd hroom' hroom⟩
    rw [hnone (by omega)]
    rfl

/-- When the page of the parameters is accessed, or mapped already. -/
theorem paramsMapped_iff (hmul : stack % 4 = 0) (hlo : userStackBase + 12 ≤ stack) (hlt : stack < esp)
    (htop : esp ≤ userStackTop) (hstored : ∀ e ∈ stored, e < 2 ^ 32)
    (hp : p = (stack - 12) / 16 * 16) :
    ParamsMapped m pd stored stack ↔ (OnDemand m pd (p / 4096) → p / 4096 ∈ pagesBetween stack esp ∨
      p / 4096 ∈ pagesBetween (stored.getD p) (stored.getD stack)) := by
  have hb : userStackBase = 0xE0000000 := rfl
  have ht : userStackTop = 0xF0000000 := rfl
  simp only [mem_pagesBetween]
  unfold ParamsMapped
  by_cases hin : 12 ≤ stack % 4096
  · exact iff_of_true (.inl hin) fun _ => .inl (by omega)
  · have hpage : stack / 4096 - 1 = p / 4096 := by omega
    have hno : ¬(stack / 4096 ≤ p / 4096 ∧ p / 4096 < (esp + 4095) % 2 ^ 32 / 4096) := by omega
    have hlast : (∀ e ∈ stored, e / 4096 = p / 4096 ∧ e % 4096 ≠ 0) ↔ stored.getD p / 4096 ≤ p / 4096 ∧
        p / 4096 < (stored.getD stack + 4095) % 2 ^ 32 / 4096 := by
      cases stored with
      | none => exact iff_of_true (fun _ h => by cases h) (by dsimp only [Option.getD_none]; omega)
      | some e =>
          have he := hstored e rfl
          simp only [Option.mem_some_iff, forall_eq', Option.getD_some]
          omega
    rw [hpage, hlast]
    refine ⟨?_, fun h => ?_⟩
    · rintro (hin' | hno' | hin') hod
      · exact absurd hin' hin
      · exact absurd hod hno'
      · exact .inr hin'
    · by_cases hod : OnDemand m pd (p / 4096)
      · exact .inr (.inr ((h hod).resolve_left hno))
      · exact .inr (.inl hod)

/-! ### A new process -/

/-- The directory of a new process: its frame is taken, and the entries are those of the kernel but for the
areas that are mapped on demand. -/
theorem newProcess_directory {kpd : KernelDirectory} (hc : createVmmContextArch kpd m = some (pd, m₁)) :
    ∃ m₀ m', m.alloc = some (pd, m₀) ∧ processCreateBasicMappings m₁ pd = some m' ∧ m'.pmm = m₀.pmm ∧
      ∀ i, m'.entry pd i =
        if 764 ≤ i ∧ i < 768 ∨ 896 ≤ i ∧ i < 960 then lazyEntry (vmmUr ||| vmmUw)
        else Ram.wordAt kpd.bytes (4 * i) := by
  obtain ⟨⟨f, m₀⟩, ha, hm⟩ := Option.map_eq_some_iff.mp hc
  simp only [Prod.mk.injEq] at hm
  obtain ⟨rfl, rfl⟩ := hm
  have hdir : ∀ i, Mem.entry { m₀ with ram := Function.update m₀.ram f kpd.bytes } f i =
      Ram.wordAt kpd.bytes (4 * i) := fun i => by
    unfold Mem.entry Ram.word
    dsimp only
    rw [Function.update_self]
  obtain ⟨m', hm', hof, hent⟩ := basicMappings_entries fun i hi => by
    rw [hdir]
    exact kpd.user_empty i hi
  exact ⟨m₀, m', ha, hm', hof.pmm, fun i => by rw [hent, hdir]⟩

/-- A directory with nothing in its user part. -/
theorem held_of_absent (habsent : ∀ i < userPdes, isPr (m.entry pd i) = false)
    (hdir : m.pmm.users pd ≠ 0) (hsmall : m.pmm.memBase + m.pmm.memEntries ≤ 2 ^ 20) :
    Held m pd userPdes := by
  have hno : ∀ i < userPdes, ¬isPr (m.entry pd i) = true := fun i hi => by
    rw [habsent i hi]
    exact Bool.false_ne_true
  exact ⟨⟨fun i hi _ _ hpr => absurd hpr (hno i hi), fun i hi hpr => absurd hpr (hno i hi)⟩, hdir,
    fun i hi hpr => absurd hpr (hno i hi), hsmall⟩

/-- The stack of a new process is such an area, and all of it is on demand. -/
theorem newProcess_area {kpd : KernelDirectory}
    (huser : ∀ i < 1024, isUs (Ram.wordAt kpd.bytes (4 * i)) = false) (hl : LookOk m.pmm)
    (hsmall : m.pmm.memBase + m.pmm.memEntries ≤ 2 ^ 20)
    (hc : createVmmContextArch kpd m = some (pd, m₁)) :
    ∃ m', processCreateBasicMappings m₁ pd = some m' ∧
      Area m' pd (userStackBase / 4096) (userStackTop / 4096) ∧
      (∀ v, userStackBase / 4096 ≤ v → v < userStackTop / 4096 → OnDemand m' pd v) ∧
      freeFrames m'.pmm + 1 = freeFrames m.pmm := by
  obtain ⟨m₀, m', ha, hm', hpmm, hent⟩ := newProcess_directory hc
  obtain ⟨-, hs, -, -, -, hu, -⟩ := alloc_spec ha
  have habsent : ∀ i < userPdes, isPr (m'.entry pd i) = false := fun i hi => by
    rw [hent]
    split
    · exact isPr_lazyEntry _
    · exact kpd.user_empty i hi
  have hod : ∀ v, userStackBase / 4096 ≤ v → v < userStackTop / 4096 → OnDemand m' pd v := by
    intro v hlo hlt
    have hlo : 0xE0000 ≤ v := hlo
    have hlt : v < 0xF0000 := hlt
    refine NoTable.onDemand ⟨?_, habsent _ (by unfold userPdes; omega)⟩
    rw [hent, if_pos (by omega)]
    decide
  have hheld : Held m' pd userPdes := by
    refine held_of_absent habsent ?_ ?_
    · rw [hpmm, hu, if_pos rfl]
      exact Nat.one_ne_zero
    · rw [hpmm, hs.1, hs.2]
      exact hsmall
  have hown : OwnDirectory m' pd := by
    refine ⟨hheld, fun i hlo hlt => ?_, fun i hlt hno => ?_, ?_⟩
    · have hlo : 960 ≤ i := hlo
      rw [hent, if_neg (by omega)]
      exact huser i hlt
    · have hus := hno.1
      rw [hent] at hus ⊢
      split
      · decide
      · rename_i hne
        rw [if_neg hne, huser i hlt] at hus
        cases hus
    · rw [hpmm]
      exact alloc_lookOk hl ha
  refine ⟨m', hm', ⟨hown, fun v hlo hlt => .inl (hod v hlo hlt), fun v _ e _ hlo hlt _ _ hp => ?_⟩, hod, ?_⟩
  · exact absurd (hod v hlo hlt) hp.not_onDemand
  · rw [hpmm]
    exact alloc_freeFrames ha

/-- A new process, in a machine of 16 frames. -/
theorem newProcess_boot : ∃ pd m₁ m', createVmmContextArch .empty (.boot 16) = some (pd, m₁) ∧
    processCreateBasicMappings m₁ pd = some m' ∧
    Area m' pd (userStackBase / 4096) (userStackTop / 4096) ∧
    (∀ v, userStackBase / 4096 ≤ v → v < userStackTop / 4096 → OnDemand m' pd v) ∧
    freeFrames m'.pmm = 15 := by
  have hframes : freeFrames (Mem.boot 16).pmm = 16 := by decide
  obtain ⟨pd, m₁, hm₁, -, -⟩ :=
    create_isSome KernelDirectory.empty (lookOk_boot 16) (by rw [hframes]; decide)
  obtain ⟨m', hm', harea, hod, hfree⟩ := newProcess_area (fun i _ => by simp [KernelDirectory.empty, isUs,
    Ram.wordAt]) (lookOk_boot 16) (by decide) hm₁
  exact ⟨pd, m₁, m', hm₁, hm', harea, hod, by omega⟩

/-! ### The arguments -/

/-- What `process_set_args` puts on the stack describes the arguments. -/
theorem passed_of {base : Nat} (hlt : base + argOffset argv envp (argv.length + envp.length + 2) < 2 ^ 32)
    (hbase : stack + 4 * (argv.length + envp.length + 2) = base) (hp : 16 ∣ p) (hpos : 4 ≤ p)
    (hparams : BytesAt m pd p (paramBytes argv.length stack (stack + 4 * (argv.length + 1))))
    (hpointers : ∀ j < argv.length + envp.length + 2,
      BytesAt m pd (stack + 4 * j) (wordBytes (pointerAt argv envp base j)))
    (hstrings : ∀ j < argv.length + envp.length + 2,
      BytesAt m pd (base + argOffset argv envp j) (slotBytes (argAt argv envp j))) :
    Passed m pd (p - 4) argv envp := by
  obtain ⟨hargv, henvp⟩ := vectors_at hpointers hstrings hlt
  obtain ⟨hfirst, hev⟩ := bytesAt_append.mp hparams
  obtain ⟨hargc, hav⟩ := bytesAt_append.mp hfirst
  rw [List.length_append, wordBytes_length, wordBytes_length] at hev
  rw [wordBytes_length] at hav
  unfold Passed
  rw [show p - 4 + 4 = p by omega, show p - 4 + 8 = p + 4 by omega, show p - 4 + 12 = p + (4 + 4) by omega]
  refine ⟨hp, hargc, _, _, hav, hev, ?_, ?_⟩
  · rwa [BitVec.toNat_ofNat, Nat.mod_eq_of_lt (by omega)]
  · rwa [BitVec.toNat_ofNat, Nat.mod_eq_of_lt (by omega)]

/-- `process_set_args` fails, or the arguments are passed. -/
theorem processSetArgs_spec (h : Area m pd (userStackBase / 4096) (userStackTop / 4096))
    (hmul : esp % 4 = 0) (htop : esp ≤ userStackTop) (hfit : userStackBase + argsTotal argv envp ≤ esp)
    (hstored : ∀ e ∈ stored, e < 2 ^ 32) {ok : Prop}
    (hok : ok ↔ framesFor m pd (argPages stored esp (esp - argsSize argv envp)) ≤ freeFrames m.pmm ∧
      ParamsMapped m pd stored (esp - argsSize argv envp)) :
    (¬ok → processSetArgs m pd stored esp argv envp = none) ∧
      (ok → PassesArguments m pd stored esp argv envp) := by
  rw [hok]
  clear hok
  generalize hstack : esp - argsSize argv envp = stack
  obtain ⟨halloc, hmul', hlo, hroom⟩ := argsSize_place hmul htop hfit hstack.symm
  have hb : userStackBase = 0xE0000000 := rfl
  have ht : userStackTop = 0xF0000000 := rfl
  generalize hp : (stack - 12) / 16 * 16 = p
  rw [paramsMapped_iff hmul' hlo (by omega) htop hstored hp.symm, argPages, hp]
  generalize hs₂ : (pagesBetween (stored.getD p) (stored.getD stack)).toFinset = s₂
  obtain ⟨hnone, hsome⟩ := touchPages_spec h (by decide) fun _ => @pagesBetween_lt stack esp _
  unfold PassesArguments processSetArgs
  rw [halloc]
  dsimp only
  by_cases hfirst : framesFor m pd (pagesBetween stack esp).toFinset ≤ freeFrames m.pmm
  · obtain ⟨m₁, hm₁, ht₁⟩ := hsome hfirst
    have hspace := argSpace_of ht₁ (by decide) (by omega) hmul' (htop.trans (by decide)) hroom
    obtain ⟨e, hpage⟩ := hspace.mapped (stack / 4096) le_rfl (by omega)
    obtain ⟨st, hst, hset⟩ := setArgs_spec hspace hpage
    have hlt₂ : ∀ w ∈ s₂, w < 2 ^ 20 := fun w hw =>
      pagesBetween_lt (List.mem_toFinset.mp (hs₂ ▸ hw))
    have hunion : framesFor m pd (_ ∪ s₂) = _ + framesFor m₁ pd s₂ := framesFor_union
      (fun w hw => ht₁.onDemand w (hlt₂ w hw)) fun w hw => ht₁.noTable _ (by have := hlt₂ w hw; omega)
    have hroom₁ := ht₁.room
    have hframes := hset.same.framesFor ht₁.area.dir hlt₂
    have hfree := congrArg freeFrames hset.same.pmm
    have hdemand : OnDemand st.mem pd (p / 4096) ↔
        OnDemand m pd (p / 4096) ∧ p / 4096 ∉ pagesBetween stack esp := by
      rw [hset.same.onDemand ht₁.area.dir (by omega), ht₁.onDemand _ (by omega), List.mem_toFinset]
    obtain ⟨hbad, hgood⟩ := setInitialParams_spec argv.length stack
      (stack + 4 * (argv.length + 1)) hset.area (by decide) hlo (by decide)
      (by omega : stack ≤ userStackTop) hp.symm hs₂.symm
    rw [hm₁, Option.bind_some, mappedFrame_some hpage, Option.bind_some, Nat.mod_eq_of_lt (by omega), hst,
      Option.bind_some, Nat.mod_eq_of_lt (by omega), hunion]
    by_cases hok : framesFor st.mem pd s₂ ≤ freeFrames st.mem.pmm ∧
        (OnDemand st.mem pd (p / 4096) → p / 4096 ∈ s₂)
    · obtain ⟨m', hrun, hparams, hkept⟩ := hgood hok.1 hok.2
      refine ⟨fun hbad => absurd ⟨by omega, fun hod => ?_⟩ hbad, fun _ => ⟨m', p - 4, hrun, ?_⟩⟩
      · by_cases hin : p / 4096 ∈ pagesBetween stack esp
        · exact .inl hin
        · refine .inr (List.mem_toFinset.mp ?_)
          rw [hs₂]
          exact hok.2 (hdemand.mpr ⟨hod, hin⟩)
      · refine passed_of (by omega) rfl ⟨(stack - 12) / 16, by omega⟩ (by omega) hparams
          (fun j hj => hkept _ _ (by omega) ?_ (hset.pointers j hj))
          fun j hj => hkept _ _ (by omega) ?_ (hset.strings j hj)
        · refine le_trans ?_ (htop.trans (by decide : userStackTop ≤ userStackTop / 4096 * 4096))
          rw [wordBytes_length]
          omega
        · refine le_trans ?_ (htop.trans (by decide : userStackTop ≤ userStackTop / 4096 * 4096))
          have hnext := argOffset_succ hj
          have hmono := argOffset_mono argv envp
            (by omega : j + 1 ≤ argv.length + envp.length + 2)
          omega
    · refine ⟨fun _ => hbad hok, fun hboth => absurd ⟨by omega, fun hod => ?_⟩ hok⟩
      obtain ⟨hod, hnot⟩ := hdemand.mp hod
      rw [← hs₂]
      exact List.mem_toFinset.mpr ((hboth.2 hod).resolve_left hnot)
  · have hle := framesFor_le_union m pd (pagesBetween stack esp).toFinset s₂
    refine ⟨fun _ => ?_, fun hframes => absurd hframes.1 (by omega)⟩
    rw [hnone (by omega)]
    rfl

/-- **Argument passing**: exactly when it works. -/
theorem passesArguments_iff (h : Area m pd (userStackBase / 4096) (userStackTop / 4096))
    (hmul : esp % 4 = 0) (htop : esp ≤ userStackTop) (hfit : userStackBase + argsTotal argv envp ≤ esp)
    (hstored : ∀ e ∈ stored, e < 2 ^ 32) :
    PassesArguments m pd stored esp argv envp ↔
      framesFor m pd (argPages stored esp (esp - argsSize argv envp)) ≤ freeFrames m.pmm ∧
        ParamsMapped m pd stored (esp - argsSize argv envp) := by
  obtain ⟨hfail, hpass⟩ := processSetArgs_spec h hmul htop hfit hstored Iff.rfl
  refine ⟨fun hrun => ?_, hpass⟩
  by_contra hno
  obtain ⟨m', esp', hrun, -⟩ := hrun
  rw [hfail hno] at hrun
  cases hrun

/-- An argument of one character. -/
def shortArgument : CString := ⟨[97], fun h => absurd (List.mem_singleton.mp h) (by decide)⟩

/-- One short argument reaches a new process, also where `proc->cpu_state` is elsewhere. -/
theorem passesArguments_newProcess : ∃ pd m₁ m, createVmmContextArch .empty (.boot 16) = some (pd, m₁) ∧
    processCreateBasicMappings m₁ pd = some m ∧
    PassesArguments m pd (some 0) userStackTop [shortArgument] [] := by
  obtain ⟨pd, m₁, m, hm₁, hm, harea, -, hfree⟩ := newProcess_boot
  have hsize : userStackTop - argsSize [shortArgument] [] = 0xEFFFFFF0 := rfl
  have hcard : (argPages (some 0) userStackTop 0xEFFFFFF0).card = 1 := by decide
  have hle := framesFor_le m pd (argPages (some 0) userStackTop 0xEFFFFFF0)
  refine ⟨pd, m₁, m, hm₁, hm, (passesArguments_iff harea (by decide) le_rfl (by decide)
    fun e he => by cases he; decide).mpr ?_⟩
  rw [hsize]
  exact ⟨by omega, .inl (by decide)⟩

/-- An argument of 4083 characters. -/
def longArgument : CString := ⟨List.replicate 4083 97, fun h => by
  have hzero := (List.mem_replicate.mp h).2
  revert hzero
  decide⟩

theorem longArgument_total : argsTotal [longArgument] [] = 4108 := by
  have hlen : longArgument.1.length = 4083 := List.length_replicate
  simp [argsTotal, CString.bytes, hlen]

theorem longArgument_size : argsSize [longArgument] [] = 4096 := by
  rw [argsSize_eq (by rw [longArgument_total]; decide), longArgument_total]

/-- With one argument of 4083 characters the vectors begin at a page boundary.  The frames are there for
all that is accessed, but the page of the parameters is not accessed. -/
theorem longArgument_fails : ∃ pd m₁ m, createVmmContextArch .empty (.boot 16) = some (pd, m₁) ∧
    processCreateBasicMappings m₁ pd = some m ∧
    userStackBase + argsTotal [longArgument] [] ≤ userStackTop ∧
    framesFor m pd (argPages (some 0) userStackTop (userStackTop - argsSize [longArgument] [])) ≤
      freeFrames m.pmm ∧
    processSetArgs m pd (some 0) userStackTop [longArgument] [] = none := by
  obtain ⟨pd, m₁, m, hm₁, hm, harea, hod, hfree⟩ := newProcess_boot
  have htotal : userStackBase + argsTotal [longArgument] [] ≤ userStackTop := by
    rw [longArgument_total]
    decide
  have hstack : userStackTop - argsSize [longArgument] [] = 0xEFFFF000 := by
    rw [longArgument_size]
    rfl
  have hcard : (argPages (some 0) userStackTop 0xEFFFF000).card = 1 := by decide
  have hle := framesFor_le m pd (argPages (some 0) userStackTop 0xEFFFF000)
  rw [hstack]
  refine ⟨pd, m₁, m, hm₁, hm, htotal, by omega,
    (processSetArgs_spec harea (by decide) le_rfl htotal (fun e he => by cases he; decide) Iff.rfl).1 ?_⟩
  rw [hstack]
  rintro ⟨-, hin | hmapped | hstored⟩
  · exact absurd hin (by decide)
  · exact hmapped (hod _ (by decide) (by decide))
  · exact absurd (hstored 0 rfl).2 (by decide)

end Muxomucota.Tasking
