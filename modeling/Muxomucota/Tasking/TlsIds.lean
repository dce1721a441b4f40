import Muxomucota.Lib.Runs
import Muxomucota.Tasking.Tls

/-!
# Tasking — the IDs in the TLS are the process's

Without `fork` no two pages have a frame in common, so that a write to the TLS of a process shows in
no other address space; in its own it is kept from the TLS of the other threads by where they lie.
What `adopt` writes through the child's pointer lands in the address space of the process that
exits, which is right for the children that live there.

`fork` writes the IDs of the child into a frame that the parent still reads from.
-/

namespace Muxomucota.Tasking
open Lib Mmu

variable {s s' s₁ : Users} {a : UserAct} {p q pid v w : Nat} {c d : User}

/-- Two `struct tls` that do not overlap. -/
def TlsApart (a b : Nat) : Prop := a + tlsSize ≤ b ∨ b + tlsSize ≤ a

/-- A `struct tls` that lies in one page. -/
def InPage (a : Nat) : Prop := a % pageSize + tlsSize ≤ pageSize

/-- **The condition**: nobody forks; the TLS of a new thread lies in one page, apart from those of
the live threads of the address space; who calls `exec` is alone in the address space; and the
children of a process that exits live in its address space, or are zombies whose TLS is not where
another live thread of the address space has one. -/
def TlsStepOk (s : Users) : UserAct → Prop
  | .createThread p _ stackTop => InPage (tlsBelow stackTop) ∧
      ∀ c q d, s.Live p c → s.Live q d → d.vmmc = c.vmmc → TlsApart d.tls (tlsBelow stackTop)
  | .popup _ target _ k _ => ∀ c q d, s.Live target c → s.Live q d → d.vmmc = c.vmmc →
      TlsApart d.tls (tlsBelow (userStackBase + (k + 1) * popupStackSize))
  | .fork _ _ => False
  | .exec p _ => ∀ c q d, s.Live p c → s.Live q d → d.vmmc = c.vmmc → q = p
  | .exit p => ∀ c, s.Live p c → ∀ q ∈ s.running ++ s.zombies, ∀ d, s.procs q = some d →
      d.ppid = p → d.life = .live ∧ d.vmmc = c.vmmc ∨
        d.life ≠ .live ∧ ∀ r e, s.Live r e → r ≠ p → e.vmmc = c.vmmc → TlsApart e.tls d.tls
  | _ => True

/-- **The IDs agree**: every live process reads its own IDs in its TLS. -/
def TlsAgrees (s : Users) : Prop :=
  ∀ p c, s.Live p c →
    s.userLoadWord c.vmmc (c.tls + 4) = some (BitVec.ofNat 32 p) ∧
    s.userLoadWord c.vmmc (c.tls + 8) = some (BitVec.ofNat 32 c.pgid) ∧
    s.userLoadWord c.vmmc (c.tls + 12) = some (BitVec.ofNat 32 c.ppid)

/-! ### Words in memory -/

theorem putWord_apply {b : Nat → BitVec 8} {p x : Nat} {w : BitVec 32} (h : x < p ∨ p + 4 ≤ x) :
    putWord b p w x = b x := by
  unfold putWord
  rw [Ram.setWord_apply, if_neg, if_neg, if_neg, if_neg] <;> omega

theorem wordAt_putWord (b : Nat → BitVec 8) (p : Nat) (w : BitVec 32) :
    Ram.wordAt (putWord b p w) p = w :=
  Ram.word_setWord_self (fun _ => b) 0 p w

theorem wordAt_congr {b b' : Nat → BitVec 8} {p : Nat} (h : ∀ x, p ≤ x → x < p + 4 → b' x = b x) :
    Ram.wordAt b' p = Ram.wordAt b p := by
  unfold Ram.wordAt
  rw [h p (by omega) (by omega), h (p + 1) (by omega) (by omega), h (p + 2) (by omega) (by omega),
    h (p + 3) (by omega) (by omega)]

theorem wordAt_putWord_of_ne {b : Nat → BitVec 8} {p o : Nat} {w : BitVec 32}
    (h : o + 4 ≤ p ∨ p + 4 ≤ o) : Ram.wordAt (putWord b p w) o = Ram.wordAt b o :=
  wordAt_congr fun x hx hx' => putWord_apply (by omega)

/-- The IDs of a process, at the physical address `P`. -/
structure IdsAt (b : Nat → BitVec 8) (P pid : Nat) (c : User) : Prop where
  pid : Ram.wordAt b (P + 4) = BitVec.ofNat 32 pid
  pgid : Ram.wordAt b (P + 8) = BitVec.ofNat 32 c.pgid
  ppid : Ram.wordAt b (P + 12) = BitVec.ofNat 32 c.ppid

theorem putTls_ids (b : Nat → BitVec 8) (P pid : Nat) (c : User) :
    IdsAt (putTls b P c.tls pid c.pgid c.ppid) P pid c where
  pid := by
    rw [putTls, wordAt_putWord_of_ne (by omega), wordAt_putWord_of_ne (by omega), wordAt_putWord]
  pgid := by rw [putTls, wordAt_putWord_of_ne (by omega), wordAt_putWord]
  ppid := by rw [putTls, wordAt_putWord]

theorem putTls_apply {b : Nat → BitVec 8} {P tls pid pgid ppid x : Nat}
    (h : x < P ∨ P + tlsSize ≤ x) : putTls b P tls pid pgid ppid x = b x := by
  unfold tlsSize at h
  unfold putTls
  rw [putWord_apply (by omega), putWord_apply (by omega), putWord_apply (by omega),
    putWord_apply (by omega), putWord_apply (by omega)]

theorem IdsAt.congr {b b' : Nat → BitVec 8} {P : Nat} (h : IdsAt b P pid c)
    (hb : ∀ x, P ≤ x → x < P + tlsSize → b' x = b x) : IdsAt b' P pid c where
  pid := by
    rw [← h.pid]; exact wordAt_congr fun x hx hx' => hb x (by omega) (by unfold tlsSize; omega)
  pgid := by
    rw [← h.pgid]; exact wordAt_congr fun x hx hx' => hb x (by omega) (by unfold tlsSize; omega)
  ppid := by
    rw [← h.ppid]; exact wordAt_congr fun x hx hx' => hb x (by omega) (by unfold tlsSize; omega)

/-! ### Address spaces -/

/-- No page is shared, and the address spaces still to come are empty. -/
structure Private (s : Users) : Prop where
  own : ∀ v n f cow, s.pages v n = .present f cow → cow = false ∧ f < s.nextFrame
  once : ∀ v n w m f cow, s.pages v n = .present f cow → s.pages w m = .present f cow →
    v = w ∧ n = m
  fresh : ∀ v n, s.nextVmmc ≤ v → s.pages v n = .unmapped

/-- All but the memory and some pages that were not yet there is as before. -/
structure Users.Grows (s s' : Users) : Prop where
  procs : s'.procs = s.procs
  running : s'.running = s.running
  zombies : s'.zombies = s.zombies
  vmmc : s'.nextVmmc = s.nextVmmc
  pages : ∀ v n f cow, s.pages v n = .present f cow → s'.pages v n = .present f cow

theorem Users.Grows.refl (s : Users) : s.Grows s := ⟨rfl, rfl, rfl, rfl, fun _ _ _ _ h => h⟩

theorem Users.Grows.trans (h : s.Grows s₁) (h' : s₁.Grows s') : s.Grows s' :=
  ⟨h'.procs.trans h.procs, h'.running.trans h.running, h'.zombies.trans h.zombies,
    h'.vmmc.trans h.vmmc, fun v n f cow hn => h'.pages v n f cow (h.pages v n f cow hn)⟩

theorem Users.Grows.translate {a P : Nat} (h : s.Grows s') (hP : s.translate v a = some P) :
    s'.translate v a = some P := by
  unfold Users.translate at hP ⊢
  split at hP
  case h_1 f cow hf => rw [h.pages _ _ _ _ hf]; exact hP
  case h_2 => cases hP

theorem Users.Grows.live (h : s.Grows s') : s'.Live = s.Live := by
  unfold Users.Live
  rw [h.procs]

/-- Addresses in one page are next to each other in memory as well. -/
theorem translate_add {a k P : Nat} (hP : s.translate v a = some P)
    (hk : a % pageSize + k < pageSize) : s.translate v (a + k) = some (P + k) := by
  have hpage : (a + k) / pageSize = a / pageSize := by unfold pageSize at *; omega
  have hoff : (a + k) % pageSize = a % pageSize + k := by unfold pageSize at *; omega
  unfold Users.translate at hP ⊢
  rw [hpage, hoff]
  split at hP
  case h_1 f cow hf =>
    simp only [Option.some.injEq] at hP ⊢
    omega
  case h_2 => cases hP

theorem load_of_translate {a P : Nat} (hP : s.translate v a = some P)
    (ha : a % pageSize + 4 ≤ pageSize) :
    s.userLoadWord v a = some (Ram.wordAt s.mem P) := by
  simp only [Users.userLoadWord, Users.byteAt, hP, translate_add hP (k := 1) (by omega),
    translate_add hP (k := 2) (by omega), translate_add hP (k := 3) (by omega)]
  rfl

namespace Private

/-- A page that is touched for the first time gets a frame of its own. -/
theorem doLazyMap (h : Private s) (v a : Nat) : Private (s.doLazyMap v a) := by
  unfold Users.doLazyMap
  split
  case h_2 => exact h
  case h_1 hn =>
    have hlt : v < s.nextVmmc := by
      by_contra hv
      rw [h.fresh v _ (by omega)] at hn
      cases hn
    constructor
    · intro w m f cow hf
      by_cases hw : w = v ∧ m = a / pageSize
      · obtain ⟨rfl, rfl⟩ := hw
        simp only [Users.setPage, Function.update_self, Page.present.injEq] at hf
        exact ⟨hf.2.symm, by simp [← hf.1]⟩
      · obtain ⟨hcow, hf⟩ := h.own w m f cow (by
          simp only [Users.setPage, Function.update_apply] at hf
          grind)
        exact ⟨hcow, Nat.lt_succ_of_lt hf⟩
    · intro w m w' m' f cow hf hf'
      have hown := h.own
      have honce := h.once w m w' m' f cow
      simp only [Users.setPage, Function.update_apply] at hf hf'
      grind
    · intro w m hw
      have hw : s.nextVmmc ≤ w := hw
      simp only [Users.setPage, Function.update_of_ne (show w ≠ v by omega)]
      exact h.fresh w m hw

end Private

theorem grows_doLazyMap (s : Users) (v a : Nat) : s.Grows (s.doLazyMap v a) := by
  unfold Users.doLazyMap
  split
  case h_2 => exact .refl s
  case h_1 hn =>
    refine ⟨rfl, rfl, rfl, rfl, fun w m f cow hf => ?_⟩
    simp only [Users.setPage, Function.update_apply]
    grind

@[simp] theorem mem_doLazyMap (s : Users) (v a : Nat) : (s.doLazyMap v a).mem = s.mem := by
  unfold Users.doLazyMap
  split <;> rfl

/-- A write fault gives nobody's frame away. -/
theorem touch_spec {a : Nat} (h : Private s) (ht : s.touch v a = some s') :
    Private s' ∧ s.Grows s' ∧ s'.mem = s.mem := by
  unfold Users.touch at ht
  split at ht
  case h_1 => cases ht
  case h_2 =>
    cases ht
    exact ⟨h.doLazyMap v a, grows_doLazyMap s v a, mem_doLazyMap s v a⟩
  case h_3 => cases ht; exact ⟨h, .refl s, rfl⟩
  case h_4 f hf => cases (h.own _ _ _ _ hf).1

theorem storeByte_spec {a : Nat} {b : BitVec 8} (h : Private s)
    (ht : s.userStoreByte v a b = some s') :
    Private s' ∧ s.Grows s' ∧
      ∃ P, s'.translate v a = some P ∧ s'.mem = Function.update s.mem P b := by
  unfold Users.userStoreByte at ht
  obtain ⟨s₁, h₁, ht⟩ := Option.bind_eq_some_iff.mp ht
  obtain ⟨P, hP, ht⟩ := Option.bind_eq_some_iff.mp ht
  obtain ⟨hpriv, hgrow, hmem⟩ := touch_spec h h₁
  cases ht
  exact ⟨⟨hpriv.own, hpriv.once, hpriv.fresh⟩,
    ⟨hgrow.procs, hgrow.running, hgrow.zombies, hgrow.vmmc, hgrow.pages⟩, P, hP, by rw [← hmem]⟩

/-- A word written through a user pointer, in one page, is a word written to memory. -/
theorem storeWord_spec {a : Nat} {x : BitVec 32} (h : Private s) (ha : a % pageSize + 4 ≤ pageSize)
    (ht : s.userStoreWord v a x = some s') :
    Private s' ∧ s.Grows s' ∧ ∃ P, s'.translate v a = some P ∧ s'.mem = putWord s.mem P x := by
  unfold Users.userStoreWord at ht
  obtain ⟨s₁, h₁, ht⟩ := Option.bind_eq_some_iff.mp ht
  obtain ⟨s₂, h₂, ht⟩ := Option.bind_eq_some_iff.mp ht
  obtain ⟨s₃, h₃, ht⟩ := Option.bind_eq_some_iff.mp ht
  obtain ⟨hp₁, hg₁, P, hP, hm₁⟩ := storeByte_spec h h₁
  obtain ⟨hp₂, hg₂, P₁, hP₁, hm₂⟩ := storeByte_spec hp₁ h₂
  obtain ⟨hp₃, hg₃, P₂, hP₂, hm₃⟩ := storeByte_spec hp₂ h₃
  obtain ⟨hp₄, hg₄, P₃, hP₃, hm₄⟩ := storeByte_spec hp₃ ht
  -- the four bytes are next to each other
  have hfix : s'.translate v a = some P := hg₄.translate (hg₃.translate (hg₂.translate hP))
  have e₁ : P₁ = P + 1 := by
    have := hg₄.translate (hg₃.translate hP₁)
    rw [translate_add hfix (by omega)] at this
    exact (Option.some.inj this).symm
  have e₂ : P₂ = P + 2 := by
    have := hg₄.translate hP₂
    rw [translate_add hfix (by omega)] at this
    exact (Option.some.inj this).symm
  have e₃ : P₃ = P + 3 := by
    rw [translate_add hfix (by omega)] at hP₃
    exact (Option.some.inj hP₃).symm
  refine ⟨hp₄, hg₁.trans (hg₂.trans (hg₃.trans hg₄)), P, hfix, ?_⟩
  funext o
  rw [hm₄, hm₃, hm₂, hm₁, e₁, e₂, e₃, putWord, Ram.setWord_apply]
  simp only [Function.update_apply, true_and]

/-- Two `struct tls` of different address spaces, or apart in one, are apart in memory. -/
theorem phys_apart {a b P Q : Nat} (h : Private s) (ha : InPage a) (hb : InPage b)
    (hP : s.translate v a = some P) (hQ : s.translate w b = some Q) (hne : v = w → TlsApart a b) :
    P + tlsSize ≤ Q ∨ Q + tlsSize ≤ P := by
  unfold Users.translate at hP hQ
  split at hP
  case h_2 => cases hP
  case h_1 f cow hf =>
    split at hQ
    case h_2 => cases hQ
    case h_1 g cow' hg =>
      unfold InPage at ha hb
      unfold TlsApart at hne
      cases hP
      cases hQ
      obtain ⟨rfl, -⟩ := h.own _ _ _ _ hf
      obtain ⟨rfl, -⟩ := h.own _ _ _ _ hg
      by_cases hfg : f = g
      · subst hfg
        obtain ⟨hvw, hpage⟩ := h.once _ _ _ _ _ _ hf hg
        have := hne hvw
        unfold tlsSize pageSize at *
        omega
      · unfold tlsSize pageSize at *
        omega

theorem makeTls_spec (h : Private s) (ht : s.makeTls pid c = some s') :
    Private s' ∧ s.Grows s' ∧ ∃ P, s'.translate c.vmmc c.tls = some P ∧
      s'.mem = putTls s.mem P c.tls pid c.pgid c.ppid := by
  unfold Users.makeTls at ht
  obtain ⟨P, hP, ht⟩ := Option.bind_eq_some_iff.mp ht
  have hpriv := h.doLazyMap c.vmmc c.tls
  have hgrow := grows_doLazyMap s c.vmmc c.tls
  cases ht
  exact ⟨⟨hpriv.own, hpriv.once, hpriv.fresh⟩,
    ⟨hgrow.procs, hgrow.running, hgrow.zombies, hgrow.vmmc, hgrow.pages⟩, P, hP, by simp⟩

/-! ### The invariant -/

/-- Every live process has its IDs in a `struct tls` of its own; `out` is one that is on its way out
or in. -/
structure TlsInv (out : Option Nat) (s : Users) : Prop where
  priv : Private s
  vmmcLt : ∀ q d, s.procs q = some d → d.vmmc < s.nextVmmc
  inPage : ∀ q d, s.procs q = some d → InPage d.tls
  apart : ∀ p q c d, s.Live p c → s.Live q d → p ≠ q → c.vmmc = d.vmmc → TlsApart c.tls d.tls
  ids : ∀ q d, s.Live q d → some q ≠ out →
    ∃ P, s.translate d.vmmc d.tls = some P ∧ IdsAt s.mem P q d

theorem tlsInv_init : TlsInv none .init where
  priv := ⟨fun _ _ _ _ h => (by cases h), fun _ _ _ _ _ _ h => (by cases h), fun _ _ _ => rfl⟩
  vmmcLt _ _ h := by cases h
  inPage _ _ h := by cases h
  apart _ _ _ _ h := by cases h.1
  ids _ _ h := by cases h.1

namespace TlsInv

variable {out : Option Nat}

/-- What the invariant is for. -/
theorem agrees (h : TlsInv none s) : TlsAgrees s := by
  intro p c hc
  obtain ⟨P, hP, hids⟩ := h.ids p c hc (by simp)
  have hin := h.inPage p c hc.1
  have hload : ∀ k, k ≤ 12 →
      s.userLoadWord c.vmmc (c.tls + k) = some (Ram.wordAt s.mem (P + k)) := by
    intro k hk
    unfold InPage tlsSize at hin
    exact load_of_translate (translate_add hP (by omega)) (by unfold pageSize at *; omega)
  rw [hload 4 (by omega), hload 8 (by omega), hload 12 (by omega), hids.pid, hids.pgid, hids.ppid]
  exact ⟨rfl, rfl, rfl⟩

/-- The lists do not matter. -/
theorem lists (h : TlsInv out s) (running zombies : List Nat) :
    TlsInv out { s with running := running, zombies := zombies } where
  priv := ⟨h.priv.own, h.priv.once, h.priv.fresh⟩
  vmmcLt := h.vmmcLt
  inPage := h.inPage
  apart := h.apart
  ids := h.ids

theorem exempt (h : TlsInv none s) (p : Nat) : TlsInv (some p) s where
  priv := h.priv
  vmmcLt := h.vmmcLt
  inPage := h.inPage
  apart := h.apart
  ids q d hd _ := h.ids q d hd (by simp)

/-- What is written to one `struct tls` shows in no other. -/
theorem kept {b Q : Nat} (h : TlsInv out s) (hpriv : Private s₁) (hgrow : s.Grows s₁)
    (hQ : s₁.translate v b = some Q) (hb : InPage b)
    (hmem : ∀ x, x < Q ∨ Q + tlsSize ≤ x → s₁.mem x = s.mem x) (hd : s.Live q d)
    (hout : some q ≠ out) (hne : d.vmmc = v → TlsApart d.tls b) :
    ∃ P, s₁.translate d.vmmc d.tls = some P ∧ IdsAt s₁.mem P q d := by
  obtain ⟨P, hP, hids⟩ := h.ids q d hd hout
  have hP := hgrow.translate hP
  have hfar := phys_apart hpriv (h.inPage q d hd.1) hb hP hQ hne
  exact ⟨P, hP, hids.congr fun x hx hx' => hmem x (by omega)⟩

/-- Touching a page changes no IDs. -/
theorem grow (h : TlsInv out s) (hpriv : Private s') (hgrow : s.Grows s') (hmem : s'.mem = s.mem) :
    TlsInv out s' where
  priv := hpriv
  vmmcLt q d hd := by rw [hgrow.vmmc]; exact h.vmmcLt q d (hgrow.procs ▸ hd)
  inPage q d hd := h.inPage q d (hgrow.procs ▸ hd)
  apart p q c d hc hd := by
    rw [hgrow.live] at hc hd
    exact h.apart p q c d hc hd
  ids q d hd hout := by
    rw [hgrow.live] at hd
    obtain ⟨P, hP, hids⟩ := h.ids q d hd hout
    exact ⟨P, hgrow.translate hP, hmem ▸ hids⟩

/-- A process gets its `struct tls`, where no other live process has one. -/
theorem settle (h : TlsInv (some pid) s) (hv : c.vmmc < s.nextVmmc) (hin : InPage c.tls)
    (hap : ∀ q d, s.Live q d → q ≠ pid → d.vmmc = c.vmmc → TlsApart d.tls c.tls)
    (ht : s.makeTls pid c = some s₁) : TlsInv none (s₁.setProc pid (some c)) := by
  obtain ⟨hpriv, hgrow, Q, hQ, hmem⟩ := makeTls_spec h.priv ht
  have hprocs : ∀ q d, (s₁.setProc pid (some c)).procs q = some d →
      q = pid ∧ d = c ∨ q ≠ pid ∧ s.procs q = some d := by
    intro q d hd
    by_cases hq : q = pid
    · subst hq
      simp only [Users.setProc, Function.update_self, Option.some.injEq] at hd
      exact .inl ⟨rfl, hd.symm⟩
    · simp only [Users.setProc, Function.update_of_ne hq, hgrow.procs] at hd
      exact .inr ⟨hq, hd⟩
  refine ⟨⟨hpriv.own, hpriv.once, hpriv.fresh⟩, ?_, ?_, ?_, ?_⟩
  · intro q d hd
    show d.vmmc < s₁.nextVmmc
    rw [hgrow.vmmc]
    rcases hprocs q d hd with ⟨rfl, rfl⟩ | ⟨-, hd⟩
    · exact hv
    · exact h.vmmcLt q d hd
  · intro q d hd
    rcases hprocs q d hd with ⟨rfl, rfl⟩ | ⟨-, hd⟩
    · exact hin
    · exact h.inPage q d hd
  · intro p q e d he hd hne hsp
    rcases hprocs p e he.1 with ⟨rfl, rfl⟩ | ⟨hp, he'⟩ <;>
      rcases hprocs q d hd.1 with ⟨rfl, rfl⟩ | ⟨hq, hd'⟩
    · exact absurd rfl hne
    · exact (hap q d ⟨hd', hd.2⟩ hq hsp.symm).symm
    · exact hap p e ⟨he', he.2⟩ hp hsp
    · exact h.apart p q e d ⟨he', he.2⟩ ⟨hd', hd.2⟩ hne hsp
  · intro q d hd _
    rcases hprocs q d hd.1 with ⟨rfl, rfl⟩ | ⟨hq, hd'⟩
    · exact ⟨Q, hQ, hmem ▸ putTls_ids _ _ _ _⟩
    · have hmem' : ∀ x, x < Q ∨ Q + tlsSize ≤ x → s₁.mem x = s.mem x := fun x hx => by
        rw [hmem, putTls_apply hx]
      have hkept := h.kept hpriv hgrow hQ hin hmem' ⟨hd', hd.2⟩ (by simpa using hq)
        (hap q d ⟨hd', hd.2⟩ hq)
      exact hkept

/-- A process leaves. -/
theorem leave (h : TlsInv (some p) s) {c' : Option User}
    (hc : ∀ d, c' = some d → d.life ≠ .live ∧ ∃ c, s.procs p = some c ∧ d.vmmc = c.vmmc ∧
      d.tls = c.tls) : TlsInv none (s.setProc p c') := by
  have hprocs : ∀ q d, (s.setProc p c').procs q = some d →
      (q ≠ p ∨ d.life ≠ .live) ∧ ∃ c, s.procs q = some c ∧ d.vmmc = c.vmmc ∧ d.tls = c.tls ∧
        (q ≠ p → d = c) := by
    intro q d hd
    by_cases hq : q = p
    · subst hq
      simp only [Users.setProc, Function.update_self] at hd
      obtain ⟨hlife, c, hc, hv, ht⟩ := hc d hd
      exact ⟨.inr hlife, c, hc, hv, ht, fun h => absurd rfl h⟩
    · simp only [Users.setProc, Function.update_of_ne hq] at hd
      exact ⟨.inl hq, d, hd, rfl, rfl, fun _ => rfl⟩
  have hlive : ∀ q d, (s.setProc p c').Live q d → s.Live q d ∧ q ≠ p := by
    intro q d hd
    obtain ⟨hq, c, hc, -, -, heq⟩ := hprocs q d hd.1
    rcases hq with hq | hq
    · exact ⟨⟨heq hq ▸ hc, hd.2⟩, hq⟩
    · exact absurd hd.2 hq
  refine ⟨⟨h.priv.own, h.priv.once, h.priv.fresh⟩, ?_, ?_, ?_, ?_⟩
  · intro q d hd
    obtain ⟨-, c, hc, hv, -⟩ := hprocs q d hd
    exact hv ▸ h.vmmcLt q c hc
  · intro q d hd
    obtain ⟨-, c, hc, -, ht, -⟩ := hprocs q d hd
    exact ht ▸ h.inPage q c hc
  · intro p q e d he hd
    exact h.apart p q e d (hlive p e he).1 (hlive q d hd).1
  · intro q d hd _
    exact h.ids q d (hlive q d hd).1 (by simpa using (hlive q d hd).2)

/-- `adopt` writes the new PPID where the child reads it, or where no live process has its TLS. -/
theorem adopt (h : TlsInv (some p) s) (hd : s.procs q = some d) {ppid : Nat}
    (hc : d.life = .live ∧ d.vmmc = v ∨
      d.life ≠ .live ∧ ∀ r e, s.Live r e → r ≠ p → e.vmmc = v → TlsApart e.tls d.tls)
    (ht : s.adopt v ppid q d = some s') :
    TlsInv (some p) s' ∧ s'.procs = Function.update s.procs q (some { d with ppid := ppid }) := by
  have hin := h.inPage q d hd
  unfold InPage tlsSize pageSize at hin
  have hpage : (d.tls + 12) % pageSize = d.tls % pageSize + 12 ∧
      (d.tls + 12) / pageSize = d.tls / pageSize := by unfold pageSize; omega
  obtain ⟨hpriv, hgrow, R, hR, hmem⟩ := storeWord_spec
    (s := s.setProc q (some { d with ppid := ppid })) ⟨h.priv.own, h.priv.once, h.priv.fresh⟩
    (by rw [hpage.1]; unfold pageSize; omega) ht
  -- the whole `struct tls` is in the page that was written to
  obtain ⟨Q, hQ⟩ : ∃ Q, s'.translate v d.tls = some Q := by
    unfold Users.translate at hR ⊢
    rw [hpage.2] at hR
    split at hR
    · exact ⟨_, rfl⟩
    · cases hR
  obtain rfl : R = Q + 12 := by
    rw [translate_add hQ (by unfold pageSize; omega)] at hR
    exact (Option.some.inj hR).symm
  have hprocs : s'.procs = Function.update s.procs q (some { d with ppid := ppid }) := hgrow.procs
  have hother : ∀ r e, r ≠ q → s'.Live r e → s.Live r e := by
    intro r e hr he
    refine ⟨?_, he.2⟩
    have := he.1
    rwa [hprocs, Function.update_of_ne hr] at this
  have hself : ∀ e, s'.Live q e → e = { d with ppid := ppid } ∧ s.Live q d := by
    intro e he
    have he' := he.1
    rw [hprocs, Function.update_self, Option.some.injEq] at he'
    subst he'
    exact ⟨rfl, hd, he.2⟩
  have happly : ∀ r e, s'.Live r e → ∃ e', s.Live r e' ∧ e.vmmc = e'.vmmc ∧ e.tls = e'.tls := by
    intro r e he
    by_cases hr : r = q
    · subst hr
      obtain ⟨rfl, hlive⟩ := hself e he
      exact ⟨d, hlive, rfl, rfl⟩
    · exact ⟨e, hother r e hr he, rfl, rfl⟩
  have hout : ∀ x, x < Q ∨ Q + tlsSize ≤ x → s'.mem x = s.mem x := by
    intro x hx
    rw [hmem, putWord_apply (by unfold tlsSize at hx; omega)]
    rfl
  have hgrow' : ∀ {a P : Nat} {u : Nat}, s.translate u a = some P → s'.translate u a = some P :=
    fun hP => hgrow.translate hP
  refine ⟨⟨hpriv, ?_, ?_, ?_, ?_⟩, hprocs⟩
  · intro r e he
    rw [hgrow.vmmc]
    show e.vmmc < s.nextVmmc
    rw [hprocs, Function.update_apply] at he
    split at he
    · cases he; exact h.vmmcLt q d hd
    · exact h.vmmcLt r e he
  · intro r e he
    rw [hprocs, Function.update_apply] at he
    split at he
    · cases he; exact h.inPage q d hd
    · exact h.inPage r e he
  · intro r r' e e' he he' hne hsp
    obtain ⟨f, hf, hv, ht⟩ := happly r e he
    obtain ⟨f', hf', hv', ht'⟩ := happly r' e' he'
    rw [ht, ht']
    exact h.apart r r' f f' hf hf' hne (hv ▸ hv' ▸ hsp)
  · intro r e he hr
    by_cases hrq : r = q
    · subst hrq
      obtain ⟨rfl, hlive⟩ := hself e he
      obtain ⟨P, hP, hids⟩ := h.ids r d hlive hr
      rcases hc with ⟨-, hv⟩ | ⟨hdead, -⟩
      · obtain rfl : P = Q := by
          have hP := hgrow' hP
          rw [hv] at hP
          exact Option.some.inj (hP.symm.trans hQ)
        refine ⟨P, hv ▸ hQ, ?_, ?_, ?_⟩
        · rw [hmem, wordAt_putWord_of_ne (by omega)]; exact hids.pid
        · rw [hmem, wordAt_putWord_of_ne (by omega)]; exact hids.pgid
        · rw [hmem, wordAt_putWord]
      · exact absurd hlive.2 hdead
    · have he := hother r e hrq he
      obtain ⟨P, hP, hids⟩ := h.ids r e he hr
      have hfar := phys_apart hpriv (h.inPage r e he.1) (h.inPage q d hd) (hgrow' hP) hQ
        fun hv => by
          rcases hc with ⟨hlive, hv'⟩ | ⟨-, hap⟩
          · exact h.apart r q e d he ⟨hd, hlive⟩ hrq (hv.trans hv'.symm)
          · exact hap r e he (by simpa using hr) hv
      exact ⟨P, hgrow' hP, hids.congr fun x hx hx' => hout x (by omega)⟩

end TlsInv

/-- What the loop of `adopt_orphans` makes of `s`: the same processes, some with another parent. -/
structure Adopted (p : Nat) (s t : Users) : Prop where
  inv : TlsInv (some p) t
  same : ∀ q d', t.procs q = some d' → ∃ d, s.procs q = some d ∧ d'.vmmc = d.vmmc ∧
    d'.tls = d.tls ∧ d'.life = d.life ∧ (d'.ppid = p → d.ppid = p)
  kept : ∀ q, (s.procs q).isSome = true → (t.procs q).isSome = true

/-- The children of a process get another parent. -/
theorem TlsInv.adoptOrphans (h : TlsInv none s) (hc : s.Live p c) (hok : TlsStepOk s (.exit p))
    (ht : s.adoptOrphans p c = some s') : Adopted p s s' := by
  refine foldlM_invariant (P := Adopted p s) ht
    ⟨h.exempt p, fun q d hd => ⟨d, hd, rfl, rfl, rfl, id⟩, fun _ => id⟩ ?_
  rintro q hq t t' ⟨hinv, hsame, hkept⟩ hstep
  split at hstep
  case h_1 => cases hstep; exact ⟨hinv, hsame, hkept⟩
  case h_2 d' hd' =>
    split at hstep
    case isFalse => cases hstep; exact ⟨hinv, hsame, hkept⟩
    case isTrue hppid =>
      obtain ⟨d, hd, hv, htls, hlife, hp⟩ := hsame q d' hd'
      have hplace : d'.life = .live ∧ d'.vmmc = c.vmmc ∨ d'.life ≠ .live ∧
          ∀ r e, t.Live r e → r ≠ p → e.vmmc = c.vmmc → TlsApart e.tls d'.tls := by
        rw [hlife, hv, htls]
        refine (hok c hc q hq d hd (hp hppid)).imp id fun ⟨hdead, hap⟩ => ⟨hdead, ?_⟩
        intro r e he hr hsp
        obtain ⟨f, hf, hfv, hft, hfl, -⟩ := hsame r e he.1
        rw [hft]
        exact hap r f ⟨hf, hfl ▸ he.2⟩ hr (hfv ▸ hsp)
      obtain ⟨hinv', hprocs⟩ := hinv.adopt hd' hplace hstep
      refine ⟨hinv', fun r e he => ?_, fun r hr => ?_⟩
      · rw [hprocs, Function.update_apply] at he
        split at he
        case isTrue hrq =>
          cases he
          exact ⟨d, hrq ▸ hd, hv, htls, hlife, fun _ => hp hppid⟩
        case isFalse => exact hsame r e he
      · rw [hprocs, Function.update_apply]
        split
        · rfl
        · exact hkept r hr

theorem current_eq (h : s.current p = some c) : s.Live p c := by
  obtain ⟨hp, hlife⟩ := Option.filter_eq_some_iff.mp h
  exact ⟨hp, by simpa using hlife⟩

theorem basicMappings_ne (image : Nat → Bool) (n f : Nat) (cow : Bool) :
    Users.basicMappings image n ≠ .present f cow := by
  unfold Users.basicMappings
  split_ifs <;> simp

namespace TlsInv

/-- An address space is made new, keeping at most pages that it has; who lives there does not
count. -/
theorem remap {out : Option Nat} {m : Nat → Page} {k : Nat} (h : TlsInv none s)
    (hm : ∀ n f cow, m n = .present f cow → s.pages v n = .present f cow) (hv : v < k)
    (hk : s.nextVmmc ≤ k) (hout : ∀ q d, s.Live q d → d.vmmc = v → some q = out) :
    TlsInv out { s with pages := Function.update s.pages v m, nextVmmc := k } := by
  have hpage : ∀ w n f cow, Function.update s.pages v m w n = .present f cow →
      s.pages w n = .present f cow := by
    intro w n f cow hf
    by_cases hw : w = v
    · subst hw; exact hm n f cow (by simpa using hf)
    · rwa [Function.update_of_ne hw] at hf
  refine ⟨⟨?_, ?_, ?_⟩, ?_, h.inPage, h.apart, ?_⟩
  · exact fun w n f cow hf => h.priv.own w n f cow (hpage w n f cow hf)
  · exact fun w n w' n' f cow hf hf' =>
      h.priv.once w n w' n' f cow (hpage w n f cow hf) (hpage w' n' f cow hf')
  · intro w n hw
    have hw : k ≤ w := hw
    simp only [Function.update_of_ne (show w ≠ v by omega)]
    exact h.priv.fresh w n (by omega)
  · exact fun q d hd => (h.vmmcLt q d hd).trans_le hk
  · intro q d hd hq
    obtain ⟨P, hP, hids⟩ := h.ids q d hd (by simp)
    refine ⟨P, ?_, hids⟩
    have hw : d.vmmc ≠ v := fun hw => hq (hout q d hd hw)
    unfold Users.translate at hP ⊢
    simpa only [Function.update_of_ne hw] using hP

/-- A new process joins the run queue. -/
theorem join {t : Users} (h : TlsInv none s) (hv : c.vmmc < s.nextVmmc) (hin : InPage c.tls)
    (hap : ∀ q d, s.Live q d → d.vmmc = c.vmmc → TlsApart d.tls c.tls)
    (ht : s.makeTls pid c = some t) : TlsInv none (t.register pid c) :=
  ((h.exempt pid).settle hv hin (fun q d hd _ => hap q d hd) ht).lists _ _

theorem inPage_stackTop : InPage (tlsBelow userStackTop) := by unfold InPage; decide

theorem createProcess {image : Nat → Bool} (h : TlsInv none s)
    (ht : s.createProcess pid image = some s') : TlsInv none s' := by
  unfold Users.createProcess at ht
  split at ht
  case isTrue => cases ht
  case isFalse =>
    obtain ⟨t, hmake, ht⟩ := Option.bind_eq_some_iff.mp ht
    cases ht
    have hspace : ∀ q d, s.Live q d → d.vmmc = s.nextVmmc → some q = none := fun q d hd hv =>
      absurd (h.vmmcLt q d hd.1) (by omega)
    have hnew := h.remap (v := s.nextVmmc) (m := Users.basicMappings image) (k := s.nextVmmc + 1)
      (fun n f cow hf => absurd hf (basicMappings_ne image n f cow)) (by omega) (by omega) hspace
    exact hnew.join (Nat.lt_succ_self _) inPage_stackTop
      (fun q d hd hv => by cases hspace q d hd hv) hmake

theorem createThread {stackTop : Nat} (h : TlsInv none s) (hc : s.Live p c)
    (hok : TlsStepOk s (.createThread p pid stackTop))
    (ht : s.createUserThread c pid stackTop = some s') : TlsInv none s' := by
  unfold Users.createUserThread at ht
  split at ht
  case isTrue => cases ht
  case isFalse =>
    obtain ⟨t, hmake, ht⟩ := Option.bind_eq_some_iff.mp ht
    cases ht
    exact h.join (h.vmmcLt p c hc.1) hok.1 (fun q d hd => hok.2 c q d hc hd) hmake

/-- A popup stack ends at the end of a page. -/
theorem inPage_popup (k : Nat) :
    InPage (tlsBelow (userStackBase + (k + 1) * popupStackSize)) := by
  unfold InPage tlsBelow tlsSize pageSize userStackBase popupStackSize
  omega

theorem popup {currentPid k : Nat} {zombify : Bool} (h : TlsInv none s) (hc : s.Live p c)
    (hok : TlsStepOk s (.popup currentPid p pid k zombify))
    (ht : s.popup currentPid c pid k zombify = some s') : TlsInv none s' := by
  unfold Users.popup at ht
  split at ht
  case isTrue => cases ht
  case isFalse =>
    obtain ⟨t, hmake, ht⟩ := Option.bind_eq_some_iff.mp ht
    cases ht
    exact h.join (h.vmmcLt p c hc.1) (inPage_popup k) (fun q d hd => hok c q d hc hd) hmake

theorem exec {image : Nat → Bool} (h : TlsInv none s) (hc : s.Live p c)
    (hok : TlsStepOk s (.exec p image)) (ht : s.exec p c image = some s') : TlsInv none s' := by
  unfold Users.exec at ht
  obtain ⟨t, hmake, ht⟩ := Option.bind_eq_some_iff.mp ht
  cases ht
  have halone : ∀ q d, s.Live q d → d.vmmc = c.vmmc → some q = some p := fun q d hd hv => by
    rw [hok c q d hc hd hv]
  have hnew := h.remap (v := c.vmmc) (k := s.nextVmmc) (m := fun n =>
    if userHeritageBase / pageSize ≤ n ∧ n < userHeritageTop / pageSize then s.pages c.vmmc n
    else Users.basicMappings image n)
    (fun n f cow hf => by
      split at hf
      · exact hf
      · exact absurd hf (basicMappings_ne image n f cow))
    (h.vmmcLt p c hc.1) (Nat.le_refl _) halone
  refine hnew.settle (h.vmmcLt p c hc.1) inPage_stackTop (fun q d hd hq hv => ?_) hmake
  exact absurd (Option.some.inj (halone q d hd hv)) hq

theorem exit (h : TlsInv none s) (hc : s.Live p c) (hok : TlsStepOk s (.exit p))
    (ht : s.exit p c = some s') : TlsInv none s' := by
  unfold Users.exit at ht
  obtain ⟨t, hadopt, ht⟩ := Option.bind_eq_some_iff.mp ht
  obtain ⟨c', hc', ht⟩ := Option.bind_eq_some_iff.mp ht
  have hinv := (h.adoptOrphans hc hok hadopt).inv
  split at ht
  case isTrue =>
    cases ht
    exact (hinv.leave (fun d hd => by cases hd; exact ⟨by simp, c', hc', rfl, rfl⟩)).lists _ _
  case isFalse =>
    cases ht
    exact (hinv.leave (fun d hd => by cases hd; exact ⟨by simp, c', hc', rfl, rfl⟩)).lists _ _

/-- **The invariant is kept** by every step that meets the condition. -/
theorem step (h : TlsInv none s) (hok : TlsStepOk s a) (hs : userStep s a = some s') :
    TlsInv none s' := by
  cases a with
  | createProcess pid image => exact h.createProcess hs
  | createThread p pid stackTop =>
      obtain ⟨c, hc, hs⟩ := Option.bind_eq_some_iff.mp hs
      exact h.createThread (current_eq hc) hok hs
  | popup p target pid k zombify =>
      obtain ⟨-, -, hs⟩ := Option.bind_eq_some_iff.mp hs
      obtain ⟨proc, hproc, hs⟩ := Option.bind_eq_some_iff.mp hs
      exact h.popup (current_eq hproc) hok hs
  | fork p pid => exact hok.elim
  | exec p image =>
      obtain ⟨c, hc, hs⟩ := Option.bind_eq_some_iff.mp hs
      exact h.exec (current_eq hc) hok hs
  | exit p =>
      obtain ⟨c, hc, hs⟩ := Option.bind_eq_some_iff.mp hs
      exact h.exit (current_eq hc) hok hs
  | destroy p =>
      obtain ⟨c, hc, hs⟩ := Option.bind_eq_some_iff.mp hs
      split at hs
      · cases hs
      · cases hs
        exact ((h.exempt p).leave (fun d hd => by cases hd)).lists _ _
  | touch p a =>
      obtain ⟨c, hc, hs⟩ := Option.bind_eq_some_iff.mp hs
      obtain ⟨hpriv, hgrow, hmem⟩ := touch_spec h.priv hs
      exact h.grow hpriv hgrow hmem

end TlsInv

/-- **The IDs agree in every run** whose steps meet the condition. -/
theorem tls_ids_agree {as : List UserAct} (h : Run userStep TlsStepOk .init as s) : TlsAgrees s :=
  (h.invariant (fun _ _ _ hinv hok hs => hinv.step hok hs) tlsInv_init).agrees

/-- A process, a thread on a stack of its own, and the process exits first. -/
theorem tls_ids_agree_thread : ∃ s,
    Run userStep TlsStepOk .init
      [.createProcess 1 (fun _ => false), .createThread 1 2 0xEFFF0000, .exit 1] s ∧
    (s.procs 2).isSome = true ∧ TlsAgrees s := by
  obtain ⟨s, hrun, hsome⟩ : ∃ s, Run userStep TlsStepOk .init
      [.createProcess 1 (fun _ => false), .createThread 1 2 0xEFFF0000, .exit 1] s ∧
      (s.procs 2).isSome = true := by
    refine ⟨_, .more trivial rfl (.more ?_ rfl (.more ?_ rfl (.refl _))), rfl⟩
    · refine ⟨by unfold InPage; decide, ?_⟩
      rintro c q d ⟨hc, -⟩ ⟨hd, -⟩ -
      have hq : q = 1 := by
        by_contra hq
        have hd : Function.update (fun _ => none) 1 _ q = some d := hd
        rw [Function.update_of_ne hq] at hd
        cases hd
      subst hq
      cases hd
      unfold TlsApart
      decide
    · rintro c ⟨hc, -⟩ q hq d hd hp
      have hq : q ∈ [2, 1] := hq
      cases hc
      rcases List.mem_pair.mp hq with rfl | rfl
      · cases hd
        exact .inl ⟨rfl, rfl⟩
      · cases hd
        cases hp
  exact ⟨s, hrun, hsome, tls_ids_agree hrun⟩

/-- `fork` writes the child's PID to where the parent reads its own. -/
theorem fork_shows_the_child {P : Nat} (hv : c.vmmc < s.nextVmmc) (hin : InPage c.tls)
    (hP : s.translate c.vmmc c.tls = some P) (ht : s.fork p c pid = some s') :
    s'.userLoadWord c.vmmc (c.tls + 4) = some (BitVec.ofNat 32 pid) := by
  unfold Users.fork at ht
  split at ht
  case isTrue => cases ht
  case isFalse =>
    dsimp only at ht
    generalize ht₀ : Users.doLazyMap _ _ _ = t at ht
    obtain ⟨Q, hQ, ht⟩ := Option.bind_eq_some_iff.mp ht
    cases ht
    -- both address spaces have the frame that the parent had
    unfold Users.translate at hP
    split at hP
    case h_2 => cases hP
    case h_1 f cow hf =>
      cases hP
      have hchild : Users.sharePage (s.pages c.vmmc (c.tls / pageSize)) = .present f true := by
        rw [hf]; rfl
      have hpages : t.pages c.vmmc (c.tls / pageSize) = .present f true ∧
          t.pages s.nextVmmc (c.tls / pageSize) = .present f true := by
        rw [← ht₀]
        unfold Users.doLazyMap
        have hne : c.vmmc ≠ s.nextVmmc := by omega
        simp only [Function.update_self, hchild, Function.update_of_ne hne, and_self]
      unfold Users.translate at hQ
      rw [hpages.2] at hQ
      cases hQ
      unfold InPage tlsSize at hin
      have hload : ∀ u : Users, u.pages = t.pages → u.userLoadWord c.vmmc (c.tls + 4) =
          some (Ram.wordAt u.mem (f * pageSize + c.tls % pageSize + 4)) := by
        intro u hu
        have hself : u.translate c.vmmc c.tls = some (f * pageSize + c.tls % pageSize) := by
          unfold Users.translate
          rw [hu, hpages.1]
        exact load_of_translate (translate_add hself (by omega)) (by unfold pageSize at *; omega)
      refine (hload _ ?_).trans (congrArg some ?_)
      · rfl
      · show Ram.wordAt (putWord (putWord (putWord t.mem _ _) _ _) _ _) _ = _
        rw [wordAt_putWord_of_ne (by omega), wordAt_putWord_of_ne (by omega), wordAt_putWord]

/-- **No fork leaves the IDs right**: the parent has its child's. -/
theorem fork_breaks (h : TlsInv none s) (hc : s.Live p c) (ht : s.fork p c pid = some s')
    (hne : BitVec.ofNat 32 p ≠ BitVec.ofNat 32 pid) : ¬ TlsAgrees s' := by
  intro hall
  obtain ⟨P, hP, -⟩ := h.ids p c hc (by simp)
  have hload := fork_shows_the_child (h.vmmcLt p c hc.1) (h.inPage p c hc.1) hP ht
  have hlive : s'.Live p c := by
    unfold Users.fork at ht
    split at ht
    case isTrue => cases ht
    case isFalse hpid =>
      dsimp only at ht
      obtain ⟨Q, hQ, ht⟩ := Option.bind_eq_some_iff.mp ht
      cases ht
      have hp : p ≠ pid := fun hp => hne (by rw [hp])
      refine ⟨?_, hc.2⟩
      simpa only [Users.register, Users.setProc, Function.update_of_ne hp,
        (grows_doLazyMap _ _ _).procs] using hc.1
  rw [(hall p c hlive).1] at hload
  exact hne (Option.some.inj hload)

/-- The parent of a fork reads its child's PID. -/
theorem fork_overwrites_the_parent :
    ¬ ∀ as s, Run userStep anyStep .init as s → TlsAgrees s := by
  intro hall
  obtain ⟨s, hrun, c, hc, hload⟩ : ∃ s, Run userStep anyStep .init
      [.createProcess 1 (fun _ => false), .fork 1 2] s ∧ ∃ c, s.Live 1 c ∧
      s.userLoadWord c.vmmc (c.tls + 4) = some 2 :=
    ⟨_, .more trivial rfl (.more trivial rfl (.refl _)), _, ⟨rfl, rfl⟩, rfl⟩
  have hself := (hall _ _ hrun 1 c hc).1
  rw [hload] at hself
  cases hself

end Muxomucota.Tasking
