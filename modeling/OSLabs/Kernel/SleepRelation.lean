/-
  What the processes in sleep and wakeup are in the monitor.

  `Refines φ α` says that the state `φ` of the machine is the state `α` of the monitor.
  A process falls asleep in the monitor when it acquires its own lock in sleep.  It is
  woken up there when the wakeup starts: until the wakeup has reached the process, it
  holds the lock of the monitor, so no process can tell.

  The lemmas say what becomes of this for each kind of step: one that the monitor does
  not see, one of the monitor's code, and the start and the end of a wakeup.
-/
import OSLabs.Kernel.SleepLocks

namespace OSLabs.Sleep

open LockMachine

variable {n : ℕ} {S K P C : Type} [DecidableEq K] {B : Client n S K P}
  {t w x : Fin n} {q q' : Point B} {m m' : Mem n S K} {l : Lock n} {k : K} {st st' : Status}
  {α α' : MState n S K P} {φ φ' : SState B C}

/-! ## What a process is in the monitor -/

/-- The point of the monitor at a place. -/
def Place.pc : Place B → P
  | .client q => q
  | .reacquire q _ => q
  | .kill q _ _ _ => q

/-- The process has given up the lock in sleep. -/
def Place.behind : Place B → Bool
  | .reacquire _ _ => true
  | _ => false

namespace Point

def pc : Point B → P
  | .place f => f.pc
  | .forkret q _ => q
  | .wakeup _ q _ _ => q
  | .wakeupCheck _ q _ _ => q
  | .wakeupRelease _ q _ _ => q
  | .sleepRelease _ q _ => q
  | .sleepChan _ q _ => q
  | .sleepState _ q _ => q
  | .sleepSched _ q _ => q
  | .sleepWoken _ q _ => q
  | .sleepUnlock q _ => q
  | .killCheck q _ _ _ => q
  | .killRelease q _ _ _ _ => q
  | .yield f _ => f.pc
  | .yieldState f _ => f.pc
  | .yieldSched f _ => f.pc
  | .yieldRelease f _ => f.pc

def behind : Point B → Bool
  | .place f => f.behind
  | .sleepRelease _ _ _ => true
  | .sleepChan _ _ _ => true
  | .sleepState _ _ _ => true
  | .sleepSched _ _ _ => true
  | .sleepWoken _ _ _ => true
  | .sleepUnlock _ _ => true
  | .yield f _ => f.behind
  | .yieldState f _ => f.behind
  | .yieldSched f _ => f.behind
  | .yieldRelease f _ => f.behind
  | _ => false

/-- The process is about to sleep on a channel, or sleeps there. -/
def dozes (k : K) (st : Status) : Point B → Prop
  | .sleepRelease k' _ _ => k' = k
  | .sleepChan k' _ _ => k' = k
  | .sleepState k' _ _ => k' = k
  | .sleepSched k' _ _ => k' = k ∧ st = .sleeping
  | .sleepWoken k' _ _ => k' = k ∧ st = .sleeping
  | _ => False

/-- The process is in wakeup, on a channel. -/
def wakes (k : K) : Point B → Prop
  | .wakeup k' _ _ _ => k' = k
  | .wakeupCheck k' _ _ _ => k' = k
  | .wakeupRelease k' _ _ _ => k' = k
  | _ => False

/-- The wakeup has still to look at the process `x`. -/
def ahead (x : Fin n) : Point B → Prop
  | .wakeup _ _ _ i => i ≤ x
  | .wakeupCheck _ _ _ y => y ≤ x
  | .wakeupRelease _ _ _ y => y < x
  | _ => False

/-- The channel on which the process sleeps at a point, if its state says so. -/
def sleeps : Point B → Option K
  | .sleepSched k _ _ => some k
  | .sleepWoken k _ _ => some k
  | _ => none

/-- The channel that is set at a point. -/
def onChan : Point B → Option K
  | .sleepState k _ _ => some k
  | .sleepSched k _ _ => some k
  | .sleepWoken k _ _ => some k
  | _ => none

end Point

def Dozes (φ : SState B C) (k : K) (x : Fin n) : Prop := (φ.pc x).dozes k (φ.mem.state x)

/-- Some process is in wakeup, on a channel. -/
def Waking (φ : SState B C) (k : K) : Prop := ∃ w, (φ.pc w).wakes k

/-- What a process at a point is in the monitor, where it is at `p`. -/
structure Fits (W : K → Prop) (q : Point B) (st : Status) (p : P) (c : Monitor.Ctx K) : Prop where
  pc : q.pc = p
  awake : q.behind = false → c = .awake
  asleep : ∀ k, q.dozes k st → ¬ W k → c = .asleep k
  woken : ∀ k, q.dozes k st → W k → c = .woken
  risen : q.behind = true → (∀ k, ¬ q.dozes k st) → c = .woken

/-- **The state `φ` of the machine is the state `α` of the monitor.** -/
structure Refines (φ : SState B C) (α : MState n S K P) : Prop where
  shared : φ.mem.shared = α.mem
  killed : φ.mem.killed = α.killed
  fits : ∀ x, Fits (Waking φ) (φ.pc x) (φ.mem.state x) (α.pc x) (α.ctx x)
  ahead : ∀ w k x, (φ.pc w).wakes k → Dozes φ k x → (φ.pc w).ahead x

/-- The process table: a process that sleeps is in sleep, and its channel is set. -/
structure Table (φ : SState B C) : Prop where
  chan : ∀ x k, (φ.pc x).onChan = some k → φ.mem.chan x = some k
  sleeping : ∀ x, φ.mem.state x = .sleeping → ∃ k, (φ.pc x).sleeps = some k

theorem behind_of_dozes (h : q.dozes k st) : q.behind = true := by
  cases q <;> first | rfl | exact h.elim

theorem not_wakes_of_dozes (h : q.dozes k st) {k' : K} : ¬ q.wakes k' := by
  cases q <;> first | exact id | exact h.elim

theorem mon_of_wakes (h : q.wakes k) : .mon ∈ q.locks t ∧ q.parked = false := by
  cases q with
  | wakeup => exact ⟨List.mem_singleton_self _, rfl⟩
  | wakeupCheck => exact ⟨by simp [Point.locks], rfl⟩
  | wakeupRelease => exact ⟨by simp [Point.locks], rfl⟩
  | _ => exact h.elim

/-- A process that dozes holds its lock, or sleeps. -/
theorem held_of_dozes (h : q.dozes k st) :
    (.proc t ∈ q.locks t ∧ q.parked = false) ∨ st = .sleeping ∧ q.sleeps = some k := by
  cases q with
  | sleepRelease => exact .inl ⟨by simp [Point.locks], rfl⟩
  | sleepChan => exact .inl ⟨by simp [Point.locks], rfl⟩
  | sleepState => exact .inl ⟨by simp [Point.locks], rfl⟩
  | sleepSched => obtain ⟨rfl, hst⟩ := h; exact .inr ⟨hst, rfl⟩
  | sleepWoken => obtain ⟨rfl, hst⟩ := h; exact .inr ⟨hst, rfl⟩
  | _ => exact h.elim

theorem onChan_of_sleeps (h : q.sleeps = some k) : q.onChan = some k := by
  cases q <;> first | exact h | cases h

theorem dozes_of_sleeps (h : q.sleeps = some k) {k' : K} :
    q.dozes k' st ↔ k' = k ∧ st = .sleeping := by
  cases q <;> cases h <;> exact and_congr_left' eq_comm

theorem behind_of_sleeps (h : q.sleeps = some k) : q.behind = true := by
  cases q <;> first | rfl | cases h

namespace Fits

variable {W W' : K → Prop} {p p' : P} {c c' : Monitor.Ctx K}

theorem behind_of_ne_awake (h : Fits W q st p c) (hc : c ≠ .awake) : q.behind = true := by
  by_contra hb
  exact hc (h.awake (by simpa using hb))

theorem ne_awake (h : Fits W q st p c) (hb : q.behind = true) : c ≠ .awake := by
  intro hc
  by_cases hd : ∃ k, q.dozes k st
  · obtain ⟨k, hk⟩ := hd
    by_cases hw : W k
    · rw [h.woken k hk hw] at hc; cases hc
    · rw [h.asleep k hk hw] at hc; cases hc
  · rw [h.risen hb fun k hk => hd ⟨k, hk⟩] at hc; cases hc

/-- A process that sleeps in the monitor dozes on that channel. -/
theorem dozes (h : Fits W q st p (.asleep k)) : q.dozes k st ∧ ¬ W k := by
  have hb := h.behind_of_ne_awake (by simp)
  by_cases hd : ∃ k', q.dozes k' st
  · obtain ⟨k', hk'⟩ := hd
    by_cases hw : W k'
    · cases h.woken k' hk' hw
    · obtain rfl : k = k' := by simpa using h.asleep k' hk' hw
      exact ⟨hk', hw⟩
  · cases h.risen hb fun k' hk' => hd ⟨k', hk'⟩

/-- The process moves on, and is the same in the monitor. -/
theorem goto (h : Fits W q st p c) (hpc : q'.pc = q.pc) (hb : q'.behind = q.behind)
    (hd : ∀ k, q'.dozes k st' ↔ q.dozes k st) : Fits W q' st' p c := by
  refine ⟨hpc.trans h.pc, fun hf => h.awake (hb ▸ hf), fun k hk => h.asleep k ((hd k).1 hk),
    fun k hk => h.woken k ((hd k).1 hk), fun hf hn => h.risen (hb ▸ hf) fun k hk => ?_⟩
  exact hn k ((hd k).2 hk)

theorem congr (h : Fits W q st p c) (hW : ∀ k, W' k ↔ W k) : Fits W' q st p c :=
  ⟨h.pc, h.awake, fun k hk hw => h.asleep k hk fun hw' => hw ((hW k).2 hw'),
    fun k hk hw => h.woken k hk ((hW k).1 hw), h.risen⟩

/-- A process that is not behind sleep is awake. -/
theorem client (hpc : q.pc = p) (hb : q.behind = false) : Fits W q st p .awake := by
  have hd : ∀ k, ¬ q.dozes k st := fun k hk => by
    rw [behind_of_dozes hk] at hb; cases hb
  exact ⟨hpc, fun _ => rfl, fun k hk => absurd hk (hd k), fun k hk => absurd hk (hd k),
    fun hb' => by rw [hb] at hb'; cases hb'⟩

/-- A process that has been woken up is behind sleep. -/
theorem rise (h : Fits W q st p c) (hb : q.behind = true) (hd : ∀ k, ¬ q.dozes k st') :
    Fits W q st' p .woken :=
  ⟨h.pc, fun hb' => absurd (hb.symm.trans hb') (by simp), fun k hk => absurd hk (hd k),
    fun k hk => absurd hk (hd k), fun _ _ => rfl⟩

end Fits

/-! ## One step of a process -/

/-- The process `t` moves on, and no other state changes. -/
theorem waking_congr (hpc : φ'.pc = Function.update φ.pc t q')
    (hw : ∀ k, q'.wakes k ↔ (φ.pc t).wakes k) (k : K) : Waking φ' k ↔ Waking φ k := by
  have hall : ∀ w, (φ'.pc w).wakes k ↔ (φ.pc w).wakes k := by
    intro w
    rw [hpc]
    by_cases hwt : w = t
    · subst hwt; rw [Function.update_self]; exact hw k
    · rw [Function.update_of_ne hwt]
  exact exists_congr hall

/-- **A step that the monitor does not see.** -/
theorem Refines.quiet (h : Refines φ α) (hpc : φ'.pc = Function.update φ.pc t q')
    (hs : φ'.mem.shared = φ.mem.shared) (hk : φ'.mem.killed = φ.mem.killed)
    (hst : ∀ x ≠ t, φ'.mem.state x = φ.mem.state x) (hq : q'.pc = (φ.pc t).pc)
    (hb : q'.behind = (φ.pc t).behind)
    (hd : ∀ k, q'.dozes k (φ'.mem.state t) ↔ Dozes φ k t)
    (hw : ∀ k, q'.wakes k ↔ (φ.pc t).wakes k)
    (ha : ∀ k x, (φ.pc t).wakes k → Dozes φ k x → (φ.pc t).ahead x → q'.ahead x) :
    Refines φ' α := by
  have hself : φ'.pc t = q' := by rw [hpc, Function.update_self]
  have hother : ∀ x ≠ t, φ'.pc x = φ.pc x := fun x hx => by rw [hpc, Function.update_of_ne hx]
  have hdozes : ∀ k x, Dozes φ' k x ↔ Dozes φ k x := by
    intro k x
    by_cases hx : x = t
    · subst hx; rw [Dozes, hself]; exact hd k
    · rw [Dozes, hother x hx, hst x hx]; rfl
  refine ⟨hs.trans h.shared, hk.trans h.killed, fun x => ?_, fun w k x hwk hx => ?_⟩
  · refine Fits.congr (W := Waking φ) ?_ (waking_congr hpc hw)
    by_cases hx : x = t
    · subst hx; rw [hself]; exact (h.fits x).goto hq hb hd
    · rw [hother x hx, hst x hx]; exact h.fits x
  · rw [hdozes] at hx
    by_cases hwt : w = t
    · subst hwt
      rw [hself] at hwk ⊢
      exact ha k x ((hw k).1 hwk) hx (h.ahead w k x ((hw k).1 hwk) hx)
    · rw [hother w hwt] at hwk ⊢
      exact h.ahead w k x hwk hx

/-- A process that was at `q` moves on to `q'`, and the monitor does not see it. -/
theorem Refines.still (h : Refines φ α) (hpt : φ.pc t = q) (hpc : φ'.pc = Function.update φ.pc t q')
    (hs : φ'.mem.shared = φ.mem.shared) (hk : φ'.mem.killed = φ.mem.killed)
    (hst : φ'.mem.state = φ.mem.state) (hq : q'.pc = q.pc) (hb : q'.behind = q.behind)
    (hd : ∀ k st, q'.dozes k st ↔ q.dozes k st) (hw : ∀ k, q'.wakes k ↔ q.wakes k)
    (ha : ∀ k, ∀ x ≠ t, q.wakes k → Dozes φ k x → q.ahead x → q'.ahead x) : Refines φ' α := by
  subst hpt
  refine h.quiet hpc hs hk (fun x _ => by rw [hst]) hq hb (fun k => ?_) hw fun k x hwk hx => ?_
  · rw [hst]; exact hd k _
  · refine ha k x ?_ hwk hx
    rintro rfl; exact not_wakes_of_dozes hx hwk

/-- A process is killed in the monitor, and does not sleep there. -/
theorem Refines.setKilled (h : Refines φ α) (hpc : φ'.pc = φ.pc)
    (hs : φ'.mem.shared = φ.mem.shared) (hst : φ'.mem.state = φ.mem.state)
    (hk : φ'.mem.killed = α'.killed) (hm : α'.mem = α.mem) (hpc' : α'.pc = α.pc)
    (hctx : α'.ctx = α.ctx) : Refines φ' α' := by
  have hw : ∀ k, Waking φ' k ↔ Waking φ k := fun k => by rw [Waking, hpc]; exact Iff.rfl
  refine ⟨by rw [hs, hm]; exact h.shared, hk, fun x => ?_, fun w k x hwk hx => ?_⟩
  · rw [hpc, hst, hpc', hctx]
    exact (h.fits x).congr hw
  · rw [hpc] at hwk ⊢
    rw [Dozes, hpc, hst] at hx
    exact h.ahead w k x hwk hx

/-- **A step of the monitor's code**, by a process that is in it before and behind. -/
theorem Refines.client (h : Refines φ α) {p : P} (hq : φ.pc t = .place (.client p))
    (hpc : φ'.pc = Function.update φ.pc t q') (hst : φ'.mem.state = φ.mem.state)
    (hs : φ'.mem.shared = α'.mem) (hk : φ'.mem.killed = α'.killed)
    (hother : ∀ x ≠ t, α'.pc x = α.pc x ∧ α'.ctx x = α.ctx x)
    (hw : ∀ k, ¬ q'.wakes k)
    (hself : Fits (Waking φ) q' (φ.mem.state t) (α'.pc t) (α'.ctx t))
    (hd : ∀ k x, q'.dozes k (φ.mem.state x) → ¬ Waking φ k) : Refines φ' α' := by
  have hpt : φ'.pc t = q' := by rw [hpc, Function.update_self]
  have hpx : ∀ x ≠ t, φ'.pc x = φ.pc x := fun x hx => by rw [hpc, Function.update_of_ne hx]
  have hwk : ∀ k, q'.wakes k ↔ (φ.pc t).wakes k := fun k =>
    ⟨fun hk => absurd hk (hw k), fun hk => by rw [hq] at hk; exact hk.elim⟩
  refine ⟨hs, hk, fun x => ?_, fun w k x hwk' hx => ?_⟩
  · refine Fits.congr (W := Waking φ) ?_ (waking_congr hpc hwk)
    rw [hst]
    by_cases hx : x = t
    · subst hx; rw [hpt]; exact hself
    · rw [hpx x hx, (hother x hx).1, (hother x hx).2]; exact h.fits x
  · have hwt : w ≠ t := by
      rintro rfl; rw [hpt] at hwk'; exact hw k hwk'
    rw [hpx w hwt] at hwk' ⊢
    rw [Dozes, hst] at hx
    by_cases hxt : x = t
    · subst hxt
      rw [hpt] at hx
      exact absurd ⟨w, hwk'⟩ (hd k x hx)
    · rw [hpx x hxt] at hx
      exact h.ahead w k x hwk' hx

/-- **A wakeup starts**: all that doze on the channel are woken up in the monitor. -/
theorem Refines.wakeup (h : Refines φ α) {p p' : P} {k : K} {hp : B.held p' = true}
    (hq : φ.pc t = .place (.client p)) (hpc : φ'.pc = Function.update φ.pc t (.wakeup k p' hp 0))
    (hm : φ'.mem = φ.mem) (hnone : ∀ k, ¬ Waking φ k) :
    Refines φ' ((α.wakeup k).goto t p') := by
  have hpt : φ'.pc t = .wakeup k p' hp 0 := by rw [hpc, Function.update_self]
  have hpx : ∀ x ≠ t, φ'.pc x = φ.pc x := fun x hx => by rw [hpc, Function.update_of_ne hx]
  have hwaking : ∀ k', Waking φ' k' ↔ k' = k := by
    intro k'
    constructor
    · rintro ⟨w, hw⟩
      by_cases hwt : w = t
      · subst hwt; rw [hpt] at hw; exact hw.symm
      · rw [hpx w hwt] at hw; exact absurd ⟨w, hw⟩ (hnone k')
    · rintro rfl; exact ⟨t, by rw [hpt]; rfl⟩
  refine ⟨by rw [hm]; exact h.shared, by rw [hm]; exact h.killed, fun x => ?_,
    fun w k' x hw hx => ?_⟩
  · rw [hm]
    by_cases hx : x = t
    · subst hx
      have hawake : α.ctx x = .awake := (h.fits x).awake (by rw [hq]; rfl)
      rw [hpt, Monitor.State.goto_pc, Function.update_self, Monitor.State.goto_ctx,
        (α.wakeup_awake x k).2 hawake]
      exact .client rfl rfl
    · rw [hpx x hx, Monitor.State.goto_pc, Function.update_of_ne hx, Monitor.State.goto_ctx]
      have hf := h.fits x
      refine ⟨hf.pc, fun hb => (α.wakeup_awake x k).2 (hf.awake hb), fun k' hd hw => ?_,
        fun k' hd hw => ?_, fun hb hn => ?_⟩
      · have hne : k' ≠ k := fun he => hw ((hwaking k').2 he)
        have := hf.asleep k' hd (hnone k')
        simp [Monitor.State.wakeup, this, hne]
      · obtain rfl := (hwaking k').1 hw
        simp [Monitor.State.wakeup, hf.asleep k' hd (hnone k')]
      · simp [Monitor.State.wakeup, hf.risen hb hn]
  · by_cases hwt : w = t
    · subst hwt; rw [hpt]; exact Nat.zero_le _
    · rw [hpx w hwt] at hw; exact absurd ⟨w, hw⟩ (hnone k')

/-- **A wakeup ends**: no process dozes on its channel. -/
theorem Refines.wakeupEnd (h : Refines φ α) {p : P} {k : K} {hp : B.held p = true} {i : ℕ}
    (hi : n ≤ i) (hq : φ.pc t = .wakeup k p hp i)
    (hpc : φ'.pc = Function.update φ.pc t (.place (.client p))) (hm : φ'.mem = φ.mem)
    (hone : ∀ w k', (φ.pc w).wakes k' → w = t) : Refines φ' α := by
  have hpt : φ'.pc t = .place (.client p) := by rw [hpc, Function.update_self]
  have hpx : ∀ x ≠ t, φ'.pc x = φ.pc x := fun x hx => by rw [hpc, Function.update_of_ne hx]
  have hnone : ∀ k' w, ¬ (φ'.pc w).wakes k' := by
    intro k' w hw
    by_cases hwt : w = t
    · subst hwt; rw [hpt] at hw; exact hw
    · rw [hpx w hwt] at hw; exact hwt (hone w k' hw)
  refine ⟨by rw [hm]; exact h.shared, by rw [hm]; exact h.killed, fun x => ?_,
    fun w k' x hw _ => absurd hw (hnone k' w)⟩
  have hf := h.fits x
  rw [hm]
  by_cases hx : x = t
  · subst hx
    rw [hq] at hf
    rw [hpt, hf.awake rfl]
    exact .client hf.pc rfl
  · rw [hpx x hx]
    refine ⟨hf.pc, hf.awake, fun k' hd _ => hf.asleep k' hd ?_, fun k' _ ⟨w, hw⟩ =>
      absurd hw (hnone k' w), hf.risen⟩
    -- the wakeup has looked at all processes, so this is not its channel
    rintro ⟨w, hw⟩
    obtain rfl := hone w k' hw
    have := h.ahead w k' x hw hd
    rw [hq] at this
    exact absurd (x.isLt.trans_le hi) (Nat.not_lt.2 this)

/-- **A process is woken up**, that sleeps; in the monitor it is woken up too. -/
theorem Refines.rise (h : Refines φ α) (hx : (φ.pc x).sleeps = some k) (hxt : x ≠ t)
    (hpc : φ'.pc = Function.update φ.pc t q')
    (hst : φ'.mem.state = Function.update φ.mem.state x .runnable)
    (hs : φ'.mem.shared = α'.mem) (hk : φ'.mem.killed = α'.killed) (hpc' : α'.pc = α.pc)
    (hctx : ∀ y ≠ x, α'.ctx y = α.ctx y) (hw : α'.ctx x = .woken) (hq : q'.pc = (φ.pc t).pc)
    (hb : q'.behind = (φ.pc t).behind) (hd : ∀ k, q'.dozes k (φ.mem.state t) ↔ Dozes φ k t)
    (hwk : ∀ k, q'.wakes k ↔ (φ.pc t).wakes k)
    (ha : ∀ k y, y ≠ x → (φ.pc t).wakes k → Dozes φ k y → (φ.pc t).ahead y → q'.ahead y) :
    Refines φ' α' := by
  have hpt : φ'.pc t = q' := by rw [hpc, Function.update_self]
  have hpy : ∀ y ≠ t, φ'.pc y = φ.pc y := fun y hy => by rw [hpc, Function.update_of_ne hy]
  have hsx : φ'.mem.state x = .runnable := by rw [hst, Function.update_self]
  have hsy : ∀ y ≠ x, φ'.mem.state y = φ.mem.state y := fun y hy => by
    rw [hst, Function.update_of_ne hy]
  have hup : ∀ k', ¬ Dozes φ' k' x := by
    intro k' hd'
    rw [Dozes, hpy x hxt, hsx] at hd'
    cases ((dozes_of_sleeps hx).1 hd').2
  have hbx := behind_of_sleeps hx
  refine ⟨hs, hk, fun y => ?_, fun w k' y hw' hy => ?_⟩
  · refine Fits.congr (W := Waking φ) ?_ (waking_congr hpc hwk)
    rw [hpc']
    by_cases hyx : y = x
    · subst hyx
      have hdz : ∀ k', ¬ (φ.pc y).dozes k' (φ'.mem.state y) := fun k' hd' =>
        hup k' (by rw [Dozes, hpy y hxt]; exact hd')
      rw [hpy y hxt, hw]
      exact (h.fits y).rise hbx hdz
    · rw [hctx y hyx, hsy y hyx]
      by_cases hyt : y = t
      · subst hyt; rw [hpt]; exact (h.fits y).goto hq hb hd
      · rw [hpy y hyt]; exact h.fits y
  · have hyx : y ≠ x := by
      rintro rfl; exact hup k' hy
    have hdy : Dozes φ k' y := by
      by_cases hyt : y = t
      · subst hyt
        rw [Dozes, hpt, hsy y hyx] at hy
        exact (hd k').1 hy
      · rwa [Dozes, hpy y hyt, hsy y hyx] at hy
    by_cases hwt : w = t
    · subst hwt
      rw [hpt] at hw' ⊢
      exact ha k' y hyx ((hwk k').1 hw') hdy (h.ahead w k' y ((hwk k').1 hw') hdy)
    · rw [hpy w hwt] at hw' ⊢
      exact h.ahead w k' y hw' hdy

/-! ## The locks, in the monitor -/

/-- While a process is in wakeup, no other one holds the lock of the monitor. -/
theorem one_of_wakes (hI : (discipline B).Inv φ) (hw : (φ.pc w).wakes k)
    (ht : .mon ∈ (φ.pc t).locks t) (hp : (φ.pc t).parked = false) : w = t :=
  hI.exclusive (l := .mon) (mon_of_wakes (t := w) hw).2 hp (mon_of_wakes hw).1 ht

/-- If the lock of the monitor is free on the machine, it is free in the monitor. -/
theorem Refines.free (h : Refines φ α) (hI : (discipline B).Inv φ) (hM : B.disc.Inv α)
    (hfree : φ.owner .mon = none) : α.owner = none := by
  by_contra hne
  obtain ⟨t, ht⟩ := Option.ne_none_iff_exists'.1 hne
  obtain ⟨hc, hheld⟩ := (hM.owner t).1 ht
  have hf := h.fits t
  have hb : (φ.pc t).behind = false := by
    by_contra hb
    exact hf.ne_awake (by simpa using hb) hc
  have hq : B.held (φ.pc t).pc = true := by rw [hf.pc]; exact hheld
  -- the process holds the lock on the machine too
  have hmon : .mon ∈ (φ.pc t).locks t ∧ (φ.pc t).parked = false := by
    generalize φ.pc t = q₀ at hb hq
    have hplace : ∀ f : Place B, f.behind = false → f.held = false → B.held f.pc = true → False := by
      intro f hb hf hq
      cases f with
      | client => exact absurd (hf.symm.trans hq) (by simp)
      | reacquire => cases hb
      | kill q hk => exact absurd (hk.symm.trans hq) (by simp)
    cases q₀ with
    | place f =>
      cases f with
      | client q =>
        have hlocks : (Point.place (.client q) : Point B).locks t = [.mon] := locks_client hq
        exact ⟨by rw [hlocks]; exact List.mem_singleton_self _, rfl⟩
      | reacquire => cases hb
      | kill q hk => exact absurd (hk.symm.trans hq) (by simp)
    | forkret q hk => exact absurd (hk.symm.trans hq) (by simp)
    | wakeup => exact ⟨List.mem_singleton_self _, rfl⟩
    | wakeupCheck => exact ⟨by simp [Point.locks], rfl⟩
    | wakeupRelease => exact ⟨by simp [Point.locks], rfl⟩
    | killCheck q hk => exact absurd (hk.symm.trans hq) (by simp)
    | killRelease q hk => exact absurd (hk.symm.trans hq) (by simp)
    | yield f hf => exact (hplace f hb hf hq).elim
    | yieldState f hf => exact (hplace f hb hf hq).elim
    | yieldSched f hf => exact (hplace f hb hf hq).elim
    | yieldRelease f hf => exact (hplace f hb hf hq).elim
    | _ => cases hb
  exact hI.free hfree hmon.2 hmon.1

/-! ## The process table -/

/-- A process that runs on a CPU, and moves on. -/
theorem Table.move (h : Table φ) (hpc : φ'.pc = Function.update φ.pc t q')
    (hchan : ∀ x ≠ t, φ'.mem.chan x = φ.mem.chan x)
    (hself : ∀ k, q'.onChan = some k → φ'.mem.chan t = some k)
    (hstate : ∀ x ≠ t, φ'.mem.state x = .sleeping → φ.mem.state x = .sleeping)
    (hsleeps : φ'.mem.state t = .sleeping → ∃ k, q'.sleeps = some k) : Table φ' := by
  refine ⟨fun x k hx => ?_, fun x hx => ?_⟩
  · by_cases hxt : x = t
    · subst hxt
      rw [hpc, Function.update_self] at hx
      exact hself k hx
    · rw [hpc, Function.update_of_ne hxt] at hx
      rw [hchan x hxt]; exact h.chan x k hx
  · by_cases hxt : x = t
    · subst hxt
      rw [hpc, Function.update_self]; exact hsleeps hx
    · rw [hpc, Function.update_of_ne hxt]; exact h.sleeping x (hstate x hxt hx)

theorem Acquires.onChan (h : Acquires t m q l q') : q'.onChan = none ∧ q.awake = true := by
  cases h <;> exact ⟨rfl, rfl⟩

theorem Releases.onChan (h : Releases t m q l q') : q'.onChan = none ∧ q.awake = true := by
  cases h <;> exact ⟨rfl, rfl⟩

theorem Scheds.sleeps (h : Scheds q q') : q'.sleeps = q.sleeps ∧ q'.onChan = q.onChan := by
  cases h <;> exact ⟨rfl, rfl⟩

omit [DecidableEq K] in
theorem setState_sleeping {y : Fin n} (hst : st ≠ .sleeping)
    (h : (m.setState y st).state x = .sleeping) : m.state x = .sleeping := by
  by_cases hxy : x = y
  · subst hxy
    simp only [Mem.setState, Function.update_self] at h
    exact absurd h hst
  · simpa [Mem.setState, hxy] using h

/-- What a run does to the table. -/
theorem Runs.table (h : Runs t m q m' q') :
    (∀ x ≠ t, m'.chan x = m.chan x) ∧
      ((∀ k, q.onChan = some k → m.chan t = some k) → ∀ k, q'.onChan = some k →
        m'.chan t = some k) ∧
      (∀ x ≠ t, m'.state x = .sleeping → m.state x = .sleeping) ∧
      (m.state t ≠ .sleeping → m'.state t = .sleeping → ∃ k, q'.sleeps = some k) := by
  cases h with
  | sleepChan =>
    refine ⟨fun x hx => by simp [Mem.setChan, hx], fun _ k hk => ?_, fun _ _ => id,
      fun hne hs => absurd hs hne⟩
    cases hk; simp [Mem.setChan]
  | sleepState =>
    refine ⟨fun _ _ => rfl, fun hc => hc, fun x hx hs => ?_, fun _ _ => ⟨_, rfl⟩⟩
    simpa [Mem.setState, hx] using hs
  | sleepWoken =>
    exact ⟨fun x hx => by simp [Mem.setChan, hx], fun _ k hk => (by cases hk), fun _ _ => id,
      fun hne hs => absurd hs hne⟩
  | wake | yieldState =>
    exact ⟨fun _ _ => rfl, fun _ k hk => (by cases hk), fun x _ => setState_sleeping (by simp),
      fun hne hs => absurd (setState_sleeping (by simp) hs) hne⟩
  | @killWake q hq pid y =>
    have hup : ∀ x, ((m.setKilled y).setState y .runnable).state x = .sleeping →
        m.state x = .sleeping := fun x hx =>
      setState_sleeping (m := m.setKilled y) (show Status.runnable ≠ .sleeping by simp) hx
    exact ⟨fun _ _ => rfl, fun _ k hk => (by cases hk), fun x _ => hup x,
      fun hne hs => absurd (hup t hs) hne⟩
  | _ =>
    exact ⟨fun _ _ => rfl, fun _ k hk => (by cases hk), fun _ _ => id,
      fun hne hs => absurd hs hne⟩

/-- A process on a CPU whose point is awake does not sleep. -/
theorem not_sleeping (hI : (discipline B).Inv φ) {c : C} (hc : φ.ctx c = .running t)
    (ha : (φ.pc t).awake = true) : φ.mem.state t ≠ .sleeping := by
  have hr : φ.mem.state t = .running := (hI.threads.running t c hc).2 ha
  rw [hr]; simp

theorem Runs.awake (h : Runs t m q m' q') : q.awake = true := by
  cases h <;> rfl

variable [DecidableEq C]

/-- **A step keeps the table.** -/
theorem Table.step (h : Table φ) (hI : (discipline B).Inv φ) {a : Option (Fin n)}
    (hs : Step (code B) φ a φ') : Table φ' := by
  have hsched : φ'.pc = φ.pc → φ'.mem = φ.mem → Table φ' := by
    intro hpc hm
    exact ⟨by rw [hpc, hm]; exact h.chan, by rw [hpc, hm]; exact h.sleeping⟩
  cases hs with
  | acquire hc hi _ =>
    obtain ⟨hch, ha⟩ := (Does.acquires hi).onChan
    exact h.move rfl (fun _ _ => rfl) (fun k hk => by rw [hch] at hk; cases hk) (fun _ _ => id)
      fun (hst : φ.mem.state _ = .sleeping) => absurd hst (not_sleeping hI hc ha)
  | release hc hi _ =>
    obtain ⟨hch, ha⟩ := (Does.releases hi).onChan
    exact h.move rfl (fun _ _ => rfl) (fun k hk => by rw [hch] at hk; cases hk) (fun _ _ => id)
      fun (hst : φ.mem.state _ = .sleeping) => absurd hst (not_sleeping hI hc ha)
  | @run c t m q hc hi =>
    have hr := Does.runs hi
    obtain ⟨h₁, h₂, h₃, h₄⟩ := hr.table
    exact h.move rfl h₁ (h₂ (h.chan t)) h₃ (h₄ (not_sleeping hI hc hr.awake))
  | @sched c t q hc hi =>
    obtain ⟨hsl, hch⟩ := (Does.scheds hi).sleeps
    refine h.move rfl (fun _ _ => rfl) (fun k hk => ?_) (fun _ _ => id) fun hst => ?_
    · rw [hch] at hk; exact h.chan t k hk
    · rw [hsl]; exact h.sleeping t hst
  | schedAcquire _ _ => exact hsched rfl rfl
  | schedSkip _ _ => exact hsched rfl rfl
  | schedRelease _ _ => exact hsched rfl rfl
  | interrupt _ => exact hsched rfl rfl
  | @schedRun c p hc hst =>
    refine ⟨h.chan, fun x hx => h.sleeping x ?_⟩
    exact setState_sleeping (show Status.running ≠ .sleeping by simp) hx

end OSLabs.Sleep
