/-
  No lost wakeups.

  A process that is about to sleep on a semaphore, or sleeps there, `Dozes`.  As
  long as one does, the value of the semaphore is 0: it went there when it found
  a 0 under the semaphore's lock, and before sem_up makes the value 1, its
  wakeup passes each process, which needs the lock that the dozing process holds
  until the scheduler has switched away from it.
-/
import OSLabs.Kernel.Steps
import OSLabs.Kernel.Scripts

namespace OSLabs.Kernel

open LockMachine

variable {n : ℕ} {G C : Type} [DecidableEq C] {U : UserSys n G} {p t : Fin n} {s : Int32}
  {q q' : Point n} {m m' : Mem n G} {σ σ' : KState n G C} {a : Option (Fin n)}
  {table : Int32 → Int32} {g : G}

/-- A process at this point, and in this state, is about to sleep on `s` or
    sleeps there. -/
def Point.dozes (s : Int32) (st : Status) : Point n → Prop
  | .sleepRelease s' => s' = s
  | .sleepChan s' => s' = s
  | .sleepState s' => s' = s
  | .sleepSched s' => s' = s
  | .sleepWoken s' => s' = s ∧ st = .sleeping
  | _ => False

def Dozes (σ : KState n G C) (s : Int32) (t : Fin n) : Prop :=
  (σ.pc t).dozes s (σ.mem.state t)

/-- The wakeup on `s` at this point has passed the process `t`. -/
def Point.passed (s : Int32) (t : Fin n) : Point n → Prop
  | .wakeup s' k => s' = s ∧ t < k
  | .wakeupCheck s' t' => s' = s ∧ t < t'
  | .wakeupRelease s' t' => s' = s ∧ t ≤ t'
  | .upWrite s' => s' = s
  | _ => False

/-- The points of sem_down behind its first test, up to the decrement. -/
def Free.waits (s : Int32) : Free → Prop
  | .reacquire s' => s' = s
  | _ => False

def Point.waits (s : Int32) : Point n → Prop
  | .free f => f.waits s
  | .downLoop s' => s' = s
  | .sleep s' => s' = s
  | .sleepRelease s' => s' = s
  | .sleepChan s' => s' = s
  | .sleepState s' => s' = s
  | .sleepSched s' => s' = s
  | .sleepWoken s' => s' = s
  | .sleepUnlock s' => s' = s
  | .downWrite s' => s' = s
  | .yield f => f.waits s
  | .yieldState f => f.waits s
  | .yieldSched f => f.waits s
  | .yieldRelease f => f.waits s
  | _ => False

/-- The points of sem_down behind its sleep, up to the next test of the value. -/
def Free.retests (s : Int32) : Free → Prop
  | .reacquire s' => s' = s
  | _ => False

def Point.retests (s : Int32) : Point n → Prop
  | .free f => f.retests s
  | .sleepWoken s' => s' = s
  | .sleepUnlock s' => s' = s
  | .downLoop s' => s' = s
  | .yield f => f.retests s
  | .yieldState f => f.retests s
  | .yieldSched f => f.retests s
  | .yieldRelease f => f.retests s
  | _ => False

/-- The next step of `p` does not close `s` while a sem_down is behind its first
    test. -/
def ClosesIdle (s : Int32) (σ : KState n G C) (p : Fin n) : Prop :=
  σ.pc p = .closeWrite s → ∀ t, ¬ (σ.pc t).waits s

/-- The next step of `p` does not close `s` while a process dozes on it. -/
def ClosesAwake (s : Int32) (σ : KState n G C) (p : Fin n) : Prop :=
  σ.pc p = .closeWrite s → ∀ t, ¬ Dozes σ s t

theorem Point.dozes.waits {st : Status} (h : q.dozes s st) : q.waits s := by
  cases q with
  | sleepWoken s' => exact h.1
  | sleepRelease s' => exact h
  | sleepChan s' => exact h
  | sleepState s' => exact h
  | sleepSched s' => exact h
  | _ => exact h.elim

omit [DecidableEq C] in
theorem ClosesIdle.awake (h : ClosesIdle s σ p) : ClosesAwake s σ p :=
  fun hp t ht => h hp t ht.waits

/-- A process that is not yet switched away from holds its own lock. -/
theorem Point.dozes.held {st : Status} (h : q.dozes s st) :
    (q.parked = false ∧ .proc p ∈ q.held p) ∨ q = .sleepWoken s ∧ st = .sleeping := by
  cases q with
  | sleepWoken s' => obtain ⟨rfl, hst⟩ := h; exact .inr ⟨rfl, hst⟩
  | sleepRelease s' => exact .inl ⟨rfl, by simp [Point.held]⟩
  | sleepChan s' => exact .inl ⟨rfl, by simp [Point.held]⟩
  | sleepState s' => exact .inl ⟨rfl, by simp [Point.held]⟩
  | sleepSched s' => exact .inl ⟨rfl, by simp [Point.held]⟩
  | _ => exact h.elim

theorem Point.passed.held (h : q.passed s t) (p : Fin n) : .sem s ∈ q.held p := by
  cases q with
  | wakeup s' k => obtain ⟨rfl, -⟩ := h; simp [Point.held]
  | wakeupCheck s' t' => obtain ⟨rfl, -⟩ := h; simp [Point.held]
  | wakeupRelease s' t' => obtain ⟨rfl, -⟩ := h; simp [Point.held]
  | upWrite s' => obtain rfl := h; simp [Point.held]
  | _ => exact h.elim

/-- **The invariant of sleep and wakeup.** -/
structure WakeInv (s : Int32) (σ : KState n G C) : Prop where
  dozes : ∀ t, Dozes σ s t → σ.mem.value s = 0
  passed : ∀ p t, t ≠ p → (σ.pc p).passed s t → ¬ Dozes σ s t

/-! ## One step -/

theorem Moves.dozes (h : Moves U p m q q' m') {st st' : Status} (hq : q'.dozes s st') :
    q.dozes s st ∨ q = .sleep s := by
  cases h with
  | sleep => obtain rfl := hq; exact .inr rfl
  | sleepRelease => exact .inl hq
  | sleepChan => exact .inl hq
  | sleepState => exact .inl hq
  | sleepSched => exact .inl hq.1
  | _ => exact hq.elim

/-- A step changes no process but the one that takes it. -/
theorem pc_other (hs : Step (code U) σ a σ') (ha : a ≠ some t) : σ'.pc t = σ.pc t := by
  rcases step_cases hs with ⟨-, hpc, -⟩ | ⟨p, q, rfl, -, -, hpc⟩
  · rw [hpc]
  · have hpt : t ≠ p := by rintro rfl; exact ha rfl
    rw [hpc, Function.update_of_ne hpt]

/-- A process that does not sleep only falls asleep by its own step. -/
theorem awake_step (hs : Step (code U) σ a σ') (ht : σ.mem.state t ≠ .sleeping)
    (hno : a = some t → ∀ s, σ.pc t ≠ .sleepState s) : σ'.mem.state t ≠ .sleeping := by
  rcases step_cases hs with ⟨-, -, hm⟩ | ⟨p, q, rfl, -, hq, -⟩
  · rcases hm with hm | ⟨t', -, hm⟩
    · rw [hm]; exact ht
    · rw [hm]
      by_cases htt : t = t'
      · subst htt; simp [Mem.setState]
      · simpa [Mem.setState, htt] using ht
  · intro hst
    rcases hq.sleeping hst with hst | ⟨rfl, s', hsleep, -⟩
    · exact ht hst
    · exact hno rfl s' hsleep

/-- A process starts to doze in sleep. -/
theorem dozes_step (hs : Step (code U) σ a σ') (ht : Dozes σ' s t) :
    Dozes σ s t ∨ a = some t ∧ σ.pc t = .sleep s := by
  have hsame : σ'.pc t = σ.pc t → (σ'.mem.state t = .sleeping → σ.mem.state t = .sleeping) →
      Dozes σ s t := by
    intro hpc hst
    simp only [Dozes, hpc] at ht ⊢
    cases hq : σ.pc t with
    | sleepWoken s' => rw [hq] at ht; exact ⟨ht.1, hst ht.2⟩
    | _ => rw [hq] at ht; exact ht
  rcases step_cases hs with ⟨rfl, hpc, hm⟩ | ⟨p, q, rfl, -, hq, hpc⟩
  · refine .inl (hsame (by rw [hpc]) fun hst => ?_)
    rcases hm with hm | ⟨t', -, hm⟩
    · rwa [hm] at hst
    · rw [hm] at hst
      by_cases htt : t = t'
      · simp [Mem.setState, htt] at hst
      · simpa [Mem.setState, htt] using hst
  · by_cases htp : t = p
    · subst htp
      simp only [Dozes, hpc, Function.update_self] at ht
      rcases hq.dozes ht with hd | hd
      · exact .inl hd
      · exact .inr ⟨rfl, hd⟩
    · refine .inl (hsame (by rw [hpc, Function.update_of_ne htp]) fun hst => ?_)
      rcases hq.sleeping hst with hst | ⟨rfl, -⟩
      · exact hst
      · exact absurd rfl htp

omit [DecidableEq C] in
/-- What a wakeup passes does not doze. -/
theorem WakeInv.passed_move (h : WakeInv s σ) (hk : KInv U σ) (hpt : t ≠ p)
    (hq : Moves U p σ.mem (σ.pc p) q m') (hpass : q.passed s t) :
    ¬ ((σ.pc t).dozes s (m'.state t) ∧ Dozes σ s t) := by
  rintro ⟨hdoze', hdoze⟩
  have hpassed := h.passed p t hpt
  -- the process at hand does not hold its lock
  have hwoken : .proc t ∈ (σ.pc p).held p → (σ.pc p).parked = false →
      σ.pc t = .sleepWoken s ∧ m'.state t = .sleeping := by
    intro hlock hpark
    rcases Point.dozes.held (p := t) hdoze' with ⟨ht, hheld⟩ | hw
    · exact absurd (hk.disc.exclusive ht hpark hheld hlock) hpt
    · exact hw
  generalize hpc : σ.pc p = r at hq hpassed hwoken
  cases hq with
  | upZero _ => exact absurd hpass.2 (Nat.not_lt_zero _)
  | upMore _ hv => obtain rfl := hpass; exact hv (h.dozes t hdoze)
  | wakeupSelf =>
    obtain ⟨rfl, hlt⟩ := hpass
    exact hpassed ⟨rfl, by have := Fin.val_ne_of_ne hpt; omega⟩ hdoze
  | wakeup _ => exact hpassed hpass hdoze
  | wakeupDone hn => exact hpassed ⟨hpass, by have := t.isLt; omega⟩ hdoze
  | @wake s' t' _ _ =>
    obtain ⟨rfl, hle⟩ := hpass
    rcases Nat.lt_or_eq_of_le hle with hlt | heq
    · exact hpassed ⟨rfl, hlt⟩ hdoze
    · obtain rfl := Fin.ext heq
      have := (hwoken (by simp [Point.held]) rfl).2
      simp [Mem.setState] at this
  | @wakeupSkip s' t' hskip =>
    obtain ⟨rfl, hle⟩ := hpass
    rcases Nat.lt_or_eq_of_le hle with hlt | heq
    · exact hpassed ⟨rfl, hlt⟩ hdoze
    · obtain rfl := Fin.ext heq
      obtain ⟨hw, hst⟩ := hwoken (by simp [Point.held]) rfl
      exact hskip ⟨hst, hk.chan t s' (by rw [hw]; rfl)⟩
  | wakeupRelease =>
    obtain ⟨rfl, hlt⟩ := hpass
    exact hpassed ⟨rfl, Nat.le_of_lt_succ hlt⟩ hdoze
  | _ => exact hpass.elim

omit [DecidableEq C] in
/-- A write that leaves a process dozing leaves the value. -/
theorem WakeInv.dozes_write (h : WakeInv s σ) (hk : KInv U σ) (hd : Dozes σ s t)
    (hclose : ClosesAwake s σ p) (hw : Writes s σ.mem m' (σ.pc p) q) : m'.value s = 0 := by
  have hzero := h.dozes t hd
  have hasserts := hk.asserts p
  have hpassed := fun hpt => h.passed p t hpt
  have hself : t = p → (σ.pc p).dozes s (σ.mem.state p) := by rintro rfl; exact hd
  generalize hpc : σ.pc p = r at hw hasserts hpassed hself
  cases hw with
  | keep hv _ => rw [hv, hzero]
  | openTest hempty _ _ => rw [hzero] at hempty; exact absurd hempty (by decide)
  | closeWrite _ _ => exact absurd hd (hclose hpc t)
  | upWrite _ _ => exact absurd hd (hpassed (fun htp => hself htp) rfl)
  | downWrite _ _ => exact absurd hzero hasserts

theorem WakeInv.step (h : WakeInv s σ) (hk : KInv U σ) (hs : Step (code U) σ a σ')
    (hclose : ∀ p, a = some p → ClosesAwake s σ p) : WakeInv s σ' := by
  constructor
  · intro t ht
    rcases dozes_step hs ht with hd | ⟨rfl, hpc⟩
    · rcases step_writes hs s with ⟨hv, -⟩ | ⟨p, rfl, hw⟩
      · rw [hv]; exact h.dozes t hd
      · exact h.dozes_write hk hd (hclose p rfl) hw
    · have hzero := hk.asserts t
      rcases step_writes hs s with ⟨hv, -⟩ | ⟨p, hp, hw⟩
      · rw [hpc] at hzero; rw [hv]; exact hzero
      · cases hp
        rw [hpc] at hw hzero
        cases hw with
        | keep hv _ => rw [hv]; exact hzero
  · intro p t hpt hpass ht
    by_cases hp : a = some p
    · -- the process of the wakeup moves
      subst hp
      have hpc := pc_other hs (t := t) (by simpa using Ne.symm hpt)
      rcases dozes_step hs ht with hd | ⟨hp, -⟩
      · rcases step_cases hs with ⟨hf, -⟩ | ⟨p₀, q, hp, -, hq, hpc'⟩
        · cases hf
        · cases hp
          rw [hpc', Function.update_self] at hpass
          simp only [Dozes, hpc] at ht
          exact h.passed_move hk hpt hq hpass ⟨ht, hd⟩
      · cases hp; exact hpt rfl
    · rw [pc_other hs hp] at hpass
      rcases dozes_step hs ht with hd | ⟨-, hsleep⟩
      · exact h.passed p t hpt hpass hd
      · -- the other one would need the lock of the semaphore to go to sleep
        refine hpt (hk.alone (s := s) ?_ (hpass.held p))
        rw [hsleep]; exact List.mem_singleton_self _

omit [DecidableEq C] in
theorem Starts.wakeInv (h : Starts table g σ) : WakeInv s σ where
  dozes t ht := by simp only [Dozes, h.pc] at ht; exact ht.elim
  passed p t _ hp := by rw [h.pc] at hp; exact hp.elim

theorem wakeInv_of_reach {ok : KState n G C → Fin n → Prop} (hok : ∀ σ p, ok σ p → ClosesAwake s σ p)
    (h : Reach (code U) (Starts table g) ok σ) : KInv U σ ∧ WakeInv s σ := by
  refine h.invariant (I := fun σ => KInv U σ ∧ WakeInv s σ) (fun σ hi => ⟨hi.kinv, hi.wakeInv⟩) ?_
  rintro σ a σ' ⟨hk, hw⟩ hs ha
  exact ⟨hk.step hs, hw.step hk hs fun p hp => hok _ _ (ha p hp)⟩

omit [DecidableEq C] in
/-- A process that is SLEEPING on a semaphore dozes on it. -/
theorem KInv.dozes (h : KInv U σ) (hst : σ.mem.state p = .sleeping)
    (hchan : σ.mem.chan p = some s) : Dozes σ s p := by
  obtain ⟨s', hpc | hpc⟩ := h.sleeping p hst
  all_goals
    have hs := h.chan p s' (by rw [hpc]; rfl)
    rw [hchan] at hs
    cases hs
    simp only [Dozes, hpc]
  · rfl
  · exact ⟨rfl, hst⟩

omit [DecidableEq C] in
/-- It finds the value 0. -/
theorem WakeInv.sleeping (h : WakeInv s σ) (hk : KInv U σ) (hst : σ.mem.state p = .sleeping)
    (hchan : σ.mem.chan p = some s) : σ.mem.value s = 0 := h.dozes p (hk.dozes hst hchan)

/-- **No lost wakeup.**  When a semaphore that nobody closes has tokens and its
    lock is free, no process sleeps on it; a process only sleeps while its value
    is 0. -/
theorem no_lost_wakeup
    (h : Reach (code U) (Starts table g) (fun σ p => σ.pc p ≠ .closeWrite s) σ) :
    (σ.owner (.sem s) = none → 0 < σ.mem.value s →
      ∀ p, ¬ (σ.mem.state p = .sleeping ∧ σ.mem.chan p = some s)) ∧
    ∀ p, σ.mem.state p = .sleeping → σ.mem.chan p = some s → σ.mem.value s = 0 := by
  obtain ⟨hk, hw⟩ := wakeInv_of_reach (s := s) (fun σ p hp hpc => absurd hpc hp) h
  refine ⟨fun _ hpos p ⟨hst, hchan⟩ => ?_, fun p hst hchan => hw.sleeping hk hst hchan⟩
  rw [hw.sleeping hk hst hchan] at hpos
  exact absurd hpos (by decide)

/-- The first process waits on the last semaphore of the table, and the second
    one ups it. -/
def downAndUp : Fin 2 → List Call
  | 0 => [.semOpen 511 0, .semDown 511]
  | 1 => [.semUp 511]

/-- The second process is back from the up, the first one not yet from sleep. -/
theorem no_lost_wakeup_downAndUp : ∃ σ : KState 2 (Fin 2 → List Call) (Fin 2),
    σ.pc 0 = .sleepWoken 511 ∧ σ.mem.value 511 = 1 ∧
      ∀ p, ¬ (σ.mem.state p = .sleeping ∧ σ.mem.chan p = some 511) := by
  have hrun : (Scripts.run (fun _ => True) (fun σ p => σ.pc p ≠ .closeWrite 511)
      (List.replicate 27 0 ++ List.replicate 16 1) (fun _ => emptySem) downAndUp).map
        (fun σ => (σ.pc 0, σ.owner (.sem 511), σ.mem.value 511)) =
      some (.sleepWoken 511, none, 1) := by decide +kernel
  obtain ⟨σ, hσ, hσ'⟩ := Option.map_eq_some_iff.1 hrun
  simp only [Prod.mk.injEq] at hσ'
  obtain ⟨hpc, hfree, hv⟩ := hσ'
  refine ⟨σ, hpc, hv, (no_lost_wakeup
    (Scripts.run_reach (fun _ _ => of_decide_eq_true) hσ)).1 hfree ?_⟩
  rw [hv]; decide

end OSLabs.Kernel
