/-
  What a step of the kernel can do, to the semaphores and to the processes, and
  the assertions that hold at the program points under the lock of a semaphore.
-/
import OSLabs.Kernel.Discipline

namespace OSLabs.Kernel

open LockMachine

variable {n : ℕ} {G C : Type} [DecidableEq C] {U : UserSys n G} {p t : Fin n} {s : Int32}
  {q q' : Point n} {m m' : Mem n G} {i : KInstr n G} {σ σ' : KState n G C} {a : Option (Fin n)}

/-! ## The moves of a process -/

/-- The moves of a process, one for each branch of its code, with the memory
    before and behind them. -/
inductive Moves (U : UserSys n G) (p : Fin n) (m : Mem n G) : Point n → Point n → Mem n G → Prop
  | call {c : Call} {g : G} : U.calls p m.user c g →
      Moves U p m (.free .user) (.free (.killed (.syscall c))) (m.setUser g)
  | act {g : G} : U.acts p m.user g → Moves U p m (.free .user) (.free .user) (m.setUser g)
  | timer : Moves U p m (.free .user) (.free (.killed .timer)) m
  | preempt {f : Free} : f ≠ .user → Moves U p m (.free f) (.yield f) m
  | forkret : Moves U p m .forkret (.free .user) m
  | killed {b : Trap} : Moves U p m (.free (.killed b)) (.killedCheck b) m
  | killedCheck {b : Trap} : Moves U p m (.killedCheck b) (.killedRelease b (m.killed p)) m
  | killedExit {b : Trap} : Moves U p m (.killedRelease b true) (.free .exit) m
  | enter {c : Call} {f : Free} : (enter c : Point n) = .free f →
      Moves U p m (.killedRelease (.syscall c) false) (.free f) m
  | userret {r : Int32} : Moves U p m (.killedRelease (.userret r) false) (.free (.resume r)) m
  | timerYield : Moves U p m (.killedRelease .timer false) (.yield .user) m
  | resume {r : Int32} :
      Moves U p m (.free (.resume r)) (.free .user) (m.setUser (U.ret p m.user r))
  | semOpen {s v : Int32} : Moves U p m (.free (.semOpen s v)) (.openTest s v) m
  | openErr {s v : Int32} : m.value s ≠ emptySem →
      Moves U p m (.openTest s v) (.openRelease s err) m
  | openWrite {s v : Int32} : m.value s = emptySem →
      Moves U p m (.openTest s v) (.openRelease s success) ((m.setValue s v).setOpen s true)
  | openRelease {s r : Int32} :
      Moves U p m (.openRelease s r) (.free (.killed (.userret r))) m
  | semClose {s : Int32} : Moves U p m (.free (.semClose s)) (.closeWrite s) m
  | closeWrite {s : Int32} : Moves U p m (.closeWrite s) (.closeRelease s)
      ((m.setValue s emptySem).setOpen s false)
  | closeRelease {s : Int32} :
      Moves U p m (.closeRelease s) (.free (.killed (.userret success))) m
  | semUp {s : Int32} : Moves U p m (.free (.semUp s)) (.upTest s) m
  | upErr {s : Int32} : m.value s = emptySem → Moves U p m (.upTest s) (.upRelease s err) m
  | upZero {s : Int32} : m.value s = 0 → Moves U p m (.upTest s) (.wakeup s 0) m
  | upMore {s : Int32} : m.value s ≠ emptySem → m.value s ≠ 0 →
      Moves U p m (.upTest s) (.upWrite s) m
  | wakeupSelf {s : Int32} : Moves U p m (.wakeup s p) (.wakeup s (p + 1)) m
  | wakeup {s : Int32} {t : Fin n} : t ≠ p → Moves U p m (.wakeup s t) (.wakeupCheck s t) m
  | wakeupDone {s : Int32} {k : ℕ} : n ≤ k → Moves U p m (.wakeup s k) (.upWrite s) m
  | wake {s : Int32} {t : Fin n} : m.state t = .sleeping → m.chan t = some s →
      Moves U p m (.wakeupCheck s t) (.wakeupRelease s t) (m.setState t .runnable)
  | wakeupSkip {s : Int32} {t : Fin n} : ¬ (m.state t = .sleeping ∧ m.chan t = some s) →
      Moves U p m (.wakeupCheck s t) (.wakeupRelease s t) m
  | wakeupRelease {s : Int32} {t : Fin n} :
      Moves U p m (.wakeupRelease s t) (.wakeup s (t + 1)) m
  | upWrite {s : Int32} : Moves U p m (.upWrite s) (.upRelease s success)
      (m.setValue s (m.value s + 1))
  | upRelease {s r : Int32} : Moves U p m (.upRelease s r) (.free (.killed (.userret r))) m
  | semDown {s : Int32} : Moves U p m (.free (.semDown s)) (.downTest s) m
  | downErr {s : Int32} : m.value s = emptySem → Moves U p m (.downTest s) (.downRelease s err) m
  | downTest {s : Int32} : m.value s ≠ emptySem → Moves U p m (.downTest s) (.downLoop s) m
  | downSleep {s : Int32} : m.value s = 0 → Moves U p m (.downLoop s) (.sleep s) m
  | downLoop {s : Int32} : m.value s ≠ 0 → Moves U p m (.downLoop s) (.downWrite s) m
  | downWrite {s : Int32} : Moves U p m (.downWrite s) (.downRelease s success)
      (m.setValue s (m.value s - 1))
  | downRelease {s r : Int32} : Moves U p m (.downRelease s r) (.free (.killed (.userret r))) m
  | sleep {s : Int32} : Moves U p m (.sleep s) (.sleepRelease s) m
  | sleepRelease {s : Int32} : Moves U p m (.sleepRelease s) (.sleepChan s) m
  | sleepChan {s : Int32} : Moves U p m (.sleepChan s) (.sleepState s) (m.setChan p (some s))
  | sleepState {s : Int32} : Moves U p m (.sleepState s) (.sleepSched s) (m.setState p .sleeping)
  | sleepSched {s : Int32} : Moves U p m (.sleepSched s) (.sleepWoken s) m
  | sleepWoken {s : Int32} : Moves U p m (.sleepWoken s) (.sleepUnlock s) (m.setChan p none)
  | sleepUnlock {s : Int32} : Moves U p m (.sleepUnlock s) (.free (.reacquire s)) m
  | reacquire {s : Int32} : Moves U p m (.free (.reacquire s)) (.downLoop s) m
  | kill {pid : Int32} {t : Fin n} : Moves U p m (.free (.kill pid t)) (.killCheck pid t) m
  | killNone {pid : Int32} {k : ℕ} : n ≤ k →
      Moves U p m (.free (.kill pid k)) (.free (.killed (.userret (-1)))) m
  | killWake {pid : Int32} {t : Fin n} : m.pid t = pid → m.state t = .sleeping →
      Moves U p m (.killCheck pid t) (.killRelease pid t true)
        ((m.setKilled t).setState t .runnable)
  | killMark {pid : Int32} {t : Fin n} : m.pid t = pid → m.state t ≠ .sleeping →
      Moves U p m (.killCheck pid t) (.killRelease pid t true) (m.setKilled t)
  | killSkip {pid : Int32} {t : Fin n} : m.pid t ≠ pid →
      Moves U p m (.killCheck pid t) (.killRelease pid t false) m
  | killFound {pid : Int32} {t : Fin n} :
      Moves U p m (.killRelease pid t true) (.free (.killed (.userret 0))) m
  | killNext {pid : Int32} {t : Fin n} :
      Moves U p m (.killRelease pid t false) (.free (.kill pid (t + 1))) m
  | exit : Moves U p m (.free .exit) .exitState m
  | exitState : Moves U p m .exitState .exitSched (m.setState p .zombie)
  | exitSched : Moves U p m .exitSched .dead m
  | yield {f : Free} : Moves U p m (.yield f) (.yieldState f) m
  | yieldState {f : Free} : Moves U p m (.yieldState f) (.yieldSched f) (m.setState p .runnable)
  | yieldSched {f : Free} : Moves U p m (.yieldSched f) (.yieldRelease f) m
  | yieldRelease {f : Free} : Moves U p m (.yieldRelease f) (.free f) m

theorem enter_free (c : Call) : ∃ f, (enter c : Point n) = .free f := by
  cases c <;> simp only [enter] <;> (try split_ifs) <;> exact ⟨_, rfl⟩

/-- Each instruction is one of the moves. -/
theorem does_moves (h : Does U p q m i) : Moves U p m q i.next (i.store m) := by
  cases h with
  | call h => exact .call h
  | act h => exact .act h
  | timer => exact .timer
  | preempt h => exact .preempt h
  | code h =>
    cases q with
    | free f =>
      cases f with
      | kill pid k =>
        simp only [exec, execFree] at h
        split_ifs at h with hk
        all_goals cases h
        · exact .kill (t := ⟨k, hk⟩)
        · exact .killNone (Nat.le_of_not_lt hk)
      | user => cases h
      | killed b => cases h; exact .killed
      | semOpen s v => cases h; exact .semOpen
      | semClose s => cases h; exact .semClose
      | semUp s => cases h; exact .semUp
      | semDown s => cases h; exact .semDown
      | reacquire s => cases h; exact .reacquire
      | resume r => cases h; exact .resume
      | exit => cases h; exact .exit
    | forkret => cases h; exact .forkret
    | dead => cases h
    | killedCheck b => cases h; exact .killedCheck
    | killedRelease b k =>
      cases h
      cases k with
      | true => exact .killedExit
      | false =>
        cases b with
        | syscall c =>
          obtain ⟨f, hf⟩ := enter_free (n := n) c
          simp only [Instr.next, Bool.false_eq_true, if_false, hf]
          exact .enter hf
        | userret r => exact .userret
        | timer => exact .timerYield
    | openTest s v =>
      simp only [exec] at h
      split_ifs at h with hv
      all_goals cases h
      · exact .openErr hv
      · exact .openWrite (not_not.1 hv)
    | openRelease s r => cases h; exact .openRelease
    | closeWrite s => cases h; exact .closeWrite
    | closeRelease s => cases h; exact .closeRelease
    | upTest s =>
      simp only [exec] at h
      split_ifs at h with hempty hzero
      all_goals cases h
      · exact .upErr hempty
      · exact .upZero hzero
      · exact .upMore hempty hzero
    | wakeup s k =>
      simp only [exec] at h
      split_ifs at h with hk hp
      all_goals cases h
      · subst hp; exact .wakeupSelf
      · exact .wakeup (t := ⟨k, hk⟩) hp
      · exact .wakeupDone (Nat.le_of_not_lt hk)
    | wakeupCheck s t =>
      simp only [exec] at h
      split_ifs at h with hs
      all_goals cases h
      · exact .wake hs.1 hs.2
      · exact .wakeupSkip hs
    | wakeupRelease s t => cases h; exact .wakeupRelease
    | upWrite s => cases h; exact .upWrite
    | upRelease s r => cases h; exact .upRelease
    | downTest s =>
      simp only [exec] at h
      split_ifs at h with hempty
      all_goals cases h
      · exact .downErr hempty
      · exact .downTest hempty
    | downLoop s =>
      simp only [exec] at h
      split_ifs at h with hzero
      all_goals cases h
      · exact .downSleep hzero
      · exact .downLoop hzero
    | sleep s => cases h; exact .sleep
    | sleepRelease s => cases h; exact .sleepRelease
    | sleepChan s => cases h; exact .sleepChan
    | sleepState s => cases h; exact .sleepState
    | sleepSched s => cases h; exact .sleepSched
    | sleepWoken s => cases h; exact .sleepWoken
    | sleepUnlock s => cases h; exact .sleepUnlock
    | downWrite s => cases h; exact .downWrite
    | downRelease s r => cases h; exact .downRelease
    | killCheck pid t =>
      simp only [exec] at h
      split_ifs at h with hpid hs
      all_goals cases h
      · exact .killWake hpid hs
      · exact .killMark hpid hs
      · exact .killSkip hpid
    | killRelease pid t found =>
      cases h
      cases found with
      | true => exact .killFound
      | false => exact .killNext
    | exitState => cases h; exact .exitState
    | exitSched => cases h; exact .exitSched
    | yield f => cases h; exact .yield
    | yieldState f => cases h; exact .yieldState
    | yieldSched f => cases h; exact .yieldSched
    | yieldRelease f => cases h; exact .yieldRelease

/-- A step is the move of a process, or a scheduler's; the latter resumes at most
    a process that is runnable. -/
theorem step_cases (h : Step (code U) σ a σ') :
    (a = none ∧ σ'.pc = σ.pc ∧ (σ'.mem = σ.mem ∨
      ∃ t, σ.mem.state t = .runnable ∧ σ'.mem = σ.mem.setState t .running)) ∨
    ∃ p q, a = some p ∧ (∃ c, σ.ctx c = .running p) ∧ Moves U p σ.mem (σ.pc p) q σ'.mem ∧
      σ'.pc = Function.update σ.pc p q := by
  cases a with
  | none => exact .inl ⟨rfl, h.scheduler⟩
  | some p =>
    obtain ⟨c, i, hc, hi, hpc, hmem⟩ := h.thread
    exact .inr ⟨p, i.next, rfl, ⟨c, hc⟩, hmem ▸ does_moves hi, hpc⟩

/-! ## Writes -/

/-- The ways in which code between two points writes to a semaphore. -/
inductive Writes (s : Int32) (m m' : Mem n G) : Point n → Point n → Prop
  | keep {r r' : Point n} : m'.value s = m.value s → m'.isOpen s = m.isOpen s → Writes s m m' r r'
  | openTest {v : Int32} : m.value s = emptySem → m'.value s = v → m'.isOpen s = true →
      Writes s m m' (.openTest s v) (.openRelease s success)
  | closeWrite : m'.value s = emptySem → m'.isOpen s = false →
      Writes s m m' (.closeWrite s) (.closeRelease s)
  | upWrite : m'.value s = m.value s + 1 → m'.isOpen s = m.isOpen s →
      Writes s m m' (.upWrite s) (.upRelease s success)
  | downWrite : m'.value s = m.value s - 1 → m'.isOpen s = m.isOpen s →
      Writes s m m' (.downWrite s) (.downRelease s success)

theorem Moves.writes (h : Moves U p m q q' m') (s : Int32) : Writes s m m' q q' := by
  cases h with
  | @openWrite s' v hv =>
    by_cases hs : s = s'
    · subst hs
      exact .openTest hv (Function.update_self ..) (Function.update_self ..)
    · exact .keep (Function.update_of_ne hs ..) (Function.update_of_ne hs ..)
  | @closeWrite s' =>
    by_cases hs : s = s'
    · subst hs
      exact .closeWrite (Function.update_self ..) (Function.update_self ..)
    · exact .keep (Function.update_of_ne hs ..) (Function.update_of_ne hs ..)
  | @upWrite s' =>
    by_cases hs : s = s'
    · subst hs; exact .upWrite (Function.update_self ..) rfl
    · exact .keep (Function.update_of_ne hs ..) rfl
  | @downWrite s' =>
    by_cases hs : s = s'
    · subst hs; exact .downWrite (Function.update_self ..) rfl
    · exact .keep (Function.update_of_ne hs ..) rfl
  | _ => exact .keep rfl rfl

/-- A semaphore is written with its lock held. -/
theorem Writes.held (h : Writes s m m' q q') (p : Fin n) :
    (m'.value s = m.value s ∧ m'.isOpen s = m.isOpen s) ∨ .sem s ∈ q.held p := by
  cases h with
  | keep hv ho => exact .inl ⟨hv, ho⟩
  | _ => exact .inr (List.mem_singleton_self _)

/-- How a step writes to a semaphore. -/
theorem step_writes (h : Step (code U) σ a σ') (s : Int32) :
    (σ'.mem.value s = σ.mem.value s ∧ σ'.mem.isOpen s = σ.mem.isOpen s) ∨
    ∃ p, a = some p ∧ Writes s σ.mem σ'.mem (σ.pc p) (σ'.pc p) := by
  rcases step_cases h with ⟨-, -, hm | ⟨t, -, hm⟩⟩ | ⟨p, q, ha, -, hq, hpc⟩
  · exact .inl ⟨by rw [hm], by rw [hm]⟩
  · exact .inl ⟨by rw [hm]; rfl, by rw [hm]; rfl⟩
  · refine .inr ⟨p, ha, ?_⟩
    rw [hpc, Function.update_self]
    exact hq.writes s

/-! ## Assertions -/

/-- The value that is left to sem_open behind its checks. -/
def Free.asserts : Free → Prop
  | .semOpen _ v => 0 ≤ v
  | _ => True

/-- What is known at a point: of a semaphore, under its lock, and of the value
    of a sem_open. -/
def Point.asserts (value : Int32 → Int32) : Point n → Prop
  | .free f => f.asserts
  | .openTest _ v => 0 ≤ v
  | .wakeup s _ => value s = 0
  | .wakeupCheck s _ => value s = 0
  | .wakeupRelease s _ => value s = 0
  | .upWrite s => value s ≠ emptySem
  | .sleep s => value s = 0
  | .sleepRelease s => value s = 0
  | .downWrite s => value s ≠ 0
  | .yield f => f.asserts
  | .yieldState f => f.asserts
  | .yieldSched f => f.asserts
  | .yieldRelease f => f.asserts
  | _ => True

/-- Only the semaphores whose lock is held are spoken of. -/
theorem asserts_congr {value value' : Int32 → Int32}
    (h : ∀ s, .sem s ∈ q.held p → value' s = value s) (hq : q.asserts value) :
    q.asserts value' := by
  cases q with
  | wakeup s k => exact (h s (by simp [Point.held])).trans hq
  | wakeupCheck s t => exact (h s (by simp [Point.held])).trans hq
  | wakeupRelease s t => exact (h s (by simp [Point.held])).trans hq
  | upWrite s =>
    have hs := h s (by simp [Point.held])
    simp only [Point.asserts, hs] at hq ⊢; exact hq
  | sleep s => exact (h s (by simp [Point.held])).trans hq
  | sleepRelease s => exact (h s (by simp [Point.held])).trans hq
  | downWrite s =>
    have hs := h s (by simp [Point.held])
    simp only [Point.asserts, hs] at hq ⊢; exact hq
  | _ => exact hq

/-- sem_open goes on with values that are not negative. -/
theorem enter_asserts {c : Call} {f : Free} (h : (enter c : Point n) = .free f) : f.asserts := by
  cases c with
  | semOpen s v =>
    simp only [enter] at h
    split_ifs at h with hcheck
    · cases h; trivial
    · cases h
      exact Int32.not_lt.1 fun hv => hcheck (.inl hv)
  | semClose s =>
    simp only [enter] at h
    split_ifs at h <;> cases h <;> trivial
  | semUp s => cases h; trivial
  | semDown s => cases h; trivial
  | kill pid => cases h; trivial

/-- The assertion behind a move. -/
theorem Moves.asserts (h : Moves U p m q q' m') (hq : q.asserts m.value) : q'.asserts m'.value := by
  cases h with
  | preempt _ => exact hq
  | enter hf => exact enter_asserts hf
  | semOpen => exact hq
  | upZero hv => exact hv
  | upMore hempty _ => exact hempty
  | wakeupSelf => exact hq
  | wakeup _ => exact hq
  | wakeupDone _ =>
    have hzero : m.value _ = 0 := hq
    simp only [Point.asserts, hzero]; decide
  | wake _ _ => exact hq
  | wakeupSkip _ => exact hq
  | wakeupRelease => exact hq
  | downSleep hv => exact hv
  | downLoop hv => exact hv
  | sleep => exact hq
  | yield => exact hq
  | yieldState => exact hq
  | yieldSched => exact hq
  | yieldRelease => exact hq
  | _ => trivial

/-! ## Sleep -/

/-- The channel of a process in the middle of sleep. -/
def Point.chan : Point n → Option Int32
  | .sleepState s => some s
  | .sleepSched s => some s
  | .sleepWoken s => some s
  | _ => none

/-- A process only falls asleep by itself. -/
theorem Moves.sleeping (h : Moves U p m q q' m') (ht : m'.state t = .sleeping) :
    m.state t = .sleeping ∨ t = p ∧ ∃ s, q = .sleepState s ∧ q' = .sleepSched s := by
  have hupdate : ∀ {t' st}, st ≠ .sleeping →
      Function.update m.state t' st t = .sleeping → m.state t = .sleeping := by
    intro t' st hst hup
    by_cases htt : t = t'
    · subst htt; rw [Function.update_self] at hup; exact absurd hup hst
    · rwa [Function.update_of_ne htt] at hup
  cases h with
  | wake _ _ => exact .inl (hupdate Status.noConfusion ht)
  | killWake _ _ => exact .inl (hupdate Status.noConfusion ht)
  | exitState => exact .inl (hupdate Status.noConfusion ht)
  | yieldState => exact .inl (hupdate Status.noConfusion ht)
  | @sleepState s =>
    by_cases htp : t = p
    · exact .inr ⟨htp, s, rfl, rfl⟩
    · exact .inl (by rwa [← Function.update_of_ne htp Status.sleeping m.state])
  | _ => exact .inl ht

theorem Moves.woken (h : Moves U p m (.sleepSched s) q m') : q = .sleepWoken s := by
  cases h; rfl

/-- Only the process itself sets its channel, and only in sleep. -/
theorem Moves.chan (h : Moves U p m q q' m') : (∀ t ≠ p, m'.chan t = m.chan t) ∧
    ∀ s, q'.chan = some s → (q.chan = some s ∧ m'.chan p = m.chan p) ∨ m'.chan p = some s := by
  cases h with
  | sleepChan =>
    refine ⟨fun t ht => Function.update_of_ne ht .., fun s hs => .inr ?_⟩
    cases hs; exact Function.update_self ..
  | sleepState => exact ⟨fun _ _ => rfl, fun s hs => .inl ⟨hs, rfl⟩⟩
  | sleepSched => exact ⟨fun _ _ => rfl, fun s hs => .inl ⟨hs, rfl⟩⟩
  | sleepWoken => exact ⟨fun t ht => Function.update_of_ne ht .., nofun⟩
  | _ => exact ⟨fun _ _ => rfl, nofun⟩

/-! ## The invariant -/

/-- **The invariant of the kernel.**  A process that is SLEEPING is behind the
    write of its state in sleep. -/
structure KInv (U : UserSys n G) (σ : KState n G C) : Prop where
  disc : (discipline U).Inv σ
  asserts : ∀ p, (σ.pc p).asserts σ.mem.value
  chan : ∀ p s, (σ.pc p).chan = some s → σ.mem.chan p = some s
  sleeping : ∀ p, σ.mem.state p = .sleeping →
    ∃ s, σ.pc p = .sleepSched s ∨ σ.pc p = .sleepWoken s

theorem held_sem_unparked (h : .sem s ∈ q.held p) : q.parked = false := by
  cases q <;> first | rfl | simp [Point.held] at h

omit [DecidableEq C] in
/-- The lock of a semaphore is held by one process at most. -/
theorem KInv.alone (h : KInv U σ) (hp : .sem s ∈ (σ.pc p).held p)
    (ht : .sem s ∈ (σ.pc t).held t) : p = t :=
  h.disc.exclusive (held_sem_unparked hp) (held_sem_unparked ht) hp ht

omit [DecidableEq C] in
theorem KInv.free (h : KInv U σ) (hfree : σ.owner (.sem s) = none) (p : Fin n) :
    .sem s ∉ (σ.pc p).held p := fun hp =>
  h.disc.free hfree (held_sem_unparked hp) hp

/-- A semaphore whose lock is held does not change but by its holder. -/
theorem KInv.sem_eq (h : KInv U σ) (hs : Step (code U) σ a σ') (hp : a ≠ some p)
    (hheld : .sem s ∈ (σ.pc p).held p) :
    σ'.mem.value s = σ.mem.value s ∧ σ'.mem.isOpen s = σ.mem.isOpen s := by
  rcases step_writes hs s with heq | ⟨t, ha, hw⟩
  · exact heq
  · rcases hw.held t with heq | ht
    · exact heq
    · exact absurd (ha.trans (by rw [h.alone hheld ht])) hp

omit [DecidableEq C] in
/-- A process that is SLEEPING and still on its CPU is about to enter the
    scheduler. -/
theorem KInv.sleepSched (h : KInv U σ) {c : C} (hc : σ.ctx c = .running p)
    (hs : σ.mem.state p = .sleeping) : ∃ s, σ.pc p = .sleepSched s := by
  obtain ⟨s, hp | hp⟩ := h.sleeping p hs
  · exact ⟨s, hp⟩
  · have hrun : σ.mem.state p = .running := (h.disc.threads.running p c hc).2 (by rw [hp]; rfl)
    rw [hs] at hrun; cases hrun

theorem KInv.step (h : KInv U σ) (hs : Step (code U) σ a σ') : KInv U σ' := by
  have hvalue := fun s p hp hheld => (h.sem_eq (s := s) (p := p) hs hp hheld).1
  refine ⟨h.disc.step hs, ?_, ?_, ?_⟩
  all_goals rcases step_cases hs with ⟨rfl, hpc, hm⟩ | ⟨p₀, q, rfl, ⟨c, hc⟩, hq, hpc⟩
  · intro p
    rw [hpc]
    exact asserts_congr (fun s hheld => hvalue s p (by simp) hheld) (h.asserts p)
  · intro p
    by_cases hp : p = p₀
    · subst hp
      rw [hpc, Function.update_self]
      exact hq.asserts (h.asserts p)
    · rw [hpc, Function.update_of_ne hp]
      exact asserts_congr (fun s hheld => hvalue s p (by simpa using Ne.symm hp) hheld)
        (h.asserts p)
  · intro p s hchan
    rw [hpc] at hchan
    rcases hm with hm | ⟨t, -, hm⟩ <;> rw [hm] <;> exact h.chan p s hchan
  · intro p s hchan
    obtain ⟨hother, hself⟩ := hq.chan
    rw [hpc] at hchan
    by_cases hp : p = p₀
    · subst hp
      rw [Function.update_self] at hchan
      rcases hself s hchan with ⟨hold, heq⟩ | heq
      · rw [heq]; exact h.chan p s hold
      · exact heq
    · rw [Function.update_of_ne hp] at hchan
      rw [hother p hp]; exact h.chan p s hchan
  · intro p hst
    rw [hpc]
    rcases hm with hm | ⟨t, -, hm⟩
    · rw [hm] at hst; exact h.sleeping p hst
    · have hpt : p ≠ t := by
        rintro rfl
        rw [hm] at hst
        simp [Mem.setState] at hst
      rw [hm] at hst
      exact h.sleeping p (by simpa [Mem.setState, hpt] using hst)
  · intro p hst
    rw [hpc]
    rcases hq.sleeping hst with hst | ⟨rfl, s, -, hnext⟩
    · by_cases hp : p = p₀
      · subst hp
        obtain ⟨s, hps⟩ := h.sleepSched hc hst
        rw [hps] at hq
        exact ⟨s, .inr (by rw [Function.update_self, hq.woken])⟩
      · rw [Function.update_of_ne hp]; exact h.sleeping p hst
    · exact ⟨s, .inl (by rw [Function.update_self, hnext])⟩

variable {table : Int32 → Int32} {g : G}

omit [DecidableEq C] in
theorem Starts.kinv (h : Starts table g σ) : KInv U σ where
  disc := (h.start).inv
  asserts p := by rw [h.pc]; trivial
  chan p s hs := by rw [h.pc] at hs; cases hs
  sleeping p hs := by rw [h.state] at hs; cases hs

/-- The invariant holds in each reachable state. -/
theorem kinv_of_reach {ok : KState n G C → Fin n → Prop}
    (h : Reach (code U) (Starts table g) ok σ) : KInv U σ :=
  h.invariant (fun _ hi => hi.kinv) fun _ _ _ hI hs _ => hI.step hs

end OSLabs.Kernel
