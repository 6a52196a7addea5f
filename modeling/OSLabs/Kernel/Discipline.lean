/-
  The locks that the kernel holds at each program point.

  `discipline` is the annotation that LockMachine asks for; so in each
  reachable state two processes never hold the lock of the same semaphore, and
  a process whose lock another one holds is not in the middle of sleep.
-/
import OSLabs.Kernel.Semaphore

namespace OSLabs.Kernel

open LockMachine

variable {n : ℕ} {G C : Type} {U : UserSys n G} {p : Fin n}

namespace Point

/-- The locks held at a point. -/
def held (p : Fin n) : Point n → List (Lock n)
  | .free _ => []
  | .forkret => [.proc p]
  | .dead => [.proc p]
  | .killedCheck _ => [.proc p]
  | .killedRelease _ _ => [.proc p]
  | .openTest s _ => [.sem s]
  | .openRelease s _ => [.sem s]
  | .closeWrite s => [.sem s]
  | .closeRelease s => [.sem s]
  | .upTest s => [.sem s]
  | .wakeup s _ => [.sem s]
  | .wakeupCheck s t => [.proc t, .sem s]
  | .wakeupRelease s t => [.proc t, .sem s]
  | .upWrite s => [.sem s]
  | .upRelease s _ => [.sem s]
  | .downTest s => [.sem s]
  | .downLoop s => [.sem s]
  | .sleep s => [.sem s]
  | .sleepRelease s => [.proc p, .sem s]
  | .sleepChan _ => [.proc p]
  | .sleepState _ => [.proc p]
  | .sleepSched _ => [.proc p]
  | .sleepWoken _ => [.proc p]
  | .sleepUnlock _ => [.proc p]
  | .downWrite s => [.sem s]
  | .downRelease s _ => [.sem s]
  | .killCheck _ t => [.proc t]
  | .killRelease _ t _ => [.proc t]
  | .exitState => [.proc p]
  | .exitSched => [.proc p]
  | .yield _ => []
  | .yieldState _ => [.proc p]
  | .yieldSched _ => [.proc p]
  | .yieldRelease _ => [.proc p]

/-- The process is marked as running at a point. -/
def awake : Point n → Bool
  | .sleepSched _ => false
  | .exitSched => false
  | .yieldSched _ => false
  | _ => true

/-- A scheduler resumes the process at this point. -/
def parked : Point n → Bool
  | .forkret => true
  | .dead => true
  | .sleepWoken _ => true
  | .yieldRelease _ => true
  | _ => false

end Point

theorem enter_held (c : Call) : (enter c).held p = [] := by
  cases c <;> simp only [enter] <;> try split_ifs
  all_goals rfl

theorem enter_awake (c : Call) : (enter c : Point n).awake = true := by
  cases c <;> simp only [enter] <;> try split_ifs
  all_goals rfl

section
variable {q q' : Point n} {m m' : Mem n G} {l : Lock n}

theorem held_acquire (h : Does U p q m (.acquire l q')) :
    l ∉ q.held p ∧ q'.held p = l :: q.held p ∧ q'.awake = q.awake := by
  cases h with
  | code h =>
    cases q with
    | free f =>
      cases f with
      | kill pid k =>
        simp only [exec, execFree] at h
        split_ifs at h
        · cases h; exact ⟨List.not_mem_nil, rfl, rfl⟩
        · cases h
      | _ => first | (cases h; exact ⟨List.not_mem_nil, rfl, rfl⟩) | cases h
    | wakeup s k =>
      simp only [exec] at h
      split_ifs at h
      · cases h
      · cases h; exact ⟨by simp [Point.held], rfl, rfl⟩
      · cases h
    | sleep s => cases h; exact ⟨by simp [Point.held], rfl, rfl⟩
    | yield f => cases h; exact ⟨List.not_mem_nil, rfl, rfl⟩
    | _ =>
      simp only [exec] at h
      try split_ifs at h
      all_goals cases h

theorem held_release (h : Does U p q m (.release l q')) :
    l ∈ q.held p ∧ q'.held p = (q.held p).erase l ∧ q'.awake = q.awake := by
  cases h with
  | code h =>
    cases q with
    | free f =>
      cases f with
      | kill pid k =>
        simp only [exec, execFree] at h
        split_ifs at h
        all_goals cases h
      | _ => cases h
    | killedRelease a k =>
      cases h
      cases k with
      | true => exact ⟨List.mem_singleton_self _, by simp [Point.held], rfl⟩
      | false =>
        cases a with
        | syscall c =>
          simp only [Bool.false_eq_true, if_false, enter_held, enter_awake]
          exact ⟨List.mem_singleton_self _, by simp [Point.held], rfl⟩
        | userret r => exact ⟨List.mem_singleton_self _, by simp [Point.held], rfl⟩
        | timer => exact ⟨List.mem_singleton_self _, by simp [Point.held], rfl⟩
    | killRelease pid t found =>
      cases h
      cases found <;> exact ⟨List.mem_singleton_self _, by simp [Point.held, returns], rfl⟩
    | sleepRelease s => cases h; exact ⟨by simp [Point.held], by simp [Point.held], rfl⟩
    | wakeupRelease s t => cases h; exact ⟨by simp [Point.held], by simp [Point.held], rfl⟩
    | _ =>
      simp only [exec] at h
      try split_ifs at h
      all_goals first
        | (cases h; exact ⟨List.mem_singleton_self _, by simp [Point.held, returns], rfl⟩)
        | cases h

theorem held_sched (h : Does U p q m (.sched q')) :
    q.held p = [.proc p] ∧ q.awake = false ∧ q'.parked = true := by
  cases h with
  | code h =>
    cases q with
    | free f =>
      cases f with
      | kill pid k =>
        simp only [exec, execFree] at h
        split_ifs at h
        all_goals cases h
      | _ => cases h
    | _ =>
      simp only [exec] at h
      try split_ifs at h
      all_goals first
        | (cases h; exact ⟨rfl, rfl, rfl⟩)
        | cases h

/-- Code that leaves the states of the processes alone. -/
theorem held_run_same (hstate : m'.state = m.state) (hheld : q'.held p = q.held p)
    (hq : q.awake = true) (hq' : q'.awake = true) : q'.held p = q.held p ∧
    (q'.awake = true → q.awake = true ∧ m'.state p = m.state p) ∧
    (q'.awake = false → m'.state p ≠ .running) ∧
    ∀ t, m'.state t ≠ m.state t → .proc t ∈ q.held p ∧
      (t ≠ p → m.state t ≠ .running ∧ m'.state t ≠ .running) := by
  refine ⟨hheld, fun _ => ⟨hq, by rw [hstate]⟩, fun hf => ?_, fun t ht => ?_⟩
  · rw [hq'] at hf; cases hf
  · exact absurd (by rw [hstate]) ht

/-- Code that wakes a process which sleeps, with its lock held. -/
theorem held_run_wake {t : Fin n} (hasleep : m.state t = .sleeping)
    (hstate : m'.state = Function.update m.state t .runnable) (ht : .proc t ∈ q.held p)
    (hp : m.state p = .running) (hheld : q'.held p = q.held p) (hq : q.awake = true)
    (hq' : q'.awake = true) : q'.held p = q.held p ∧
    (q'.awake = true → q.awake = true ∧ m'.state p = m.state p) ∧
    (q'.awake = false → m'.state p ≠ .running) ∧
    ∀ t, m'.state t ≠ m.state t → .proc t ∈ q.held p ∧
      (t ≠ p → m.state t ≠ .running ∧ m'.state t ≠ .running) := by
  have hne : p ≠ t := by rintro rfl; rw [hp] at hasleep; cases hasleep
  refine ⟨hheld, fun _ => ⟨hq, by rw [hstate, Function.update_of_ne hne]⟩, fun hf => ?_, ?_⟩
  · rw [hq'] at hf; cases hf
  · intro t' ht'
    have : t' = t := by
      by_contra hne'
      rw [hstate, Function.update_of_ne hne'] at ht'
      exact ht' rfl
    subst this
    refine ⟨ht, fun _ => ⟨by rw [hasleep]; exact Status.noConfusion, ?_⟩⟩
    rw [hstate, Function.update_self]; exact Status.noConfusion

/-- Code that takes the process itself out of the running state, with its lock
    held. -/
theorem held_run_leave {st : Status} (hst : st ≠ .running)
    (hstate : m'.state = Function.update m.state p st) (hp : .proc p ∈ q.held p)
    (hheld : q'.held p = q.held p) (hq' : q'.awake = false) : q'.held p = q.held p ∧
    (q'.awake = true → q.awake = true ∧ m'.state p = m.state p) ∧
    (q'.awake = false → m'.state p ≠ .running) ∧
    ∀ t, m'.state t ≠ m.state t → .proc t ∈ q.held p ∧
      (t ≠ p → m.state t ≠ .running ∧ m'.state t ≠ .running) := by
  refine ⟨hheld, fun hf => ?_, fun _ => ?_, fun t ht => ?_⟩
  · rw [hq'] at hf; cases hf
  · rw [hstate, Function.update_self]; exact hst
  · have : t = p := by
      by_contra hne
      rw [hstate, Function.update_of_ne hne] at ht
      exact ht rfl
    subst this
    exact ⟨hp, fun hne => absurd rfl hne⟩

theorem held_run (h : Does U p q m (.run m' q')) (hrun : m.state p = .running ↔ q.awake = true) :
    q'.held p = q.held p ∧ (q'.awake = true → q.awake = true ∧ m'.state p = m.state p) ∧
    (q'.awake = false → m'.state p ≠ .running) ∧
    ∀ t, m'.state t ≠ m.state t → .proc t ∈ q.held p ∧
      (t ≠ p → m.state t ≠ .running ∧ m'.state t ≠ .running) := by
  cases h with
  | call _ => exact held_run_same rfl rfl rfl rfl
  | act _ => exact held_run_same rfl rfl rfl rfl
  | timer => exact held_run_same rfl rfl rfl rfl
  | preempt _ => exact held_run_same rfl rfl rfl rfl
  | code h =>
    cases q with
    | free f =>
      cases f with
      | kill pid k =>
        simp only [exec, execFree] at h
        split_ifs at h
        all_goals cases h
        exact held_run_same rfl rfl rfl rfl
      | resume r => cases h; exact held_run_same rfl rfl rfl rfl
      | _ => cases h
    | wakeupCheck s t =>
      simp only [exec] at h
      split_ifs at h with hs
      all_goals cases h
      · exact held_run_wake hs.1 rfl (by simp [Point.held]) (hrun.2 rfl) rfl rfl rfl
      · exact held_run_same rfl rfl rfl rfl
    | killCheck pid t =>
      simp only [exec] at h
      split_ifs at h with hpid hs
      all_goals cases h
      · exact held_run_wake hs rfl (by simp [Point.held]) (hrun.2 rfl) rfl rfl rfl
      · exact held_run_same rfl rfl rfl rfl
      · exact held_run_same rfl rfl rfl rfl
    | sleepState s =>
      cases h
      exact held_run_leave Status.noConfusion rfl (List.mem_singleton_self _) rfl rfl
    | exitState =>
      cases h
      exact held_run_leave Status.noConfusion rfl (List.mem_singleton_self _) rfl rfl
    | yieldState f =>
      cases h
      exact held_run_leave Status.noConfusion rfl (List.mem_singleton_self _) rfl rfl
    | _ =>
      simp only [exec] at h
      try split_ifs at h
      all_goals first
        | (cases h; exact held_run_same rfl rfl rfl rfl)
        | cases h

end

/-- **The kernel keeps a lock discipline.** -/
def discipline (U : UserSys n G) : Discipline (code U) where
  held p q := q.held p
  awake _ q := q.awake
  parked _ q := q.parked
  lockOf_injective _ _ h := Lock.proc.inj h
  status_setRunning m p t := by
    simp only [code, Mem.setState, Function.update_apply]
  nodup p q := by cases q <;> simp [Point.held]
  parked_held p q hq := by cases q <;> first | exact ⟨rfl, rfl⟩ | cases hq
  asleep_held p q hq := by
    cases q <;> first | exact List.mem_singleton_self _ | cases hq
  acquire h := held_acquire h
  release h := held_release h
  run h hrun := held_run h hrun
  sched h := held_sched h

variable {table : Int32 → Int32} {g : G} {σ : KState n G C}

theorem Starts.start (h : Starts table g σ) : (discipline U).Start σ where
  owner := h.owner
  noff := h.noff
  ctx := h.ctx
  parked p := by
    refine ⟨?_, ?_⟩
    · rw [h.pc]; rfl
    · show σ.mem.state p ≠ .running
      rw [h.state]; exact Status.noConfusion

end OSLabs.Kernel
