/-
  The lock discipline of the system calls.

  The locks of the semaphores are taken before those of the processes, so no
  CPUs wait for each other in a cycle; a process enters the scheduler from
  sem_down with its own lock only, and each call returns without locks
  (`discipline_of_reach`).
-/
import OSLabs.Kernel.Discipline
import OSLabs.Kernel.Scripts

namespace OSLabs.Kernel

open LockMachine

variable {n : ℕ} {G C : Type} {U : UserSys n G} {p : Fin n} {q q' : Point n} {m : Mem n G}
  {l : Lock n}

/-- A process may hold the lock of a semaphore when it acquires that of a
    process, but not the other way round. -/
def Lock.rank : Lock n → ℕ
  | .sem _ => 0
  | .proc _ => 1

theorem ranked_acquire (h : Does U p q m (.acquire l q')) :
    ∀ l' ∈ q.held p, l'.rank < l.rank := by
  cases h with
  | code h =>
    cases q with
    | free f => exact fun l' hl' => absurd hl' List.not_mem_nil
    | yield f => exact fun l' hl' => absurd hl' List.not_mem_nil
    | wakeup s k =>
      simp only [exec] at h
      split_ifs at h
      all_goals cases h
      intro l' hl'
      obtain rfl := List.mem_singleton.1 hl'
      exact Nat.zero_lt_one
    | sleep s =>
      cases h
      intro l' hl'
      obtain rfl := List.mem_singleton.1 hl'
      exact Nat.zero_lt_one
    | _ =>
      simp only [exec] at h
      try split_ifs at h
      all_goals cases h

/-- Locks are taken in the order of their ranks. -/
theorem ranked (U : UserSys n G) : (discipline U).Ranked Lock.rank :=
  fun _ _ _ _ _ h => ranked_acquire h

variable [DecidableEq C] {σ : KState n G C} {table : Int32 → Int32} {g : G}

/-- **The lock discipline.**  In each reachable state, acquire, release and sched
    do not panic on any CPU, the process that enters the scheduler from sem_down
    holds its own lock only, a process that returns from a call holds none, and
    no CPUs wait for each other in a cycle. -/
theorem discipline_of_reach {ok : KState n G C → Fin n → Prop}
    (h : Reach (code U) (Starts table g) ok σ) :
    (∀ c, ¬ Panics (code U) σ c) ∧
    (∀ c p s, σ.ctx c = .running p → σ.pc p = .sleepSched s →
      ∀ l, σ.owner l = some c ↔ l = .proc p) ∧
    (∀ c p r, σ.ctx c = .running p → σ.pc p = returns r → ∀ l, σ.owner l ≠ some c) ∧
    ∀ c, ¬ Relation.TransGen (Discipline.WaitsFor (code U) σ) c c := by
  have hinv : (discipline U).Inv σ := Discipline.inv_of_reach (fun _ hi => hi.start) h
  have howner : ∀ {c p}, σ.ctx c = .running p →
      ∀ l, σ.owner l = some c ↔ l ∈ (σ.pc p).held p := by
    intro c p hc l
    rw [hinv.locks.owner l c, hc]; rfl
  refine ⟨hinv.not_panics, fun c p s hc hp l => ?_, fun c p r hc hp l => ?_,
    hinv.acyclic (ranked U)⟩
  · rw [howner hc l, hp]
    exact List.mem_singleton
  · rw [Ne, howner hc l, hp]
    exact List.not_mem_nil

/-- The first process waits on a semaphore, and the second one kills it. -/
def sleepAndKill : Fin 2 → List Call
  | 0 => [.semOpen 511 0, .semDown 511]
  | 1 => [.kill 1]

/-- The first process enters the scheduler, and the second one waits for its lock. -/
theorem discipline_sleepAndKill : ∃ σ : KState 2 (Fin 2 → List Call) (Fin 2),
    (∀ l, σ.owner l = some 0 ↔ l = .proc 0) ∧
      Discipline.WaitsFor (code (scripts 2 fun _ => True)) σ 1 0 ∧
      ¬ Relation.TransGen (Discipline.WaitsFor (code (scripts 2 fun _ => True)) σ) 1 1 := by
  have hrun : (Scripts.run (fun _ => True) (fun _ _ => true)
      (List.replicate 25 0 ++ List.replicate 7 1) (fun _ => emptySem) sleepAndKill).map
        (fun σ => (σ.pc 0, σ.pc 1, σ.ctx 0, σ.ctx 1)) =
      some (.sleepSched 511, .free (.kill 1 0), .running 0, .running 1) := by decide +kernel
  obtain ⟨σ, hσ, hσ'⟩ := Option.map_eq_some_iff.1 hrun
  simp only [Prod.mk.injEq] at hσ'
  obtain ⟨hpc₀, hpc₁, hctx₀, hctx₁⟩ := hσ'
  have hreach : Reach (code (scripts 2 fun _ => True)) (Starts (fun _ => emptySem) sleepAndKill)
      (fun _ _ => True) σ := Scripts.run_reach (fun _ _ _ => trivial) hσ
  obtain ⟨-, hsched, -, hcycle⟩ := discipline_of_reach hreach
  refine ⟨σ, hsched 0 0 511 hctx₀ hpc₀, ⟨.proc 0, .thread hctx₁ (q := .killCheck 1 0) ?_, ?_⟩,
    hcycle 1⟩
  · rw [hpc₁]; exact .code rfl
  · exact (hsched 0 0 511 hctx₀ hpc₀ _).2 rfl

end OSLabs.Kernel
