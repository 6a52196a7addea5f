/-
  sem_close does not wake the processes that sleep on the semaphore.

  A process that sleeps when its semaphore is closed keeps sleeping
  (`closeWrite_sleeping`), and sem_up does not find it any more, as it returns
  ERR on a closed semaphore.  As long as nobody sleeps on a semaphore that is
  closed, nobody sleeps on a closed one (`strandsNobody_of_reach`); what a sem_up
  woke before tests the value again, and takes from what it finds there.
-/
import OSLabs.Kernel.Wakeup
import OSLabs.Kernel.Values

namespace OSLabs.Kernel

open LockMachine

variable {n : ℕ} {G C : Type} [DecidableEq C] {U : UserSys n G} {p t : Fin n} {s : Int32}
  {q q' : Point n} {m m' : Mem n G} {a : Option (Fin n)}
  {σ σ' : KState n G C} {table : Int32 → Int32} {g : G}
  {init : KState n G C → Prop} {ok : KState n G C → Fin n → Prop}

/-- No process sleeps on a semaphore that is closed and whose lock is free. -/
def StrandsNobody (s : Int32) (σ : KState n G C) : Prop :=
  σ.owner (.sem s) = none → σ.mem.value s = emptySem →
    ∀ t, ¬ (σ.mem.state t = .sleeping ∧ σ.mem.chan t = some s)

/-- The process `t` slept on `s` when a sem_close was performed, and is still
    behind the first test of that sem_down. -/
inductive Stranded (U : UserSys n G) (init : KState n G C → Prop)
    (ok : KState n G C → Fin n → Prop) (s : Int32) (t : Fin n) : KState n G C → Prop
  | close {σ σ' : KState n G C} {p : Fin n} : Reach (code U) init ok σ →
      Step (code U) σ (some p) σ' → ok σ p → σ.pc p = .closeWrite s →
      σ.mem.state t = .sleeping → σ.mem.chan t = some s → Stranded U init ok s t σ'
  | step {σ σ' : KState n G C} {a : Option (Fin n)} : Stranded U init ok s t σ →
      Step (code U) σ a σ' → (∀ p, a = some p → ok σ p) → (σ'.pc t).waits s →
      Stranded U init ok s t σ'

/-- The process `t` was awake behind its sleep on `s` when a sem_close was performed, and
    has not tested the value since. -/
inductive Woken (U : UserSys n G) (init : KState n G C → Prop)
    (ok : KState n G C → Fin n → Prop) (s : Int32) (t : Fin n) : KState n G C → Prop
  | close {σ σ' : KState n G C} {p : Fin n} : Reach (code U) init ok σ →
      Step (code U) σ (some p) σ' → ok σ p → σ.pc p = .closeWrite s →
      (σ.pc t).retests s → σ.mem.state t ≠ .sleeping → Woken U init ok s t σ'
  | step {σ σ' : KState n G C} {a : Option (Fin n)} : Woken U init ok s t σ →
      Step (code U) σ a σ' → (∀ p, a = some p → ok σ p) → (σ'.pc t).retests s →
      Woken U init ok s t σ'

/-- **sem_close leaves a process that sleeps asleep**, on a semaphore that is
    closed from then on. -/
theorem closeWrite_sleeping (hs : Step (code U) σ (some p) σ') (hp : σ.pc p = .closeWrite s) :
    σ'.mem.value s = emptySem ∧ σ'.mem.state = σ.mem.state ∧ σ'.mem.chan = σ.mem.chan := by
  rcases step_cases hs with ⟨hf, -⟩ | ⟨p', q, hpp, -, hq, -⟩
  · cases hf
  · cases hpp
    rw [hp] at hq
    generalize σ'.mem = m at hq ⊢
    cases hq
    exact ⟨Function.update_self .., rfl, rfl⟩

/-- A process that retests the value comes to the test, and takes from a value that is
    not 0. -/
theorem Moves.retests (h : Moves U p m q q' m') (hq : q.retests s) :
    q'.retests s ∨ q = .downLoop s ∧ q' = if m.value s = 0 then .sleep s else .downWrite s := by
  cases h with
  | downSleep hv => obtain rfl := hq; exact .inr ⟨rfl, (if_pos hv).symm⟩
  | downLoop hv => obtain rfl := hq; exact .inr ⟨rfl, (if_neg hv).symm⟩
  | _ => first | exact .inl hq | exact hq.elim

theorem retests_awake (hs : Step (code U) σ a σ') (hpc : (σ.pc t).retests s)
    (ht : σ.mem.state t ≠ .sleeping) : σ'.mem.state t ≠ .sleeping := by
  refine awake_step hs ht fun _ s' hsleep => ?_
  rw [hsleep] at hpc; exact hpc

theorem Woken.awake (h : Woken U init ok s t σ) :
    σ.mem.state t ≠ .sleeping ∧ (σ.pc t).retests s := by
  induction h with
  | close _ hs _ hp hpc hst =>
    refine ⟨retests_awake hs hpc hst, ?_⟩
    rwa [pc_other hs (by rintro ⟨⟩; rw [hp] at hpc; exact hpc)]
  | step _ hs _ hpc' ih => exact ⟨retests_awake hs ih.2 ih.1, hpc'⟩

/-- **Closing strands nobody**, when each sem_close of the semaphore finds nobody
    asleep on it, or about to fall asleep.  A process that a sem_up woke before the
    sem_close is not stranded either: it comes back to the test, and takes from a value
    that is not 0. -/
theorem strandsNobody_of_reach (h : Reach (code U) (Starts table g) (ClosesAwake s) σ) :
    StrandsNobody s σ ∧ (∀ t, ¬ Stranded U (Starts table g) (ClosesAwake s) s t σ) ∧
    ∀ t, Woken U (Starts table g) (ClosesAwake s) s t σ → σ.mem.state t ≠ .sleeping ∧
      ∀ σ', Step (code U) σ (some t) σ' → (σ'.pc t).retests s ∨ σ.pc t = .downLoop s ∧
        σ'.pc t = if σ.mem.value s = 0 then .sleep s else .downWrite s := by
  obtain ⟨hk, hw⟩ := wakeInv_of_reach (s := s) (fun _ _ hok => hok) h
  refine ⟨fun _ hclosed t ⟨hst, hchan⟩ => ?_, fun t ht => ?_, fun t ht => ⟨ht.awake.1, ?_⟩⟩
  · rw [hw.sleeping hk hst hchan] at hclosed
    exact absurd hclosed (by decide)
  · clear h hk hw
    induction ht with
    | close hreach _ hok hpc hst hchan =>
      exact hok hpc t ((kinv_of_reach hreach).dozes hst hchan)
    | step _ _ _ _ ih => exact ih
  · intro σ' hs
    rcases step_cases hs with ⟨hf, -⟩ | ⟨p, q, hp, -, hq, hpc⟩
    · cases hf
    · cases hp
      rw [hpc, Function.update_self]
      exact hq.retests ht.awake.2

/-- When the first process is back from sem_down before the second one closes the
    semaphore, nobody is left behind. -/
theorem strandsNobody_upAndClose : ∃ σ : KState 2 (Fin 2 → List Call) (Fin 2),
    σ.pc 1 = returns success ∧ σ.mem.value 511 = emptySem ∧
      ∀ t, ¬ (σ.mem.state t = .sleeping ∧ σ.mem.chan t = some 511) := by
  -- nobody is in sem_down when the second process closes the semaphore
  have hrun : (Scripts.run (fun _ => True) (fun σ p => σ.pc p = .closeWrite 511 →
        ∀ t, σ.pc t = .closeWrite 511 ∨ σ.pc t = returns success)
      (List.replicate 27 0 ++ List.replicate 16 1 ++ List.replicate 11 0 ++ List.replicate 11 1)
      (fun _ => emptySem) upAndClose).map
        (fun σ => (σ.pc 1, σ.mem.value 511, σ.owner (.sem 511))) =
      some (returns success, emptySem, none) := by decide +kernel
  obtain ⟨σ, hσ, hσ'⟩ := Option.map_eq_some_iff.1 hrun
  simp only [Prod.mk.injEq] at hσ'
  obtain ⟨hpc, hclosed, hfree⟩ := hσ'
  refine ⟨σ, hpc, hclosed, (strandsNobody_of_reach
    (Scripts.run_reach (fun σ p hok hp t ht => ?_) hσ)).1 hfree hclosed⟩
  rcases of_decide_eq_true hok hp t with hpt | hpt
  all_goals
    simp only [Dozes, hpt] at ht
    exact ht

/-! ## A semaphore closed behind sleep -/

/-- The first process waits on a semaphore; the second one closes it, and opens it
    again with a token. -/
def downAndClose : Fin 2 → List Call
  | 0 => [.semOpen 511 0, .semDown 511]
  | 1 => [.semClose 511, .semOpen 511 1]

/-- The first process sleeps on the closed semaphore, and still does when the
    semaphore is open again and has a token. -/
theorem not_strandsNobody_downAndClose :
    (∃ σ : KState 2 (Fin 2 → List Call) (Fin 2),
      Reach (code (scripts 2 fun _ => True)) (Starts (fun _ => emptySem) downAndClose)
        (fun _ _ => True) σ ∧ σ.pc 1 = returns success ∧ ¬ StrandsNobody 511 σ) ∧
    ∃ σ : KState 2 (Fin 2 → List Call) (Fin 2),
      Reach (code (scripts 2 fun _ => True)) (Starts (fun _ => emptySem) downAndClose)
        (fun _ _ => True) σ ∧ σ.mem.value 511 = 1 ∧ σ.mem.user 1 = [] ∧
        σ.mem.state 0 = .sleeping ∧ σ.mem.chan 0 = some 511 := by
  have hclose : (Scripts.run (fun _ => True) (fun _ _ => true)
      (List.replicate 27 0 ++ List.replicate 10 1) (fun _ => emptySem) downAndClose).map
        (fun σ => (σ.pc 1, σ.mem.value 511, σ.owner (.sem 511), σ.mem.state 0, σ.mem.chan 0)) =
      some (returns success, emptySem, none, .sleeping, some 511) := by decide +kernel
  have hopen : (Scripts.run (fun _ => True) (fun _ _ => true)
      (List.replicate 27 0 ++ List.replicate 21 1) (fun _ => emptySem) downAndClose).map
        (fun σ => (σ.mem.value 511, σ.mem.user 1, σ.mem.state 0, σ.mem.chan 0)) =
      some (1, [], .sleeping, some 511) := by decide +kernel
  obtain ⟨σ, hσ, hσ'⟩ := Option.map_eq_some_iff.1 hclose
  obtain ⟨τ, hτ, hτ'⟩ := Option.map_eq_some_iff.1 hopen
  simp only [Prod.mk.injEq] at hσ' hτ'
  obtain ⟨hpc, hclosed, hfree, hst, hchan⟩ := hσ'
  refine ⟨⟨σ, Scripts.run_reach (fun _ _ _ => trivial) hσ, hpc, fun h => ?_⟩,
    τ, Scripts.run_reach (fun _ _ _ => trivial) hτ, hτ'⟩
  exact h hfree hclosed 0 ⟨hst, hchan⟩

end OSLabs.Kernel
