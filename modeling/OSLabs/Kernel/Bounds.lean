/-
  The indices at which the system calls access the table of semaphores.

  sem_open and sem_close let the index MAX_SEM pass their checks, and sem_up and
  sem_down check nothing.  So a call stays inside the table if and only if its
  index is in range, or its own checks reject it (`bounded_iff`).
-/
import OSLabs.Kernel.Atomic
import OSLabs.Kernel.Scripts

namespace OSLabs.Kernel

open LockMachine

variable {n : ℕ} {G : Type} {U : UserSys n G} {p : Fin n} {c : Call} {s s' r : Int32}
  {q q' : Point n} {m m' : Mem n G}

/-- The index of the table at which the instruction at a point accesses the lock
    or the value of a semaphore. -/
def Free.accesses : Free → Option Int32
  | .semOpen s _ => some s
  | .semClose s => some s
  | .semUp s => some s
  | .semDown s => some s
  | .reacquire s => some s
  | _ => none

/-- The same for all points.  sleep and wakeup also get the address of the
    semaphore, as a channel, but do not access it. -/
def Point.accesses : Point n → Option Int32
  | .free f => f.accesses
  | .openTest s _ => some s
  | .openRelease s _ => some s
  | .closeWrite s => some s
  | .closeRelease s => some s
  | .upTest s => some s
  | .upWrite s => some s
  | .upRelease s _ => some s
  | .downTest s => some s
  | .downLoop s => some s
  | .sleepRelease s => some s
  | .downWrite s => some s
  | .downRelease s _ => some s
  | _ => none

/-- The lock of a semaphore is taken and given back by accesses. -/
theorem accesses_lock {q'' : Point n} (h : Does U p q m (.acquire (.sem s) q'') ∨
    Does U p q m (.release (.sem s) q'')) : q.accesses = some s := by
  rcases h with h | h
  all_goals
    cases h with
    | code h =>
      cases q with
      | free f =>
        cases f with
        | kill pid k =>
          simp only [exec, execFree] at h
          split_ifs at h
          all_goals cases h
        | _ => first | (cases h; rfl) | cases h
      | _ =>
        simp only [exec] at h
        try split_ifs at h
        all_goals first | (cases h; rfl) | cases h

/-- A value is written by an access. -/
theorem accesses_write (h : Moves U p m q q' m') (hs : q.accesses ≠ some s) :
    m'.value s = m.value s := by
  cases h.writes s with
  | keep hv _ => exact hv
  | _ => exact absurd rfl hs

/-- A value that is not accessed does not decide how the code goes on. -/
theorem accesses_read (hs : q.accesses ≠ some s) (v : Int32) :
    (exec U p q (m.setValue s v)).map Instr.next = (exec U p q m).map Instr.next := by
  have hvalue : ∀ {s'}, s' ≠ s → (m.setValue s v).value s' = m.value s' :=
    fun hne => Function.update_of_ne hne ..
  cases q with
  | free f =>
    cases f with
    | kill pid k => simp only [exec, execFree]; split_ifs <;> rfl
    | _ => rfl
  | openTest s' v' =>
    simp only [exec, hvalue fun h => hs (congrArg some h)]; split_ifs <;> rfl
  | upTest s' => simp only [exec, hvalue fun h => hs (congrArg some h)]; split_ifs <;> rfl
  | downTest s' => simp only [exec, hvalue fun h => hs (congrArg some h)]; split_ifs <;> rfl
  | downLoop s' => simp only [exec, hvalue fun h => hs (congrArg some h)]; split_ifs <;> rfl
  | wakeup s' k => simp only [exec]; split_ifs <;> rfl
  | wakeupCheck s' t =>
    by_cases ht : m.state t = .sleeping ∧ m.chan t = some s' <;>
      simp [exec, Mem.setValue, ht, Instr.next]
  | killCheck pid t => by_cases ht : m.pid t = pid <;> simp [exec, Mem.setValue, ht, Instr.next]
  | _ => rfl

/-- The points that a process runs through in a call, whatever the memory is
    before each of its moves. -/
inductive During (U : UserSys n G) (p : Fin n) (c : Call) : Point n → Prop
  | enter : During U p c (enter c)
  | move {q q' : Point n} {m m' : Mem n G} : During U p c q → Moves U p m q q' m' →
      q'.phase ≠ .idle → During U p c q'

/-- A call accesses the table in range only, and returns ERR without an access if
    its index is not in range. -/
structure Bounded (U : UserSys n G) (p : Fin n) (c : Call) : Prop where
  accesses : ∀ q, During U p c q → ∀ s, q.accesses = some s → InRange s
  err : (∀ s, c.sem = some s → ¬ InRange s) → ∀ q, During U p c q →
    q.accesses = none ∧ ∀ r, q.phase = .responded r → r = err

/-! ## The points of a call -/

/-- How a move goes on in a call. -/
theorem Moves.phase (h : Moves U p m q q' m') : q'.phase = q.phase ∨ q.phase = .idle ∨
    q'.phase = .idle ∨ q'.phase = .exited ∨
    ∃ c r, q.phase = .invoked c ∧ q'.phase = .responded r := by
  cases h.reply with
  | stutter hphase _ _ _ => exact .inl hphase
  | invoke hidle _ _ _ _ => exact .inr (.inl hidle)
  | respond _ _ hidle _ _ => exact .inr (.inr (.inl hidle))
  | act hidle _ _ _ _ => exact .inr (.inl hidle)
  | exit hexit _ _ _ => exact .inr (.inr (.inr (.inl hexit)))
  | perform hinv hresp _ _ _ _ => exact .inr (.inr (.inr (.inr ⟨_, _, hinv, hresp⟩)))

/-- The instruction behind a move accesses the semaphore of the call, or the one
    that was accessed before. -/
theorem Moves.accesses (h : Moves U p m q q' m') (hs : q'.accesses = some s) :
    (∃ c, q'.phase = .invoked c ∧ c.sem = some s) ∨ q.accesses = some s := by
  have hfree : ∀ {f : Free}, f.accesses = some s → ∃ c, f.phase = .invoked c ∧ c.sem = some s := by
    intro f hf
    cases f with
    | semOpen s' v => exact ⟨_, rfl, hf⟩
    | semClose s' => exact ⟨_, rfl, hf⟩
    | semUp s' => exact ⟨_, rfl, hf⟩
    | semDown s' => exact ⟨_, rfl, hf⟩
    | reacquire s' => exact ⟨_, rfl, hf⟩
    | _ => cases hf
  cases h with
  | enter hf => exact .inl (hfree hs)
  | yieldRelease => exact .inl (hfree hs)
  | semOpen => exact .inl ⟨_, rfl, hs⟩
  | openErr _ => exact .inr hs
  | openWrite _ => exact .inr hs
  | semClose => exact .inl ⟨_, rfl, hs⟩
  | closeWrite => exact .inr hs
  | semUp => exact .inl ⟨_, rfl, hs⟩
  | upErr _ => exact .inr hs
  | upMore _ _ => exact .inl ⟨_, rfl, hs⟩
  | wakeupDone _ => exact .inl ⟨_, rfl, hs⟩
  | upWrite => exact .inr hs
  | semDown => exact .inl ⟨_, rfl, hs⟩
  | downErr _ => exact .inr hs
  | downTest _ => exact .inl ⟨_, rfl, hs⟩
  | downLoop _ => exact .inl ⟨_, rfl, hs⟩
  | downWrite => exact .inr hs
  | sleep => exact .inl ⟨_, rfl, hs⟩
  | sleepUnlock => exact .inl ⟨_, rfl, hs⟩
  | reacquire => exact .inl ⟨_, rfl, hs⟩
  | _ => cases hs

theorem enter_rejected (h : c.Rejected) : (enter c : Point n) = returns err := by
  cases c with
  | semOpen s v => exact if_pos h
  | semClose s => exact if_pos h
  | _ => exact h.elim

/-- A call that is not rejected is about to access its semaphore. -/
theorem enter_accepted (h : ¬ c.Rejected) : ∃ f, (enter c : Point n) = .free f ∧
    f.phase = .invoked c ∧ f.accesses = c.sem := by
  cases c with
  | semOpen s v => exact ⟨_, if_neg h, rfl, rfl⟩
  | semClose s => exact ⟨_, if_neg h, rfl, rfl⟩
  | semUp s => exact ⟨_, rfl, rfl, rfl⟩
  | semDown s => exact ⟨_, rfl, rfl, rfl⟩
  | kill pid => exact ⟨_, rfl, rfl, rfl⟩

/-- A call accesses its own semaphore only. -/
theorem During.sem (h : During U p c q) : (∀ c', q.phase = .invoked c' → c' = c) ∧
    q.phase ≠ .idle ∧ ∀ s, q.accesses = some s → c.sem = some s := by
  induction h with
  | enter =>
    by_cases hrej : c.Rejected
    · rw [enter_rejected hrej]; exact ⟨nofun, nofun, nofun⟩
    · obtain ⟨f, hf, hphase, hacc⟩ := enter_accepted (n := n) hrej
      rw [hf]
      refine ⟨fun c' hc' => ?_, ?_, fun s hs => hacc ▸ hs⟩
      · rw [Point.phase, hphase] at hc'; cases hc'; rfl
      · rw [Point.phase, hphase]; exact nofun
  | @move _ q' _ _ _ hm hidle ih =>
    obtain ⟨hphase, hin, hacc⟩ := ih
    have hphase' : ∀ c', q'.phase = .invoked c' → c' = c := by
      intro c' hc'
      rcases hm.phase with heq | heq | heq | heq | ⟨_, _, _, heq⟩
      · exact hphase c' (by rw [← heq, hc'])
      · exact absurd heq hin
      · exact absurd heq hidle
      · rw [heq] at hc'; cases hc'
      · rw [heq] at hc'; cases hc'
    refine ⟨hphase', hidle, fun s hs => ?_⟩
    rcases hm.accesses hs with ⟨c', hc', hsem⟩ | hold
    · rw [← hphase' c' hc', hsem]
    · exact hacc s hold

/-- A call that is rejected accesses nothing, and returns ERR. -/
theorem During.of_rejected (h : During U p c q) (hrej : c.Rejected) :
    q.accesses = none ∧ (q.phase = .responded err ∨ q.phase = .exited) := by
  induction h with
  | enter => rw [enter_rejected hrej]; exact ⟨rfl, .inl rfl⟩
  | @move q q' _ _ hd hm hidle ih =>
    obtain ⟨hacc, hphase⟩ := ih
    have hphase' : q'.phase = .responded err ∨ q'.phase = .exited := by
      rcases hm.phase with heq | heq | heq | heq | ⟨_, _, heq, _⟩
      · rwa [heq]
      · exact absurd heq hd.sem.2.1
      · exact absurd heq hidle
      · exact .inr heq
      · rw [heq] at hphase; exact absurd hphase (by simp)
    refine ⟨?_, hphase'⟩
    by_contra hne
    obtain ⟨s, hs⟩ := Option.ne_none_iff_exists'.1 hne
    rcases hm.accesses hs with ⟨c', hc', -⟩ | hold
    · rw [hc'] at hphase'; exact absurd hphase' (by simp)
    · rw [hacc] at hold; cases hold

/-! ## The calls that stay inside -/

/-- **The calls that stay inside the table** are those whose index is in range, or
    that are rejected by the checks of the code. -/
theorem bounded_iff (hc : c.sem = some s) : Bounded U p c ↔ InRange s ∨ c.Rejected := by
  constructor
  · intro h
    by_cases hrej : c.Rejected
    · exact .inr hrej
    · obtain ⟨f, hf, -, hacc⟩ := enter_accepted (n := n) hrej
      exact .inl (h.accesses _ .enter s (by rw [hf, Point.accesses, hacc, hc]))
  · rintro (hs | hrej)
    · refine ⟨fun q hq s' hs' => ?_, fun hout => absurd hs (hout s hc)⟩
      have := hq.sem.2.2 s' hs'
      rw [hc] at this
      cases this; exact hs
    · refine ⟨fun q hq s' hs' => ?_, fun _ q hq => ?_⟩
      · rw [(hq.of_rejected hrej).1] at hs'; cases hs'
      · obtain ⟨hacc, hphase | hphase⟩ := hq.of_rejected hrej
        · refine ⟨hacc, fun r hr => ?_⟩
          rw [hphase] at hr; cases hr; rfl
        · refine ⟨hacc, fun r hr => ?_⟩
          rw [hphase] at hr; cases hr

/-- A sem_open of the last semaphore stays inside, and so does one that is rejected. -/
theorem bounded_semOpen : Bounded (scripts 1 fun _ => True) 0 (.semOpen 511 0) ∧
    Bounded (scripts 1 fun _ => True) 0 (.semOpen 513 0) :=
  ⟨(bounded_iff rfl).2 (.inl (by decide)), (bounded_iff rfl).2 (.inr (.inr (.inr (by decide))))⟩

/-- The calls on the index MAX_SEM access the word behind the table, and sem_up on
    a negative index the words before it. -/
theorem not_bounded_maxSem : ¬ Bounded (scripts 1 fun _ => True) 0 (.semOpen 512 0) ∧
    ¬ Bounded (scripts 1 fun _ => True) 0 (.semClose 512) ∧
    ¬ Bounded (scripts 1 fun _ => True) 0 (.semUp (-1)) ∧
    ¬ Bounded (scripts 1 fun _ => True) 0 (.semDown 512) := by
  refine ⟨fun h => ?_, fun h => ?_, fun h => ?_, fun h => ?_⟩
  · exact absurd (h.accesses _ .enter 512 (by decide)) (by decide)
  · exact absurd (h.accesses _ .enter 512 (by decide)) (by decide)
  · exact absurd (h.accesses _ .enter (-1) rfl) (by decide)
  · exact absurd (h.accesses _ .enter 512 rfl) (by decide)

end OSLabs.Kernel
