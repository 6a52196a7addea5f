/-
  The values of the semaphores, over whole runs.

  An open semaphore has a value that is not negative and a closed one has
  EMPTY_SEM, as long as sem_down finds the semaphore open when it tests the
  value again behind sleep (`semOk_of_reach`).  The code does not make sure of
  that: when a semaphore is closed while a process is on its way out of sleep,
  the sem_down takes a token from it, and returns SUCCESS.
-/
import OSLabs.Kernel.Steps
import OSLabs.Kernel.Scripts

namespace OSLabs.Kernel

open LockMachine

variable {n : ℕ} {G C : Type} [DecidableEq C] {U : UserSys n G} {p : Fin n} {s : Int32}
  {q q' : Point n} {m m' : Mem n G} {σ σ' : KState n G C} {a : Option (Fin n)}
  {table : Int32 → Int32} {g : G}

/-! ## Values that do not wrap around -/

theorem toInt_succ {v : Int32} (hmax : v ≠ Int32.maxValue) : (v + 1).toInt = v.toInt + 1 := by
  have hle := v.le_toInt
  have hlt := v.toInt_lt
  have hne : v.toInt ≠ 2147483647 := fun h => hmax (Int32.toInt_inj.1 h)
  rw [show v + 1 = Int32.ofInt (v.toInt + 1) by rw [Int32.ofInt_add, Int32.ofInt_toInt]; rfl]
  exact Int32.toInt_ofInt_of_le (by omega) (by omega)

theorem toInt_pred {v : Int32} (h : 0 ≤ v) : (v - 1).toInt = v.toInt - 1 := by
  have hlt := v.toInt_lt
  have hle : 0 ≤ v.toInt := Int32.le_iff_toInt_le.1 h
  rw [show v - 1 = Int32.ofInt (v.toInt - 1) by rw [Int32.ofInt_sub, Int32.ofInt_toInt]; rfl]
  exact Int32.toInt_ofInt_of_le (by omega) (by omega)

/-! ## The table at boot -/

theorem foldl_update (is : List ℕ) (table : Int32 → Int32) :
    is.foldl (fun t i => Function.update t (Int32.ofNat i) emptySem) table s =
      if s ∈ is.map Int32.ofNat then emptySem else table s := by
  induction is generalizing table with
  | nil => rfl
  | cons i is ih =>
    simp only [List.foldl_cons, ih, List.map_cons, List.mem_cons]
    by_cases hmem : s ∈ is.map Int32.ofNat
    · simp only [hmem, or_true, if_true]
    · by_cases hs : s = Int32.ofNat i
      · simp [hs]
      · simp [hmem, hs]

theorem InRange.exists_ofNat (hs : InRange s) : ∃ i < 512, Int32.ofNat i = s := by
  have h₀ := Int32.le_iff_toInt_le.1 hs.1
  have h₁ := Int32.lt_iff_toInt_lt.1 hs.2
  rw [show (0 : Int32).toInt = 0 from rfl] at h₀
  rw [show maxSem.toInt = 512 from rfl] at h₁
  refine ⟨s.toInt.toNat, by omega, ?_⟩
  rw [← Int32.toInt_inj, Int32.toInt_ofNat_of_lt (by omega)]
  omega

/-- All semaphores are closed at boot. -/
theorem makeSemArray_inRange (hs : InRange s) : makeSemArray table s = emptySem := by
  obtain ⟨i, hi, hi'⟩ := hs.exists_ofNat
  rw [makeSemArray, foldl_update, if_pos]
  exact List.mem_map.2 ⟨i, List.mem_range.2 hi, hi'⟩

/-! ## The property -/

/-- The value goes with the last sem_open or sem_close. -/
def ValueOk (m : Mem n G) (s : Int32) : Prop :=
  (m.isOpen s = true → 0 ≤ m.value s) ∧ (m.isOpen s = false → m.value s = emptySem)

/-- What the users of a semaphore rely on: its value whenever its lock is free,
    and that a sem_down that returns SUCCESS finds the semaphore open. -/
structure SemOk (σ : KState n G C) (s : Int32) : Prop where
  value : σ.owner (.sem s) = none → ValueOk σ.mem s
  bound : emptySem ≤ σ.mem.value s
  down : ∀ p, σ.pc p = .downRelease s success → σ.mem.isOpen s = true

/-- The next step of `p` is no sem_up at INT_MAX. -/
def NoOverflow (s : Int32) (σ : KState n G C) (p : Fin n) : Prop :=
  σ.pc p = .upWrite s → σ.mem.value s ≠ Int32.maxValue

/-- The next step of `p` is no test of the loop of sem_down on a closed
    semaphore. -/
def RetestsOpen (s : Int32) (σ : KState n G C) (p : Fin n) : Prop :=
  σ.pc p = .downLoop s → σ.mem.value s ≠ emptySem

instance (s : Int32) (σ : KState n G C) (p : Fin n) : Decidable (NoOverflow s σ p) :=
  inferInstanceAs (Decidable (_ → _))

instance (s : Int32) (σ : KState n G C) (p : Fin n) : Decidable (RetestsOpen s σ p) :=
  inferInstanceAs (Decidable (_ → _))

theorem ValueOk.bound (h : ValueOk m s) : emptySem ≤ m.value s := by
  cases ho : m.isOpen s with
  | true => exact Int32.le_trans (by decide) (h.1 ho)
  | false => rw [h.2 ho]; exact Int32.le_refl _

/-- A semaphore that is not EMPTY_SEM is open. -/
theorem ValueOk.isOpen (h : ValueOk m s) (hne : m.value s ≠ emptySem) : m.isOpen s = true := by
  by_contra ho
  exact hne (h.2 (by simpa using ho))

theorem ValueOk.of_isOpen (ho : m.isOpen s = true) (hv : 0 ≤ m.value s) : ValueOk m s :=
  ⟨fun _ => hv, fun hf => by rw [ho] at hf; cases hf⟩

/-! ## The invariant -/

/-- The property, with what sem_down knows at its decrement. -/
structure ValueInv (s : Int32) (σ : KState n G C) : Prop where
  value : ValueOk σ.mem s
  downWrite : ∀ p, σ.pc p = .downWrite s → σ.mem.value s ≠ emptySem
  downRelease : ∀ p, σ.pc p = .downRelease s success → σ.mem.isOpen s = true

omit [DecidableEq C] in
theorem ValueInv.semOk (h : ValueInv s σ) : SemOk σ s :=
  ⟨fun _ => h.value, h.value.bound, h.downRelease⟩

theorem Moves.of_downWrite (h : Moves U p m q (.downWrite s) m') :
    q = .downLoop s ∧ m'.value s = m.value s := by
  cases h; exact ⟨rfl, rfl⟩

theorem Moves.of_downRelease (h : Moves U p m q (.downRelease s success) m') :
    q = .downWrite s ∧ m'.isOpen s = m.isOpen s := by
  cases h; exact ⟨rfl, rfl⟩

omit [DecidableEq C] in
/-- A write keeps the value and the history of the semaphore together. -/
theorem ValueInv.writes (h : ValueInv s σ) (hq : (σ.pc p).asserts σ.mem.value)
    (hup : NoOverflow s σ p) (hw : Writes s σ.mem m' (σ.pc p) q) : ValueOk m' s := by
  generalize hpc : σ.pc p = r at hw hq
  cases hw with
  | keep hv ho =>
    simp only [ValueOk, hv, ho]; exact h.value
  | openTest _ hv ho => exact .of_isOpen ho (by rw [hv]; exact hq)
  | closeWrite hv ho => exact ⟨fun ht => absurd ht (by simp [ho]), fun _ => hv⟩
  | upWrite hv ho =>
    have hopen := h.value.isOpen hq
    have hpos := h.value.1 hopen
    have hmax := hup hpc
    exact .of_isOpen (by rw [ho, hopen]) (by rw [hv]; grind)
  | downWrite hv ho =>
    have hopen := h.value.isOpen (h.downWrite p hpc)
    have hpos := h.value.1 hopen
    have hzero : σ.mem.value s ≠ 0 := hq
    exact .of_isOpen (by rw [ho, hopen]) (by rw [hv]; grind)

theorem ValueInv.step (h : ValueInv s σ) (hk : KInv U σ) (hs : Step (code U) σ a σ')
    (hup : ∀ p, a = some p → NoOverflow s σ p) (hloop : ∀ p, a = some p → RetestsOpen s σ p) :
    ValueInv s σ' := by
  have hother : ∀ p, a ≠ some p → .sem s ∈ (σ.pc p).held p →
      σ'.mem.value s = σ.mem.value s ∧ σ'.mem.isOpen s = σ.mem.isOpen s :=
    fun p hp hheld => hk.sem_eq hs hp hheld
  constructor
  · rcases step_writes hs s with ⟨hv, ho⟩ | ⟨p, rfl, hw⟩
    · simp only [ValueOk, hv, ho]; exact h.value
    · exact h.writes (hk.asserts p) (hup p rfl) hw
  all_goals
    intro p hp
    rcases step_cases hs with ⟨rfl, hpc, -⟩ | ⟨p₀, q, rfl, -, hq, hpc⟩
  · rw [hpc] at hp
    rw [(hother p nofun (by rw [hp]; exact List.mem_singleton_self _)).1]
    exact h.downWrite p hp
  · rw [hpc] at hp
    by_cases hpp : p = p₀
    · subst hpp
      rw [Function.update_self] at hp
      subst hp
      obtain ⟨hold, hv⟩ := hq.of_downWrite
      rw [hv]; exact hloop p rfl hold
    · rw [Function.update_of_ne hpp] at hp
      rw [(hother p (by simpa using Ne.symm hpp) (by rw [hp]; exact List.mem_singleton_self _)).1]
      exact h.downWrite p hp
  · rw [hpc] at hp
    rw [(hother p nofun (by rw [hp]; exact List.mem_singleton_self _)).2]
    exact h.downRelease p hp
  · rw [hpc] at hp
    by_cases hpp : p = p₀
    · subst hpp
      rw [Function.update_self] at hp
      subst hp
      obtain ⟨hold, ho⟩ := hq.of_downRelease
      rw [ho]; exact h.value.isOpen (h.downWrite p hold)
    · rw [Function.update_of_ne hpp] at hp
      rw [(hother p (by simpa using Ne.symm hpp) (by rw [hp]; exact List.mem_singleton_self _)).2]
      exact h.downRelease p hp

theorem nonneg_of_ne {v : Int32} (hv : emptySem ≤ v) (hne : v ≠ emptySem) : 0 ≤ v := by
  rw [emptySem] at hv hne
  grind

omit [DecidableEq C] in
theorem Starts.valueInv (h : Starts table g σ) (hs : emptySem ≤ table s) : ValueInv s σ where
  value := by
    rw [ValueOk, h.isOpen, h.value]
    exact ⟨fun ho => nonneg_of_ne hs (of_decide_eq_true ho),
      fun ho => not_not.1 (of_decide_eq_false ho)⟩
  downWrite p hp := by rw [h.pc] at hp; cases hp
  downRelease p hp := by rw [h.pc] at hp; cases hp

/-- **The values of a semaphore.**  From boot on, in each state reached by steps
    that neither overflow nor test a closed semaphore behind sleep. -/
theorem semOk_of_reach (hs : InRange s) (h : Reach (code U) (Starts (makeSemArray table) g)
    (fun σ p => NoOverflow s σ p ∧ RetestsOpen s σ p) σ) : SemOk σ s := by
  have hinv : KInv U σ ∧ ValueInv s σ := by
    refine h.invariant (I := fun σ => KInv U σ ∧ ValueInv s σ) (fun σ hi => ?_) ?_
    · exact ⟨hi.kinv, hi.valueInv (by rw [makeSemArray_inRange hs]; exact Int32.le_refl _)⟩
    · rintro σ a σ' ⟨hk, hv⟩ hstep hok
      exact ⟨hk.step hstep, hv.step hk hstep (fun p hp => (hok p hp).1) fun p hp => (hok p hp).2⟩
  exact hinv.2.semOk

/-! ## A semaphore closed behind sleep -/

/-- The first process waits on the last semaphore of the table; the second one
    ups it, and closes it. -/
def upAndClose : Fin 2 → List Call
  | 0 => [.semOpen 511 0, .semDown 511]
  | 1 => [.semUp 511, .semClose 511]

/-- When the first process is back from sleep before the second one closes the
    semaphore, it takes the token. -/
theorem semOk_upAndClose : ∃ σ : KState 2 (Fin 2 → List Call) (Fin 2),
    σ.pc 0 = .downRelease 511 success ∧ SemOk σ 511 := by
  have hrun : (Scripts.run (fun _ => True) (fun σ p => NoOverflow 511 σ p ∧ RetestsOpen 511 σ p)
      (List.replicate 27 0 ++ List.replicate 16 1 ++ List.replicate 10 0)
      (makeSemArray fun _ => 0) upAndClose).map (fun σ => σ.pc 0) =
      some (.downRelease 511 success) := by decide +kernel
  obtain ⟨σ, hσ, hpc⟩ := Option.map_eq_some_iff.1 hrun
  exact ⟨σ, hpc, semOk_of_reach (by decide) (Scripts.run_reach (fun _ _ => of_decide_eq_true) hσ)⟩

/-- When the second process closes it first, the first one takes a token that is
    not there. -/
theorem not_semOk_upAndClose : ∃ σ : KState 2 (Fin 2 → List Call) (Fin 2),
    Reach (code (scripts 2 fun _ => True)) (Starts (makeSemArray fun _ => 0) upAndClose) (NoOverflow 511) σ ∧
      σ.pc 0 = .free (.killed (.userret success)) ∧ σ.owner (.sem 511) = none ∧
      σ.mem.value 511 = -2 ∧ ¬ SemOk σ 511 := by
  have hrun : (Scripts.run (fun _ => True) (fun σ p => NoOverflow 511 σ p)
      (List.replicate 27 0 ++ List.replicate 30 1 ++ List.replicate 11 0)
      (makeSemArray fun _ => 0) upAndClose).map
        (fun σ => (σ.pc 0, σ.owner (.sem 511), σ.mem.value 511)) =
      some (.free (.killed (.userret success)), none, -2) := by decide +kernel
  obtain ⟨σ, hσ, hσ'⟩ := Option.map_eq_some_iff.1 hrun
  simp only [Prod.mk.injEq] at hσ'
  obtain ⟨hpc, hfree, hv⟩ := hσ'
  refine ⟨σ, Scripts.run_reach (fun _ _ => of_decide_eq_true) hσ, hpc, hfree, hv, fun hok => ?_⟩
  have := hok.bound
  rw [hv] at this
  exact absurd this (by decide)

end OSLabs.Kernel
