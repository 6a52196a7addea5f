/-
  What a semaphore counts.

  The value of a semaphore is what it was opened with, plus its sem_ups, less
  its sem_downs, as long as that is no more than INT_MAX: sem_up increments any
  value, and the one after INT_MAX is INT_MIN.  So a semaphore counts exactly
  if and only if no sem_up is performed on it at INT_MAX (`countsExactly_iff`).
-/
import OSLabs.Kernel.Tokens

namespace OSLabs.Kernel

open LockMachine AtomicObject

variable {n : ℕ} {G C : Type} [DecidableEq C] {U : UserSys n G} {p : Fin n} {s v : Int32}
  {σ σ' : KState n G C} {a : Option (Fin n)} {table : Int32 → Int32} {g : G}

/-! ## Histories -/

/-- A call that was performed, with the value of the semaphore before it and
    behind it. -/
structure Entry (n : ℕ) where
  event : Fin n × Call × Int32
  before : Int32
  after : Int32
  deriving DecidableEq, Repr

/-- What a step adds to the history of a semaphore. -/
def recorded (s : Int32) (σ σ' : KState n G C) : Option (Fin n) → List (Entry n)
  | none => []
  | some p =>
    match (σ.pc p).phase, (σ'.pc p).phase with
    | .invoked c, .responded r => [⟨(p, c, r), σ.mem.value s, σ'.mem.value s⟩]
    | _, _ => []

/-- **Runs of the kernel behind a sem_open** of `s` with the value `v`, up to the
    next sem_close, with the calls that were performed in them. -/
inductive History (U : UserSys n G) (table : Int32 → Int32) (g : G) (s v : Int32) :
    KState n G C → List (Entry n) → Prop
  | opened {σ σ' : KState n G C} {p : Fin n} :
      Reach (code U) (Starts table g) (fun _ _ => True) σ → Step (code U) σ (some p) σ' →
      (σ.pc p).phase = .invoked (.semOpen s v) → (σ'.pc p).phase = .responded success →
      History U table g s v σ' []
  | step {σ σ' : KState n G C} {a : Option (Fin n)} {log : List (Entry n)} :
      History U table g s v σ log → Step (code U) σ a σ' →
      (∀ p, a = some p → σ.pc p ≠ .closeWrite s) →
      History U table g s v σ' (log ++ recorded s σ σ' a)

/-- What is left of `v` by the calls of a history. -/
def count (s v : Int32) (log : List (Entry n)) : ℤ :=
  v.toInt + ups s (log.map Entry.event) - downs s (log.map Entry.event)

/-- **Each successful sem_up and sem_down leaves the exact count**, which is not
    negative. -/
def CountsExactly (s v : Int32) (log : List (Entry n)) : Prop :=
  ∀ pre e post, log = pre ++ e :: post →
    (e.event.2 = (.semUp s, success) ∨ e.event.2 = (.semDown s, success)) →
    e.after.toInt = count s v (pre ++ [e]) ∧ 0 ≤ e.after

/-- No sem_up is performed at INT_MAX. -/
def NoWrap (s : Int32) (log : List (Entry n)) : Prop :=
  ∀ e ∈ log, e.event.2.1 = .semUp s → e.before ≠ Int32.maxValue

/-! ## One call -/

section
variable {e : Entry n} {log : List (Entry n)}

/-- What a call does to the value of an open semaphore. -/
inductive Counts (s : Int32) (e : Entry n) : Prop
  | other : e.event.2.1 ≠ .semUp s → e.event.2.1 ≠ .semDown s → e.after = e.before → Counts s e
  | up : e.event.2 = (.semUp s, success) → e.after = e.before + 1 → Counts s e
  | down : e.event.2 = (.semDown s, success) → e.before ≠ 0 → e.after = e.before - 1 → Counts s e

theorem counts_of_outcome {m m' : Mem n G} {q : Point n} {c : Call} {r : Int32}
    (h : Outcome m m' c r) (hopen : 0 ≤ m.value s) (hclose : q ≠ .closeWrite s)
    (hpoint : r = success → q = c.point) (hq : q.asserts m.value) :
    Counts s ⟨(p, c, r), m.value s, m'.value s⟩ := by
  have hne : ∀ {s'}, m.value s' = emptySem → s' ≠ s := by
    rintro s' hempty rfl
    rw [hempty] at hopen
    exact absurd hopen (by decide)
  have hother : ∀ {s' v}, s' ≠ s → m'.value = Function.update m.value s' v →
      m'.value s = m.value s := by
    intro s' v hs hv
    rw [hv, Function.update_of_ne hs.symm]
  cases h with
  | reject hrej hv _ =>
    refine .other ?_ ?_ (by rw [hv])
    · rintro rfl; exact hrej
    · rintro rfl; exact hrej
  | openErr _ hv _ => exact .other (by simp) (by simp) (by rw [hv])
  | openOk hempty hv _ => exact .other (by simp) (by simp) (hother (hne hempty) hv)
  | @close s' hv _ =>
    have hs : s' ≠ s := by
      rintro rfl
      exact hclose (hpoint rfl)
    exact .other (by simp) (by simp) (hother hs hv)
  | upErr hempty hv _ => exact .other (by simpa using hne hempty) (by simp) (by rw [hv])
  | @upOk s' hv _ =>
    by_cases hs : s' = s
    · subst hs
      exact .up rfl (by rw [hv, Function.update_self])
    · exact .other (by simpa using hs) (by simp) (hother hs hv)
  | downErr hempty hv _ => exact .other (by simp) (by simpa using hne hempty) (by rw [hv])
  | @downOk s' hv _ =>
    by_cases hs : s' = s
    · subst hs
      rw [hpoint rfl] at hq
      exact .down rfl hq (by rw [hv, Function.update_self])
    · exact .other (by simp) (by simpa using hs) (hother hs hv)
  | kill hv _ => exact .other (by simp) (by simp) (by rw [hv])

/-- **A step performs one call, or none.** -/
theorem recorded_cases (h : KInv U σ) (hs : Step (code U) σ a σ') (hopen : 0 ≤ σ.mem.value s)
    (hclose : ∀ p, a = some p → σ.pc p ≠ .closeWrite s) :
    recorded s σ σ' a = [] ∧ σ'.mem.value s = σ.mem.value s ∨
    ∃ e, recorded s σ σ' a = [e] ∧ e.before = σ.mem.value s ∧ e.after = σ'.mem.value s ∧
      Counts s e := by
  rcases step_cases hs with ⟨rfl, -, hm | ⟨t, -, hm⟩⟩ | ⟨p, q, rfl, -, hq, hpc⟩
  · exact .inl ⟨rfl, by rw [hm]⟩
  · exact .inl ⟨rfl, by rw [hm]; rfl⟩
  · have hphase : (σ'.pc p).phase = q.phase := by rw [hpc, Function.update_self]
    by_cases hperf : ∃ c r, (σ.pc p).phase = .invoked c ∧ q.phase = .responded r
    · obtain ⟨c, r, hinv, hresp⟩ := hperf
      obtain ⟨hout, hpoint⟩ := hq.reply.performs hinv hresp
      refine .inr ⟨⟨(p, c, r), σ.mem.value s, σ'.mem.value s⟩, ?_, rfl, rfl, ?_⟩
      · simp only [recorded, hphase, hinv, hresp]
      · exact counts_of_outcome hout hopen (hclose p rfl) hpoint (h.asserts p)
    · have hno : ∀ c r, (σ.pc p).phase = .invoked c → q.phase ≠ .responded r :=
        fun c r hc hr => hperf ⟨c, r, hc, hr⟩
      refine .inl ⟨?_, by rw [hq.reply.keeps hno]⟩
      -- `hno` is what the second case of `recorded` needs
      simp only [recorded, hphase]

theorem count_nil (s v : Int32) : count s v ([] : List (Entry n)) = v.toInt := by
  simp [count, ups, downs]

/-- The count goes on by the call that is performed. -/
theorem Counts.count (h : Counts s e) (log : List (Entry n)) (hopen : 0 ≤ e.before)
    (hmax : e.event.2.1 = .semUp s → e.before ≠ Int32.maxValue)
    (hv : e.before.toInt = count s v log) :
    e.after.toInt = Kernel.count s v (log ++ [e]) ∧ 0 ≤ e.after := by
  simp only [Kernel.count, List.map_append, List.map_cons, List.map_nil, ups_concat,
    downs_concat] at hv ⊢
  cases h with
  | other hup hdown hafter =>
    have hup' : e.event.2 ≠ (.semUp s, success) := fun h => hup (by rw [h])
    have hdown' : e.event.2 ≠ (.semDown s, success) := fun h => hdown (by rw [h])
    rw [hafter]
    simp only [if_neg hup', if_neg hdown', Nat.add_zero]
    exact ⟨hv, hopen⟩
  | up hevent hafter =>
    have hne := hmax (by rw [hevent])
    rw [hafter, toInt_succ hne]
    refine ⟨?_, by grind⟩
    rw [hevent, if_pos rfl, if_neg (by simp)]
    push_cast; omega
  | down hevent hzero hafter =>
    rw [hafter, toInt_pred hopen]
    refine ⟨?_, by grind⟩
    rw [hevent, if_neg (by simp), if_pos rfl]
    push_cast; omega

/-! ## Whole histories -/

theorem countsExactly_concat : CountsExactly s v (log ++ [e]) ↔ CountsExactly s v log ∧
    ((e.event.2 = (.semUp s, success) ∨ e.event.2 = (.semDown s, success)) →
      e.after.toInt = count s v (log ++ [e]) ∧ 0 ≤ e.after) := by
  constructor
  · intro h
    refine ⟨fun pre e' post hlog => ?_, h log e [] rfl⟩
    exact h pre e' (post ++ [e]) (by rw [hlog, List.append_assoc, List.cons_append])
  · rintro ⟨hold, hnew⟩ pre e' post hlog
    rcases List.eq_nil_or_concat post with rfl | ⟨post', e'', rfl⟩
    · obtain ⟨rfl, he⟩ := List.append_inj' hlog rfl
      cases he
      exact hnew
    · rw [List.concat_eq_append, ← List.cons_append, ← List.append_assoc] at hlog
      exact hold pre e' post' (List.append_inj' hlog rfl).1

theorem noWrap_concat : NoWrap s (log ++ [e]) ↔
    NoWrap s log ∧ (e.event.2.1 = .semUp s → e.before ≠ Int32.maxValue) := by
  simp only [NoWrap, List.forall_mem_append, List.forall_mem_singleton]

theorem History.reach (h : History U table g s v σ log) :
    Reach (code U) (Starts table g) (fun _ _ => True) σ := by
  induction h with
  | opened hreach hs _ _ => exact .step hreach hs fun _ _ => trivial
  | step _ hs _ ih => exact .step ih hs fun _ _ => trivial

/-- The semaphore has the value that it was opened with. -/
theorem opened_value (h : KInv U σ) (hs : Step (code U) σ (some p) σ')
    (hcall : (σ.pc p).phase = .invoked (.semOpen s v))
    (hresp : (σ'.pc p).phase = .responded success) : σ'.mem.value s = v ∧ 0 ≤ v := by
  rcases step_cases hs with ⟨ha, -⟩ | ⟨p', q, ha, -, hq, hpc⟩
  · cases ha
  · cases ha
    rw [hpc, Function.update_self] at hresp
    obtain ⟨hout, hpoint⟩ := hq.reply.performs hcall hresp
    have hasserts := h.asserts p
    rw [hpoint rfl] at hasserts
    cases hout with
    | openOk _ hv _ => exact ⟨by rw [hv, Function.update_self], hasserts⟩

/-- **The value is the count, as long as no sem_up wraps around.** -/
theorem History.value (h : History U table g s v σ log) (hno : NoWrap s log) :
    CountsExactly s v log ∧ (σ.mem.value s).toInt = count s v log ∧ 0 ≤ σ.mem.value s := by
  induction h with
  | opened hreach hs hcall hresp =>
    obtain ⟨hv, hpos⟩ := opened_value (kinv_of_reach hreach) hs hcall hresp
    refine ⟨fun pre e post hlog => ?_, by rw [hv, count_nil], by rw [hv]; exact hpos⟩
    exact absurd hlog.symm (by simp)
  | @step σ σ' a log hist hs hclose ih =>
    have hk := kinv_of_reach hist.reach
    have hold := ih fun e he => hno e (List.mem_append_left _ he)
    obtain ⟨hexact, hv, hpos⟩ := hold
    rcases recorded_cases hk hs hpos hclose with ⟨hrec, hsame⟩ | ⟨e, hrec, hbefore, hafter, hc⟩
    · rw [hrec, List.append_nil, hsame]
      exact ⟨hexact, hv, hpos⟩
    · rw [hrec] at hno ⊢
      rw [← hbefore] at hv hpos
      have hnew := hc.count log hpos (noWrap_concat.1 hno).2 hv
      rw [← hafter]
      exact ⟨countsExactly_concat.2 ⟨hexact, fun _ => hnew⟩, hnew⟩

/-- **When a semaphore counts exactly.** -/
theorem countsExactly_iff (h : History U table g s v σ log) :
    CountsExactly s v log ↔ NoWrap s log := by
  refine ⟨fun hexact => ?_, fun hno => (h.value hno).1⟩
  induction h with
  | opened _ _ _ _ => exact List.forall_mem_nil _
  | @step σ σ' a log hist hs hclose ih =>
    have hold : CountsExactly s v log := fun pre e post hlog =>
      hexact pre e (post ++ recorded s σ σ' a) (by rw [hlog, List.append_assoc, List.cons_append])
    have hno := ih hold
    obtain ⟨-, -, hpos⟩ := hist.value hno
    rcases recorded_cases (kinv_of_reach hist.reach) hs hpos hclose with
      ⟨hrec, -⟩ | ⟨e, hrec, -, -, hc⟩
    · rwa [hrec, List.append_nil]
    · rw [hrec] at hexact ⊢
      refine noWrap_concat.2 ⟨hno, fun hup hmax => ?_⟩
      -- the value wraps around to INT_MIN, so it is negative
      cases hc with
      | other hne _ _ => exact hne hup
      | up hevent hafter =>
        have hneg := ((countsExactly_concat.1 hexact).2 (.inl hevent)).2
        rw [hafter, hmax] at hneg
        exact absurd hneg (by decide)
      | down hevent _ _ => rw [hevent] at hup; cases hup

end

/-! ## Running -/

/-- The next step of the process, if any, closes the semaphore. -/
def closes (s : Int32) (σ : KState n G C) (a : Option (Fin n)) : Bool :=
  a.any fun p => decide (σ.pc p = .closeWrite s)

/-- The state after a schedule that does not close the semaphore, with what it
    adds to the history. -/
def record (U : UserSys n G) (pick : Fin n → Point n → Mem n G → Option (KInstr n G))
    (s : Int32) : List C → KState n G C → Option (KState n G C × List (Entry n))
  | [], σ => some (σ, [])
  | c :: cs, σ =>
    if closes s σ (actor σ c) then none
    else (tick (code U) pick σ c).bind fun σ' =>
      (record U pick s cs σ').map fun r => (r.1, recorded s σ σ' (actor σ c) ++ r.2)

theorem record_history {pick : Fin n → Point n → Mem n G → Option (KInstr n G)}
    (hpick : ∀ p q m i, pick p q m = some i → Does U p q m i) {cs : List C}
    {log log' : List (Entry n)} (h : History U table g s v σ log)
    (hrec : record U pick s cs σ = some (σ', log')) :
    History U table g s v σ' (log ++ log') := by
  induction cs generalizing σ log log' with
  | nil =>
    cases hrec
    rwa [List.append_nil]
  | cons c cs ih =>
    rw [record] at hrec
    split_ifs at hrec with hclose
    obtain ⟨σ₁, h₁, hrest⟩ := Option.bind_eq_some_iff.1 hrec
    obtain ⟨⟨σ₂, log₂⟩, h₂, heq⟩ := Option.map_eq_some_iff.1 hrest
    cases heq
    rw [← List.append_assoc]
    refine ih (h.step (tick_actor hpick h₁) fun p hp hpc => hclose ?_) h₂
    simp [closes, hp, hpc]

/-- One process opens a semaphore with the value `v`, ups it and downs it. -/
def upAndDown (v : Int32) : Fin 1 → List Call := fun _ => [.semOpen 0 v, .semUp 0, .semDown 0]

/-- It runs up to the sem_open, performs it, and goes on up to its return from the
    sem_down. -/
def upAndDownRun (v : Int32) : Option (Point 1 × Option (Fin 1) × Point 1 × List (Entry 1)) :=
  (Scripts.run (fun _ => True) (fun _ _ => true) (List.replicate 8 0) (makeSemArray fun _ => 0)
    (upAndDown v)).bind fun σ =>
  (tick (code (scripts 1 fun _ => True)) (Scripts.pick fun _ => True) σ 0).bind fun σ' =>
  (record (scripts 1 fun _ => True) (Scripts.pick fun _ => True) 0 (List.replicate 27 0) σ').map
    fun r => (σ.pc 0, actor σ 0, σ'.pc 0, r.2)

/-- The sem_up takes the value from `v` to `w`, and the sem_down takes it back. -/
def upThenDown (v w : Int32) : List (Entry 1) :=
  [⟨(0, .semUp 0, success), v, w⟩, ⟨(0, .semDown 0, success), w, v⟩]

theorem upAndDown_history {w : Int32} (h : upAndDownRun v =
    some (.openTest 0 v, some 0, .openRelease 0 success, upThenDown v w)) :
    ∃ σ : KState 1 (Fin 1 → List Call) (Fin 1), History (scripts 1 fun _ => True)
      (makeSemArray fun _ => 0) (upAndDown v) 0 v σ (upThenDown v w) := by
  obtain ⟨σ, hσ, h⟩ := Option.bind_eq_some_iff.1 h
  obtain ⟨σ', hσ', h⟩ := Option.bind_eq_some_iff.1 h
  obtain ⟨⟨σ'', log⟩, hrec, heq⟩ := Option.map_eq_some_iff.1 h
  simp only [Prod.mk.injEq] at heq
  obtain ⟨hpc, ha, hpc', rfl⟩ := heq
  have hpick : ∀ (p : Fin 1) q m i, Scripts.pick (fun _ => True) p q m = some i →
      Does (scripts 1 fun _ => True) p q m i := fun _ _ _ _ => Scripts.pick_does
  have hreach : Reach (code (scripts 1 fun _ => True)) (Starts (makeSemArray fun _ => 0)
    (upAndDown v)) (fun _ _ => True) σ := Scripts.run_reach (fun _ _ _ => trivial) hσ
  have hs := tick_actor hpick hσ'
  rw [ha] at hs
  have hopened : History (scripts 1 fun _ => True) (makeSemArray fun _ => 0) (upAndDown v) 0 v
    σ' [] := .opened hreach hs (by rw [hpc]; rfl) (by rw [hpc']; rfl)
  exact ⟨σ'', record_history hpick hopened hrec⟩

/-- Opened with 0, the semaphore counts up to 1, and down to 0 again. -/
theorem countsExactly_upAndDown : ∃ σ : KState 1 (Fin 1 → List Call) (Fin 1),
    History (scripts 1 fun _ => True) (makeSemArray fun _ => 0) (upAndDown 0) 0 0 σ
      (upThenDown 0 1) ∧ CountsExactly 0 0 (upThenDown 0 1) := by
  obtain ⟨σ, hσ⟩ := upAndDown_history (v := 0) (w := 1) (by decide +kernel)
  refine ⟨σ, hσ, (countsExactly_iff hσ).2 ?_⟩
  intro e he _
  simp only [upThenDown, List.mem_cons, List.not_mem_nil, or_false] at he
  rcases he with rfl | rfl
  · decide
  · decide

/-- Opened with INT_MAX, the semaphore has the value INT_MIN after the sem_up. -/
theorem not_countsExactly_upAndDown : ∃ σ : KState 1 (Fin 1 → List Call) (Fin 1),
    History (scripts 1 fun _ => True) (makeSemArray fun _ => 0) (upAndDown Int32.maxValue) 0
      Int32.maxValue σ (upThenDown Int32.maxValue Int32.minValue) ∧
    ¬ CountsExactly 0 Int32.maxValue (upThenDown Int32.maxValue Int32.minValue) := by
  obtain ⟨σ, hσ⟩ :=
    upAndDown_history (v := Int32.maxValue) (w := Int32.minValue) (by decide +kernel)
  refine ⟨σ, hσ, fun h => ?_⟩
  obtain ⟨hcount, -⟩ := h [] _ _ rfl (.inl rfl)
  exact absurd hcount (by decide)

end OSLabs.Kernel
