/-
  Threads on a multiprocessor with spin locks.

  Each thread runs kernel code, one instruction at a time; each CPU runs a
  thread or its scheduler.  A thread has an own lock, which protects its
  status: a thread that gives up its CPU holds it, the scheduler that goes on
  releases it, and a scheduler that resumes a thread acquires it first and
  leaves it to the thread to release it.

  * `Code` is the code of the threads and `Step` runs it on any number of CPUs.
    Locks belong to CPUs, as `holding` tests them, and a CPU counts in `noff`
    how many it holds.
  * `Panics`: a CPU is about to acquire a lock it holds, to release one it does
    not hold, or to enter the scheduler without the thread's own lock, with
    other locks, or while the thread is still marked as running.
  * A `Discipline` annotates each program point with the locks held there.
    `Inv` is what it guarantees in each reachable state: each lock belongs to
    the CPU whose thread or scheduler holds it (`Inv.exclusive`), and no CPU
    panics (`Inv.not_panics`).  If the threads take their locks in the order of
    some rank (`Ranked`), no CPUs wait for each other in a cycle
    (`Inv.acyclic`).
-/
import Mathlib.Data.List.Nodup
import Mathlib.Logic.Relation
import Mathlib.Logic.Function.Basic

namespace LockMachine

/-- The states of a thread. -/
inductive Status where
  | unused | used | sleeping | runnable | running | zombie
  deriving DecidableEq, Repr

variable {T L C M P : Type}

/-- An instruction, with the program point behind it: acquire or release a
    lock, run local code, or switch to the scheduler. -/
inductive Instr (L M P : Type) where
  | acquire (l : L) (next : P)
  | release (l : L) (next : P)
  | run (mem : M) (next : P)
  | sched (next : P)

/-- What a CPU does: it runs a thread, or its scheduler is about to acquire the
    lock of a thread, to look at the thread, or to release its lock. -/
inductive Ctx (T : Type) where
  | acquiring (p : T)
  | checking (p : T)
  | running (p : T)
  | releasing (p : T)
  deriving DecidableEq

/-- The code of threads `T`, with locks `L`, a shared memory `M` and program
    points `P`; `next` is the order in which schedulers look at the threads. -/
structure Code (T L M P : Type) where
  lockOf : T → L
  status : M → T → Status
  setRunning : M → T → M
  next : T → T
  instr : T → P → M → Instr L M P → Prop

namespace Instr

/-- The program point behind an instruction. -/
def next : Instr L M P → P
  | acquire _ q => q
  | release _ q => q
  | run _ q => q
  | sched q => q

/-- The memory behind an instruction. -/
def store (m : M) : Instr L M P → M
  | run m' _ => m'
  | _ => m

end Instr

/-- A state of the machine with CPUs `C`; `noff` and `intr` are the depth of
    `push_off` nesting of a CPU, and if its interrupts are on. -/
structure State (T L C M P : Type) where
  mem : M
  pc : T → P
  owner : L → Option C
  ctx : C → Ctx T
  noff : C → ℕ
  intr : C → Bool

namespace State

section
variable [DecidableEq L] [DecidableEq C]

/-- `acquire`, when the lock is free. -/
def lock (σ : State T L C M P) (c : C) (l : L) : State T L C M P :=
  { σ with
    owner := Function.update σ.owner l (some c)
    noff := Function.update σ.noff c (σ.noff c + 1)
    intr := Function.update σ.intr c false }

/-- `release`; interrupts may be on again once no lock is held. -/
def unlock (σ : State T L C M P) (c : C) (l : L) : State T L C M P :=
  { σ with
    owner := Function.update σ.owner l none
    noff := Function.update σ.noff c (σ.noff c - 1) }

variable (σ : State T L C M P) (c : C) (l : L)

@[simp] theorem lock_mem : (σ.lock c l).mem = σ.mem := rfl
@[simp] theorem lock_pc : (σ.lock c l).pc = σ.pc := rfl
@[simp] theorem lock_ctx : (σ.lock c l).ctx = σ.ctx := rfl
@[simp] theorem unlock_mem : (σ.unlock c l).mem = σ.mem := rfl
@[simp] theorem unlock_pc : (σ.unlock c l).pc = σ.pc := rfl
@[simp] theorem unlock_ctx : (σ.unlock c l).ctx = σ.ctx := rfl
@[simp] theorem unlock_intr : (σ.unlock c l).intr = σ.intr := rfl

end

section
def store (σ : State T L C M P) (m : M) : State T L C M P := { σ with mem := m }

variable (σ : State T L C M P) (m : M)

@[simp] theorem store_mem : (σ.store m).mem = m := rfl
@[simp] theorem store_pc : (σ.store m).pc = σ.pc := rfl
@[simp] theorem store_owner : (σ.store m).owner = σ.owner := rfl
@[simp] theorem store_ctx : (σ.store m).ctx = σ.ctx := rfl
@[simp] theorem store_noff : (σ.store m).noff = σ.noff := rfl
@[simp] theorem store_intr : (σ.store m).intr = σ.intr := rfl

end

section
variable [DecidableEq T]

def goto (σ : State T L C M P) (p : T) (q : P) : State T L C M P :=
  { σ with pc := Function.update σ.pc p q }

variable (σ : State T L C M P) (p : T) (q : P)

@[simp] theorem goto_mem : (σ.goto p q).mem = σ.mem := rfl
@[simp] theorem goto_pc : (σ.goto p q).pc = Function.update σ.pc p q := rfl
@[simp] theorem goto_owner : (σ.goto p q).owner = σ.owner := rfl
@[simp] theorem goto_ctx : (σ.goto p q).ctx = σ.ctx := rfl
@[simp] theorem goto_noff : (σ.goto p q).noff = σ.noff := rfl
@[simp] theorem goto_intr : (σ.goto p q).intr = σ.intr := rfl

end

section
variable [DecidableEq C]

/-- `swtch`. -/
def switch (σ : State T L C M P) (c : C) (x : Ctx T) : State T L C M P :=
  { σ with ctx := Function.update σ.ctx c x }

def setIntr (σ : State T L C M P) (c : C) (b : Bool) : State T L C M P :=
  { σ with intr := Function.update σ.intr c b }

variable (σ : State T L C M P) (c : C) (x : Ctx T) (b : Bool)

@[simp] theorem switch_mem : (σ.switch c x).mem = σ.mem := rfl
@[simp] theorem switch_pc : (σ.switch c x).pc = σ.pc := rfl
@[simp] theorem switch_owner : (σ.switch c x).owner = σ.owner := rfl
@[simp] theorem switch_ctx : (σ.switch c x).ctx = Function.update σ.ctx c x := rfl
@[simp] theorem switch_noff : (σ.switch c x).noff = σ.noff := rfl
@[simp] theorem switch_intr : (σ.switch c x).intr = σ.intr := rfl
@[simp] theorem setIntr_mem : (σ.setIntr c b).mem = σ.mem := rfl
@[simp] theorem setIntr_pc : (σ.setIntr c b).pc = σ.pc := rfl
@[simp] theorem setIntr_owner : (σ.setIntr c b).owner = σ.owner := rfl
@[simp] theorem setIntr_ctx : (σ.setIntr c b).ctx = σ.ctx := rfl
@[simp] theorem setIntr_noff : (σ.setIntr c b).noff = σ.noff := rfl

end

end State

variable [DecidableEq T] [DecidableEq L]

section
variable [DecidableEq C] (code : Code T L M P)

/-- One step of the machine, and the thread that takes it (none if it is a
    scheduler or an interrupt). -/
inductive Step : State T L C M P → Option T → State T L C M P → Prop
  | acquire {σ c p l q} : σ.ctx c = .running p →
      code.instr p (σ.pc p) σ.mem (.acquire l q) → σ.owner l = none →
      Step σ (some p) ((σ.lock c l).goto p q)
  | release {σ c p l q} : σ.ctx c = .running p →
      code.instr p (σ.pc p) σ.mem (.release l q) → σ.owner l = some c →
      Step σ (some p) ((σ.unlock c l).goto p q)
  | run {σ c p m q} : σ.ctx c = .running p →
      code.instr p (σ.pc p) σ.mem (.run m q) →
      Step σ (some p) ((σ.store m).goto p q)
  | sched {σ c p q} : σ.ctx c = .running p → code.instr p (σ.pc p) σ.mem (.sched q) →
      Step σ (some p) ((σ.switch c (.releasing p)).goto p q)
  | schedAcquire {σ c p} : σ.ctx c = .acquiring p → σ.owner (code.lockOf p) = none →
      Step σ none ((σ.lock c (code.lockOf p)).switch c (.checking p))
  | schedRun {σ c p} : σ.ctx c = .checking p → code.status σ.mem p = .runnable →
      Step σ none ((σ.store (code.setRunning σ.mem p)).switch c (.running p))
  | schedSkip {σ c p} : σ.ctx c = .checking p → code.status σ.mem p ≠ .runnable →
      Step σ none (σ.switch c (.releasing p))
  | schedRelease {σ c p} : σ.ctx c = .releasing p → σ.owner (code.lockOf p) = some c →
      Step σ none ((σ.unlock c (code.lockOf p)).switch c (.acquiring (code.next p)))
  | interrupt {σ c b} : σ.noff c = 0 → Step σ none (σ.setIntr c b)

/-- What the step of a thread does to the program points and to the memory. -/
theorem Step.thread {code : Code T L M P} {σ σ' : State T L C M P} {p : T}
    (h : Step code σ (some p) σ') : ∃ c i, σ.ctx c = .running p ∧
      code.instr p (σ.pc p) σ.mem i ∧ σ'.pc = Function.update σ.pc p i.next ∧
      σ'.mem = i.store σ.mem := by
  cases h with
  | acquire hc hi _ => exact ⟨_, _, hc, hi, rfl, rfl⟩
  | release hc hi _ => exact ⟨_, _, hc, hi, rfl, rfl⟩
  | run hc hi => exact ⟨_, _, hc, hi, rfl, rfl⟩
  | sched hc hi => exact ⟨_, _, hc, hi, rfl, rfl⟩

/-- The step of a scheduler or an interrupt may only resume a thread. -/
theorem Step.scheduler {code : Code T L M P} {σ σ' : State T L C M P}
    (h : Step code σ none σ') : σ'.pc = σ.pc ∧ (σ'.mem = σ.mem ∨
      ∃ p, code.status σ.mem p = .runnable ∧ σ'.mem = code.setRunning σ.mem p) := by
  cases h with
  | schedAcquire _ _ => exact ⟨rfl, .inl rfl⟩
  | schedRun _ hs => exact ⟨rfl, .inr ⟨_, hs, rfl⟩⟩
  | schedSkip _ _ => exact ⟨rfl, .inl rfl⟩
  | schedRelease _ _ => exact ⟨rfl, .inl rfl⟩
  | interrupt _ => exact ⟨rfl, .inl rfl⟩

/-- The panics of `acquire`, `release` (with `pop_off`) and `sched` on a CPU. -/
inductive Panics (σ : State T L C M P) (c : C) : Prop
  | acquire {p l q} : σ.ctx c = .running p → code.instr p (σ.pc p) σ.mem (.acquire l q) →
      σ.owner l = some c → Panics σ c
  | release {p l q} : σ.ctx c = .running p → code.instr p (σ.pc p) σ.mem (.release l q) →
      σ.owner l ≠ some c ∨ σ.intr c = true ∨ σ.noff c < 1 → Panics σ c
  | sched {p q} : σ.ctx c = .running p → code.instr p (σ.pc p) σ.mem (.sched q) →
      σ.owner (code.lockOf p) ≠ some c ∨ σ.noff c ≠ 1 ∨ code.status σ.mem p = .running ∨
        σ.intr c = true → Panics σ c
  | schedAcquire {p} : σ.ctx c = .acquiring p → σ.owner (code.lockOf p) = some c → Panics σ c
  | schedRelease {p} : σ.ctx c = .releasing p →
      σ.owner (code.lockOf p) ≠ some c ∨ σ.intr c = true ∨ σ.noff c < 1 → Panics σ c

/-- The states reached from `init` by steps whose threads satisfy `ok` before
    them. -/
inductive Reach (init : State T L C M P → Prop) (ok : State T L C M P → T → Prop) :
    State T L C M P → Prop
  | init {σ} : init σ → Reach init ok σ
  | step {σ a σ'} : Reach init ok σ → Step code σ a σ' → (∀ p, a = some p → ok σ p) →
      Reach init ok σ'

/-- **An invariant holds in each reachable state.** -/
theorem Reach.invariant {code : Code T L M P} {init : State T L C M P → Prop}
    {ok : State T L C M P → T → Prop} {I : State T L C M P → Prop} (hinit : ∀ σ, init σ → I σ)
    (hstep : ∀ σ a σ', I σ → Step code σ a σ' → (∀ p, a = some p → ok σ p) → I σ')
    {σ : State T L C M P} (h : Reach code init ok σ) : I σ := by
  induction h with
  | init hi => exact hinit _ hi
  | step _ hs hok ih => exact hstep _ _ _ ih hs hok

theorem Reach.mono {code : Code T L M P} {init : State T L C M P → Prop}
    {ok ok' : State T L C M P → T → Prop} (hok : ∀ σ p, ok σ p → ok' σ p) {σ : State T L C M P}
    (h : Reach code init ok σ) : Reach code init ok' σ := by
  induction h with
  | init hi => exact .init hi
  | step _ hs hk ih => exact .step ih hs fun p hp => hok _ _ (hk p hp)

/-! ## Running -/

/-- The next step of a CPU, when `pick` is the next instruction of a thread;
    none if the CPU has to wait. -/
def tick (pick : T → P → M → Option (Instr L M P)) (σ : State T L C M P) (c : C) :
    Option (State T L C M P) :=
  match σ.ctx c with
  | .running p =>
    match pick p (σ.pc p) σ.mem with
    | some (.acquire l q) => if σ.owner l = none then some ((σ.lock c l).goto p q) else none
    | some (.release l q) =>
      if σ.owner l = some c then some ((σ.unlock c l).goto p q) else none
    | some (.run m q) => some ((σ.store m).goto p q)
    | some (.sched q) => some ((σ.switch c (.releasing p)).goto p q)
    | none => none
  | .acquiring p =>
    if σ.owner (code.lockOf p) = none then
      some ((σ.lock c (code.lockOf p)).switch c (.checking p))
    else none
  | .checking p =>
    if code.status σ.mem p = .runnable then
      some ((σ.store (code.setRunning σ.mem p)).switch c (.running p))
    else some (σ.switch c (.releasing p))
  | .releasing p =>
    if σ.owner (code.lockOf p) = some c then
      some ((σ.unlock c (code.lockOf p)).switch c (.acquiring (code.next p)))
    else none

/-- The CPUs of a schedule take their steps, as long as `ok` holds before them. -/
def ticks (pick : T → P → M → Option (Instr L M P)) (ok : State T L C M P → T → Bool) :
    List C → State T L C M P → Option (State T L C M P)
  | [], σ => some σ
  | c :: cs, σ =>
    match σ.ctx c with
    | .running p => if ok σ p then (tick code pick σ c).bind (ticks pick ok cs) else none
    | _ => (tick code pick σ c).bind (ticks pick ok cs)

section
variable {code : Code T L M P} {pick : T → P → M → Option (Instr L M P)}
  {σ σ' : State T L C M P} {c : C}

theorem tick_thread {p : T} (hpick : ∀ p q m i, pick p q m = some i → code.instr p q m i)
    (hc : σ.ctx c = .running p) (h : tick code pick σ c = some σ') :
    Step code σ (some p) σ' := by
  simp only [tick, hc] at h
  split at h
  · rename_i l q hi
    split_ifs at h with ho
    cases h; exact .acquire hc (hpick _ _ _ _ hi) ho
  · rename_i l q hi
    split_ifs at h with ho
    cases h; exact .release hc (hpick _ _ _ _ hi) ho
  · rename_i m q hi
    cases h; exact .run hc (hpick _ _ _ _ hi)
  · rename_i q hi
    cases h; exact .sched hc (hpick _ _ _ _ hi)
  · cases h

/-- The thread that a CPU runs. -/
def actor (σ : State T L C M P) (c : C) : Option T :=
  match σ.ctx c with
  | .running p => some p
  | _ => none

omit [DecidableEq T] [DecidableEq L] [DecidableEq C] in
theorem ctx_of_actor {p : T} (h : actor σ c = some p) : σ.ctx c = .running p := by
  cases hc : σ.ctx c with
  | running p' => rw [actor, hc] at h; cases h; rfl
  | _ => rw [actor, hc] at h; cases h

/-- A tick is a step of the thread that the CPU runs, or of its scheduler. -/
theorem tick_actor (hpick : ∀ p q m i, pick p q m = some i → code.instr p q m i)
    (h : tick code pick σ c = some σ') : Step code σ (actor σ c) σ' := by
  cases hc : σ.ctx c with
  | running p =>
    rw [actor, hc]
    exact tick_thread hpick hc h
  | acquiring p =>
    rw [actor, hc]
    simp only [tick, hc] at h
    split_ifs at h with ho
    cases h; exact .schedAcquire hc ho
  | checking p =>
    rw [actor, hc]
    simp only [tick, hc] at h
    split_ifs at h with hs
    · cases h; exact .schedRun hc hs
    · cases h; exact .schedSkip hc hs
  | releasing p =>
    rw [actor, hc]
    simp only [tick, hc] at h
    split_ifs at h with ho
    cases h; exact .schedRelease hc ho

/-- What a schedule runs into is reachable. -/
theorem ticks_reach {init : State T L C M P → Prop} {ok : State T L C M P → T → Prop}
    {okb : State T L C M P → T → Bool} (hok : ∀ σ p, okb σ p = true → ok σ p)
    (hpick : ∀ p q m i, pick p q m = some i → code.instr p q m i) :
    ∀ {cs : List C} {σ : State T L C M P}, Reach code init ok σ →
      ticks code pick okb cs σ = some σ' → Reach code init ok σ'
  | [], _, hr, h => by cases h; exact hr
  | c :: cs, σ, hr, h => by
    have hgo : (∀ p, σ.ctx c = .running p → ok σ p) →
        (tick code pick σ c).bind (ticks code pick okb cs) = some σ' → Reach code init ok σ' := by
      intro hp hb
      obtain ⟨σ₁, h₁, h₂⟩ := Option.bind_eq_some_iff.1 hb
      exact ticks_reach hok hpick
        (.step hr (tick_actor hpick h₁) fun p ha => hp p (ctx_of_actor ha)) h₂
    simp only [ticks] at h
    split at h
    · rename_i p hc
      split_ifs at h with hb
      refine hgo (fun p' hc' => ?_) h
      rw [hc] at hc'; cases hc'
      exact hok _ _ hb
    · rename_i hne
      exact hgo (fun p hc => absurd hc (hne p)) h

end

/-! ## Lock disciplines -/

/-- An annotation of the program points: the locks held there, if the thread is
    still marked as running, and if the thread is resumed there by a scheduler.
    Its fields are what each instruction has to respect. -/
structure Discipline where
  held : T → P → List L
  awake : T → P → Bool
  parked : T → P → Bool
  lockOf_injective : Function.Injective code.lockOf
  status_setRunning : ∀ m p t, code.status (code.setRunning m p) t =
    if t = p then .running else code.status m t
  nodup : ∀ p q, (held p q).Nodup
  parked_held : ∀ p q, parked p q = true → held p q = [code.lockOf p] ∧ awake p q = true
  asleep_held : ∀ p q, awake p q = false → code.lockOf p ∈ held p q
  acquire : ∀ {p q m l q'}, code.instr p q m (.acquire l q') →
    l ∉ held p q ∧ held p q' = l :: held p q ∧ awake p q' = awake p q
  release : ∀ {p q m l q'}, code.instr p q m (.release l q') →
    l ∈ held p q ∧ held p q' = (held p q).erase l ∧ awake p q' = awake p q
  run : ∀ {p q m m' q'}, code.instr p q m (.run m' q') →
    (code.status m p = .running ↔ awake p q = true) → held p q' = held p q ∧
    (awake p q' = true → awake p q = true ∧ code.status m' p = code.status m p) ∧
    (awake p q' = false → code.status m' p ≠ .running) ∧
    ∀ t, code.status m' t ≠ code.status m t → code.lockOf t ∈ held p q ∧
      (t ≠ p → code.status m t ≠ .running ∧ code.status m' t ≠ .running)
  sched : ∀ {p q m q'}, code.instr p q m (.sched q') →
    held p q = [code.lockOf p] ∧ awake p q = false ∧ parked p q' = true

end

/-! ## The locks of a CPU -/

namespace Discipline
variable {code : Code T L M P} (D : Discipline code)

/-- The locks that the thread or the scheduler of a CPU holds. -/
def heldBy (pc : T → P) : Ctx T → List L
  | .acquiring _ => []
  | .checking p => [code.lockOf p]
  | .running p => D.held p (pc p)
  | .releasing p => [code.lockOf p]

theorem heldBy_nodup (pc : T → P) (x : Ctx T) : (D.heldBy pc x).Nodup := by
  cases x with
  | acquiring p => exact List.nodup_nil
  | checking p => exact List.nodup_singleton _
  | running p => exact D.nodup _ _
  | releasing p => exact List.nodup_singleton _

/-- What a CPU holds is the business of its own thread. -/
theorem heldBy_update (pc : T → P) {p : T} {x : Ctx T} (hx : x ≠ .running p) (q : P) :
    D.heldBy (Function.update pc p q) x = D.heldBy pc x := by
  cases x with
  | running p' =>
    have hne : p' ≠ p := by rintro rfl; exact hx rfl
    simp only [heldBy, Function.update_of_ne hne]
  | acquiring p' => rfl
  | checking p' => rfl
  | releasing p' => rfl

/-- Each lock belongs to the CPU that holds it, which counts it and has its
    interrupts off. -/
structure Locks (σ : State T L C M P) : Prop where
  owner : ∀ l c, σ.owner l = some c ↔ l ∈ D.heldBy σ.pc (σ.ctx c)
  noff : ∀ c, σ.noff c = (D.heldBy σ.pc (σ.ctx c)).length
  intr : ∀ c, D.heldBy σ.pc (σ.ctx c) ≠ [] → σ.intr c = false

/-- A thread runs on one CPU at most, and is marked as running there as its
    program point says; on no CPU, it is parked. -/
structure Threads (σ : State T L C M P) : Prop where
  unique : ∀ p c c', σ.ctx c = .running p → σ.ctx c' = .running p → c = c'
  running : ∀ p c, σ.ctx c = .running p →
    (code.status σ.mem p = .running ↔ D.awake p (σ.pc p) = true)
  parked : ∀ p, (∀ c, σ.ctx c ≠ .running p) →
    D.parked p (σ.pc p) = true ∧ code.status σ.mem p ≠ .running

/-- **The invariant of a lock discipline.** -/
structure Inv (σ : State T L C M P) : Prop where
  locks : D.Locks σ
  threads : D.Threads σ

/-- A machine at its start: no lock is taken, no thread runs, and all are
    parked. -/
structure Start (σ : State T L C M P) : Prop where
  owner : ∀ l, σ.owner l = none
  noff : ∀ c, σ.noff c = 0
  ctx : ∀ c, ∃ p, σ.ctx c = .acquiring p
  parked : ∀ p, D.parked p (σ.pc p) = true ∧ code.status σ.mem p ≠ .running

variable {D} {σ σ' : State T L C M P}

/-! ## Consequences -/

/-- A lock is held by one CPU at most. -/
theorem Locks.unique (h : D.Locks σ) {l : L} {c c' : C} (hc : l ∈ D.heldBy σ.pc (σ.ctx c))
    (hc' : l ∈ D.heldBy σ.pc (σ.ctx c')) : c = c' := by
  have h₁ := (h.owner l c).2 hc
  have h₂ := (h.owner l c').2 hc'
  exact Option.some.inj (h₁.symm.trans h₂)

/-- A thread that is not parked runs on some CPU. -/
theorem Threads.on_cpu (h : D.Threads σ) {p : T} (hp : D.parked p (σ.pc p) = false) :
    ∃ c, σ.ctx c = .running p := by
  by_contra hne
  have := (h.parked p fun c hc => hne ⟨c, hc⟩).1
  rw [hp] at this; cases this

/-- **Mutual exclusion.**  Two threads that are not parked do not hold the same
    lock. -/
theorem Inv.exclusive (h : D.Inv σ) {l : L} {p p' : T} (hp : D.parked p (σ.pc p) = false)
    (hp' : D.parked p' (σ.pc p') = false) (hl : l ∈ D.held p (σ.pc p))
    (hl' : l ∈ D.held p' (σ.pc p')) : p = p' := by
  obtain ⟨c, hc⟩ := h.threads.on_cpu hp
  obtain ⟨c', hc'⟩ := h.threads.on_cpu hp'
  have hl₁ : l ∈ D.heldBy σ.pc (σ.ctx c) := by rw [hc]; exact hl
  have hl₂ : l ∈ D.heldBy σ.pc (σ.ctx c') := by rw [hc']; exact hl'
  obtain rfl := h.locks.unique hl₁ hl₂
  exact Ctx.running.inj (hc.symm.trans hc')

/-- A lock that is free is held by no thread but a parked one. -/
theorem Inv.free (h : D.Inv σ) {l : L} (hl : σ.owner l = none) {p : T}
    (hp : D.parked p (σ.pc p) = false) : l ∉ D.held p (σ.pc p) := by
  intro hmem
  obtain ⟨c, hc⟩ := h.threads.on_cpu hp
  have := (h.locks.owner l c).2 (by rw [hc]; exact hmem)
  rw [hl] at this; cases this

/-- **No CPU panics.** -/
theorem Inv.not_panics (h : D.Inv σ) (c : C) : ¬ Panics code σ c := by
  -- a CPU that holds a lock owns it, has interrupts off, and counts it
  have hheld : ∀ l, l ∈ D.heldBy σ.pc (σ.ctx c) →
      σ.owner l = some c ∧ σ.intr c = false ∧ 1 ≤ σ.noff c := by
    intro l hl
    refine ⟨(h.locks.owner l c).2 hl, h.locks.intr c (List.ne_nil_of_mem hl), ?_⟩
    rw [h.locks.noff]; exact List.length_pos_of_mem hl
  intro hp
  cases hp with
  | acquire hc hi ho =>
    have := (h.locks.owner _ c).1 ho
    rw [hc] at this
    exact (D.acquire hi).1 this
  | release hc hi ho =>
    have := hheld _ (by rw [hc]; exact (D.release hi).1)
    grind
  | @sched p q hc hi ho =>
    obtain ⟨hheld₁, hasleep, -⟩ := D.sched hi
    have hmine := hheld (code.lockOf p) (by rw [hc]; simp [heldBy, hheld₁])
    have hnoff : σ.noff c = 1 := by rw [h.locks.noff, hc]; simp [heldBy, hheld₁]
    have hstatus : code.status σ.mem p ≠ .running := by
      intro hr
      have := (h.threads.running p c hc).1 hr
      rw [hasleep] at this; cases this
    grind
  | schedAcquire hc ho =>
    have := (h.locks.owner _ c).1 ho
    rw [hc] at this
    exact List.not_mem_nil this
  | schedRelease hc ho =>
    have := hheld _ (by rw [hc]; exact List.mem_singleton_self _)
    grind

/-- No other CPU owns a lock. -/
def Quiet (σ : State T L C M P) (c : C) : Prop := ∀ l c', σ.owner l = some c' → c' = c

/-! ## Waiting for locks -/

/-- A CPU is about to acquire a lock. -/
inductive Wants (code : Code T L M P) (σ : State T L C M P) (c : C) : L → Prop
  | thread {p l q} : σ.ctx c = .running p → code.instr p (σ.pc p) σ.mem (.acquire l q) →
      Wants code σ c l
  | scheduler {p} : σ.ctx c = .acquiring p → Wants code σ c (code.lockOf p)

/-- A CPU has to wait for a lock that another one owns. -/
def WaitsFor (code : Code T L M P) (σ : State T L C M P) (c c' : C) : Prop :=
  ∃ l, Wants code σ c l ∧ σ.owner l = some c'

/-- A thread that acquires a lock only holds locks of a lower rank. -/
def Ranked (D : Discipline code) (rank : L → ℕ) : Prop :=
  ∀ p q m l q', code.instr p q m (.acquire l q') → ∀ l' ∈ D.held p q, rank l' < rank l

/-- What a CPU owns is of a lower rank than what it wants. -/
theorem Inv.rank_lt (h : D.Inv σ) {rank : L → ℕ} (hr : D.Ranked rank) {c : C} {l l' : L}
    (hw : Wants code σ c l) (hl' : σ.owner l' = some c) : rank l' < rank l := by
  have hheld := (h.locks.owner l' c).1 hl'
  cases hw with
  | thread hc hi =>
    rw [hc] at hheld
    exact hr _ _ _ _ _ hi l' hheld
  | scheduler hc =>
    rw [hc] at hheld
    exact absurd hheld List.not_mem_nil

/-- **No CPUs wait for each other in a cycle**: along a chain of waiting CPUs,
    the rank of what they want grows. -/
theorem Inv.acyclic (h : D.Inv σ) {rank : L → ℕ} (hr : D.Ranked rank) (c : C) :
    ¬ Relation.TransGen (WaitsFor code σ) c c := by
  have hchain : ∀ {c c'}, Relation.TransGen (WaitsFor code σ) c c' →
      ∃ l l', Wants code σ c l ∧ σ.owner l' = some c' ∧ rank l ≤ rank l' := by
    intro c c' hcc
    induction hcc with
    | single hw =>
      obtain ⟨l, hl, ho⟩ := hw
      exact ⟨l, l, hl, ho, Nat.le_refl _⟩
    | tail _ hw ih =>
      obtain ⟨l, l', hl, ho', hle⟩ := ih
      obtain ⟨l'', hl'', ho''⟩ := hw
      exact ⟨l, l'', hl, ho'', Nat.le_trans hle (Nat.le_of_lt (h.rank_lt hr hl'' ho'))⟩
  intro hcc
  obtain ⟨l, l', hl, ho, hle⟩ := hchain hcc
  exact absurd hle (Nat.not_le.2 (h.rank_lt hr hl ho))

/-! ## One step -/

variable [DecidableEq C]

/-- **A thread that runs takes its step**, while no other CPU owns a lock. -/
theorem Inv.runs (h : D.Inv σ) {c : C} {p : T} {i : Instr L M P} (hc : σ.ctx c = .running p)
    (hq : Quiet σ c) (hi : code.instr p (σ.pc p) σ.mem i) (hs : ∀ q, i ≠ .sched q) :
    ∃ σ', Step code σ (some p) σ' ∧ σ'.ctx = σ.ctx ∧ Quiet σ' c ∧
      σ'.pc = Function.update σ.pc p i.next ∧ σ'.mem = i.store σ.mem := by
  have hpanics := h.not_panics c
  cases i with
  | acquire l q =>
    have hfree : σ.owner l = none := by
      by_contra ho
      obtain ⟨c', hc'⟩ := Option.ne_none_iff_exists'.1 ho
      obtain rfl := hq l c' hc'
      exact hpanics (.acquire hc hi hc')
    refine ⟨_, .acquire hc hi hfree, rfl, fun l' c' ho => ?_, rfl, rfl⟩
    simp only [State.goto_owner, State.lock, Function.update_apply] at ho
    split_ifs at ho
    · exact (Option.some.inj ho).symm
    · exact hq l' c' ho
  | release l q =>
    have hown : σ.owner l = some c := by
      by_contra ho
      exact hpanics (.release hc hi (.inl ho))
    refine ⟨_, .release hc hi hown, rfl, fun l' c' ho => ?_, rfl, rfl⟩
    simp only [State.goto_owner, State.unlock, Function.update_apply] at ho
    split_ifs at ho
    exact hq l' c' ho
  | run m q => exact ⟨_, .run hc hi, rfl, hq, rfl, rfl⟩
  | sched q => exact absurd rfl (hs q)

section
variable {c : C} {l : L}

theorem Locks.lock (h : D.Locks σ) (hfree : σ.owner l = none)
    (ho : σ'.owner = (σ.lock c l).owner) (hn : σ'.noff = (σ.lock c l).noff)
    (hi : σ'.intr = (σ.lock c l).intr)
    (hc : D.heldBy σ'.pc (σ'.ctx c) = l :: D.heldBy σ.pc (σ.ctx c))
    (hother : ∀ c' ≠ c, D.heldBy σ'.pc (σ'.ctx c') = D.heldBy σ.pc (σ.ctx c')) : D.Locks σ' := by
  have hl : ∀ c', l ∉ D.heldBy σ.pc (σ.ctx c') := by
    intro c' hmem
    have := (h.owner l c').2 hmem
    rw [hfree] at this; cases this
  refine ⟨fun l' c' => ?_, fun c' => ?_, fun c' hne => ?_⟩
  · simp only [ho, State.lock, Function.update_apply]
    by_cases hcc : c' = c
    · subst hcc
      rw [hc, List.mem_cons]
      split_ifs with hll
      · simp [hll]
      · rw [h.owner l' c']; simp [hll]
    · rw [hother c' hcc]
      split_ifs with hll
      · subst hll
        exact ⟨fun heq => absurd (Option.some.inj heq).symm hcc, fun hm => absurd hm (hl c')⟩
      · exact h.owner l' c'
  · simp only [hn, State.lock, Function.update_apply]
    split_ifs with hcc
    · subst hcc; rw [hc, List.length_cons, h.noff]
    · rw [hother c' hcc, h.noff]
  · simp only [hi, State.lock, Function.update_apply]
    split_ifs with hcc
    · rfl
    · rw [hother c' hcc] at hne; exact h.intr c' hne

theorem Locks.unlock (h : D.Locks σ) (hl : σ.owner l = some c)
    (ho : σ'.owner = (σ.unlock c l).owner) (hn : σ'.noff = (σ.unlock c l).noff)
    (hi : σ'.intr = σ.intr)
    (hc : D.heldBy σ'.pc (σ'.ctx c) = (D.heldBy σ.pc (σ.ctx c)).erase l)
    (hother : ∀ c' ≠ c, D.heldBy σ'.pc (σ'.ctx c') = D.heldBy σ.pc (σ.ctx c')) : D.Locks σ' := by
  have hmem : l ∈ D.heldBy σ.pc (σ.ctx c) := (h.owner l c).1 hl
  have hnodup := D.heldBy_nodup σ.pc (σ.ctx c)
  refine ⟨fun l' c' => ?_, fun c' => ?_, fun c' hne => ?_⟩
  · simp only [ho, State.unlock, Function.update_apply]
    by_cases hcc : c' = c
    · subst hcc
      rw [hc, hnodup.mem_erase_iff]
      split_ifs with hll
      · simp [hll]
      · rw [h.owner l' c']; simp [hll]
    · rw [hother c' hcc]
      split_ifs with hll
      · subst hll
        exact ⟨fun heq => absurd heq (by simp), fun hm => absurd (h.unique hm hmem) hcc⟩
      · exact h.owner l' c'
  · simp only [hn, State.unlock, Function.update_apply]
    split_ifs with hcc
    · subst hcc; rw [hc, List.length_erase_of_mem hmem, h.noff]
    · rw [hother c' hcc, h.noff]
  · rw [hi]
    by_cases hcc : c' = c
    · subst hcc; exact h.intr c' (List.ne_nil_of_mem hmem)
    · rw [hother c' hcc] at hne; exact h.intr c' hne

omit [DecidableEq C] in
theorem Locks.same (h : D.Locks σ) (ho : σ'.owner = σ.owner) (hn : σ'.noff = σ.noff)
    (hi : ∀ c, D.heldBy σ.pc (σ.ctx c) ≠ [] → σ'.intr c = σ.intr c)
    (hc : ∀ c, D.heldBy σ'.pc (σ'.ctx c) = D.heldBy σ.pc (σ.ctx c)) : D.Locks σ' := by
  refine ⟨fun l c => ?_, fun c => ?_, fun c hne => ?_⟩
  · rw [ho, hc, h.owner]
  · rw [hn, hc, h.noff]
  · rw [hc] at hne; rw [hi c hne, h.intr c hne]

omit [DecidableEq C] in
/-- A thread moves on, on its CPU. -/
theorem Threads.goto (h : D.Threads σ) {p : T} {q : P} (hc : σ.ctx c = .running p)
    (hctx : σ'.ctx = σ.ctx) (hpc : σ'.pc = Function.update σ.pc p q)
    (hp : code.status σ'.mem p = .running ↔ D.awake p q = true)
    (hother : ∀ t ≠ p, code.status σ'.mem t = .running ↔ code.status σ.mem t = .running) :
    D.Threads σ' := by
  refine ⟨fun t c₁ c₂ => ?_, fun t c₁ ht => ?_, fun t ht => ?_⟩
  · rw [hctx]; exact h.unique t c₁ c₂
  · rw [hpc]
    by_cases htp : t = p
    · subst htp; rw [Function.update_self, hp]
    · rw [Function.update_of_ne htp, hother t htp]
      exact h.running t c₁ (by rwa [hctx] at ht)
  · rw [hctx] at ht
    have htp : t ≠ p := by rintro rfl; exact ht c hc
    rw [hpc, Function.update_of_ne htp]
    exact ⟨(h.parked t ht).1, (hother t htp).not.2 (h.parked t ht).2⟩

/-- A scheduler moves on. -/
theorem Threads.switch (h : D.Threads σ) {x : Ctx T} (hc : ∀ p, σ.ctx c ≠ .running p)
    (hx : ∀ p, x ≠ .running p) (hctx : σ'.ctx = Function.update σ.ctx c x) (hpc : σ'.pc = σ.pc)
    (hmem : σ'.mem = σ.mem) : D.Threads σ' := by
  have hrun : ∀ t c', σ'.ctx c' = .running t ↔ σ.ctx c' = .running t := by
    intro t c'
    rw [hctx, Function.update_apply]
    split_ifs with hcc
    · subst hcc; exact ⟨fun h => absurd h (hx t), fun h => absurd h (hc t)⟩
    · rfl
  refine ⟨fun t c₁ c₂ => ?_, fun t c₁ ht => ?_, fun t ht => ?_⟩
  · rw [hrun, hrun]; exact h.unique t c₁ c₂
  · rw [hpc, hmem]; exact h.running t c₁ ((hrun t c₁).1 ht)
  · rw [hpc, hmem]; exact h.parked t fun c' hc' => ht c' ((hrun t c').2 hc')

end

/-- **A step keeps the invariant.** -/
theorem Inv.step (h : D.Inv σ) {a : Option T} (hs : Step code σ a σ') : D.Inv σ' := by
  -- the threads of other CPUs stay where they are
  have hother : ∀ {c : C} {p : T}, σ.ctx c = .running p → ∀ q, ∀ c' ≠ c,
      D.heldBy (Function.update σ.pc p q) (σ.ctx c') = D.heldBy σ.pc (σ.ctx c') :=
    fun hc q c' hcc => D.heldBy_update _ (fun hc' => hcc (h.threads.unique _ _ _ hc' hc)) q
  have hswitch : ∀ {c : C} {x : Ctx T}, ∀ c' ≠ c,
      D.heldBy σ.pc (Function.update σ.ctx c x c') = D.heldBy σ.pc (σ.ctx c') :=
    fun c' hcc => by rw [Function.update_of_ne hcc]
  cases hs with
  | @acquire c p l q hc hi hfree =>
    obtain ⟨-, hheld, hawake⟩ := D.acquire hi
    constructor
    · refine h.locks.lock hfree rfl rfl rfl ?_ fun c' hcc => hother hc q c' hcc
      simp [hc, heldBy, hheld]
    · refine h.threads.goto hc rfl rfl ?_ fun t _ => Iff.rfl
      rw [hawake]; exact h.threads.running p c hc
  | @release c p l q hc hi hown =>
    obtain ⟨-, hheld, hawake⟩ := D.release hi
    constructor
    · refine h.locks.unlock hown rfl rfl rfl ?_ fun c' hcc => hother hc q c' hcc
      simp [hc, heldBy, hheld]
    · refine h.threads.goto hc rfl rfl ?_ fun t _ => Iff.rfl
      rw [hawake]; exact h.threads.running p c hc
  | @run c p m q hc hi =>
    obtain ⟨hheld, htrue, hfalse, hstatus⟩ := D.run hi (h.threads.running p c hc)
    constructor
    · refine h.locks.same rfl rfl (fun _ _ => rfl) fun c' => ?_
      by_cases hcc : c' = c
      · subst hcc; simp [hc, heldBy, hheld]
      · exact hother hc q c' hcc
    · refine h.threads.goto hc rfl rfl ?_ fun t htp => ?_
      · cases hq : D.awake p q with
        | true =>
          obtain ⟨hp, heq⟩ := htrue hq
          rw [State.goto_mem, State.store_mem, heq, h.threads.running p c hc, hp]
        | false => exact ⟨fun hr => absurd hr (hfalse hq), fun hb => by cases hb⟩
      · by_cases heq : code.status m t = code.status σ.mem t
        · rw [State.goto_mem, State.store_mem, heq]
        · have := (hstatus t heq).2 htp
          exact ⟨fun hr => absurd hr this.2, fun hr => absurd hr this.1⟩
  | @sched c p q hc hi =>
    obtain ⟨hheld, hasleep, hparked⟩ := D.sched hi
    have hstatus : code.status σ.mem p ≠ .running := by
      intro hr
      have := (h.threads.running p c hc).1 hr
      rw [hasleep] at this; cases this
    constructor
    · refine h.locks.same rfl rfl (fun _ _ => rfl) fun c' => ?_
      by_cases hcc : c' = c
      · subst hcc; simp [hc, heldBy, hheld]
      · simp only [State.goto_pc, State.switch_pc, State.goto_ctx, State.switch_ctx,
          Function.update_of_ne hcc]
        exact hother hc q c' hcc
    · have hrun : ∀ t c', Function.update σ.ctx c (.releasing p) c' = .running t ↔
          σ.ctx c' = .running t ∧ t ≠ p := by
        intro t c'
        by_cases hcc : c' = c
        · subst hcc
          simp only [Function.update_self, hc, reduceCtorEq, Ctx.running.injEq, ne_eq, false_iff,
            not_and, not_not]
          exact Eq.symm
        · rw [Function.update_of_ne hcc]
          exact ⟨fun ht => ⟨ht, by rintro rfl; exact hcc (h.threads.unique _ _ _ ht hc)⟩, And.left⟩
      refine ⟨fun t c₁ c₂ h₁ h₂ => ?_, fun t c₁ h₁ => ?_, fun t ht => ?_⟩
      · exact h.threads.unique t c₁ c₂ ((hrun t c₁).1 h₁).1 ((hrun t c₂).1 h₂).1
      · obtain ⟨h₁, htp⟩ := (hrun t c₁).1 h₁
        simp only [State.goto_pc, State.goto_mem, State.switch_mem, State.switch_pc,
          Function.update_of_ne htp]
        exact h.threads.running t c₁ h₁
      · by_cases htp : t = p
        · subst htp
          simp only [State.goto_pc, Function.update_self]
          exact ⟨hparked, hstatus⟩
        · simp only [State.goto_pc, State.goto_mem, State.switch_mem, State.switch_pc,
            Function.update_of_ne htp]
          exact h.threads.parked t fun c' hc' => ht c' ((hrun t c').2 ⟨hc', htp⟩)
  | @schedAcquire c p hc hfree =>
    constructor
    · refine h.locks.lock hfree rfl rfl rfl ?_ fun c' hcc => hswitch c' hcc
      simp [hc, heldBy]
    · refine h.threads.switch (c := c) (x := .checking p) ?_ ?_ rfl rfl rfl
      · intro t ht; rw [hc] at ht; cases ht
      · intro t ht; cases ht
  | @schedRun c p hc hs =>
    -- the thread does not run, as its lock is held here
    have hoff : ∀ c', σ.ctx c' ≠ .running p := by
      intro c' hc'
      have hawake : D.awake p (σ.pc p) = false := by
        have := (h.threads.running p c' hc').not.1 (by rw [hs]; exact Status.noConfusion)
        simpa using this
      have hmem : code.lockOf p ∈ D.heldBy σ.pc (σ.ctx c') := by
        rw [hc']; exact D.asleep_held _ _ hawake
      have hmine : code.lockOf p ∈ D.heldBy σ.pc (σ.ctx c) := by
        rw [hc]; exact List.mem_singleton_self _
      obtain rfl := h.locks.unique hmem hmine
      rw [hc] at hc'; cases hc'
    obtain ⟨hheld, hawake⟩ := D.parked_held p _ (h.threads.parked p hoff).1
    constructor
    · refine h.locks.same rfl rfl (fun _ _ => rfl) fun c' => ?_
      by_cases hcc : c' = c
      · subst hcc; simp [hc, heldBy, hheld]
      · exact hswitch c' hcc
    · have hrun : ∀ t c', Function.update σ.ctx c (.running p) c' = .running t ↔
          (c' = c ∧ t = p) ∨ (c' ≠ c ∧ σ.ctx c' = .running t) := by
        intro t c'
        by_cases hcc : c' = c
        · subst hcc; simp [eq_comm]
        · simp [hcc]
      refine ⟨fun t c₁ c₂ h₁ h₂ => ?_, fun t c₁ h₁ => ?_, fun t ht => ?_⟩
      · rcases (hrun t c₁).1 h₁ with ⟨rfl, rfl⟩ | ⟨-, g₁⟩
        · rcases (hrun t c₂).1 h₂ with ⟨rfl, -⟩ | ⟨-, g₂⟩
          · rfl
          · exact absurd g₂ (hoff c₂)
        · rcases (hrun t c₂).1 h₂ with ⟨rfl, rfl⟩ | ⟨-, g₂⟩
          · exact absurd g₁ (hoff c₁)
          · exact h.threads.unique t c₁ c₂ g₁ g₂
      · simp only [State.switch_mem, State.store_mem, State.switch_pc, State.store_pc,
          D.status_setRunning]
        rcases (hrun t c₁).1 h₁ with ⟨rfl, rfl⟩ | ⟨-, g₁⟩
        · simp [hawake]
        · have htp : t ≠ p := by rintro rfl; exact hoff c₁ g₁
          rw [if_neg htp]; exact h.threads.running t c₁ g₁
      · have htp : t ≠ p := by
          rintro rfl; exact ht c ((hrun t c).2 (.inl ⟨rfl, rfl⟩))
        simp only [State.switch_mem, State.store_mem, State.switch_pc, State.store_pc,
          D.status_setRunning, if_neg htp]
        refine h.threads.parked t fun c' hc' => ht c' ((hrun t c').2 (.inr ⟨?_, hc'⟩))
        rintro rfl; rw [hc] at hc'; cases hc'
  | @schedSkip c p hc hs =>
    constructor
    · refine h.locks.same rfl rfl (fun _ _ => rfl) fun c' => ?_
      by_cases hcc : c' = c
      · subst hcc; simp [hc, heldBy]
      · exact hswitch c' hcc
    · refine h.threads.switch (c := c) (x := .releasing p) ?_ ?_ rfl rfl rfl
      · intro t ht; rw [hc] at ht; cases ht
      · intro t ht; cases ht
  | @schedRelease c p hc hown =>
    constructor
    · refine h.locks.unlock hown rfl rfl rfl ?_ fun c' hcc => hswitch c' hcc
      simp [hc, heldBy]
    · refine h.threads.switch (c := c) (x := .acquiring (code.next p)) ?_ ?_ rfl rfl rfl
      · intro t ht; rw [hc] at ht; cases ht
      · intro t ht; cases ht
  | @interrupt c b hn =>
    refine ⟨h.locks.same rfl rfl (fun c' hne => ?_) fun _ => rfl, ⟨h.threads.unique,
      h.threads.running, h.threads.parked⟩⟩
    have hcc : c' ≠ c := by
      rintro rfl
      rw [h.locks.noff, List.length_eq_zero_iff] at hn
      exact hne hn
    exact Function.update_of_ne hcc ..

omit [DecidableEq C] in
theorem Start.inv (h : D.Start σ) : D.Inv σ := by
  have hheld : ∀ c, D.heldBy σ.pc (σ.ctx c) = [] := by
    intro c
    obtain ⟨p, hp⟩ := h.ctx c; rw [hp]; rfl
  have hoff : ∀ p c, σ.ctx c ≠ .running p := by
    intro p c hc
    obtain ⟨p', hp'⟩ := h.ctx c; rw [hp'] at hc; cases hc
  refine ⟨⟨fun l c => ?_, fun c => ?_, fun c hne => absurd (hheld c) hne⟩,
    ⟨fun p c c' hc => absurd hc (hoff p c), fun p c hc => absurd hc (hoff p c),
      fun p _ => h.parked p⟩⟩
  · rw [h.owner, hheld]; simp
  · rw [h.noff, hheld]; rfl

/-- **The discipline is kept in each reachable state.** -/
theorem inv_of_reach {init : State T L C M P → Prop} {ok : State T L C M P → T → Prop}
    (hinit : ∀ σ, init σ → D.Start σ) (h : Reach code init ok σ) : D.Inv σ :=
  h.invariant (fun σ hi => (hinit σ hi).inv) fun _ _ _ hI hs _ => hI.step hs

end Discipline

end LockMachine
