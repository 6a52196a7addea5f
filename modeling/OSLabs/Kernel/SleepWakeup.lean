/-
  sleep and wakeup (proc.c), as a monitor's threads use them.

  `code` runs the code of a monitor (Monitor) on any number of CPUs (LockMachine).
  Where the monitor has an instruction to sleep or to wake up, the process goes
  through sleep or wakeup of proc.c, step by step: it takes the locks of the
  processes, sets their states, and switches to the scheduler.  Processes that
  hold no lock may also call kill, and are preempted.

  A `Client` is a monitor that keeps its own lock discipline, and that calls wakeup
  with its lock held.  Then the machine keeps a lock discipline too (`discipline`).
-/
import OSLabs.Lib.LockMachine
import OSLabs.Lib.Monitor
import Mathlib.Data.Fin.Basic

namespace OSLabs.Sleep

open LockMachine

variable {n : ℕ} {S K P C : Type} [DecidableEq K]

/-- A monitor that wakes up processes with its lock held. -/
structure Client (n : ℕ) (S K P : Type) [DecidableEq K] where
  code : Monitor.Code (Fin n) S K P
  disc : Monitor.Discipline code
  wakes : ∀ {t q m b k q'}, code.instr t q m b (.wakeup k q') → disc.held q = true

/-- The lock of the monitor is held. -/
def Client.held (B : Client n S K P) (q : P) : Bool := B.disc.held q

/-- The lock of the monitor, and those of the processes. -/
inductive Lock (n : ℕ) where
  | mon
  | proc (p : Fin n)
  deriving DecidableEq, Repr

/-- The memory of the monitor, and the table of processes. -/
structure Mem (n : ℕ) (S K : Type) where
  shared : S
  state : Fin n → Status
  chan : Fin n → Option K
  killed : Fin n → Bool
  pid : Fin n → Int32

namespace Mem
variable (m : Mem n S K)

def setShared (s : S) : Mem n S K := { m with shared := s }

def setState (p : Fin n) (st : Status) : Mem n S K :=
  { m with state := Function.update m.state p st }

def setChan (p : Fin n) (c : Option K) : Mem n S K := { m with chan := Function.update m.chan p c }

def setKilled (p : Fin n) : Mem n S K := { m with killed := Function.update m.killed p true }

end Mem

/-- Where a process is in the code of the monitor: at a point of it, about to
    acquire the lock again in sleep, or in kill, with no lock held. -/
inductive Place (B : Client n S K P) where
  | client (q : P)
  | reacquire (q : P) (h : B.held q = true)
  | kill (q : P) (h : B.held q = false) (pid : Int32) (i : ℕ)

/-- The lock of the monitor is held at a place. -/
def Place.held {B : Client n S K P} : Place B → Bool
  | .client q => B.held q
  | .reacquire _ _ => false
  | .kill _ _ _ _ => false

/-- The program points of a process, with the point `q` of the monitor behind them. -/
inductive Point (B : Client n S K P) where
  | place (f : Place B)
  | forkret (q : P) (h : B.held q = false)
  | wakeup (k : K) (q : P) (h : B.held q = true) (i : ℕ)
  | wakeupCheck (k : K) (q : P) (h : B.held q = true) (x : Fin n)
  | wakeupRelease (k : K) (q : P) (h : B.held q = true) (x : Fin n)
  | sleepRelease (k : K) (q : P) (h : B.held q = true)
  | sleepChan (k : K) (q : P) (h : B.held q = true)
  | sleepState (k : K) (q : P) (h : B.held q = true)
  | sleepSched (k : K) (q : P) (h : B.held q = true)
  | sleepWoken (k : K) (q : P) (h : B.held q = true)
  | sleepUnlock (q : P) (h : B.held q = true)
  | killCheck (q : P) (h : B.held q = false) (pid : Int32) (x : Fin n)
  | killRelease (q : P) (h : B.held q = false) (pid : Int32) (x : Fin n) (found : Bool)
  | yield (f : Place B) (h : f.held = false)
  | yieldState (f : Place B) (h : f.held = false)
  | yieldSched (f : Place B) (h : f.held = false)
  | yieldRelease (f : Place B) (h : f.held = false)

section
variable (B : Client n S K P)

abbrev SInstr := Instr (Lock n) (Mem n S K) (Point B)

variable {B}

/-- sleep, wakeup, kill and yield: the instruction at a point, for the process `t`. -/
def exec (t : Fin n) (q : Point B) (m : Mem n S K) : Option (SInstr B) :=
  match q with
  | .place (.client _) => none
  | .place (.reacquire q _) => some (.acquire .mon (.place (.client q)))
  | .place (.kill q h pid i) =>
    if hi : i < n then some (.acquire (.proc ⟨i, hi⟩) (.killCheck q h pid ⟨i, hi⟩))
    else some (.run m (.place (.client q)))
  | .forkret q _ => some (.release (.proc t) (.place (.client q)))
  -- wakeup
  | .wakeup k q h i =>
    if hi : i < n then
      if ⟨i, hi⟩ = t then some (.run m (.wakeup k q h (i + 1)))
      else some (.acquire (.proc ⟨i, hi⟩) (.wakeupCheck k q h ⟨i, hi⟩))
    else some (.run m (.place (.client q)))
  | .wakeupCheck k q h x =>
    if m.state x = .sleeping ∧ m.chan x = some k then
      some (.run (m.setState x .runnable) (.wakeupRelease k q h x))
    else some (.run m (.wakeupRelease k q h x))
  | .wakeupRelease k q h x => some (.release (.proc x) (.wakeup k q h (x + 1)))
  -- sleep
  | .sleepRelease k q h => some (.release .mon (.sleepChan k q h))
  | .sleepChan k q h => some (.run (m.setChan t (some k)) (.sleepState k q h))
  | .sleepState k q h => some (.run (m.setState t .sleeping) (.sleepSched k q h))
  | .sleepSched k q h => some (.sched (.sleepWoken k q h))
  | .sleepWoken _ q h => some (.run (m.setChan t none) (.sleepUnlock q h))
  | .sleepUnlock q h => some (.release (.proc t) (.place (.reacquire q h)))
  -- kill
  | .killCheck q h pid x =>
    if m.pid x = pid then
      some (.run (if m.state x = .sleeping then (m.setKilled x).setState x .runnable
        else m.setKilled x) (.killRelease q h pid x true))
    else some (.run m (.killRelease q h pid x false))
  | .killRelease q h pid x found =>
    some (.release (.proc x) (.place (if found then .client q else .kill q h pid (x + 1))))
  -- yield
  | .yield f h => some (.acquire (.proc t) (.yieldState f h))
  | .yieldState f h => some (.run (m.setState t .runnable) (.yieldSched f h))
  | .yieldSched f h => some (.sched (.yieldRelease f h))
  | .yieldRelease f _ => some (.release (.proc t) (.place f))

theorem Client.wakes_next {t : Fin n} {q q' : P} {s : S} {b : Bool} {k : K}
    (h : B.code.instr t q s b (.wakeup k q')) : B.held q' = true :=
  (B.disc.wakeup h).trans (B.wakes h)

theorem Client.sleep_next {t : Fin n} {q q' : P} {s : S} {b : Bool} {k : K}
    (h : B.code.instr t q s b (.sleep k q')) : B.held q' = true := (B.disc.sleep h).2

/-- What a process may do: proc.c, the instructions of the monitor, or, with no lock
    held, to kill a process or to be preempted. -/
inductive Does (t : Fin n) : Point B → Mem n S K → SInstr B → Prop
  | code {q m i} : exec t q m = some i → Does t q m i
  | acquire {q m q'} : B.code.instr t q m.shared (m.killed t) (.acquire q') →
      Does t (.place (.client q)) m (.acquire .mon (.place (.client q')))
  | release {q m q'} : B.code.instr t q m.shared (m.killed t) (.release q') →
      Does t (.place (.client q)) m (.release .mon (.place (.client q')))
  | run {q m s q'} : B.code.instr t q m.shared (m.killed t) (.run s q') →
      Does t (.place (.client q)) m (.run (m.setShared s) (.place (.client q')))
  | sleep {q m k q'} (hi : B.code.instr t q m.shared (m.killed t) (.sleep k q')) :
      Does t (.place (.client q)) m (.acquire (.proc t) (.sleepRelease k q' (B.sleep_next hi)))
  | wakeup {q m k q'} (hi : B.code.instr t q m.shared (m.killed t) (.wakeup k q')) :
      Does t (.place (.client q)) m (.run m (.wakeup k q' (B.wakes_next hi) 0))
  | kill {q m pid} (h : B.held q = false) :
      Does t (.place (.client q)) m (.run m (.place (.kill q h pid 0)))
  | preempt {f m} (h : f.held = false) : Does t (.place f) m (.run m (.yield f h))

theorem next_lt (p : Fin n) : (p.val + 1) % n < n := Nat.mod_lt _ p.pos

variable (B)

/-- The processes of the monitor on the CPUs of the machine. -/
def code : Code (Fin n) (Lock n) (Mem n S K) (Point B) where
  lockOf := .proc
  status m p := m.state p
  setRunning m p := m.setState p .running
  next p := ⟨(p.val + 1) % n, next_lt p⟩
  instr := Does

abbrev SState (C : Type) := State (Fin n) (Lock n) C (Mem n S K) (Point B)

end

abbrev MState (n : ℕ) (S K P : Type) := Monitor.State (Fin n) S K P

variable {B : Client n S K P}

/-- The machine at its start, when the monitor starts in the state `α`: all processes
    are about to run for the first time. -/
structure Boots (α : MState n S K P) (φ : SState B C) : Prop where
  shared : φ.mem.shared = α.mem
  killed : φ.mem.killed = α.killed
  state : ∀ t, φ.mem.state t = .runnable
  pc : ∀ t, ∃ h, φ.pc t = .forkret (α.pc t) h
  owner : ∀ l, φ.owner l = none
  noff : ∀ c, φ.noff c = 0
  ctx : ∀ c, ∃ p, φ.ctx c = .acquiring p

/-! ## The instructions of each kind -/

inductive Acquires (t : Fin n) (m : Mem n S K) : Point B → Lock n → Point B → Prop
  | client {q q'} : B.code.instr t q m.shared (m.killed t) (.acquire q') →
      Acquires t m (.place (.client q)) .mon (.place (.client q'))
  | sleep {q k q'} (hi : B.code.instr t q m.shared (m.killed t) (.sleep k q')) :
      Acquires t m (.place (.client q)) (.proc t) (.sleepRelease k q' (B.sleep_next hi))
  | reacquire {q h} : Acquires t m (.place (.reacquire q h)) .mon (.place (.client q))
  | wakeup {k q h x} : x ≠ t →
      Acquires t m (.wakeup k q h x) (.proc x) (.wakeupCheck k q h x)
  | kill {q h pid x} :
      Acquires t m (.place (.kill q h pid (x : Fin n))) (.proc x) (.killCheck q h pid x)
  | yield {f h} : Acquires t m (.yield f h) (.proc t) (.yieldState f h)

inductive Releases (t : Fin n) (m : Mem n S K) : Point B → Lock n → Point B → Prop
  | client {q q'} : B.code.instr t q m.shared (m.killed t) (.release q') →
      Releases t m (.place (.client q)) .mon (.place (.client q'))
  | forkret {q h} : Releases t m (.forkret q h) (.proc t) (.place (.client q))
  | wakeup {k q h x} :
      Releases t m (.wakeupRelease k q h x) (.proc x) (.wakeup k q h (x + 1))
  | sleepMon {k q h} : Releases t m (.sleepRelease k q h) .mon (.sleepChan k q h)
  | sleepProc {q h} : Releases t m (.sleepUnlock q h) (.proc t) (.place (.reacquire q h))
  | killed {q h pid x} : Releases t m (.killRelease q h pid x true) (.proc x) (.place (.client q))
  | killNext {q h pid x} :
      Releases t m (.killRelease q h pid x false) (.proc x) (.place (.kill q h pid (x + 1)))
  | yield {f h} : Releases t m (.yieldRelease f h) (.proc t) (.place f)

inductive Runs (t : Fin n) (m : Mem n S K) : Point B → Mem n S K → Point B → Prop
  | client {q s q'} : B.code.instr t q m.shared (m.killed t) (.run s q') →
      Runs t m (.place (.client q)) (m.setShared s) (.place (.client q'))
  | wakeup {q k q'} (hi : B.code.instr t q m.shared (m.killed t) (.wakeup k q')) :
      Runs t m (.place (.client q)) m (.wakeup k q' (B.wakes_next hi) 0)
  | kill {q pid} (h : B.held q = false) :
      Runs t m (.place (.client q)) m (.place (.kill q h pid 0))
  | preempt {f} (h : f.held = false) : Runs t m (.place f) m (.yield f h)
  | killEnd {q h pid i} : Runs t m (.place (.kill q h pid i)) m (.place (.client q))
  | wakeupSelf {k q h} : Runs t m (.wakeup k q h t) m (.wakeup k q h (t + 1))
  | wakeupEnd {k q h i} : n ≤ i → Runs t m (.wakeup k q h i) m (.place (.client q))
  | wake {k q h x} : m.state x = .sleeping → m.chan x = some k →
      Runs t m (.wakeupCheck k q h x) (m.setState x .runnable) (.wakeupRelease k q h x)
  | wakeNot {k q h x} : ¬ (m.state x = .sleeping ∧ m.chan x = some k) →
      Runs t m (.wakeupCheck k q h x) m (.wakeupRelease k q h x)
  | sleepChan {k q h} :
      Runs t m (.sleepChan k q h) (m.setChan t (some k)) (.sleepState k q h)
  | sleepState {k q h} :
      Runs t m (.sleepState k q h) (m.setState t .sleeping) (.sleepSched k q h)
  | sleepWoken {k q h} : Runs t m (.sleepWoken k q h) (m.setChan t none) (.sleepUnlock q h)
  | killWake {q h pid x} : m.state x = .sleeping →
      Runs t m (.killCheck q h pid x) ((m.setKilled x).setState x .runnable)
        (.killRelease q h pid x true)
  | killAwake {q h pid x} : m.state x ≠ .sleeping →
      Runs t m (.killCheck q h pid x) (m.setKilled x) (.killRelease q h pid x true)
  | killNot {q h pid x} : Runs t m (.killCheck q h pid x) m (.killRelease q h pid x false)
  | yieldState {f h} : Runs t m (.yieldState f h) (m.setState t .runnable) (.yieldSched f h)

inductive Scheds : Point B → Point B → Prop
  | sleep {k q h} : Scheds (.sleepSched k q h) (.sleepWoken k q h)
  | yield {f h} : Scheds (.yieldSched f h) (.yieldRelease f h)

section
variable {t : Fin n} {q q' : Point B} {m m' : Mem n S K} {l : Lock n}

theorem Does.acquires (h : Does t q m (.acquire l q')) : Acquires t m q l q' := by
  cases h with
  | acquire hi => exact .client hi
  | sleep hi => exact .sleep hi
  | code h =>
    cases q with
    | place f =>
      cases f with
      | client => cases h
      | reacquire => cases h; exact .reacquire
      | kill q hq pid i =>
        simp only [exec] at h
        split_ifs at h with hi
        · cases h; exact .kill (x := ⟨i, hi⟩)
        · cases h
    | wakeup k q hq i =>
      simp only [exec] at h
      split_ifs at h with hi ht
      · cases h
      · cases h; exact .wakeup (x := ⟨i, hi⟩) ht
      · cases h
    | yield => cases h; exact .yield
    | _ =>
      simp only [exec] at h
      try split_ifs at h
      all_goals cases h

theorem Does.releases (h : Does t q m (.release l q')) : Releases t m q l q' := by
  cases h with
  | release hi => exact .client hi
  | code h =>
    cases q with
    | place f =>
      cases f <;> simp only [exec] at h <;> try split_ifs at h
      all_goals cases h
    | forkret => cases h; exact .forkret
    | wakeupRelease => cases h; exact .wakeup
    | sleepRelease => cases h; exact .sleepMon
    | sleepUnlock => cases h; exact .sleepProc
    | killRelease q hq pid x found =>
      cases h
      cases found with
      | true => exact .killed
      | false => exact .killNext
    | yieldRelease => cases h; exact .yield
    | _ =>
      simp only [exec] at h
      try split_ifs at h
      all_goals cases h

theorem Does.runs (h : Does t q m (.run m' q')) : Runs t m q m' q' := by
  cases h with
  | run hi => exact .client hi
  | wakeup hi => exact .wakeup hi
  | kill hq => exact .kill hq
  | preempt hf => exact .preempt hf
  | code h =>
    cases q with
    | place f =>
      cases f with
      | kill q hq pid i =>
        simp only [exec] at h
        split_ifs at h with hi
        · cases h
        · cases h; exact .killEnd
      | _ => cases h
    | wakeup k q hq i =>
      simp only [exec] at h
      split_ifs at h with hi ht
      · cases h
        subst ht; exact .wakeupSelf
      · cases h
      · cases h; exact .wakeupEnd (not_lt.1 hi)
    | wakeupCheck =>
      simp only [exec] at h
      split_ifs at h with hs
      · cases h; exact .wake hs.1 hs.2
      · cases h; exact .wakeNot hs
    | sleepChan => cases h; exact .sleepChan
    | sleepState => cases h; exact .sleepState
    | sleepWoken => cases h; exact .sleepWoken
    | killCheck =>
      simp only [exec] at h
      split_ifs at h with hp hs
      · cases h; exact .killWake hs
      · cases h; exact .killAwake hs
      · cases h; exact .killNot
    | yieldState => cases h; exact .yieldState
    | _ => cases h

theorem Does.scheds (h : Does t q m (.sched q')) : Scheds q q' := by
  cases h with
  | code h =>
    cases q with
    | place f =>
      cases f <;> simp only [exec] at h <;> try split_ifs at h
      all_goals cases h
    | sleepSched => cases h; exact .sleep
    | yieldSched => cases h; exact .yield
    | _ =>
      simp only [exec] at h
      try split_ifs at h
      all_goals cases h

end

end OSLabs.Sleep
