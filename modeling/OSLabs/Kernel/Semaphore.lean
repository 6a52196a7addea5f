/-
  The semaphores of the kernel (lab2, sem_syscall.c), with the parts of proc.c
  and trap.c that they use: sleep, wakeup, kill, yield, and the checks of
  `killed` at a system call.

  Each process is at a program point of its code; `exec` is the instruction
  there, and `code` lets any number of processes run on any number of CPUs
  (LockMachine).  A process that holds no lock can be preempted.  What the
  processes do between their system calls is a parameter (`UserSys`).

  `int` is `Int32`, so the counters of the semaphores wrap around.
-/
import OSLabs.Lib.LockMachine
import Mathlib.Data.Fin.Basic

namespace OSLabs.Kernel

open LockMachine

def emptySem : Int32 := -1

def err : Int32 := 0

def success : Int32 := 1

def maxSem : Int32 := 512

/-- `make_sem_array`, at boot. -/
def makeSemArray (table : Int32 → Int32) : Int32 → Int32 :=
  (List.range 512).foldl (fun t i => Function.update t (Int32.ofNat i) emptySem) table

/-- The semaphores of the table. -/
def InRange (s : Int32) : Prop := 0 ≤ s ∧ s < maxSem

instance (s : Int32) : Decidable (InRange s) := inferInstanceAs (Decidable (_ ∧ _))

/-- The system calls. -/
inductive Call where
  | semOpen (sem value : Int32)
  | semClose (sem : Int32)
  | semUp (sem : Int32)
  | semDown (sem : Int32)
  | kill (pid : Int32)
  deriving DecidableEq, Repr

/-- The semaphore that a call is for. -/
def Call.sem : Call → Option Int32
  | .semOpen s _ => some s
  | .semClose s => some s
  | .semUp s => some s
  | .semDown s => some s
  | .kill _ => none

/-- The programs of the processes: the calls a process may make, how it goes on
    when its call returns, and what else it may do.  The state `G` of the
    programs is shared. -/
structure UserSys (n : ℕ) (G : Type) where
  calls : Fin n → G → Call → G → Prop
  ret : Fin n → G → Int32 → G
  acts : Fin n → G → G → Prop

/-- The locks of the semaphores and of the processes. -/
inductive Lock (n : ℕ) where
  | sem (s : Int32)
  | proc (p : Fin n)
  deriving DecidableEq, Repr

/-- The table of semaphores and the table of processes.  The table has a cell
    for each `int`; those that are not `InRange` stand for the memory around it.
    `isOpen` is not part of the kernel: it notes if the last successful sem_open
    or sem_close of a semaphore was a sem_open. -/
structure Mem (n : ℕ) (G : Type) where
  value : Int32 → Int32
  isOpen : Int32 → Bool
  state : Fin n → Status
  chan : Fin n → Option Int32
  killed : Fin n → Bool
  pid : Fin n → Int32
  user : G

namespace Mem
variable {n : ℕ} {G : Type} (m : Mem n G)

def setValue (s v : Int32) : Mem n G := { m with value := Function.update m.value s v }

def setOpen (s : Int32) (b : Bool) : Mem n G := { m with isOpen := Function.update m.isOpen s b }

def setState (p : Fin n) (st : Status) : Mem n G :=
  { m with state := Function.update m.state p st }

def setChan (p : Fin n) (c : Option Int32) : Mem n G :=
  { m with chan := Function.update m.chan p c }

def setKilled (p : Fin n) : Mem n G := { m with killed := Function.update m.killed p true }

def setUser (g : G) : Mem n G := { m with user := g }

end Mem

/-- Where `usertrap` tests `killed`: before a system call, behind it, and at a
    timer interrupt. -/
inductive Trap where
  | syscall (c : Call)
  | userret (r : Int32)
  | timer
  deriving DecidableEq, Repr

/-- The program points at which a process holds no lock: in user mode, or about
    to acquire a first lock. -/
inductive Free where
  | user
  | killed (a : Trap)
  | semOpen (sem value : Int32)
  | semClose (sem : Int32)
  | semUp (sem : Int32)
  | semDown (sem : Int32)
  | reacquire (sem : Int32)
  | kill (pid : Int32) (k : ℕ)
  | resume (r : Int32)
  | exit
  deriving DecidableEq, Repr

/-- The program points of a process, named by the function and what comes next
    there. -/
inductive Point (n : ℕ) where
  | free (f : Free)
  | forkret
  | dead
  | killedCheck (a : Trap)
  | killedRelease (a : Trap) (k : Bool)
  | openTest (sem value : Int32)
  | openRelease (sem r : Int32)
  | closeWrite (sem : Int32)
  | closeRelease (sem : Int32)
  | upTest (sem : Int32)
  | wakeup (sem : Int32) (k : ℕ)
  | wakeupCheck (sem : Int32) (t : Fin n)
  | wakeupRelease (sem : Int32) (t : Fin n)
  | upWrite (sem : Int32)
  | upRelease (sem r : Int32)
  | downTest (sem : Int32)
  | downLoop (sem : Int32)
  | sleep (sem : Int32)
  | sleepRelease (sem : Int32)
  | sleepChan (sem : Int32)
  | sleepState (sem : Int32)
  | sleepSched (sem : Int32)
  | sleepWoken (sem : Int32)
  | sleepUnlock (sem : Int32)
  | downWrite (sem : Int32)
  | downRelease (sem r : Int32)
  | killCheck (pid : Int32) (t : Fin n)
  | killRelease (pid : Int32) (t : Fin n) (found : Bool)
  | exitState
  | exitSched
  | yield (f : Free)
  | yieldState (f : Free)
  | yieldSched (f : Free)
  | yieldRelease (f : Free)
  deriving DecidableEq, Repr

/-- The return of a system call. -/
def returns {n : ℕ} (r : Int32) : Point n := .free (.killed (.userret r))

/-- A system call, up to its first lock. -/
def enter {n : ℕ} : Call → Point n
  | .semOpen sem value =>
    if value < 0 ∨ sem < 0 ∨ sem > maxSem then returns err else .free (.semOpen sem value)
  | .semClose sem => if sem < 0 ∨ sem > maxSem then returns err else .free (.semClose sem)
  | .semUp sem => .free (.semUp sem)
  | .semDown sem => .free (.semDown sem)
  | .kill pid => .free (.kill pid 0)

section
variable {n : ℕ} {G : Type} (U : UserSys n G) (p : Fin n)

abbrev KInstr (n : ℕ) (G : Type) := Instr (Lock n) (Mem n G) (Point n)

/-- The instruction at a point without locks, for the process `p`. -/
def execFree (f : Free) (m : Mem n G) : Option (KInstr n G) :=
  match f with
  | .user => none
  | .killed a => some (.acquire (.proc p) (.killedCheck a))
  | .semOpen sem value => some (.acquire (.sem sem) (.openTest sem value))
  | .semClose sem => some (.acquire (.sem sem) (.closeWrite sem))
  | .semUp sem => some (.acquire (.sem sem) (.upTest sem))
  | .semDown sem => some (.acquire (.sem sem) (.downTest sem))
  | .reacquire sem => some (.acquire (.sem sem) (.downLoop sem))
  | .kill pid k =>
    if h : k < n then some (.acquire (.proc ⟨k, h⟩) (.killCheck pid ⟨k, h⟩))
    else some (.run m (returns (-1)))
  | .resume r => some (.run (m.setUser (U.ret p m.user r)) (.free .user))
  | .exit => some (.acquire (.proc p) .exitState)

/-- The instruction at a point, for the process `p`.  Of exit there is what the process
    table sees: it leaves out fileclose, iput between begin_op and end_op (which may
    sleep), and reparent and the wakeup of the parent under wait_lock. -/
def exec (q : Point n) (m : Mem n G) : Option (KInstr n G) :=
  match q with
  | .free f => execFree U p f m
  | .forkret => some (.release (.proc p) (.free .user))
  | .dead => none
  -- killed, in usertrap
  | .killedCheck a => some (.run m (.killedRelease a (m.killed p)))
  | .killedRelease a k =>
    some (.release (.proc p)
      (if k then .free .exit
        else match a with
          | .syscall c => enter c
          | .userret r => .free (.resume r)
          | .timer => .yield .user))
  -- sem_open
  | .openTest sem value =>
    if m.value sem ≠ emptySem then some (.run m (.openRelease sem err))
    else some (.run ((m.setValue sem value).setOpen sem true) (.openRelease sem success))
  | .openRelease sem r => some (.release (.sem sem) (returns r))
  -- sem_close
  | .closeWrite sem =>
    some (.run ((m.setValue sem emptySem).setOpen sem false) (.closeRelease sem))
  | .closeRelease sem => some (.release (.sem sem) (returns success))
  -- sem_up
  | .upTest sem =>
    if m.value sem = emptySem then some (.run m (.upRelease sem err))
    else if m.value sem = 0 then some (.run m (.wakeup sem 0))
    else some (.run m (.upWrite sem))
  | .wakeup sem k =>
    if h : k < n then
      if ⟨k, h⟩ = p then some (.run m (.wakeup sem (k + 1)))
      else some (.acquire (.proc ⟨k, h⟩) (.wakeupCheck sem ⟨k, h⟩))
    else some (.run m (.upWrite sem))
  | .wakeupCheck sem t =>
    if m.state t = .sleeping ∧ m.chan t = some sem then
      some (.run (m.setState t .runnable) (.wakeupRelease sem t))
    else some (.run m (.wakeupRelease sem t))
  | .wakeupRelease sem t => some (.release (.proc t) (.wakeup sem (t + 1)))
  | .upWrite sem => some (.run (m.setValue sem (m.value sem + 1)) (.upRelease sem success))
  | .upRelease sem r => some (.release (.sem sem) (returns r))
  -- sem_down
  | .downTest sem =>
    if m.value sem = emptySem then some (.run m (.downRelease sem err))
    else some (.run m (.downLoop sem))
  | .downLoop sem =>
    if m.value sem = 0 then some (.run m (.sleep sem)) else some (.run m (.downWrite sem))
  | .downWrite sem => some (.run (m.setValue sem (m.value sem - 1)) (.downRelease sem success))
  | .downRelease sem r => some (.release (.sem sem) (returns r))
  -- sleep
  | .sleep sem => some (.acquire (.proc p) (.sleepRelease sem))
  | .sleepRelease sem => some (.release (.sem sem) (.sleepChan sem))
  | .sleepChan sem => some (.run (m.setChan p (some sem)) (.sleepState sem))
  | .sleepState sem => some (.run (m.setState p .sleeping) (.sleepSched sem))
  | .sleepSched sem => some (.sched (.sleepWoken sem))
  | .sleepWoken sem => some (.run (m.setChan p none) (.sleepUnlock sem))
  | .sleepUnlock sem => some (.release (.proc p) (.free (.reacquire sem)))
  -- kill
  | .killCheck pid t =>
    if m.pid t = pid then
      some (.run (if m.state t = .sleeping then (m.setKilled t).setState t .runnable
        else m.setKilled t) (.killRelease pid t true))
    else some (.run m (.killRelease pid t false))
  | .killRelease pid t found =>
    some (.release (.proc t) (if found then returns 0 else .free (.kill pid (t + 1))))
  -- exit, from the acquire of p->lock on
  | .exitState => some (.run (m.setState p .zombie) .exitSched)
  | .exitSched => some (.sched .dead)
  -- yield
  | .yield f => some (.acquire (.proc p) (.yieldState f))
  | .yieldState f => some (.run (m.setState p .runnable) (.yieldSched f))
  | .yieldSched f => some (.sched (.yieldRelease f))
  | .yieldRelease f => some (.release (.proc p) (.free f))

/-- What a process may do: its code, a system call or an action of its program,
    or what a timer interrupt makes it do in user mode and in the kernel. -/
inductive Does : Point n → Mem n G → KInstr n G → Prop
  | code {q m i} : exec U p q m = some i → Does q m i
  | call {m c g} : U.calls p m.user c g →
      Does (.free .user) m (.run (m.setUser g) (.free (.killed (.syscall c))))
  | act {m g} : U.acts p m.user g → Does (.free .user) m (.run (m.setUser g) (.free .user))
  | timer {m} : Does (.free .user) m (.run m (.free (.killed .timer)))
  | preempt {f m} : f ≠ .user → Does (.free f) m (.run m (.yield f))

end

/-- The kernel with the programs `U`. -/
def code {n : ℕ} {G : Type} (U : UserSys n G) : Code (Fin n) (Lock n) (Mem n G) (Point n) where
  lockOf := .proc
  status m p := m.state p
  setRunning m p := m.setState p .running
  next p := ⟨(p + 1) % n, Nat.mod_lt _ p.pos⟩
  instr := Does U

abbrev KState (n : ℕ) (G C : Type) := State (Fin n) (Lock n) C (Mem n G) (Point n)

/-- The kernel at its start: all semaphores are as in `table`, and all processes
    are about to run for the first time. -/
structure Starts {n : ℕ} {G C : Type} (table : Int32 → Int32) (g : G) (σ : KState n G C) :
    Prop where
  value : σ.mem.value = table
  isOpen : ∀ s, σ.mem.isOpen s = decide (table s ≠ emptySem)
  state : ∀ p, σ.mem.state p = .runnable
  killed : ∀ p, σ.mem.killed p = false
  user : σ.mem.user = g
  pc : ∀ p, σ.pc p = .forkret
  owner : ∀ l, σ.owner l = none
  noff : ∀ c, σ.noff c = 0
  ctx : ∀ c, ∃ p, σ.ctx c = .acquiring p

/-- A start in which each CPU begins with its own process. -/
def boot {n : ℕ} {G : Type} (table : Int32 → Int32) (g : G) : KState n G (Fin n) where
  mem :=
    { value := table
      isOpen := fun s => decide (table s ≠ emptySem)
      state := fun _ => .runnable
      chan := fun _ => none
      killed := fun _ => false
      pid := fun p => Int32.ofNat (p + 1)
      user := g }
  pc _ := .forkret
  owner _ := none
  ctx c := .acquiring c
  noff _ := 0
  intr _ := true

theorem boot_starts {n : ℕ} {G : Type} (table : Int32 → Int32) (g : G) :
    Starts table g (boot table g : KState n G (Fin n)) :=
  ⟨rfl, fun _ => rfl, fun _ => rfl, fun _ => rfl, rfl, fun _ => rfl, fun _ => rfl, fun _ => rfl,
    fun c => ⟨c, rfl⟩⟩

end OSLabs.Kernel
