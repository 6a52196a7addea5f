/-
  Processes and their children (proc.c): fork, exit, wait and kill.

  `code` is what the processes of the process table do.  They share wait_lock, and
  wait sleeps on it (Monitor).  What the code does to a process under the lock of
  that process is one step.  A process only takes steps of its own while its state
  is `runnable`; the scheduler and sleep tell RUNNABLE, RUNNING and SLEEPING apart.

  The fields of `Mem` below `nextpid` are not part of the kernel.  They note which
  processes have told their parent that they exit, and all exits and waits.
-/
import OSLabs.Lib.Monitor
import Mathlib.Data.Fin.Basic

namespace OSLabs.Family

open Monitor

/-- `enum procstate`. -/
inductive ProcState where
  | unused
  | used
  | runnable
  | zombie
  deriving DecidableEq, Repr

variable {N : ℕ}

/-- The process table, of `NPROC` = `N` processes.  `exits` are the pids and
    statuses of the processes that have exited; `waits` those that were reaped,
    with the process that did. -/
structure Mem (N : ℕ) where
  state : Fin N → ProcState
  pid : Fin N → Int32
  parent : Fin N → Option (Fin N)
  xstate : Fin N → Int32
  killed : Fin N → Bool
  nextpid : Int32
  told : Fin N → Bool
  exits : List (Int32 × Int32)
  waits : List (Fin N × Int32 × Int32)
  forks : ℕ

/-- The program points of a process.  `copied` is if there is memory for the child,
    and `copies` if the status can be copied out (or is not asked for). -/
inductive Point (N : ℕ) where
  | user
  | panic
  | alloc (copied : Bool) (i : ℕ)
  | copy (copied : Bool) (np : Fin N)
  | adopt (np : Fin N) (pid : Int32)
  | setParent (np : Fin N) (pid : Int32)
  | setRelease (np : Fin N) (pid : Int32)
  | start (np : Fin N) (pid : Int32)
  | forkReturn (r : Int32)
  | exit (status : Int32)
  | reparent (status : Int32) (i : ℕ)
  | reparentWake (status : Int32) (i : ℕ)
  | exitWake (status : Int32) (parent : Option (Fin N))
  | exitZombie (status : Int32)
  | exitRelease
  | wait (copies : Bool)
  | scan (copies : Bool) (i : ℕ) (havekids : Bool)
  | waitSleep (copies : Bool)
  | waitRelease (copies : Bool) (r : Int32)
  | waitReturn (copies : Bool) (r : Int32)
  | kill (pid : Int32) (i : ℕ)
  | killWake (i : Fin N)
  | killReturn (r : Int32)

namespace Mem
variable (m : Mem N)

/-- `p->pid = allocpid(); p->state = USED;`. -/
def alloc (np : Fin N) : Mem N :=
  { m with
    state := Function.update m.state np .used
    pid := Function.update m.pid np m.nextpid
    nextpid := m.nextpid + 1
    forks := m.forks + 1 }

/-- freeproc. -/
def free (p : Fin N) : Mem N :=
  { m with
    state := Function.update m.state p .unused
    pid := Function.update m.pid p 0
    parent := Function.update m.parent p none
    xstate := Function.update m.xstate p 0
    killed := Function.update m.killed p false
    told := Function.update m.told p false }

def setParent (c p : Fin N) : Mem N := { m with parent := Function.update m.parent c (some p) }

def start (np : Fin N) : Mem N := { m with state := Function.update m.state np .runnable }

/-- The process is about to wake up its parent. -/
def tell (t : Fin N) : Mem N := { m with told := Function.update m.told t true }

/-- `p->xstate = status; p->state = ZOMBIE;`. -/
def setZombie (t : Fin N) (status : Int32) : Mem N :=
  { m with
    state := Function.update m.state t .zombie
    xstate := Function.update m.xstate t status
    exits := m.exits ++ [(m.pid t, status)] }

/-- The process `t` has found the zombie `c`. -/
def reap (t c : Fin N) : Mem N :=
  { m.free c with waits := m.waits ++ [(t, m.pid c, m.xstate c)] }

def setKilled (i : Fin N) : Mem N := { m with killed := Function.update m.killed i true }

end Mem

/-- A channel is a pointer to a process, or null. -/
abbrev FInstr (N : ℕ) := Instr (Mem N) (Option (Fin N)) (Point N)

variable (init : Fin N)

/-- fork, exit, wait and kill: the instruction at a point, for the process `t`. -/
def exec (t : Fin N) (q : Point N) (m : Mem N) : Option (FInstr N) :=
  match q with
  | .user => none
  | .panic => none
  -- fork, allocproc
  | .alloc copied i =>
    if h : i < N then
      if m.state ⟨i, h⟩ = .unused then some (.run (m.alloc ⟨i, h⟩) (.copy copied ⟨i, h⟩))
      else some (.run m (.alloc copied (i + 1)))
    else some (.run m (.forkReturn (-1)))
  | .copy copied np =>
    if copied = true then some (.run m (.adopt np (m.pid np)))
    else some (.run (m.free np) (.forkReturn (-1)))
  | .adopt np pid => some (.acquire (.setParent np pid))
  | .setParent np pid => some (.run (m.setParent np t) (.setRelease np pid))
  | .setRelease np pid => some (.release (.start np pid))
  | .start np pid => some (.run (m.start np) (.forkReturn pid))
  | .forkReturn _ => some (.run m .user)
  -- exit, reparent
  | .exit status => some (.acquire (.reparent status 0))
  | .reparent status i =>
    if h : i < N then
      if m.parent ⟨i, h⟩ = some t then
        some (.run (m.setParent ⟨i, h⟩ init) (.reparentWake status i))
      else some (.run m (.reparent status (i + 1)))
    else some (.run (m.tell t) (.exitWake status (m.parent t)))
  | .reparentWake status i => some (.wakeup (some init) (.reparent status (i + 1)))
  | .exitWake status parent => some (.wakeup parent (.exitZombie status))
  | .exitZombie status => some (.run (m.setZombie t status) .exitRelease)
  | .exitRelease => some (.release .user)
  -- wait
  | .wait copies => some (.acquire (.scan copies 0 false))
  | .scan copies i havekids =>
    if h : i < N then
      if m.parent ⟨i, h⟩ = some t then
        if m.state ⟨i, h⟩ = .zombie then
          if copies = true then
            some (.run (m.reap t ⟨i, h⟩) (.waitRelease copies (m.pid ⟨i, h⟩)))
          else some (.run m (.waitRelease copies (-1)))
        else some (.run m (.scan copies (i + 1) true))
      else some (.run m (.scan copies (i + 1) havekids))
    else if havekids = false ∨ m.killed t = true then some (.run m (.waitRelease copies (-1)))
    else some (.run m (.waitSleep copies))
  | .waitSleep copies => some (.sleep (some t) (.scan copies 0 false))
  | .waitRelease copies r => some (.release (.waitReturn copies r))
  | .waitReturn _ _ => some (.run m .user)
  -- kill
  | .kill pid i =>
    if h : i < N then
      if m.pid ⟨i, h⟩ = pid then some (.run (m.setKilled ⟨i, h⟩) (.killWake ⟨i, h⟩))
      else some (.run m (.kill pid (i + 1)))
    else some (.run m (.killReturn (-1)))
  | .killWake i => some (.wakeup (some i) (.killReturn 0))
  | .killReturn _ => some (.run m .user)

/-- What a process may do: proc.c, or a system call.  init must not exit. -/
inductive Does (t : Fin N) : Point N → Mem N → FInstr N → Prop
  | code {q m i} : exec init t q m = some i → Does t q m i
  | fork {m copied} : m.state t = .runnable → Does t .user m (.run m (.alloc copied 0))
  | exit {m status} : m.state t = .runnable → t ≠ init → Does t .user m (.run m (.exit status))
  | initExits {m} : m.state t = .runnable → t = init → Does t .user m (.run m .panic)
  | wait {m copies} : m.state t = .runnable → Does t .user m (.run m (.wait copies))
  | kill {m pid} : m.state t = .runnable → Does t .user m (.run m (.kill pid 0))

def code : Code (Fin N) (Mem N) (Option (Fin N)) (Point N) where
  instr t q m _ i := Does init t q m i

abbrev FState (N : ℕ) := State (Fin N) (Mem N) (Option (Fin N)) (Point N)

/-- The process table behind userinit: there is only init. -/
def booted : Mem N where
  state t := if t = init then .runnable else .unused
  pid t := if t = init then 1 else 0
  parent _ := none
  xstate _ := 0
  killed _ := false
  nextpid := 2
  told _ := false
  exits := []
  waits := []
  forks := 0

/-- The state behind userinit. -/
structure Starts (σ : FState N) : Prop where
  mem : σ.mem = booted init
  pc : ∀ t, σ.pc t = .user
  ctx : ∀ t, σ.ctx t = .awake
  owner : σ.owner = none

/-- What a process chooses to do in user mode. -/
inductive Act where
  | none
  | fork (copied : Bool)
  | exit (status : Int32)
  | wait (copies : Bool)
  | kill (pid : Int32)

/-- The next instruction of a process. -/
def pick (a : Act) (t : Fin N) (q : Point N) (m : Mem N) (_ : Bool) : Option (FInstr N) :=
  match q with
  | .user =>
    if m.state t = .runnable then
      match a with
      | .none => none
      | .fork copied => some (.run m (.alloc copied 0))
      | .exit status => some (.run m (if t = init then .panic else .exit status))
      | .wait copies => some (.run m (.wait copies))
      | .kill pid => some (.run m (.kill pid 0))
    else none
  | q => exec init t q m

variable {init}

theorem pick_does {a : Act} {t : Fin N} {q : Point N} {m : Mem N} {k : Bool} {i : FInstr N}
    (h : pick init a t q m k = some i) : Does init t q m i := by
  unfold pick at h
  split at h
  · by_cases hs : m.state t = .runnable
    · rw [if_pos hs] at h
      cases a with
      | none => cases h
      | fork => cases h; exact .fork hs
      | exit =>
        cases h
        by_cases ht : t = init
        · rw [if_pos ht]; exact .initExits hs ht
        · rw [if_neg ht]; exact .exit hs ht
      | wait => cases h; exact .wait hs
      | kill => cases h; exact .kill hs
    · rw [if_neg hs] at h; cases h
  · exact .code h

variable (init)

def start : FState N where
  mem := booted init
  pc _ := .user
  ctx _ := .awake
  owner := none
  killed _ := false

variable {init}

theorem reach_play {es : List (Event (Fin N) Act)} {β : Type} {f : FState N → β} {b : β}
    (h : (play (pick init) (fun _ _ => true) es (start init)).map f = some b) :
    ∃ σ, Reach (code init) (Starts init) (fun _ _ => True) σ ∧ f σ = b :=
  reach_of_play (fun _ _ _ => trivial) (fun _ _ _ _ _ _ hi => pick_does hi)
    ⟨rfl, fun _ => rfl, fun _ => rfl, rfl⟩ h

/-! ## Runs -/

/-- A process forks `a`, and goes to sleep in wait. -/
def forkAndWait (p : Fin N) : List (Event (Fin N) Act) :=
  .go p (.fork true) :: List.replicate 8 (.go p .none) ++
  .go p (.wait true) :: List.replicate 5 (.go p .none)

/-- Then `a` exits, and the process reaps it. -/
def exitAndReap (p a : Fin N) : List (Event (Fin N) Act) :=
  forkAndWait p ++ .go a (.exit 5) :: List.replicate 7 (.go a .none) ++ .resume p ::
  List.replicate 2 (.go p .none)

end OSLabs.Family
