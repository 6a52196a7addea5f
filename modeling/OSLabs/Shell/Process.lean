/-
  Processes of the shell.

  A process has a descriptor table, a working directory and the disposition of
  SIGCHLD.  The pipes are numbered in the order they are made; a table refers
  only to pipes made before.  What the system calls answer is in `Env`.

  A run is a tree: it splits where the process forks, and each of its ends
  tells how that process ended.
-/
import OSLabs.Lib.Descriptors
import OSLabs.Shell.Command

namespace OSLabs.Shell

open Descriptors

/-- How a redirection opens its file: `O_RDONLY`, or `O_CREAT | O_WRONLY |
    O_TRUNC`. -/
inductive OpenMode where
  | read | write
  deriving DecidableEq, Repr

/-- What a descriptor refers to: an end of a pipe, a file that a redirection
    opened, or something the shell was started with. -/
inductive File where
  | pipeRead (id : ℕ)
  | pipeWrite (id : ℕ)
  | opened (path : Word) (mode : OpenMode)
  | inherited (k : ℕ)
  deriving DecidableEq, Repr

/-- A file that is no end of the `n`-th pipe or a later one. -/
def File.OlderThan (n : ℕ) : File → Prop
  | pipeRead id => id < n
  | pipeWrite id => id < n
  | _ => True

theorem File.OlderThan.mono {n m : ℕ} (h : n ≤ m) {f : File} (hf : f.OlderThan n) :
    f.OlderThan m := by
  cases f <;> simp only [File.OlderThan] at hf ⊢ <;> omega

/-- A process; `nextPipe` is the number of the next pipe. -/
structure Proc where
  fds : Table File
  nextPipe : ℕ
  older : ∀ fd f, fds.get fd = some f → f.OlderThan nextPipe
  sigchldIgnored : Bool := false
  cwd : Word

/-- The answers of the system calls: whether the `pipe` of an iteration of
    execute_pipeline succeeds, the child its `fork` makes (if it succeeds),
    which files can be opened, where `chdir` leads, the login name, and the
    initial contents of the variable `pipe1`. -/
structure Env where
  pipe : ℕ → Bool
  fork : ℕ → Option ℕ
  opens : Word → OpenMode → Bool
  chdir : Word → Word → Option Word
  getlogin : Option Word
  garbage : ℤ × ℤ

/-- How a process ends, or leaves execute_pipeline.  A call of `execvp` that
    fails returns, and the process ends with `failed`. -/
inductive Ending where
  | execvp (file : Option Word) (argv : List (Option Word)) (failed : Ending)
  | exit (status : ℕ)
  | fault (f : Fault)
  | returned (waited : List ℕ)
  deriving DecidableEq, Repr

/-- A process that has ended. -/
structure Ended where
  ending : Ending
  proc : Proc

/-- The run of a process, with the children it forks, and its calls of
    `signal(SIGCHLD, SIG_IGN)`. -/
inductive Run where
  | done (ending : Ending) (proc : Proc)
  | signal (run : Run)
  | fork (pid : ℕ) (child parent : Run)

/-- The calls of a process that are about its children. -/
inductive SysCall where
  | signal
  | fork (pid : ℕ)
  | waitpid (pid : ℕ)
  deriving DecidableEq, Repr

namespace Run

def ending : Run → Ending
  | done e _ => e
  | signal r => r.ending
  | fork _ _ r => r.ending

def proc : Run → Proc
  | done _ p => p
  | signal r => r.proc
  | fork _ _ r => r.proc

/-- The children of the process, in the order of their forks. -/
def children : Run → List (ℕ × Run)
  | done _ _ => []
  | signal r => r.children
  | fork pid child r => (pid, child) :: r.children

/-- The calls of the process, in their order: what it waits for before it returns
    comes last. -/
def calls : Run → List SysCall
  | done (.returned waited) _ => waited.map .waitpid
  | done _ _ => []
  | signal r => .signal :: r.calls
  | fork pid _ r => .fork pid :: r.calls

/-- `Q` holds of the ends of all processes of a run. -/
def All (Q : Ending → Proc → Prop) : Run → Prop
  | done e p => Q e p
  | signal r => r.All Q
  | fork _ child r => child.All Q ∧ r.All Q

end Run

/-- Go on with a run, unless the process has ended. -/
def Run.after {α : Type} (r : Except Ended α) (run : α → Run) : Run :=
  match r with
  | .ok a => run a
  | .error e => .done e.ending e.proc

@[simp] theorem Run.after_ok {α : Type} (a : α) (run : α → Run) : Run.after (.ok a) run = run a := rfl

@[simp] theorem Run.after_error {α : Type} (e : Ended) (run : α → Run) :
    Run.after (.error e) run = .done e.ending e.proc := rfl

namespace Proc

/-- A call of command.c in the process. -/
def call {α : Type} (p : Proc) : Except Fault α → Except Ended α
  | .ok a => .ok a
  | .error f => .error ⟨.fault f, p⟩

@[simp] theorem call_ok {α : Type} (p : Proc) (a : α) : p.call (.ok a) = .ok a := rfl

theorem call_error {α : Type} {p : Proc} {r : Except Fault α} {e : Ended}
    (h : p.call r = .error e) : ∃ f, e.ending = .fault f := by
  cases r with
  | ok a => cases h
  | error f => cases h; exact ⟨f, rfl⟩

def close (p : Proc) (fd : ℤ) : Proc where
  __ := p
  fds := p.fds.close fd
  older x f h := by
    rw [Table.get_close] at h
    split_ifs at h with hx
    exact p.older x f h

def dup2 (p : Proc) (old : ℤ) (new : ℕ) : Proc where
  __ := p
  fds := p.fds.dup2 old new
  older x f h := by
    unfold Table.dup2 at h
    cases ho : p.fds.getInt old with
    | none => rw [ho] at h; exact p.older x f h
    | some g =>
      rw [ho] at h
      simp only [Table.get_set] at h
      split_ifs at h with hx
      · obtain ⟨n, -, hn⟩ := Table.getInt_eq_some.1 ho
        exact p.older n f (hn.trans h)
      · exact p.older x f h

/-- `open`: the descriptor of the file, or none. -/
def openFile (env : Env) (p : Proc) (path : Word) (mode : OpenMode) : Option (ℕ × Proc) :=
  if env.opens path mode then
    some (p.fds.lowest,
      { p with
        fds := (p.fds.alloc (.opened path mode)).2
        older := fun x f h => by
          simp only [Table.alloc, Table.get_set] at h
          split_ifs at h with hx
          · cases h; trivial
          · exact p.older x f h })
  else none

/-- `pipe`: the descriptors of a new pipe; nothing changes if it fails. -/
def pipe (p : Proc) (succeeds : Bool) (fds : ℤ × ℤ) : (ℤ × ℤ) × Proc :=
  if succeeds then
    let r := p.fds.allocPair (.pipeRead p.nextPipe) (.pipeWrite p.nextPipe)
    ((r.1.1, r.1.2),
      { p with
        fds := r.2
        nextPipe := p.nextPipe + 1
        older := fun x f h => by
          simp only [r] at h
          rw [Table.get_allocPair] at h
          split_ifs at h
          · cases h; exact Nat.lt_succ_self _
          · cases h; exact Nat.lt_succ_self _
          · exact (p.older x f h).mono (Nat.le_succ _) })
  else (fds, p)

variable (p : Proc)

@[simp] theorem close_fds (fd : ℤ) : (p.close fd).fds = p.fds.close fd := rfl

@[simp] theorem close_nextPipe (fd : ℤ) : (p.close fd).nextPipe = p.nextPipe := rfl

@[simp] theorem dup2_fds (old : ℤ) (new : ℕ) : (p.dup2 old new).fds = p.fds.dup2 old new := rfl

@[simp] theorem dup2_nextPipe (old : ℤ) (new : ℕ) : (p.dup2 old new).nextPipe = p.nextPipe := rfl

@[simp] theorem pipe_false (fds : ℤ × ℤ) : p.pipe false fds = (fds, p) := rfl

/-- A new pipe takes the two lowest free descriptors. -/
theorem pipe_true (fds : ℤ × ℤ) : ∃ (a b : ℕ) (p' : Proc), p.pipe true fds = ((↑a, ↑b), p') ∧
    p.fds.LowestPair a b ∧ p'.nextPipe = p.nextPipe + 1 ∧
    ∀ x, p'.fds.get x = if x = a then some (.pipeRead p.nextPipe)
      else if x = b then some (.pipeWrite p.nextPipe) else p.fds.get x :=
  ⟨_, _, _, rfl, Table.allocPair_spec _ _, rfl, fun _ => Table.get_allocPair ..⟩

/-- A shell that has just been started, with its standard descriptors. -/
def initial : Proc where
  fds :=
    { get := fun fd => if fd < 3 then some (.inherited fd) else none
      bound := 3
      free := fun fd h => if_neg (Nat.not_lt.2 h) }
  nextPipe := 0
  older fd f h := by
    simp only at h
    split_ifs at h
    cases h
    trivial
  cwd := ['/']

end Proc

/-- System calls that succeed. -/
def Env.succeeding : Env where
  pipe _ := true
  fork i := some i
  opens _ _ := true
  chdir _ directory := some directory
  getlogin := some "user".toList
  garbage := (0, 0)

end OSLabs.Shell
