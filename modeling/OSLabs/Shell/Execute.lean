/-
  Running pipelines (lab1, execute.c).

  `executePipelineLoop` follows the loop of execute_pipeline over the
  iterations left.  A child that is done with its branch goes on with the
  loop, as it does in the source; `executeCommand_ends` tells that no child
  gets there.
-/
import OSLabs.Shell.Builtin

namespace OSLabs.Shell

section
variable (env : Env)

/-- Open a file and let the descriptor `fd` refer to it. -/
def redirect (file : Option Word) (mode : OpenMode) (fd : ℕ) (p : Proc) : Except Ended Proc :=
  match file with
  | none => .ok p
  | some file =>
    match p.openFile env file mode with
    | none => .error ⟨.exit 1, p⟩
    | some (redir, p) => .ok ((p.dup2 redir fd).close redir)

def redirection (cmd : Scommand) (p : Proc) : Except Ended Proc := do
  let filenameIn ← p.call (scommandGetRedirIn (some cmd))
  let filenameOut ← p.call (scommandGetRedirOut (some cmd))
  let p ← redirect env filenameIn .read 0 p
  redirect env filenameOut .write 1 p

/-- The loop of `executeCommand`, which moves the words of the command to the
    arguments. -/
def executeCommandLoop : ℕ → Scommand → Except Fault (List Word)
  | 0, _ => .ok []
  | n + 1, cmd => do
    let arg ← scommandFront (some cmd)
    let cmd ← scommandPopFront (some cmd)
    let args ← executeCommandLoop n cmd
    return arg :: args

/-- `executeCommand` behind a call of `execvp` that failed. -/
def execvpFailed (arg0 : Option Word) : Ending :=
  match string arg0 with
  | .ok _ => .exit 1
  | .error f => .fault f

def executeCommand (cmd : Scommand) (p : Proc) : Except Ended Proc := do
  let p ← redirection env cmd p
  let lengthScommand ← p.call (scommandLength (some cmd))
  let words ← p.call (executeCommandLoop lengthScommand cmd)
  let args := words.map some ++ [none]
  let arg0 := args.head?.join
  .error ⟨.execvp arg0 args (execvpFailed arg0), p⟩

/-- The local variables of `executePipeline`. -/
structure Locals where
  pipe0 : ℤ × ℤ
  pipe1 : ℤ × ℤ
  childrenPids : ℕ → ℕ

/-- Store the pid of the child of the iteration `i`. -/
def Locals.storePid (l : Locals) (i pid : ℕ) : Locals :=
  { l with childrenPids := Function.update l.childrenPids (i - 1) pid }

@[simp] theorem Locals.storePid_pipe1 (l : Locals) (i pid : ℕ) :
    (l.storePid i pid).pipe1 = l.pipe1 := rfl

/-- The branch of a child in the iteration `i` of `n`. -/
def childBranch (n i : ℕ) (l : Locals) (cmd : Scommand) (p : Proc) : Except Ended Proc := do
  let p ←
    if n = 1 then executeCommand env cmd p
    else if i = 1 then
      .ok (((p.close l.pipe1.1).dup2 l.pipe1.2 1).close l.pipe1.2)
    else if i = n then
      .ok (((p.close l.pipe0.2).dup2 l.pipe0.1 0).close l.pipe0.1)
    else
      let p := ((p.close l.pipe0.2).dup2 l.pipe0.1 0).close l.pipe0.1
      .ok (((p.close l.pipe1.1).dup2 l.pipe1.2 1).close l.pipe1.2)
  executeCommand env cmd p

/-- The head of the iteration `i` of `n`: the pipe of the iteration before, and
    a new one. -/
def rotatePipes (n i : ℕ) (l : Locals) (p : Proc) : Locals × Proc :=
  let pipe0 := if i > 1 then l.pipe1 else l.pipe0
  let (pipe1, p) := if i ≠ n then p.pipe (env.pipe i) l.pipe1 else (l.pipe1, p)
  ({ l with pipe0 := pipe0, pipe1 := pipe1 }, p)

/-- The parent does not use the pipe of the iteration before. -/
def closePipe0 (i : ℕ) (l : Locals) (p : Proc) : Proc :=
  if i > 1 then (p.close l.pipe0.1).close l.pipe0.2 else p

/-- The loop of `executePipeline` with `k` iterations left, at the iteration
    `i` of `n`, and the waiting behind it. -/
def executePipelineLoop (n : ℕ) : ℕ → ℕ → Locals → Pipeline → Proc → Run
  | 0, _, l, apipe, p =>
    Run.after (p.call (pipelineGetWait (some apipe))) fun wait =>
      .done (.returned (if wait then (List.range n).map l.childrenPids else [])) p
  | k + 1, i, l, apipe, p =>
    Run.after (p.call (pipelineFront (some apipe))) fun cmd =>
    let (l, p) := rotatePipes env n i l p
    match env.fork i with
    | none => .done (.returned []) p
    | some pid =>
      .fork pid
        (Run.after (childBranch env n i l cmd p) (executePipelineLoop n k (i + 1) l apipe))
        (let p := closePipe0 i l p
        Run.after (p.call (pipelinePopFront (some apipe))) fun apipe =>
        executePipelineLoop n k (i + 1) (l.storePid i pid) apipe p)

def executePipeline (apipe : Option Pipeline) (p : Proc) : Run :=
  Run.after (p.call (notNull .executePipeline apipe)) fun apipe =>
  Run.after (p.call (pipelineLength (some apipe))) fun pipeLength =>
  Run.after (p.call (builtinAlone (some apipe))) fun alone =>
  if alone then
    Run.after (p.call (pipelineFront (some apipe))) fun front =>
    Run.after (builtinRun env (some front) p) (.done (.returned []))
  else
    Run.after (p.call (pipelineGetWait (some apipe))) fun wait =>
    let loop := executePipelineLoop env pipeLength pipeLength 1
      ⟨env.garbage, env.garbage, fun _ => 0⟩ apipe
    if !wait then .signal (loop { p with sigchldIgnored := true }) else loop p

end

variable {env : Env}

/-! ## execute_command never returns -/

theorem executeCommandLoop_words (cmd : Scommand) :
    executeCommandLoop cmd.comm.length cmd = .ok cmd.comm := by
  rcases cmd with ⟨addr, comm, in_, out⟩
  induction comm with
  | nil => rfl
  | cons w comm ih =>
    simp only [List.length_cons, executeCommandLoop, scommandFront, scommandPopFront, notNull_some,
      bind, Except.bind, pure, Except.pure, ih]

/-- The end of a process that runs a command. -/
def Scommand.ending (cmd : Scommand) : Ending :=
  .execvp cmd.comm.head? (cmd.comm.map some ++ [none]) (execvpFailed cmd.comm.head?)

/-- execute_command calls execvp when the redirections succeed. -/
theorem executeCommand_eq (cmd : Scommand) (p : Proc) :
    executeCommand env cmd p =
      redirection env cmd p >>= fun p => .error ⟨cmd.ending, p⟩ := by
  have hargs : (cmd.comm.map some ++ [none]).head?.join = cmd.comm.head? := by
    cases cmd.comm <;> rfl
  simp only [executeCommand, scommandLength, notNull_some, bind, Except.bind, pure, Except.pure,
    Proc.call_ok, executeCommandLoop_words, hargs, Scommand.ending]

theorem redirect_cases (env : Env) (file : Option Word) (mode : OpenMode) (fd : ℕ) (p : Proc) :
    (∃ p', redirect env file mode fd p = .ok p') ∨
      ∃ p', redirect env file mode fd p = .error ⟨.exit 1, p'⟩ := by
  unfold redirect
  split
  · exact .inl ⟨p, rfl⟩
  · split
    · exact .inr ⟨p, rfl⟩
    · exact .inl ⟨_, rfl⟩

theorem redirection_eq (cmd : Scommand) (p : Proc) : redirection env cmd p =
    redirect env cmd.in_ .read 0 p >>= redirect env cmd.out .write 1 := rfl

/-- **execute_command does not return**: a redirection fails, or it calls
    execvp, and then exits if that fails. -/
theorem executeCommand_ends (env : Env) (cmd : Scommand) (p : Proc) :
    ∃ e, executeCommand env cmd p = .error e ∧ (e.ending = .exit 1 ∨ e.ending = cmd.ending) := by
  rw [executeCommand_eq, redirection_eq]
  rcases redirect_cases env cmd.in_ .read 0 p with ⟨p₁, h₁⟩ | ⟨p₁, h₁⟩
  · rcases redirect_cases env cmd.out .write 1 p₁ with ⟨p₂, h₂⟩ | ⟨p₂, h₂⟩
    · exact ⟨⟨cmd.ending, p₂⟩, by simp only [h₁, h₂, bind, Except.bind], Or.inr rfl⟩
    · exact ⟨⟨.exit 1, p₂⟩, by simp only [h₁, h₂, bind, Except.bind], Or.inl rfl⟩
  · exact ⟨⟨.exit 1, p₁⟩, by simp only [h₁, bind, Except.bind], Or.inl rfl⟩

/-- A child does not leave its branch. -/
theorem childBranch_ends (env : Env) (n i : ℕ) (l : Locals) (cmd : Scommand) (p : Proc) :
    ∃ e, childBranch env n i l cmd p = .error e ∧
      (e.ending = .exit 1 ∨ e.ending = cmd.ending) := by
  unfold childBranch
  split_ifs
  · obtain ⟨e, h, he⟩ := executeCommand_ends env cmd p
    exact ⟨e, by simp only [h, bind, Except.bind], he⟩
  all_goals exact executeCommand_ends env cmd _

/-! ## The pipes of an iteration -/

/-- The descriptors of `t` and the ends of the pipe `id` at `a` and `b`. -/
def withPipe (t : ℕ → Option File) (id a b : ℕ) (x : ℕ) : Option File :=
  if x = a then some (.pipeRead id) else if x = b then some (.pipeWrite id) else t x

section
variable {n j : ℕ} {l : Locals} {p : Proc}

/-- The pipe of the iteration before, at the head of the iteration `j + 1`. -/
def Locals.shift (l : Locals) (j : ℕ) : Locals :=
  { l with pipe0 := if 0 < j then l.pipe1 else l.pipe0 }

@[simp] theorem Locals.shift_pipe1 (l : Locals) (j : ℕ) : (l.shift j).pipe1 = l.pipe1 := rfl

/-- Store the ends of a new pipe. -/
def Locals.setPipe1 (l : Locals) (ends : ℤ × ℤ) : Locals := { l with pipe1 := ends }

@[simp] theorem Locals.setPipe1_pipe1 (l : Locals) (e : ℤ × ℤ) : (l.setPipe1 e).pipe1 = e := rfl

@[simp] theorem Locals.setPipe1_pipe0 (l : Locals) (e : ℤ × ℤ) :
    (l.setPipe1 e).pipe0 = l.pipe0 := rfl

theorem Locals.shift_pipe0 (l : Locals) (hj : 0 < j) : (l.shift j).pipe0 = l.pipe1 := if_pos hj

theorem rotatePipes_last (l : Locals) (p : Proc) :
    rotatePipes env (j + 1) (j + 1) l p = (l.shift j, p) := by
  simp [rotatePipes, Locals.shift]

theorem rotatePipes_false (hn : j + 1 ≠ n) (hpipe : env.pipe (j + 1) = false) (l : Locals)
    (p : Proc) : rotatePipes env n (j + 1) l p = (l.shift j, p) := by
  simp [rotatePipes, Locals.shift, hn, hpipe]

/-- A new pipe takes the two lowest free descriptors. -/
theorem rotatePipes_true (hn : j + 1 ≠ n) (hpipe : env.pipe (j + 1) = true) (l : Locals)
    (p : Proc) : ∃ (c d : ℕ) (p' : Proc),
      rotatePipes env n (j + 1) l p = ((l.shift j).setPipe1 (↑c, ↑d), p') ∧
      p.fds.LowestPair c d ∧ p'.nextPipe = p.nextPipe + 1 ∧
      ∀ x, p'.fds.get x = withPipe p.fds.get p.nextPipe c d x := by
  obtain ⟨c, d, p', hp', hcd, hnext, hget⟩ := p.pipe_true l.pipe1
  refine ⟨c, d, p', ?_, hcd, hnext, hget⟩
  simp only [rotatePipes, Locals.shift, Locals.setPipe1, gt_iff_lt, Nat.lt_add_left_iff_pos,
    if_pos hn, hpipe, hp']

theorem closePipe0_first (l : Locals) (p : Proc) : closePipe0 1 l p = p := rfl

theorem closePipe0_get {a b : ℕ} (hl : l.pipe0 = (↑a, ↑b)) (hj : 0 < j) (p : Proc) (x : ℕ) :
    (closePipe0 (j + 1) l p).fds.get x = if x = a ∨ x = b then none else p.fds.get x := by
  simp only [closePipe0, gt_iff_lt, Nat.lt_add_left_iff_pos, hj, if_true, hl, Proc.close_fds,
    Descriptors.Table.get_close, Int.natCast_inj]
  grind

theorem closePipe0_nextPipe (i : ℕ) (l : Locals) (p : Proc) :
    (closePipe0 i l p).nextPipe = p.nextPipe := by
  unfold closePipe0
  split_ifs <;> rfl

end

/-! ## One iteration -/

section
variable {n k i : ℕ} {l : Locals} {apipe : Pipeline} {p : Proc} {cmd : Scommand}
  {rest : List Scommand}

/-- An iteration whose fork fails. -/
theorem executePipelineLoop_none (env : Env) (n k : ℕ) (l : Locals) (apipe : Pipeline) (p : Proc)
    (hp : apipe.pipe = cmd :: rest) (hf : env.fork i = none) :
    executePipelineLoop env n (k + 1) i l apipe p =
      .done (.returned []) (rotatePipes env n i l p).2 := by
  simp [executePipelineLoop, pipelineFront, hp, hf, bind, Except.bind, pure, Except.pure]

/-- An iteration whose fork succeeds: the child ends in its branch, and the
    parent goes on. -/
theorem executePipelineLoop_some (env : Env) (n k : ℕ) (l : Locals) (apipe : Pipeline) (p : Proc)
    (hp : apipe.pipe = cmd :: rest) {pid : ℕ} (hf : env.fork i = some pid) :
    ∃ e, childBranch env n i (rotatePipes env n i l p).1 cmd (rotatePipes env n i l p).2 =
        .error e ∧
      executePipelineLoop env n (k + 1) i l apipe p =
        .fork pid (.done e.ending e.proc)
          (executePipelineLoop env n k (i + 1) ((rotatePipes env n i l p).1.storePid i pid)
            { apipe with pipe := rest }
            (closePipe0 i (rotatePipes env n i l p).1 (rotatePipes env n i l p).2)) := by
  obtain ⟨e, he, -⟩ := childBranch_ends env n i (rotatePipes env n i l p).1 cmd
    (rotatePipes env n i l p).2
  refine ⟨e, he, ?_⟩
  simp [executePipelineLoop, pipelineFront, pipelinePopFront, hp, hf, he, bind, Except.bind, pure,
    Except.pure]

/-- The loop after its last iteration. -/
theorem executePipelineLoop_zero : executePipelineLoop env n 0 i l apipe p =
    .done (.returned (if apipe.waiting then (List.range n).map l.childrenPids else [])) p := rfl

end

/-! ## execute_pipeline -/

/-- A process that runs a background pipeline ignores SIGCHLD. -/
def Proc.started (p : Proc) (waiting : Bool) : Proc :=
  if !waiting then { p with sigchldIgnored := true } else p

@[simp] theorem Proc.started_fds (p : Proc) (b : Bool) : (p.started b).fds = p.fds := by
  cases b <;> rfl

@[simp] theorem Proc.started_nextPipe (p : Proc) (b : Bool) :
    (p.started b).nextPipe = p.nextPipe := by
  cases b <;> rfl

/-- The run of a pipeline, with the call of signal before it if it is a background one. -/
def Run.started (waiting : Bool) (r : Run) : Run := if !waiting then .signal r else r

@[simp] theorem Run.started_ending (b : Bool) (r : Run) : (r.started b).ending = r.ending := by
  cases b <;> rfl

@[simp] theorem Run.started_proc (b : Bool) (r : Run) : (r.started b).proc = r.proc := by
  cases b <;> rfl

@[simp] theorem Run.started_children (b : Bool) (r : Run) :
    (r.started b).children = r.children := by
  cases b <;> rfl

theorem Run.started_all (b : Bool) (r : Run) (Q : Ending → Proc → Prop) :
    (r.started b).All Q ↔ r.All Q := by
  cases b <;> rfl

theorem executePipeline_fault {apipe : Pipeline} {f : Fault}
    (hb : builtinAlone (some apipe) = .error f) (p : Proc) :
    executePipeline env (some apipe) p = .done (.fault f) p := by
  simp [executePipeline, pipelineLength, hb, Proc.call, bind, Except.bind, pure, Except.pure]

theorem executePipeline_alone {apipe : Pipeline} {sc : Scommand} (hp : apipe.pipe = [sc])
    (hb : builtinAlone (some apipe) = .ok true) (p : Proc) :
    executePipeline env (some apipe) p =
      Run.after (builtinRun env (some sc) p) (.done (.returned [])) := by
  simp [executePipeline, pipelineLength, pipelineFront, hp, hb, bind, Except.bind, pure,
    Except.pure]

theorem executePipeline_loop {apipe : Pipeline} (hb : builtinAlone (some apipe) = .ok false)
    (p : Proc) :
    executePipeline env (some apipe) p =
      (executePipelineLoop env apipe.pipe.length apipe.pipe.length 1
        ⟨env.garbage, env.garbage, fun _ => 0⟩ apipe (p.started apipe.waiting)).started
          apipe.waiting := by
  cases hw : apipe.waiting <;>
    simp [executePipeline, pipelineLength, pipelineGetWait, hb, hw, bind, Except.bind, pure,
      Except.pure, Proc.started, Run.started]

/-! ## The order of the calls -/

/-- The loop forks its children, and then waits. -/
theorem executePipelineLoop_calls (n k i : ℕ) (l : Locals) (apipe : Pipeline) (p : Proc)
    {waited : List ℕ} (h : (executePipelineLoop env n k i l apipe p).ending = .returned waited) :
    (executePipelineLoop env n k i l apipe p).calls =
      ((executePipelineLoop env n k i l apipe p).children.map fun c => .fork c.1) ++
        waited.map .waitpid := by
  have hdone : ∀ {e : Ending} {p : Proc}, e = .returned waited →
      (Run.done e p).calls = waited.map .waitpid := by
    rintro _ p rfl; rfl
  induction k generalizing i l apipe p with
  | zero => exact hdone h
  | succ k ih =>
    rw [executePipelineLoop] at h ⊢
    cases hfront : p.call (pipelineFront (some apipe)) with
    | error e => rw [hfront] at h; exact hdone h
    | ok cmd =>
      rw [hfront] at h
      simp only [Run.after_ok] at h ⊢
      cases hf : env.fork i with
      | none => rw [hf] at h; exact hdone h
      | some pid =>
        rw [hf] at h
        simp only [Run.ending, Run.calls, Run.children, List.map_cons, List.cons_append] at h ⊢
        congr 1
        cases hpop : (closePipe0 i (rotatePipes env n i l p).1 (rotatePipes env n i l p).2).call
            (pipelinePopFront (some apipe)) with
        | error e => rw [hpop] at h; exact hdone h
        | ok rest =>
          rw [hpop] at h
          exact ih _ _ _ _ h

/-- **The calls of a pipeline that returns**: signal, if it is a background one, then its
    forks, then the waits. -/
theorem executePipeline_calls {apipe : Pipeline} (hb : builtinAlone (some apipe) = .ok false)
    (p : Proc) {waited : List ℕ}
    (h : (executePipeline env (some apipe) p).ending = .returned waited) :
    (executePipeline env (some apipe) p).calls =
      (if apipe.waiting then [] else [.signal]) ++
        (((executePipeline env (some apipe) p).children.map fun c => .fork c.1) ++
          waited.map .waitpid) := by
  rw [executePipeline_loop hb] at h ⊢
  rw [Run.started_ending] at h
  have hloop := executePipelineLoop_calls _ _ _ _ _ _ h
  rw [Run.started_children, ← hloop]
  cases apipe.waiting <;> rfl

end OSLabs.Shell
