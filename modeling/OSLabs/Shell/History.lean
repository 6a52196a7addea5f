/-
  Programs that are started after other jobs.

  A foreground pipeline is run by a new shell, and by a shell that has run
  other jobs before.  The new pipes have other numbers in the second run
  (`File.renumber`), and the forks other answers; apart from that, the children
  of both runs do the same (`executePipelineLoop_alike`), and only the
  disposition of SIGCHLD may differ: `runsAlike_iff`.
-/
import Mathlib.Data.List.Forall2
import OSLabs.Shell.Keeping

namespace OSLabs.Shell

open Descriptors

variable {env env' : Env} {b b' : ℕ}

/-- The file, if the pipes from the `b`-th on are numbered from `b'` on. -/
def File.renumber (b b' : ℕ) : File → File
  | pipeRead id => pipeRead (if id < b then id else b' + (id - b))
  | pipeWrite id => pipeWrite (if id < b then id else b' + (id - b))
  | f => f

theorem File.OlderThan.renumber {f : File} (h : f.OlderThan b) (b' : ℕ) : f.renumber b b' = f := by
  cases f with
  | pipeRead id => exact congrArg pipeRead (if_pos h)
  | pipeWrite id => exact congrArg pipeWrite (if_pos h)
  | opened path mode => rfl
  | inherited k => rfl

/-- Two processes whose descriptors differ in the numbers of the new pipes only,
    with as many new pipes. -/
structure Alike (b b' : ℕ) (p p' : Proc) : Prop where
  fds : p.fds.Renames (File.renumber b b') p'.fds
  pipes : ∃ k, p.nextPipe = b + k ∧ p'.nextPipe = b' + k

namespace Alike
variable {p p' : Proc}

theorem close (h : Alike b b' p p') (fd : ℤ) : Alike b b' (p.close fd) (p'.close fd) :=
  ⟨h.fds.close fd, h.pipes⟩

theorem dup2 (h : Alike b b' p p') (old : ℤ) (new : ℕ) :
    Alike b b' (p.dup2 old new) (p'.dup2 old new) := ⟨h.fds.dup2 old new, h.pipes⟩

theorem connect (h : Alike b b' p p') (x y : ℤ) (std : ℕ) :
    Alike b b' (((p.close x).dup2 y std).close y) (((p'.close x).dup2 y std).close y) :=
  ((h.close x).dup2 y std).close y

/-- A new pipe gets the same descriptors in both. -/
theorem pipe (h : Alike b b' p p') (fds fds' : ℤ × ℤ) :
    (p'.pipe true fds').1 = (p.pipe true fds).1 ∧
      Alike b b' (p.pipe true fds).2 (p'.pipe true fds').2 := by
  obtain ⟨k, hk, hk'⟩ := h.pipes
  have hnew : ∀ {f : ℕ → File}, (∀ id, (f id).renumber b b' =
      f (if id < b then id else b' + (id - b))) → f p'.nextPipe = (f p.nextPipe).renumber b b' := by
    intro f hf
    rw [hf, hk, hk', if_neg (by omega), Nat.add_sub_cancel_left]
  have hpair := h.fds.allocPair (.pipeRead p.nextPipe) (.pipeWrite p.nextPipe)
  rw [← hnew (f := .pipeRead) fun _ => rfl, ← hnew (f := .pipeWrite) fun _ => rfl] at hpair
  refine ⟨?_, hpair.2, k + 1, ?_, ?_⟩
  · simp only [Proc.pipe, if_true, hpair.1]
  · exact congrArg (· + 1) hk
  · exact congrArg (· + 1) hk'

/-- A file gets the same descriptor in both. -/
theorem openFile (h : Alike b b' p p') {path : Word} {mode : OpenMode}
    (hopen : env.opens path mode = true) (hopen' : env'.opens path mode = true) :
    ∃ q q', p.openFile env path mode = some (p.fds.lowest, q) ∧
      p'.openFile env' path mode = some (p.fds.lowest, q') ∧ Alike b b' q q' := by
  simp only [Proc.openFile, hopen, hopen', if_true, h.fds.lowest]
  exact ⟨_, _, rfl, rfl, (h.fds.alloc (.opened path mode)).2, h.pipes⟩

end Alike

section
variable {n i : ℕ} {l l' : Locals} {p p' : Proc}

/-! ## The child -/

/-- A redirection whose file can be opened in both. -/
theorem redirect_alike (h : Alike b b' p p') {file : Option Word} {mode : OpenMode}
    (hopen : ∀ f ∈ file, env.opens f mode = true) (hopen' : ∀ f ∈ file, env'.opens f mode = true)
    (fd : ℕ) : ∃ q q', redirect env file mode fd p = .ok q ∧
      redirect env' file mode fd p' = .ok q' ∧ Alike b b' q q' := by
  cases file with
  | none => exact ⟨p, p', rfl, rfl, h⟩
  | some f =>
    obtain ⟨q, q', hq, hq', hqq⟩ := h.openFile (hopen f rfl) (hopen' f rfl)
    simp only [redirect, hq, hq']
    exact ⟨_, _, rfl, rfl, (hqq.dup2 _ fd).close _⟩

/-- **The children call execvp alike**, when their files can be opened. -/
theorem executeCommand_alike (h : Alike b b' p p') {cmd : Scommand} (ho : Openable env cmd)
    (ho' : Openable env' cmd) : ∃ q q', executeCommand env cmd p = .error ⟨cmd.ending, q⟩ ∧
      executeCommand env' cmd p' = .error ⟨cmd.ending, q'⟩ ∧
      Alike b b' q q' ∧ p.Keeps q ∧ p'.Keeps q' := by
  obtain ⟨p₁, p₁', h₁, h₁', hin⟩ := redirect_alike h ho.in_ ho'.in_ 0
  obtain ⟨q, q', h₂, h₂', hout⟩ := redirect_alike hin ho.out ho'.out 1
  refine ⟨q, q', ?_, ?_, hout, (redirect_keeps h₁).trans (redirect_keeps h₂),
    (redirect_keeps h₁').trans (redirect_keeps h₂')⟩
  · simp only [executeCommand_eq, redirection_eq, h₁, h₂, bind, Except.bind]
  · simp only [executeCommand_eq, redirection_eq, h₁', h₂', bind, Except.bind]

/-- The pipes that the iteration `i` of `n` uses are at the same descriptors. -/
structure SamePipes (n i : ℕ) (l l' : Locals) : Prop where
  pipe0 : 1 < i → l.pipe0 = l'.pipe0
  pipe1 : i ≠ n → l.pipe1 = l'.pipe1

theorem childFds_alike (h : Alike b b' p p') (hi : 1 ≤ i) (hl : SamePipes n i l l') :
    Alike b b' (childFds n i l p) (childFds n i l' p') := by
  unfold childFds
  split_ifs with hn hone hlast
  · exact h
  · rw [hl.pipe1 (by omega)]; exact h.connect ..
  · rw [hl.pipe0 (by omega)]; exact h.connect ..
  · rw [hl.pipe0 (by omega), hl.pipe1 hlast]
    exact (h.connect ..).connect ..

/-! ## The parent -/

theorem closePipe0_alike (h : Alike b b' p p') (hl : SamePipes n i l l') :
    Alike b b' (closePipe0 i l p) (closePipe0 i l' p') := by
  unfold closePipe0
  split_ifs with hi
  · rw [hl.pipe0 hi]; exact (h.close _).close _
  · exact h

/-- The head of an iteration, whose pipe is made in both runs. -/
theorem rotatePipes_alike (h : Alike b b' p p') (hl : 1 < i → l.pipe1 = l'.pipe1)
    (hpipe : i ≠ n → env.pipe i = true ∧ env'.pipe i = true) :
    Alike b b' (rotatePipes env n i l p).2 (rotatePipes env' n i l' p').2 ∧
      SamePipes n i (rotatePipes env n i l p).1 (rotatePipes env' n i l' p').1 := by
  have hpipe0 : 1 < i → (rotatePipes env n i l p).1.pipe0 = (rotatePipes env' n i l' p').1.pipe0 := by
    intro hi
    simp only [rotatePipes, gt_iff_lt, hi, if_true, hl hi]
  by_cases hn : i = n
  · refine ⟨?_, hpipe0, fun hne => absurd hn hne⟩
    simpa only [rotatePipes, hn, ne_eq, not_true_eq_false, if_false] using h
  · obtain ⟨hp, hp'⟩ := hpipe hn
    obtain ⟨hends, halike⟩ := h.pipe l.pipe1 l'.pipe1
    refine ⟨?_, hpipe0, fun _ => ?_⟩
    · simpa only [rotatePipes, ne_eq, hn, not_false_eq_true, if_true, hp, hp'] using halike
    · simpa only [rotatePipes, ne_eq, hn, not_false_eq_true, if_true, hp, hp'] using hends.symm

/-! ## The loop -/

/-- Two children that run the same command, forked by `p` and `p'`. -/
structure AlikeChildren (b b' : ℕ) (p p' : Proc) (run run' : Run) : Prop where
  ending : ∃ cmd : Scommand, run.ending = cmd.ending ∧ run'.ending = cmd.ending
  alike : Alike b b' run.proc run'.proc
  keeps : p.Keeps run.proc
  keeps' : p'.Keeps run'.proc

theorem childBranch_alike (h : Alike b b' p p') (hi : 1 ≤ i) (hl : SamePipes n i l l')
    {cmd : Scommand} (ho : Openable env cmd) (ho' : Openable env' cmd) {e e' : Ended}
    (he : childBranch env n i l cmd p = .error e) (he' : childBranch env' n i l' cmd p' = .error e') :
    AlikeChildren b b' p p' (.done e.ending e.proc) (.done e'.ending e'.proc) := by
  obtain ⟨q, q', hq, hq', halike, hkeeps, hkeeps'⟩ :=
    executeCommand_alike (childFds_alike h hi hl) ho ho'
  obtain rfl := Except.error.inj ((childBranch_eq n i l cmd p ▸ he).symm.trans hq)
  obtain rfl := Except.error.inj ((childBranch_eq n i l' cmd p' ▸ he').symm.trans hq')
  exact ⟨⟨cmd, rfl, rfl⟩, halike, (childFds_keeps ..).trans hkeeps, (childFds_keeps ..).trans hkeeps'⟩

/-- **The children of both runs are alike.** -/
theorem executePipelineLoop_alike {q q' : Proc}
    (hpipe : ∀ i, 1 ≤ i → i < n → env.pipe i = true ∧ env'.pipe i = true)
    (hfork : ∀ i, 1 ≤ i → i ≤ n → (env.fork i).isSome = true ∧ (env'.fork i).isSome = true)
    (cmds : List Scommand) (hopens : ∀ sc ∈ cmds, Openable env sc ∧ Openable env' sc)
    {apipe : Pipeline} (hcmds : apipe.pipe = cmds) (hi : 1 ≤ i) (hn : i + cmds.length = n + 1)
    (h : Alike b b' p p') (hl : 1 < i → l.pipe1 = l'.pipe1) (hkeeps : q.Keeps p)
    (hkeeps' : q'.Keeps p') :
    List.Forall₂ (fun c c' => AlikeChildren b b' q q' c.2 c'.2)
      (executePipelineLoop env n cmds.length i l apipe p).children
      (executePipelineLoop env' n cmds.length i l' apipe p').children := by
  induction cmds generalizing i l l' apipe p p' with
  | nil => exact .nil
  | cons cmd rest ih =>
    rw [List.length_cons] at hn ⊢
    obtain ⟨hf, hf'⟩ := hfork i hi (by omega)
    obtain ⟨pid, hpid⟩ := Option.isSome_iff_exists.1 hf
    obtain ⟨pid', hpid'⟩ := Option.isSome_iff_exists.1 hf'
    obtain ⟨e, he, hrun⟩ := executePipelineLoop_some env n rest.length l apipe p hcmds hpid
    obtain ⟨e', he', hrun'⟩ := executePipelineLoop_some env' n rest.length l' apipe p' hcmds hpid'
    obtain ⟨halike, hsame⟩ := rotatePipes_alike (n := n) h hl fun hne : i ≠ n =>
      hpipe i hi (by omega)
    obtain ⟨ho, ho'⟩ := hopens cmd (List.mem_cons_self ..)
    have hrot := hkeeps.trans (rotatePipes_keeps env n i l p)
    have hrot' := hkeeps'.trans (rotatePipes_keeps env' n i l' p')
    obtain ⟨hending, hproc, hchild, hchild'⟩ := childBranch_alike halike hi hsame ho ho' he he'
    rw [hrun, hrun', Run.children, Run.children]
    refine .cons ⟨hending, hproc, hrot.trans hchild, hrot'.trans hchild'⟩ ?_
    by_cases hlast : i = n
    · -- no command is left
      obtain rfl : rest = [] := List.length_eq_zero_iff.1 (by omega)
      exact .nil
    · exact ih (i := i + 1) (fun sc hsc => hopens sc (List.mem_cons_of_mem _ hsc)) rfl (by omega)
        (by omega) (closePipe0_alike halike hsame) (fun _ => hsame.pipe1 hlast)
        (hrot.trans (closePipe0_keeps ..)) (hrot'.trans (closePipe0_keeps ..))

end

/-! ## After other jobs -/

/-- The shell after it has run some jobs. -/
def afterJobs (p : Proc) : List (Env × Pipeline) → Proc
  | [] => p
  | (env, apipe) :: jobs => afterJobs (executePipeline env (some apipe) p).proc jobs

/-- A job that is no lone builtin, and all whose calls succeed. -/
def JobSucceeds (job : Env × Pipeline) : Prop :=
  builtinAlone (some job.2) = .ok false ∧ Succeeds job.1 job.2

/-- **The shell keeps its descriptors and its directory**, but it ignores
    SIGCHLD from the first background job on. -/
theorem afterJobs_keeps (p : Proc) {jobs : List (Env × Pipeline)}
    (h : ∀ job ∈ jobs, JobSucceeds job) :
    (∀ x, (afterJobs p jobs).fds.get x = p.fds.get x) ∧ (afterJobs p jobs).cwd = p.cwd ∧
      p.nextPipe ≤ (afterJobs p jobs).nextPipe ∧
      ((afterJobs p jobs).sigchldIgnored = true ↔
        p.sigchldIgnored = true ∨ ∃ job ∈ jobs, job.2.waiting = false) := by
  induction jobs generalizing p with
  | nil => exact ⟨fun _ => rfl, rfl, le_rfl, by simp [afterJobs]⟩
  | cons job jobs ih =>
    obtain ⟨env, apipe⟩ := job
    obtain ⟨hb, hs⟩ := h _ (List.mem_cons_self ..)
    obtain ⟨-, -, hfds, hkeeps⟩ := hs.completes hb p
    obtain ⟨hfds', hcwd, hnext, hign⟩ := ih (executePipeline env (some apipe) p).proc
      fun job hjob => h job (List.mem_cons_of_mem _ hjob)
    refine ⟨fun x => (hfds' x).trans (hfds x), hcwd.trans (hkeeps.cwd.trans ?_),
      le_trans ?_ (hkeeps.nextPipe.trans hnext), ?_⟩
    · cases apipe.waiting <;> rfl
    · exact (Proc.started_nextPipe ..).ge
    · rw [afterJobs, hign, hkeeps.sigchldIgnored]
      cases hw : apipe.waiting <;> simp [Proc.started, hw]

/-- Two programs that are started alike: execvp gets the same words, and the
    descriptors are the same up to the numbers of the new pipes, as are the
    working directory and the disposition of SIGCHLD. -/
structure StartsAlike (b b' : ℕ) (run run' : Run) : Prop where
  execvp : ∃ file argv failed, run.ending = .execvp file argv failed ∧
    run'.ending = .execvp file argv failed
  fds : run.proc.fds.Renames (File.renumber b b') run'.proc.fds
  cwd : run'.proc.cwd = run.proc.cwd
  sigchldIgnored : run'.proc.sigchldIgnored = run.proc.sigchldIgnored

/-- The programs of a pipeline are started alike by `p` and by `p'`. -/
def RunsAlike (env env' : Env) (apipe : Pipeline) (p p' : Proc) : Prop :=
  List.Forall₂ (fun c c' => StartsAlike p.nextPipe p'.nextPipe c.2 c'.2)
    (executePipeline env (some apipe) p).children (executePipeline env' (some apipe) p').children

/-- The pipeline is run by children: it is not empty and no lone builtin. -/
def Pipeline.Forks (apipe : Pipeline) : Prop :=
  apipe.pipe ≠ [] ∧ builtinAlone (some apipe) = .ok false

/-- A pipeline that is not run by children has none. -/
theorem executePipeline_childless {apipe : Pipeline} (h : ¬ apipe.Forks) (env : Env) (p : Proc) :
    (executePipeline env (some apipe) p).children = [] := by
  cases hb : builtinAlone (some apipe) with
  | error f => rw [executePipeline_fault hb]; rfl
  | ok b =>
    cases b with
    | true =>
      obtain ⟨sc, hsc⟩ := builtinAlone_true hb
      rw [executePipeline_alone hsc hb]
      cases builtinRun env (some sc) p <;> rfl
    | false =>
      have hnil : apipe.pipe = [] := by
        by_contra hne
        exact h ⟨hne, hb⟩
      rw [executePipeline_loop hb, hnil, Run.started_children]; rfl

/-- The children of a pipeline, run by processes whose descriptors are the same. -/
theorem executePipeline_alike {apipe : Pipeline} (hb : builtinAlone (some apipe) = .ok false)
    (hs : Succeeds env apipe) (hs' : Succeeds env' apipe) {p p' : Proc}
    (hfds : ∀ x, p'.fds.get x = p.fds.get x) :
    List.Forall₂ (fun c c' => AlikeChildren p.nextPipe p'.nextPipe (p.started apipe.waiting)
        (p'.started apipe.waiting) c.2 c'.2)
      (executePipeline env (some apipe) p).children
      (executePipeline env' (some apipe) p').children := by
  have halike : Alike p.nextPipe p'.nextPipe (p.started apipe.waiting)
      (p'.started apipe.waiting) := by
    refine ⟨fun x => ?_, 0, by simp, by simp⟩
    rw [Proc.started_fds, Proc.started_fds, hfds]
    cases hx : p.fds.get x with
    | none => rfl
    | some f => exact congrArg some ((p.older x f hx).renumber _).symm
  rw [executePipeline_loop hb, executePipeline_loop hb, Run.started_children, Run.started_children]
  exact executePipelineLoop_alike (fun i h₁ h₂ => ⟨hs.pipe i h₁ h₂, hs'.pipe i h₁ h₂⟩)
    (fun i h₁ h₂ => ⟨hs.fork i h₁ h₂, hs'.fork i h₁ h₂⟩) apipe.pipe
    (fun sc hsc => ⟨hs.opens sc hsc, hs'.opens sc hsc⟩) rfl le_rfl (Nat.add_comm ..) halike
    (fun h => absurd h (Nat.lt_irrefl 1)) (.refl _) (.refl _)

/-- **The programs of a foreground pipeline are started as in a new shell
    exactly if no job before was a background one**, unless the new shell
    ignores SIGCHLD itself, or the pipeline starts no program. -/
theorem runsAlike_iff (p : Proc) {jobs : List (Env × Pipeline)}
    (hjobs : ∀ job ∈ jobs, JobSucceeds job) {apipe : Pipeline} (hwait : apipe.waiting = true)
    (hs : Succeeds env apipe) (hs' : Succeeds env' apipe) :
    RunsAlike env env' apipe p (afterJobs p jobs) ↔
      p.sigchldIgnored = true ∨ (∀ job ∈ jobs, job.2.waiting = true) ∨ ¬ apipe.Forks := by
  obtain ⟨hfds, hcwd, -, hign⟩ := afterJobs_keeps p hjobs
  by_cases hforks : apipe.Forks
  · obtain ⟨hne, hb⟩ := hforks
    have hchildren := executePipeline_alike hb hs hs' hfds
    rw [hwait] at hchildren
    have hsame : (afterJobs p jobs).sigchldIgnored = p.sigchldIgnored ↔
        p.sigchldIgnored = true ∨ ∀ job ∈ jobs, job.2.waiting = true := by
      rw [Bool.eq_iff_iff, hign]
      by_cases hp : p.sigchldIgnored = true
      · simp [hp]
      · simp [hp]
    rw [show (¬ apipe.Forks) ↔ False from iff_false_intro (not_not_intro ⟨hne, hb⟩), or_false,
      ← hsame]
    constructor
    · -- a difference shows in the first child
      intro h
      have hlen := (hs.completes hb p).children
      obtain ⟨c, cs, hc⟩ := List.exists_cons_of_length_pos
        (hlen.symm ▸ List.length_pos_iff.2 hne)
      rw [RunsAlike, hc] at h
      rw [hc] at hchildren
      obtain ⟨c', cs', hfirst, -, hc'⟩ := List.forall₂_cons_left_iff.1 h
      rw [hc', List.forall₂_cons] at hchildren
      have hchild := hchildren.1.keeps.sigchldIgnored
      have hchild' := hchildren.1.keeps'.sigchldIgnored
      exact hchild'.symm.trans (hfirst.sigchldIgnored.trans hchild)
    · intro hign
      refine hchildren.imp fun c c' hc => ⟨?_, hc.alike.fds, ?_, ?_⟩
      · obtain ⟨cmd, hcmd, hcmd'⟩ := hc.ending
        exact ⟨_, _, _, hcmd, hcmd'⟩
      · exact hc.keeps'.cwd.trans (hcwd.trans hc.keeps.cwd.symm)
      · exact hc.keeps'.sigchldIgnored.trans (hign.trans hc.keeps.sigchldIgnored.symm)
  · refine iff_of_true ?_ (.inr (.inr hforks))
    rw [RunsAlike, executePipeline_childless hforks, executePipeline_childless hforks]
    exact .nil

/-- All calls of `Env.succeeding` succeed. -/
theorem succeeds_succeeding (apipe : Pipeline) : Succeeds Env.succeeding apipe :=
  ⟨fun _ _ _ => rfl, fun _ _ _ => rfl, fun _ _ => ⟨fun _ _ => rfl, fun _ _ => rfl⟩⟩

/-- The pipeline `ls | wc` behind the foreground job `ls`. -/
theorem runsAlike_foreground : RunsAlike Env.succeeding Env.succeeding
    ⟨[⟨0, ["ls".toList], none, none⟩, ⟨1, ["wc".toList], none, none⟩], true⟩ Proc.initial
    (afterJobs Proc.initial [(Env.succeeding, ⟨[⟨0, ["ls".toList], none, none⟩], true⟩)]) := by
  refine (runsAlike_iff _ ?_ rfl (succeeds_succeeding _) (succeeds_succeeding _)).2
    (.inr (.inl ?_))
  · rintro job hjob
    obtain rfl := List.mem_singleton.1 hjob
    exact ⟨rfl, succeeds_succeeding _⟩
  · rintro job hjob
    obtain rfl := List.mem_singleton.1 hjob
    rfl

/-- The command `ls` behind the background job `ls &`: it reaches execvp with
    SIGCHLD ignored, but not in a new shell. -/
theorem not_runsAlike_background :
    JobSucceeds (Env.succeeding, ⟨[⟨0, ["ls".toList], none, none⟩], false⟩) ∧
    Succeeds Env.succeeding ⟨[⟨1, ["ls".toList], none, none⟩], true⟩ ∧
    ¬ RunsAlike Env.succeeding Env.succeeding ⟨[⟨1, ["ls".toList], none, none⟩], true⟩ Proc.initial
      (afterJobs Proc.initial
        [(Env.succeeding, ⟨[⟨0, ["ls".toList], none, none⟩], false⟩)]) := by
  refine ⟨⟨rfl, succeeds_succeeding _⟩, succeeds_succeeding _, fun h => ?_⟩
  obtain ⟨c', cs', hfirst, -, hc'⟩ := List.forall₂_cons_left_iff.1 h
  obtain rfl := (List.cons.inj hc').1
  exact Bool.noConfusion hfirst.sigchldIgnored

end OSLabs.Shell
