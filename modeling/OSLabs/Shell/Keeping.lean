/-
  What running a pipeline leaves alone.

  The calls on descriptors change neither the working directory nor the
  disposition of SIGCHLD (`Proc.Keeps`), and so do the children before they
  call execvp, and the loop of execute_pipeline.  `Completes` collects what is
  left of a pipeline whose calls all succeed.
-/
import OSLabs.Shell.FailureAtomic
import OSLabs.Shell.Wiring

namespace OSLabs.Shell

open Descriptors

variable {env : Env}

/-- `p'` is `p` after calls on its descriptors. -/
structure Proc.Keeps (p p' : Proc) : Prop where
  sigchldIgnored : p'.sigchldIgnored = p.sigchldIgnored
  cwd : p'.cwd = p.cwd
  nextPipe : p.nextPipe ≤ p'.nextPipe

namespace Proc
variable {p p' p'' : Proc}

theorem Keeps.refl (p : Proc) : p.Keeps p := ⟨rfl, rfl, le_rfl⟩

theorem Keeps.trans (h : p.Keeps p') (h' : p'.Keeps p'') : p.Keeps p'' :=
  ⟨h'.sigchldIgnored.trans h.sigchldIgnored, h'.cwd.trans h.cwd, h.nextPipe.trans h'.nextPipe⟩

theorem close_keeps (p : Proc) (fd : ℤ) : p.Keeps (p.close fd) := ⟨rfl, rfl, le_rfl⟩

theorem dup2_keeps (p : Proc) (old : ℤ) (new : ℕ) : p.Keeps (p.dup2 old new) := ⟨rfl, rfl, le_rfl⟩

/-- One end of a pipe is closed, and the other one moved. -/
theorem connect_keeps (p : Proc) (x y : ℤ) (std : ℕ) :
    p.Keeps (((p.close x).dup2 y std).close y) :=
  ((p.close_keeps x).trans (dup2_keeps _ y std)).trans (close_keeps _ y)

theorem pipe_keeps (p : Proc) (succeeds : Bool) (fds : ℤ × ℤ) :
    p.Keeps (p.pipe succeeds fds).2 := by
  cases succeeds with
  | false => exact .refl p
  | true => exact ⟨rfl, rfl, Nat.le_succ _⟩

end Proc

/-! ## The child -/

theorem redirect_keeps {file : Option Word} {mode : OpenMode} {fd : ℕ} {p p' : Proc}
    (h : redirect env file mode fd p = .ok p') : p.Keeps p' := by
  unfold redirect at h
  split at h
  · cases h; exact .refl p
  · unfold Proc.openFile at h
    split_ifs at h
    cases h; exact ⟨rfl, rfl, le_rfl⟩

theorem childFds_keeps (n i : ℕ) (l : Locals) (p : Proc) : p.Keeps (childFds n i l p) := by
  unfold childFds
  split_ifs
  · exact .refl p
  · exact p.connect_keeps ..
  · exact p.connect_keeps ..
  · exact (p.connect_keeps ..).trans (Proc.connect_keeps ..)

/-! ## The parent -/

theorem rotatePipes_keeps (env : Env) (n i : ℕ) (l : Locals) (p : Proc) :
    p.Keeps (rotatePipes env n i l p).2 := by
  unfold rotatePipes
  by_cases hi : i = n
  · simp only [hi, ne_eq, not_true_eq_false, if_false]; exact .refl p
  · simp only [ne_eq, hi, not_false_eq_true, if_true]; exact p.pipe_keeps ..

theorem closePipe0_keeps (i : ℕ) (l : Locals) (p : Proc) : p.Keeps (closePipe0 i l p) := by
  unfold closePipe0
  split_ifs
  · exact (p.close_keeps _).trans (Proc.close_keeps ..)
  · exact .refl p

theorem parentAt_keeps (env : Env) (n : ℕ) (s : Locals × Proc) (j : ℕ) :
    s.2.Keeps (parentAt env n s j).2 := by
  induction j with
  | zero => exact .refl _
  | succ j ih => exact ih.trans ((rotatePipes_keeps ..).trans (closePipe0_keeps ..))

/-! ## A whole pipeline -/

/-- All calls of `pipe`, `fork` and `open` succeed while the pipeline is run. -/
structure Succeeds (env : Env) (apipe : Pipeline) : Prop where
  pipe : ∀ i, 1 ≤ i → i < apipe.pipe.length → env.pipe i = true
  fork : ∀ i, 1 ≤ i → i ≤ apipe.pipe.length → (env.fork i).isSome = true
  opens : ∀ sc ∈ apipe.pipe, Openable env sc

theorem Succeeds.firstFailedFork {apipe : Pipeline} (h : Succeeds env apipe) :
    firstFailedFork env.fork apipe.pipe.length = none := by
  cases hfirst : OSLabs.Shell.firstFailedFork env.fork apipe.pipe.length with
  | none => rfl
  | some f =>
    obtain ⟨⟨hf₁, hf₂⟩, hf, -⟩ := firstFailedFork_some hfirst
    have := h.fork f hf₁ hf₂
    rw [hf] at this
    cases this

theorem Succeeds.atomicWhen {apipe : Pipeline} (h : Succeeds env apipe) :
    AtomicWhen env.pipe env.fork apipe.waiting apipe.pipe.length := by
  by_cases hn : apipe.pipe.length ≤ 1
  · exact .inl hn
  · refine .inr ⟨fun _ f hf => ?_, ?_⟩
    · rw [h.firstFailedFork] at hf; cases hf
    · rw [DescriptorsBack, h.firstFailedFork]
      exact h.pipe 1 le_rfl (by omega)

/-- Run by `p`, the pipeline makes a child for each of its commands, waits for
    them if it is a foreground one, and leaves the descriptors as they were. -/
structure Completes (env : Env) (apipe : Pipeline) (p : Proc) : Prop where
  ending : (executePipeline env (some apipe) p).ending = .returned
    (if apipe.waiting then (executePipeline env (some apipe) p).children.map Prod.fst else [])
  children : (executePipeline env (some apipe) p).children.length = apipe.pipe.length
  fds : ∀ x, (executePipeline env (some apipe) p).proc.fds.get x = p.fds.get x
  keeps : (p.started apipe.waiting).Keeps (executePipeline env (some apipe) p).proc

/-- **A pipeline completes if all its calls succeed.** -/
theorem Succeeds.completes {apipe : Pipeline} (h : Succeeds env apipe)
    (hb : builtinAlone (some apipe) = .ok false) (p : Proc) : Completes env apipe p := by
  set s := startOf env apipe p
  obtain ⟨_, rfl, hending, hproc⟩ := executePipelineLoop_succeeds s rfl h.fork
  obtain ⟨cs, hcs, hchildren, -, -⟩ := executePipelineLoop_forks s rfl le_rfl h.fork
  rw [Nat.sub_self, executePipelineLoop_zero, Run.children, List.append_nil] at hchildren
  have hloop : executePipeline env (some apipe) p = _ := executePipeline_loop hb p
  have hlen : cs.length = apipe.pipe.length := by
    rw [← List.length_map (f := Prod.fst), hcs, List.length_map, List.length_range]
  refine ⟨?_, ?_, ?_, ?_⟩
  · rw [hloop, Run.started_ending, Run.started_children]; exact hending
  · rw [hloop, Run.started_children]; exact (congrArg List.length hchildren).trans hlen
  · exact (returnsAtomically_of env h.atomicWhen _
      (by rw [hloop, Run.started_ending]; exact hending)).1
  · rw [hloop, Run.started_proc]; exact hproc ▸ parentAt_keeps env _ s _

end OSLabs.Shell
