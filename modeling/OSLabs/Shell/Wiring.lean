/-
  The pipes between the commands of a pipeline.

  Before its iteration `j + 1` the parent has the descriptors it had at entry,
  and the ends of the pipe of the iteration before (`AtIteration`).  From this,
  each child finds the right files at its descriptors (`childFds_get`), and the
  parent gets to the next iteration (`AtIteration.next`).
-/
import OSLabs.Shell.Execute

namespace OSLabs.Shell

open Descriptors

variable {env : Env}

/-! ## Connecting and redirecting -/

/-- Close the end `x` of a pipe, and move its end `y` to `std`. -/
theorem Proc.get_connect {p : Proc} {x y std : ℕ} {f : File} (hxy : x ≠ y)
    (hy : p.fds.get y = some f) (hsy : std ≠ y) (z : ℕ) :
    (((p.close x).dup2 y std).close y).fds.get z =
      if z = y then none else if z = std then some f else if z = x then none else p.fds.get z := by
  have hy' : (p.fds.close x).getInt y = some f := by
    rw [Table.getInt_natCast, Table.get_close, if_neg (by omega), hy]
  simp only [Proc.close_fds, Proc.dup2_fds, Table.dup2_some hy', Table.get_close, Table.get_set,
    Int.natCast_inj]

/-- A redirection whose file can be opened. -/
theorem redirect_opens {file : Option Word} {mode : OpenMode} {fd : ℕ} {p : Proc}
    (hopen : ∀ f ∈ file, env.opens f mode = true) (hfd : p.fds.get fd ≠ none) :
    ∃ p', redirect env file mode fd p = .ok p' ∧ ∀ x, p'.fds.get x =
      if x = fd then (file.map (File.opened · mode)).or (p.fds.get fd) else p.fds.get x := by
  cases file with
  | none => exact ⟨p, rfl, fun x => by split_ifs with hx <;> simp [hx]⟩
  | some f =>
    obtain ⟨hfree, -⟩ := Table.lowest_spec (t := p.fds)
    have hne : fd ≠ p.fds.lowest := by rintro rfl; exact hfd hfree
    simp only [redirect, Proc.openFile, hopen f rfl, if_true]
    refine ⟨_, rfl, fun x => ?_⟩
    have hget : (p.fds.set p.fds.lowest (some (.opened f mode))).getInt p.fds.lowest =
        some (.opened f mode) := by
      rw [Table.getInt_natCast, Table.get_set, if_pos rfl]
    simp only [Proc.close_fds, Proc.dup2_fds, Table.alloc, Table.dup2_some hget, Table.get_close,
      Table.get_set, Int.natCast_inj, Option.map_some, Option.some_or]
    by_cases hx : x = p.fds.lowest
    · have hxfd : x ≠ fd := by omega
      rw [if_pos hx, if_neg hxfd, hx, hfree]
    · rw [if_neg hx, if_neg hx]

/-- What a standard descriptor refers to behind a redirection. -/
def redirected (file : Option Word) (mode : OpenMode) (std : Option File) : Option File :=
  (file.map (File.opened · mode)).or std

theorem redirection_opens {cmd : Scommand} {p : Proc}
    (hin : ∀ f ∈ cmd.in_, env.opens f .read = true) (hout : ∀ f ∈ cmd.out, env.opens f .write = true)
    (h₀ : p.fds.get 0 ≠ none) (h₁ : p.fds.get 1 ≠ none) :
    ∃ p', redirection env cmd p = .ok p' ∧ ∀ x, p'.fds.get x =
      if x = 0 then redirected cmd.in_ .read (p.fds.get 0)
      else if x = 1 then redirected cmd.out .write (p.fds.get 1) else p.fds.get x := by
  obtain ⟨p₁, hp₁, hget₁⟩ := redirect_opens hin h₀
  have h₁' : p₁.fds.get 1 ≠ none := by rw [hget₁, if_neg (by omega)]; exact h₁
  obtain ⟨p₂, hp₂, hget₂⟩ := redirect_opens hout h₁'
  refine ⟨p₂, by simp only [redirection_eq, hp₁, hp₂, bind, Except.bind], fun x => ?_⟩
  rw [hget₂, hget₁ x, hget₁ 1, if_neg (show (1 : ℕ) ≠ 0 by omega)]
  by_cases hx : x = 1
  · have hx0 : x ≠ 0 := by omega
    rw [if_pos hx, if_neg hx0, if_pos hx, redirected]
  · rw [if_neg hx, if_neg hx, redirected]

/-! ## The child -/

/-- A child of the iteration `i` of `n` before it runs its command. -/
def childFds (n i : ℕ) (l : Locals) (p : Proc) : Proc :=
  if n = 1 then p
  else if i = 1 then ((p.close l.pipe1.1).dup2 l.pipe1.2 1).close l.pipe1.2
  else if i = n then ((p.close l.pipe0.2).dup2 l.pipe0.1 0).close l.pipe0.1
  else
    let p := ((p.close l.pipe0.2).dup2 l.pipe0.1 0).close l.pipe0.1
    ((p.close l.pipe1.1).dup2 l.pipe1.2 1).close l.pipe1.2

theorem childBranch_eq (n i : ℕ) (l : Locals) (cmd : Scommand) (p : Proc) :
    childBranch env n i l cmd p = executeCommand env cmd (childFds n i l p) := by
  obtain ⟨e, he, -⟩ := executeCommand_ends env cmd p
  unfold childBranch childFds
  split_ifs
  · rw [he]; rfl
  all_goals rfl

/-- The parent before the iteration `j + 1`, with the descriptors `t` and the
    next pipe `base` at entry. -/
def AtIteration (t : Table File) (base : ℕ) : ℕ → Locals → Proc → Prop
  | 0, _, p => p.nextPipe = base ∧ ∀ x, p.fds.get x = t.get x
  | j + 1, l, p => p.nextPipe = base + (j + 1) ∧ ∃ a b : ℕ, l.pipe1 = (↑a, ↑b) ∧ a ≠ b ∧
      t.get a = none ∧ t.get b = none ∧ ∀ x, p.fds.get x = withPipe t.get (base + j) a b x

/-- What the child of the iteration `j + 1` of `n` finds at `x`. -/
def wired (t : Table File) (base n j x : ℕ) : Option File :=
  if x = 0 then if j = 0 then t.get 0 else some (.pipeRead (base + (j - 1)))
  else if x = 1 then if j + 1 < n then some (.pipeWrite (base + j)) else t.get 1
  else t.get x

section
variable {t : Table File} {base n j : ℕ} {l : Locals} {p : Proc}

/-- The descriptors 0, 1 and 2 are open. -/
def StdOpen (t : Table File) : Prop := ∀ fd ≤ 2, t.get fd ≠ none

theorem StdOpen.ne {fd : ℕ} (h : StdOpen t) (hfd : t.get fd = none) : 2 < fd := by
  by_contra hle
  exact h fd (by omega) hfd

/-- The pipes in the iteration `j + 1`, which is not the last. -/
theorem AtIteration.rotate (h : AtIteration t base j l p) (hj : j + 1 < n)
    (hpipe : env.pipe (j + 1) = true) :
    ∃ (c d : ℕ) (p' : Proc), rotatePipes env n (j + 1) l p =
        ((l.shift j).setPipe1 (↑c, ↑d), p') ∧
      c ≠ d ∧ p.fds.get c = none ∧ p.fds.get d = none ∧ p'.nextPipe = base + (j + 1) ∧
      ∀ x, p'.fds.get x = withPipe p.fds.get (base + j) c d x := by
  obtain ⟨c, d, p', hp', ⟨hcd, hc, hd, -⟩, hn, hget⟩ := rotatePipes_true hj.ne hpipe l p
  have hbase : p.nextPipe = base + j := by cases j <;> exact h.1
  exact ⟨c, d, p', hp', by omega, hc, hd, by omega, fun x => by rw [hget, hbase]⟩

/-- **The descriptors of a child.** -/
theorem childFds_get (h : AtIteration t base j l p) (hj : j < n) (hstd : StdOpen t)
    (hpipe : j + 1 < n → env.pipe (j + 1) = true) (x : ℕ) :
    (childFds n (j + 1) (rotatePipes env n (j + 1) l p).1 (rotatePipes env n (j + 1) l p).2).fds.get
      x = wired t base n j x := by
  rcases Nat.lt_or_ge (j + 1) n with hlt | hge
  · obtain ⟨c, d, p', hrot, hcd, hc, hd, -, hget⟩ := h.rotate hlt (hpipe hlt)
    rw [hrot]
    cases j with
    | zero =>
      -- the first child: its output goes to the new pipe
      rw [h.2] at hc hd
      have := hstd.ne hc
      have := hstd.ne hd
      have hd' : p'.fds.get d = some (.pipeWrite base) := by
        rw [hget, withPipe, if_neg (by omega), if_pos rfl]; rfl
      simp only [childFds, if_neg (show n ≠ 1 by omega), if_pos, Locals.setPipe1_pipe1]
      rw [Proc.get_connect hcd hd' (by omega), hget]
      simp only [withPipe, wired, h.2]
      grind
    | succ j =>
      -- a child between two others
      obtain ⟨-, a, b, hl, hab, ha, hb, hp⟩ := h
      rw [hp, withPipe] at hc hd
      have := hstd.ne ha
      have := hstd.ne hb
      have hca : c ≠ a ∧ c ≠ b ∧ t.get c = none := by
        split_ifs at hc
        exact ⟨by omega, by omega, hc⟩
      have hda : d ≠ a ∧ d ≠ b ∧ t.get d = none := by
        split_ifs at hd
        exact ⟨by omega, by omega, hd⟩
      have := hstd.ne hca.2.2
      have := hstd.ne hda.2.2
      have ha' : p'.fds.get a = some (.pipeRead (base + j)) := by
        rw [hget, withPipe, if_neg (by omega), if_neg (by omega), hp, withPipe, if_pos rfl]
      simp only [childFds, if_neg (show n ≠ 1 by omega), if_neg (show j + 1 + 1 ≠ 1 by omega),
        if_neg (show j + 1 + 1 ≠ n by omega), Locals.setPipe1_pipe0, Locals.setPipe1_pipe1,
        l.shift_pipe0 (Nat.succ_pos j), hl]
      set q := ((p'.close b).dup2 a 0).close a
      have hq : ∀ z, q.fds.get z = _ := Proc.get_connect (Ne.symm hab) ha' (by omega)
      have hd' : q.fds.get d = some (.pipeWrite (base + (j + 1))) := by
        rw [hq, if_neg hda.1, if_neg (by omega), if_neg hda.2.1, hget, withPipe, if_neg (by omega),
          if_pos rfl]
      rw [Proc.get_connect hcd hd' (by omega), hq, hget]
      simp only [withPipe, wired, hp]
      grind
  · obtain rfl : n = j + 1 := by omega
    rw [rotatePipes_last]
    cases j with
    | zero =>
      -- an only child
      simp only [childFds, wired, if_pos, h.2]
      grind
    | succ j =>
      -- the last child: its input comes from the pipe before
      obtain ⟨-, a, b, hl, hab, ha, hb, hp⟩ := h
      have := hstd.ne ha
      have := hstd.ne hb
      have ha' : p.fds.get a = some (.pipeRead (base + j)) := by rw [hp, withPipe, if_pos rfl]
      simp only [childFds, if_neg (show j + 1 + 1 ≠ 1 by omega), l.shift_pipe0 (Nat.succ_pos j), hl,
        if_pos]
      rw [Proc.get_connect (Ne.symm hab) ha' (by omega), hp]
      simp only [withPipe, wired]
      grind

/-! ## The parent -/

/-- **The parent gets to the next iteration.** -/
theorem AtIteration.next (h : AtIteration t base j l p) (hj : j + 1 < n)
    (hpipe : env.pipe (j + 1) = true) (i pid : ℕ) :
    AtIteration t base (j + 1) ((rotatePipes env n (j + 1) l p).1.storePid i pid)
      (closePipe0 (j + 1) (rotatePipes env n (j + 1) l p).1
        (rotatePipes env n (j + 1) l p).2) := by
  obtain ⟨c, d, p', hrot, hcd, hc, hd, hnext, hget⟩ := h.rotate hj hpipe
  rw [hrot]
  refine ⟨(closePipe0_nextPipe ..).trans hnext, c, d, rfl, hcd, ?_⟩
  cases j with
  | zero =>
    rw [h.2] at hc hd
    refine ⟨hc, hd, fun x => ?_⟩
    simp only [closePipe0_first, Nat.zero_add, hget, withPipe, h.2]
  | succ j =>
    obtain ⟨-, a, b, hl, hab, ha, hb, hp⟩ := h
    rw [hp, withPipe] at hc hd
    have hca : c ≠ a ∧ c ≠ b ∧ t.get c = none := by
      split_ifs at hc
      exact ⟨by omega, by omega, hc⟩
    have hda : d ≠ a ∧ d ≠ b ∧ t.get d = none := by
      split_ifs at hd
      exact ⟨by omega, by omega, hd⟩
    refine ⟨hca.2.2, hda.2.2, fun x => ?_⟩
    have hpipe0 : ((l.shift (j + 1)).setPipe1 (↑c, ↑d)).pipe0 = (↑a, ↑b) :=
      (l.shift_pipe0 (Nat.succ_pos j)).trans hl
    rw [closePipe0_get hpipe0 (Nat.succ_pos j), hget]
    simp only [withPipe, hp]
    grind

end

/-! ## The whole pipeline -/

/-- The files of the redirections of a command can be opened. -/
structure Openable (env : Env) (sc : Scommand) : Prop where
  in_ : ∀ f ∈ sc.in_, env.opens f .read = true
  out : ∀ f ∈ sc.out, env.opens f .write = true

/-- The child of the `i`-th command of `n` (from 0) of a pipeline run by `p`:
    it forks no child and does not return; and if its redirections can be
    opened, it calls execvp with its words, with the pipes at its standard
    input and output that no redirection takes, and with no other end of the
    pipes made for the pipeline. -/
structure ChildRuns (env : Env) (p : Proc) (n i : ℕ) (sc : Scommand) (run : Run) : Prop where
  ends : ∃ ending proc, run = .done ending proc ∧ ∀ waited, ending ≠ .returned waited
  execvp : Openable env sc →
    run.ending = .execvp sc.comm.head? (sc.comm.map some ++ [none]) (.exit 1)
  stdin : Openable env sc → run.proc.fds.get 0 = redirected sc.in_ .read
    (if i = 0 then p.fds.get 0 else some (.pipeRead (p.nextPipe + (i - 1))))
  stdout : Openable env sc → run.proc.fds.get 1 = redirected sc.out .write
    (if i + 1 < n then some (.pipeWrite (p.nextPipe + i)) else p.fds.get 1)
  others : Openable env sc → ∀ x, 1 < x → run.proc.fds.get x = p.fds.get x
  readEnds : Openable env sc → ∀ x id, p.nextPipe ≤ id →
    run.proc.fds.get x = some (.pipeRead id) → x = 0 ∧ id + 1 = p.nextPipe + i
  writeEnds : Openable env sc → ∀ x id, p.nextPipe ≤ id →
    run.proc.fds.get x = some (.pipeWrite id) → x = 1 ∧ id = p.nextPipe + i

/-- A standard descriptor is redirected to a file, or it is not redirected. -/
theorem redirected_cases (file : Option Word) (mode : OpenMode) (std : Option File) :
    (∃ f, redirected file mode std = some (.opened f mode)) ∨ redirected file mode std = std := by
  cases file with
  | none => exact .inr rfl
  | some f => exact .inl ⟨f, rfl⟩

section
variable {p₀ p : Proc} {n j : ℕ} {l : Locals}

/-- The ends of new pipes that a child holds: the descriptors at entry refer to
    none, nor does a redirection. -/
theorem newEnd_cases {t : Table File} {cmd : Scommand} {x : ℕ} {f : File}
    (hin : t.get 0 = redirected cmd.in_ .read
      (if j = 0 then p₀.fds.get 0 else some (.pipeRead (p₀.nextPipe + (j - 1)))))
    (hout : t.get 1 = redirected cmd.out .write
      (if j + 1 < n then some (.pipeWrite (p₀.nextPipe + j)) else p₀.fds.get 1))
    (hothers : ∀ x, 1 < x → t.get x = p₀.fds.get x) (hf : ¬ f.OlderThan p₀.nextPipe)
    (hx : t.get x = some f) :
    x = 0 ∧ j ≠ 0 ∧ f = .pipeRead (p₀.nextPipe + (j - 1)) ∨
      x = 1 ∧ f = .pipeWrite (p₀.nextPipe + j) := by
  have hold : ∀ y, p₀.fds.get y ≠ some f := fun y hy => hf (p₀.older y f hy)
  have hredirected : ∀ {file : Option Word} {mode : OpenMode} {std : Option File},
      redirected file mode std = some f → std = some f := by
    intro file mode std h
    rcases redirected_cases file mode std with ⟨path, hpath⟩ | hstd
    · rw [hpath] at h; cases h
      exact absurd trivial hf
    · rwa [hstd] at h
  rcases (by omega : x = 0 ∨ x = 1 ∨ 1 < x) with rfl | rfl | hlt
  · have hstd := hredirected (hin.symm.trans hx)
    split_ifs at hstd with hj
    · exact absurd hstd (hold 0)
    · exact .inl ⟨rfl, hj, (Option.some.inj hstd).symm⟩
  · have hstd := hredirected (hout.symm.trans hx)
    split_ifs at hstd
    · exact .inr ⟨rfl, (Option.some.inj hstd).symm⟩
    · exact absurd hstd (hold 1)
  · exact absurd ((hothers x hlt).symm.trans hx) (hold x)

/-- The child of the iteration `j + 1`. -/
theorem childBranch_runs (h : AtIteration p₀.fds p₀.nextPipe j l p) (hj : j < n)
    (hstd : StdOpen p₀.fds) (hpipe : j + 1 < n → env.pipe (j + 1) = true) {cmd : Scommand}
    (hcmd : cmd.comm ≠ []) {e : Ended}
    (he : childBranch env n (j + 1) (rotatePipes env n (j + 1) l p).1 cmd
      (rotatePipes env n (j + 1) l p).2 = .error e) :
    ChildRuns env p₀ n j cmd (.done e.ending e.proc) := by
  set q := childFds n (j + 1) (rotatePipes env n (j + 1) l p).1 (rotatePipes env n (j + 1) l p).2
  have hq : ∀ x, q.fds.get x = wired p₀.fds p₀.nextPipe n j x := childFds_get h hj hstd hpipe
  have hexec : executeCommand env cmd q = .error e := by rw [← he, childBranch_eq]
  have hfailed : execvpFailed cmd.comm.head? = .exit 1 := by
    obtain ⟨w, comm, hw⟩ := List.exists_cons_of_ne_nil hcmd
    rw [hw]; rfl
  -- the run of the command when its files can be opened
  have hrun : Openable env cmd → e.ending = cmd.ending ∧
      ∀ x, e.proc.fds.get x =
        if x = 0 then redirected cmd.in_ .read (q.fds.get 0)
        else if x = 1 then redirected cmd.out .write (q.fds.get 1) else q.fds.get x := by
    intro ho
    have h₀ : q.fds.get 0 ≠ none := by
      rw [hq, wired, if_pos rfl]
      split_ifs
      · exact hstd 0 (by omega)
      · simp
    have h₁ : q.fds.get 1 ≠ none := by
      rw [hq, wired, if_neg (by omega), if_pos rfl]
      split_ifs
      · simp
      · exact hstd 1 (by omega)
    obtain ⟨q', hq', hget⟩ := redirection_opens ho.in_ ho.out h₀ h₁
    rw [executeCommand_eq, hq'] at hexec
    obtain rfl := Except.error.inj hexec
    exact ⟨rfl, hget⟩
  have hin : Openable env cmd → e.proc.fds.get 0 = redirected cmd.in_ .read
      (if j = 0 then p₀.fds.get 0 else some (.pipeRead (p₀.nextPipe + (j - 1)))) := by
    intro ho
    rw [(hrun ho).2, if_pos rfl, hq, wired, if_pos rfl]
  have hout : Openable env cmd → e.proc.fds.get 1 = redirected cmd.out .write
      (if j + 1 < n then some (.pipeWrite (p₀.nextPipe + j)) else p₀.fds.get 1) := by
    intro ho
    rw [(hrun ho).2, if_neg (by omega), if_pos rfl, hq, wired, if_neg (by omega), if_pos rfl]
  have hothers : Openable env cmd → ∀ x, 1 < x → e.proc.fds.get x = p₀.fds.get x := by
    intro ho x hx
    rw [(hrun ho).2, if_neg (by omega), if_neg (by omega), hq, wired, if_neg (by omega),
      if_neg (by omega)]
  constructor
  case ends =>
    obtain ⟨e', he', hend⟩ := executeCommand_ends env cmd q
    obtain rfl := Except.error.inj (hexec.symm.trans he')
    refine ⟨_, _, rfl, fun waited => ?_⟩
    rcases hend with hend | hend <;> rw [hend] <;> exact Ending.noConfusion
  case execvp => intro ho; rw [Run.ending, (hrun ho).1, Scommand.ending, hfailed]
  case stdin => exact hin
  case stdout => exact hout
  case others => exact hothers
  case readEnds =>
    intro ho x id hid hx
    rcases newEnd_cases (hin ho) (hout ho) (hothers ho) (f := .pipeRead id)
        (Nat.not_lt.2 hid) hx with ⟨rfl, hj₀, hf⟩ | ⟨-, hf⟩
    · cases hf; exact ⟨rfl, by omega⟩
    · cases hf
  case writeEnds =>
    intro ho x id hid hx
    rcases newEnd_cases (hin ho) (hout ho) (hothers ho) (f := .pipeWrite id)
        (Nat.not_lt.2 hid) hx with ⟨-, -, hf⟩ | ⟨rfl, hf⟩
    · cases hf
    · cases hf; exact ⟨rfl, rfl⟩

/-- The loop from the iteration `j + 1` on. -/
theorem executePipelineLoop_children (p₀ : Proc) (hstd : StdOpen p₀.fds)
    (hpipe : ∀ i, 1 ≤ i → i < n → env.pipe i = true)
    (hfork : ∀ i, 1 ≤ i → i ≤ n → (env.fork i).isSome = true) (cmds : List Scommand)
    (hcmds : ∀ sc ∈ cmds, sc.comm ≠ []) (j : ℕ) (l : Locals) (apipe : Pipeline) (p : Proc)
    (hp : apipe.pipe = cmds) (hn : j + cmds.length = n)
    (h : cmds ≠ [] → AtIteration p₀.fds p₀.nextPipe j l p) :
    (executePipelineLoop env n cmds.length (j + 1) l apipe p).children.length = cmds.length ∧
    ∀ m sc, cmds[m]? = some sc → ∃ pid run,
      (executePipelineLoop env n cmds.length (j + 1) l apipe p).children[m]? = some (pid, run) ∧
      ChildRuns env p₀ n (j + m) sc run := by
  induction cmds generalizing j l apipe p with
  | nil => exact ⟨rfl, by simp⟩
  | cons cmd rest ih =>
    rw [List.length_cons] at hn ⊢
    have hat := h (by simp)
    obtain ⟨pid, hpid⟩ := Option.isSome_iff_exists.1 (hfork (j + 1) (by omega) (by omega))
    have hpipe' : j + 1 < n → env.pipe (j + 1) = true := fun hj => hpipe _ (by omega) hj
    obtain ⟨e, he, hrun⟩ := executePipelineLoop_some env n rest.length l _ p hp hpid
    rw [hrun, Run.children]
    obtain ⟨hlen, hch⟩ := ih (fun sc hsc => hcmds sc (by simp [hsc])) (j + 1) _
      { apipe with pipe := rest } _ rfl (by omega) fun hrest => by
        have hlt : j + 1 < n := by have := List.length_pos_iff.2 hrest; omega
        exact hat.next hlt (hpipe' hlt) (j + 1) pid
    refine ⟨by rw [List.length_cons, hlen], fun m sc hm => ?_⟩
    cases m with
    | zero =>
      obtain rfl : cmd = sc := by simpa using hm
      exact ⟨pid, _, rfl, childBranch_runs hat (by omega) hstd hpipe' (hcmds cmd (by simp)) he⟩
    | succ m =>
      obtain ⟨pid', run, hrun', hc⟩ := hch m sc (by simpa using hm)
      exact ⟨pid', run, by simpa using hrun', by rwa [show j + (m + 1) = j + 1 + m by omega]⟩

end

/-- **The commands of a pipeline run with the right files**, when no pipe and
    no fork fails: one child per command, wired to its neighbours. -/
theorem executePipeline_wiring (env : Env) (apipe : Pipeline) (p : Proc)
    (hcmds : ∀ sc ∈ apipe.pipe, sc.comm ≠ [])
    (halone : builtinAlone (some apipe) = .ok false) (hstd : StdOpen p.fds)
    (hpipe : ∀ i, 1 ≤ i → i < apipe.pipe.length → env.pipe i = true)
    (hfork : ∀ i, 1 ≤ i → i ≤ apipe.pipe.length → (env.fork i).isSome = true) :
    (executePipeline env (some apipe) p).children.length = apipe.pipe.length ∧
    ∀ i sc, apipe.pipe[i]? = some sc → ∃ pid run,
      (executePipeline env (some apipe) p).children[i]? = some (pid, run) ∧
      ChildRuns env p apipe.pipe.length i sc run := by
  rw [executePipeline_loop halone, Run.started_children]
  have hat : AtIteration p.fds p.nextPipe 0 ⟨env.garbage, env.garbage, fun _ => 0⟩
      (p.started apipe.waiting) := by
    exact ⟨by simp, fun x => by simp⟩
  simpa using executePipelineLoop_children p hstd hpipe hfork apipe.pipe hcmds 0 _ apipe _
    rfl (Nat.zero_add _) fun _ => hat

/-- The pipeline `ls | wc > f` in a new shell. -/
theorem executePipeline_wiring_pipe :
    ∃ c d : ℕ × Run, (executePipeline Env.succeeding (some ⟨[⟨0, ["ls".toList], none, none⟩,
        ⟨1, ["wc".toList], none, some "f".toList⟩], true⟩) Proc.initial).children = [c, d] ∧
      ChildRuns Env.succeeding Proc.initial 2 0 ⟨0, ["ls".toList], none, none⟩ c.2 ∧
      ChildRuns Env.succeeding Proc.initial 2 1 ⟨1, ["wc".toList], none, some "f".toList⟩ d.2 := by
  have hstd : StdOpen Proc.initial.fds := by
    intro fd hfd
    simp only [Proc.initial, if_pos (show fd < 3 by omega), ne_eq, reduceCtorEq, not_false_eq_true]
  obtain ⟨hlen, hruns⟩ := executePipeline_wiring Env.succeeding
    ⟨[⟨0, ["ls".toList], none, none⟩, ⟨1, ["wc".toList], none, some "f".toList⟩], true⟩ Proc.initial
    (by simp) rfl hstd (fun _ _ _ => rfl) fun _ _ _ => rfl
  obtain ⟨c, d, hcd⟩ := List.length_eq_two.1 hlen
  rw [hcd] at hruns
  obtain ⟨_, _, hc, hls⟩ := hruns 0 _ rfl
  obtain ⟨_, _, hd, hwc⟩ := hruns 1 _ rfl
  cases hc
  cases hd
  exact ⟨_, _, hcd, hls, hwc⟩

end OSLabs.Shell
