/-
  Failures of pipe and fork while a pipeline is run.

  The results of `pipe` are not checked, and a failed `fork` makes
  execute_pipeline return at once.  `AtomicWhen` tells for which patterns of
  failures the shell still gets its descriptors back and waits for its
  children: `failureAtomic_iff`.

  * `parentAt` is the parent after `j` iterations, while its forks succeed.
  * If the first pipe was made, the parent holds the ends of its last pipe at
    the two lowest free descriptors or at the next two, and `Held` tells which,
    and if they are still open.
  * If not, it closes what the uninitialized `pipe1` refers to.
-/
import OSLabs.Shell.Execute

namespace OSLabs.Shell

open Descriptors

variable {env : Env}

/-! ## The parent, while its forks succeed -/

/-- The parent after `j` iterations. -/
def parentAt (env : Env) (n : ℕ) (s : Locals × Proc) : ℕ → Locals × Proc
  | 0 => s
  | j + 1 =>
    let (l, p) := parentAt env n s j
    let (l, p) := rotatePipes env n (j + 1) l p
    (l.storePid (j + 1) ((env.fork (j + 1)).getD 0), closePipe0 (j + 1) l p)

section
variable {n m : ℕ} {apipe : Pipeline} (s : Locals × Proc)

theorem rotatePipes_childrenPids (env : Env) (n i : ℕ) (l : Locals) (p : Proc) :
    (rotatePipes env n i l p).1.childrenPids = l.childrenPids := rfl

/-- The pids of the children so far. -/
theorem parentAt_childrenPids {i : ℕ} (hi : i < m) :
    (parentAt env n s m).1.childrenPids i = (env.fork (i + 1)).getD 0 := by
  induction m with
  | zero => omega
  | succ m ih =>
    simp only [parentAt, Locals.storePid, rotatePipes_childrenPids, Nat.add_sub_cancel]
    by_cases him : i = m
    · rw [him, Function.update_self]
    · rw [Function.update_of_ne him, ih (by omega)]

/-- The first `m` iterations fork the first `m` children. -/
theorem executePipelineLoop_forks (hn : apipe.pipe.length = n) (hm : m ≤ n)
    (hfork : ∀ i, 1 ≤ i → i ≤ m → (env.fork i).isSome = true) :
    ∃ cs : List (ℕ × Run), cs.map Prod.fst = (List.range m).map (fun i => (env.fork (i + 1)).getD 0) ∧
      let rest := executePipelineLoop env n (n - m) (m + 1) (parentAt env n s m).1
        { apipe with pipe := apipe.pipe.drop m } (parentAt env n s m).2
      (executePipelineLoop env n n 1 s.1 apipe s.2).children = cs ++ rest.children ∧
      (executePipelineLoop env n n 1 s.1 apipe s.2).ending = rest.ending ∧
      (executePipelineLoop env n n 1 s.1 apipe s.2).proc = rest.proc := by
  induction m with
  | zero => exact ⟨[], rfl, rfl, rfl, rfl⟩
  | succ m ih =>
    obtain ⟨cs, hcs, hch, hend, hproc⟩ := ih (by omega) fun i h₁ h₂ => hfork i h₁ (by omega)
    obtain ⟨pid, hpid⟩ := Option.isSome_iff_exists.1 (hfork (m + 1) (by omega) le_rfl)
    have hdrop : apipe.pipe.drop m = apipe.pipe[m] :: apipe.pipe.drop (m + 1) :=
      List.drop_eq_getElem_cons (by omega)
    obtain ⟨e, -, hrun⟩ := executePipelineLoop_some env n (n - (m + 1)) (parentAt env n s m).1
      { apipe with pipe := apipe.pipe.drop m } (parentAt env n s m).2 hdrop hpid
    rw [show n - (m + 1) + 1 = n - m by omega] at hrun
    refine ⟨cs ++ [(pid, .done e.ending e.proc)], ?_, ?_, ?_, ?_⟩
    · simp [hcs, List.range_succ, hpid]
    · rw [hch, hrun, Run.children, List.append_assoc, parentAt, hpid]; rfl
    · rw [hend, hrun, Run.ending, parentAt, hpid]; rfl
    · rw [hproc, hrun, Run.proc, parentAt, hpid]; rfl

/-- All forks succeed. -/
theorem executePipelineLoop_succeeds (hn : apipe.pipe.length = n)
    (hfork : ∀ i, 1 ≤ i → i ≤ n → (env.fork i).isSome = true) :
    ∃ pids, (executePipelineLoop env n n 1 s.1 apipe s.2).children.map Prod.fst = pids ∧
      (executePipelineLoop env n n 1 s.1 apipe s.2).ending =
        .returned (if apipe.waiting then pids else []) ∧
      (executePipelineLoop env n n 1 s.1 apipe s.2).proc = (parentAt env n s n).2 := by
  obtain ⟨cs, hcs, hch, hend, hproc⟩ := executePipelineLoop_forks s hn le_rfl hfork
  rw [Nat.sub_self, executePipelineLoop_zero] at hch hend hproc
  refine ⟨_, rfl, ?_, hproc⟩
  have hpids : (List.range n).map (parentAt env n s n).1.childrenPids = cs.map Prod.fst := by
    rw [hcs]
    exact List.map_congr_left fun i hi => parentAt_childrenPids s (List.mem_range.1 hi)
  rw [hend, hch, Run.ending, hpids, Run.children, List.append_nil]

/-- The fork of the iteration `m + 1` is the first that fails. -/
theorem executePipelineLoop_fails (hn : apipe.pipe.length = n) (hm : m < n)
    (hfork : ∀ i, 1 ≤ i → i ≤ m → (env.fork i).isSome = true) (hf : env.fork (m + 1) = none) :
    (executePipelineLoop env n n 1 s.1 apipe s.2).children.length = m ∧
      (executePipelineLoop env n n 1 s.1 apipe s.2).ending = .returned [] ∧
      (executePipelineLoop env n n 1 s.1 apipe s.2).proc =
        (rotatePipes env n (m + 1) (parentAt env n s m).1 (parentAt env n s m).2).2 := by
  obtain ⟨cs, hcs, hch, hend, hproc⟩ := executePipelineLoop_forks s hn hm.le hfork
  have hdrop : apipe.pipe.drop m = apipe.pipe[m] :: apipe.pipe.drop (m + 1) :=
    List.drop_eq_getElem_cons (by omega)
  have hrun := executePipelineLoop_none env n (n - (m + 1)) (parentAt env n s m).1
    { apipe with pipe := apipe.pipe.drop m } (parentAt env n s m).2 hdrop hf
  rw [show n - (m + 1) + 1 = n - m by omega] at hrun
  rw [hrun] at hch hend hproc
  have hlen := congrArg List.length hcs
  rw [List.length_map, List.length_map, List.length_range] at hlen
  exact ⟨by rw [hch, Run.children, List.append_nil, hlen], hend, hproc⟩

end

/-! ## The pipes, if the first one is made -/

/-- Where the ends of the last pipe of the parent are: at the two lowest
    descriptors that were free at entry, or at the next two; and if they are
    still open or closed already. -/
inductive Held where
  | lowOpen | highOpen | lowClosed | highClosed
  deriving DecidableEq, Repr

namespace Held

/-- One iteration, whose pipe succeeds or not.  A new pipe at descriptors that
    are closed already is closed in place of the last one. -/
def step : Held → Bool → Held
  | lowOpen, true => highOpen
  | highOpen, true => lowOpen
  | lowOpen, false => lowClosed
  | highOpen, false => highClosed
  | lowClosed, _ => lowClosed
  | highClosed, true => lowOpen
  | highClosed, false => highClosed

def closed : Held → Bool
  | lowClosed => true
  | highClosed => true
  | _ => false

end Held

/-- The last pipe of the parent after the iteration `j + 1`. -/
def heldAfter (pipe : ℕ → Bool) : ℕ → Held
  | 0 => .lowOpen
  | j + 1 => (heldAfter pipe j).step (pipe (j + 2))

/-- The four lowest free descriptors. -/
structure FourFree (t : Table File) (a b c d : ℕ) : Prop where
  ab : a < b
  bc : b < c
  cd : c < d
  free : t.get a = none ∧ t.get b = none ∧ t.get c = none ∧ t.get d = none
  only : ∀ x < d, t.get x = none → x = a ∨ x = b ∨ x = c

theorem exists_fourFree (t : Table File) : ∃ a b c d, FourFree t a b c d := by
  set r := t.allocPair (.inherited 0) (.inherited 0) with hr
  obtain ⟨hab, ha, hb, hlt⟩ := Table.allocPair_spec (t := t) (.inherited 0) (.inherited 0)
  obtain ⟨hcd, hc, hd, hlt'⟩ := Table.allocPair_spec (t := r.2) (.inherited 0) (.inherited 0)
  rw [← hr] at hab ha hb hlt
  have hget : ∀ x, r.2.get x = _ := Table.get_allocPair _ _
  rw [← hr] at hget
  refine ⟨r.1.1, r.1.2, _, _, hab, ?_, hcd, ⟨ha, hb, ?_, ?_⟩, fun x hx hfree => ?_⟩
  · by_contra hle
    have := hget (r.2.allocPair (.inherited 0) (.inherited 0)).1.1
    grind
  · grind
  · grind
  · have := hlt' x hx
    grind

section
variable {t s : Table File} {a b c d id : ℕ}

theorem FourFree.low (h : FourFree t a b c d) (hs : ∀ x, s.get x = t.get x) :
    s.LowestPair a b := by
  obtain ⟨hab, hbc, hcd, ⟨ha, hb, -⟩, honly⟩ := h
  refine ⟨hab, by rw [hs, ha], by rw [hs, hb], fun x hx hxa hfree => ?_⟩
  have := honly x (by omega) (by rw [← hs, hfree])
  omega

theorem FourFree.low_of_high (h : FourFree t a b c d)
    (hs : ∀ x, s.get x = withPipe t.get id c d x) : s.LowestPair a b := by
  obtain ⟨hab, hbc, hcd, ⟨ha, hb, -⟩, honly⟩ := h
  have hlow : ∀ x < c, s.get x = t.get x := by
    intro x hx
    rw [hs, withPipe, if_neg (by omega), if_neg (by omega)]
  refine ⟨hab, by rw [hlow a (by omega), ha], by rw [hlow b (by omega), hb],
    fun x hx hxa hfree => ?_⟩
  have := honly x (by omega) (by rw [← hlow x (by omega), hfree])
  omega

theorem FourFree.high (h : FourFree t a b c d)
    (hs : ∀ x, s.get x = withPipe t.get id a b x) : s.LowestPair c d := by
  obtain ⟨hab, hbc, hcd, ⟨ha, hb, hc, hd⟩, honly⟩ := h
  have hother : ∀ x, x ≠ a → x ≠ b → s.get x = t.get x := by
    intro x hxa hxb
    rw [hs, withPipe, if_neg hxa, if_neg hxb]
  refine ⟨hcd, by rw [hother c (by omega) (by omega), hc], by rw [hother d (by omega) (by omega), hd],
    fun x hx hxc hfree => ?_⟩
  rcases eq_or_ne x a with rfl | hxa
  · rw [hs, withPipe, if_pos rfl] at hfree; cases hfree
  rcases eq_or_ne x b with rfl | hxb
  · rw [hs, withPipe, if_neg hxa, if_pos rfl] at hfree; cases hfree
  have := honly x hx (by rw [← hother x hxa hxb, hfree])
  omega

end

/-- The parent with the descriptors `t` at entry, whose last pipe is at `h`. -/
def HeldAt (t : Table File) (a b c d : ℕ) (h : Held) (l : Locals) (p : Proc) : Prop :=
  match h with
  | .lowOpen => l.pipe1 = (↑a, ↑b) ∧ ∃ id, ∀ x, p.fds.get x = withPipe t.get id a b x
  | .highOpen => l.pipe1 = (↑c, ↑d) ∧ ∃ id, ∀ x, p.fds.get x = withPipe t.get id c d x
  | .lowClosed => l.pipe1 = (↑a, ↑b) ∧ ∀ x, p.fds.get x = t.get x
  | .highClosed => l.pipe1 = (↑c, ↑d) ∧ ∀ x, p.fds.get x = t.get x

section
variable {t : Table File} {a b c d n j : ℕ} {h : Held} {l : Locals} {p : Proc}

/-- Closing the last pipe gives the descriptors at entry back. -/
theorem HeldAt.close (hF : FourFree t a b c d) (hh : HeldAt t a b c d h l p) (hj : 0 < j) (x : ℕ) :
    (closePipe0 (j + 1) (l.shift j) p).fds.get x = t.get x := by
  obtain ⟨-, -, -, ⟨ha, hb, hc, hd⟩, -⟩ := hF
  cases h with
  | lowOpen =>
    obtain ⟨hl, id, hget⟩ := hh
    rw [closePipe0_get ((l.shift_pipe0 hj).trans hl) hj, hget, withPipe]
    grind
  | highOpen =>
    obtain ⟨hl, id, hget⟩ := hh
    rw [closePipe0_get ((l.shift_pipe0 hj).trans hl) hj, hget, withPipe]
    grind
  | lowClosed =>
    obtain ⟨hl, hget⟩ := hh
    rw [closePipe0_get ((l.shift_pipe0 hj).trans hl) hj, hget]
    grind
  | highClosed =>
    obtain ⟨hl, hget⟩ := hh
    rw [closePipe0_get ((l.shift_pipe0 hj).trans hl) hj, hget]
    grind

/-- The pipe that an iteration makes is low or high. -/
theorem HeldAt.lowestPair (hF : FourFree t a b c d) (hh : HeldAt t a b c d h l p) :
    (h = .lowOpen → p.fds.LowestPair c d) ∧ (h ≠ .lowOpen → p.fds.LowestPair a b) := by
  cases h with
  | lowOpen => exact ⟨fun _ => hF.high hh.2.choose_spec, fun hne => absurd rfl hne⟩
  | highOpen => exact ⟨Held.noConfusion, fun _ => hF.low_of_high hh.2.choose_spec⟩
  | lowClosed => exact ⟨Held.noConfusion, fun _ => hF.low hh.2⟩
  | highClosed => exact ⟨Held.noConfusion, fun _ => hF.low hh.2⟩

/-- **One iteration moves the last pipe as `Held.step` says.** -/
theorem HeldAt.next (hF : FourFree t a b c d) (hh : HeldAt t a b c d h l p) (hj : 0 < j)
    (hn : j + 1 ≠ n) (i pid : ℕ) :
    HeldAt t a b c d (h.step (env.pipe (j + 1)))
      ((rotatePipes env n (j + 1) l p).1.storePid i pid)
      (closePipe0 (j + 1) (rotatePipes env n (j + 1) l p).1
        (rotatePipes env n (j + 1) l p).2) := by
  obtain ⟨hab, hbc, hcd, ⟨ha, hb, hc, hd⟩, -⟩ := id hF
  cases hpipe : env.pipe (j + 1) with
  | false =>
    rw [rotatePipes_false hn hpipe]
    have hclose := hh.close hF hj
    cases h <;> exact ⟨hh.1, hclose⟩
  | true =>
    obtain ⟨e, f, p', hrot, hef, -, hget⟩ := rotatePipes_true hn hpipe l p
    rw [hrot]
    have hpipe0 : ((l.shift j).setPipe1 (↑e, ↑f)).pipe0 = l.pipe1 := l.shift_pipe0 hj
    obtain ⟨hlow, hhigh⟩ := hh.lowestPair hF
    cases h with
    | lowOpen =>
      obtain ⟨rfl, rfl⟩ := hef.eq (hlow rfl)
      obtain ⟨hl, id, hp⟩ := hh
      refine ⟨rfl, p.nextPipe, fun x => ?_⟩
      rw [closePipe0_get (hpipe0.trans hl) hj, hget, withPipe, withPipe, hp, withPipe]
      grind
    | highOpen =>
      obtain ⟨rfl, rfl⟩ := hef.eq (hhigh Held.noConfusion)
      obtain ⟨hl, id, hp⟩ := hh
      refine ⟨rfl, p.nextPipe, fun x => ?_⟩
      rw [closePipe0_get (hpipe0.trans hl) hj, hget, withPipe, withPipe, hp, withPipe]
      grind
    | lowClosed =>
      obtain ⟨rfl, rfl⟩ := hef.eq (hhigh Held.noConfusion)
      obtain ⟨hl, hp⟩ := hh
      refine ⟨rfl, fun x => ?_⟩
      rw [closePipe0_get (hpipe0.trans hl) hj, hget, withPipe, hp]
      grind
    | highClosed =>
      obtain ⟨rfl, rfl⟩ := hef.eq (hhigh Held.noConfusion)
      obtain ⟨hl, hp⟩ := hh
      refine ⟨rfl, p.nextPipe, fun x => ?_⟩
      rw [closePipe0_get (hpipe0.trans hl) hj, hget, withPipe, withPipe, hp]
      grind

end

/-- The last pipe of the parent after `j + 1` iterations. -/
theorem parentAt_held {t : Table File} {a b c d n j : ℕ} {s : Locals × Proc}
    (hF : FourFree t a b c d) (hs : ∀ x, s.2.fds.get x = t.get x) (hpipe : env.pipe 1 = true)
    (hj : j + 1 < n) :
    HeldAt t a b c d (heldAfter env.pipe j) (parentAt env n s (j + 1)).1
      (parentAt env n s (j + 1)).2 := by
  induction j with
  | zero =>
    obtain ⟨e, f, p', hrot, hef, -, hget⟩ := rotatePipes_true (j := 0) hj.ne hpipe s.1 s.2
    obtain ⟨rfl, rfl⟩ := hef.eq (hF.low hs)
    have hat : parentAt env n s 1 =
        (((s.1.shift 0).setPipe1 (↑e, ↑f)).storePid 1 ((env.fork 1).getD 0), p') := by
      simp only [parentAt, hrot]; rfl
    rw [hat]
    exact ⟨rfl, s.2.nextPipe, fun x => by rw [hget, withPipe, withPipe, hs]⟩
  | succ j ih => exact (ih (by omega)).next hF (Nat.succ_pos j) hj.ne (j + 1 + 1) _

/-! ## The pipes, if the first one is not made -/

/-- The descriptor `d` refers to nothing, or to a pipe from the `base`-th on. -/
def Lost (base d : ℕ) (p : Proc) : Prop :=
  base ≤ p.nextPipe ∧ ∀ f, p.fds.get d = some f → ¬ f.OlderThan base

section
variable {base d n j : ℕ} {l : Locals} {p : Proc}

theorem Lost.rotatePipes (h : Lost base d p) (env : Env) (n j : ℕ) (l : Locals) :
    Lost base d (rotatePipes env n (j + 1) l p).2 := by
  by_cases hn : j + 1 = n
  · rw [← hn, rotatePipes_last]; exact h
  cases hpipe : env.pipe (j + 1) with
  | false => rw [rotatePipes_false hn hpipe]; exact h
  | true =>
    obtain ⟨a, b, p', hrot, -, hnext, hget⟩ := rotatePipes_true hn hpipe l p
    rw [hrot]
    refine ⟨h.1.trans (hnext ▸ Nat.le_succ _), fun f hf => ?_⟩
    rw [hget, withPipe] at hf
    split_ifs at hf with ha hb
    · cases hf; exact Nat.not_lt.2 h.1
    · cases hf; exact Nat.not_lt.2 h.1
    · exact h.2 f hf

theorem Lost.closePipe0 (h : Lost base d p) (i : ℕ) (l : Locals) :
    Lost base d (closePipe0 i l p) := by
  have hclose : ∀ {p : Proc}, Lost base d p → ∀ fd, Lost base d (p.close fd) := by
    intro p h fd
    refine ⟨h.1, fun f hf => ?_⟩
    rw [Proc.close_fds, Table.get_close] at hf
    split_ifs at hf with hd
    exact h.2 f hf
  unfold OSLabs.Shell.closePipe0
  split_ifs
  · exact hclose (hclose h _) _
  · exact h

theorem Lost.ne {t : Table File} {f : File} (h : Lost base d p) (hf : t.get d = some f)
    (hold : f.OlderThan base) : p.fds.get d ≠ t.get d := by
  intro heq
  exact h.2 f (heq.trans hf) hold

theorem rotatePipes_nextPipe (env : Env) (n j : ℕ) (l : Locals) (p : Proc) :
    p.nextPipe ≤ (rotatePipes env n (j + 1) l p).2.nextPipe := by
  by_cases hn : j + 1 = n
  · rw [← hn, rotatePipes_last]
  cases hpipe : env.pipe (j + 1) with
  | false => rw [rotatePipes_false hn hpipe]
  | true =>
    obtain ⟨a, b, p', hrot, -, hnext, -⟩ := rotatePipes_true hn hpipe l p
    rw [hrot, hnext]; omega

theorem parentAt_nextPipe (env : Env) (n : ℕ) (s : Locals × Proc) (j : ℕ) :
    s.2.nextPipe ≤ (parentAt env n s j).2.nextPipe := by
  induction j with
  | zero => exact le_rfl
  | succ j ih =>
    simp only [parentAt, closePipe0_nextPipe]
    exact ih.trans (rotatePipes_nextPipe ..)

/-- The second iteration closes the descriptor `d` that the uninitialized
    `pipe1` refers to, and it stays lost. -/
theorem parentAt_lost {s : Locals × Proc} (hpipe : env.pipe 1 = false) (hn : 1 ≠ n)
    (hd : s.1.pipe1 = (↑d, ↑d)) (hj : 2 ≤ j) :
    Lost s.2.nextPipe d (parentAt env n s j).2 := by
  induction j, hj using Nat.le_induction with
  | base =>
    have hat : parentAt env n s 1 = ((s.1.shift 0).storePid 1 ((env.fork 1).getD 0), s.2) := by
      simp only [parentAt, rotatePipes_false (j := 0) hn hpipe]; rfl
    have hpipe0 : (rotatePipes env n (1 + 1) (parentAt env n s 1).1
        (parentAt env n s 1).2).1.pipe0 = (↑d, ↑d) := by
      rw [hat]; simpa [rotatePipes] using hd
    refine ⟨parentAt_nextPipe .., fun f hf => ?_⟩
    · have : (parentAt env n s 2).2.fds.get d = none := by
        have := closePipe0_get (j := 1) hpipe0 Nat.one_pos (rotatePipes env n (1 + 1)
          (parentAt env n s 1).1 (parentAt env n s 1).2).2 d
        rwa [if_pos (Or.inl rfl)] at this
      rw [this] at hf; cases hf
  | succ j hj ih => exact (ih.rotatePipes env n j _).closePipe0 (j + 1) _

end

/-! ## When the descriptors are back -/

/-- The first iteration of `n` whose fork fails. -/
def firstFailedFork (fork : ℕ → Option ℕ) (n : ℕ) : Option ℕ :=
  (List.range' 1 n).find? fun i => (fork i).isNone

theorem firstFailedFork_none {fork : ℕ → Option ℕ} {n : ℕ} (h : firstFailedFork fork n = none) :
    ∀ i, 1 ≤ i → i ≤ n → (fork i).isSome = true := by
  intro i h₁ h₂
  have := List.find?_range'_eq_none.1 h i h₁ (by omega)
  simpa using this

theorem firstFailedFork_some {fork : ℕ → Option ℕ} {n f : ℕ} (h : firstFailedFork fork n = some f) :
    (1 ≤ f ∧ f ≤ n) ∧ fork f = none ∧ ∀ i, 1 ≤ i → i < f → (fork i).isSome = true := by
  obtain ⟨h₁, h₂, h₃⟩ := List.find?_range'_eq_some.1 h
  rw [List.mem_range'_1] at h₂
  exact ⟨by omega, by simpa using h₁, fun i hi hif => by simpa using h₃ i hi hif⟩

/-- The failures after which the parent of `n` commands has its descriptors
    back, for `n` from 2 on.

    If no fork fails, the first pipe must be made.  If the fork of the
    iteration `f` is the first that fails, this iteration must not make a pipe,
    and the one before must leave none open: if the first pipe was made this is
    what `Held` tells, and if not, only the second fork can fail in time. -/
def DescriptorsBack (pipe : ℕ → Bool) (fork : ℕ → Option ℕ) (n : ℕ) : Prop :=
  match firstFailedFork fork n with
  | none => pipe 1 = true
  | some f => (f = n ∨ pipe f = false) ∧
      (f = 1 ∨ if pipe 1 then (heldAfter pipe (f - 2)).closed = true else f = 2)

/-- The parent when execute_pipeline returns. -/
def finalProc (env : Env) (n : ℕ) (s : Locals × Proc) : Proc :=
  match firstFailedFork env.fork n with
  | none => (parentAt env n s n).2
  | some f => (rotatePipes env n f (parentAt env n s (f - 1)).1 (parentAt env n s (f - 1)).2).2

section
variable {t : Table File} {n : ℕ} {s : Locals × Proc}

/-- A descriptor that was free at entry is open. -/
def Leaks (t : Table File) (p : Proc) : Prop := ∃ x, t.get x = none ∧ p.fds.get x ≠ none

theorem Leaks.rotatePipes {p : Proc} (h : Leaks t p) (env : Env) (n j : ℕ) (l : Locals) :
    Leaks t (rotatePipes env n (j + 1) l p).2 := by
  obtain ⟨x, hx, hp⟩ := h
  refine ⟨x, hx, ?_⟩
  by_cases hn : j + 1 = n
  · rw [← hn, rotatePipes_last]; exact hp
  cases hpipe : env.pipe (j + 1) with
  | false => rw [rotatePipes_false hn hpipe]; exact hp
  | true =>
    obtain ⟨a, b, p', hrot, -, -, hget⟩ := rotatePipes_true hn hpipe l p
    rw [hrot, hget, withPipe]
    split_ifs <;> simp [hp]

/-- An iteration that makes a pipe leaks it if its fork fails. -/
theorem leaks_of_pipe {j : ℕ} {p : Proc} (hp : ∀ x, p.fds.get x = t.get x) (hn : j + 1 ≠ n)
    (hpipe : env.pipe (j + 1) = true) (l : Locals) :
    Leaks t (rotatePipes env n (j + 1) l p).2 := by
  obtain ⟨a, b, p', hrot, ⟨-, ha, -⟩, -, hget⟩ := rotatePipes_true hn hpipe l p
  rw [hrot]
  refine ⟨a, by rw [← hp, ha], ?_⟩
  rw [hget, withPipe, if_pos rfl]; simp

/-- The iteration makes no pipe. -/
theorem rotatePipes_same {j : ℕ} (h : j + 1 = n ∨ env.pipe (j + 1) = false) (l : Locals)
    (p : Proc) : (rotatePipes env n (j + 1) l p).2 = p := by
  by_cases hn : j + 1 = n
  · rw [← hn, rotatePipes_last]
  · rw [rotatePipes_false hn (h.resolve_left hn)]

theorem HeldAt.closed_iff {a b c d : ℕ} {h : Held} {l : Locals} {p : Proc}
    (hF : FourFree t a b c d) (hh : HeldAt t a b c d h l p) :
    (h.closed = true → ∀ x, p.fds.get x = t.get x) ∧ (h.closed = false → Leaks t p) := by
  obtain ⟨-, -, -, ⟨ha, -, hc, -⟩, -⟩ := hF
  cases h with
  | lowOpen =>
    obtain ⟨-, id, hget⟩ := hh
    exact ⟨Bool.noConfusion, fun _ => ⟨a, ha, by rw [hget, withPipe, if_pos rfl]; simp⟩⟩
  | highOpen =>
    obtain ⟨-, id, hget⟩ := hh
    exact ⟨Bool.noConfusion, fun _ => ⟨c, hc, by rw [hget, withPipe, if_pos rfl]; simp⟩⟩
  | lowClosed => exact ⟨fun _ => hh.2, Bool.noConfusion⟩
  | highClosed => exact ⟨fun _ => hh.2, Bool.noConfusion⟩

/-- The parent after the first iteration, if the first pipe fails. -/
theorem parentAt_one (hpipe : env.pipe 1 = false) (hn : 1 ≠ n) :
    (parentAt env n s 1).2 = s.2 := by
  simp only [parentAt, rotatePipes_false (j := 0) hn hpipe]; rfl

/-- **The descriptors are back after such failures.** -/
theorem finalProc_back (hs : ∀ x, s.2.fds.get x = t.get x) (hn : 2 ≤ n)
    (h : DescriptorsBack env.pipe env.fork n) (x : ℕ) : (finalProc env n s).fds.get x = t.get x := by
  obtain ⟨a, b, c, d, hF⟩ := exists_fourFree t
  unfold DescriptorsBack at h
  unfold finalProc
  cases hfirst : firstFailedFork env.fork n with
  | none =>
    rw [hfirst] at h
    obtain ⟨m, rfl⟩ : ∃ m, n = m + 1 + 1 := ⟨n - 2, by omega⟩
    have hheld := parentAt_held (n := m + 1 + 1) (j := m) hF hs h (by omega)
    simp only [parentAt, rotatePipes_last]
    exact hheld.close hF (Nat.succ_pos m) x
  | some f =>
    rw [hfirst] at h
    obtain ⟨hlast, hbefore⟩ := h
    obtain ⟨⟨hf₁, hfn⟩, -, -⟩ := firstFailedFork_some hfirst
    obtain ⟨m, rfl⟩ : ∃ m, f = m + 1 := ⟨f - 1, by omega⟩
    simp only [Nat.add_sub_cancel, rotatePipes_same hlast]
    cases m with
    | zero => exact hs x
    | succ m =>
      have hbefore := hbefore.resolve_left (by omega)
      cases hpipe : env.pipe 1 with
      | true =>
        have hheld := parentAt_held (n := n) (j := m) hF hs hpipe (by omega)
        rw [hpipe] at hbefore
        exact (hheld.closed_iff hF).1 hbefore x
      | false =>
        rw [hpipe] at hbefore
        obtain rfl : m = 0 := by simpa using hbefore
        rw [parentAt_one hpipe (by omega)]
        exact hs x

/-- A single command makes no pipe. -/
theorem finalProc_one : finalProc env 1 s = s.2 := by
  unfold finalProc
  cases hfirst : firstFailedFork env.fork 1 with
  | none => simp only [parentAt, rotatePipes_last (j := 0)]; rfl
  | some f =>
    obtain ⟨⟨hf₁, hf₂⟩, -, -⟩ := firstFailedFork_some hfirst
    obtain rfl : f = 0 + 1 := by omega
    simp only [rotatePipes_last, Nat.add_sub_cancel, parentAt]

/-- **They are not after others**, for some contents of `pipe1`. -/
theorem finalProc_lost (env : Env) (s : Locals × Proc) {d : ℕ} (hs : ∀ x, s.2.fds.get x = t.get x) (hn : 2 ≤ n)
    (hd : t.get d ≠ none) (hpipe1 : s.1.pipe1 = (↑d, ↑d))
    (h : ¬ DescriptorsBack env.pipe env.fork n) :
    ∃ x, (finalProc env n s).fds.get x ≠ t.get x := by
  obtain ⟨g, hg⟩ := Option.ne_none_iff_exists'.1 hd
  have hold : g.OlderThan s.2.nextPipe := s.2.older d g (by rw [hs, hg])
  have hleak : ∀ {p : Proc}, Leaks t p → ∃ x, p.fds.get x ≠ t.get x :=
    fun ⟨x, hx, hp⟩ => ⟨x, by rwa [hx]⟩
  obtain ⟨a, b, c, e, hF⟩ := exists_fourFree t
  unfold DescriptorsBack at h
  unfold finalProc
  cases hfirst : firstFailedFork env.fork n with
  | none =>
    rw [hfirst] at h
    exact ⟨d, (parentAt_lost (by simpa using h) (by omega) hpipe1 hn).ne hg hold⟩
  | some f =>
    rw [hfirst] at h
    obtain ⟨⟨hf₁, hfn⟩, -, -⟩ := firstFailedFork_some hfirst
    obtain ⟨m, rfl⟩ : ∃ m, f = m + 1 := ⟨f - 1, by omega⟩
    simp only [Nat.add_sub_cancel] at h ⊢
    cases m with
    | zero =>
      have hpipe : env.pipe 1 = true := by
        by_contra hp
        exact h ⟨Or.inr (by simpa using hp), Or.inl rfl⟩
      exact hleak (leaks_of_pipe hs (by omega) hpipe _)
    | succ m =>
      cases hpipe : env.pipe 1 with
      | true =>
        have hheld := parentAt_held (n := n) (j := m) hF hs hpipe (by omega)
        cases hc : (heldAfter env.pipe m).closed with
        | false => exact hleak (((hheld.closed_iff hF).2 hc).rotatePipes env n (m + 1) _)
        | true =>
          have hnot : ¬ (m + 1 + 1 = n ∨ env.pipe (m + 1 + 1) = false) := fun hl =>
            h ⟨hl, Or.inr (by rw [hpipe]; exact hc)⟩
          rw [not_or] at hnot
          exact hleak (leaks_of_pipe ((hheld.closed_iff hF).1 hc) hnot.1 (by simpa using hnot.2) _)
      | false =>
        cases m with
        | zero =>
          have hnot : ¬ (0 + 1 + 1 = n ∨ env.pipe (0 + 1 + 1) = false) := fun hl =>
            h ⟨hl, Or.inr (by rw [hpipe]; rfl)⟩
          rw [not_or] at hnot
          refine hleak (leaks_of_pipe (fun x => ?_) hnot.1 (by simpa using hnot.2) _)
          rw [parentAt_one hpipe (by omega), hs]
        | succ m =>
          have hlost := parentAt_lost (n := n) (j := m + 1 + 1) hpipe (by omega) hpipe1 (by omega)
          exact ⟨d, (hlost.rotatePipes env n (m + 1 + 1) _).ne hg hold⟩

end

/-! ## execute_pipeline -/

/-- If execute_pipeline returns, the descriptors are those at entry, and all
    children of a foreground pipeline have been waited for. -/
def ReturnsAtomically (env : Env) (apipe : Pipeline) (p : Proc) : Prop :=
  ∀ waited, (executePipeline env (some apipe) p).ending = .returned waited →
    (∀ x, (executePipeline env (some apipe) p).proc.fds.get x = p.fds.get x) ∧
    (apipe.waiting = true → ∀ c ∈ (executePipeline env (some apipe) p).children, c.1 ∈ waited)

/-- execute_pipeline is atomic, whatever the uninitialized `pipe1` contains. -/
def FailureAtomic (env : Env) (apipe : Pipeline) (p : Proc) : Prop :=
  ∀ garbage, ReturnsAtomically { env with garbage := garbage } apipe p

/-- The failures after which a pipeline of `n` commands has had no effect on
    the parent: there is one command only; or a foreground pipeline forks no
    child or all, and the descriptors are back. -/
def AtomicWhen (pipe : ℕ → Bool) (fork : ℕ → Option ℕ) (waiting : Bool) (n : ℕ) : Prop :=
  n ≤ 1 ∨ (waiting = true → ∀ f ∈ firstFailedFork fork n, f = 1) ∧ DescriptorsBack pipe fork n

section
variable {apipe : Pipeline} {p : Proc}

/-- The locals and the parent before the loop. -/
def startOf (env : Env) (apipe : Pipeline) (p : Proc) : Locals × Proc :=
  (⟨env.garbage, env.garbage, fun _ => 0⟩, p.started apipe.waiting)

/-- How the loop returns. -/
theorem executePipeline_returns (env : Env) (p : Proc)
    (hb : builtinAlone (some apipe) = .ok false) :
    ∃ waited, (executePipeline env (some apipe) p).ending = .returned waited ∧
      (executePipeline env (some apipe) p).proc =
        finalProc env apipe.pipe.length (startOf env apipe p) ∧
      (apipe.waiting = true → ((∀ c ∈ (executePipeline env (some apipe) p).children, c.1 ∈ waited) ↔
        ∀ f ∈ firstFailedFork env.fork apipe.pipe.length, f = 1)) := by
  rw [executePipeline_loop hb, Run.started_ending, Run.started_proc, Run.started_children]
  have hn : apipe.pipe.length = apipe.pipe.length := rfl
  cases hfirst : firstFailedFork env.fork apipe.pipe.length with
  | none =>
    obtain ⟨pids, hch, hend, hproc⟩ := executePipelineLoop_succeeds (startOf env apipe p) hn
      (firstFailedFork_none hfirst)
    refine ⟨_, hend, by rw [finalProc, hfirst]; exact hproc, fun hw => ?_⟩
    refine ⟨fun _ f hf => absurd hf (Option.not_mem_none f), fun _ c hc => ?_⟩
    rw [hw, if_pos rfl, ← hch]
    exact List.mem_map_of_mem hc
  | some f =>
    obtain ⟨⟨hf₁, hfn⟩, hf, hbefore⟩ := firstFailedFork_some hfirst
    obtain ⟨m, rfl⟩ : ∃ m, f = m + 1 := ⟨f - 1, by omega⟩
    obtain ⟨hch, hend, hproc⟩ := executePipelineLoop_fails (m := m) (startOf env apipe p) hn
      (by omega) (fun i h₁ h₂ => hbefore i h₁ (by omega)) hf
    refine ⟨[], hend, by rw [finalProc, hfirst]; exact hproc, fun _ => ?_⟩
    -- nothing has been waited for, so there must be no child
    simp only [List.not_mem_nil, imp_false]
    rw [← List.eq_nil_iff_forall_not_mem, ← List.length_eq_zero_iff]
    constructor
    · rintro hzero f' ⟨⟩
      exact congrArg (· + 1) (hch.symm.trans hzero)
    · intro hone
      exact hch.trans (Nat.succ_injective (hone (m + 1) rfl))

/-- A lone builtin changes no descriptor and forks no child. -/
theorem returnsAtomically_builtin (hb : builtinAlone (some apipe) = .ok true) {sc : Scommand}
    (hp : apipe.pipe = [sc]) : ReturnsAtomically env apipe p := by
  intro waited h
  rw [executePipeline_alone hp hb] at h ⊢
  rcases builtinRun_cases env (some sc) p with ⟨p', hp', hfds, -⟩ | ⟨e, he, hend⟩
  · rw [hp']
    exact ⟨fun x => by rw [Run.after_ok, Run.proc, hfds], by simp [Run.children]⟩
  · rw [he] at h
    exact absurd h (hend waited)

/-- The descriptors of the loop's parent are those of the process. -/
theorem startOf_get (env : Env) (x : ℕ) :
    (startOf env apipe p).2.fds.get x = p.fds.get x := by
  rw [startOf, Proc.started_fds]

/-- execute_pipeline is atomic after the failures that `AtomicWhen` allows. -/
theorem returnsAtomically_of (env : Env)
    (h : AtomicWhen env.pipe env.fork apipe.waiting apipe.pipe.length) :
    ReturnsAtomically env apipe p := by
  by_cases hone : apipe.pipe.length = 1
  · -- a lone command; it may be a builtin
    obtain ⟨sc, hp⟩ := List.length_eq_one_iff.1 hone
    cases hb : builtinAlone (some apipe) with
    | error f =>
      intro waited hend
      rw [executePipeline_fault hb] at hend
      cases hend
    | ok b =>
      cases b with
      | true => exact returnsAtomically_builtin hb hp
      | false =>
        obtain ⟨waited, hend, hproc, hwait⟩ := executePipeline_returns env p hb
        intro waited' hend'
        obtain rfl : waited = waited' := by
          rw [hend] at hend'; exact Ending.returned.inj hend'
        refine ⟨fun x => ?_, fun hw => (hwait hw).2 fun f hf => ?_⟩
        · rw [hproc, hone, finalProc_one]; exact startOf_get env x
        · obtain ⟨⟨hf₁, hf₂⟩, -, -⟩ := firstFailedFork_some (Option.mem_def.1 hf)
          omega
  have hb := builtinAlone_length hone
  obtain ⟨waited, hend, hproc, hwait⟩ := executePipeline_returns env p hb
  intro waited' hend'
  obtain rfl : waited = waited' := by
    rw [hend] at hend'; exact Ending.returned.inj hend'
  rcases Nat.lt_or_ge apipe.pipe.length 2 with hlt | hge
  · -- no command at all
    have hzero : apipe.pipe.length = 0 := by omega
    refine ⟨fun x => ?_, fun hw => (hwait hw).2 fun f hf => ?_⟩
    · rw [hproc, hzero]; exact startOf_get env x
    · obtain ⟨⟨hf₁, hf₂⟩, -, -⟩ := firstFailedFork_some (Option.mem_def.1 hf)
      omega
  · obtain ⟨hforks, hback⟩ := h.resolve_left (by omega)
    exact ⟨fun x => by rw [hproc]; exact finalProc_back (startOf_get env) hge hback x,
      fun hw => (hwait hw).2 (hforks hw)⟩

/-- **execute_pipeline is atomic exactly after the failures that `AtomicWhen`
    allows**, in a process with an open descriptor. -/
theorem failureAtomic_iff (env : Env) (apipe : Pipeline) (p : Proc)
    (hopen : ∃ fd, p.fds.get fd ≠ none) :
    FailureAtomic env apipe p ↔
      AtomicWhen env.pipe env.fork apipe.waiting apipe.pipe.length := by
  constructor
  · intro h
    by_contra hnot
    rw [AtomicWhen, not_or, not_and_or] at hnot
    obtain ⟨hn, hnot⟩ := hnot
    have hb := builtinAlone_length (p := apipe) (by omega)
    obtain ⟨fd, hfd⟩ := hopen
    -- the uninitialized `pipe1` refers to the open descriptor
    set env' : Env := { env with garbage := (↑fd, ↑fd) }
    obtain ⟨waited, hend, hproc, hwait⟩ := executePipeline_returns env' p hb
    obtain ⟨hget, hw⟩ := h (↑fd, ↑fd) waited hend
    rcases hnot with hforks | hback
    · refine hforks fun hwaiting => ?_
      exact (hwait hwaiting).1 (hw hwaiting)
    · obtain ⟨x, hx⟩ := finalProc_lost env' (startOf env' apipe p) (startOf_get env')
        (by omega) hfd rfl hback
      rw [← hproc] at hx
      exact hx (hget x)
  · intro h garbage
    exact returnsAtomically_of { env with garbage := garbage } h

/-- The pipeline `a | b | c &` in a new shell whose second pipe and third fork fail: the
    first pipe has been closed by then. -/
theorem failureAtomic_failing : FailureAtomic
    { Env.succeeding with
      pipe := fun i => i != 2, fork := fun i => if i = 3 then none else some i }
    ⟨[⟨0, ["a".toList], none, none⟩, ⟨1, ["b".toList], none, none⟩, ⟨2, ["c".toList], none, none⟩],
      false⟩ Proc.initial := by
  refine (failureAtomic_iff _ _ _ ⟨0, by simp [Proc.initial]⟩).2 (.inr ⟨Bool.noConfusion, ?_⟩)
  exact ⟨.inl rfl, .inr rfl⟩

/-- The pipeline `ls | wc` whose second fork fails: the first child is not
    waited for. -/
theorem not_failureAtomic_fork : ¬ FailureAtomic
    { Env.succeeding with fork := fun i => if i = 2 then none else some i }
    ⟨[⟨0, ["ls".toList], none, none⟩, ⟨1, ["wc".toList], none, none⟩], true⟩ Proc.initial := by
  intro h
  obtain ⟨-, hwait⟩ := h (0, 0) [] rfl
  have hmem := hwait rfl (1, _) (List.mem_cons_self ..)
  cases hmem

end

end OSLabs.Shell
