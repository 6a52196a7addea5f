/-
  The runs of the machine.

  Each state that the machine reaches is one that the monitor reaches
  (`refines_of_reach`), so what holds of all runs of a monitor holds of its code on the
  machine.

  * sched does not panic in sleep and yield, and no CPUs wait for each other in a
    cycle (`locks_of_reach`).
  * A process is SLEEPING only while it sleeps in the monitor, if the lock of the
    monitor is free (`Run.sleeping`).  So no wakeup is lost: `pipe_sleepers` and
    `begin_op_sleepers` are for the pipes and the log.
-/
import OSLabs.Kernel.SleepRefines
import OSLabs.Kernel.PipeStream
import OSLabs.Kernel.LogControl

namespace OSLabs.Sleep

open LockMachine

section
variable {n : ℕ} {S K P C : Type} [DecidableEq K] [DecidableEq C] {B : Client n S K P}
  {t : Fin n} {q q' : Point B} {m : Mem n S K} {l : Lock n} {k : K}
  {α α' : MState n S K P} {φ : SState B C} {init : MState n S K P → Prop}
  {ok : MState n S K P → Fin n → Prop} {okF : SState B C → Fin n → Prop}

/-- The machine, when the monitor starts. -/
def Booted (init : MState n S K P → Prop) (φ : SState B C) : Prop := ∃ α, init α ∧ Boots α φ

/-! ## Running -/

/-- The next instruction of a process, when `f` is that of the monitor. -/
def pick (f : Fin n → P → S → Bool → Option (Monitor.Instr S K P)) (t : Fin n) (q : Point B)
    (m : Mem n S K) : Option (SInstr B) :=
  match q with
  | .place (.client q) =>
    match f t q m.shared (m.killed t) with
    | some (.acquire q') => some (.acquire .mon (.place (.client q')))
    | some (.release q') => some (.release .mon (.place (.client q')))
    | some (.run s q') => some (.run (m.setShared s) (.place (.client q')))
    | some (.sleep k q') =>
      if h : B.held q' = true then some (.acquire (.proc t) (.sleepRelease k q' h)) else none
    | some (.wakeup k q') =>
      if h : B.held q' = true then some (.run m (.wakeup k q' h 0)) else none
    | none => none
  | q => exec t q m

theorem pick_does {f : Fin n → P → S → Bool → Option (Monitor.Instr S K P)}
    (hf : ∀ t q s b i, f t q s b = some i → B.code.instr t q s b i) {i : SInstr B}
    (h : pick f t q m = some i) : Does t q m i := by
  unfold pick at h
  split at h
  · split at h
    · rename_i hi; cases h; exact .acquire (hf _ _ _ _ _ hi)
    · rename_i hi; cases h; exact .release (hf _ _ _ _ _ hi)
    · rename_i hi; cases h; exact .run (hf _ _ _ _ _ hi)
    · rename_i hi
      split_ifs at h with hq
      cases h; exact .sleep (hf _ _ _ _ _ hi)
    · rename_i hi
      split_ifs at h with hq
      cases h; exact .wakeup (hf _ _ _ _ _ hi)
    · cases h
  · exact .code h

/-- The machine at its start; the scheduler of a CPU looks at `cpus c` first. -/
def boot (α : MState n S K P) (h : ∀ t, B.held (α.pc t) = false) (cpus : C → Fin n) :
    SState B C where
  mem := ⟨α.mem, fun _ => .runnable, fun _ => none, α.killed, fun _ => 0⟩
  pc t := .forkret (α.pc t) (h t)
  owner _ := none
  ctx c := .acquiring (cpus c)
  noff _ := 0
  intr _ := false

omit [DecidableEq C] in
theorem boot_boots {h : ∀ t, B.held (α.pc t) = false} {cpus : C → Fin n} :
    Boots α (boot (B := B) α h cpus) :=
  ⟨rfl, rfl, fun _ => rfl, fun t => ⟨h t, rfl⟩, fun _ => rfl, fun _ => rfl, fun c => ⟨cpus c, rfl⟩⟩

/-- What the CPUs run into from the start. -/
theorem reach_ticks {f : Fin n → P → S → Bool → Option (Monitor.Instr S K P)}
    (hf : ∀ t q s b i, f t q s b = some i → B.code.instr t q s b i) (hα : init α)
    {h : ∀ t, B.held (α.pc t) = false} {cpus : C → Fin n} {okb : SState B C → Fin n → Bool}
    (hok : ∀ φ t, okb φ t = true → okF φ t) {cs : List C} {β : Type} {g : SState B C → β} {b : β}
    (hp : (ticks (code B) (pick f) okb cs (boot α h cpus)).map g = some b) :
    ∃ φ, Reach (code B) (Booted init) okF φ ∧ g φ = b := by
  obtain ⟨φ, hφ, hg⟩ := Option.map_eq_some_iff.1 hp
  exact ⟨φ, ticks_reach hok (fun _ _ _ _ hi => pick_does hf hi)
    (.init ⟨α, hα, boot_boots⟩) hφ, hg⟩

end

/-! ## Pipes and the log -/

section
variable {n : ℕ}

/-- The code of a pipe. -/
def pipe (n : ℕ) : Client n (Pipe.Mem (Fin n)) Pipe.Chan Pipe.Point where
  code := Pipe.code
  disc := Pipe.discipline
  wakes h := by cases Pipe.Does.wakes h <;> rfl

/-- The code of the log. -/
def log (L : Log.Layout) (n : ℕ) : Client n (Log.Mem (Fin n)) Unit Log.Point where
  code := Log.code L
  disc := Log.discipline L
  wakes h := by cases Log.Does.wakes h <;> rfl

/-- A process forks the child `c`, which reads a byte that the process writes. -/
def talk (c t : Fin n) (q : Pipe.Point) (m : Pipe.Mem (Fin n)) (k : Bool) :
    Option (Pipe.PInstr (Fin n)) :=
  Pipe.pick (if t = c then .read (fun _ => true) 1
    else if m.fds c false = 0 then .fork c else .write (fun _ => some 7) 1) t q m k

theorem talk_does {c t : Fin n} {q : Pipe.Point} {m : Pipe.Mem (Fin n)} {k : Bool}
    {i : Pipe.PInstr (Fin n)} (h : talk c t q m k = some i) : Pipe.Does t q m k i :=
  Pipe.pick_does h

/-- All processes begin an operation. -/
def begins (L : Log.Layout) (t : Fin n) (q : Log.Point) (m : Log.Mem (Fin n)) (k : Bool) :
    Option (Log.LInstr (Fin n)) := Log.pick L .begin t q m k

end

/-! ## All runs -/

section
variable {n : ℕ} {S K P C : Type} [DecidableEq K] [DecidableEq C] {B : Client n S K P}
  {t : Fin n} {q q' : Point B} {m : Mem n S K} {l : Lock n} {k : K}
  {α α' : MState n S K P} {φ : SState B C} {init : MState n S K P → Prop}
  {ok : MState n S K P → Fin n → Prop} {okF : SState B C → Fin n → Prop}

/-- The state `φ` of the machine, in a run of the monitor. -/
structure Run (B : Client n S K P) (init : MState n S K P → Prop)
    (ok : MState n S K P → Fin n → Prop) (φ : SState B C) (α : MState n S K P) : Prop where
  reach : Monitor.Reach B.code init ok α
  refines : Refines φ α
  locks : (discipline B).Inv φ
  table : Table φ

theorem Follows.reach {a : Option (Fin n)} (hr : Monitor.Reach B.code init ok α)
    (h : Follows B α a α') (hok : ∀ t, a = some t → ok α t) : Monitor.Reach B.code init ok α' := by
  rcases h with rfl | ⟨b, hs, hb⟩
  · exact hr
  · exact .step hr hs fun t ht => hok t (hb t ht)

/-- **sleep and wakeup refine the monitor**: each state that the machine reaches is one
    that the monitor reaches. -/
theorem refines_of_reach (hinit : ∀ α, init α → B.disc.Start α)
    (hok : ∀ (φ : SState B C) α t, Refines φ α → okF φ t → ok α t)
    (h : Reach (code B) (Booted init) okF φ) : ∃ α, Run B init ok φ α := by
  induction h with
  | init hi =>
    obtain ⟨α, hα, hb⟩ := hi
    exact ⟨α, .init hα, hb.refines (hinit α hα), hb.start.inv, hb.table⟩
  | step _ hs hk ih =>
    obtain ⟨α, hr, hR, hI, hT⟩ := ih
    obtain ⟨α', hf, hR'⟩ := hR.step hI hT (B.disc.inv_of_reach hinit hr) hs
    exact ⟨α', hf.reach hr fun t ht => hok _ _ _ hR (hk t ht), hR', hI.step hs, hT.step hI hs⟩

/-- The child sleeps on the empty pipe, and its parent has started to wake it up. -/
theorem refines_of_reach_talk : ∃ φ : SState (pipe 2) (Fin 2),
    (φ.mem.state 1 = .sleeping ∧ φ.owner .mon = some 0) ∧
      ∃ α, Run (pipe 2) (Pipe.Starts 0) (fun _ _ => True) φ α := by
  have hrun : (ticks (code (pipe 2)) (pick (talk 1)) (fun _ _ => true)
      (List.replicate 4 0 ++ List.replicate 12 1 ++ List.replicate 5 0)
      (boot (Pipe.start 0) (fun _ => rfl) id)).map
        (fun φ => (φ.mem.state 1, φ.owner .mon)) = some (.sleeping, some 0) := by decide +kernel
  obtain ⟨φ, hr, hφ⟩ := reach_ticks (fun _ _ _ _ _ => talk_does) (Pipe.start_starts 0)
    (fun _ _ _ => trivial) hrun
  exact ⟨φ, Prod.mk.inj hφ, refines_of_reach (fun _ hi => hi.start) (fun _ _ _ _ _ => trivial) hr⟩

/-! ## The locks -/

/-- The lock of the monitor is taken first. -/
def Lock.rank : Lock n → ℕ
  | .mon => 0
  | .proc _ => 1

theorem Acquires.rank (h : Acquires t m q l q') : ∀ l' ∈ q.locks t, l'.rank < l.rank := by
  cases h with
  | client hi =>
    rw [locks_client_free (B.disc.acquire hi).1]
    exact fun _ hl => absurd hl List.not_mem_nil
  | sleep hi =>
    rw [locks_client (B.disc.sleep hi).1]
    intro l' hl
    obtain rfl := List.mem_singleton.1 hl
    exact Nat.zero_lt_one
  | @reacquire q hq =>
    rw [locks_place (f := .reacquire q hq) rfl]
    exact fun _ hl => absurd hl List.not_mem_nil
  | wakeup =>
    intro l' hl
    obtain rfl := List.mem_singleton.1 hl
    exact Nat.zero_lt_one
  | @kill q hq pid x =>
    rw [locks_place (f := .kill q hq pid x) rfl]
    exact fun _ hl => absurd hl List.not_mem_nil
  | yield => exact fun _ hl => absurd hl List.not_mem_nil

theorem ranked (B : Client n S K P) : (discipline B).Ranked Lock.rank :=
  fun _ _ _ _ _ h => (Does.acquires h).rank

/-- **The locks in sleep and wakeup.**  In each reachable state, acquire, release and
    sched do not panic on any CPU, a process that enters the scheduler from sleep holds
    its own lock only, and no CPUs wait for each other in a cycle. -/
theorem locks_of_reach (h : Reach (code B) (Booted init) okF φ) :
    (∀ c, ¬ Panics (code B) φ c) ∧
    (∀ c t k q hq, φ.ctx c = .running t → φ.pc t = .sleepSched k q hq →
      ∀ l, φ.owner l = some c ↔ l = .proc t) ∧
    ∀ c, ¬ Relation.TransGen (Discipline.WaitsFor (code B) φ) c c := by
  have hinv : (discipline B).Inv φ :=
    Discipline.inv_of_reach (fun _ ⟨_, _, hb⟩ => hb.start) h
  refine ⟨hinv.not_panics, fun c t k q hq hc hp l => ?_, hinv.acyclic (ranked B)⟩
  have hheld : l ∈ (discipline B).heldBy φ.pc (φ.ctx c) ↔ l ∈ (φ.pc t).locks t := by
    rw [hc]; exact Iff.rfl
  rw [hinv.locks.owner l c, hheld, hp]
  exact List.mem_singleton

/-- The child is about to enter the scheduler. -/
theorem locks_of_reach_talk : ∃ φ : SState (pipe 2) (Fin 2),
    (φ.mem.state 1 = .sleeping ∧ φ.ctx 1 = .running 1) ∧ (∀ c, ¬ Panics (code (pipe 2)) φ c) ∧
    (∀ c t k q hq, φ.ctx c = .running t → φ.pc t = .sleepSched k q hq →
      ∀ l, φ.owner l = some c ↔ l = .proc t) ∧
    ∀ c, ¬ Relation.TransGen (Discipline.WaitsFor (code (pipe 2)) φ) c c := by
  have hrun : (ticks (code (pipe 2)) (pick (talk 1)) (fun _ _ => true)
      (List.replicate 4 0 ++ List.replicate 10 1) (boot (Pipe.start 0) (fun _ => rfl) id)).map
        (fun φ => (φ.mem.state 1, φ.ctx 1)) = some (.sleeping, .running 1) := by decide +kernel
  obtain ⟨φ, hr, hφ⟩ := reach_ticks (fun _ _ _ _ _ => talk_does)
    (Pipe.start_starts 0) (fun _ _ _ => trivial) hrun
  exact ⟨φ, Prod.mk.inj hφ, locks_of_reach hr⟩

/-! ## Who sleeps -/

omit [DecidableEq C] in
/-- While the lock of the monitor is free, a process that is SLEEPING sleeps in the
    monitor. -/
theorem Run.sleeping (h : Run B init ok φ α) (hfree : φ.owner .mon = none)
    (ht : φ.mem.state t = .sleeping) :
    ∃ k, φ.mem.chan t = some k ∧ α.ctx t = .asleep k := by
  obtain ⟨k, hk⟩ := h.table.sleeping t ht
  refine ⟨k, h.table.chan t k (onChan_of_sleeps hk), (h.refines.fits t).asleep k ?_ ?_⟩
  · exact (dozes_of_sleeps hk).2 ⟨rfl, ht⟩
  · rintro ⟨w, hw⟩
    have hmon := mon_of_wakes (t := w) hw
    exact h.locks.free hfree hmon.2 hmon.1

omit [DecidableEq C] in
/-- The lock of the monitor is free there too. -/
theorem Run.free (h : Run B init ok φ α) (hinit : ∀ α, init α → B.disc.Start α)
    (hfree : φ.owner .mon = none) : α.owner = none :=
  h.refines.free h.locks (B.disc.inv_of_reach hinit h.reach) hfree

end

/-! ## No lost wakeups -/

section
variable {n : ℕ} {C : Type} [DecidableEq C] {p t : Fin n}

/-- No write is cut short that still has to wake up the readers. -/
def Uncut (φ : SState (pipe n) C) (t : Fin n) : Prop :=
  ∀ src l i fresh, (φ.pc t).pc = .writeFail src l i fresh → fresh = 0

omit [DecidableEq C] in
theorem Uncut.pipe {φ : SState (pipe n) C} {α : MState n _ _ _} (h : Uncut φ t)
    (hR : Refines φ α) : Pipe.Uncut α t :=
  fun src l i fresh hq => h src l i fresh ((hR.fits t).pc.trans hq)

/-- **No wakeup of a pipe is lost on the machine**: while the lock of the pipe is free, a
    process is only SLEEPING on `nread` if there are no bytes and the write end is open,
    and on `nwrite` if there is no space and the read end is open. -/
theorem pipe_sleepers {φ : SState (pipe n) C}
    (h : Reach (code (pipe n)) (Booted (Pipe.Starts p)) Uncut φ) (hfree : φ.owner .mon = none)
    (ht : φ.mem.state t = .sleeping) :
    ∃ c, φ.mem.chan t = some c ∧ Pipe.Blocked φ.mem.shared c := by
  have hinit : ∀ α, Pipe.Starts p α → (pipe n).disc.Start α := fun _ hi => hi.start
  have hok : ∀ (φ : SState (pipe n) C) (α : MState n _ _ _) (t : Fin n), Refines φ α → Uncut φ t →
      Pipe.Uncut α t := fun _ _ _ hR hu => hu.pipe hR
  obtain ⟨α, hα⟩ := refines_of_reach hinit hok h
  obtain ⟨c, hc, hctx⟩ := hα.sleeping hfree ht
  refine ⟨c, hc, ?_⟩
  rw [hα.refines.shared]
  exact Pipe.sleeps_blocked hα.reach (hα.free hinit hfree) hctx

/-- No write of the process fails. -/
def unfailing (φ : SState (pipe n) C) (t : Fin n) : Bool :=
  match (φ.pc t).pc with
  | .writeFail _ _ _ _ => false
  | _ => true

omit [DecidableEq C] in
theorem unfailing_uncut {φ : SState (pipe n) C} (h : unfailing φ t = true) : Uncut φ t := by
  intro src l i fresh hq
  rw [unfailing, hq] at h; cases h

theorem pipe_sleepers_talk : ∃ φ : SState (pipe 2) (Fin 2),
    (φ.owner .mon = none ∧ φ.mem.state 1 = .sleeping) ∧
      ∃ c, φ.mem.chan 1 = some c ∧ Pipe.Blocked φ.mem.shared c := by
  have hrun : (ticks (code (pipe 2)) (pick (talk 1)) unfailing
      (List.replicate 4 0 ++ List.replicate 12 1) (boot (Pipe.start 0) (fun _ => rfl) id)).map
        (fun φ => (φ.owner .mon, φ.mem.state 1)) = some (none, .sleeping) := by decide +kernel
  obtain ⟨φ, hr, hφ⟩ := reach_ticks (fun _ _ _ _ _ => talk_does) (Pipe.start_starts 0)
    (fun _ _ => unfailing_uncut) hrun
  obtain ⟨ho, ht⟩ := Prod.mk.inj hφ
  exact ⟨φ, ⟨ho, ht⟩, pipe_sleepers hr ho ht⟩

end

section
variable {n : ℕ} {C : Type} [DecidableEq C] {L : Log.Layout} {d : Log.Disk} {t : Fin n}

/-- **No wakeup of the log is lost on the machine**: while the lock of the log is free, a
    process that is SLEEPING on the log is in begin_op, and there only if a process commits
    or there is no room in the log; and then there is a process that commits or is in an
    operation.  (Those that sleep in bread or bwrite do so on other channels; here these
    are single steps.) -/
theorem begin_op_sleepers {φ : SState (log L n) C}
    (h : Reach (code (log L n)) (Booted (Log.Starts L d)) (fun _ _ => True) φ)
    (hfree : φ.owner .mon = none) (ht : φ.mem.state t = .sleeping)
    (hchan : φ.mem.chan t = some ()) :
    (φ.pc t).pc = .beginTest ∧
    (φ.mem.shared.committing = true ∨
      φ.mem.shared.lh.length + (φ.mem.shared.outstanding + 1) * 10 > 30) ∧
      ∃ t', (φ.pc t').pc.commits = true ∨ φ.mem.shared.op t' ≠ none := by
  have hinit : ∀ α, Log.Starts L d α → (log L n).disc.Start α := fun _ hi => hi.start
  obtain ⟨α, hα⟩ := refines_of_reach hinit (fun _ _ _ _ _ => trivial) h
  obtain ⟨k, hk, hctx⟩ := hα.sleeping hfree ht
  obtain rfl : () = k := Option.some.inj (hchan.symm.trans hk)
  have hbegin : α.pc t = .beginTest :=
    hα.reach.parked (A := (· = .beginTest)) (fun _ hi => hi.ctx)
      (fun _ _ _ _ _ _ hs => (Log.Does.sleeps hs).2) t (by rw [hctx]; exact nofun)
  obtain ⟨hb, t', ht'⟩ := Log.begins_blocked hα.reach (hα.free hinit hfree) hctx
  rw [hα.refines.shared]
  refine ⟨(hα.refines.fits t).pc.trans hbegin, hb, t', ?_⟩
  rwa [(hα.refines.fits t').pc]

/-- Three operations have reserved all the log, and a fourth one waits. -/
theorem begin_op_sleepers_four : ∃ φ : SState (log Log.mkfs 4) (Fin 4),
    (φ.owner .mon = none ∧ φ.mem.state 3 = .sleeping ∧ φ.mem.chan 3 = some ()) ∧
    (φ.pc 3).pc = .beginTest ∧
    (φ.mem.shared.committing = true ∨
      φ.mem.shared.lh.length + (φ.mem.shared.outstanding + 1) * 10 > 30) ∧
      ∃ t', (φ.pc t').pc.commits = true ∨ φ.mem.shared.op t' ≠ none := by
  have hrun : (ticks (code (log Log.mkfs 4)) (pick (begins Log.mkfs)) (fun _ _ => true)
      ((List.finRange 4).flatMap (List.replicate 7) ++ List.replicate 3 3)
      (boot (Log.start Log.blank) (fun _ => rfl) id)).map
        (fun φ => (φ.owner .mon, φ.mem.state 3, φ.mem.chan 3)) =
      some (none, .sleeping, some ()) := by decide +kernel
  have hstart : Log.Starts Log.mkfs Log.blank (Log.start (T := Fin 4) Log.blank) :=
    ⟨Log.blank_empty _, rfl, fun _ => rfl, fun _ => rfl, rfl⟩
  obtain ⟨φ, hr, hφ⟩ := reach_ticks (fun _ _ _ _ _ => Log.pick_does Log.mkfs) hstart
    (fun _ _ _ => trivial) hrun
  simp only [Prod.mk.injEq] at hφ
  obtain ⟨ho, ht, hc⟩ := hφ
  exact ⟨φ, ⟨ho, ht, hc⟩, begin_op_sleepers hr ho ht hc⟩

end

end OSLabs.Sleep
