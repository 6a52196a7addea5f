/-
  Monitors: threads that share one lock, and sleep and wake each other up on
  channels.

  A thread that sleeps gives up the lock in the same step; once it is woken up,
  it takes the lock again before it goes on.  A wakeup wakes up all threads on a
  channel.  A thread may be killed at any time; if it sleeps, this wakes it up
  too.

  * `Code` is the code of the threads, `Step` runs it, and `Reach` is what its
    runs reach.  `play` runs a schedule.
  * A `Discipline` says at which points the lock is held.  Then the lock belongs
    to one thread at most (`Inv.exclusive`).
  * An `Outline` states an invariant of what the lock protects, and what its owner
    knows at each point.  A thread that was woken up knows the invariant only.
  * `Sleepers` is what code has to respect so that no wakeup is lost: a thread
    only sleeps as long as it is blocked, or the wakeup is on its way
    (`Sleepers.blocked_or_owed`).
-/
import Mathlib.Logic.Function.Basic
import Mathlib.Tactic.SplitIfs

namespace Monitor

variable {T S K P A : Type}

/-- An instruction, with the program point behind it. -/
inductive Instr (S K P : Type) where
  | acquire (next : P)
  | release (next : P)
  | run (mem : S) (next : P)
  | sleep (k : K) (next : P)
  | wakeup (k : K) (next : P)

/-- A thread is awake, sleeps on a channel, or was woken up and waits for the
    lock. -/
inductive Ctx (K : Type) where
  | awake
  | asleep (k : K)
  | woken
  deriving DecidableEq

/-- The code of threads `T`, with a shared memory `S`, channels `K` and program
    points `P`: what a thread may do at a point, given the memory, and if it has
    been killed. -/
structure Code (T S K P : Type) where
  instr : T → P → S → Bool → Instr S K P → Prop

structure State (T S K P : Type) where
  mem : S
  pc : T → P
  ctx : T → Ctx K
  owner : Option T
  killed : T → Bool

namespace State

section
def store (σ : State T S K P) (m : S) : State T S K P := { σ with mem := m }

def give (σ : State T S K P) (o : Option T) : State T S K P := { σ with owner := o }

variable (σ : State T S K P) (m : S) (o : Option T)

@[simp] theorem store_mem : (σ.store m).mem = m := rfl
@[simp] theorem store_pc : (σ.store m).pc = σ.pc := rfl
@[simp] theorem store_ctx : (σ.store m).ctx = σ.ctx := rfl
@[simp] theorem store_owner : (σ.store m).owner = σ.owner := rfl
@[simp] theorem store_killed : (σ.store m).killed = σ.killed := rfl
@[simp] theorem give_mem : (σ.give o).mem = σ.mem := rfl
@[simp] theorem give_pc : (σ.give o).pc = σ.pc := rfl
@[simp] theorem give_ctx : (σ.give o).ctx = σ.ctx := rfl
@[simp] theorem give_owner : (σ.give o).owner = o := rfl
@[simp] theorem give_killed : (σ.give o).killed = σ.killed := rfl

end

section
variable [DecidableEq T]

def goto (σ : State T S K P) (t : T) (q : P) : State T S K P :=
  { σ with pc := Function.update σ.pc t q }

def setCtx (σ : State T S K P) (t : T) (x : Ctx K) : State T S K P :=
  { σ with ctx := Function.update σ.ctx t x }

variable (σ : State T S K P) (t : T) (q : P) (x : Ctx K)

@[simp] theorem goto_mem : (σ.goto t q).mem = σ.mem := rfl
@[simp] theorem goto_pc : (σ.goto t q).pc = Function.update σ.pc t q := rfl
@[simp] theorem goto_ctx : (σ.goto t q).ctx = σ.ctx := rfl
@[simp] theorem goto_owner : (σ.goto t q).owner = σ.owner := rfl
@[simp] theorem goto_killed : (σ.goto t q).killed = σ.killed := rfl
@[simp] theorem setCtx_mem : (σ.setCtx t x).mem = σ.mem := rfl
@[simp] theorem setCtx_pc : (σ.setCtx t x).pc = σ.pc := rfl
@[simp] theorem setCtx_ctx : (σ.setCtx t x).ctx = Function.update σ.ctx t x := rfl
@[simp] theorem setCtx_owner : (σ.setCtx t x).owner = σ.owner := rfl
@[simp] theorem setCtx_killed : (σ.setCtx t x).killed = σ.killed := rfl

end

section
variable [DecidableEq K]

/-- All threads on the channel are woken up. -/
def wakeup (σ : State T S K P) (k : K) : State T S K P :=
  { σ with ctx := fun t => if σ.ctx t = .asleep k then .woken else σ.ctx t }

variable (σ : State T S K P) (t : T) (k : K)

@[simp] theorem wakeup_mem : (σ.wakeup k).mem = σ.mem := rfl
@[simp] theorem wakeup_pc : (σ.wakeup k).pc = σ.pc := rfl
@[simp] theorem wakeup_owner : (σ.wakeup k).owner = σ.owner := rfl
@[simp] theorem wakeup_killed : (σ.wakeup k).killed = σ.killed := rfl

theorem wakeup_asleep {k' : K} (h : (σ.wakeup k).ctx t = .asleep k') :
    σ.ctx t = .asleep k' ∧ k' ≠ k := by
  unfold wakeup at h
  dsimp only at h
  split_ifs at h with hk
  refine ⟨h, ?_⟩
  rintro rfl; exact hk h

@[simp] theorem wakeup_awake : (σ.wakeup k).ctx t = .awake ↔ σ.ctx t = .awake := by
  unfold wakeup
  dsimp only
  split_ifs with hk
  · simp [hk]
  · rfl

end

section
variable [DecidableEq T] [DecidableEq K]

def kill (σ : State T S K P) (t : T) : State T S K P :=
  { σ with
    killed := Function.update σ.killed t true
    ctx := Function.update σ.ctx t (if σ.ctx t = .awake then .awake else .woken) }

variable (σ : State T S K P) (t : T)

@[simp] theorem kill_mem : (σ.kill t).mem = σ.mem := rfl
@[simp] theorem kill_pc : (σ.kill t).pc = σ.pc := rfl
@[simp] theorem kill_owner : (σ.kill t).owner = σ.owner := rfl
@[simp] theorem kill_killed : (σ.kill t).killed = Function.update σ.killed t true := rfl

theorem kill_asleep {t' : T} {k' : K} (h : (σ.kill t).ctx t' = .asleep k') :
    σ.ctx t' = .asleep k' := by
  unfold kill at h
  dsimp only at h
  by_cases ht : t' = t
  · subst ht
    rw [Function.update_self] at h
    split_ifs at h
  · rwa [Function.update_of_ne ht] at h

@[simp] theorem kill_awake {t' : T} : (σ.kill t).ctx t' = .awake ↔ σ.ctx t' = .awake := by
  unfold kill
  dsimp only
  by_cases ht : t' = t
  · subst ht
    rw [Function.update_self]
    split_ifs with ha
    · simp [ha]
    · simp [ha]
  · rw [Function.update_of_ne ht]

end

end State

variable [DecidableEq T] [DecidableEq K]

section
variable (code : Code T S K P)

/-- One step, and the thread whose instruction it runs (none when a thread takes
    the lock again, or is killed). -/
inductive Step : State T S K P → Option T → State T S K P → Prop
  | acquire {σ t q} : σ.ctx t = .awake →
      code.instr t (σ.pc t) σ.mem (σ.killed t) (.acquire q) → σ.owner = none →
      Step σ (some t) ((σ.give (some t)).goto t q)
  | release {σ t q} : σ.ctx t = .awake →
      code.instr t (σ.pc t) σ.mem (σ.killed t) (.release q) → σ.owner = some t →
      Step σ (some t) ((σ.give none).goto t q)
  | run {σ t m q} : σ.ctx t = .awake →
      code.instr t (σ.pc t) σ.mem (σ.killed t) (.run m q) →
      Step σ (some t) ((σ.store m).goto t q)
  | sleep {σ t k q} : σ.ctx t = .awake →
      code.instr t (σ.pc t) σ.mem (σ.killed t) (.sleep k q) → σ.owner = some t →
      Step σ (some t) (((σ.give none).setCtx t (.asleep k)).goto t q)
  | wakeup {σ t k q} : σ.ctx t = .awake →
      code.instr t (σ.pc t) σ.mem (σ.killed t) (.wakeup k q) →
      Step σ (some t) ((σ.wakeup k).goto t q)
  | resume {σ t} : σ.ctx t = .woken → σ.owner = none →
      Step σ none ((σ.give (some t)).setCtx t .awake)
  | kill {σ t} : Step σ none (σ.kill t)

/-- A step moves no thread but its own. -/
theorem Step.pc_other {code : Code T S K P} {σ σ' : State T S K P} {a : Option T} {t : T}
    (h : Step code σ a σ') (ht : a ≠ some t) : σ'.pc t = σ.pc t := by
  have hne : ∀ {u : T}, a = some u → t ≠ u := by
    rintro u hu rfl
    exact ht hu
  cases h with
  | resume _ _ => rfl
  | kill => rfl
  | _ => exact Function.update_of_ne (hne rfl) ..

/-- The states reached from `init` by steps whose threads satisfy `ok` before
    them. -/
inductive Reach (init : State T S K P → Prop) (ok : State T S K P → T → Prop) :
    State T S K P → Prop
  | init {σ} : init σ → Reach init ok σ
  | step {σ a σ'} : Reach init ok σ → Step code σ a σ' → (∀ t, a = some t → ok σ t) →
      Reach init ok σ'

variable {code}

/-- **An invariant holds in each reachable state.** -/
theorem Reach.invariant {init : State T S K P → Prop} {ok : State T S K P → T → Prop}
    {I : State T S K P → Prop} (hinit : ∀ σ, init σ → I σ)
    (hstep : ∀ σ a σ', I σ → Step code σ a σ' → (∀ t, a = some t → ok σ t) → I σ')
    {σ : State T S K P} (h : Reach code init ok σ) : I σ := by
  induction h with
  | init hi => exact hinit _ hi
  | step _ hs hok ih => exact hstep _ _ _ ih hs hok

/-- A further invariant may use one that is known. -/
theorem Reach.invariant_of {init : State T S K P → Prop} {ok : State T S K P → T → Prop}
    {I J : State T S K P → Prop} (hI : ∀ σ, Reach code init ok σ → I σ)
    (hinit : ∀ σ, init σ → J σ)
    (hstep : ∀ σ a σ', I σ → J σ → Step code σ a σ' → (∀ t, a = some t → ok σ t) → J σ')
    {σ : State T S K P} (h : Reach code init ok σ) : J σ := by
  induction h with
  | init hi => exact hinit _ hi
  | step hr hs hok ih => exact hstep _ _ _ (hI _ hr) ih hs hok

/-- A thread that sleeps, or was woken up, is behind a sleep. -/
theorem Reach.parked {init : State T S K P → Prop} {ok : State T S K P → T → Prop}
    {A : P → Prop} (hinit : ∀ σ, init σ → ∀ t, σ.ctx t = .awake)
    (hsleep : ∀ t q m b k q', code.instr t q m b (.sleep k q') → A q') {σ : State T S K P}
    (h : Reach code init ok σ) : ∀ t, σ.ctx t ≠ .awake → A (σ.pc t) := by
  refine h.invariant (I := fun σ => ∀ t, σ.ctx t ≠ .awake → A (σ.pc t))
    (fun σ hi t ht => absurd (hinit σ hi t) ht) ?_
  intro σ a σ' hA hs _ t' ht'
  -- a thread that moves on without a sleep is awake
  have hmove : ∀ {t : T} {q : P}, σ.ctx t = .awake → (σ'.ctx t' = .awake ↔ σ.ctx t' = .awake) →
      σ'.pc = Function.update σ.pc t q → A (σ'.pc t') := by
    intro t q ht hctx hpc
    have hne : σ.ctx t' ≠ .awake := fun ha => ht' (hctx.2 ha)
    have htt : t' ≠ t := by
      rintro rfl; exact hne ht
    rw [hpc, Function.update_of_ne htt]; exact hA t' hne
  cases hs with
  | acquire hc _ _ => exact hmove hc Iff.rfl rfl
  | release hc _ _ => exact hmove hc Iff.rfl rfl
  | run hc _ => exact hmove hc Iff.rfl rfl
  | wakeup hc _ => exact hmove hc (σ.wakeup_awake t' _) rfl
  | @sleep t k q hc hi _ =>
    by_cases htt : t' = t
    · subst htt
      rw [State.goto_pc, Function.update_self]; exact hsleep _ _ _ _ _ _ hi
    · rw [State.goto_pc, Function.update_of_ne htt]
      refine hA t' ?_
      simpa [htt] using ht'
  | @resume t hc _ =>
    by_cases htt : t' = t
    · subst htt
      simp at ht'
    · refine hA t' ?_
      simpa [htt] using ht'
  | @kill t => exact hA t' fun ha => ht' ((σ.kill_awake t).2 ha)

theorem Reach.mono {init : State T S K P → Prop} {ok ok' : State T S K P → T → Prop}
    (hok : ∀ σ t, ok σ t → ok' σ t) {σ : State T S K P} (h : Reach code init ok σ) :
    Reach code init ok' σ := by
  induction h with
  | init hi => exact .init hi
  | step _ hs hk ih => exact .step ih hs fun t ht => hok _ _ (hk t ht)

end

/-! ## Running -/

/-- What happens next: a thread runs its next instruction, after a choice of its
    own; it takes the lock again; or it is killed. -/
inductive Event (T A : Type) where
  | go (t : T) (a : A)
  | resume (t : T)
  | kill (t : T)

/-- The state behind an event, when `pick` is the instruction for a choice; none
    if it cannot happen now. -/
def tick (pick : A → T → P → S → Bool → Option (Instr S K P)) (σ : State T S K P) :
    Event T A → Option (State T S K P)
  | .go t a =>
    match σ.ctx t with
    | .awake =>
      match pick a t (σ.pc t) σ.mem (σ.killed t) with
      | some (.acquire q) =>
        if σ.owner = none then some ((σ.give (some t)).goto t q) else none
      | some (.release q) =>
        if σ.owner = some t then some ((σ.give none).goto t q) else none
      | some (.run m q) => some ((σ.store m).goto t q)
      | some (.sleep k q) =>
        if σ.owner = some t then some (((σ.give none).setCtx t (.asleep k)).goto t q) else none
      | some (.wakeup k q) => some ((σ.wakeup k).goto t q)
      | none => none
    | _ => none
  | .resume t =>
    match σ.ctx t with
    | .woken => if σ.owner = none then some ((σ.give (some t)).setCtx t .awake) else none
    | _ => none
  | .kill t => some (σ.kill t)

/-- The events of a schedule happen, as long as `ok` holds before them. -/
def play (pick : A → T → P → S → Bool → Option (Instr S K P)) (ok : State T S K P → T → Bool) :
    List (Event T A) → State T S K P → Option (State T S K P)
  | [], σ => some σ
  | .go t a :: es, σ => if ok σ t then (tick pick σ (.go t a)).bind (play pick ok es) else none
  | e :: es, σ => (tick pick σ e).bind (play pick ok es)

section
variable {code : Code T S K P} {pick : A → T → P → S → Bool → Option (Instr S K P)}
  {σ σ' : State T S K P}

/-- The thread whose instruction an event runs. -/
def Event.actor : Event T A → Option T
  | .go t _ => some t
  | _ => none

theorem tick_step (hpick : ∀ a t q m b i, pick a t q m b = some i → code.instr t q m b i)
    {e : Event T A} (h : tick pick σ e = some σ') : Step code σ e.actor σ' := by
  cases e with
  | go t a =>
    simp only [tick] at h
    split at h
    · rename_i hc
      split at h
      · rename_i q hi
        split_ifs at h with ho
        cases h; exact .acquire hc (hpick _ _ _ _ _ _ hi) ho
      · rename_i q hi
        split_ifs at h with ho
        cases h; exact .release hc (hpick _ _ _ _ _ _ hi) ho
      · rename_i m q hi
        cases h; exact .run hc (hpick _ _ _ _ _ _ hi)
      · rename_i k q hi
        split_ifs at h with ho
        cases h; exact .sleep hc (hpick _ _ _ _ _ _ hi) ho
      · rename_i k q hi
        cases h; exact .wakeup hc (hpick _ _ _ _ _ _ hi)
      · cases h
    · cases h
  | resume t =>
    simp only [tick] at h
    split at h
    · rename_i hc
      split_ifs at h with ho
      cases h; exact .resume hc ho
    · cases h
  | kill t =>
    cases h; exact .kill

/-- What a schedule runs into is reachable. -/
theorem play_reach {init : State T S K P → Prop} {ok : State T S K P → T → Prop}
    {okb : State T S K P → T → Bool} (hok : ∀ σ t, okb σ t = true → ok σ t)
    (hpick : ∀ a t q m b i, pick a t q m b = some i → code.instr t q m b i) :
    ∀ {es : List (Event T A)} {σ : State T S K P}, Reach code init ok σ →
      play pick okb es σ = some σ' → Reach code init ok σ'
  | [], _, hr, h => by cases h; exact hr
  | .go t a :: es, σ, hr, h => by
    simp only [play] at h
    split_ifs at h with hb
    obtain ⟨σ₁, h₁, h₂⟩ := Option.bind_eq_some_iff.1 h
    refine play_reach hok hpick (.step hr (tick_step hpick h₁) fun t' ht => ?_) h₂
    cases ht; exact hok _ _ hb
  | .resume t :: es, σ, hr, h => by
    obtain ⟨σ₁, h₁, h₂⟩ := Option.bind_eq_some_iff.1 h
    exact play_reach hok hpick (.step hr (tick_step hpick h₁) fun t' ht => by cases ht) h₂
  | .kill t :: es, σ, hr, h => by
    obtain ⟨σ₁, h₁, h₂⟩ := Option.bind_eq_some_iff.1 h
    exact play_reach hok hpick (.step hr (tick_step hpick h₁) fun t' ht => by cases ht) h₂

/-- What a schedule runs into from the start. -/
theorem reach_of_play {β : Type} {init : State T S K P → Prop}
    {ok : State T S K P → T → Prop} {okb : State T S K P → T → Bool}
    (hok : ∀ σ t, okb σ t = true → ok σ t)
    (hpick : ∀ a t q m b i, pick a t q m b = some i → code.instr t q m b i) (hi : init σ)
    {es : List (Event T A)} {f : State T S K P → β} {b : β}
    (h : (play pick okb es σ).map f = some b) : ∃ σ', Reach code init ok σ' ∧ f σ' = b := by
  obtain ⟨σ', hp, hf⟩ := Option.map_eq_some_iff.1 h
  exact ⟨σ', play_reach hok hpick (.init hi) hp, hf⟩

/-- What a schedule runs into, and what a second one runs into from there. -/
theorem reach_of_plays {β : Type} {init : State T S K P → Prop}
    {ok ok' : State T S K P → T → Prop} {okb okb' : State T S K P → T → Bool}
    (hok : ∀ σ t, okb σ t = true → ok σ t) (hok' : ∀ σ t, okb' σ t = true → ok' σ t)
    (hpick : ∀ a t q m b i, pick a t q m b = some i → code.instr t q m b i) (hi : init σ)
    {es cs : List (Event T A)} {f : State T S K P → State T S K P → β} {b : β}
    (h : ((play pick okb es σ).bind fun σ₀ => (play pick okb' cs σ₀).map (f σ₀)) = some b) :
    ∃ σ₀ σ', Reach code init ok σ₀ ∧ Reach code (· = σ₀) ok' σ' ∧ f σ₀ σ' = b := by
  obtain ⟨σ₀, h₀, h⟩ := Option.bind_eq_some_iff.1 h
  obtain ⟨σ', h', hf⟩ := Option.map_eq_some_iff.1 h
  exact ⟨σ₀, σ', play_reach hok hpick (.init hi) h₀, play_reach hok' hpick (.init rfl) h', hf⟩

end

/-! ## The lock -/

section
variable (code : Code T S K P)

/-- The points at which the lock is held, and what each instruction has to
    respect. -/
structure Discipline where
  held : P → Bool
  acquire : ∀ {t q m b q'}, code.instr t q m b (.acquire q') → held q = false ∧ held q' = true
  release : ∀ {t q m b q'}, code.instr t q m b (.release q') → held q = true ∧ held q' = false
  run : ∀ {t q m b m' q'}, code.instr t q m b (.run m' q') → held q' = held q
  sleep : ∀ {t q m b k q'}, code.instr t q m b (.sleep k q') → held q = true ∧ held q' = true
  wakeup : ∀ {t q m b k q'}, code.instr t q m b (.wakeup k q') → held q' = held q

namespace Discipline
variable {code} (D : Discipline code)

/-- **The lock belongs to the thread that is awake at a point where it is
    held.** -/
structure Inv (σ : State T S K P) : Prop where
  owner : ∀ t, σ.owner = some t ↔ σ.ctx t = .awake ∧ D.held (σ.pc t) = true
  asleep : ∀ t, σ.ctx t ≠ .awake → D.held (σ.pc t) = true

variable {D} {σ σ' : State T S K P}

omit [DecidableEq T] [DecidableEq K] in
theorem Inv.exclusive (h : D.Inv σ) {t t' : T} (ht : σ.ctx t = .awake)
    (ht' : σ.ctx t' = .awake) (hq : D.held (σ.pc t) = true) (hq' : D.held (σ.pc t') = true) :
    t = t' := by
  have h₁ := (h.owner t).2 ⟨ht, hq⟩
  have h₂ := (h.owner t').2 ⟨ht', hq'⟩
  exact Option.some.inj (h₁.symm.trans h₂)

omit [DecidableEq T] [DecidableEq K] in
/-- If the lock is free, no thread that is awake is where it is held. -/
theorem Inv.free (h : D.Inv σ) (ho : σ.owner = none) {t : T} (ht : σ.ctx t = .awake) :
    D.held (σ.pc t) = false := by
  by_contra hq
  have := (h.owner t).2 ⟨ht, by simpa using hq⟩
  rw [ho] at this; cases this

omit [DecidableEq K] in
/-- What holds behind a step that moves the thread `t` to `q`, and changes the
    lock and the threads as given. -/
theorem Inv.move (h : D.Inv σ) {t : T} {q : P} (hpc : σ'.pc = Function.update σ.pc t q)
    (hctx : ∀ t', t' ≠ t → (σ'.ctx t' = .awake ↔ σ.ctx t' = .awake))
    (howner : ∀ t', t' ≠ t → (σ'.owner = some t' ↔ σ.owner = some t'))
    (ht : σ'.owner = some t ↔ σ'.ctx t = .awake ∧ D.held q = true)
    (hasleep : σ'.ctx t ≠ .awake → D.held q = true) : D.Inv σ' := by
  constructor
  · intro t'
    by_cases htt : t' = t
    · subst htt; rw [hpc, Function.update_self]; exact ht
    · rw [hpc, Function.update_of_ne htt, hctx t' htt, howner t' htt]; exact h.owner t'
  · intro t' hne
    by_cases htt : t' = t
    · subst htt; rw [hpc, Function.update_self]; exact hasleep hne
    · rw [hpc, Function.update_of_ne htt]
      exact h.asleep t' fun ha => hne ((hctx t' htt).2 ha)

/-- **A step keeps the invariant.** -/
theorem Inv.step (h : D.Inv σ) {a : Option T} (hs : Step code σ a σ') : D.Inv σ' := by
  cases hs with
  | @acquire t q hc hi hfree =>
    obtain ⟨-, hq⟩ := D.acquire hi
    refine h.move (t := t) rfl (fun _ _ => Iff.rfl) (fun t' htt => ?_) ?_ ?_
    · simp [hfree, Ne.symm htt]
    · simp [hc, hq]
    · exact fun _ => hq
  | @release t q hc hi hown =>
    obtain ⟨-, hq⟩ := D.release hi
    refine h.move (t := t) rfl (fun _ _ => Iff.rfl) (fun t' htt => ?_) ?_ ?_
    · simp [hown, Ne.symm htt]
    · simp [hq]
    · exact fun hne => absurd hc hne
  | @run t m q hc hi =>
    refine h.move (t := t) rfl (fun _ _ => Iff.rfl) (fun _ _ => Iff.rfl) ?_ ?_
    · rw [D.run hi]; exact h.owner t
    · exact fun hne => absurd hc hne
  | @sleep t k q hc hi hown =>
    obtain ⟨-, hq⟩ := D.sleep hi
    refine h.move (t := t) rfl (fun t' htt => ?_) (fun t' htt => ?_) ?_ ?_
    · simp [htt]
    · simp [hown, Ne.symm htt]
    · simp
    · exact fun _ => hq
  | @wakeup t k q hc hi =>
    refine h.move (t := t) rfl (fun t' _ => ?_) (fun _ _ => Iff.rfl) ?_ ?_
    · exact σ.wakeup_awake t' k
    · rw [D.wakeup hi]
      simpa using h.owner t
    · exact fun hne => absurd ((σ.wakeup_awake t k).2 hc) hne
  | @resume t hc hfree =>
    have hq := h.asleep t (by rw [hc]; simp)
    refine h.move (t := t) (q := σ.pc t) (by simp) (fun t' htt => ?_) (fun t' htt => ?_) ?_ ?_
    · simp [htt]
    · simp [hfree, Ne.symm htt]
    · simp [hq]
    · exact fun _ => hq
  | @kill t =>
    refine h.move (t := t) (q := σ.pc t) (by simp) (fun t' _ => ?_) (fun _ _ => Iff.rfl) ?_ ?_
    · exact σ.kill_awake t
    · simpa using h.owner t
    · exact fun hne => h.asleep t fun ha => hne ((σ.kill_awake t).2 ha)

/-- A monitor at its start: the lock is free, and no thread sleeps or is where
    the lock is held. -/
structure Start (D : Discipline code) (σ : State T S K P) : Prop where
  owner : σ.owner = none
  awake : ∀ t, σ.ctx t = .awake
  free : ∀ t, D.held (σ.pc t) = false

omit [DecidableEq T] [DecidableEq K] in
theorem Start.inv (h : D.Start σ) : D.Inv σ := by
  constructor
  · intro t; rw [h.owner, h.free t]; simp
  · exact fun t hne => absurd (h.awake t) hne

theorem inv_of_reach {init : State T S K P → Prop} {ok : State T S K P → T → Prop}
    (hinit : ∀ σ, init σ → D.Start σ) (h : Reach code init ok σ) : D.Inv σ :=
  h.invariant (fun σ hi => (hinit σ hi).inv) fun _ _ _ hI hs _ => hI.step hs

end Discipline

variable {code}

/-! ## Proof outlines -/

/-- A proof outline: `view` is what the lock protects, `inv` holds of it while the
    lock is free, and `asserts t q` when the owner `t` of the lock is at `q`. -/
structure Outline (D : Discipline code) (R : Type) where
  view : S → R
  inv : R → Prop
  asserts : T → P → R → Prop
  frame : ∀ {t q m b m' q'}, code.instr t q m b (.run m' q') → D.held q = false →
    view m' = view m
  acquire : ∀ {t q m b q'}, code.instr t q m b (.acquire q') → inv (view m) →
    asserts t q' (view m)
  release : ∀ {t q m b q'}, code.instr t q m b (.release q') → asserts t q (view m) →
    inv (view m)
  run : ∀ {t q m b m' q'}, code.instr t q m b (.run m' q') → D.held q = true →
    asserts t q (view m) → asserts t q' (view m')
  sleep : ∀ {t q m b k q'}, code.instr t q m b (.sleep k q') → asserts t q (view m) →
    inv (view m) ∧ ∀ r, inv r → asserts t q' r
  wakeup : ∀ {t q m b k q'}, code.instr t q m b (.wakeup k q') → D.held q = true →
    asserts t q (view m) → asserts t q' (view m)

namespace Outline
variable {D : Discipline code} {R : Type} (O : Outline D R) {σ σ' : State T S K P}

/-- **The invariant of a proof outline.** -/
structure Holds (σ : State T S K P) : Prop where
  free : σ.owner = none → O.inv (O.view σ.mem)
  owner : ∀ t, σ.owner = some t → O.asserts t (σ.pc t) (O.view σ.mem)
  asleep : ∀ t, σ.ctx t ≠ .awake → ∀ r, O.inv r → O.asserts t (σ.pc t) r

variable {O}

omit [DecidableEq K] in
/-- What the thread `t` that moves to `q` has to show, if the others stay as they
    are. -/
theorem Holds.move (h : O.Holds σ) {t : T} {q : P} (hpc : σ'.pc = Function.update σ.pc t q)
    (hctx : ∀ t', t' ≠ t → σ'.ctx t' ≠ .awake → σ.ctx t' ≠ .awake)
    (hfree : σ'.owner = none → O.inv (O.view σ'.mem))
    (hother : ∀ t', t' ≠ t → σ'.owner = some t' → O.asserts t' (σ.pc t') (O.view σ'.mem))
    (ht : σ'.owner = some t → O.asserts t q (O.view σ'.mem))
    (hasleep : σ'.ctx t ≠ .awake → ∀ r, O.inv r → O.asserts t q r) : O.Holds σ' := by
  refine ⟨hfree, fun t' ho => ?_, fun t' hne => ?_⟩
  · by_cases htt : t' = t
    · subst htt; rw [hpc, Function.update_self]; exact ht ho
    · rw [hpc, Function.update_of_ne htt]; exact hother t' htt ho
  · by_cases htt : t' = t
    · subst htt; rw [hpc, Function.update_self]; exact hasleep hne
    · rw [hpc, Function.update_of_ne htt]; exact h.asleep t' (hctx t' htt hne)

/-- **A step keeps what the proof outline says.** -/
theorem Holds.step (h : O.Holds σ) (hD : D.Inv σ) {a : Option T} (hs : Step code σ a σ') :
    O.Holds σ' := by
  cases hs with
  | @acquire t q hc hi hfree =>
    refine h.move (t := t) rfl (fun _ _ hne => hne) (by simp) (fun t' htt ho => ?_) (fun _ => ?_)
      fun hne => absurd hc hne
    · exact absurd (Option.some.inj ho).symm htt
    · exact O.acquire hi (h.free hfree)
  | @release t q hc hi hown =>
    refine h.move (t := t) rfl (fun _ _ hne => hne) (fun _ => ?_) (by simp) (by simp)
      fun hne => absurd hc hne
    exact O.release hi (h.owner t hown)
  | @run t m q hc hi =>
    by_cases hq : D.held (σ.pc t) = true
    · have hown := (hD.owner t).2 ⟨hc, hq⟩
      refine h.move (t := t) rfl (fun _ _ hne => hne) (fun hn => ?_) (fun t' htt ho => ?_)
        (fun _ => O.run hi hq (h.owner t hown)) fun hne => absurd hc hne
      · exact absurd (hown.symm.trans hn) (by simp)
      · exact absurd (Option.some.inj (ho.symm.trans hown)) htt
    · have hview := O.frame hi (by simpa using hq)
      refine h.move (t := t) rfl (fun _ _ hne => hne) (fun hn => ?_) (fun t' _ ho => ?_)
        (fun ho => absurd ((hD.owner t).1 ho).2 hq) fun hne => absurd hc hne
      · exact hview ▸ h.free hn
      · exact hview ▸ h.owner t' ho
  | @sleep t k q hc hi hown =>
    obtain ⟨hinv, hasleep⟩ := O.sleep hi (h.owner t hown)
    refine h.move (t := t) rfl (fun t' htt hne => ?_) (fun _ => hinv) (by simp) (by simp)
      fun _ => hasleep
    simpa [htt] using hne
  | @wakeup t k q hc hi =>
    refine h.move (t := t) rfl (fun t' _ hne => ?_) h.free (fun t' _ => h.owner t') (fun ho => ?_)
      fun hne => absurd ((σ.wakeup_awake t k).2 hc) hne
    · exact fun ha => hne ((σ.wakeup_awake t' k).2 ha)
    · exact O.wakeup hi ((hD.owner t).1 ho).2 (h.owner t ho)
  | @resume t hc hfree =>
    refine h.move (t := t) (q := σ.pc t) (by simp) (fun t' htt hne => ?_) (by simp)
      (fun t' htt ho => ?_) (fun _ => ?_) fun hne => ?_
    · simpa [htt] using hne
    · exact absurd (Option.some.inj ho).symm htt
    · exact h.asleep t (by simp [hc]) _ (h.free hfree)
    · simp at hne
  | @kill t =>
    refine h.move (t := t) (q := σ.pc t) (by simp) (fun t' _ hne => ?_) h.free
      (fun t' _ => h.owner t') (h.owner t) fun hne => ?_
    · exact fun ha => hne ((σ.kill_awake t).2 ha)
    · exact h.asleep t fun ha => hne ((σ.kill_awake t).2 ha)

/-- **The proof outline is right**, if its invariant holds at the start. -/
theorem holds_of_reach {init : State T S K P → Prop} {ok : State T S K P → T → Prop}
    (hinit : ∀ σ, init σ → D.Start σ ∧ O.inv (O.view σ.mem)) (h : Reach code init ok σ) :
    O.Holds σ := by
  refine h.invariant_of (fun σ hr => D.inv_of_reach (fun σ hi => (hinit σ hi).1) hr)
    (fun σ hi => ?_) fun _ _ _ hD hH hs _ => hH.step hD hs
  obtain ⟨hstart, hinv⟩ := hinit σ hi
  refine ⟨fun _ => hinv, fun t ho => ?_, fun t hne => absurd (hstart.awake t) hne⟩
  rw [hstart.owner] at ho; cases ho

end Outline

/-! ## No lost wakeups -/

/-- What a monitor has to respect so that no wakeup is lost.  `blocked t k m` is
    why the thread `t` sleeps on the channel `k`, and `owes q k` are the points at
    which a thread still has to wake up the channel `k`. -/
structure Sleepers (D : Discipline code) (I : State T S K P → Prop)
    (ok : State T S K P → T → Prop) where
  blocked : T → K → S → Prop
  owes : P → K → Prop
  held : ∀ {q k}, owes q k → D.held q = true
  release : ∀ {σ t q}, ok σ t → code.instr t (σ.pc t) σ.mem (σ.killed t) (.release q) →
    ∀ k, ¬ owes (σ.pc t) k
  run : ∀ {σ t m q}, I σ → σ.ctx t = .awake →
    code.instr t (σ.pc t) σ.mem (σ.killed t) (.run m q) → ∀ t' k, σ.ctx t' = .asleep k →
    (blocked t' k σ.mem → blocked t' k m ∨ owes q k) ∧
      (owes (σ.pc t) k → owes q k ∨ blocked t' k m)
  sleep : ∀ {σ t k q}, I σ → σ.ctx t = .awake →
    code.instr t (σ.pc t) σ.mem (σ.killed t) (.sleep k q) →
    blocked t k σ.mem ∧ ∀ k', ¬ owes (σ.pc t) k'
  wakeup : ∀ {σ : State T S K P} {t k q},
    code.instr t (σ.pc t) σ.mem (σ.killed t) (.wakeup k q) →
    ∀ k', owes (σ.pc t) k' → k' = k ∨ owes q k'

namespace Sleepers
variable {D : Discipline code} {I : State T S K P → Prop}
  {ok : State T S K P → T → Prop} (W : Sleepers D I ok) {σ σ' : State T S K P}

/-- Some thread still has to wake up the channel. -/
def Owed (σ : State T S K P) (k : K) : Prop := ∃ t, σ.ctx t = .awake ∧ W.owes (σ.pc t) k

/-- A thread that sleeps is blocked, or its wakeup is on its way. -/
def Tight (σ : State T S K P) : Prop :=
  ∀ t k, σ.ctx t = .asleep k → W.blocked t k σ.mem ∨ W.Owed σ k

omit [DecidableEq K] in
/-- What the other threads owe stays owed when one thread moves on. -/
theorem Owed.move {W : Sleepers D I ok} {k : K} (h : W.Owed σ k) {t : T} {q : P}
    (σ' : State T S K P) (hpc : σ'.pc = Function.update σ.pc t q)
    (hctx : ∀ t', t' ≠ t → σ.ctx t' = .awake → σ'.ctx t' = .awake) :
    W.Owed σ' k ∨ σ.ctx t = .awake ∧ W.owes (σ.pc t) k := by
  obtain ⟨t', ha, ho⟩ := h
  by_cases htt : t' = t
  · subst htt; exact .inr ⟨ha, ho⟩
  · exact .inl ⟨t', hctx t' htt ha, by rwa [hpc, Function.update_of_ne htt]⟩

/-- **A step loses no wakeup.** -/
theorem Tight.step {W : Sleepers D I ok} (h : W.Tight σ) (hI : I σ) {a : Option T}
    (hs : Step code σ a σ') (hok : ∀ t, a = some t → ok σ t) : W.Tight σ' := by
  cases hs with
  | @acquire t q hc hi _ =>
    intro t₁ k h₁
    refine (h t₁ k h₁).imp_right fun ho => ?_
    rcases ho.move ((σ.give (some t)).goto t q) rfl (fun _ _ ha => ha) with ho | ⟨-, ho⟩
    · exact ho
    · have := W.held ho
      rw [(D.acquire hi).1] at this; cases this
  | @release t q hc hi _ =>
    intro t₁ k h₁
    refine (h t₁ k h₁).imp_right fun ho => ?_
    rcases ho.move ((σ.give none).goto t q) rfl (fun _ _ ha => ha) with ho | ⟨-, ho⟩
    · exact ho
    · exact absurd ho (W.release (hok t rfl) hi k)
  | @run t m q hc hi =>
    intro t₁ k h₁
    have howes : W.owes q k → W.Owed ((σ.store m).goto t q) k := fun ho =>
      ⟨t, hc, by rwa [State.goto_pc, Function.update_self]⟩
    obtain ⟨hblocked, hkept⟩ := W.run hI hc hi t₁ k h₁
    rcases h t₁ k h₁ with hb | ho
    · exact (hblocked hb).imp_right howes
    · rcases ho.move ((σ.store m).goto t q) rfl (fun _ _ ha => ha) with ho | ⟨-, ho⟩
      · exact .inr ho
      · exact (hkept ho).elim (fun ho => .inr (howes ho)) .inl
  | @sleep t k q hc hi _ =>
    intro t₁ k₁ h₁
    obtain ⟨hb, hno⟩ := W.sleep hI hc hi
    by_cases htt : t₁ = t
    · subst htt
      simp only [State.goto_ctx, State.setCtx_ctx, Function.update_self, Ctx.asleep.injEq] at h₁
      subst h₁; exact .inl hb
    · simp only [State.goto_ctx, State.setCtx_ctx, Function.update_of_ne htt] at h₁
      refine (h t₁ k₁ h₁).imp_right fun ho => ?_
      have hctx : ∀ t', t' ≠ t → σ.ctx t' = .awake →
          Function.update σ.ctx t (.asleep k) t' = .awake := fun t' hne ha => by
        rwa [Function.update_of_ne hne]
      rcases ho.move (((σ.give none).setCtx t (.asleep k)).goto t q) rfl hctx with ho | ⟨-, ho⟩
      · exact ho
      · exact absurd ho (hno k₁)
  | @wakeup t k q hc hi =>
    intro t₁ k₁ h₁
    obtain ⟨h₁, hne⟩ := σ.wakeup_asleep t₁ k h₁
    refine (h t₁ k₁ h₁).imp_right fun ho => ?_
    have hctx : ∀ t', t' ≠ t → σ.ctx t' = .awake → (σ.wakeup k).ctx t' = .awake :=
      fun t' _ ha => (σ.wakeup_awake t' k).2 ha
    rcases ho.move ((σ.wakeup k).goto t q) rfl hctx with ho | ⟨-, ho⟩
    · exact ho
    · rcases W.wakeup hi k₁ ho with rfl | ho
      · exact absurd rfl hne
      · exact ⟨t, (σ.wakeup_awake t k).2 hc, by rwa [State.goto_pc, Function.update_self]⟩
  | @resume t hc _ =>
    intro t₁ k h₁
    have htt : t₁ ≠ t := by
      rintro rfl
      simp at h₁
    simp only [State.setCtx_ctx, Function.update_of_ne htt] at h₁
    refine (h t₁ k h₁).imp_right fun ⟨t', ha, ho⟩ => ⟨t', ?_, ho⟩
    have hne : t' ≠ t := by
      rintro rfl; rw [hc] at ha; cases ha
    simpa [hne] using ha
  | @kill t =>
    intro t₁ k h₁
    refine (h t₁ k (σ.kill_asleep t h₁)).imp_right fun ⟨t', ha, ho⟩ => ⟨t', ?_, ho⟩
    exact (σ.kill_awake t).2 ha

/-- **No wakeup is lost**: a thread that sleeps is blocked, or its wakeup is on
    its way. -/
theorem blocked_or_owed {init : State T S K P → Prop} (hinit : ∀ σ, init σ → D.Start σ)
    (hI : ∀ σ, Reach code init ok σ → I σ) (h : Reach code init ok σ) : W.Tight σ := by
  refine h.invariant_of hI (fun σ hi t k ht => ?_) fun _ _ _ hI hT hs hok => hT.step hI hs hok
  rw [(hinit σ hi).awake t] at ht; cases ht

omit [DecidableEq T] [DecidableEq K] in
/-- While the lock is free, each thread that sleeps is blocked. -/
theorem Tight.blocked {W : Sleepers D I ok} (h : W.Tight σ) (hD : D.Inv σ)
    (hfree : σ.owner = none) {t : T} {k : K} (ht : σ.ctx t = .asleep k) :
    W.blocked t k σ.mem := by
  refine (h t k ht).resolve_right fun ⟨t', ha, ho⟩ => ?_
  have := W.held ho
  rw [hD.free hfree ha] at this; cases this

end Sleepers

end

end Monitor
