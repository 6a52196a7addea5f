/-
  User programs, and what they do on atomic semaphores.

  A program makes system calls, prints, forks and waits.  `processes` runs
  programs on the kernel, `ProgStep` on an array of counting semaphores that
  performs each call in one step.  As long as the programs are `Calm` there,
  each state of the kernel is one of these atomic runs (`running_of_reach`).

  fork, wait and exit are as documented, not the code of proc.c: fork makes the
  process `kid p`, or fails if `fails` lets it, and wait goes on when that one
  has exited.  That proc.c does this for a process with one child is `fork_result`
  and `wait_child` (OSLabs.Kernel.FamilyKids).
-/
import OSLabs.Kernel.Atomic

namespace OSLabs.User

open LockMachine OSLabs.Kernel AtomicObject

variable {n : ℕ} {C : Type} [DecidableEq C]

/-- A program, up to its exit. -/
inductive Prog where
  | exit
  | call (c : Call) (k : Int32 → Prog)
  | print (line : String) (k : Prog)
  | fork (k : Int32 → Prog)
  | wait (k : Prog)

def Prog.isExit : Prog → Bool
  | .exit => true
  | _ => false

theorem Prog.eq_exit {x : Prog} (h : x.isExit = true) : x = .exit := by
  cases x <;> first | rfl | cases h

/-- What is left of the program of each process (none if it is not forked yet),
    and the lines on the console, with the processes that printed them. -/
structure Jobs (n : ℕ) where
  prog : Fin n → Option Prog
  out : List (Fin n × String)

namespace Jobs

def setProg (g : Jobs n) (p : Fin n) (x : Prog) : Jobs n :=
  { g with prog := Function.update g.prog p (some x) }

def print (g : Jobs n) (p : Fin n) (line : String) : Jobs n :=
  { g with out := g.out ++ [(p, line)] }

@[simp] theorem setProg_prog (g : Jobs n) (p : Fin n) (x : Prog) :
    (g.setProg p x).prog = Function.update g.prog p (some x) := rfl

@[simp] theorem setProg_out (g : Jobs n) (p : Fin n) (x : Prog) : (g.setProg p x).out = g.out := rfl

@[simp] theorem print_prog (g : Jobs n) (p : Fin n) (line : String) :
    (g.print p line).prog = g.prog := rfl

@[simp] theorem print_out (g : Jobs n) (p : Fin n) (line : String) :
    (g.print p line).out = g.out ++ [(p, line)] := rfl

end Jobs

section
variable (kid : Fin n → Fin n) (fails : Bool)

/-- What a process does without the semaphores. -/
inductive Acts (p : Fin n) (g : Jobs n) : Jobs n → Prop
  | print {line : String} {x : Prog} : g.prog p = some (.print line x) →
      Acts p g ((g.print p line).setProg p x)
  | fork {k : Int32 → Prog} {pid : Int32} : g.prog p = some (.fork k) → g.prog (kid p) = none →
      0 < pid → Acts p g ((g.setProg p (k pid)).setProg (kid p) (k 0))
  | forkFails {k : Int32 → Prog} : fails = true → g.prog p = some (.fork k) →
      Acts p g (g.setProg p (k (-1)))
  | wait {x : Prog} : g.prog p = some (.wait x) → g.prog (kid p) = some .exit →
      Acts p g (g.setProg p x)

/-- The program goes on with the result of a call. -/
def resume (p : Fin n) (g : Jobs n) (r : Int32) : Jobs n :=
  match g.prog p with
  | some (.call _ k) => g.setProg p (k r)
  | _ => g

/-- The processes that run programs. -/
def processes : UserSys n (Jobs n) where
  calls p g c g' := g' = g ∧ ∃ k, g.prog p = some (.call c k)
  ret := resume
  acts := Acts kid fails

/-- The semaphores and the programs. -/
structure ProgState (n : ℕ) where
  slots : Slots
  jobs : Jobs n

/-- A step of a process on atomic semaphores. -/
inductive ProgStep (π : ProgState n) : ProgState n → Prop
  | call {p : Fin n} {c : Call} {k : Int32 → Prog} {r : Int32} {slots : Slots} :
      π.jobs.prog p = some (.call c k) → Effect c π.slots r slots →
      ProgStep π ⟨slots, π.jobs.setProg p (k r)⟩
  | act {p : Fin n} {g : Jobs n} : Acts kid fails p π.jobs g → ProgStep π ⟨π.slots, g⟩

inductive ProgReach (start : ProgState n) : ProgState n → Prop
  | start : ProgReach start start
  | step {π π' : ProgState n} : ProgReach start π → ProgStep kid fails π π' → ProgReach start π'

/-- **An invariant of atomic runs.** -/
theorem ProgReach.invariant {kid : Fin n → Fin n} {fails : Bool} {start π : ProgState n}
    {I : ProgState n → Prop} (h₀ : I start)
    (hstep : ∀ π π', I π → ProgStep kid fails π π' → I π') (h : ProgReach kid fails start π) :
    I π := by
  induction h with
  | start => exact h₀
  | step _ hs ih => exact hstep _ _ ih hs

end

/-- No process is about to up a semaphore that is full, to down or up a damaged
    one, to close one that another process is about to down, or to kill. -/
structure Calm (π : ProgState n) : Prop where
  up : ∀ p s k, π.jobs.prog p = some (.call (.semUp s) k) →
    ∀ v, π.slots s = some v → 0 ≤ v ∧ v < Int32.maxValue.toInt
  down : ∀ p s k, π.jobs.prog p = some (.call (.semDown s) k) →
    ∀ v, π.slots s = some v → 0 ≤ v
  close : ∀ p t s k k', π.jobs.prog p = some (.call (.semClose s) k) →
    π.jobs.prog t ≠ some (.call (.semDown s) k')
  kill : ∀ p pid k, π.jobs.prog p ≠ some (.call (.kill pid) k)

/-! ## The programs of the kernel -/

/-- The program of a process whose call has been performed goes on already. -/
def effective : Phase Call Int32 → Option Prog → Option Prog
  | .responded r, some (.call _ k) => some (k r)
  | _, x => x

/-- The kernel as atomic semaphores with programs. -/
def view (σ : KState n (Jobs n) C) : ProgState n where
  slots := slot ∘ σ.mem.value
  jobs :=
    { prog := fun p => effective (σ.pc p).phase (σ.mem.user.prog p)
      out := σ.mem.user.out }

/-- A process in a system call is at the call in its program. -/
structure InCall (ph : Phase Call Int32) (x : Option Prog) : Prop where
  invoked : ∀ c, ph = .invoked c → ∃ k, x = some (.call c k)
  responded : ∀ r, ph = .responded r → ∃ c k, x = some (.call c k)

/-- Points that are not on the way out of a killed process. -/
def Alive (q : Point n) : Prop := q.phase ≠ .exited ∧ ∀ b, q ≠ .killedRelease b true

variable {kid : Fin n → Fin n} {fails : Bool}

/-- **What holds while programs run**, next to the invariant of the kernel. -/
structure Running (kid : Fin n → Fin n) (fails : Bool) (σ : KState n (Jobs n) C) : Prop where
  kernel : KInv (processes kid fails) σ
  waits : WaitsOpen σ
  wake : ∀ s, WakeInv s σ
  killed : ∀ p, σ.mem.killed p = false
  alive : ∀ p, Alive (σ.pc p)
  calls : ∀ p, InCall (σ.pc p).phase (σ.mem.user.prog p)

variable {p t : Fin n} {s : Int32} {q q' : Point n} {m m' : Mem n (Jobs n)}
  {σ σ' : KState n (Jobs n) C} {a : Option (Fin n)}

@[simp] theorem effective_idle (x : Option Prog) : effective .idle x = x := by
  cases x <;> rfl

@[simp] theorem effective_invoked (c : Call) (x : Option Prog) : effective (.invoked c) x = x := by
  cases x <;> rfl

@[simp] theorem effective_none (ph : Phase Call Int32) : effective ph none = none := by
  cases ph <;> rfl

@[simp] theorem effective_exit (ph : Phase Call Int32) :
    effective ph (some .exit) = some .exit := by
  cases ph <;> rfl

@[simp] theorem effective_responded (r : Int32) (c : Call) (k : Int32 → Prog) :
    effective (.responded r) (some (.call c k)) = some (k r) := rfl

theorem waits_phase (h : q.waits s) : q.phase = .invoked (.semDown s) := by
  have hfree : ∀ {f : Free}, f.waits s → f.phase = .invoked (.semDown s) := by
    intro f hf
    cases f with
    | reacquire s' => obtain rfl := hf; rfl
    | _ => exact hf.elim
  cases q with
  | free f => exact hfree h
  | yield f => exact hfree h
  | yieldState f => exact hfree h
  | yieldSched f => exact hfree h
  | yieldRelease f => exact hfree h
  | _ => first | exact h.elim | (obtain rfl := h; rfl)

/-! ## One step -/

omit [DecidableEq C] in
/-- Calm programs run gently on the kernel. -/
theorem Running.gentle (h : Running kid fails σ) (hcalm : Calm (view σ)) (p : Fin n) :
    Gentle σ p := by
  have hprog : ∀ {t c}, (σ.pc t).phase = .invoked c →
      ∃ k, (view σ).jobs.prog t = some (.call c k) := by
    intro t c ht
    obtain ⟨k, hk⟩ := (h.calls t).invoked c ht
    exact ⟨k, by simp only [view, ht, effective_invoked, hk]⟩
  refine ⟨fun s hpc => ?_, fun s hpc => ?_, fun s hpc t ht => ?_⟩
  · obtain ⟨k, hk⟩ := hprog (t := p) (c := .semUp s) (by rw [hpc]; rfl)
    have hne := h.kernel.asserts p
    rw [hpc] at hne
    obtain ⟨hle, hlt⟩ := hcalm.up p s k hk _ (if_neg hne)
    exact ⟨fun hmax => by rw [hmax] at hlt; exact absurd hlt (lt_irrefl _),
      Int32.le_iff_toInt_le.2 hle⟩
  · obtain ⟨k, hk⟩ := hprog (t := p) (c := .semDown s) (by rw [hpc]; rfl)
    have hne := h.waits p s (by rw [hpc]; rfl)
    exact Int32.le_iff_toInt_le.2 (hcalm.down p s k hk _ (if_neg hne))
  · obtain ⟨k, hk⟩ := hprog (t := p) (c := .semClose s) (by rw [hpc]; rfl)
    obtain ⟨k', hk'⟩ := hprog (t := t) (waits_phase ht)
    exact hcalm.close p t s k k' hk hk'

/-- Nobody is killed, and nobody is on the way out. -/
theorem alive_move {G : Type} {U : UserSys n G} {m m' : Mem n G} (h : Moves U p m q q' m')
    (hq : Alive q) (hp : m.killed p = false) (hcall : ∀ pid, q.phase ≠ .invoked (.kill pid)) :
    Alive q' ∧ m'.killed = m.killed := by
  cases h with
  | killedExit => exact absurd rfl (hq.2 _)
  | killedCheck =>
    rw [hp]
    exact ⟨⟨hq.1, nofun⟩, rfl⟩
  | enter hf =>
    refine ⟨⟨?_, nofun⟩, rfl⟩
    rcases enter_phase hf with hphase | ⟨-, hphase⟩
    · rw [Point.phase, hphase]; exact nofun
    · rw [Point.phase, hphase]; exact nofun
  | killWake _ _ => exact absurd rfl (hcall _)
  | killMark _ _ => exact absurd rfl (hcall _)
  | _ => exact ⟨⟨by first | exact hq.1 | exact nofun, nofun⟩, rfl⟩

theorem InCall.idle (x : Option Prog) : InCall .idle x := ⟨nofun, nofun⟩

/-- A process that is not forked yet is in no call. -/
theorem InCall.phase_of_none {ph : Phase Call Int32} (h : InCall ph none) (ha : ph ≠ .exited) :
    ph = .idle := by
  cases ph with
  | idle => rfl
  | invoked c => obtain ⟨k, hk⟩ := h.invoked c rfl; cases hk
  | responded r => obtain ⟨c, k, hk⟩ := h.responded r rfl; cases hk
  | exited => exact absurd rfl ha

omit [DecidableEq C] in
theorem view_eq (hvalue : σ'.mem.value = σ.mem.value) (hout : σ'.mem.user.out = σ.mem.user.out)
    (hprog : ∀ t, effective (σ'.pc t).phase (σ'.mem.user.prog t) =
      effective (σ.pc t).phase (σ.mem.user.prog t)) : view σ' = view σ := by
  simp only [view, hvalue, hout, hprog]

omit [DecidableEq C] in
/-- The actions of a process between its calls are those of its program. -/
theorem view_acts {g : Jobs n} (h : Running kid fails σ) (hp : (σ.pc p).phase = .idle)
    (hact : Acts kid fails p σ.mem.user g) :
    Acts kid fails p (view σ).jobs
        { prog := fun t => effective (σ.pc t).phase (g.prog t), out := g.out } ∧
      ∀ t, InCall (σ.pc t).phase (g.prog t) := by
  have hview : ∀ {t x}, σ.mem.user.prog t = some x → (σ.pc t).phase = .idle →
      (view σ).jobs.prog t = some x := by
    intro t x ht hphase
    simp only [view, hphase, effective_idle, ht]
  -- what is set anew is between calls
  have hset : ∀ {g : Jobs n} {t x}, (σ.pc t).phase = .idle →
      (fun u => effective (σ.pc u).phase ((g.setProg t x).prog u)) =
        Function.update (fun u => effective (σ.pc u).phase (g.prog u)) t (some x) := by
    intro g t x ht
    funext u
    by_cases hu : u = t
    · subst hu; simp [ht]
    · simp [hu]
  have hcalls : ∀ {g : Jobs n} {t x}, (σ.pc t).phase = .idle →
      (∀ u, InCall (σ.pc u).phase (g.prog u)) →
      ∀ u, InCall (σ.pc u).phase ((g.setProg t x).prog u) := by
    intro g t x ht hg u
    by_cases hu : u = t
    · subst hu; rw [ht]; exact .idle _
    · simp only [Jobs.setProg_prog, Function.update_of_ne hu]; exact hg u
  cases hact with
  | @print line x hprog =>
    refine ⟨?_, hcalls hp h.calls⟩
    rw [hset hp]
    exact .print (hview hprog hp)
  | @fork k pid hprog hkid hpid =>
    have hidle : (σ.pc (kid p)).phase = .idle :=
      InCall.phase_of_none (hkid ▸ h.calls (kid p)) (h.alive (kid p)).1
    refine ⟨?_, hcalls hidle (hcalls hp h.calls)⟩
    rw [hset hidle, hset hp]
    exact .fork (hview hprog hp) (by simp only [view, hkid, effective_none]) hpid
  | forkFails hfails hprog =>
    refine ⟨?_, hcalls hp h.calls⟩
    rw [hset hp]
    exact .forkFails hfails (hview hprog hp)
  | wait hprog hkid =>
    refine ⟨?_, hcalls hp h.calls⟩
    rw [hset hp]
    exact .wait (hview hprog hp) (by simp only [view, hkid, effective_exit])

omit [DecidableEq C] in
/-- **A move of a process is a step of its program, or none.** -/
theorem view_move (h : Running kid fails σ) (hcalm : Calm (view σ))
    (hq : Moves (processes kid fails) p σ.mem (σ.pc p) q σ'.mem)
    (hpc : σ'.pc = Function.update σ.pc p q) (ha : Alive q) :
    (view σ' = view σ ∨ ProgStep kid fails (view σ) (view σ')) ∧
      ∀ t, InCall (σ'.pc t).phase (σ'.mem.user.prog t) := by
  have hg := h.gentle hcalm p
  have hself : (σ'.pc p).phase = q.phase := by rw [hpc, Function.update_self]
  have hother : ∀ t ≠ p, (σ'.pc t).phase = (σ.pc t).phase := by
    intro t ht
    rw [hpc, Function.update_of_ne ht]
  have hsame : q.phase = (σ.pc p).phase → ∀ t, (σ'.pc t).phase = (σ.pc t).phase := by
    intro hphase t
    by_cases ht : t = p
    · subst ht; rw [hself, hphase]
    · exact hother t ht
  cases hq.answer (h.kernel.asserts p) hg.up hg.down with
  | stutter hphase huser hvalue =>
    have hphases := hsame hphase
    refine ⟨.inl (view_eq hvalue (by rw [huser]) fun t => by rw [hphases, huser]), fun t => ?_⟩
    rw [hphases, huser]; exact h.calls t
  | invoke hidle hcall hphase hvalue =>
    obtain ⟨huser, k, hk⟩ := hcall
    refine ⟨.inl (view_eq hvalue (by rw [huser]) fun t => ?_), fun t => ?_⟩
    · rw [huser]
      by_cases ht : t = p
      · subst ht; rw [hself, hphase, hidle, effective_invoked, effective_idle]
      · rw [hother t ht]
    · rw [huser]
      by_cases ht : t = p
      · subst ht
        rw [hself, hphase]
        exact ⟨fun c hc => by cases hc; exact ⟨k, hk⟩, nofun⟩
      · rw [hother t ht]; exact h.calls t
  | @respond r hphase huser hidle hvalue =>
    obtain ⟨c, k, hk⟩ := (h.calls p).responded r hphase
    have huser : σ'.mem.user = σ.mem.user.setProg p (k r) := by
      rw [huser]; simp only [processes, resume, hk]
    refine ⟨.inl (view_eq hvalue (by rw [huser]; rfl) fun t => ?_), fun t => ?_⟩
    · rw [huser]
      by_cases ht : t = p
      · subst ht
        rw [hself, hidle, hphase, hk, effective_responded]; simp
      · rw [hother t ht]; simp [ht]
    · rw [huser]
      by_cases ht : t = p
      · subst ht; rw [hself, hidle]; exact .idle _
      · rw [hother t ht]; simp only [Jobs.setProg_prog, Function.update_of_ne ht]; exact h.calls t
  | act hidle hact hidle' hvalue =>
    have hphases := hsame (hidle'.trans hidle.symm)
    obtain ⟨hacts, hcalls⟩ := view_acts h hidle hact
    refine ⟨.inr ?_, fun t => by rw [hphases]; exact hcalls t⟩
    have := ProgStep.act (π := view σ) hacts
    rwa [show view σ' = ⟨(view σ).slots, _⟩ by simp only [view, hvalue, hphases]; rfl]
  | exit hphase _ _ => exact absurd hphase ha.1
  | @perform c r hinv hresp heffect huser _ =>
    obtain ⟨k, hk⟩ := (h.calls p).invoked c hinv
    have hview : (view σ).jobs.prog p = some (.call c k) := by
      simp only [view, hinv, effective_invoked, hk]
    have hjobs : (view σ').jobs = (view σ).jobs.setProg p (k r) := by
      simp only [view, huser, Jobs.setProg, Jobs.mk.injEq, and_true]
      funext t
      by_cases ht : t = p
      · subst ht; rw [hself, hresp, hk, effective_responded, Function.update_self]
      · rw [hother t ht, Function.update_of_ne ht]
    refine ⟨.inr ?_, fun t => ?_⟩
    · rw [show view σ' = ⟨slot ∘ σ'.mem.value, (view σ').jobs⟩ from rfl, hjobs]
      exact .call hview heffect
    · rw [huser]
      by_cases ht : t = p
      · subst ht; rw [hself, hresp]; exact ⟨nofun, fun r' _ => ⟨c, k, hk⟩⟩
      · rw [hother t ht]; exact h.calls t

theorem Running.step (h : Running kid fails σ) (hcalm : Calm (view σ))
    (hs : Step (code (processes kid fails)) σ a σ') :
    Running kid fails σ' ∧ (view σ' = view σ ∨ ProgStep kid fails (view σ) (view σ')) := by
  have hkernel := h.kernel.step hs
  have hgentle : ∀ p, a = some p → Gentle σ p := fun p _ => h.gentle hcalm p
  have hwaits := h.waits.step h.kernel hs hgentle
  have hwake := fun s => (h.wake s).step h.kernel hs fun p hp => ((hgentle p hp).close s).awake
  rcases step_cases hs with ⟨-, hpc, hm⟩ | ⟨p, q, rfl, -, hq, hpc⟩
  · have hmem : σ'.mem.killed = σ.mem.killed ∧ σ'.mem.user = σ.mem.user ∧
        σ'.mem.value = σ.mem.value := by
      rcases hm with hm | ⟨t, -, hm⟩ <;> rw [hm] <;> exact ⟨rfl, rfl, rfl⟩
    obtain ⟨hk, huser, hvalue⟩ := hmem
    refine ⟨⟨hkernel, hwaits, hwake, by rw [hk]; exact h.killed, by rw [hpc]; exact h.alive, ?_⟩,
      .inl ?_⟩
    · rw [hpc, huser]; exact h.calls
    · exact view_eq hvalue (by rw [huser]) fun t => by rw [hpc, huser]
  · have hcall : ∀ pid, (σ.pc p).phase ≠ .invoked (.kill pid) := by
      intro pid hphase
      obtain ⟨k, hk⟩ := (h.calls p).invoked _ hphase
      exact hcalm.kill p pid k (by simp only [view, hphase, effective_invoked, hk])
    obtain ⟨ha, hk⟩ := alive_move hq (h.alive p) (h.killed p) hcall
    obtain ⟨hview, hcalls⟩ := view_move h hcalm hq hpc ha
    refine ⟨⟨hkernel, hwaits, hwake, by rw [hk]; exact h.killed, fun t => ?_, hcalls⟩, hview⟩
    rw [hpc]
    by_cases ht : t = p
    · subst ht; rw [Function.update_self]; exact ha
    · rw [Function.update_of_ne ht]; exact h.alive t

/-! ## All steps -/

variable {table : Int32 → Int32} {g : Jobs n}

omit [DecidableEq C] in
theorem Starts.running (h : Starts table g σ) : Running kid fails σ where
  kernel := h.kinv
  waits := h.waitsOpen
  wake _ := h.wakeInv
  killed := h.killed
  alive p := by rw [h.pc]; exact ⟨nofun, nofun⟩
  calls p := by rw [h.pc]; exact .idle _

omit [DecidableEq C] in
theorem Starts.view (h : Starts table g σ) : view σ = ⟨slot ∘ table, g⟩ := by
  simp only [User.view, h.value, h.pc, h.user, Point.phase, effective_idle]

/-- **Calm programs run as on atomic semaphores.** -/
theorem running_of_reach {ok : KState n (Jobs n) C → Fin n → Prop}
    (hcalm : ∀ π, ProgReach kid fails ⟨slot ∘ table, g⟩ π → Calm π)
    (h : Reach (code (processes kid fails)) (Starts table g) ok σ) :
    Running kid fails σ ∧ ProgReach kid fails ⟨slot ∘ table, g⟩ (view σ) := by
  refine h.invariant (I := fun σ => Running kid fails σ ∧
    ProgReach kid fails ⟨slot ∘ table, g⟩ (view σ)) (fun σ hi => ?_) ?_
  · exact ⟨Starts.running hi, by rw [Starts.view hi]; exact .start⟩
  · rintro σ a σ' ⟨hr, hreach⟩ hs -
    obtain ⟨hr', heq | hstep⟩ := hr.step (hcalm _ hreach) hs
    · exact ⟨hr', by rw [heq]; exact hreach⟩
    · exact ⟨hr', hreach.step hstep⟩

/-! ## Running -/

/-- The next instruction of a process that runs its program. -/
def pick (kid : Fin n → Fin n) (p : Fin n) (q : Point n) (m : Mem n (Jobs n)) :
    Option (KInstr n (Jobs n)) :=
  match q with
  | .free .user =>
    match m.user.prog p with
    | some (.call c _) => some (.run (m.setUser m.user) (.free (.killed (.syscall c))))
    | some (.print line x) =>
      some (.run (m.setUser ((m.user.print p line).setProg p x)) (.free .user))
    | some (.fork k) =>
      match m.user.prog (kid p) with
      | none =>
        some (.run (m.setUser ((m.user.setProg p (k 1)).setProg (kid p) (k 0))) (.free .user))
      | some _ => none
    | some (.wait x) =>
      match m.user.prog (kid p) with
      | some .exit => some (.run (m.setUser (m.user.setProg p x)) (.free .user))
      | _ => none
    | _ => none
  | q => exec (processes kid false) p q m

theorem pick_does {m : Mem n (Jobs n)} {i : KInstr n (Jobs n)} (h : pick kid p q m = some i) :
    Does (processes kid false) p q m i := by
  unfold pick at h
  split at h
  · split at h
    · rename_i c k hc
      cases h; exact .call ⟨rfl, k, hc⟩
    · rename_i line x hx
      cases h; exact .act (.print hx)
    · rename_i k hk
      split at h
      · rename_i hnone
        cases h; exact .act (.fork hk hnone (by decide))
      · cases h
    · rename_i x hx
      split at h
      · rename_i hexit
        cases h; exact .act (.wait hx hexit)
      · cases h
    · cases h
  · exact .code h

/-- The state after a schedule. -/
def run (kid : Fin n → Fin n) (cs : List (Fin n)) (table : Int32 → Int32) (g : Jobs n) :
    Option (KState n (Jobs n) (Fin n)) :=
  ticks (code (processes kid false)) (pick kid) (fun _ _ => true) cs (boot table g)

theorem run_reach {cs : List (Fin n)} {σ : KState n (Jobs n) (Fin n)}
    (h : run kid cs table g = some σ) :
    Reach (code (processes kid false)) (Starts table g) (fun _ _ => True) σ :=
  ticks_reach (fun _ _ _ => trivial) (fun _ _ _ _ hi => pick_does hi)
    (.init (boot_starts table g)) h

end OSLabs.User
