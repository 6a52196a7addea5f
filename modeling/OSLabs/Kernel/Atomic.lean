/-
  The semaphores as atomic counters.

  `Effect` is what a call does to an array of counting semaphores that performs
  each call in one step.  A state of the kernel is read as a state of that
  array and its clients (`abstract`); each step of the kernel is then a step of
  the array, of a client, or none (`abstract_step`), as long as no sem_up
  overflows and no semaphore is closed while a sem_down waits on it.  The array
  performs a call at the write to the value, under the lock of the semaphore.
-/
import OSLabs.Kernel.Wakeup
import OSLabs.Kernel.Values
import OSLabs.Lib.AtomicObject

namespace OSLabs.Kernel

open LockMachine AtomicObject

variable {n : ℕ} {G C : Type} [DecidableEq C] {U : UserSys n G} {p t : Fin n} {s : Int32}
  {q q' : Point n} {m m' : Mem n G} {σ σ' : KState n G C} {a : Option (Fin n)}
  {table : Int32 → Int32} {g : G}

/-! ## Counting semaphores -/

/-- An array of counting semaphores; none if the semaphore is closed. -/
abbrev Slots := Int32 → Option ℤ

/-- The calls that sem_open and sem_close do not get to. -/
def Call.Rejected : Call → Prop
  | .semOpen s v => v < 0 ∨ s < 0 ∨ s > maxSem
  | .semClose s => s < 0 ∨ s > maxSem
  | _ => False

/-- **What a call does to the semaphores**, and what it returns. -/
inductive Effect : Call → Slots → Int32 → Slots → Prop
  | reject {c slots} : c.Rejected → Effect c slots err slots
  | openErr {s v slots} : slots s ≠ none → Effect (.semOpen s v) slots err slots
  | openOk {s v slots} : 0 ≤ v → slots s = none →
      Effect (.semOpen s v) slots success (Function.update slots s (some v.toInt))
  | close {s slots} : Effect (.semClose s) slots success (Function.update slots s none)
  | upErr {s slots} : slots s = none → Effect (.semUp s) slots err slots
  | upOk {s slots k} : slots s = some k →
      Effect (.semUp s) slots success (Function.update slots s (some (k + 1)))
  | downErr {s slots} : slots s = none → Effect (.semDown s) slots err slots
  | downOk {s slots k} : slots s = some k → 0 < k →
      Effect (.semDown s) slots success (Function.update slots s (some (k - 1)))
  | kill {pid r slots} : Effect (.kill pid) slots r slots

/-- A call only changes its own semaphore. -/
theorem Effect.frame {c : Call} {slots slots' : Slots} {r : Int32} (h : Effect c slots r slots')
    (hs : c.sem ≠ some s) : slots' s = slots s := by
  have hne : ∀ {s'}, some s' ≠ some s → s ≠ s' := by rintro s' h rfl; exact h rfl
  cases h with
  | openOk _ _ => exact Function.update_of_ne (hne hs) ..
  | close => exact Function.update_of_ne (hne hs) ..
  | upOk _ => exact Function.update_of_ne (hne hs) ..
  | downOk _ _ => exact Function.update_of_ne (hne hs) ..
  | _ => rfl

/-- A call that returns ERR changes nothing. -/
theorem Effect.of_err {c : Call} {slots slots' : Slots} (h : Effect c slots err slots') :
    slots' = slots := by
  generalize hr : err = r at h
  cases h <;> first | rfl | exact absurd hr (by decide)

section
variable {slots slots' : Slots} {r v : Int32} {k : ℤ}

/-- The slots of the table pass the checks of sem_open and sem_close. -/
theorem InRange.not_rejected (h : InRange s) : ¬ (s < 0 ∨ s > maxSem) := by
  rintro (hs | hs)
  · exact Int32.not_lt.2 h.1 hs
  · exact Int32.not_lt.2 (Int32.le_of_lt h.2) hs

theorem Effect.semOpen (h : Effect (.semOpen s v) slots r slots') (hs : InRange s) (hv : 0 ≤ v) :
    (slots s ≠ none ∧ r = err ∧ slots' = slots) ∨
    (slots s = none ∧ r = success ∧ slots' = Function.update slots s (some v.toInt)) := by
  cases h with
  | reject hrej =>
    rcases hrej with hlt | hrej
    · exact absurd hlt (Int32.not_lt.2 hv)
    · exact absurd hrej hs.not_rejected
  | openErr hne => exact .inl ⟨hne, rfl, rfl⟩
  | openOk _ hnone => exact .inr ⟨hnone, rfl, rfl⟩

theorem Effect.semClose (h : Effect (.semClose s) slots r slots') (hs : InRange s) :
    slots' = Function.update slots s none := by
  cases h with
  | reject hrej => exact absurd hrej hs.not_rejected
  | close => rfl

theorem Effect.semUp (h : Effect (.semUp s) slots r slots') (hk : slots s = some k) :
    slots' = Function.update slots s (some (k + 1)) := by
  cases h with
  | reject hrej => exact hrej.elim
  | upErr hnone => rw [hk] at hnone; cases hnone
  | upOk hk' => rw [hk] at hk'; cases hk'; rfl

theorem Effect.semDown (h : Effect (.semDown s) slots r slots') (hk : slots s = some k) :
    0 < k ∧ slots' = Function.update slots s (some (k - 1)) := by
  cases h with
  | reject hrej => exact hrej.elim
  | downErr hnone => rw [hk] at hnone; cases hnone
  | downOk hk' hpos => rw [hk] at hk'; cases hk'; exact ⟨hpos, rfl⟩

end

/-- The clients of the array are the programs of the processes. -/
def UserSys.clients (U : UserSys n G) : Clients (Fin n) Call Int32 G :=
  ⟨U.calls, U.ret, U.acts⟩

/-! ## The kernel as an array of semaphores -/

def slot (v : Int32) : Option ℤ := if v = emptySem then none else some v.toInt

def Trap.phase : Trap → Phase Call Int32
  | .syscall c => .invoked c
  | .userret r => .responded r
  | .timer => .idle

def Free.phase : Free → Phase Call Int32
  | .user => .idle
  | .killed b => b.phase
  | .semOpen s v => .invoked (.semOpen s v)
  | .semClose s => .invoked (.semClose s)
  | .semUp s => .invoked (.semUp s)
  | .semDown s => .invoked (.semDown s)
  | .reacquire s => .invoked (.semDown s)
  | .kill pid _ => .invoked (.kill pid)
  | .resume r => .responded r
  | .exit => .exited

/-- Where a process at a point is with its system calls. -/
def Point.phase : Point n → Phase Call Int32
  | .free f => f.phase
  | .forkret => .idle
  | .dead => .exited
  | .killedCheck b => b.phase
  | .killedRelease b _ => b.phase
  | .openTest s v => .invoked (.semOpen s v)
  | .openRelease _ r => .responded r
  | .closeWrite s => .invoked (.semClose s)
  | .closeRelease _ => .responded success
  | .upTest s => .invoked (.semUp s)
  | .wakeup s _ => .invoked (.semUp s)
  | .wakeupCheck s _ => .invoked (.semUp s)
  | .wakeupRelease s _ => .invoked (.semUp s)
  | .upWrite s => .invoked (.semUp s)
  | .upRelease _ r => .responded r
  | .downTest s => .invoked (.semDown s)
  | .downLoop s => .invoked (.semDown s)
  | .sleep s => .invoked (.semDown s)
  | .sleepRelease s => .invoked (.semDown s)
  | .sleepChan s => .invoked (.semDown s)
  | .sleepState s => .invoked (.semDown s)
  | .sleepSched s => .invoked (.semDown s)
  | .sleepWoken s => .invoked (.semDown s)
  | .sleepUnlock s => .invoked (.semDown s)
  | .downWrite s => .invoked (.semDown s)
  | .downRelease _ r => .responded r
  | .killCheck pid _ => .invoked (.kill pid)
  | .killRelease _ _ true => .responded 0
  | .killRelease pid _ false => .invoked (.kill pid)
  | .exitState => .exited
  | .exitSched => .exited
  | .yield f => f.phase
  | .yieldState f => f.phase
  | .yieldSched f => f.phase
  | .yieldRelease f => f.phase

abbrev AState (n : ℕ) (G : Type) := AtomicObject.State (Fin n) Slots Call Int32 G

/-- The kernel as an array of semaphores with its clients. -/
def abstract (σ : KState n G C) (log : List (Fin n × Call × Int32)) : AState n G where
  obj := slot ∘ σ.mem.value
  phase := Point.phase ∘ σ.pc
  user := σ.mem.user
  log := log

/-- The process is on its CPU, which has the lock of the call's semaphore; a call
    that is rejected, and kill, need none. -/
def Inside (σ : KState n G C) (p : Fin n) (c : Call) : Prop :=
  ∀ s, c.sem = some s → ¬ c.Rejected → ∃ k, σ.ctx k = .running p ∧ σ.owner (.sem s) = some k

/-- The next step of `p` keeps the values in bounds, and closes no semaphore that
    is waited for. -/
structure Gentle (σ : KState n G C) (p : Fin n) : Prop where
  up : ∀ s, σ.pc p = .upWrite s → σ.mem.value s ≠ Int32.maxValue ∧ 0 ≤ σ.mem.value s
  down : ∀ s, σ.pc p = .downWrite s → 0 ≤ σ.mem.value s
  close : ∀ s, ClosesIdle s σ p

/-! ## One step -/

theorem slot_eq_none {v : Int32} : slot v = none ↔ v = emptySem := by
  simp [slot]

theorem slot_injective : Function.Injective slot := by
  intro v w h
  simp only [slot] at h
  split_ifs at h with hv hw hw
  · rw [hv, hw]
  · exact Int32.toInt_inj.1 (Option.some.inj h)

theorem slot_of_nonneg {v : Int32} (h : 0 ≤ v) : slot v = some v.toInt := by
  refine if_neg ?_
  rintro rfl
  exact absurd h (by decide)

theorem slot_succ {v : Int32} (h : 0 ≤ v) (hmax : v ≠ Int32.maxValue) :
    slot (v + 1) = some (v.toInt + 1) := by
  rw [slot_of_nonneg (by grind), toInt_succ hmax]

theorem slot_pred {v : Int32} (h : 0 ≤ v) (hzero : v ≠ 0) :
    slot (v - 1) = some (v.toInt - 1) := by
  rw [slot_of_nonneg (by grind), toInt_pred h]

theorem enter_phase {c : Call} {f : Free} (h : (enter c : Point n) = .free f) :
    f.phase = .invoked c ∨ c.Rejected ∧ f.phase = .responded err := by
  cases c with
  | semOpen s v =>
    simp only [enter] at h
    split_ifs at h with hc
    · cases h; exact .inr ⟨hc, rfl⟩
    · cases h; exact .inl rfl
  | semClose s =>
    simp only [enter] at h
    split_ifs at h with hc
    · cases h; exact .inr ⟨hc, rfl⟩
    · cases h; exact .inl rfl
  | semUp s => cases h; exact .inl rfl
  | semDown s => cases h; exact .inl rfl
  | kill pid => cases h; exact .inl rfl

/-- What a call does to the values, when it is performed. -/
inductive Outcome (m m' : Mem n G) : Call → Int32 → Prop
  | reject {c : Call} : c.Rejected → m'.value = m.value → m'.isOpen = m.isOpen →
      Outcome m m' c err
  | openErr {s v : Int32} : m.value s ≠ emptySem → m'.value = m.value → m'.isOpen = m.isOpen →
      Outcome m m' (.semOpen s v) err
  | openOk {s v : Int32} : m.value s = emptySem → m'.value = Function.update m.value s v →
      m'.isOpen = Function.update m.isOpen s true → Outcome m m' (.semOpen s v) success
  | close {s : Int32} : m'.value = Function.update m.value s emptySem →
      m'.isOpen = Function.update m.isOpen s false → Outcome m m' (.semClose s) success
  | upErr {s : Int32} : m.value s = emptySem → m'.value = m.value → m'.isOpen = m.isOpen →
      Outcome m m' (.semUp s) err
  | upOk {s : Int32} : m'.value = Function.update m.value s (m.value s + 1) →
      m'.isOpen = m.isOpen → Outcome m m' (.semUp s) success
  | downErr {s : Int32} : m.value s = emptySem → m'.value = m.value → m'.isOpen = m.isOpen →
      Outcome m m' (.semDown s) err
  | downOk {s : Int32} : m'.value = Function.update m.value s (m.value s - 1) →
      m'.isOpen = m.isOpen → Outcome m m' (.semDown s) success
  | kill {pid r : Int32} : m'.value = m.value → m'.isOpen = m.isOpen → Outcome m m' (.kill pid) r

/-- The point at which a call is performed, when it returns SUCCESS. -/
def Call.point : Call → Point n
  | .semOpen s v => .openTest s v
  | .semClose s => .closeWrite s
  | .semUp s => .upWrite s
  | .semDown s => .downWrite s
  | .kill _ => .dead

/-- What a move is to a call, and to the program of the process. -/
inductive Reply (U : UserSys n G) (p : Fin n) (m m' : Mem n G) (q q' : Point n) : Prop
  | stutter : q'.phase = q.phase → m'.user = m.user → m'.value = m.value →
      m'.isOpen = m.isOpen → Reply U p m m' q q'
  | invoke {c : Call} : q.phase = .idle → U.calls p m.user c m'.user → q'.phase = .invoked c →
      m'.value = m.value → m'.isOpen = m.isOpen → Reply U p m m' q q'
  | respond {r : Int32} : q.phase = .responded r → m'.user = U.ret p m.user r →
      q'.phase = .idle → m'.value = m.value → m'.isOpen = m.isOpen → Reply U p m m' q q'
  | act : q.phase = .idle → U.acts p m.user m'.user → q'.phase = .idle → m'.value = m.value →
      m'.isOpen = m.isOpen → Reply U p m m' q q'
  | exit : q'.phase = .exited → m'.user = m.user → m'.value = m.value → m'.isOpen = m.isOpen →
      Reply U p m m' q q'
  | perform {c : Call} {r : Int32} : q.phase = .invoked c → q'.phase = .responded r →
      Outcome m m' c r → m'.user = m.user → (r = success → q = c.point) →
      (∀ s, c.sem = some s → ¬ c.Rejected → .sem s ∈ q.held p ∧ .sem s ∈ q'.held p) →
      Reply U p m m' q q'

/-- **Each move performs a call, or leaves the table alone.** -/
theorem Moves.reply (h : Moves U p m q q' m') : Reply U p m m' q q' := by
  -- the lock of the semaphore of a call that is not rejected
  have hlock : ∀ {c : Call} {s : Int32} {q q' : Point n}, c.sem = some s →
      .sem s ∈ q.held p → .sem s ∈ q'.held p →
      ∀ s', c.sem = some s' → ¬ c.Rejected → .sem s' ∈ q.held p ∧ .sem s' ∈ q'.held p := by
    intro c s q q' hc h₁ h₂ s' hs' _
    rw [hc] at hs'; cases hs'; exact ⟨h₁, h₂⟩
  have herr : err ≠ success := by decide
  cases h with
  | call h => exact .invoke rfl h rfl rfl rfl
  | act h => exact .act rfl h rfl rfl rfl
  | killedExit => exact .exit rfl rfl rfl rfl
  | enter hf =>
    rcases enter_phase hf with hphase | ⟨hrej, hphase⟩
    · exact .stutter hphase rfl rfl rfl
    · exact .perform rfl hphase (.reject hrej rfl rfl) rfl (fun h => absurd h herr)
        fun _ _ hn => absurd hrej hn
  | resume => exact .respond rfl rfl rfl rfl rfl
  | openErr hv =>
    exact .perform rfl rfl (.openErr hv rfl rfl) rfl (fun h => absurd h herr)
      (hlock rfl (by simp [Point.held]) (by simp [Point.held]))
  | openWrite hv =>
    exact .perform rfl rfl (.openOk hv rfl rfl) rfl (fun _ => rfl)
      (hlock rfl (by simp [Point.held]) (by simp [Point.held]))
  | closeWrite =>
    exact .perform rfl rfl (.close rfl rfl) rfl (fun _ => rfl)
      (hlock rfl (by simp [Point.held]) (by simp [Point.held]))
  | upErr hv =>
    exact .perform rfl rfl (.upErr hv rfl rfl) rfl (fun h => absurd h herr)
      (hlock rfl (by simp [Point.held]) (by simp [Point.held]))
  | upWrite =>
    exact .perform rfl rfl (.upOk rfl rfl) rfl (fun _ => rfl)
      (hlock rfl (by simp [Point.held]) (by simp [Point.held]))
  | downErr hv =>
    exact .perform rfl rfl (.downErr hv rfl rfl) rfl (fun h => absurd h herr)
      (hlock rfl (by simp [Point.held]) (by simp [Point.held]))
  | downWrite =>
    exact .perform rfl rfl (.downOk rfl rfl) rfl (fun _ => rfl)
      (hlock rfl (by simp [Point.held]) (by simp [Point.held]))
  | killNone _ => exact .perform rfl rfl (.kill rfl rfl) rfl (fun h => absurd h (by decide)) nofun
  | killWake _ _ => exact .perform rfl rfl (.kill rfl rfl) rfl (fun h => absurd h (by decide)) nofun
  | killMark _ _ => exact .perform rfl rfl (.kill rfl rfl) rfl (fun h => absurd h (by decide)) nofun
  | _ => exact .stutter rfl rfl rfl rfl

/-- A move from a call to its result performs the call. -/
theorem Reply.performs {c : Call} {r : Int32} (h : Reply U p m m' q q')
    (hinv : q.phase = .invoked c) (hresp : q'.phase = .responded r) :
    Outcome m m' c r ∧ (r = success → q = c.point) := by
  cases h with
  | stutter hphase _ _ _ => rw [hphase, hinv] at hresp; cases hresp
  | invoke hidle _ _ _ _ => rw [hinv] at hidle; cases hidle
  | respond hphase _ _ _ _ => rw [hinv] at hphase; cases hphase
  | act hidle _ _ _ _ => rw [hinv] at hidle; cases hidle
  | exit hexit _ _ _ => rw [hexit] at hresp; cases hresp
  | perform hinv' hresp' hout _ hpoint _ =>
    cases hinv.symm.trans hinv'
    cases hresp.symm.trans hresp'
    exact ⟨hout, hpoint⟩

/-- Other moves leave the values alone. -/
theorem Reply.keeps (h : Reply U p m m' q q')
    (hno : ∀ c r, q.phase = .invoked c → q'.phase ≠ .responded r) : m'.value = m.value := by
  cases h with
  | stutter _ _ hvalue _ => exact hvalue
  | invoke _ _ _ hvalue _ => exact hvalue
  | respond _ _ _ hvalue _ => exact hvalue
  | act _ _ _ hvalue _ => exact hvalue
  | exit _ _ hvalue _ => exact hvalue
  | perform hinv hresp _ _ _ _ => exact absurd hresp (hno _ _ hinv)

/-- What the array and its clients answer to a move. -/
inductive Answer (U : UserSys n G) (p : Fin n) (m m' : Mem n G) (q q' : Point n) : Prop
  | stutter : q'.phase = q.phase → m'.user = m.user → m'.value = m.value → Answer U p m m' q q'
  | invoke {c : Call} : q.phase = .idle → U.calls p m.user c m'.user → q'.phase = .invoked c →
      m'.value = m.value → Answer U p m m' q q'
  | respond {r : Int32} : q.phase = .responded r → m'.user = U.ret p m.user r →
      q'.phase = .idle → m'.value = m.value → Answer U p m m' q q'
  | act : q.phase = .idle → U.acts p m.user m'.user → q'.phase = .idle → m'.value = m.value →
      Answer U p m m' q q'
  | exit : q'.phase = .exited → m'.user = m.user → m'.value = m.value → Answer U p m m' q q'
  | perform {c : Call} {r : Int32} : q.phase = .invoked c → q'.phase = .responded r →
      Effect c (slot ∘ m.value) r (slot ∘ m'.value) → m'.user = m.user →
      (∀ s, c.sem = some s → ¬ c.Rejected → .sem s ∈ q.held p ∧ .sem s ∈ q'.held p) →
      Answer U p m m' q q'

/-- **Each move is a step of the array, of a client, or none.** -/
theorem Moves.answer (h : Moves U p m q q' m') (hq : q.asserts m.value)
    (hup : ∀ s, q = .upWrite s → m.value s ≠ Int32.maxValue ∧ 0 ≤ m.value s)
    (hdown : ∀ s, q = .downWrite s → 0 ≤ m.value s) : Answer U p m m' q q' := by
  cases h.reply with
  | stutter hphase huser hvalue _ => exact .stutter hphase huser hvalue
  | invoke hidle hcall hphase hvalue _ => exact .invoke hidle hcall hphase hvalue
  | respond hphase huser hidle hvalue _ => exact .respond hphase huser hidle hvalue
  | act hidle hact hidle' hvalue _ => exact .act hidle hact hidle' hvalue
  | exit hphase huser hvalue _ => exact .exit hphase huser hvalue
  | perform hinv hresp hout huser hpoint hlock =>
    refine .perform hinv hresp ?_ huser hlock
    have hupdate : ∀ {s v}, m'.value = Function.update m.value s v →
        slot ∘ m'.value = Function.update (slot ∘ m.value) s (slot v) := by
      intro s v hv
      rw [hv, Function.comp_update]
    cases hout with
    | reject hrej hv _ => rw [hv]; exact .reject hrej
    | openErr hne hv _ => rw [hv]; exact .openErr (slot_eq_none.not.2 hne)
    | @openOk s v hempty hv _ =>
      rw [hpoint rfl] at hq
      have hpos : 0 ≤ v := hq
      rw [hupdate hv, slot_of_nonneg hpos]
      exact .openOk hpos (slot_eq_none.2 hempty)
    | close hv _ => rw [hupdate hv, slot_eq_none.2 rfl]; exact .close
    | upErr hempty hv _ => rw [hv]; exact .upErr (slot_eq_none.2 hempty)
    | upOk hv _ =>
      obtain ⟨hmax, hpos⟩ := hup _ (hpoint rfl)
      rw [hupdate hv, slot_succ hpos hmax]
      exact .upOk (slot_of_nonneg hpos)
    | downErr hempty hv _ => rw [hv]; exact .downErr (slot_eq_none.2 hempty)
    | @downOk s hv _ =>
      have hpos := hdown _ (hpoint rfl)
      rw [hpoint rfl] at hq
      have hzero : m.value s ≠ 0 := hq
      rw [hupdate hv, slot_pred hpos hzero]
      refine .downOk (slot_of_nonneg hpos) ?_
      have hle : 0 ≤ (m.value s).toInt := Int32.le_iff_toInt_le.1 hpos
      have hne : (m.value s).toInt ≠ 0 := fun h => hzero (Int32.toInt_inj.1 h)
      omega
    | kill hv _ => rw [hv]; exact .kill

omit [DecidableEq C] in
theorem KInv.inside (h : KInv U σ) (hs : .sem s ∈ (σ.pc p).held p) :
    ∃ k, σ.ctx k = .running p ∧ σ.owner (.sem s) = some k := by
  obtain ⟨k, hk⟩ := h.disc.threads.on_cpu (held_sem_unparked hs)
  exact ⟨k, hk, (h.disc.locks.owner _ k).2 (by rw [hk]; exact hs)⟩

omit [DecidableEq C] in
theorem abstract_eq (σ : KState n G C) (log log' : List (Fin n × Call × Int32))
    (hpc : σ'.pc = Function.update σ.pc p q) : abstract σ' log' =
      { obj := slot ∘ σ'.mem.value
        phase := Function.update (abstract σ log).phase p q.phase
        user := σ'.mem.user
        log := log' } := by
  simp only [abstract, hpc, Function.comp_update]

/-- The runs of the kernel next to the array, from the states `init`. -/
abbrev Linearizes (U : UserSys n G) (init : KState n G C → AState n G → Prop) :
    KState n G C → AState n G → Prop :=
  Linearized U.clients Effect (Step (code U)) init (fun σ α => α = abstract σ α.log) Inside

/-- **A step of the kernel is answered by the array.** -/
theorem abstract_step {init : KState n G C → AState n G → Prop}
    {log : List (Fin n × Call × Int32)} (h : Linearizes U init σ (abstract σ log))
    (hk : KInv U σ) (hs : Step (code U) σ a σ') (hg : ∀ p, a = some p → Gentle σ p) :
    ∃ log', Linearizes U init σ' (abstract σ' log') := by
  have hsame : σ'.pc = σ.pc → σ'.mem.user = σ.mem.user → σ'.mem.value = σ.mem.value →
      ∃ log', Linearizes U init σ' (abstract σ' log') := by
    intro hpc huser hvalue
    have heq : abstract σ' log = abstract σ log := by simp only [abstract, hpc, huser, hvalue]
    exact ⟨log, heq ▸ .stutter h hs heq.symm⟩
  rcases step_cases hs with ⟨-, hpc, hm | ⟨t, -, hm⟩⟩ | ⟨p, q, rfl, -, hq, hpc⟩
  · exact hsame hpc (by rw [hm]) (by rw [hm])
  · exact hsame hpc (by rw [hm]; rfl) (by rw [hm]; rfl)
  · have hgp := hg p rfl
    have habs := fun log' => abstract_eq σ log log' hpc
    cases hq.answer (hk.asserts p) hgp.up hgp.down with
    | stutter hphase huser hvalue =>
      have hold : q.phase = (abstract σ log).phase p := hphase
      have heq : abstract σ' log = abstract σ log := by
        rw [habs, hold, Function.update_eq_self, huser, hvalue]; rfl
      exact ⟨log, heq ▸ .stutter h hs heq.symm⟩
    | invoke hidle hcall hphase hvalue =>
      refine ⟨log, .client h hs ?_ rfl⟩
      rw [habs, hphase, hvalue]
      exact .invoke hidle hcall
    | respond hphase huser hidle hvalue =>
      refine ⟨log, .client h hs ?_ rfl⟩
      rw [habs, hidle, huser, hvalue]
      exact .respond hphase
    | act hidle hact hidle' hvalue =>
      refine ⟨log, .client h hs ?_ rfl⟩
      have hold : Phase.idle = (abstract σ log).phase p := hidle.symm
      rw [habs, hidle', hold, Function.update_eq_self, hvalue]
      exact .act hidle hact
    | exit hphase huser hvalue =>
      refine ⟨log, .client h hs ?_ rfl⟩
      rw [habs, hphase, huser, hvalue]
      exact .exit
    | @perform c r hinv hresp heffect huser hlock =>
      refine ⟨log ++ [(p, c, r)], .perform (p := p) (o := c) h hs ?_ ?_ ?_ rfl⟩
      · rw [habs, hresp, huser]
        exact .mk hinv heffect
      · intro s hc hrej
        exact hk.inside (hlock s hc hrej).1
      · intro s hc hrej
        refine (hk.step hs).inside (s := s) ?_
        rw [hpc, Function.update_self]
        exact (hlock s hc hrej).2

/-! ## Waiting on open semaphores -/

/-- A sem_down that is behind its first test is on an open semaphore. -/
def WaitsOpen (σ : KState n G C) : Prop := ∀ p s, (σ.pc p).waits s → σ.mem.value s ≠ emptySem

theorem enter_waits {c : Call} {f : Free} (h : (enter c : Point n) = .free f) : ¬ f.waits s := by
  have hf := enter_phase h
  cases f with
  | reacquire s' =>
    cases c <;> simp only [enter] at h <;> (try split_ifs at h) <;> cases h
  | _ => exact id

theorem Moves.waits (h : Moves U p m q q' m') (hq : q'.waits s) :
    q.waits s ∨ q = .downTest s ∧ m.value s ≠ emptySem := by
  cases h with
  | enter hf => exact absurd hq (enter_waits hf)
  | downTest hv => obtain rfl := hq; exact .inr ⟨rfl, hv⟩
  | preempt _ => exact .inl hq
  | downSleep _ => exact .inl hq
  | downLoop _ => exact .inl hq
  | sleep => exact .inl hq
  | sleepRelease => exact .inl hq
  | sleepChan => exact .inl hq
  | sleepState => exact .inl hq
  | sleepSched => exact .inl hq
  | sleepWoken => exact .inl hq
  | sleepUnlock => exact .inl hq
  | reacquire => exact .inl hq
  | yield => exact .inl hq
  | yieldState => exact .inl hq
  | yieldSched => exact .inl hq
  | yieldRelease => exact .inl hq
  | _ => exact hq.elim

/-- A step keeps the semaphore open that a sem_down waits on, unless it closes
    it. -/
theorem waits_step (h : ∀ p, (σ.pc p).waits s → σ.mem.value s ≠ emptySem) (hk : KInv U σ)
    (hs : Step (code U) σ a σ') (hclose : ∀ p, a = some p → ClosesIdle s σ p)
    (hup : ∀ p, a = some p → σ.pc p = .upWrite s → emptySem ≤ σ.mem.value s) :
    ∀ t, (σ'.pc t).waits s → σ'.mem.value s ≠ emptySem := by
  intro t ht
  have hold : (σ.pc t).waits s → σ'.mem.value s ≠ emptySem := by
    intro hw
    have hne := h t hw
    rcases step_writes hs s with ⟨hv, -⟩ | ⟨p, rfl, hwrites⟩
    · rwa [hv]
    · have hasserts := hk.asserts p
      generalize hpc : σ.pc p = r at hwrites hasserts
      generalize σ'.pc p = r' at hwrites
      cases hwrites with
      | keep hv _ => rwa [hv]
      | openTest hempty _ _ => exact absurd hempty hne
      | closeWrite _ _ => exact absurd hw (hclose p rfl hpc t)
      | upWrite hv _ =>
        have hbound := hup p rfl hpc
        rw [hv]
        intro hempty
        rw [emptySem] at hempty hbound
        exact absurd hbound (by grind)
      | downWrite hv _ =>
        have hzero : σ.mem.value s ≠ 0 := hasserts
        rw [hv]
        intro hempty
        exact hzero (by rw [emptySem] at hempty; grind)
  rcases step_cases hs with ⟨-, hpc, -⟩ | ⟨p, q, rfl, -, hq, hpc⟩
  · rw [hpc] at ht; exact hold ht
  · by_cases htp : t = p
    · subst htp
      rw [hpc, Function.update_self] at ht
      rcases hq.waits ht with hw | ⟨htest, hne⟩
      · exact hold hw
      · rw [htest] at hq
        cases hq.writes s with
        | keep hv _ => rwa [hv]
    · rw [hpc, Function.update_of_ne htp] at ht
      exact hold ht

theorem WaitsOpen.step (h : WaitsOpen σ) (hk : KInv U σ) (hs : Step (code U) σ a σ')
    (hg : ∀ p, a = some p → Gentle σ p) : WaitsOpen σ' := by
  intro t s ht
  exact waits_step (fun p => h p s) hk hs (fun p hp => (hg p hp).close s)
    (fun p hp hpc => Int32.le_trans (by decide) ((hg p hp).up s hpc).2) t ht

omit [DecidableEq C] in
theorem Starts.waitsOpen (h : Starts table g σ) : WaitsOpen σ := by
  intro p s hp
  rw [h.pc] at hp; exact hp.elim

end OSLabs.Kernel
