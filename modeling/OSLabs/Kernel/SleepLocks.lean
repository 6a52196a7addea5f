/-
  The locks in sleep, wakeup and kill.

  The annotation of the program points that LockMachine asks for: in sleep a process
  takes its own lock before it releases that of the monitor, and holds it until the
  scheduler has switched away from it.
-/
import OSLabs.Kernel.SleepWakeup

namespace OSLabs.Sleep

open LockMachine

variable {n : ℕ} {S K P C : Type} [DecidableEq K] {B : Client n S K P} {t : Fin n}
  {q q' : Point B} {m m' : Mem n S K} {l : Lock n}

namespace Point

/-- The locks held at a point. -/
def locks (t : Fin n) : Point B → List (Lock n)
  | .place f => if f.held = true then [.mon] else []
  | .forkret _ _ => [.proc t]
  | .wakeup _ _ _ _ => [.mon]
  | .wakeupCheck _ _ _ x => [.proc x, .mon]
  | .wakeupRelease _ _ _ x => [.proc x, .mon]
  | .sleepRelease _ _ _ => [.proc t, .mon]
  | .sleepChan _ _ _ => [.proc t]
  | .sleepState _ _ _ => [.proc t]
  | .sleepSched _ _ _ => [.proc t]
  | .sleepWoken _ _ _ => [.proc t]
  | .sleepUnlock _ _ => [.proc t]
  | .killCheck _ _ _ x => [.proc x]
  | .killRelease _ _ _ x _ => [.proc x]
  | .yield _ _ => []
  | .yieldState _ _ => [.proc t]
  | .yieldSched _ _ => [.proc t]
  | .yieldRelease _ _ => [.proc t]

/-- The process is marked as running at a point. -/
def awake : Point B → Bool
  | .sleepSched _ _ _ => false
  | .yieldSched _ _ => false
  | _ => true

/-- A scheduler resumes the process at this point. -/
def parked : Point B → Bool
  | .forkret _ _ => true
  | .sleepWoken _ _ _ => true
  | .yieldRelease _ _ => true
  | _ => false

end Point

theorem locks_client {q : P} (h : B.held q = true) :
    (Point.place (.client q) : Point B).locks t = [.mon] := if_pos h

theorem locks_client_free {q : P} (h : B.held q = false) :
    (Point.place (.client q) : Point B).locks t = [] :=
  if_neg fun ht => Bool.false_ne_true (h.symm.trans ht)

theorem locks_place {f : Place B} (h : f.held = false) : (Point.place f).locks t = [] :=
  if_neg fun ht => Bool.false_ne_true (h.symm.trans ht)

theorem Acquires.locks (h : Acquires t m q l q') :
    l ∉ q.locks t ∧ q'.locks t = l :: q.locks t ∧ q'.awake = q.awake := by
  cases h with
  | client hi =>
    obtain ⟨hq, hq'⟩ := B.disc.acquire hi
    rw [locks_client_free hq, locks_client hq']
    exact ⟨List.not_mem_nil, rfl, rfl⟩
  | sleep hi =>
    rw [locks_client (B.disc.sleep hi).1]
    exact ⟨by simp, rfl, rfl⟩
  | @reacquire q hq =>
    rw [locks_client hq, locks_place (f := .reacquire q hq) rfl]
    exact ⟨List.not_mem_nil, rfl, rfl⟩
  | wakeup hx => exact ⟨by simp [Point.locks], rfl, rfl⟩
  | @kill q hq pid x =>
    rw [locks_place (f := .kill q hq pid x) rfl]
    exact ⟨List.not_mem_nil, rfl, rfl⟩
  | yield => exact ⟨List.not_mem_nil, rfl, rfl⟩

theorem Releases.locks (h : Releases t m q l q') :
    l ∈ q.locks t ∧ q'.locks t = (q.locks t).erase l ∧ q'.awake = q.awake := by
  cases h with
  | client hi =>
    obtain ⟨hq, hq'⟩ := B.disc.release hi
    rw [locks_client hq, locks_client_free hq']
    exact ⟨List.mem_singleton_self _, by simp, rfl⟩
  | @forkret q hq =>
    rw [locks_client_free hq]
    exact ⟨List.mem_singleton_self _, by simp [Point.locks], rfl⟩
  | wakeup => exact ⟨by simp [Point.locks], by simp [Point.locks], rfl⟩
  | sleepMon => exact ⟨by simp [Point.locks], by simp [Point.locks], rfl⟩
  | @sleepProc q hq =>
    rw [locks_place (f := .reacquire q hq) rfl]
    exact ⟨List.mem_singleton_self _, by simp [Point.locks], rfl⟩
  | @killed q hq pid x =>
    rw [locks_client_free hq]
    exact ⟨List.mem_singleton_self _, by simp [Point.locks], rfl⟩
  | @killNext q hq pid x =>
    rw [locks_place (f := .kill q hq pid (x + 1)) rfl]
    exact ⟨List.mem_singleton_self _, by simp [Point.locks], rfl⟩
  | @yield f hf =>
    rw [locks_place hf]
    exact ⟨List.mem_singleton_self _, by simp [Point.locks], rfl⟩

theorem Scheds.locks (h : Scheds q q') :
    q.locks t = [.proc t] ∧ q.awake = false ∧ q'.parked = true := by
  cases h <;> exact ⟨rfl, rfl, rfl⟩

/-- What a run has to respect. -/
structure Respects (t : Fin n) (q : Point B) (m : Mem n S K) (q' : Point B) (m' : Mem n S K) :
    Prop where
  locks : q'.locks t = q.locks t
  awake : q'.awake = true → q.awake = true ∧ m'.state t = m.state t
  asleep : q'.awake = false → m'.state t ≠ .running
  others : ∀ x, m'.state x ≠ m.state x → .proc x ∈ q.locks t ∧
    (x ≠ t → m.state x ≠ .running ∧ m'.state x ≠ .running)

theorem Respects.same (hs : m'.state = m.state) (hl : q'.locks t = q.locks t)
    (hq : q.awake = true) (hq' : q'.awake = true) : Respects t q m q' m' :=
  ⟨hl, fun _ => ⟨hq, by rw [hs]⟩, fun hf => absurd (hq'.symm.trans hf) (by simp),
    fun x hx => absurd (by rw [hs]) hx⟩

/-- A process that sleeps is woken up, with its lock held. -/
theorem Respects.wake {x : Fin n} (hx : m.state x = .sleeping)
    (hs : m'.state = Function.update m.state x .runnable) (hmem : .proc x ∈ q.locks t)
    (ht : m.state t = .running) (hl : q'.locks t = q.locks t) (hq : q.awake = true)
    (hq' : q'.awake = true) : Respects t q m q' m' := by
  have htx : t ≠ x := by
    rintro rfl; rw [ht] at hx; cases hx
  refine ⟨hl, fun _ => ⟨hq, by rw [hs, Function.update_of_ne htx]⟩,
    fun hf => absurd (hq'.symm.trans hf) (by simp), fun y hy => ?_⟩
  obtain rfl : y = x := by
    by_contra hne
    rw [hs, Function.update_of_ne hne] at hy; exact hy rfl
  refine ⟨hmem, fun _ => ⟨by rw [hx]; simp, ?_⟩⟩
  rw [hs, Function.update_self]; simp

/-- A process stops to run, with its own lock held. -/
theorem Respects.leave {st : Status} (hst : st ≠ .running)
    (hs : m'.state = Function.update m.state t st) (hmem : .proc t ∈ q.locks t)
    (hl : q'.locks t = q.locks t) (hq' : q'.awake = false) : Respects t q m q' m' := by
  refine ⟨hl, fun hf => absurd (hq'.symm.trans hf) (by simp), fun _ => ?_, fun y hy => ?_⟩
  · rw [hs, Function.update_self]; exact hst
  · obtain rfl : y = t := by
      by_contra hne
      rw [hs, Function.update_of_ne hne] at hy; exact hy rfl
    exact ⟨hmem, fun hne => absurd rfl hne⟩

theorem Runs.respects (h : Runs t m q m' q') (ht : m.state t = .running ↔ q.awake = true) :
    Respects t q m q' m' := by
  cases h with
  | @client q s q' hi =>
    refine .same rfl ?_ rfl rfl
    have hq : B.held q' = B.held q := B.disc.run hi
    cases hb : B.held q with
    | true => rw [locks_client hb, locks_client (hq.trans hb)]
    | false => rw [locks_client_free hb, locks_client_free (hq.trans hb)]
  | wakeup hi => exact .same rfl (locks_client (B.wakes hi)).symm rfl rfl
  | @kill q pid hq =>
    refine .same rfl ?_ rfl rfl
    rw [locks_client_free hq, locks_place (f := .kill q hq pid 0) rfl]
  | preempt hf => exact .same rfl (locks_place hf).symm rfl rfl
  | @killEnd q hq pid i =>
    refine .same rfl ?_ rfl rfl
    rw [locks_client_free hq, locks_place (f := .kill q hq pid i) rfl]
  | wakeupSelf => exact .same rfl rfl rfl rfl
  | @wakeupEnd k q hq => exact .same rfl (locks_client hq) rfl rfl
  | wake hx => exact .wake hx rfl (by simp [Point.locks]) (ht.2 rfl) rfl rfl rfl
  | wakeNot => exact .same rfl rfl rfl rfl
  | sleepChan => exact .same rfl rfl rfl rfl
  | sleepState => exact .leave (by simp) rfl (by simp [Point.locks]) rfl rfl
  | sleepWoken => exact .same rfl rfl rfl rfl
  | killWake hx => exact .wake hx rfl (by simp [Point.locks]) (ht.2 rfl) rfl rfl rfl
  | killAwake => exact .same rfl rfl rfl rfl
  | killNot => exact .same rfl rfl rfl rfl
  | yieldState => exact .leave (by simp) rfl (by simp [Point.locks]) rfl rfl

/-- **The machine keeps a lock discipline.** -/
def discipline (B : Client n S K P) : Discipline (code B) where
  held := Point.locks
  awake _ := Point.awake
  parked _ := Point.parked
  lockOf_injective _ _ h := Lock.proc.inj h
  status_setRunning m p t := by simp only [code, Mem.setState, Function.update_apply]
  nodup p q := by
    cases q with
    | place f => simp only [Point.locks]; split_ifs <;> simp
    | _ => simp [Point.locks]
  parked_held p q hq := by cases q <;> first | exact ⟨rfl, rfl⟩ | cases hq
  asleep_held p q hq := by cases q <;> first | exact List.mem_singleton_self _ | cases hq
  acquire h := (Does.acquires h).locks
  release h := (Does.releases h).locks
  run h ht := by
    obtain ⟨h₁, h₂, h₃, h₄⟩ := (Does.runs h).respects ht
    exact ⟨h₁, h₂, h₃, h₄⟩
  sched h := (Does.scheds h).locks

variable {α : MState n S K P} {φ φ' : SState B C}

theorem Boots.start (h : Boots α φ) : (discipline B).Start φ where
  owner := h.owner
  noff := h.noff
  ctx := h.ctx
  parked p := by
    obtain ⟨hq, hpc⟩ := h.pc p
    refine ⟨by rw [hpc]; rfl, ?_⟩
    show φ.mem.state p ≠ .running
    rw [h.state]; simp

end OSLabs.Sleep
